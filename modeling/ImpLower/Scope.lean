import ImpLower.Stateful
import ImpLower.Text.Quoted

/-!
# Lexical scopes

A scope is a stack of frames over a global frame that is always there. Names are declared in the
innermost frame, or in the global one, at most once per frame, and looked up from the inside out.

`withFrame` runs work inside a fresh frame and drops every frame the work left open, whether the work
succeeded or not. It serves any state that carries a scope.
-/

namespace ImpLower

/-- The bindings of one level. No name is bound twice. -/
abbrev Frame (α : Type) := List (String × α)

/-- Frames from the innermost outwards, and the global frame below them. -/
structure Scope (α : Type) where
  inner : List (Frame α) := []
  globals : Frame α := []

namespace Scope

/-- Why a change to a scope is refused. -/
inductive Error where
  | redeclaration (name : String)
  | underflow
  deriving DecidableEq, Repr

def Error.name : Error → String
  | redeclaration _ => "Redeclaration"
  | underflow => "Underflow"

def Error.message : Error → String
  | redeclaration name => Text.quoted name ++ " already declared in the current scope"
  | underflow => "attempted to exit the global scope"

variable {α : Type}

/-- Number of frames, the global one included. -/
def depth (s : Scope α) : Nat :=
  s.inner.length + 1

def current (s : Scope α) : Frame α :=
  s.inner.headD s.globals

def enter (s : Scope α) : Scope α :=
  { s with inner := [] :: s.inner }

/-- Closes the innermost frame; the global one stays. -/
def exit (s : Scope α) : Except Error (Scope α) :=
  match s.inner with
  | [] => .error .underflow
  | _ :: rest => .ok { s with inner := rest }

/-- Drops frames until at most `depth` are left. -/
def unwind (s : Scope α) (depth : Nat) : Scope α :=
  { s with inner := s.inner.drop (s.depth - depth) }

/-- Adds a binding to a frame that does not bind the name yet. -/
def bind (frame : Frame α) (name : String) (value : α) : Except Error (Frame α) :=
  match frame.lookup name with
  | some _ => .error (.redeclaration name)
  | none => .ok ((name, value) :: frame)

/-- Binds a name in the innermost frame. It may hide an outer binding. -/
def declare (s : Scope α) (name : String) (value : α) : Except Error (Scope α) :=
  match s.inner with
  | [] => (bind s.globals name value).map fun frame => { s with globals := frame }
  | top :: rest => (bind top name value).map fun frame => { s with inner := frame :: rest }

/-- Binds a name in the global frame, whatever frame is innermost. -/
def declareGlobal (s : Scope α) (name : String) (value : α) : Except Error (Scope α) :=
  (bind s.globals name value).map fun frame => { s with globals := frame }

/-- The binding of a name in the innermost frame that has one. -/
def lookup (s : Scope α) (name : String) : Option α :=
  (s.inner ++ [s.globals]).findSome? (List.lookup name)

def declaresInCurrent (s : Scope α) (name : String) : Bool :=
  (s.current.lookup name).isSome

theorem one_le_depth (s : Scope α) : 1 ≤ s.depth :=
  Nat.le_add_left 1 _

@[simp] theorem depth_enter (s : Scope α) : s.enter.depth = s.depth + 1 := rfl

/-- Unwinding to the depth before a frame was opened drops that frame. -/
theorem unwind_enter (s : Scope α) : s.enter.unwind s.depth = s := by
  simp [unwind, enter, depth]

theorem lookup_enter (s : Scope α) (name : String) : s.enter.lookup name = s.lookup name := by
  simp [lookup, enter, List.findSome?_cons]

theorem lookup_of_declare {s t : Scope α} {name : String} {value : α}
    (h : s.declare name value = .ok t) : t.lookup name = some value := by
  unfold declare at h
  split at h
  all_goals
    unfold bind at h
    split at h
    · simp [Except.map] at h
    · simp only [Except.map, Except.ok.injEq] at h
      subst h
      simp_all [lookup]

end Scope

class HasScope (σ : Type) (α : outParam Type) where
  scope : σ → Scope α
  setScope : σ → Scope α → σ
  scope_setScope : ∀ s t, scope (setScope s t) = t := by intros; rfl
  setScope_scope : ∀ s, setScope s (scope s) = s := by intros; rfl
  setScope_setScope : ∀ s t u, setScope (setScope s t) u = setScope s u := by intros; rfl

instance (α : Type) : HasScope (Scope α) α where
  scope s := s
  setScope _ t := t

/-- Runs `body` inside a fresh frame. Every frame above the depth before it is dropped on each path
out, so a failure leaks no binding into what follows. -/
def withFrame {ε σ α β : Type} [HasScope σ α] (body : Stateful ε σ β) : Stateful ε σ β :=
  Stateful.ofFn fun s =>
    let depth := (HasScope.scope s).depth
    let (result, t) := body.exec (HasScope.setScope s (HasScope.scope s).enter)
    (result, HasScope.setScope t ((HasScope.scope t).unwind depth))

theorem withFrame_exec {ε σ α β : Type} [HasScope σ α] (body : Stateful ε σ β) (s : σ) :
    (withFrame body).exec s =
      let inside := body.exec (HasScope.setScope s (HasScope.scope s).enter)
      (inside.1, HasScope.setScope inside.2
        ((HasScope.scope inside.2).unwind (HasScope.scope s).depth)) := rfl

end ImpLower
