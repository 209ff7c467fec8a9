import ImpLower.Proofs.Success

/-!
# Laws of frames

What declaring a name does to a scope, said once: the innermost frame gains one binding and nothing
else changes. A scope that only gained bindings in its innermost frame is restored by unwinding, and
replacing what the names stand for commutes with every operation.
-/

namespace ImpLower.Scope

variable {α β : Type}

/-- Adds a binding to the innermost frame, whether or not it binds the name already. -/
def push (s : Scope α) (name : String) (value : α) : Scope α :=
  match s.inner with
  | [] => { s with globals := (name, value) :: s.globals }
  | top :: rest => { s with inner := ((name, value) :: top) :: rest }

theorem declare_eq_ok {s t : Scope α} {name : String} {value : α} :
    s.declare name value = .ok t ↔ s.declaresInCurrent name = false ∧ s.push name value = t := by
  rcases s with ⟨_ | ⟨top, rest⟩, globals⟩
  · cases h : List.lookup name globals <;>
      simp [declare, declaresInCurrent, current, push, bind, Except.map, h]
  · cases h : List.lookup name top <;>
      simp [declare, declaresInCurrent, current, push, bind, Except.map, h]

theorem declareGlobal_eq_ok {s t : Scope α} {name : String} {value : α} :
    s.declareGlobal name value = .ok t ↔
      s.globals.lookup name = none ∧ { s with globals := (name, value) :: s.globals } = t := by
  cases h : List.lookup name s.globals <;> simp [declareGlobal, bind, Except.map, h]

/-- With no frame open, declaring and declaring globally are the same. -/
theorem declareGlobal_eq_declare {s : Scope α} (h : s.inner = []) (name : String) (value : α) :
    s.declareGlobal name value = s.declare name value := by
  rcases s with ⟨inner, globals⟩
  subst h
  rfl

/-! ## Look-up -/

theorem lookup_nil (globals : Frame α) (name : String) :
    ({ globals } : Scope α).lookup name = globals.lookup name := by
  simp [lookup, List.findSome?_cons]
  cases globals.lookup name <;> rfl

theorem lookup_cons (top : Frame α) (rest : List (Frame α)) (globals : Frame α) (name : String) :
    (⟨top :: rest, globals⟩ : Scope α).lookup name =
      (top.lookup name).or ((⟨rest, globals⟩ : Scope α).lookup name) := by
  simp only [lookup, List.cons_append, List.findSome?_cons]
  cases top.lookup name <;> rfl

theorem lookup_push_self (s : Scope α) (name : String) (value : α) :
    (s.push name value).lookup name = some value := by
  rcases s with ⟨_ | ⟨top, rest⟩, globals⟩
  · simp [push, lookup_nil]
  · simp [push, lookup_cons]

theorem lookup_push_of_ne (s : Scope α) {name other : String} (value : α) (h : other ≠ name) :
    (s.push name value).lookup other = s.lookup other := by
  have hb : (other == name) = false := by simpa using h
  rcases s with ⟨_ | ⟨top, rest⟩, globals⟩
  · simp [push, lookup_nil, List.lookup_cons, hb]
  · simp [push, lookup_cons, List.lookup_cons, hb]

/-! ## Growth of the innermost frame -/

/-- The scope with more bindings in its innermost frame. -/
def gain (s : Scope α) (new : Frame α) : Scope α :=
  match s.inner with
  | [] => { s with globals := new ++ s.globals }
  | top :: rest => { s with inner := (new ++ top) :: rest }

theorem inner_push {s : Scope α} (top : s.inner = []) (name : String) (value : α) :
    (s.push name value).inner = [] := by
  simp [push, top]

@[simp] theorem gain_nil (s : Scope α) : s.gain [] = s := by
  rcases s with ⟨_ | ⟨top, rest⟩, globals⟩ <;> rfl

theorem gain_gain (s : Scope α) (new more : Frame α) :
    (s.gain new).gain more = s.gain (more ++ new) := by
  rcases s with ⟨_ | ⟨top, rest⟩, globals⟩ <;> simp [gain]

theorem push_eq_gain (s : Scope α) (name : String) (value : α) :
    s.push name value = s.gain [(name, value)] := by
  rcases s with ⟨_ | ⟨top, rest⟩, globals⟩ <;> rfl

/-- Whatever a fresh frame gained, leaving it restores the scope around it. -/
@[simp] theorem unwind_gain_enter (s : Scope α) (new : Frame α) :
    (s.enter.gain new).unwind s.depth = s := by
  simp [unwind, enter, depth, gain]

@[simp] theorem inner_enter (s : Scope α) : s.enter.inner = [] :: s.inner := rfl

/-! ## Replacing what names stand for -/

/-- The scope with `f` applied to everything a name stands for. -/
def map (f : α → β) (s : Scope α) : Scope β where
  inner := s.inner.map fun frame => frame.map fun b => (b.1, f b.2)
  globals := s.globals.map fun b => (b.1, f b.2)

theorem lookup_mapFrame (f : α → β) (frame : Frame α) (name : String) :
    (frame.map fun b => (b.1, f b.2)).lookup name = (frame.lookup name).map f := by
  induction frame with
  | nil => rfl
  | cons b rest ih =>
      obtain ⟨n, a⟩ := b
      simp only [List.map_cons, List.lookup_cons]
      split
      · rfl
      · exact ih

@[simp] theorem lookup_map (f : α → β) (s : Scope α) (name : String) :
    (s.map f).lookup name = (s.lookup name).map f := by
  rcases s with ⟨inner, globals⟩
  induction inner with
  | nil => simp [map, lookup_nil, lookup_mapFrame]
  | cons top rest ih =>
      have step : (map f ⟨top :: rest, globals⟩).lookup name =
          ((top.lookup name).map f).or ((map f ⟨rest, globals⟩).lookup name) := by
        simp [map, lookup_cons, lookup_mapFrame]
      rw [step, ih, lookup_cons]
      cases top.lookup name <;> rfl

@[simp] theorem map_enter (f : α → β) (s : Scope α) : (s.map f).enter = s.enter.map f := rfl

@[simp] theorem map_push (f : α → β) (s : Scope α) (name : String) (value : α) :
    (s.push name value).map f = (s.map f).push name (f value) := by
  rcases s with ⟨_ | ⟨top, rest⟩, globals⟩ <;> rfl

@[simp] theorem declaresInCurrent_map (f : α → β) (s : Scope α) (name : String) :
    (s.map f).declaresInCurrent name = s.declaresInCurrent name := by
  rcases s with ⟨_ | ⟨top, rest⟩, globals⟩ <;>
    simp [map, declaresInCurrent, current, lookup_mapFrame]

end ImpLower.Scope

/-! ## Work that keeps to the innermost frame -/

namespace ImpLower

variable {ε σ α β γ : Type}

/-- Whatever comes of it, the work leaves the state as it was. -/
def Keeps (m : Stateful ε σ β) : Prop :=
  ∀ s, (m.exec s).2 = s

namespace Keeps

theorem pure (b : β) : Keeps (Pure.pure b : Stateful ε σ β) :=
  fun _ => rfl

theorem throw (e : ε) : Keeps (MonadExcept.throw e : Stateful ε σ β) :=
  fun _ => rfl

theorem bind {m : Stateful ε σ β} {f : β → Stateful ε σ γ} (hm : Keeps m)
    (hf : ∀ b, Keeps (f b)) : Keeps (m >>= f) := by
  intro s
  have hs := hm s
  rw [Stateful.exec_bind]
  rcases hr : m.exec s with ⟨_ | b, t⟩
  · rw [hr] at hs
    exact hs
  · rw [hr] at hs
    exact (hf b t).trans hs

end Keeps

variable [HasScope σ α]

/-- Whatever comes of it, the work at most adds bindings to the innermost frame. -/
def Restores (m : Stateful ε σ β) : Prop :=
  ∀ s, ∃ new, (m.exec s).2 = HasScope.setScope s ((HasScope.scope s).gain new)

namespace Restores

/-- Work in a frame of its own changes nothing at all. -/
theorem withFrame {m : Stateful ε σ β} (hm : Restores m) : Keeps (ImpLower.withFrame m) := by
  intro s
  obtain ⟨new, hs⟩ := hm (HasScope.setScope s (HasScope.scope s).enter)
  simp only [withFrame_exec, hs, HasScope.scope_setScope, HasScope.setScope_setScope,
    Scope.unwind_gain_enter, HasScope.setScope_scope]

theorem withFrame_eq_ok {m : Stateful ε σ β} (hm : Restores m) {s t : σ} {b : β} :
    (ImpLower.withFrame m).exec s = (.ok b, t) ↔
      s = t ∧ ∃ u, m.exec (HasScope.setScope s (HasScope.scope s).enter) = (.ok b, u) := by
  rw [Prod.ext_iff, hm.withFrame s, withFrame_exec, and_comm]
  rcases m.exec (HasScope.setScope s (HasScope.scope s).enter) with ⟨r, u⟩
  simp

end Restores

end ImpLower
