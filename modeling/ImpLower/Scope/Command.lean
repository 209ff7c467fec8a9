import ImpLower.Scope

/-!
# Scope commands

Operations on a scope as data, so that whole sequences of them can be run and spoken about. A nested
sequence runs inside a fresh frame and stops at its first failure.
-/

namespace ImpLower.Scope

inductive Command (α : Type) where
  | enter
  | exit
  | declare (name : String) (value : α)
  | declareGlobal (name : String) (value : α)
  | lookup (name : String)
  | current (name : String)
  | nested (body : List (Command α))

mutual

inductive Reply (α : Type) where
  | done
  | found (value : Option α)
  | declared (yes : Bool)
  | entries (entries : List (Entry α))

/-- How a command went, and the depth after it. A nested sequence that fails shows its entries up to
the failing one. -/
inductive Entry (α : Type) where
  | ok (reply : Reply α) (depth : Nat)
  | failed (error : Error) (inner : List (Entry α)) (depth : Nat)

end

variable {α : Type}

def Entry.error? : Entry α → Option Error
  | ok .. => none
  | failed e _ _ => some e

/-- A change that may be refused; the scope stays as it was if it is. -/
def changed (s : Scope α) : Except Error (Scope α) → Entry α × Scope α
  | .ok t => (.ok .done t.depth, t)
  | .error e => (.failed e [] s.depth, s)

def asked (s : Scope α) (reply : Reply α) : Entry α × Scope α :=
  (.ok reply s.depth, s)

mutual

def Command.exec : Command α → Scope α → Entry α × Scope α
  | .enter, s => changed s (.ok s.enter)
  | .exit, s => changed s s.exit
  | .declare name value, s => changed s (s.declare name value)
  | .declareGlobal name value, s => changed s (s.declareGlobal name value)
  | .lookup name, s => asked s (.found (s.lookup name))
  | .current name, s => asked s (.declared (s.declaresInCurrent name))
  | .nested body, s =>
      match (withFrame (Stateful.ofFn (execBody body))).exec s with
      | (.ok entries, t) => (.ok (.entries entries) t.depth, t)
      | (.error (e, entries), t) => (.failed e entries t.depth, t)

/-- Carries out commands up to the first failure, which comes with the entries so far. -/
def execBody :
    List (Command α) → Scope α → Except (Error × List (Entry α)) (List (Entry α)) × Scope α
  | [], s => (.ok [], s)
  | c :: rest, s =>
      let (entry, t) := c.exec s
      match entry.error? with
      | some e => (.error (e, [entry]), t)
      | none =>
          match execBody rest t with
          | (.ok entries, u) => (.ok (entry :: entries), u)
          | (.error (e, entries), u) => (.error (e, entry :: entries), u)

end

/-- Carries out commands one after the other, whether they fail or not. -/
def execAll : List (Command α) → Scope α → List (Entry α) × Scope α
  | [], s => ([], s)
  | c :: rest, s =>
      let (entry, t) := c.exec s
      let (entries, u) := execAll rest t
      (entry :: entries, u)

end ImpLower.Scope
