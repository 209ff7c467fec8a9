import ImpLower.Machine.Run

/-!
# Calls from outside

A machine is asked to call functions by name, one call after the other. Between two calls nothing is
left of the first but the globals and the number of steps.
-/

namespace ImpLower

/-- A call of a function from outside. -/
structure Invocation where
  name : String
  arguments : List Literal

namespace Machine

def answer (m : Machine) (c : Invocation) : Except Trap (Option Literal) :=
  (m.call c.name c.arguments).1

/-- The machine after some calls, whether they succeeded or not. -/
def after (m : Machine) (calls : List Invocation) : Machine :=
  calls.foldl (fun m c => (m.call c.name c.arguments).2) m

theorem after_concat (m : Machine) (calls : List Invocation) (c : Invocation) :
    m.after (calls ++ [c]) = ((m.after calls).call c.name c.arguments).2 := by
  simp [after]

/-- What holds of a machine and is kept by every call holds after any calls. -/
theorem after_keeps {P : Machine → Prop}
    (step : ∀ (m : Machine) (c : Invocation), P m → P (m.call c.name c.arguments).2) {m : Machine}
    (start : P m) (calls : List Invocation) : P (m.after calls) := by
  induction calls generalizing m with
  | nil => exact start
  | cons c rest ih => exact ih (step m c start)

theorem module_call (m : Machine) (name : String) (arguments : List Literal) :
    (m.call name arguments).2.module = m.module := by
  unfold call
  split
  · rfl
  · rfl

theorem limit_call (m : Machine) (name : String) (arguments : List Literal) :
    (m.call name arguments).2.limit = m.limit := by
  unfold call
  split
  · rfl
  · rfl

@[simp] theorem module_after (m : Machine) (calls : List Invocation) :
    (m.after calls).module = m.module :=
  after_keeps (P := fun m' => m'.module = m.module)
    (fun m' c same => (module_call m' c.name c.arguments).trans same) rfl calls

@[simp] theorem limit_after (m : Machine) (calls : List Invocation) :
    (m.after calls).limit = m.limit :=
  after_keeps (P := fun m' => m'.limit = m.limit)
    (fun m' c same => (limit_call m' c.name c.arguments).trans same) rfl calls

end Machine

end ImpLower
