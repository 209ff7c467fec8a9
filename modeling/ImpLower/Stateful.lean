/-!
# Computations that keep their state when they fail

A computation takes a state to a result or an error, and to a state in either case. Checking and
lowering are written over it because what they did before a failure stays visible afterwards.
-/

namespace ImpLower

/-- A computation over a state that may fail and keeps the state it reached when it does. -/
abbrev Stateful (ε σ β : Type) := ExceptT ε (StateM σ) β

namespace Stateful

variable {ε σ β γ : Type}

def exec (m : Stateful ε σ β) (s : σ) : Except ε β × σ :=
  m s

/-- A computation given by what it does to each state. -/
def ofFn (f : σ → Except ε β × σ) : Stateful ε σ β :=
  f

def ofExcept (r : Except ε β) : Stateful ε σ β :=
  fun s => (r, s)

@[simp] theorem exec_ofFn (f : σ → Except ε β × σ) (s : σ) : (ofFn f).exec s = f s := rfl

@[simp] theorem exec_ofExcept (r : Except ε β) (s : σ) :
    (ofExcept r : Stateful ε σ β).exec s = (r, s) := rfl

@[simp] theorem exec_pure (b : β) (s : σ) : (pure b : Stateful ε σ β).exec s = (.ok b, s) := rfl

@[simp] theorem exec_throw (e : ε) (s : σ) :
    (throw e : Stateful ε σ β).exec s = (.error e, s) := rfl

/-- A failure stops the sequence and keeps the state it reached. -/
theorem exec_bind (m : Stateful ε σ β) (f : β → Stateful ε σ γ) (s : σ) :
    (m >>= f).exec s =
      match m.exec s with
      | (.ok b, t) => (f b).exec t
      | (.error e, t) => (.error e, t) := by
  show ExceptT.bindCont f (m s).1 (m s).2 = _
  unfold exec
  rcases m s with ⟨_ | _, _⟩ <;> rfl

end Stateful

end ImpLower
