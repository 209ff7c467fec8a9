import ImpLower.Proofs.Semantics.Agreement

/-!
# Machines that follow an evaluation

`Follows` says what a machine does while an expression or a statement is evaluated. Where the
evaluation has a result, the machine reaches a state that fits it. Where the program is at fault, the
machine traps with the same error and the same globals. Where a loop uses up its fuel, the machine has
made at least as many steps. An evaluation that is stuck is followed by nothing. The globals have their
declared types in every state on the way.
-/

namespace ImpLower.Semantics

open Code Machine Typed

/-- A fault that a checked program can run into. -/
def Fault.Regular : Fault → Prop
  | arithmetic op => op = .int .div ∨ op = .int .rem
  | _ => True

/-- The machine follows an evaluation from a state, and `Q` relates what they reach. -/
def Follows {α : Type} (ds : List Decl) (m : Code.Module) (fuel : Nat) (s : State)
    (r : Except Stop α × Env) (Q : α → Env → State → Prop) : Prop :=
  match r with
  | (.ok a, env) => ∃ n s', Steps m (GlobalsTyped ds) n s s' ∧ Q a env s'
  | (.error (.fault f), env) => f.Regular ∧ ∃ n globals,
      Halts m (GlobalsTyped ds) n s (.error f.trap) globals ∧ GlobalsAgree ds env.globals globals
  | (.error .stuck, _) => False
  | (.error .outOfFuel, _) => ∃ n s', fuel ≤ n ∧ Steps m (GlobalsTyped ds) n s s'

namespace Follows

variable {α β : Type} {ds : List Decl} {m : Code.Module} {fuel : Nat} {s s' : State} {env : Env}
  {r : Except Stop α × Env} {Q R : α → Env → State → Prop}

theorem here {a : α} (h : Q a env s) : Follows ds m fuel s (.ok a, env) Q :=
  ⟨0, s, .refl, h⟩

theorem after {n : Nat} (steps : Steps m (GlobalsTyped ds) n s s')
    (h : Follows ds m fuel s' r Q) : Follows ds m fuel s r Q := by
  rcases r with ⟨(f | _ | _) | a, env⟩
  · obtain ⟨regular, k, globals, halts, agree⟩ := h
    exact ⟨regular, n + k, globals, steps.halts halts, agree⟩
  · exact h
  · obtain ⟨k, t, le, more⟩ := h
    exact ⟨n + k, t, by omega, steps.trans more⟩
  · obtain ⟨k, t, more, q⟩ := h
    exact ⟨n + k, t, steps.trans more, q⟩

/-- A step before the rest uses up one more unit of fuel. -/
theorem step (typed : GlobalsTyped ds s.globals) (moves : next m s = .running s')
    (h : Follows ds m fuel s' r Q) : Follows ds m (fuel + 1) s r Q := by
  have one := Steps.one (m := m) (P := GlobalsTyped ds) typed moves
  rcases r with ⟨(f | _ | _) | a, env⟩
  · exact after one h
  · exact h
  · obtain ⟨k, t, le, more⟩ := h
    exact ⟨1 + k, t, by omega, one.trans more⟩
  · exact after one h

theorem weaken {fuel' : Nat} (h : Follows ds m fuel s r Q) (le : fuel' ≤ fuel) :
    Follows ds m fuel' s r Q := by
  rcases r with ⟨(f | _ | _) | a, env⟩
  · exact h
  · exact h
  · obtain ⟨k, t, le', more⟩ := h
    exact ⟨k, t, by omega, more⟩
  · exact h

theorem imp (h : Follows ds m fuel s r Q) (imp : ∀ a env s', Q a env s' → R a env s') :
    Follows ds m fuel s r R := by
  rcases r with ⟨(f | _ | _) | a, env⟩
  · exact h
  · exact h
  · exact h
  · obtain ⟨k, t, more, q⟩ := h
    exact ⟨k, t, more, imp _ _ _ q⟩

/-- What is reached is reached by steps. -/
theorem traced (h : Follows ds m fuel s r Q) : Follows ds m fuel s r fun a env s' =>
    (∃ n, Steps m (GlobalsTyped ds) n s s') ∧ Q a env s' := by
  rcases r with ⟨(f | _ | _) | a, env⟩
  · exact h
  · exact h
  · exact h
  · obtain ⟨n, t, steps, q⟩ := h
    exact ⟨n, t, steps, ⟨n, steps⟩, q⟩

theorem onward (h : Follows ds m fuel s r Q)
    (more : ∀ a env s', Q a env s' → ∃ n t, Steps m (GlobalsTyped ds) n s' t ∧ R a env t) :
    Follows ds m fuel s r R := by
  rcases r with ⟨(f | _ | _) | a, env⟩
  · exact h
  · exact h
  · exact h
  · obtain ⟨k, s₁, steps, q⟩ := h
    obtain ⟨n, t, steps', fits⟩ := more _ _ _ q
    exact ⟨k + n, t, steps.trans steps', fits⟩

theorem bind {x : Eval α} {f : α → Eval β} {Q : β → Env → State → Prop}
    (head : Follows ds m fuel s (x.exec env) R)
    (tail : ∀ a env' s', R a env' s' → Follows ds m fuel s' ((f a).exec env') Q) :
    Follows ds m fuel s ((x >>= f).exec env) Q := by
  rw [Stateful.exec_bind]
  generalize x.exec env = out at head ⊢
  rcases out with ⟨(g | _ | _) | a, env'⟩
  · exact head
  · exact head
  · exact head
  · obtain ⟨n, t, steps, fits⟩ := head
    exact after steps (tail a env' t fits)

/-- A value that is there already. -/
theorem bind_ok {a : α} {f : α → Eval β} {Q : β → Env → State → Prop}
    (tail : Follows ds m fuel s ((f a).exec env) Q) :
    Follows ds m fuel s ((Stateful.ofExcept (.ok a) >>= f).exec env) Q :=
  tail

theorem withFrame {x : Eval α} (h : Follows ds m fuel s (x.exec env.enter) R)
    (leave : ∀ a env' s', R a env' s' → Q a (env'.unwind env.depth) s') :
    Follows ds m fuel s ((ImpLower.withFrame x).exec env) Q := by
  rw [withFrame_exec]
  show Follows ds m fuel s ((x.exec env.enter).1, (x.exec env.enter).2.unwind env.depth) Q
  generalize x.exec env.enter = out at h ⊢
  rcases out with ⟨(f | _ | _) | a, env'⟩
  · exact h
  · exact h
  · exact h
  · obtain ⟨k, t, more, q⟩ := h
    exact ⟨k, t, more, leave _ _ _ q⟩

theorem fault {f : Fault} (regular : f.Regular) (agree : GlobalsAgree ds env.globals s.globals)
    (traps : next m s = .trapped f.trap s.globals) :
    Follows ds m fuel s (.error (.fault f), env) Q := by
  refine ⟨regular, 0, s.globals, ⟨s, .refl, ⟨_, agree⟩, ?_, ?_⟩, agree⟩
  · -- a missing block has a trap of its own
    cases hb : s.top.currentBlock? with
    | some block => rfl
    | none =>
        rw [next, hb] at traps
        cases f <;> cases traps
  · rw [traps]
    rfl

end Follows

/-! ## Registers -/

theorem operand_setRegister (a : Activation) (r : Nat) (l : Literal) :
    (a.setRegister r l).operand (.register r) = .ok l := by
  unfold Activation.setRegister
  split
  · next lt => simp [Activation.operand, lt]
  · next ge =>
      have size : a.registers.size + (r - a.registers.size) = r := by omega
      have last : ((a.registers ++ Array.replicate (r - a.registers.size) none).push (some l))[r]? =
          some (some l) := by
        rw [Array.getElem?_push, if_pos (by simp [size])]
      simp only [Activation.operand, last]

theorem operand_setRegister_of_below {a : Activation} {r : Nat} {o : Operand} {l v : Literal}
    (below : o.Below r) (read : a.operand o = .ok v) : (a.setRegister r l).operand o = .ok v := by
  cases o with
  | constant value => exact read
  | parameter i => exact below.elim
  | register k =>
      have lt : k < a.registers.size := by
        by_contra ge
        simp [Activation.operand, Array.getElem?_eq_none (Nat.le_of_not_lt ge)] at read
      have ne : r ≠ k := Nat.ne_of_gt below
      have same : (a.setRegister r l).registers[k]? = a.registers[k]? := by
        unfold Activation.setRegister
        split
        · exact Array.getElem?_setIfInBounds_ne ne
        · rw [Array.getElem?_push, if_neg (by simp; omega), Array.getElem?_append_left lt]
      rw [Activation.operand, same]
      exact read

theorem slots_setRegister (a : Activation) (r : Nat) (l : Literal) :
    (a.setRegister r l).slots = a.slots := by
  unfold Activation.setRegister
  split <;> rfl

theorem kept_setRegister (s : State) (r : Nat) (l : Literal) :
    Kept r s (s.setRegister r l).advance where
  callers := rfl
  size := congrArg Array.size (slots_setRegister s.top r l)
  operand _ _ below read := operand_setRegister_of_below below read

theorem At.setRegister {F : Function} {p : Place} {s : State} (here : At F p s) (r : Nat)
    (l : Literal) : At F p (s.setRegister r l) := by
  unfold State.setRegister Activation.setRegister
  split <;> exact ⟨here.function, here.block, here.next⟩

/-! ## Expressions under way -/

/-- The state has reached the place and holds what the environment says. -/
structure Ready (ds : List Decl) (F : Function) (sc : Names) (env : Env) (p : Place) (s : State) :
    Prop where
  agrees : Agrees ds sc env s
  here : At F p s

namespace Ready

variable {ds : List Decl} {m : Code.Module} {F : Function} {sc : Names} {env : Env} {p : Place}
  {s : State} {r c : Nat}

theorem typed (h : Ready ds F sc env p s) : GlobalsTyped ds s.globals :=
  h.agrees.typed

theorem setRegister (h : Ready ds F sc env p s) (placed : Placed sc ⟨r, c⟩) (l : Literal) :
    Ready ds F sc env (p.skip 1) (s.setRegister r l).advance where
  agrees := h.agrees.keep placed (kept_setRegister s r l) (slots_setRegister s.top r l) rfl
    h.agrees.globals
  here := (At.setRegister h.here r l).advance

end Ready

/-- The value of an expression of type `ty` is where its code leaves it. -/
inductive Yields (s : State) (ty : Ty) : Option Operand → Option Literal → Prop
  | value {o : Operand} {l : Literal} (read : s.top.operand o = .ok l) (typed : l.type = ty) :
      Yields s ty (some o) (some l)
  | nothing (void : ty = .void) : Yields s ty none none

end ImpLower.Semantics
