import ImpLower.Machine.Run
import ImpLower.Proofs.Code.Layout

/-!
# Execution of a machine

A run is a sequence of single steps that the limit may cut off. `Steps` is such a sequence with a
promise about the globals in every state it leaves; `Halts` adds the step that ends the run. A run with
enough steps left ends as `Halts` says, and any other ends at the limit with globals that keep the
promise.
-/

namespace ImpLower.Machine

open Code

def next (m : Code.Module) (s : State) : Outcome :=
  match s.top.currentBlock? with
  | some block => step m block s
  | none => .trapped (missingBlock s.top) s.globals

/-- The end of a run, where a step is one. -/
def Outcome.ending? : Outcome → Option (Except Trap (Option Literal) × Array Cell)
  | running _ => none
  | returned value globals => some (.ok value, globals)
  | trapped trap globals => some (.error trap, globals)

/-- `n` steps from one state to another; `P` holds of the globals before each of them. -/
inductive Steps (m : Code.Module) (P : Array Cell → Prop) : Nat → State → State → Prop
  | refl {s : State} : Steps m P 0 s s
  | step {n : Nat} {s s₁ s' : State} (holds : P s.globals) (moves : next m s = .running s₁)
      (rest : Steps m P n s₁ s') : Steps m P (n + 1) s s'

/-- After `n` steps the run is in a block and the next step ends it. -/
def Halts (m : Code.Module) (P : Array Cell → Prop) (n : Nat) (s : State)
    (result : Except Trap (Option Literal)) (globals : Array Cell) : Prop :=
  ∃ s', Steps m P n s s' ∧ P s'.globals ∧ s'.top.currentBlock?.isSome = true ∧
    (next m s').ending? = some (result, globals)

variable {m : Code.Module} {P : Array Cell → Prop} {n k : Nat} {s s₁ s' : State}

theorem Steps.one (holds : P s.globals) (moves : next m s = .running s') : Steps m P 1 s s' :=
  .step holds moves .refl

theorem Steps.trans (h : Steps m P n s s₁) (h' : Steps m P k s₁ s') : Steps m P (n + k) s s' := by
  induction h with
  | refl => rwa [Nat.zero_add]
  | step holds moves rest ih =>
      rw [Nat.add_right_comm]
      exact .step holds moves (ih h')

theorem Steps.halts {result : Except Trap (Option Literal)} {globals : Array Cell}
    (h : Steps m P n s s₁) (h' : Halts m P k s₁ result globals) :
    Halts m P (n + k) s result globals := by
  obtain ⟨s', steps, rest⟩ := h'
  exact ⟨s', h.trans steps, rest⟩

/-! ## Runs -/

theorem currentBlock?_of_running (h : next m s = .running s') :
    ∃ block, s.top.currentBlock? = some block ∧ step m block s = .running s' := by
  unfold next at h
  cases hb : s.top.currentBlock? with
  | none => simp [hb] at h
  | some block =>
      simp only [hb] at h
      exact ⟨block, rfl, h⟩

theorem Steps.run (h : Steps m P n s s') (limit left steps : Nat) :
    run m limit (n + left) steps s = run m limit left (steps + n) s' := by
  induction h generalizing steps with
  | refl => rw [Nat.zero_add, Nat.add_zero]
  | @step n s s₁ s' holds moves rest ih =>
      obtain ⟨block, hb, hs⟩ := currentBlock?_of_running moves
      have one : Machine.run m limit (n + left + 1) steps s =
          Machine.run m limit (n + left) (steps + 1) s₁ := by
        simp [Machine.run, hb, hs]
      rw [Nat.add_right_comm, one, ih (steps + 1), Nat.add_right_comm, Nat.add_assoc]

/-- A run that is cut off ends at the limit. -/
theorem Steps.run_of_lt {left : Nat} (h : Steps m P n s s') (cut : left < n) (limit steps : Nat) :
    ∃ globals, P globals ∧
      Machine.run m limit left steps s = ⟨.error (.stepLimit limit), steps + left + 1, globals⟩ := by
  induction h generalizing left steps with
  | refl => exact absurd cut (Nat.not_lt_zero _)
  | @step n s s₁ s' holds moves rest ih =>
      obtain ⟨block, hb, hs⟩ := currentBlock?_of_running moves
      cases left with
      | zero => exact ⟨s.globals, holds, by simp [Machine.run, hb]⟩
      | succ left =>
          obtain ⟨globals, hg, hr⟩ := ih (Nat.lt_of_succ_lt_succ cut) (steps + 1)
          refine ⟨globals, hg, ?_⟩
          have one : Machine.run m limit (left + 1) steps s =
              Machine.run m limit left (steps + 1) s₁ := by
            simp [Machine.run, hb, hs]
          have sum : steps + 1 + left + 1 = steps + (left + 1) + 1 := by omega
          rw [one, hr, sum]

theorem run_of_ending {result : Except Trap (Option Literal)} {globals : Array Cell}
    (block : s.top.currentBlock?.isSome = true) (ends : (next m s).ending? = some (result, globals))
    (limit left steps : Nat) :
    run m limit (left + 1) steps s = ⟨result, steps + 1, globals⟩ := by
  obtain ⟨B, hb⟩ := Option.isSome_iff_exists.mp block
  simp only [next, hb] at ends
  simp only [run, hb]
  cases hs : step m B s with
  | running s' => simp [hs, Outcome.ending?] at ends
  | returned value g =>
      simp only [hs, Outcome.ending?, Option.some.injEq, Prod.mk.injEq] at ends
      obtain ⟨rfl, rfl⟩ := ends
      rfl
  | trapped trap g =>
      simp only [hs, Outcome.ending?, Option.some.injEq, Prod.mk.injEq] at ends
      obtain ⟨rfl, rfl⟩ := ends
      rfl

theorem Halts.run_of_lt {result : Except Trap (Option Literal)} {globals : Array Cell} {left : Nat}
    (h : Halts m P n s result globals) (enough : n < left) (limit steps : Nat) :
    run m limit left steps s = ⟨result, steps + n + 1, globals⟩ := by
  obtain ⟨s', moves, -, block, ends⟩ := h
  obtain ⟨more, rfl⟩ : ∃ more, left = n + (more + 1) := ⟨left - n - 1, by omega⟩
  rw [moves.run, run_of_ending block ends]

/-- A run that is cut off before its end stops at the limit. -/
theorem Halts.run_of_le {result : Except Trap (Option Literal)} {globals : Array Cell} {left : Nat}
    (h : Halts m P n s result globals) (cut : left ≤ n) (limit steps : Nat) :
    ∃ globals', P globals' ∧
      run m limit left steps s = ⟨.error (.stepLimit limit), steps + left + 1, globals'⟩ := by
  obtain ⟨s', moves, holds, block, ends⟩ := h
  rcases Nat.lt_or_eq_of_le cut with lt | rfl
  · exact moves.run_of_lt lt limit steps
  · obtain ⟨B, hb⟩ := Option.isSome_iff_exists.mp block
    refine ⟨s'.globals, holds, ?_⟩
    have whole := moves.run limit 0 steps
    rw [Nat.add_zero] at whole
    rw [whole]
    simp [run, hb]

/-! ## The step at a place -/

/-- The top activation runs the function and has reached the place. -/
structure At (F : Function) (p : Place) (s : State) : Prop where
  function : s.top.function = F
  block : s.top.block = p.block
  next : s.top.next = p.index

theorem next_of_hosted {F : Function} {p : Place} {i : Instruction} (here : At F p s)
    (hosted : HostedAt F p [i]) : next m s = execInstruction m i s := by
  obtain ⟨B, hB, his⟩ := hosted
  have found : B.instructions[p.index]? = some i := his 0 i rfl
  simp [Machine.next, Activation.currentBlock?, step, here.function, here.block, here.next, hB, found]

theorem next_of_ends {F : Function} {p : Place} {t : Terminator} (here : At F p s)
    (ends : EndsAt F p t) : next m s = execTerminator t s := by
  obtain ⟨B, hB, size, ht⟩ := ends
  have none : B.instructions[p.index]? = none := by simp [size]
  simp [Machine.next, Activation.currentBlock?, step, here.function, here.block, here.next, hB, none,
    ht]

theorem At.block_of_ends {F : Function} {p : Place} {t : Terminator} (here : At F p s)
    (ends : EndsAt F p t) : s.top.currentBlock?.isSome = true := by
  obtain ⟨B, hB, -⟩ := ends
  simp [Activation.currentBlock?, here.function, here.block, hB]

theorem At.advance {F : Function} {p : Place} (here : At F p s) : At F (p.skip 1) s.advance where
  function := here.function
  block := here.block
  next := congrArg (· + 1) here.next

theorem At.jump {F : Function} {p : Place} (here : At F p s) (block : Nat) :
    At F ⟨block, 0⟩ (s.jump block) where
  function := here.function
  block := rfl
  next := rfl

end ImpLower.Machine
