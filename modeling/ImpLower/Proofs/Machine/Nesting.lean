import ImpLower.Proofs.Machine.Calls
import ImpLower.Proofs.Machine.Outcomes

/-!
# Nested calls

A machine keeps the callers of a running call in a list. Here a call is described by itself instead,
with the calls it makes nested inside: every instruction and every terminator counts a step, a call
raises the depth while it lasts and lowers it afterwards, however it ends. No fuel is involved. Each
call finishes in exactly one way, and that is how the machine runs it.
-/

namespace ImpLower.Machine

open Code

/-- What calls share: the globals, the steps counted so far and the number of active calls. -/
structure Gauge where
  globals : Array Cell
  steps : Nat
  depth : Nat

namespace Gauge

def tick (g : Gauge) : Gauge :=
  { g with steps := g.steps + 1 }

def store (g : Gauge) (globals : Array Cell) : Gauge :=
  { g with globals }

def enter (g : Gauge) : Gauge :=
  { g with depth := g.depth + 1 }

def leave (g : Gauge) : Gauge :=
  { g with depth := g.depth - 1 }

end Gauge

def CallsAt (B : Block) (position : Nat) : Prop :=
  ∃ dest callee operands, B.instructions[position]? = some (.call dest callee operands)

/-- Starts the call that an instruction asks for. -/
def invoke (m : Code.Module) (a : Activation) (callee : Nat) (operands : List Operand)
    (depth : Nat) : Except Trap Activation := do
  activate m callee (← a.operands operands) depth

/-- The active call finishes with the result and leaves the gauge behind. -/
inductive Finishes (m : Code.Module) (limit : Nat) :
    Activation → Gauge → Except Trap (Option Literal) → Gauge → Prop
  | missing {a : Activation} {g : Gauge} (here : a.currentBlock? = none) :
      Finishes m limit a g (.error (missingBlock a)) g
  | cutOff {a : Activation} {g : Gauge} {B : Block} (here : a.currentBlock? = some B)
      (spent : limit ≤ g.steps) : Finishes m limit a g (.error (.stepLimit limit)) g.tick
  | moves {a a' : Activation} {g g' : Gauge} {B : Block} {globals : Array Cell}
      {r : Except Trap (Option Literal)} (here : a.currentBlock? = some B)
      (left : g.steps < limit) (plain : ¬ CallsAt B a.next)
      (moved : step m B { globals := g.globals, top := a } = .running { globals, top := a' })
      (rest : Finishes m limit a' (g.tick.store globals) r g') : Finishes m limit a g r g'
  | returns {a : Activation} {g : Gauge} {B : Block} {globals : Array Cell}
      {value : Option Literal} (here : a.currentBlock? = some B) (left : g.steps < limit)
      (plain : ¬ CallsAt B a.next)
      (moved : step m B { globals := g.globals, top := a } = .returned value globals) :
      Finishes m limit a g (.ok value) (g.tick.store globals)
  | traps {a : Activation} {g : Gauge} {B : Block} {globals : Array Cell} {trap : Trap}
      (here : a.currentBlock? = some B) (left : g.steps < limit) (plain : ¬ CallsAt B a.next)
      (moved : step m B { globals := g.globals, top := a } = .trapped trap globals) :
      Finishes m limit a g (.error trap) (g.tick.store globals)
  | refused {a : Activation} {g : Gauge} {B : Block} {dest : Option Nat} {callee : Nat}
      {operands : List Operand} {trap : Trap} (here : a.currentBlock? = some B)
      (left : g.steps < limit) (called : B.instructions[a.next]? = some (.call dest callee operands))
      (refused : invoke m a callee operands g.depth = .error trap) :
      Finishes m limit a g (.error trap) g.tick
  | fails {a b : Activation} {g g' : Gauge} {B : Block} {dest : Option Nat} {callee : Nat}
      {operands : List Operand} {trap : Trap} (here : a.currentBlock? = some B)
      (left : g.steps < limit) (called : B.instructions[a.next]? = some (.call dest callee operands))
      (invoked : invoke m a callee operands g.depth = .ok b)
      (inner : Finishes m limit b g.tick.enter (.error trap) g') :
      Finishes m limit a g (.error trap) g'.leave
  | resumes {a b : Activation} {g g' g'' : Gauge} {B : Block} {dest : Option Nat} {callee : Nat}
      {operands : List Operand} {value : Option Literal} {r : Except Trap (Option Literal)}
      (here : a.currentBlock? = some B) (left : g.steps < limit)
      (called : B.instructions[a.next]? = some (.call dest callee operands))
      (invoked : invoke m a callee operands g.depth = .ok b)
      (inner : Finishes m limit b g.tick.enter (.ok value) g')
      (rest : Finishes m limit (a.advance.receive dest value) g'.leave r g'') :
      Finishes m limit a g r g''

variable {m : Code.Module} {limit : Nat} {a : Activation} {g g' : Gauge} {B : Block}
  {r : Except Trap (Option Literal)}

/-- However a call finishes, its depth is given back. -/
theorem Finishes.depth_eq (h : Finishes m limit a g r g') : g'.depth = g.depth := by
  induction h with
  | missing here => rfl
  | cutOff here spent => rfl
  | moves here left plain moved rest ih => exact ih
  | returns here left plain moved => rfl
  | traps here left plain moved => rfl
  | refused here left called refused => rfl
  | fails here left called invoked inner ih =>
      simp only [Gauge.leave, Gauge.enter, Gauge.tick] at ih ⊢
      omega
  | resumes here left called invoked inner rest ih ih' =>
      simp only [Gauge.leave, Gauge.enter, Gauge.tick] at ih ih' ⊢
      omega

theorem Finishes.steps_le (h : Finishes m limit a g r g') : g.steps ≤ g'.steps := by
  induction h with
  | missing here => exact Nat.le_refl _
  | cutOff here spent => exact Nat.le_succ _
  | moves here left plain moved rest ih => exact Nat.le_of_succ_le ih
  | returns here left plain moved => exact Nat.le_succ _
  | traps here left plain moved => exact Nat.le_succ _
  | refused here left called refused => exact Nat.le_succ _
  | fails here left called invoked inner ih => exact Nat.le_of_succ_le ih
  | resumes here left called invoked inner rest ih ih' =>
      exact Nat.le_trans (Nat.le_of_succ_le ih) ih'

/-! ## Steps below callers -/

/-- The state with callers below the active call. -/
def State.under (s : State) (callers : List Suspended) : State :=
  { s with callers }

/-- The outcome with callers below it; a result goes to the first of them. -/
def Outcome.under (callers : List Suspended) : Outcome → Outcome
  | running s => running (s.under callers)
  | trapped trap globals => trapped trap globals
  | returned value globals =>
      match callers with
      | [] => returned value globals
      | c :: rest => running ⟨globals, c.activation.receive c.dest value, rest⟩

theorem attempt_under {α : Type} {s : State} {callers : List Suspended} (r : Except Trap α)
    {k : α → State → Outcome} (h : ∀ x, k x (s.under callers) = (k x s).under callers) :
    (s.under callers).attempt r k = (s.attempt r k).under callers := by
  cases r with
  | error trap => rfl
  | ok x => exact h x

theorem write_under (s : State) (callers : List Suspended) (slot : Slot) (position : Nat)
    (value : Literal) :
    (s.under callers).write slot position value = (s.write slot position value).under callers := by
  cases slot with
  | stack n => rfl
  | global n => rfl

theorem element_under (s : State) (callers : List Suspended) (slot : Slot) (index : Int64) :
    (s.under callers).element slot index = s.element slot index := by
  cases slot with
  | stack n => rfl
  | global n => rfl

theorem execInstruction_under {s : State} {i : Instruction} (callers : List Suspended)
    (plain : ∀ dest callee operands, i ≠ .call dest callee operands) :
    execInstruction m i (s.under callers) = (execInstruction m i s).under callers := by
  cases i with
  | alloca slot ty length name =>
      rw [execInstruction, execInstruction]
      refine attempt_under _ fun n => ?_
      by_cases fits : slot < s.top.slots.size
      · simp only [State.under, fits, if_true]
        rfl
      · simp only [State.under, fits, if_false]
        rfl
  | load dest slot ty offset =>
      simp only [execInstruction, element_under]
      exact attempt_under _ fun _ => rfl
  | store slot ty offset value =>
      simp only [execInstruction, element_under]
      refine attempt_under _ fun _ => ?_
      simp only [write_under]
      rfl
  | binary dest op left right =>
      rw [execInstruction, execInstruction]
      exact attempt_under _ fun _ => rfl
  | compare dest test left right =>
      rw [execInstruction, execInstruction]
      exact attempt_under _ fun _ => rfl
  | convert dest conversion value target =>
      rw [execInstruction, execInstruction]
      exact attempt_under _ fun _ => rfl
  | call dest callee operands => exact absurd rfl (plain dest callee operands)

theorem execTerminator_under {s : State} (bottom : s.callers = []) (callers : List Suspended)
    (t : Terminator) :
    execTerminator t (s.under callers) = (execTerminator t s).under callers := by
  cases t with
  | branch target => rfl
  | condBranch condition onTrue onFalse =>
      rw [execTerminator, execTerminator]
      exact attempt_under _ fun _ => rfl
  | switch value default cases =>
      rw [execTerminator, execTerminator]
      exact attempt_under _ fun _ => rfl
  | ret value =>
      rw [execTerminator, execTerminator]
      refine attempt_under _ fun v => ?_
      simp only [State.pop, bottom]
      cases callers with
      | nil => rfl
      | cons c rest => rfl
  | unreachable => rfl

/-- Apart from calls, a step is the same whatever waits below, except that a result is passed on. -/
theorem step_under {s : State} (bottom : s.callers = []) (plain : ¬ CallsAt B s.top.next)
    (callers : List Suspended) :
    step m B (s.under callers) = (step m B s).under callers := by
  unfold step
  have same : (s.under callers).top = s.top := rfl
  rw [same]
  cases next : B.instructions[s.top.next]? with
  | some i =>
      apply execInstruction_under
      intro dest callee operands isCall
      exact plain ⟨dest, callee, operands, isCall ▸ next⟩
  | none =>
      cases B.terminator with
      | some t => exact execTerminator_under bottom callers t
      | none => rfl

/-- A step that is no call leaves the bottom call at the bottom. -/
theorem bottom_of_step {s s' : State} (bottom : s.callers = []) (plain : ¬ CallsAt B s.top.next)
    (moved : step m B s = .running s') : s'.callers = [] := by
  have leads := leads_step m B s
  rw [moved] at leads
  generalize outcome : Outcome.running s' = o at leads
  cases leads with
  | stays stays =>
      cases outcome
      rw [stays.callers, bottom]
  | enters called activated => exact absurd ⟨_, _, _, called⟩ plain
  | jumps ends leads =>
      cases outcome
      exact bottom
  | pops value =>
      rw [State.pop, bottom] at outcome
      cases outcome
  | trapsOnData data => cases outcome
  | trapsAtCall called refused => cases outcome
  | trapsAtEnd isOpen => cases outcome

theorem step_call {s : State} {dest : Option Nat} {callee : Nat} {operands : List Operand}
    (called : B.instructions[s.top.next]? = some (.call dest callee operands)) :
    step m B s =
      match invoke m s.top callee operands s.depth with
      | .ok b => .running (s.push dest b)
      | .error trap => .trapped trap s.globals := by
  unfold step
  rw [called]
  simp only [execInstruction]
  change s.attempt (invoke m s.top callee operands s.depth) _ = _
  cases invoke m s.top callee operands s.depth with
  | ok b => rfl
  | error trap => rfl

/-! ## Runs -/

theorem run_of_missing {s : State} (here : s.top.currentBlock? = none) (limit left steps : Nat) :
    run m limit left steps s = ⟨.error (missingBlock s.top), steps, s.globals⟩ := by
  cases left with
  | zero => simp only [run, here]
  | succ left => simp only [run, here]

theorem run_of_spent {s : State} (here : s.top.currentBlock? = some B) {limit steps : Nat}
    (spent : limit ≤ steps) :
    run m limit (limit - steps) steps s = ⟨.error (.stepLimit limit), steps + 1, s.globals⟩ := by
  have none : limit - steps = 0 := by omega
  simp only [none, run, here]

theorem run_of_left {s : State} (here : s.top.currentBlock? = some B) {limit steps : Nat}
    (left : steps < limit) :
    run m limit (limit - steps) steps s =
      match step m B s with
      | .running s' => run m limit (limit - (steps + 1)) (steps + 1) s'
      | .returned value globals => ⟨.ok value, steps + 1, globals⟩
      | .trapped trap globals => ⟨.error trap, steps + 1, globals⟩ := by
  have some : limit - steps = limit - (steps + 1) + 1 := by omega
  rw [some]
  cases moved : step m B s with
  | running s' => simp only [run, here, moved]
  | returned value globals => simp only [run, here, moved]
  | trapped trap globals => simp only [run, here, moved]

theorem run_of_plain {globals : Array Cell} {callers : List Suspended} {steps : Nat}
    (here : a.currentBlock? = some B) (left : steps < limit) (plain : ¬ CallsAt B a.next) :
    run m limit (limit - steps) steps ⟨globals, a, callers⟩ =
      match (step m B { globals, top := a }).under callers with
      | .running s' => run m limit (limit - (steps + 1)) (steps + 1) s'
      | .returned value globals => ⟨.ok value, steps + 1, globals⟩
      | .trapped trap globals => ⟨.error trap, steps + 1, globals⟩ := by
  rw [← step_under (s := { globals, top := a }) rfl plain callers]
  exact run_of_left here left

theorem run_of_call {globals : Array Cell} {callers : List Suspended} {steps : Nat}
    {dest : Option Nat} {callee : Nat} {operands : List Operand} (here : a.currentBlock? = some B)
    (left : steps < limit) (called : B.instructions[a.next]? = some (.call dest callee operands)) :
    run m limit (limit - steps) steps ⟨globals, a, callers⟩ =
      match invoke m a callee operands (callers.length + 1) with
      | .ok b =>
          run m limit (limit - (steps + 1)) (steps + 1) ⟨globals, b, ⟨a.advance, dest⟩ :: callers⟩
      | .error trap => ⟨.error trap, steps + 1, globals⟩ := by
  have stepped := step_call (m := m) (s := ⟨globals, a, callers⟩) called
  rw [run_of_left here left, stepped, State.depth]
  simp only
  cases invoke m a callee operands (callers.length + 1) with
  | ok b => rfl
  | error trap => rfl

/-- How a run goes on when the call above the callers has finished. -/
def conclude (m : Code.Module) (limit : Nat) (callers : List Suspended)
    (r : Except Trap (Option Literal)) (g : Gauge) : Ending :=
  match r, callers with
  | .error trap, _ => ⟨.error trap, g.steps, g.globals⟩
  | .ok value, [] => ⟨.ok value, g.steps, g.globals⟩
  | .ok value, c :: rest =>
      run m limit (limit - g.steps) g.steps ⟨g.globals, c.activation.receive c.dest value, rest⟩

theorem conclude_error (callers : List Suspended) (trap : Trap) (g : Gauge) :
    conclude m limit callers (.error trap) g = ⟨.error trap, g.steps, g.globals⟩ := by
  cases callers <;> rfl

theorem conclude_nil (r : Except Trap (Option Literal)) (g : Gauge) :
    conclude m limit [] r g = ⟨r, g.steps, g.globals⟩ := by
  cases r <;> rfl

/-- A machine runs a call the way it finishes, whatever waits below. -/
theorem Finishes.run (h : Finishes m limit a g r g') {callers : List Suspended}
    (level : g.depth = callers.length + 1) :
    Machine.run m limit (limit - g.steps) g.steps ⟨g.globals, a, callers⟩ =
      conclude m limit callers r g' := by
  induction h generalizing callers with
  | missing here => rw [run_of_missing here, conclude_error]
  | cutOff here spent =>
      rw [run_of_spent here spent, conclude_error]
      rfl
  | moves here left plain moved rest ih =>
      rw [run_of_plain here left plain, moved]
      exact ih level
  | returns here left plain moved =>
      rw [run_of_plain here left plain, moved]
      cases callers with
      | nil => rfl
      | cons c rest => rfl
  | traps here left plain moved =>
      rw [run_of_plain here left plain, moved, conclude_error]
      rfl
  | refused here left called refused =>
      rw [run_of_call here left called, ← level, refused, conclude_error]
      rfl
  | @fails a b g g' B dest callee operands trap here left called invoked inner ih =>
      have deeper : g.tick.enter.depth =
          (⟨a.advance, dest⟩ :: callers : List Suspended).length + 1 := by
        simp only [Gauge.enter, Gauge.tick, List.length_cons, level]
      rw [run_of_call here left called, ← level, invoked, conclude_error]
      exact (ih deeper).trans (conclude_error _ _ _)
  | @resumes a b g g' g'' B dest callee operands value r here left called invoked inner rest ih ih' =>
      have deeper : g.tick.enter.depth =
          (⟨a.advance, dest⟩ :: callers : List Suspended).length + 1 := by
        simp only [Gauge.enter, Gauge.tick, List.length_cons, level]
      have back : g'.leave.depth = callers.length + 1 := by
        have same := inner.depth_eq
        simp only [Gauge.leave, Gauge.enter, Gauge.tick] at same ⊢
        omega
      rw [run_of_call here left called, ← level, invoked]
      exact (ih deeper).trans (ih' back)

/-- Every call finishes. The steps that are left decrease with every step of it and of the calls it
makes. -/
theorem finishes_total (m : Code.Module) (limit : Nat) (a : Activation) (g : Gauge) :
    ∃ r g', Finishes m limit a g r g' := by
  induction remaining : limit - g.steps using Nat.strongRecOn generalizing a g with
  | _ n ih =>
      cases here : a.currentBlock? with
      | none => exact ⟨_, _, .missing here⟩
      | some B =>
          by_cases left : g.steps < limit
          · have fewer : ∀ (a' : Activation) (g' : Gauge), g.steps < g'.steps →
                ∃ r g'', Finishes m limit a' g' r g'' := by
              intro a' g' more
              exact ih (limit - g'.steps) (by omega) a' g' rfl
            by_cases calls : CallsAt B a.next
            · obtain ⟨dest, callee, operands, called⟩ := calls
              cases invoked : invoke m a callee operands g.depth with
              | error trap => exact ⟨_, _, .refused here left called invoked⟩
              | ok b =>
                  obtain ⟨r, g₁, inner⟩ := fewer b g.tick.enter (Nat.lt_succ_self _)
                  cases r with
                  | error trap => exact ⟨_, _, .fails here left called invoked inner⟩
                  | ok value =>
                      have more : g.steps < g₁.leave.steps := inner.steps_le
                      obtain ⟨r, g₂, rest⟩ := fewer (a.advance.receive dest value) g₁.leave more
                      exact ⟨_, _, .resumes here left called invoked inner rest⟩
            · cases moved : step m B { globals := g.globals, top := a } with
              | returned value globals => exact ⟨_, _, .returns here left calls moved⟩
              | trapped trap globals => exact ⟨_, _, .traps here left calls moved⟩
              | running s =>
                  have bottom := bottom_of_step rfl calls moved
                  obtain ⟨globals, a', callers⟩ := s
                  cases bottom
                  obtain ⟨r, g₁, rest⟩ := fewer a' (g.tick.store globals) (Nat.lt_succ_self _)
                  exact ⟨_, _, .moves here left calls moved rest⟩
          · exact ⟨_, _, .cutOff here (by omega)⟩

end ImpLower.Machine
