import Mathlib.Data.List.Induction
import ImpLower.Proofs.Machine.Execution
import ImpLower.Proofs.Machine.Nesting

/-!
# What calls leave behind

Whatever the code of a module is, every call from outside ends. It leaves globals of the same sizes
and a count of steps, and nothing else: the next call finds no active calls, whether the ones before
succeeded or not. Only the step that exceeds the limit is counted beyond it, once for each call that
ends so.
-/

namespace ImpLower.Machine

open Code

/-- The call from outside ends with the result and leaves the gauge behind. -/
inductive Completes (m : Code.Module) (limit : Nat) (c : Invocation) :
    Gauge → Except Trap (Option Literal) → Gauge → Prop
  | unknown {g : Gauge} (absent : m.functionIndex? c.name = none) :
      Completes m limit c g (.error (.unknownFunction c.name)) g
  | refused {g : Gauge} {index : Nat} {trap : Trap} (found : m.functionIndex? c.name = some index)
      (refused : activate m index c.arguments g.depth = .error trap) :
      Completes m limit c g (.error trap) g
  | runs {g g' : Gauge} {index : Nat} {a : Activation} {r : Except Trap (Option Literal)}
      (found : m.functionIndex? c.name = some index)
      (activated : activate m index c.arguments g.depth = .ok a)
      (inner : Finishes m limit a g.enter r g') : Completes m limit c g r g'.leave

/-- The calls complete one after the other, from a new machine on, and leave the gauge behind. -/
inductive Session (m : Code.Module) (limit : Nat) : List Invocation → Gauge → Prop
  | start : Session m limit [] ⟨m.globals.map initialCell, 0, 0⟩
  | call {calls : List Invocation} {c : Invocation} {g g' : Gauge}
      {r : Except Trap (Option Literal)} (before : Session m limit calls g)
      (completes : Completes m limit c g r g') : Session m limit (calls ++ [c]) g'

def gauge (M : Machine) : Gauge :=
  ⟨M.globals, M.steps, 0⟩

def following (M : Machine) (c : Invocation) : Machine :=
  (M.call c.name c.arguments).2

/-- What a machine answers to calls, one after the other. -/
def answers (M : Machine) : List Invocation → List (Except Trap (Option Literal))
  | [] => []
  | c :: rest => M.answer c :: (M.following c).answers rest

def isCutOff : Except Trap (Option Literal) → Bool
  | .error (.stepLimit _) => true
  | _ => false

variable {m : Code.Module} {limit : Nat} {c : Invocation} {g : Gauge}
  {r : Except Trap (Option Literal)}

/-! ## Each call completes in one way -/

theorem completes_total (m : Code.Module) (limit : Nat) (c : Invocation) (g : Gauge) :
    ∃ r g', Completes m limit c g r g' := by
  cases found : m.functionIndex? c.name with
  | none => exact ⟨_, _, .unknown found⟩
  | some index =>
      cases activated : activate m index c.arguments g.depth with
      | error trap => exact ⟨_, _, .refused found activated⟩
      | ok a =>
          obtain ⟨r, g', inner⟩ := finishes_total m limit a g.enter
          exact ⟨_, _, .runs found activated inner⟩

/-- What completes a call between calls is what the machine does. -/
theorem Completes.eq_call {M : Machine} (h : Completes M.module M.limit c M.gauge r g) :
    r = M.answer c ∧ g = (M.following c).gauge := by
  cases h with
  | unknown absent =>
      have called : M.call c.name c.arguments = (.error (.unknownFunction c.name), M) := by
        simp only [call, entry, absent]
      exact ⟨by rw [answer, called], by rw [following, called]⟩
  | @refused index trap found refused =>
      have called : M.call c.name c.arguments = (.error trap, M) := by
        have depth : activate M.module index c.arguments 0 = .error trap := refused
        simp only [call, entry, found, depth]
      exact ⟨by rw [answer, called], by rw [following, called]⟩
  | @runs g' index a _ found activated inner =>
      have level : M.gauge.enter.depth = ([] : List Suspended).length + 1 := rfl
      have ended := inner.run level
      rw [conclude_nil] at ended
      have called : M.call c.name c.arguments =
          (r, { M with globals := g'.globals, steps := g'.steps }) := by
        have depth : activate M.module index c.arguments 0 = .ok a := activated
        simp only [call, entry, found, depth]
        exact congrArg (fun e : Ending =>
          (e.result, ({ M with globals := e.globals, steps := e.steps } : Machine))) ended
      have depth : g'.leave.depth = 0 := by
        have same := inner.depth_eq
        simp only [Gauge.leave, Gauge.enter, gauge] at same ⊢
        omega
      refine ⟨by rw [answer, called], ?_⟩
      rw [following, called]
      exact congrArg (Gauge.mk g'.globals g'.steps) depth

theorem completes_iff {M : Machine} :
    Completes M.module M.limit c M.gauge r g ↔ r = M.answer c ∧ g = (M.following c).gauge := by
  constructor
  · exact Completes.eq_call
  · rintro ⟨rfl, rfl⟩
    obtain ⟨r, g, completes⟩ := completes_total M.module M.limit c M.gauge
    obtain ⟨rfl, rfl⟩ := completes.eq_call
    exact completes

theorem session_iff {calls : List Invocation} :
    Session m limit calls g ↔ g = ((Machine.new m limit).after calls).gauge := by
  have step : ∀ {calls c g r g'}, g = ((Machine.new m limit).after calls).gauge →
      (Completes m limit c g r g' ↔ r = ((Machine.new m limit).after calls).answer c ∧
        g' = ((Machine.new m limit).after (calls ++ [c])).gauge) := by
    intro calls c g r g' same
    have iff := completes_iff (M := (Machine.new m limit).after calls) (c := c) (r := r) (g := g')
    rw [module_after, limit_after] at iff
    rw [same, after_concat]
    exact iff
  constructor
  · intro session
    induction session with
    | start => rfl
    | call before completes ih => exact ((step ih).mp completes).2
  · rintro rfl
    induction calls using List.reverseRecOn with
    | nil => exact .start
    | append_singleton calls c ih => exact .call ih ((step rfl).mpr ⟨rfl, rfl⟩)

/-! ## Steps -/

/-- A run counts the steps it makes, and one more if it is cut off. -/
theorem steps_run (m : Code.Module) (limit left steps : Nat) (s : State) :
    steps ≤ (run m limit left steps s).steps ∧
      ((run m limit left steps s).steps ≤ steps + left ∨
        (run m limit left steps s).steps = steps + left + 1 ∧
          (run m limit left steps s).result = .error (.stepLimit limit)) := by
  induction left generalizing steps s with
  | zero =>
      unfold run
      cases s.top.currentBlock? with
      | none => exact ⟨Nat.le_refl _, .inl (Nat.le_refl _)⟩
      | some B => exact ⟨Nat.le_succ _, .inr ⟨rfl, rfl⟩⟩
  | succ left ih =>
      unfold run
      cases s.top.currentBlock? with
      | none => exact ⟨Nat.le_refl _, .inl (Nat.le_add_right _ _)⟩
      | some B =>
          simp only
          cases step m B s with
          | running s' =>
              obtain ⟨more, most⟩ := ih (steps + 1) s'
              simp only
              refine ⟨by omega, ?_⟩
              rcases most with within | ⟨beyond, cut⟩
              · exact .inl (by omega)
              · exact .inr ⟨by omega, cut⟩
          | returned value globals =>
              simp only
              omega
          | trapped trap globals =>
              simp only
              omega

theorem steps_following (M : Machine) (c : Invocation) :
    M.steps ≤ (M.following c).steps ∧
      (M.following c).steps ≤ max M.limit M.steps + (if isCutOff (M.answer c) then 1 else 0) := by
  unfold following answer call
  cases entry M.module c.name c.arguments with
  | error trap =>
      simp only
      omega
  | ok a =>
      obtain ⟨more, most⟩ := steps_run M.module M.limit (M.limit - M.steps) M.steps
        { globals := M.globals, top := a }
      simp only
      refine ⟨more, ?_⟩
      rcases most with within | ⟨beyond, cut⟩
      · omega
      · simp only [cut, isCutOff, if_true]
        omega

/-- Beyond the limit, one step is counted for each call that was cut off. -/
theorem steps_after (M : Machine) (calls : List Invocation) :
    (M.after calls).steps ≤ max M.limit M.steps + (M.answers calls).countP isCutOff := by
  induction calls generalizing M with
  | nil => exact Nat.le_add_right_of_le (Nat.le_max_right _ _)
  | cons c rest ih =>
      have now := (steps_following M c).2
      have later := ih (M.following c)
      have limit : (M.following c).limit = M.limit := limit_call M c.name c.arguments
      have whole : M.after (c :: rest) = (M.following c).after rest := rfl
      rw [whole, answers, List.countP_cons]
      omega

/-! ## Depth and globals -/

theorem depth_of_step {B : Block} {s s' : State} (bounded : s.depth ≤ maxDepth)
    (moved : step m B s = .running s') : s'.depth ≤ maxDepth := by
  have leads := leads_step m B s
  rw [moved] at leads
  generalize outcome : Outcome.running s' = o at leads
  cases leads with
  | stays stays =>
      cases outcome
      rw [State.depth, stays.callers]
      exact bounded
  | enters called activated =>
      cases outcome
      -- a call is refused where as many as allowed are active
      unfold activate at activated
      split at activated
      · cases activated
      · split at activated
        · cases activated
        · split at activated
          · cases activated
          · simp only [State.push, State.depth, List.length_cons] at *
            omega
  | jumps ends leads =>
      cases outcome
      exact bounded
  | pops value =>
      unfold State.pop at outcome
      split at outcome
      · cases outcome
      · next caller callers waiting =>
          cases outcome
          simp only [State.depth, waiting, List.length_cons] at bounded ⊢
          omega
  | trapsOnData data => cases outcome
  | trapsAtCall called refused => cases outcome
  | trapsAtEnd isOpen => cases outcome

theorem depth_of_steps {P : Array Cell → Prop} {n : Nat} {s s' : State} (h : Steps m P n s s')
    (bounded : s.depth ≤ maxDepth) : s'.depth ≤ maxDepth := by
  induction h with
  | refl => exact bounded
  | step holds moves rest ih =>
      obtain ⟨B, -, moved⟩ := currentBlock?_of_running moves
      exact ih (depth_of_step bounded moved)

def Outcome.globals : Outcome → Array Cell
  | running s => s.globals
  | returned _ globals => globals
  | trapped _ globals => globals

theorem sizes_step (m : Code.Module) (B : Block) (s : State) :
    (step m B s).globals.map Array.size = s.globals.map Array.size := by
  have leads := leads_step m B s
  generalize step m B s = o at leads ⊢
  cases leads with
  | stays stays => exact stays.sizes
  | enters called activated => rfl
  | jumps ends leads => rfl
  | pops value =>
      unfold State.pop
      split
      · rfl
      · rfl
  | trapsOnData data => rfl
  | trapsAtCall called refused => rfl
  | trapsAtEnd isOpen => rfl

theorem sizes_run (m : Code.Module) (limit left steps : Nat) (s : State) :
    (run m limit left steps s).globals.map Array.size = s.globals.map Array.size := by
  induction left generalizing steps s with
  | zero =>
      unfold run
      cases s.top.currentBlock? with
      | none => rfl
      | some B => rfl
  | succ left ih =>
      unfold run
      cases s.top.currentBlock? with
      | none => rfl
      | some B =>
          have sizes := sizes_step m B s
          simp only
          cases moved : step m B s with
          | running s' =>
              rw [moved] at sizes
              exact (ih (steps + 1) s').trans sizes
          | returned value globals =>
              rw [moved] at sizes
              exact sizes
          | trapped trap globals =>
              rw [moved] at sizes
              exact sizes

theorem sizes_following (M : Machine) (c : Invocation) :
    (M.following c).globals.map Array.size = M.globals.map Array.size := by
  unfold following call
  cases entry M.module c.name c.arguments with
  | error trap => rfl
  | ok a => exact sizes_run M.module M.limit _ M.steps { globals := M.globals, top := a }

/-- Calls of any module end, after any calls. A call nests no more calls than allowed and gives its
depth back; it counts its steps, within the limit but for calls that are cut off, and leaves globals of
the same sizes. Of the calls before, it finds the globals and the steps and nothing else. -/
theorem calls_end_without_residue (m : Code.Module) (limit : Nat) (calls : List Invocation)
    (c : Invocation) :
    let M := (Machine.new m limit).after calls
    let M' := (Machine.new m limit).after (calls ++ [c])
    (∀ g, Session m limit calls g ↔ g = ⟨M.globals, M.steps, 0⟩) ∧
    (∀ r g, Completes m limit c ⟨M.globals, M.steps, 0⟩ r g ↔
      r = M.answer c ∧ g = ⟨M'.globals, M'.steps, 0⟩) ∧
    M.steps ≤ M'.steps ∧
    M'.steps ≤ limit + ((Machine.new m limit).answers (calls ++ [c])).countP isCutOff ∧
    (∀ a n s, entry m c.name c.arguments = .ok a →
      Steps m (fun _ => True) n { globals := M.globals, top := a } s → s.depth ≤ maxDepth) ∧
    M'.globals.map Array.size = M.globals.map Array.size ∧
    M.call c.name c.arguments =
      { Machine.new m limit with globals := M.globals, steps := M.steps }.call c.name c.arguments := by
  intro M M'
  have module : M.module = m := module_after _ calls
  have same : M.limit = limit := limit_after _ calls
  have next : M' = M.following c := after_concat _ calls c
  refine ⟨fun g => session_iff, fun r g => ?_, ?_, ?_, fun a n s _ moves => ?_, ?_, ?_⟩
  · rw [next]
    have iff := completes_iff (M := M) (c := c) (r := r) (g := g)
    rw [module, same] at iff
    exact iff
  · rw [next]
    exact (steps_following M c).1
  · have bound := steps_after (Machine.new m limit) (calls ++ [c])
    have fresh : max (Machine.new m limit).limit (Machine.new m limit).steps = limit :=
      Nat.max_eq_left (Nat.zero_le limit)
    rwa [fresh] at bound
  · have single : 1 ≤ maxDepth := by decide
    exact depth_of_steps moves single
  · rw [next]
    exact sizes_following M c
  · have whole : M = { Machine.new m limit with globals := M.globals, steps := M.steps } := by
      rw [← module, ← same]
      rfl
    rw [← whole]

/-- A function that does nothing but call itself. -/
def loopFunction : Function where
  name := "loop"
  result := .void
  parameters := []
  blocks := #[{ label := "entry", instructions := #[.call none 0 []], terminator := some (.ret none) }]

def loopModule : Code.Module where
  name := "unit"
  functions := #[loopFunction]

/-- Both calls are cut off, each one step beyond the limit of five, and leave no depth behind. -/
theorem loop_cut_off_twice :
    let c : Invocation := ⟨"loop", []⟩
    let M := (Machine.new loopModule 5).after [c]
    let M' := (Machine.new loopModule 5).after [c, c]
    let bottom : Activation := .start loopFunction []
    Completes loopModule 5 c ⟨M.globals, 6, 0⟩ (.error (.stepLimit 5)) ⟨M'.globals, 7, 0⟩ ∧
    7 ≤ 5 + ((Machine.new loopModule 5).answers [c, c]).countP isCutOff ∧
    (⟨M.globals, bottom, [⟨bottom.advance, none⟩]⟩ : State).depth ≤ maxDepth := by
  intro c M M' bottom
  obtain ⟨-, completes, -, steps, depth, -, -⟩ := calls_end_without_residue loopModule 5 [c] c
  have six : M.steps = 6 := by decide +kernel
  have seven : M'.steps = 7 := by decide +kernel
  have answered : ((Machine.new loopModule 5).after [⟨"loop", []⟩]).answer ⟨"loop", []⟩ =
      .error (.stepLimit 5) := by
    decide +kernel
  have entered : entry loopModule "loop" [] = .ok (.start loopFunction []) := by cbv
  refine ⟨?_, ?_, ?_⟩
  · rw [← six, ← seven]
    exact (completes _ _).mpr ⟨answered.symm, rfl⟩
  · rw [← seven]
    exact steps
  · exact depth bottom 1 _ entered (.one trivial rfl)

end ImpLower.Machine
