import ImpLower.Proofs.Code.Permanence
import ImpLower.Proofs.Machine.Calls
import ImpLower.Proofs.Machine.Extension
import ImpLower.Proofs.Machine.Outcomes

/-!
# Control flow of finished modules

Finishing a draft checks that blocks are closed and branch inside their function. This is enough for
every run: calls find their functions, and an active call is always in a block of its function, unless
the function was given none.
-/

namespace ImpLower.Machine

open Code

/-- Blocks are closed, branches stay inside their function and calls inside the module. -/
structure Sound (m : Code.Module) : Prop where
  closed : ∀ F ∈ m.functions.toList, F.Closed
  calls : ∀ F ∈ m.functions.toList, F.CallsBelow m.functions.size

/-- A call of a function of the module that is in one of its blocks, or at the start if there are
none. -/
structure Activation.PlacedIn (m : Code.Module) (a : Activation) : Prop where
  function : a.function ∈ m.functions.toList
  block : a.block < a.function.blocks.size ∨ a.block = 0 ∧ a.function.blocks = #[]

/-- All active calls are placed in the module. -/
structure State.PlacedIn (m : Code.Module) (s : State) : Prop where
  top : s.top.PlacedIn m
  callers : ∀ c ∈ s.callers, c.activation.PlacedIn m

/-- No function is missing, and a block is missing only from a function without blocks. -/
def Bearable (m : Code.Module) : Trap → Prop
  | .unknownFunction _ => False
  | .malformedBlock f b => b = 0 ∧ ∃ F ∈ m.functions.toList, F.name = f ∧ F.blocks = #[]
  | _ => True

/-- The step leads to placed calls or ends in a bearable way. -/
def Outcome.Safe (m : Code.Module) : Outcome → Prop
  | running s => s.PlacedIn m
  | returned .. => True
  | trapped trap _ => Bearable m trap

variable {m : Code.Module} {s : State} {B : Block}

theorem bearable_of_data {trap : Trap} (data : trap.isControl = false) : Bearable m trap := by
  cases trap with
  | unknownFunction name => cases data
  | malformedBlock f b => cases data
  | _ => trivial

/-- A function that exists is refused for its arguments or for the depth of calls only. -/
theorem bearable_of_activate {callee : Nat} {arguments : List Literal} {depth : Nat} {trap : Trap}
    (known : callee < m.functions.size)
    (refused : activate m callee arguments depth = .error trap) : Bearable m trap := by
  unfold activate at refused
  rw [Array.getElem?_eq_getElem known] at refused
  simp only at refused
  split at refused
  · cases refused
    trivial
  · split at refused
    · cases refused
      trivial
    · cases refused

theorem placedIn_of_activate {callee : Nat} {arguments : List Literal} {depth : Nat}
    {a : Activation} (activated : activate m callee arguments depth = .ok a) : a.PlacedIn m := by
  refine ⟨function_of_activate activated, ?_⟩
  have start : a.block = 0 := by
    unfold activate at activated
    split at activated
    · cases activated
    · split at activated
      · cases activated
      · split at activated
        · cases activated
        · cases activated
          rfl
  rcases Nat.eq_zero_or_pos a.function.blocks.size with none | some
  · exact .inr ⟨start, Array.eq_empty_of_size_eq_zero none⟩
  · exact .inl (start ▸ some)

/-- An activation that has only moved inside its block, or received a value, is placed as before. -/
theorem Activation.PlacedIn.of_same {a a' : Activation} (h : a.PlacedIn m)
    (function : a'.function = a.function) (block : a'.block = a.block) : a'.PlacedIn m := by
  refine ⟨function ▸ h.function, ?_⟩
  rw [function, block]
  exact h.block

theorem block_receive (a : Activation) (dest : Option Nat) (value : Option Literal) :
    (a.receive dest value).block = a.block := by
  unfold Activation.receive Activation.setRegister
  split
  · split
    · rfl
    · rfl
  · rfl

/-! ## Steps and runs -/

/-- In a sound module a step from placed calls is safe. -/
theorem step_safe (sound : Sound m) (placed : s.PlacedIn m) (here : s.top.currentBlock? = some B) :
    (step m B s).Safe m := by
  have inside := placed.top.function
  have mem : B ∈ s.top.function.blocks.toList :=
    Array.mem_toList_iff.mpr (Array.mem_of_getElem? here)
  have known : ∀ {dest callee operands},
      B.instructions[s.top.next]? = some (.call dest callee operands) →
        callee < m.functions.size := by
    intro dest callee operands called
    have found : s.top.function.instructionAt? ⟨s.top.block, s.top.next⟩ =
        some (.call dest callee operands) := by
      rw [Activation.currentBlock?] at here
      simp [Function.instructionAt?, here, called]
    exact sound.calls _ inside found rfl
  have leads := leads_step m B s
  generalize step m B s = outcome at leads ⊢
  cases leads with
  | stays stays =>
      refine ⟨placed.top.of_same stays.function stays.block, ?_⟩
      rw [stays.callers]
      exact placed.callers
  | enters called activated =>
      refine ⟨placedIn_of_activate activated, ?_⟩
      exact List.forall_mem_cons.mpr ⟨placed.top.of_same rfl rfl, placed.callers⟩
  | jumps ends leads =>
      obtain ⟨t, ends', targets⟩ := sound.closed _ inside B mem
      cases ends.symm.trans ends'
      exact ⟨⟨inside, .inl (targets _ leads)⟩, placed.callers⟩
  | pops value =>
      unfold State.pop
      split
      · trivial
      · next caller callers waiting =>
          obtain ⟨first, others⟩ := List.forall_mem_cons.mp (waiting ▸ placed.callers)
          exact ⟨first.of_same (function_receive _ _ _) (block_receive _ _ _), others⟩
  | trapsOnData data => exact bearable_of_data data
  | trapsAtCall called refused => exact bearable_of_activate (known called) refused
  | trapsAtEnd isOpen =>
      obtain ⟨t, ends, -⟩ := sound.closed _ inside B mem
      cases isOpen.symm.trans ends

theorem bearable_missingBlock {a : Activation} (placed : a.PlacedIn m)
    (missing : a.currentBlock? = none) : Bearable m (missingBlock a) := by
  rw [Activation.currentBlock?, Array.getElem?_eq_none_iff] at missing
  rcases placed.block with inside | ⟨start, none⟩
  · omega
  · exact ⟨start, a.function, placed.function, rfl, none⟩

/-- In a sound module a run from placed calls ends in a bearable way, if it traps. -/
theorem run_safe (sound : Sound m) (placed : s.PlacedIn m) (limit left steps : Nat) {trap : Trap}
    (ended : (run m limit left steps s).result = .error trap) : Bearable m trap := by
  induction left generalizing steps s with
  | zero =>
      unfold run at ended
      cases here : s.top.currentBlock? with
      | none =>
          rw [here] at ended
          cases ended
          exact bearable_missingBlock placed.top here
      | some B =>
          rw [here] at ended
          cases ended
          trivial
  | succ left ih =>
      unfold run at ended
      cases here : s.top.currentBlock? with
      | none =>
          rw [here] at ended
          cases ended
          exact bearable_missingBlock placed.top here
      | some B =>
          have safe := step_safe sound placed here
          rw [here] at ended
          simp only at ended
          cases moved : step m B s with
          | running s' =>
              rw [moved] at safe ended
              exact ih safe (steps + 1) ended
          | returned value globals =>
              rw [moved] at ended
              cases ended
          | trapped trap' globals =>
              rw [moved] at safe ended
              cases ended
              exact safe

/-! ## Calls from outside -/

/-- A call of a function that exists ends in a bearable way, if it traps. -/
theorem answer_bearable {M : Machine} (sound : Sound M.module) {c : Invocation} {trap : Trap}
    (named : ∃ F ∈ M.module.functions.toList, F.name = c.name)
    (ended : M.answer c = .error trap) : Bearable M.module trap := by
  obtain ⟨F, hF, name⟩ := named
  cases found : M.module.functionIndex? c.name with
  | none =>
      have differs := Array.findIdx?_eq_none_iff.mp found F (Array.mem_toList_iff.mp hF)
      simp [name] at differs
  | some index =>
      have known : index < M.module.functions.size :=
        (Array.findIdx?_eq_some_iff_getElem.mp found).1
      unfold answer call entry at ended
      rw [found] at ended
      simp only at ended
      cases activated : activate M.module index c.arguments 0 with
      | error trap' =>
          rw [activated] at ended
          cases ended
          exact bearable_of_activate known activated
      | ok a =>
          rw [activated] at ended
          have placed : State.PlacedIn M.module { globals := M.globals, top := a } :=
            ⟨placedIn_of_activate activated, by simp⟩
          exact run_safe sound placed M.limit _ M.steps ended

theorem answer_of_unknown {M : Machine} {c : Invocation}
    (unnamed : M.module.functionIndex? c.name = none) :
    M.answer c = .error (.unknownFunction c.name) := by
  unfold answer call entry
  rw [unnamed]

end ImpLower.Machine

namespace ImpLower.Code.Draft

open Machine

theorem sound_of_complete {name : String} {events : List (Event Operand Slot BlockId Nat)}
    (closed : ∀ F ∈ (replay (Draft.new name) events : Draft).module.functions.toList, F.Closed) :
    Sound (replay (Draft.new name) events : Draft).module :=
  ⟨closed, (orderly_replay name events).calls⟩

/-- Whatever was asked of a draft, it is finished exactly if every block of every function has a
terminator that leads to blocks of that function. A run of the finished module never misses a
function, once the one it starts with exists, and never misses a block but the first of a function
that was given none. -/
theorem finished_modules_flow (name : String) (events : List (Event Operand Slot BlockId Nat)) :
    let d : Draft := replay (Draft.new name) events
    ((∃ m d', (Emitter.perform .finish).exec d = (.ok m, d')) ↔
      ∀ F ∈ d.module.functions.toList, ∀ B ∈ F.blocks.toList,
        ∃ t, B.terminator = some t ∧ ∀ b ∈ t.successors, b < F.blocks.size) ∧
    ∀ m d', (Emitter.perform .finish).exec d = (.ok m, d') → m = d.module ∧
      ∀ limit calls c,
        ((∃ F ∈ m.functions.toList, F.name = c.name) →
          ∀ unknown, ((Machine.new m limit).after calls).answer c ≠ .error (.unknownFunction unknown)) ∧
        ∀ f b, ((Machine.new m limit).after calls).answer c = .error (.malformedBlock f b) →
          b = 0 ∧ ∃ F ∈ m.functions.toList, F.name = f ∧ F.blocks = #[] := by
  intro d
  have finish : ∀ m d', (Emitter.perform .finish).exec d = (.ok m, d') ↔
      ((∀ F ∈ d.module.functions.toList, F.Closed) ∧ m = d.module) ∧ d' = d := by
    intro m d'
    rw [← complete_eq_ok]
    exact consult_eq_ok
  refine ⟨⟨fun ⟨m, d', done⟩ => ((finish m d').mp done).1.1,
    fun closed => ⟨d.module, d, (finish _ _).mpr ⟨⟨closed, rfl⟩, rfl⟩⟩⟩, ?_⟩
  intro m d' done
  obtain ⟨⟨closed, rfl⟩, -⟩ := (finish m d').mp done
  refine ⟨rfl, fun limit calls c => ?_⟩
  have same : ((Machine.new d.module limit).after calls).module = d.module := module_after _ calls
  have sound : Sound ((Machine.new d.module limit).after calls).module := by
    rw [same]
    exact sound_of_complete closed
  constructor
  · intro named unknown ended
    exact answer_bearable sound (by rwa [same]) ended
  · intro f b ended
    cases found : d.module.functionIndex? c.name with
    | none =>
        rw [answer_of_unknown (by rwa [same])] at ended
        cases ended
    | some index =>
        obtain ⟨known, named, -⟩ := Array.findIdx?_eq_some_iff_getElem.mp found
        have there : ∃ F ∈ d.module.functions.toList, F.name = c.name :=
          ⟨d.module.functions[index], by simp, by simpa using named⟩
        have bearable := answer_bearable sound (by rwa [same]) ended
        rwa [same] at bearable

/-- A function without blocks, and one that calls it. -/
def hollowEvents : List (Event Operand Slot BlockId Nat) :=
  [.request (.addFunction "hollow" .void []), .request (.addFunction "main" .void []),
    .addBlock 1 "entry", .moveTo ⟨1, 0⟩, .request (.call 0 [] ""), .request (.ret none)]

theorem hollow_call_misses_its_block :
    ∃ m d', (Emitter.perform .finish).exec (replay (Draft.new "unit") hollowEvents : Draft) =
        (.ok m, d') ∧
      ((Machine.new m 10).after [⟨"main", []⟩]).answer ⟨"main", []⟩ =
        .error (.malformedBlock "hollow" 0) ∧
      (∃ F ∈ m.functions.toList, F.name = "hollow" ∧ F.blocks = #[]) ∧
      ∀ unknown, ((Machine.new m 10).after []).answer ⟨"main", []⟩ ≠
        .error (.unknownFunction unknown) := by
  obtain ⟨⟨-, finishes⟩, flow⟩ := finished_modules_flow "unit" hollowEvents
  obtain ⟨m, d', done⟩ := finishes (by decide +kernel)
  obtain ⟨rfl, runs⟩ := flow m d' done
  have misses : ((Machine.new (replay (Draft.new "unit") hollowEvents : Draft).module 10).after
      [⟨"main", []⟩]).answer ⟨"main", []⟩ = .error (.malformedBlock "hollow" 0) := by
    decide +kernel
  exact ⟨_, d', done, misses, ((runs 10 [⟨"main", []⟩] ⟨"main", []⟩).2 _ _ misses).2,
    (runs 10 [] ⟨"main", []⟩).1 (by decide +kernel)⟩

end ImpLower.Code.Draft
