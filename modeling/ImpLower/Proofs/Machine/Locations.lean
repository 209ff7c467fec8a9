import ImpLower.Proofs.Machine.Execution

/-!
# Where cells live

A cell belongs to a stack slot of one of the active calls, or it is a global. Whatever the code is, a
step leaves the cell of a location alone unless its instruction stores there or allocates it; only the
end of a call takes the cells of that call away.
-/

namespace ImpLower

open Code

/-- The slot that an instruction allocates or stores to. -/
def Code.Instruction.target? : Instruction → Option Slot
  | .alloca slot _ _ _ => some (.stack slot)
  | .store slot _ _ _ => some slot
  | _ => none

namespace Machine

/-- The next instruction; there is none at the end of a block. -/
def Activation.instruction? (a : Activation) : Option Instruction :=
  a.currentBlock?.bind fun B => B.instructions[a.next]?

/-- The home of a cell: a slot of the call at a level, where the first call has level zero, or a
global. -/
inductive Location where
  | stack (level slot : Nat)
  | global (index : Nat)
  deriving DecidableEq

/-- The call that the location belongs to has not ended. -/
def Location.Alive (s : State) : Location → Prop
  | stack level _ => level ≤ s.callers.length
  | global _ => True

namespace State

/-- What a slot of the call on top refers to. -/
def location (s : State) : Slot → Location
  | .stack slot => .stack s.callers.length slot
  | .global index => .global index

/-- The stack slots of the active calls, those of the first call first. -/
def frames (s : State) : List (Array (Option Cell)) :=
  (s.callers.map fun c => c.activation.slots).reverse ++ [s.top.slots]

def cellAt (s : State) : Location → Option Cell
  | .stack level slot => (s.frames[level]?.bind fun slots => slots[slot]?).join
  | .global index => s.globals[index]?

/-- The next instruction stores to the location or allocates it. -/
def Touches (s : State) (l : Location) : Prop :=
  ∃ i slot, s.top.instruction? = some i ∧ i.target? = some slot ∧ s.location slot = l

end State

variable {m : Code.Module} {s s' : State} {l : Location} {cell : Cell}

/-! ## The next instruction -/

theorem next_of_instruction {i : Instruction} (here : s.top.instruction? = some i) :
    next m s = execInstruction m i s := by
  obtain ⟨B, block, found⟩ := Option.bind_eq_some_iff.mp here
  simp only [next, block, step, found]

theorem instruction?_of_hosted {F : Function} {p : Place} {i : Instruction} (here : At F p s)
    (hosted : HostedAt F p [i]) : s.top.instruction? = some i := by
  obtain ⟨B, hB, his⟩ := hosted
  have found : B.instructions[p.index]? = some i := his 0 i rfl
  simp [Activation.instruction?, Activation.currentBlock?, here.function, here.block, here.next, hB,
    found]

/-! ## Cells of the call on top -/

theorem length_frames (s : State) : s.frames.length = s.callers.length + 1 := by
  simp [State.frames]

theorem frames_top (s : State) : s.frames[s.callers.length]? = some s.top.slots := by
  simp [State.frames]

theorem cell_eq_ok_iff {slot : Slot} :
    s.cell slot = .ok cell ↔ s.cellAt (s.location slot) = some cell := by
  cases slot with
  | stack i =>
      simp only [State.cell, State.location, State.cellAt, frames_top, Option.bind_some,
        Option.join_eq_some_iff]
      split
      · next found => simp [found]
      · next missing =>
          constructor
          · intro failed
            cases failed
          · intro found
            exact absurd found (missing cell)
  | global i =>
      simp only [State.cell, State.location, State.cellAt]
      split
      · next found => simp [found]
      · next missing => simp [missing]

theorem element_of_cellAt {slot : Slot} {index : Int64} {position : Nat} {value : Literal}
    (found : s.cellAt (s.location slot) = some cell) (word : index.toInt = position)
    (element : cell[position]? = some value) : s.element slot index = .ok (position, value) := by
  have natural : index.toInt = .ofNat position := word
  rw [State.element, cell_eq_ok_iff.mpr found]
  simp only [bind, Except.bind, natural, element]
  rfl

/-! ## What a step leaves alone -/

theorem cellAt_congr (slots : s'.top.slots = s.top.slots) (callers : s'.callers = s.callers)
    (globals : s'.globals = s.globals) (l : Location) : s'.cellAt l = s.cellAt l := by
  cases l with
  | stack level slot => simp only [State.cellAt, State.frames, callers, slots]
  | global index => simp only [State.cellAt, globals]

theorem frames_of_callers (callers : s'.callers = s.callers) :
    s'.frames = s.frames.set s.callers.length s'.top.slots := by
  simp [State.frames, callers, List.set_append_right]

theorem cellAt_of_slots {slot : Nat} (globals : s'.globals = s.globals)
    (callers : s'.callers = s.callers)
    (others : ∀ i, i ≠ slot → s'.top.slots[i]? = s.top.slots[i]?)
    (away : s.location (.stack slot) ≠ l) : s'.cellAt l = s.cellAt l := by
  cases l with
  | global index => simp only [State.cellAt, globals]
  | stack level i =>
      simp only [State.cellAt, frames_of_callers callers]
      by_cases same : level = s.callers.length
      · subst same
        have ne : i ≠ slot := by
          rintro rfl
          exact away rfl
        rw [List.getElem?_set_self (by rw [length_frames]; omega), frames_top]
        simp only [Option.bind_some, others i ne]
      · rw [List.getElem?_set_ne (Ne.symm same)]

theorem cellAt_write (slot : Slot) (position : Nat) (value : Literal)
    (away : s.location slot ≠ l) : (s.write slot position value).advance.cellAt l = s.cellAt l := by
  cases slot with
  | stack i =>
      refine cellAt_of_slots rfl rfl (fun j ne => ?_) away
      show (s.top.slots.modify i _)[j]? = s.top.slots[j]?
      rw [Array.getElem?_modify, if_neg (Ne.symm ne)]
  | global i =>
      cases l with
      | stack level j => rfl
      | global j =>
          have ne : i ≠ j := by
            rintro rfl
            exact away rfl
          show (s.globals.modify i _)[j]? = s.globals[j]?
          rw [Array.getElem?_modify, if_neg ne]

theorem cellAt_write_self {slot : Slot} (found : s.cellAt (s.location slot) = some cell)
    (position : Nat) (value : Literal) :
    (s.write slot position value).advance.cellAt (s.location slot) =
      some (cell.setIfInBounds position value) := by
  cases slot with
  | stack i =>
      simp only [State.location, State.cellAt, frames_top, Option.bind_some,
        Option.join_eq_some_iff] at found
      have changed : (s.write (.stack i) position value).advance.frames = _ :=
        frames_of_callers (s := s) rfl
      simp only [State.location, State.cellAt, changed]
      rw [List.getElem?_set_self (by rw [length_frames]; omega)]
      simp [State.advance, State.write, Activation.advance, Array.getElem?_modify, found]
  | global i =>
      have found' : s.globals[i]? = some cell := found
      show (s.globals.modify i _)[i]? = _
      rw [Array.getElem?_modify, if_pos rfl, found']
      rfl

theorem cellAt_allocate {slot : Nat} (fits : slot < s.top.slots.size) (cell : Cell) :
    (s.allocate slot cell).advance.cellAt (s.location (.stack slot)) = some cell := by
  have changed : (s.allocate slot cell).advance.frames = _ := frames_of_callers (s := s) rfl
  simp only [State.location, State.cellAt, changed]
  rw [List.getElem?_set_self (by rw [length_frames]; omega)]
  simp [State.advance, State.allocate, Activation.advance, fits]

/-! ## Steps -/

theorem attempt_eq_running {α : Type} {r : Except Trap α} {k : α → State → Outcome}
    (h : s.attempt r k = .running s') : ∃ a, r = .ok a ∧ k a s = .running s' := by
  cases r with
  | error trap => cases h
  | ok a => exact ⟨a, rfl, h⟩

theorem cellAt_setRegister (dest : Nat) (value : Literal) (l : Location) :
    (s.setRegister dest value).advance.cellAt l = s.cellAt l := by
  have slots : (s.setRegister dest value).advance.top.slots = s.top.slots := by
    simp only [State.advance, State.setRegister, Activation.advance, Activation.setRegister]
    split <;> rfl
  exact cellAt_congr slots rfl rfl l

theorem cellAt_push (dest : Option Nat) (callee : Activation) (found : s.cellAt l = some cell) :
    (s.push dest callee).cellAt l = some cell := by
  cases l with
  | global index => exact found
  | stack level slot =>
      have more : (s.push dest callee).frames = s.frames ++ [callee.slots] := by
        simp [State.frames, State.push, Activation.advance]
      have inside : level < s.frames.length := by
        by_contra outside
        simp [State.cellAt, List.getElem?_eq_none (Nat.le_of_not_lt outside)] at found
      rw [← found]
      simp only [State.cellAt, more, List.getElem?_append_left inside]

theorem slots_receive (a : Activation) (dest : Option Nat) (value : Option Literal) :
    (a.receive dest value).slots = a.slots := by
  cases dest with
  | none => rfl
  | some dest =>
      cases value with
      | none => rfl
      | some value =>
          simp only [Activation.receive, Activation.setRegister]
          split <;> rfl

theorem cellAt_pop {value : Option Literal} (popped : s.pop value = .running s')
    (alive : l.Alive s') : s'.cellAt l = s.cellAt l := by
  obtain ⟨globals, top, _ | ⟨caller, callers⟩⟩ := s
  · cases popped
  · cases popped
    cases l with
    | global index => rfl
    | stack level slot =>
        have whole : State.frames ⟨globals, top, caller :: callers⟩ =
            State.frames ⟨globals, caller.activation.receive caller.dest value, callers⟩ ++
              [top.slots] := by
          simp [State.frames, slots_receive]
        have inside := Nat.lt_succ_of_le (show level ≤ callers.length from alive)
        simp only [State.cellAt, whole]
        rw [List.getElem?_append_left (by rwa [length_frames])]

theorem cellAt_execInstruction {i : Instruction} (moves : execInstruction m i s = .running s')
    (found : s.cellAt l = some cell)
    (untouched : ∀ slot, i.target? = some slot → s.location slot ≠ l) :
    s'.cellAt l = some cell := by
  rw [← found]
  cases i with
  | alloca slot ty length name =>
      rw [execInstruction] at moves
      obtain ⟨n, -, moves⟩ := attempt_eq_running moves
      split at moves
      · next fits =>
          cases moves
          refine cellAt_of_slots rfl rfl (fun j ne => ?_) (untouched (.stack slot) rfl)
          exact Array.getElem?_setIfInBounds_ne (Ne.symm ne)
      · cases moves
  | load dest slot ty offset =>
      rw [execInstruction] at moves
      obtain ⟨⟨_, value⟩, -, moves⟩ := attempt_eq_running moves
      cases moves
      exact cellAt_setRegister dest value l
  | store slot ty offset value =>
      rw [execInstruction] at moves
      obtain ⟨⟨position, value⟩, -, moves⟩ := attempt_eq_running moves
      cases moves
      exact cellAt_write slot position value (untouched slot rfl)
  | binary dest op left right =>
      rw [execInstruction] at moves
      obtain ⟨value, -, moves⟩ := attempt_eq_running moves
      cases moves
      exact cellAt_setRegister dest value l
  | compare dest test left right =>
      rw [execInstruction] at moves
      obtain ⟨holds, -, moves⟩ := attempt_eq_running moves
      cases moves
      exact cellAt_setRegister dest _ l
  | convert dest conversion value target =>
      rw [execInstruction] at moves
      obtain ⟨value, -, moves⟩ := attempt_eq_running moves
      cases moves
      exact cellAt_setRegister dest value l
  | call dest callee arguments =>
      rw [execInstruction] at moves
      obtain ⟨a, -, moves⟩ := attempt_eq_running moves
      cases moves
      rw [found]
      exact cellAt_push dest a found

theorem cellAt_execTerminator {t : Terminator} (moves : execTerminator t s = .running s')
    (alive : l.Alive s') : s'.cellAt l = s.cellAt l := by
  cases t with
  | branch target =>
      cases moves
      exact cellAt_congr rfl rfl rfl l
  | condBranch condition onTrue onFalse =>
      rw [execTerminator] at moves
      obtain ⟨target, -, moves⟩ := attempt_eq_running moves
      cases moves
      exact cellAt_congr rfl rfl rfl l
  | switch value default cases =>
      rw [execTerminator] at moves
      obtain ⟨target, -, moves⟩ := attempt_eq_running moves
      cases moves
      exact cellAt_congr rfl rfl rfl l
  | ret value =>
      rw [execTerminator] at moves
      obtain ⟨value, -, moves⟩ := attempt_eq_running moves
      exact cellAt_pop moves alive
  | unreachable => cases moves

/-- A step that does not touch a location leaves its cell as it is. -/
theorem cellAt_of_untouched (moves : next m s = .running s') (alive : l.Alive s')
    (found : s.cellAt l = some cell) (untouched : ¬ s.Touches l) : s'.cellAt l = some cell := by
  cases block : s.top.currentBlock? with
  | none =>
      rw [next, block] at moves
      cases moves
  | some B =>
      simp only [next, block, step] at moves
      cases instruction : B.instructions[s.top.next]? with
      | some i =>
          rw [instruction] at moves
          have here : s.top.instruction? = some i := by
            rw [Activation.instruction?, block]
            exact instruction
          exact cellAt_execInstruction moves found fun slot target same =>
            untouched ⟨i, slot, here, target, same⟩
      | none =>
          rw [instruction] at moves
          cases ends : B.terminator with
          | some t =>
              simp only [ends] at moves
              rw [cellAt_execTerminator moves alive, found]
          | none =>
              simp only [ends] at moves
              cases moves

end Machine

end ImpLower
