import ImpLower.Machine.Run
import ImpLower.Proofs.Success

/-!
# What a step can lead to

Whatever the code is, a step stays in its block, enters a function that was called, jumps to a
successor of the block, ends the call on top or traps. Operands and storage are the reason of most
traps; calls and missing terminators are the reason of the others.
-/

namespace ImpLower

open Code

/-- Whether a trap is about calls, blocks or the limit, and not about data. -/
def Trap.isControl : Trap → Bool
  | unknownFunction _ => true
  | arityMismatch .. => true
  | stepLimit _ => true
  | callDepth _ => true
  | malformedBlock .. => true
  | arithmetic _ => false
  | indexOutOfBounds .. => false
  | invalidLength _ => false
  | unallocated _ => false
  | unsetRegister _ => false
  | unreachable _ => false
  | operandType .. => false

namespace Machine

/-! ## Computations on data -/

/-- Only data make the computation trap. -/
def OnData {α : Type} (r : Except Trap α) : Prop :=
  ∀ trap, r = .error trap → trap.isControl = false

namespace OnData

variable {α β : Type}

theorem ok (a : α) : OnData (.ok a) := by
  intro trap h
  cases h

theorem error {trap : Trap} (h : trap.isControl = false) : OnData (.error trap : Except Trap α) := by
  intro trap' same
  cases same
  exact h

theorem bind {r : Except Trap α} {f : α → Except Trap β} (h : OnData r)
    (rest : ∀ a, OnData (f a)) : OnData (r >>= f) := by
  cases r with
  | error trap => exact error (h trap rfl)
  | ok a => exact rest a

end OnData

theorem onData_word (v : Literal) : OnData v.word := by
  unfold Literal.word
  split
  · exact .ok _
  · exact .ok _
  · split
    · exact .ok _
    · exact .error rfl

theorem onData_number (v : Literal) : OnData v.number := by
  unfold Literal.number
  split
  · exact .ok _
  · exact .ok _
  · exact .error rfl

theorem onData_holds (test : Predicate) (v w : Literal) : OnData (test.holds v w) := by
  cases test with
  | int op => exact (onData_word v).bind fun _ => (onData_word w).bind fun _ => .ok _
  | float op => exact (onData_number v).bind fun _ => (onData_number w).bind fun _ => .ok _

theorem onData_operand (a : Activation) (o : Operand) : OnData (a.operand o) := by
  cases o with
  | register index =>
      rw [Activation.operand]
      split
      · exact .ok _
      · exact .error rfl
  | constant value => exact .ok value
  | parameter index =>
      rw [Activation.operand]
      split
      · exact .ok _
      · exact .error rfl

theorem onData_operands (a : Activation) (os : List Operand) : OnData (a.operands os) := by
  induction os with
  | nil => exact .ok _
  | cons o rest ih => exact (onData_operand a o).bind fun _ => ih.bind fun _ => .ok _

theorem onData_offset (a : Activation) (o : Option Operand) : OnData (a.offset o) := by
  cases o with
  | none => exact .ok _
  | some o => exact (onData_operand a o).bind onData_word

theorem onData_length (a : Activation) (o : Option Operand) : OnData (a.length o) := by
  cases o with
  | none => exact .ok _
  | some o =>
      refine (onData_operand a o).bind fun v => (onData_word v).bind fun n => ?_
      split
      · exact .error rfl
      · exact .ok _

theorem onData_element (s : State) (slot : Slot) (index : Int64) : OnData (s.element slot index) := by
  have cell : OnData (s.cell slot) := by
    cases slot with
    | stack n =>
        rw [State.cell]
        split
        · exact .ok _
        · exact .error rfl
    | global g =>
        rw [State.cell]
        split
        · exact .ok _
        · exact .error rfl
  refine cell.bind fun c => ?_
  split
  · split
    · exact .ok _
    · exact .error rfl
  · exact .error rfl

theorem onData_evalBinary (op : Operation) (v w : Literal) : OnData (evalBinary op v w) := by
  unfold evalBinary
  split
  · exact .ok _
  · exact .error rfl

theorem onData_evalConvert (v : Literal) (target : Ty) : OnData (evalConvert v target) := by
  unfold evalConvert
  split
  · exact .ok _
  · exact .error rfl

theorem onData_chooseBranch (onTrue onFalse : Nat) (v : Literal) :
    OnData (chooseBranch onTrue onFalse v) := by
  unfold chooseBranch
  split
  · exact .ok _
  · exact .ok _
  · exact .error rfl

theorem onData_chooseCase (value : Int64) (default : Nat) (cases : List (Literal × Nat)) :
    OnData (chooseCase value default cases) := by
  induction cases with
  | nil => exact .ok _
  | cons c rest ih =>
      refine (onData_word c.1).bind fun w => ?_
      split
      · exact .ok _
      · exact ih

theorem onData_returnValue (a : Activation) (o : Option Operand) : OnData (a.returnValue o) := by
  cases o with
  | none => exact .ok _
  | some o => exact (onData_operand a o).bind fun _ => .ok _

/-! ## Targets -/

theorem mem_of_chooseBranch {onTrue onFalse target : Nat} {v : Literal}
    (h : chooseBranch onTrue onFalse v = .ok target) : target = onTrue ∨ target = onFalse := by
  unfold chooseBranch at h
  split at h
  · cases h
    exact .inl rfl
  · cases h
    exact .inr rfl
  · cases h

theorem mem_of_chooseCase {value : Int64} {default target : Nat} {cases : List (Literal × Nat)}
    (h : chooseCase value default cases = .ok target) :
    target ∈ default :: cases.map Prod.snd := by
  induction cases with
  | nil =>
      cases h
      exact List.mem_cons_self
  | cons c rest ih =>
      obtain ⟨w, -, chosen⟩ := except_bind_eq_ok.mp h
      split at chosen
      · cases chosen
        simp
      · rcases List.mem_cons.mp (ih chosen) with rfl | among
        · exact List.mem_cons_self
        · simp [among]

/-! ## Steps -/

/-- The state is in the same block of the same function, with the same callers and with globals of the
same sizes. -/
structure State.Stays (s s' : State) : Prop where
  function : s'.top.function = s.top.function
  block : s'.top.block = s.top.block
  callers : s'.callers = s.callers
  sizes : s'.globals.map Array.size = s.globals.map Array.size

/-- Where a step in a block can lead. -/
inductive Leads (m : Code.Module) (B : Block) (s : State) : Outcome → Prop
  | stays {s' : State} (stays : s.Stays s') : Leads m B s (.running s')
  | enters {dest : Option Nat} {callee : Nat} {operands : List Operand} {arguments : List Literal}
      {a : Activation} (called : B.instructions[s.top.next]? = some (.call dest callee operands))
      (activated : activate m callee arguments s.depth = .ok a) :
      Leads m B s (.running (s.push dest a))
  | jumps {t : Terminator} {target : Nat} (ends : B.terminator = some t)
      (leads : target ∈ t.successors) : Leads m B s (.running (s.jump target))
  | pops (value : Option Literal) : Leads m B s (s.pop value)
  | trapsOnData {trap : Trap} (data : trap.isControl = false) : Leads m B s (.trapped trap s.globals)
  | trapsAtCall {dest : Option Nat} {callee : Nat} {operands : List Operand}
      {arguments : List Literal} {trap : Trap}
      (called : B.instructions[s.top.next]? = some (.call dest callee operands))
      (refused : activate m callee arguments s.depth = .error trap) :
      Leads m B s (.trapped trap s.globals)
  | trapsAtEnd (isOpen : B.terminator = none) :
      Leads m B s (.trapped (.malformedBlock s.top.function.name s.top.block) s.globals)

variable {m : Code.Module} {B : Block} {s : State}

theorem leads_attempt {α : Type} {r : Except Trap α} {k : α → State → Outcome} (data : OnData r)
    (rest : ∀ a, r = .ok a → Leads m B s (k a s)) : Leads m B s (s.attempt r k) := by
  cases r with
  | error trap => exact .trapsOnData (data trap rfl)
  | ok a => exact rest a rfl

theorem stays_setRegister (s : State) (dest : Nat) (value : Literal) :
    s.Stays (s.setRegister dest value).advance := by
  refine ⟨?_, ?_, rfl, rfl⟩
  · simp only [State.advance, State.setRegister, Activation.advance, Activation.setRegister]
    split <;> rfl
  · simp only [State.advance, State.setRegister, Activation.advance, Activation.setRegister]
    split <;> rfl

theorem stays_write (s : State) (slot : Slot) (position : Nat) (value : Literal) :
    s.Stays (s.write slot position value).advance := by
  cases slot with
  | stack n => exact ⟨rfl, rfl, rfl, rfl⟩
  | global g =>
      refine ⟨rfl, rfl, rfl, ?_⟩
      apply Array.ext_getElem?
      intro i
      simp only [State.advance, State.write, Array.getElem?_map, Array.getElem?_modify]
      split
      · cases s.globals[i]? <;> simp
      · rfl

theorem leads_execInstruction {i : Instruction} (next : B.instructions[s.top.next]? = some i) :
    Leads m B s (execInstruction m i s) := by
  cases i with
  | alloca slot ty length name =>
      rw [execInstruction]
      refine leads_attempt (onData_length s.top length) fun n _ => ?_
      split
      · exact .stays ⟨rfl, rfl, rfl, rfl⟩
      · exact .trapsOnData rfl
  | load dest slot ty offset =>
      rw [execInstruction]
      exact leads_attempt ((onData_offset s.top offset).bind fun _ => onData_element s slot _)
        fun _ _ => .stays (stays_setRegister s dest _)
  | store slot ty offset value =>
      rw [execInstruction]
      refine leads_attempt ((onData_offset s.top offset).bind fun index => ?_)
        fun _ _ => .stays (stays_write s slot _ _)
      exact (onData_operand s.top value).bind fun _ => (onData_element s slot index).bind fun _ => .ok _
  | binary dest op left right =>
      rw [execInstruction]
      refine leads_attempt ((onData_operand s.top left).bind fun v => ?_)
        fun _ _ => .stays (stays_setRegister s dest _)
      exact (onData_operand s.top right).bind fun _ => onData_evalBinary op v _
  | compare dest test left right =>
      rw [execInstruction]
      refine leads_attempt ((onData_operand s.top left).bind fun v => ?_)
        fun _ _ => .stays (stays_setRegister s dest _)
      exact (onData_operand s.top right).bind fun _ => onData_holds test v _
  | convert dest conversion value target =>
      rw [execInstruction]
      exact leads_attempt ((onData_operand s.top value).bind fun _ => onData_evalConvert _ target)
        fun _ _ => .stays (stays_setRegister s dest _)
  | call dest callee operands =>
      rw [execInstruction]
      cases given : s.top.operands operands with
      | error trap => exact .trapsOnData (onData_operands s.top operands trap given)
      | ok arguments =>
          change Leads m B s (s.attempt (activate m callee arguments s.depth) _)
          cases activated : activate m callee arguments s.depth with
          | error trap => exact .trapsAtCall next activated
          | ok a => exact .enters next activated

theorem leads_execTerminator {t : Terminator} (ends : B.terminator = some t) :
    Leads m B s (execTerminator t s) := by
  cases t with
  | branch target => exact .jumps ends (by simp [Terminator.successors])
  | condBranch condition onTrue onFalse =>
      rw [execTerminator]
      refine leads_attempt ((onData_operand s.top condition).bind fun _ => onData_chooseBranch _ _ _)
        fun target chosen => .jumps ends ?_
      obtain ⟨v, -, chosen⟩ := except_bind_eq_ok.mp chosen
      simpa [Terminator.successors] using mem_of_chooseBranch chosen
  | switch value default cases =>
      rw [execTerminator]
      refine leads_attempt ?_ fun target chosen => .jumps ends ?_
      · exact (onData_operand s.top value).bind fun v => (onData_word v).bind fun w =>
          onData_chooseCase w default cases
      · obtain ⟨v, -, chosen⟩ := except_bind_eq_ok.mp chosen
        obtain ⟨w, -, chosen⟩ := except_bind_eq_ok.mp chosen
        exact mem_of_chooseCase chosen
  | ret value =>
      rw [execTerminator]
      exact leads_attempt (onData_returnValue s.top value) fun v _ => .pops v
  | unreachable => exact .trapsOnData rfl

theorem leads_step (m : Code.Module) (B : Block) (s : State) : Leads m B s (step m B s) := by
  unfold step
  split
  · next i found => exact leads_execInstruction found
  · split
    · next t ends => exact leads_execTerminator ends
    · next isOpen => exact .trapsAtEnd isOpen

end Machine

end ImpLower
