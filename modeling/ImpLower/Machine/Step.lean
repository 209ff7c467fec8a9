import ImpLower.Machine.State

/-!
# Single steps

A step carries out one instruction or one terminator. It leads to the next state, to a result or to a
trap; a trap leaves the globals as they were.
-/

namespace ImpLower.Machine

open Code

inductive Outcome where
  | running (s : State)
  | returned (value : Option Literal) (globals : Array Cell)
  | trapped (trap : Trap) (globals : Array Cell)

/-- Goes on with a computed value, or traps. -/
@[inline] def State.attempt {α : Type} (s : State) (r : Except Trap α) (k : α → State → Outcome) :
    Outcome :=
  match r with
  | .ok a => k a s
  | .error trap => .trapped trap s.globals

/-- A call of the function at a position, from a run with `depth` active calls. -/
def activate (m : Code.Module) (callee : Nat) (arguments : List Literal) (depth : Nat) :
    Except Trap Activation :=
  match m.functions[callee]? with
  | none => .error (.unknownFunction s!"#{callee}")
  | some f =>
      if arguments.length ≠ f.parameters.length then
        .error (.arityMismatch f.name f.parameters.length arguments.length)
      else if maxDepth ≤ depth then .error (.callDepth depth)
      else .ok (Activation.start f arguments)

/-- Starts a call on top of the state; its caller resumes after the call instruction. -/
def State.push (s : State) (dest : Option Nat) (callee : Activation) : State :=
  { s with
    top := callee
    callers := ⟨s.top.advance, dest⟩ :: s.callers }

def State.pop (s : State) (value : Option Literal) : Outcome :=
  match s.callers with
  | [] => .returned value s.globals
  | caller :: callers =>
      .running { s with top := caller.activation.receive caller.dest value, callers }

/-- The result of a binary operation, computed at the type of its left operand. -/
def evalBinary (op : Operation) (left right : Literal) : Except Trap Literal :=
  match op.eval left right left.type with
  | some value => .ok value
  | none => .error (.arithmetic op)

def evalConvert (value : Literal) (target : Ty) : Except Trap Literal :=
  match value.convert target with
  | some converted => .ok converted
  | none => .error (.operandType "convertible" value.type)

def execInstruction (m : Code.Module) (i : Instruction) (s : State) : Outcome :=
  match i with
  | .alloca slot ty length _ =>
      s.attempt (s.top.length length) fun n s =>
        if slot < s.top.slots.size then
          .running (s.allocate slot (Array.replicate n (Literal.initial ty))).advance
        else .trapped (.unallocated slot) s.globals
  | .load dest slot _ offset =>
      s.attempt (do s.element slot (← s.top.offset offset)) fun (_, value) s =>
        .running (s.setRegister dest value).advance
  | .store slot _ offset value =>
      s.attempt
        (do
          let index ← s.top.offset offset
          let value ← s.top.operand value
          let (position, _) ← s.element slot index
          return (position, value))
        fun (position, value) s => .running (s.write slot position value).advance
  | .binary dest op left right =>
      s.attempt
        (do
          let left ← s.top.operand left
          evalBinary op left (← s.top.operand right))
        fun value s => .running (s.setRegister dest value).advance
  | .compare dest test left right =>
      s.attempt
        (do
          let left ← s.top.operand left
          test.holds left (← s.top.operand right))
        fun holds s => .running (s.setRegister dest (.boolean holds)).advance
  | .convert dest _ value target =>
      s.attempt (do evalConvert (← s.top.operand value) target) fun value s =>
        .running (s.setRegister dest value).advance
  | .call dest callee arguments =>
      s.attempt (do activate m callee (← s.top.operands arguments) s.depth) fun callee s =>
        .running (s.push dest callee)

def chooseBranch (onTrue onFalse : Nat) : Literal → Except Trap Nat
  | .boolean true => .ok onTrue
  | .boolean false => .ok onFalse
  | other => .error (.operandType "boolean" other.type)

/-- The target of the first case that equals the value. -/
def chooseCase (value : Int64) (default : Nat) : List (Literal × Nat) → Except Trap Nat
  | [] => return default
  | (literal, target) :: rest => do
      if (← literal.word) = value then return target
      chooseCase value default rest

def State.jump (s : State) (block : Nat) : State :=
  { s with top := s.top.jump block }

def Activation.returnValue (a : Activation) : Option Operand → Except Trap (Option Literal)
  | some o => do return some (← a.operand o)
  | none => return none

def execTerminator (t : Terminator) (s : State) : Outcome :=
  match t with
  | .branch target => .running (s.jump target)
  | .condBranch condition onTrue onFalse =>
      s.attempt (do chooseBranch onTrue onFalse (← s.top.operand condition)) fun target s =>
        .running (s.jump target)
  | .switch value default cases =>
      s.attempt (do chooseCase (← (← s.top.operand value).word) default cases) fun target s =>
        .running (s.jump target)
  | .ret value => s.attempt (s.top.returnValue value) fun value s => s.pop value
  | .unreachable => .trapped (.unreachable s.top.function.name) s.globals

/-- One step inside the current block: its next instruction, or its end. -/
def step (m : Code.Module) (block : Block) (s : State) : Outcome :=
  match block.instructions[s.top.next]? with
  | some i => execInstruction m i s
  | none =>
      match block.terminator with
      | some t => execTerminator t s
      | none => .trapped (.malformedBlock s.top.function.name s.top.block) s.globals

end ImpLower.Machine
