import ImpLower.Code.Module
import ImpLower.Machine.Trap

/-!
# Machine states

An activation is a running call of a function: its arguments, registers, stack slots and the place it
has reached. A state is the globals, the activation on top and the callers that wait for it.

Memory is taken to be unbounded: a cell of any length can be allocated, for a global as well as on the
stack, and no run stops for want of room.
-/

namespace ImpLower.Machine

open Code

/-- A storage cell is an array; scalars have one element. -/
abbrev Cell := Array Literal

structure Activation where
  function : Function
  arguments : List Literal
  registers : Array (Option Literal)
  slots : Array (Option Cell)
  /-- Position of the current block. -/
  block : Nat := 0
  /-- Position of the next instruction in it. -/
  next : Nat := 0

/-- A caller that waits, and the register it wants the result in. -/
structure Suspended where
  activation : Activation
  dest : Option Nat

structure State where
  globals : Array Cell
  top : Activation
  callers : List Suspended := []

/-- No more calls than this may be active at once. -/
def maxDepth : Nat := 256

namespace Activation

def start (f : Function) (arguments : List Literal) : Activation where
  function := f
  arguments := arguments
  registers := Array.replicate f.registers none
  slots := Array.replicate f.slots none

def currentBlock? (a : Activation) : Option Block :=
  a.function.blocks[a.block]?

def operand (a : Activation) : Operand → Except Trap Literal
  | .register index =>
      match a.registers[index]? with
      | some (some value) => .ok value
      | _ => .error (.unsetRegister index)
  | .constant value => .ok value
  | .parameter index =>
      match a.arguments[index]? with
      | some value => .ok value
      | none => .error (.unsetRegister index)

def operands (a : Activation) : List Operand → Except Trap (List Literal)
  | [] => return []
  | o :: rest => do
      let value ← a.operand o
      return value :: (← a.operands rest)

/-- The element an access asks for; without an offset it is the first. -/
def offset (a : Activation) : Option Operand → Except Trap Int64
  | some o => do (← a.operand o).word
  | none => return 0

/-- The element count an allocation asks for. -/
def length (a : Activation) : Option Operand → Except Trap Nat
  | some o => do
      let n ← (← a.operand o).word
      if n < 0 then throw (.invalidLength n.toInt)
      return n.toInt.toNat
  | none => return 1

/-- Writes a register; the register file grows as needed. -/
def setRegister (a : Activation) (index : Nat) (value : Literal) : Activation :=
  if index < a.registers.size then
    { a with registers := a.registers.setIfInBounds index (some value) }
  else
    { a with
      registers :=
        (a.registers ++ Array.replicate (index - a.registers.size) none).push (some value) }

/-- Writes the result of a call where it is wanted. -/
def receive (a : Activation) : Option Nat → Option Literal → Activation
  | some dest, some value => a.setRegister dest value
  | _, _ => a

def advance (a : Activation) : Activation :=
  { a with next := a.next + 1 }

def jump (a : Activation) (block : Nat) : Activation :=
  { a with block, next := 0 }

end Activation

namespace State

def depth (s : State) : Nat :=
  s.callers.length + 1

def cell (s : State) : Slot → Except Trap Cell
  | .stack index =>
      match s.top.slots[index]? with
      | some (some cell) => .ok cell
      | _ => .error (.unallocated index)
  | .global index =>
      match s.globals[index]? with
      | some cell => .ok cell
      | none => .error (.unallocated index)

/-- Position and value of an element of a cell. -/
def element (s : State) (slot : Slot) (index : Int64) : Except Trap (Nat × Literal) := do
  let cell ← s.cell slot
  match index.toInt with
  | .ofNat position =>
      match cell[position]? with
      | some value => return (position, value)
      | none => throw (.indexOutOfBounds index.toInt cell.size)
  | .negSucc _ => throw (.indexOutOfBounds index.toInt cell.size)

def write (s : State) (slot : Slot) (position : Nat) (value : Literal) : State :=
  match slot with
  | .stack index =>
      { s with
        top :=
          { s.top with
            slots := s.top.slots.modify index fun c =>
              c.map fun cell => cell.setIfInBounds position value } }
  | .global index =>
      { s with
        globals := s.globals.modify index fun cell => cell.setIfInBounds position value }

def allocate (s : State) (slot : Nat) (cell : Cell) : State :=
  { s with top := { s.top with slots := s.top.slots.setIfInBounds slot (some cell) } }

def setRegister (s : State) (index : Nat) (value : Literal) : State :=
  { s with top := s.top.setRegister index value }

def advance (s : State) : State :=
  { s with top := s.top.advance }

end State

end ImpLower.Machine
