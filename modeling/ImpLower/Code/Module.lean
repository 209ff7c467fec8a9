import ImpLower.Literal.Basic

/-!
# Modules of basic blocks

A module holds globals and functions. A function is a list of basic blocks over virtual registers and
stack slots, both numbered from zero; a block is a straight run of instructions and, once it is
closed, a terminator. Blocks, functions and globals are referred to by position.
-/

namespace ImpLower.Code

/-- What an instruction reads: a register, a constant or a parameter. -/
inductive Operand where
  | register (index : Nat)
  | constant (value : Literal)
  | parameter (index : Nat)
  deriving DecidableEq

/-- Addressable storage: a stack slot of the running function or a global. -/
inductive Slot where
  | stack (index : Nat)
  | global (index : Nat)
  deriving DecidableEq, Repr

structure BlockId where
  function : Nat
  block : Nat
  deriving DecidableEq, Repr

inductive Instruction where
  | alloca (slot : Nat) (ty : Ty) (length : Option Operand) (name : String)
  | load (dest : Nat) (slot : Slot) (ty : Ty) (offset : Option Operand)
  | store (slot : Slot) (ty : Ty) (offset : Option Operand) (value : Operand)
  | binary (dest : Nat) (op : Operation) (left right : Operand)
  | compare (dest : Nat) (test : Predicate) (left right : Operand)
  | convert (dest : Nat) (conversion : Conversion) (value : Operand) (target : Ty)
  | call (dest : Option Nat) (callee : Nat) (arguments : List Operand)
  deriving DecidableEq

inductive Terminator where
  | branch (target : Nat)
  | condBranch (condition : Operand) (onTrue onFalse : Nat)
  | switch (value : Operand) (default : Nat) (cases : List (Literal × Nat))
  | ret (value : Option Operand)
  | unreachable
  deriving DecidableEq

/-- Blocks that control can move to next. -/
def Terminator.successors : Terminator → List Nat
  | branch target => [target]
  | condBranch _ onTrue onFalse => [onTrue, onFalse]
  | switch _ default cases => default :: cases.map Prod.snd
  | ret _ => []
  | unreachable => []

/-- A basic block; an open one has no terminator yet. -/
structure Block where
  label : String
  instructions : Array Instruction := #[]
  terminator : Option Terminator := none
  deriving DecidableEq

/-- A function; execution starts at its first block. -/
structure Function where
  name : String
  result : Ty
  parameters : List Ty
  blocks : Array Block := #[]
  registers : Nat := 0
  slots : Nat := 0
  deriving DecidableEq

def Function.findBlock? (f : Function) (label : String) : Option Block :=
  f.blocks.find? (·.label = label)

/-- A global; scalars have no length. -/
structure Global where
  name : String
  ty : Ty
  length : Option Nat := none
  initializer : Option Literal := none
  deriving DecidableEq

structure Module where
  name : String
  globals : Array Global := #[]
  functions : Array Function := #[]
  deriving DecidableEq

namespace Module

def functionIndex? (m : Module) (name : String) : Option Nat :=
  m.functions.findIdx? (·.name = name)

def globalIndex? (m : Module) (name : String) : Option Nat :=
  m.globals.findIdx? (·.name = name)

def blockCount (m : Module) : Nat :=
  m.functions.foldl (fun n f => n + f.blocks.size) 0

end Module

end ImpLower.Code
