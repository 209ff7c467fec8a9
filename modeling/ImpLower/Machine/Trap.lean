import ImpLower.Literal.Fold
import ImpLower.Text.Quoted

/-!
# Traps

The ways a run can fail.
-/

namespace ImpLower

/-- Why a run stopped without a result. -/
inductive Trap where
  | unknownFunction (name : String)
  | arityMismatch (function : String) (expected received : Nat)
  | stepLimit (limit : Nat)
  | callDepth (depth : Nat)
  | arithmetic (op : Operation)
  | indexOutOfBounds (index : Int) (length : Nat)
  | invalidLength (length : Int)
  | unallocated (slot : Nat)
  | unsetRegister (register : Nat)
  | unreachable (function : String)
  | malformedBlock (function : String) (block : Nat)
  | operandType (expected : String) (found : Ty)
  deriving DecidableEq, Repr

def Trap.name : Trap → String
  | unknownFunction _ => "UnknownFunction"
  | arityMismatch .. => "ArityMismatch"
  | stepLimit _ => "StepLimit"
  | callDepth _ => "CallDepth"
  | arithmetic _ => "Arithmetic"
  | indexOutOfBounds .. => "IndexOutOfBounds"
  | invalidLength _ => "InvalidLength"
  | unallocated _ => "Unallocated"
  | unsetRegister _ => "UnsetRegister"
  | unreachable _ => "Unreachable"
  | malformedBlock .. => "MalformedBlock"
  | operandType .. => "OperandType"

def Trap.message : Trap → String
  | unknownFunction name => "no function named " ++ Text.quoted name
  | arityMismatch function expected received =>
      Text.quoted function ++ s!" expects {expected} arguments, received {received}"
  | stepLimit limit => s!"step limit of {limit} exceeded"
  | callDepth depth => s!"call depth of {depth} exceeded"
  | arithmetic op => op.name ++ " has no defined result for these operands"
  | indexOutOfBounds index length => s!"index {index} out of bounds for {length} elements"
  | invalidLength length => s!"invalid array length {length}"
  | unallocated slot => s!"slot {slot} used before its allocation"
  | unsetRegister register => s!"register %{register} read before it was written"
  | unreachable function => "reached unreachable code in " ++ Text.quoted function
  | malformedBlock function block =>
      s!"block {block} of " ++ Text.quoted function ++ " is missing or unterminated"
  | operandType expected found => s!"expected {expected} operand, found {found.name}"

namespace Literal

/-- The word that comparisons, switches and offsets see. Booleans and characters count as integers
here. -/
def word : Literal → Except Trap Int64
  | boolean value => .ok (if value then 1 else 0)
  | char value => .ok (Int64.ofNat value.toNat)
  | other =>
      match other.toInt64? with
      | some value => .ok value
      | none => .error (.operandType "integer" other.type)

/-- The number that float comparisons see; integers are not accepted. -/
def number : Literal → Except Trap Float
  | float value => .ok value.toFloat
  | double value => .ok value
  | other => .error (.operandType "float" other.type)

/-- What fresh storage of a type holds. -/
def initial : Ty → Literal
  | .boolean => boolean false
  | .char => char 0
  | .string => string ""
  | .void => string ""
  | .short => short 0
  | .int => int 0
  | .long => long 0
  | .float => float 0
  | .double => double 0

theorem type_initial {ty : Ty} (h : ty ≠ .void) : (initial ty).type = ty := by
  cases ty <;> simp_all [initial, type]

end Literal

namespace Relation

def onWords : Relation → Int64 → Int64 → Bool
  | lt, l, r => l < r
  | gt, l, r => r < l
  | le, l, r => l ≤ r
  | ge, l, r => r ≤ l
  | eq, l, r => l = r
  | ne, l, r => l ≠ r

/-- An ordered relation between floats: none holds when a side is NaN. -/
def onFloats : Relation → Float → Float → Bool
  | lt, l, r => l < r
  | gt, l, r => r < l
  | le, l, r => l ≤ r
  | ge, l, r => r ≤ l
  | eq, l, r => l == r
  | ne, l, r => !l.isNaN && !r.isNaN && l != r

end Relation

/-- Whether a predicate holds of two constants; the left one is read first. -/
def Predicate.holds : Predicate → Literal → Literal → Except Trap Bool
  | int op, left, right => do
      let l ← left.word
      return op.onWords l (← right.word)
  | float op, left, right => do
      let l ← left.number
      return op.onFloats l (← right.number)

end ImpLower
