import ImpLower.Operator
import ImpLower.Binary.Remainder

/-!
# Typed constants

A literal carries its value at the width of its type. Integers are converted and combined as 64-bit
words and then narrowed, floats as 64-bit floats and then rounded, so a result depends on its type only
through that last step.
-/

namespace ImpLower

/-- A constant of a storable type. -/
inductive Literal where
  | short (value : Int16)
  | int (value : Int32)
  | long (value : Int64)
  | float (value : Float32)
  | double (value : Float)
  | boolean (value : Bool)
  | char (value : UInt8)
  | string (value : String)
  deriving DecidableEq

namespace Literal

def type : Literal → Ty
  | short _ => .short
  | int _ => .int
  | long _ => .long
  | float _ => .float
  | double _ => .double
  | boolean _ => .boolean
  | char _ => .char
  | string _ => .string

def zero : Ty → Option Literal
  | .short => some (short 0)
  | .int => some (int 0)
  | .long => some (long 0)
  | .float => some (float 0)
  | .double => some (double 0)
  | _ => none

/-- The word that an integer constant widens to. -/
def toInt64? : Literal → Option Int64
  | short value => some value.toInt64
  | int value => some value.toInt64
  | long value => some value
  | _ => none

/-- The 64-bit float that a numeric constant widens to. -/
def toDouble? : Literal → Option Float
  | float value => some value.toFloat
  | double value => some value
  | other => other.toInt64?.map Int64.toFloat

/-- A word narrowed to an integer type; high bits are dropped. -/
def ofInt64 (value : Int64) : Ty → Option Literal
  | .short => some (short value.toInt16)
  | .int => some (int value.toInt32)
  | .long => some (long value)
  | _ => none

/-- A 64-bit float rounded to a floating-point type. -/
def ofDouble (value : Float) : Ty → Option Literal
  | .float => some (float value.toFloat32)
  | .double => some (double value)
  | _ => none

/-- Equality as the language sees it: floats compare as numbers, so NaN equals nothing and the two
zeros are equal. -/
def same : Literal → Literal → Bool
  | float a, float b => a == b
  | double a, double b => a == b
  | a, b => a = b

theorem zero_isSome (ty : Ty) : (zero ty).isSome = ty.isNumeric := by
  cases ty <;> rfl

theorem type_of_zero {ty : Ty} {l : Literal} (h : zero ty = some l) : l.type = ty := by
  cases ty <;> simp_all [zero] <;> subst h <;> rfl

theorem toInt64?_isSome (l : Literal) : l.toInt64?.isSome = l.type.isInteger := by
  cases l <;> rfl

theorem toDouble?_isSome (l : Literal) : l.toDouble?.isSome = l.type.isNumeric := by
  cases l <;> rfl

theorem type_of_ofInt64 {value : Int64} {ty : Ty} {l : Literal} (h : ofInt64 value ty = some l) :
    l.type = ty := by
  cases ty <;> simp_all [ofInt64] <;> subst h <;> rfl

theorem type_of_ofDouble {value : Float} {ty : Ty} {l : Literal} (h : ofDouble value ty = some l) :
    l.type = ty := by
  cases ty <;> simp_all [ofDouble] <;> subst h <;> rfl

end Literal

end ImpLower
