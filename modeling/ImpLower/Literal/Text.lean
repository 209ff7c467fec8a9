import ImpLower.Decimal.Layout
import ImpLower.Literal.Basic
import ImpLower.Text.Quoted

/-!
# Text of constants
-/

namespace ImpLower.Literal

/-- A constant as listings show it. -/
def text : Literal → String
  | short value => toString value.toInt
  | int value => toString value.toInt
  | long value => toString value.toInt
  | float value => (Binary.single.unpack value.toBits.toNat).render Binary.single
  | double value => (Binary.double.unpack value.toBits.toNat).render Binary.double
  | boolean value => if value then "true" else "false"
  | char value => Text.quotedChar (Char.ofNat value.toNat)
  | string value => Text.quoted value

end ImpLower.Literal
