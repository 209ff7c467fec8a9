/-!
# Binary floating-point formats

A bit pattern is unpacked into a sign, a mantissa and an exponent, so that exact questions about
floats become questions about integers, and packed again when the answer is representable.
-/

namespace ImpLower.Binary

/-- Widths of the fraction and of the exponent field. -/
structure Format where
  fractionBits : Nat
  exponentBits : Nat
  deriving DecidableEq, Repr

def single : Format := ⟨23, 8⟩

def double : Format := ⟨52, 11⟩

/-- What a bit pattern stands for; `finite` is the number `± mantissa * 2 ^ exponent`. -/
inductive Unpacked where
  | nan
  | infinite (negative : Bool)
  | finite (negative : Bool) (mantissa : Nat) (exponent : Int)
  deriving DecidableEq, Repr

namespace Format

/-- Exponent of the last place of the smallest numbers. -/
def leastExponent (format : Format) : Int :=
  2 - Nat.pow 2 (format.exponentBits - 1) - format.fractionBits

def unpack (format : Format) (bits : Nat) : Unpacked :=
  let fraction := bits % Nat.pow 2 format.fractionBits
  let field := bits / Nat.pow 2 format.fractionBits % Nat.pow 2 format.exponentBits
  let negative := bits.testBit (format.fractionBits + format.exponentBits)
  if field = Nat.pow 2 format.exponentBits - 1 then
    if fraction = 0 then .infinite negative else .nan
  else if field = 0 then .finite negative fraction format.leastExponent
  else
    .finite negative (Nat.pow 2 format.fractionBits + fraction) (format.leastExponent + field - 1)

/-- The bits of a number that the format can hold exactly. The mantissa is moved so that it fills the
fraction, or as far as the least exponent allows. -/
def pack (format : Format) : Unpacked → Nat
  | .nan =>
      (Nat.pow 2 (format.exponentBits + 1) - 1) * Nat.pow 2 (format.fractionBits - 1)
  | .infinite negative =>
      signBit negative + (Nat.pow 2 format.exponentBits - 1) * Nat.pow 2 format.fractionBits
  | .finite negative mantissa exponent =>
      let leading : Int := exponent + mantissa.log2 - format.fractionBits
      let last := max leading format.leastExponent
      let aligned :=
        mantissa * Nat.pow 2 (exponent - last).toNat / Nat.pow 2 (last - exponent).toNat
      if aligned < Nat.pow 2 format.fractionBits then signBit negative + aligned
      else
        signBit negative +
          ((last - format.leastExponent + 1).toNat * Nat.pow 2 format.fractionBits +
            (aligned - Nat.pow 2 format.fractionBits))
where
  signBit (negative : Bool) : Nat :=
    if negative then Nat.pow 2 (format.fractionBits + format.exponentBits) else 0

/-- The gap below a power of two is half the gap above it, except at the least exponent. -/
def narrowBelow (format : Format) (mantissa : Nat) (exponent : Int) : Bool :=
  mantissa = Nat.pow 2 format.fractionBits && format.leastExponent < exponent

end Format

end ImpLower.Binary
