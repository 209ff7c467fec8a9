import ImpLower.Binary.Format

/-!
# Exact floating-point remainder

The remainder of a truncating division keeps the sign of the dividend and is always representable, so
it is computed on aligned integer mantissas without rounding.
-/

namespace ImpLower.Binary

namespace Unpacked

/-- Remainder of the truncating quotient. It is undefined for an infinite dividend or a zero divisor,
and a finite dividend is its own remainder by an infinite divisor. -/
def rem : Unpacked → Unpacked → Unpacked
  | finite negative mantissa exponent, infinite _ => finite negative mantissa exponent
  | finite negative mantissa exponent, finite _ mantissa' exponent' =>
      if mantissa' = 0 then nan
      else
        let last := min exponent exponent'
        finite negative
          (mantissa * Nat.pow 2 (exponent - last).toNat %
            (mantissa' * Nat.pow 2 (exponent' - last).toNat)) last
  | _, _ => nan

end Unpacked

/-- Remainder of two 64-bit floats, with the sign of the dividend. -/
def floatRem (x y : Float) : Float :=
  let unpacked := (double.unpack x.toBits.toNat).rem (double.unpack y.toBits.toNat)
  Float.ofBits (UInt64.ofNat (double.pack unpacked))

end ImpLower.Binary
