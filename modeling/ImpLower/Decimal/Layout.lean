import ImpLower.Decimal.Shortest

/-!
# Layout of decimal constants

Numbers of ordinary size are written positionally with at least one digit after the point, all others
with a decimal exponent.
-/

namespace ImpLower.Decimal

/-- Which decimal exponents of the leading digit are written positionally. -/
structure Layout where
  least : Int
  bound : Int

/-- Constants are positional from `10 ^ -4` up to, but not including, `10 ^ 16`. -/
def constant : Layout := ⟨-4, 16⟩

private def zeros (n : Nat) : List Char :=
  List.replicate n '0'

/-- Digits with the point after the first `point` places. -/
def positional (digits : List Char) (point : Int) : List Char :=
  if point ≤ 0 then '0' :: '.' :: (zeros (-point).toNat ++ digits)
  else if digits.length ≤ point.toNat then
    digits ++ zeros (point.toNat - digits.length) ++ ['.', '0']
  else digits.take point.toNat ++ '.' :: digits.drop point.toNat

/-- Digits with the point after the first place, then the exponent of that place. -/
def scientific (digits : List Char) (exponent : Int) : List Char :=
  let rest := digits.drop 1
  digits.take 1 ++ (if rest.isEmpty then [] else '.' :: rest) ++ 'e' :: (toString exponent).toList

def render (layout : Layout) (d : Decimal) : String :=
  let digits := Nat.toDigits 10 d.digits
  let point : Int := d.exponent + digits.length
  String.ofList <|
    if layout.least ≤ point - 1 ∧ point - 1 < layout.bound then positional digits point
    else scientific digits (point - 1)

end ImpLower.Decimal

namespace ImpLower.Binary

/-- Text of a float constant: the sign, then the shortest decimal that reads back. -/
def Unpacked.render (format : Format) : Unpacked → String
  | nan => "NaN"
  | infinite negative => if negative then "-inf" else "inf"
  | finite negative mantissa exponent =>
      let magnitude :=
        if mantissa = 0 then "0.0"
        else (Decimal.shortest format mantissa exponent).render Decimal.constant
      if negative then "-" ++ magnitude else magnitude

end ImpLower.Binary
