import ImpLower.Binary.Format

/-!
# Shortest decimals

Every positive float is the nearest one to each real in an interval around it. Among the decimals in
that interval the shortest is taken, and among the shortest the one nearest to the float; the upper
of two equally near ones wins.

Decimals with the same number of digits form a grid. If the interval holds a point of a grid at all,
it holds one of the two neighbours of the float on that grid, so grids are tried from coarse to fine.
-/

namespace ImpLower

/-- The positive number `digits * 10 ^ exponent`. -/
structure Decimal where
  digits : Nat
  exponent : Int
  deriving DecidableEq, Repr

namespace Decimal

/-- The reals that round to a float, as numerators over one denominator. The ends belong to the
interval when `closed`. -/
structure Interval where
  low : Nat
  value : Nat
  high : Nat
  denominator : Nat
  closed : Bool
  deriving Repr

/-- The interval of `mantissa * 2 ^ exponent`: half a gap to each side, closed for even mantissas. -/
def Interval.around (format : Binary.Format) (mantissa : Nat) (exponent : Int) : Interval :=
  let scale := Nat.pow 2 (exponent - 2).toNat
  let below := if format.narrowBelow mantissa exponent then 1 else 2
  { low := (4 * mantissa - below) * scale
    value := 4 * mantissa * scale
    high := (4 * mantissa + 2) * scale
    denominator := Nat.pow 2 (2 - exponent).toNat
    closed := mantissa % 2 = 0 }

/-- The point of the grid of multiples of `10 ^ place` that lies in the interval and is nearest to
its value, the upper one on a tie. -/
def Interval.onGrid (i : Interval) (place : Int) : Option Nat :=
  let scale := Nat.pow 10 (-place).toNat
  let unit := i.denominator * Nat.pow 10 place.toNat
  let value := i.value * scale
  let lower := value / unit
  let belowFits :=
    if i.closed then i.low * scale ≤ lower * unit else i.low * scale < lower * unit
  let aboveFits :=
    if i.closed then (lower + 1) * unit ≤ i.high * scale else (lower + 1) * unit < i.high * scale
  if belowFits ∧ aboveFits then
    some (if 2 * (value % unit) < unit then lower else lower + 1)
  else if belowFits then some lower
  else if aboveFits then some (lower + 1)
  else none

def digitCount (n : Nat) : Nat :=
  (Nat.toDigits 10 n).length

/-- The least `k` such that the value is below `10 ^ k`. -/
def Interval.magnitude (i : Interval) : Int :=
  if i.denominator ≤ i.value then digitCount (i.value / i.denominator)
  else 1 - digitCount ((i.denominator + i.value - 1) / i.value - 1)

/-- Tries grids of `count`, `count + 1`, ... digits; the finest one takes the lower neighbour. -/
def search (i : Interval) (magnitude : Int) : Nat → Nat → Decimal
  | 0, count =>
      let place := magnitude - count
      ⟨i.value * Nat.pow 10 (-place).toNat / (i.denominator * Nat.pow 10 place.toNat), place⟩
  | tries + 1, count =>
      let place := magnitude - count
      match i.onGrid place with
      | some digits => ⟨digits, place⟩
      | none => search i magnitude tries (count + 1)

def trim (d : Decimal) : Decimal :=
  if d.digits ≠ 0 ∧ d.digits % 10 = 0 then trim ⟨d.digits / 10, d.exponent + 1⟩ else d
termination_by d.digits
decreasing_by omega

/-- Seventeen digits tell any two floats of either format apart. -/
def maxDigits : Nat := 17

/-- The shortest decimal that reads back as the positive float `mantissa * 2 ^ exponent`. -/
def shortest (format : Binary.Format) (mantissa : Nat) (exponent : Int) : Decimal :=
  let i := Interval.around format mantissa exponent
  (search i i.magnitude maxDigits 1).trim

end Decimal

end ImpLower
