import ImpLower.Literal.Basic

/-!
# Converting and folding constants

Conversion and arithmetic on constants. The machine executes instructions with the same two
functions, so folding ahead of time and running agree.
-/

namespace ImpLower

namespace Arith

/-- Arithmetic on words. Sums, differences and products wrap; a quotient or remainder is undefined
for a zero divisor and for the one quotient that overflows. -/
def onWords : Arith → Int64 → Int64 → Option Int64
  | add, l, r => some (l + r)
  | sub, l, r => some (l - r)
  | mul, l, r => some (l * r)
  | div, l, r => if r = 0 ∨ (l = Int64.minValue ∧ r = -1) then none else some (l / r)
  | rem, l, r => if r = 0 ∨ (l = Int64.minValue ∧ r = -1) then none else some (l % r)

def onFloats : Arith → Float → Float → Float
  | add, l, r => l + r
  | sub, l, r => l - r
  | mul, l, r => l * r
  | div, l, r => l / r
  | rem, l, r => Binary.floatRem l r

end Arith

namespace Bitwise

def onWords : Bitwise → Int64 → Int64 → Int64
  | and, l, r => l &&& r
  | or, l, r => l ||| r
  | xor, l, r => l ^^^ r

end Bitwise

namespace Operation

/-- An integer or bitwise operation on words; float operations have no meaning there. -/
def onWords : Operation → Int64 → Int64 → Option Int64
  | int op, l, r => op.onWords l r
  | bitwise op, l, r => some (op.onWords l r)
  | float _, _, _ => none

def onFloats : Operation → Float → Float → Option Float
  | float op, l, r => some (op.onFloats l r)
  | _, _, _ => none

end Operation

namespace Literal

/-- The constant moved to type `target`, where a conversion exists. A float becomes an integer by
truncation that saturates at 64 bits, with NaN going to zero. -/
def convert (l : Literal) (target : Ty) : Option Literal :=
  match Conversion.into target l.type with
  | .ok .identity => some l
  | .ok .intTruncate | .ok .intSignExtend => l.toInt64?.bind (ofInt64 · target)
  | .ok .floatTruncate | .ok .floatExtend | .ok .signedIntToFloat =>
      l.toDouble?.bind (ofDouble · target)
  | .ok .floatToSignedInt => l.toDouble?.bind (ofInt64 ·.toInt64 target)
  | .error _ => none

theorem convert_type_self (l : Literal) : l.convert l.type = some l := by
  simp [convert, Conversion.into_self]

theorem type_of_convert {l l' : Literal} {target : Ty} (h : l.convert target = some l') :
    l'.type = target := by
  unfold convert at h
  split at h
  · rename_i hc
    cases h
    exact (Conversion.eq_of_into_eq_identity hc).symm
  all_goals simp only [Option.bind_eq_some_iff, reduceCtorEq] at h
  all_goals obtain ⟨v, -, hv⟩ := h
  all_goals grind [type_of_ofInt64, type_of_ofDouble]

end Literal

/-- The result of an operation at type `ty`, where it is defined. -/
def Operation.eval (op : Operation) (left right : Literal) (ty : Ty) : Option Literal :=
  if ty.isFloat then do
    let l ← left.toDouble?
    let r ← right.toDouble?
    Literal.ofDouble (← op.onFloats l r) ty
  else do
    let l ← left.toInt64?
    let r ← right.toInt64?
    Literal.ofInt64 (← op.onWords l r) ty

theorem Operation.type_of_eval {op : Operation} {left right l : Literal} {ty : Ty}
    (h : op.eval left right ty = some l) : l.type = ty := by
  unfold Operation.eval at h
  split at h
  · simp only [bind, Option.bind_eq_some_iff] at h
    obtain ⟨_, -, _, -, _, -, hv⟩ := h
    exact Literal.type_of_ofDouble hv
  · simp only [bind, Option.bind_eq_some_iff] at h
    obtain ⟨_, -, _, -, _, -, hv⟩ := h
    exact Literal.type_of_ofInt64 hv

end ImpLower
