import Mathlib.Data.Int.Bitwise
import ImpLower.Proofs.Literal.Residues

/-!
# Integer operations are exact up to the width

The operations on numbers of any size, and how the operations on words reflect them: the word that
comes out is congruent to the exact result, so narrowing it leaves the residue of the exact result at
the type asked for. All operations but quotient and remainder respect congruence, and conversion
commutes with them.
-/

namespace ImpLower

/-- Arithmetic on numbers of any size. A quotient is truncated and a remainder has the sign of the
dividend. -/
def Arith.onIntegers : Arith → Int → Int → Option Int
  | add, a, b => some (a + b)
  | sub, a, b => some (a - b)
  | mul, a, b => some (a * b)
  | div, a, b => if b = 0 then none else some (a.tdiv b)
  | rem, a, b => if b = 0 then none else some (a.tmod b)

/-- Bitwise operators on numbers of any size, whose sign bit goes on without end. -/
def Bitwise.onIntegers : Bitwise → Int → Int → Int
  | and => Int.land
  | or => Int.lor
  | xor => Int.xor

namespace Operation

/-- An integer or bitwise operation on numbers of any size. -/
def onIntegers : Operation → Int → Int → Option Int
  | int op, a, b => op.onIntegers a b
  | bitwise op, a, b => some (op.onIntegers a b)
  | float _, _, _ => none

def isModular : Operation → Bool
  | int .add | int .sub | int .mul | bitwise _ => true
  | _ => false

end Operation

/-! ## Bits of integers -/

theorem getLsbD_ofInt (w i : Nat) (n : Int) :
    (BitVec.ofInt w n).getLsbD i = (decide (i < w) && n.testBit i) := by
  cases n with
  | ofNat n =>
      rw [Int.ofNat_eq_natCast, BitVec.ofInt_natCast, BitVec.getLsbD_ofNat]
      rfl
  | negSucc n =>
      rw [BitVec.ofInt_negSucc_eq_not_ofNat, BitVec.getLsbD_not, BitVec.getLsbD_ofNat]
      by_cases inside : i < w
      · simp [inside, Int.testBit]
      · simp [inside]

/-- Numbers are congruent modulo a power of two when they agree in so many bits. -/
theorem modEq_iff_ofInt_eq {w : Nat} {a b : Int} :
    a ≡ b [ZMOD 2 ^ w] ↔ BitVec.ofInt w a = BitVec.ofInt w b := by
  rw [← BitVec.toInt_inj, BitVec.toInt_ofInt, BitVec.toInt_ofInt, modEq_iff_bmod_eq]

namespace Bitwise

def onBits {w : Nat} : Bitwise → BitVec w → BitVec w → BitVec w
  | and, x, y => x &&& y
  | or, x, y => x ||| y
  | xor, x, y => x ^^^ y

/-- The low bits of a result come from the low bits of the operands. -/
theorem ofInt_onIntegers (op : Bitwise) (w : Nat) (a b : Int) :
    BitVec.ofInt w (op.onIntegers a b) = op.onBits (BitVec.ofInt w a) (BitVec.ofInt w b) := by
  apply BitVec.eq_of_getLsbD_eq
  intro i inside
  have bit (n : Int) : (BitVec.ofInt w n).getLsbD i = n.testBit i := by
    rw [getLsbD_ofInt, decide_eq_true inside, Bool.true_and]
  rw [bit]
  cases op with
  | and => rw [onBits, BitVec.getLsbD_and, bit, bit, onIntegers, Int.testBit_land]
  | or => rw [onBits, BitVec.getLsbD_or, bit, bit, onIntegers, Int.testBit_lor]
  | xor => rw [onBits, BitVec.getLsbD_xor, bit, bit, onIntegers, Int.testBit_lxor]

theorem toInt_onWords (op : Bitwise) (u v : Int64) :
    (op.onWords u v).toInt ≡ op.onIntegers u.toInt v.toInt [ZMOD 2 ^ 64] := by
  have bits : (op.onWords u v).toBitVec = op.onBits u.toBitVec v.toBitVec := by
    cases op <;> rfl
  rw [modEq_iff_ofInt_eq, ofInt_onIntegers, ← Int64.toInt_toBitVec, ← Int64.toInt_toBitVec u,
    ← Int64.toInt_toBitVec v, BitVec.ofInt_toInt, BitVec.ofInt_toInt, BitVec.ofInt_toInt, bits]

end Bitwise

/-! ## Operations on words -/

namespace Operation

variable {op : Operation} {u v x : Int64} {a a' b b' n n' : Int} {w : Nat}

/-- Where an operation on words has a result, it is the exact one up to multiples of `2 ^ 64`. -/
theorem onIntegers_of_onWords (h : op.onWords u v = some x) :
    ∃ n, op.onIntegers u.toInt v.toInt = some n ∧ x.toInt ≡ n [ZMOD 2 ^ 64] := by
  have divisor (nonzero : ¬ v = 0) : ¬ v.toInt = 0 := by
    intro zero
    exact nonzero (Int64.toInt_inj.mp zero)
  cases op with
  | float op => cases h
  | bitwise op =>
      cases h
      exact ⟨_, rfl, op.toInt_onWords u v⟩
  | int op =>
      cases op with
      | add =>
          cases h
          exact ⟨_, rfl, Int64.toInt_add u v ▸ bmod_modEq _ 64⟩
      | sub =>
          cases h
          exact ⟨_, rfl, Int64.toInt_sub u v ▸ bmod_modEq _ 64⟩
      | mul =>
          cases h
          exact ⟨_, rfl, Int64.toInt_mul u v ▸ bmod_modEq _ 64⟩
      | div =>
          obtain ⟨defined, h⟩ := Option.ite_none_left_eq_some.mp h
          cases h
          exact ⟨_, if_neg (divisor fun zero => defined (.inl zero)),
            Int64.toInt_div u v ▸ bmod_modEq _ 64⟩
      | rem =>
          obtain ⟨defined, h⟩ := Option.ite_none_left_eq_some.mp h
          cases h
          exact ⟨_, if_neg (divisor fun zero => defined (.inl zero)), Int64.toInt_mod u v ▸ rfl⟩

theorem onWords_of_isModular (modular : op.isModular = true) (u v : Int64) :
    ∃ x, op.onWords u v = some x := by
  cases op with
  | float op => cases modular
  | bitwise op => exact ⟨_, rfl⟩
  | int op => cases op <;> cases modular <;> exact ⟨_, rfl⟩

/-- The two operations on words that can fail, and when they do. -/
theorem onWords_eq_none_iff {op : Arith} (partly : op = .div ∨ op = .rem) (u v : Int64) :
    (int op).onWords u v = none ↔ v.toInt = 0 ∨ (u.toInt = -2 ^ 63 ∧ v.toInt = -1) := by
  have zero : v.toInt = 0 ↔ v = 0 := Int64.toInt_inj (y := 0)
  have least : u.toInt = -2 ^ 63 ↔ u = Int64.minValue := Int64.toInt_inj (y := Int64.minValue)
  have minusOne : v.toInt = -1 ↔ v = -1 := Int64.toInt_inj (y := -1)
  rw [zero, least, minusOne]
  rcases partly with rfl | rfl
  · simp [onWords, Arith.onWords, or_iff_not_imp_left]
  · simp [onWords, Arith.onWords, or_iff_not_imp_left]

/-- The bits of a result below a width depend on those of the operands only. -/
theorem onIntegers_congr (modular : op.isModular = true) (left : a ≡ a' [ZMOD 2 ^ w])
    (right : b ≡ b' [ZMOD 2 ^ w]) (h : op.onIntegers a b = some n)
    (h' : op.onIntegers a' b' = some n') : n ≡ n' [ZMOD 2 ^ w] := by
  cases op with
  | float op => cases modular
  | bitwise op =>
      cases h
      cases h'
      rw [modEq_iff_ofInt_eq] at left right ⊢
      rw [op.ofInt_onIntegers, op.ofInt_onIntegers, left, right]
  | int op =>
      cases op <;> cases modular <;> cases h <;> cases h'
      · exact Int.ModEq.add left right
      · exact Int.ModEq.sub left right
      · exact Int.ModEq.mul left right

end Operation

/-! ## Operations on constants -/

namespace Literal

variable {op : Operation} {l r k : Literal} {ty other : Ty} {a b n : Int}

/-- At an integer type an operation works on words and narrows the result. -/
theorem eval_of_words {u v : Int64} (integral : ty.isInteger = true) (left : l.toInt64? = some u)
    (right : r.toInt64? = some v) : op.eval l r ty = (op.onWords u v).bind (ofInt64 · ty) := by
  simp [Operation.eval, Ty.isFloat_of_isInteger integral, left, right]

/-- Where an operation has a result, it is the residue of the exact one. -/
theorem residue_of_eval (left : l.number? = some a) (right : r.number? = some b)
    (integral : ty.isInteger = true) (h : op.eval l r ty = some k) :
    ∃ n, op.onIntegers a b = some n ∧ Residue ty n k := by
  obtain ⟨u, wordLeft, rfl⟩ := toInt64?_of_number? left
  obtain ⟨v, wordRight, rfl⟩ := toInt64?_of_number? right
  rw [eval_of_words integral wordLeft wordRight, Option.bind_eq_some_iff] at h
  obtain ⟨x, result, narrowed⟩ := h
  obtain ⟨n, whole, congruent⟩ := Operation.onIntegers_of_onWords result
  obtain ⟨w, width, le⟩ := Ty.bitWidth_of_isInteger integral
  have residue := (ofInt64_eq_some_iff integral).mp narrowed
  exact ⟨n, whole, residue.congr width (congruent.of_dvd (pow_dvd_pow 2 le))⟩

theorem eval_eq_none_iff {u v : Int64} (integral : ty.isInteger = true)
    (left : l.toInt64? = some u) (right : r.toInt64? = some v) :
    op.eval l r ty = none ↔ op.onWords u v = none := by
  rw [eval_of_words integral left right]
  cases op.onWords u v with
  | none => simp
  | some x =>
      obtain ⟨k, narrowed, -⟩ := ofInt64_residue integral x
      simp [narrowed]

theorem eval_of_isModular (modular : op.isModular = true) (left : l.number? = some a)
    (right : r.number? = some b) (integral : ty.isInteger = true) :
    ∃ n k, op.onIntegers a b = some n ∧ op.eval l r ty = some k ∧ Residue ty n k := by
  obtain ⟨u, wordLeft, -⟩ := toInt64?_of_number? left
  obtain ⟨v, wordRight, -⟩ := toInt64?_of_number? right
  obtain ⟨x, result⟩ := op.onWords_of_isModular modular u v
  have defined : op.eval l r ty ≠ none := by
    rw [ne_eq, eval_eq_none_iff integral wordLeft wordRight, result]
    simp
  obtain ⟨k, hk⟩ := Option.ne_none_iff_exists'.mp defined
  obtain ⟨n, whole, residue⟩ := residue_of_eval left right integral hk
  exact ⟨n, k, whole, hk, residue⟩

theorem eval_eq_some_iff (modular : op.isModular = true) (left : l.number? = some a)
    (right : r.number? = some b) (integral : ty.isInteger = true) :
    ∃ n, op.onIntegers a b = some n ∧ ∀ k, op.eval l r ty = some k ↔ Residue ty n k := by
  obtain ⟨n, k, whole, result, residue⟩ := eval_of_isModular modular left right integral
  refine ⟨n, whole, fun k' => ?_⟩
  rw [result, Option.some.injEq]
  constructor
  · rintro rfl
    exact residue
  · exact residue.unique

/-- Quotient and remainder fail for a zero divisor and for the one quotient that no word holds,
whatever the type they work at. -/
theorem eval_eq_none_of_division {op : Arith} (partly : op = .div ∨ op = .rem)
    (left : l.number? = some a) (right : r.number? = some b) (integral : ty.isInteger = true) :
    (Operation.int op).eval l r ty = none ↔ b = 0 ∨ (a = -2 ^ 63 ∧ b = -1) := by
  obtain ⟨u, wordLeft, rfl⟩ := toInt64?_of_number? left
  obtain ⟨v, wordRight, rfl⟩ := toInt64?_of_number? right
  rw [eval_eq_none_iff integral wordLeft wordRight, Operation.onWords_eq_none_iff partly]

theorem eval_float (op : Arith) (left : l.number? = some a) (right : r.number? = some b)
    (integral : ty.isInteger = true) : (Operation.float op).eval l r ty = none := by
  obtain ⟨u, wordLeft, -⟩ := toInt64?_of_number? left
  obtain ⟨v, wordRight, -⟩ := toInt64?_of_number? right
  rw [eval_eq_none_iff integral wordLeft wordRight]
  rfl

/-! ## Conversion before and after -/

/-- The number of a residue, and how far it is from what it is a residue of. -/
theorem Residue.exists_number {w : Nat} (h : Residue ty n k) (width : ty.bitWidth = some w) :
    ∃ m, k.number? = some m ∧ m ≡ n [ZMOD 2 ^ w] := by
  obtain ⟨-, w', m, width', number, congruent⟩ := h
  obtain rfl : w = w' := Option.some.inj (width.symm.trans width')
  exact ⟨m, number, congruent⟩

theorem exists_convert (h : l.number? = some a) (integral : ty.isInteger = true) :
    ∃ k, l.convert ty = some k ∧ Residue ty a k := by
  obtain ⟨k, residue⟩ := exists_residue integral a
  exact ⟨k, (convert_eq_some_iff h integral).mpr residue, residue⟩

/-- Converting the operands first makes no difference. -/
theorem eval_convert (modular : op.isModular = true) (left : l.number? = some a)
    (right : r.number? = some b) (integral : ty.isInteger = true) :
    ((l.convert ty).bind fun l' => (r.convert ty).bind fun r' => op.eval l' r' ty) =
      op.eval l r ty := by
  obtain ⟨w, width, -⟩ := Ty.bitWidth_of_isInteger integral
  obtain ⟨l', toLeft, residueLeft⟩ := exists_convert left integral
  obtain ⟨r', toRight, residueRight⟩ := exists_convert right integral
  obtain ⟨a', numberLeft, nearLeft⟩ := residueLeft.exists_number width
  obtain ⟨b', numberRight, nearRight⟩ := residueRight.exists_number width
  obtain ⟨n, whole, results⟩ := eval_eq_some_iff modular left right integral
  obtain ⟨n', k', whole', result', residue'⟩ :=
    eval_of_isModular modular numberLeft numberRight integral
  have near := Operation.onIntegers_congr modular nearLeft nearRight whole' whole
  rw [toLeft, toRight, Option.bind_some, Option.bind_some, result']
  exact ((results k').mpr (residue'.congr width near)).symm

/-- Nor does carrying out the operation at another type and converting the result, if that type is
no narrower or the result there is exact. -/
theorem convert_eval (modular : op.isModular = true) (left : l.number? = some a)
    (right : r.number? = some b) (integral : ty.isInteger = true) (integral' : other.isInteger = true)
    (kept : ty.bitWidth ≤ other.bitWidth ∨ (op.eval l r other).bind number? = op.onIntegers a b) :
    (op.eval l r other).bind (·.convert ty) = op.eval l r ty := by
  obtain ⟨w, width, -⟩ := Ty.bitWidth_of_isInteger integral
  obtain ⟨w', width', -⟩ := Ty.bitWidth_of_isInteger integral'
  obtain ⟨n, k, whole, result, residue⟩ := eval_of_isModular modular left right integral'
  obtain ⟨n', k', whole', result', residue'⟩ := eval_of_isModular modular left right integral
  obtain rfl : n = n' := Option.some.inj (whole.symm.trans whole')
  obtain ⟨m, number, congruent⟩ := residue.exists_number width'
  have near : n ≡ m [ZMOD 2 ^ w] := by
    rcases kept with narrower | kept
    · rw [width, width', Option.some_le_some] at narrower
      exact (congruent.of_dvd (pow_dvd_pow 2 narrower)).symm
    · rw [result, Option.bind_some, number, whole, Option.some.injEq] at kept
      rw [kept]
  rw [result, Option.bind_some, result', convert_eq_some_iff number integral]
  exact residue'.congr width near

/-- A constant comes back unchanged from a type that is no narrower. -/
theorem convert_convert (h : l.number? = some a) (integral : other.isInteger = true)
    (wider : l.type.bitWidth ≤ other.bitWidth) :
    (l.convert other).bind (·.convert l.type) = some l := by
  obtain ⟨w, width, -⟩ := Ty.bitWidth_of_isInteger (isInteger_of_number? h)
  obtain ⟨w', width', -⟩ := Ty.bitWidth_of_isInteger integral
  obtain ⟨k, moved, residue⟩ := exists_convert h integral
  obtain ⟨m, number, congruent⟩ := residue.exists_number width'
  rw [width, width', Option.some_le_some] at wider
  have near : a ≡ m [ZMOD 2 ^ w] := (congruent.of_dvd (pow_dvd_pow 2 wider)).symm
  rw [moved, Option.bind_some, convert_eq_some_iff number (isInteger_of_number? h)]
  exact (residue_self h).congr width near

/-- Integer constants are converted and combined in two's complement at the width of the target,
whatever their own types are. Conversion commutes with every operation but quotient and remainder; only
from a narrower type, where a result may have wrapped around already, does that need an exact one. -/
theorem integers_in_twos_complement (left : l.number? = some a) (right : r.number? = some b)
    (integral : ty.isInteger = true) :
    (∀ n, ∃! k, Residue ty n k) ∧
    (∀ k, l.convert ty = some k ↔ Residue ty a k) ∧
    (∀ op : Operation, op.isModular = true →
      ∃ n, op.onIntegers a b = some n ∧ ∀ k, op.eval l r ty = some k ↔ Residue ty n k) ∧
    (∀ op : Arith, op = .div ∨ op = .rem →
      ((Operation.int op).eval l r ty = none ↔ b = 0 ∨ (a = -2 ^ 63 ∧ b = -1)) ∧
      ∀ k, (Operation.int op).eval l r ty = some k →
        ∃ n, op.onIntegers a b = some n ∧ Residue ty n k) ∧
    (∀ op : Arith, (Operation.float op).eval l r ty = none) ∧
    (∀ op : Operation, op.isModular = true →
      ((l.convert ty).bind fun l' => (r.convert ty).bind fun r' => op.eval l' r' ty) =
        op.eval l r ty) ∧
    (∀ (op : Operation) (other : Ty), op.isModular = true → other.isInteger = true →
      ty.bitWidth ≤ other.bitWidth ∨ (op.eval l r other).bind number? = op.onIntegers a b →
      (op.eval l r other).bind (·.convert ty) = op.eval l r ty) ∧
    (∀ other : Ty, other.isInteger = true → l.type.bitWidth ≤ other.bitWidth →
      (l.convert other).bind (·.convert l.type) = some l) := by
  refine ⟨?_, ?_, ?_, ?_, ?_, ?_, ?_, ?_⟩
  · intro n
    obtain ⟨k, residue⟩ := exists_residue integral n
    exact ⟨k, residue, fun k' residue' => residue'.unique residue⟩
  · intro k
    exact convert_eq_some_iff left integral
  · intro op modular
    exact eval_eq_some_iff modular left right integral
  · intro op partly
    refine ⟨eval_eq_none_of_division partly left right integral, ?_⟩
    intro k result
    exact residue_of_eval left right integral result
  · intro op
    exact eval_float op left right integral
  · intro op modular
    exact eval_convert modular left right integral
  · intro op other modular integral' kept
    exact convert_eval modular left right integral integral' kept
  · intro other integral' wider
    exact convert_convert left integral' wider

/-- The quotient of the least short and minus one wraps around, and so does their product, whether it
is narrowed before or after; the quotient of the least long has no result even at a narrower type. -/
theorem least_short_quotient_wraps :
    (∃ k, (Operation.int .div).eval (.short (-32768)) (.long (-1)) .short = some k ∧
      Residue .short 32768 k) ∧
    ((Operation.int .mul).eval (.short (-32768)) (.long (-1)) .long).bind (·.convert .short) =
      (Operation.int .mul).eval (.short (-32768)) (.long (-1)) .short ∧
    ((Literal.short (-32768)).convert .long).bind (·.convert .short) = some (.short (-32768)) ∧
    (Operation.int .div).eval (.long Int64.minValue) (.long (-1)) .short = none := by
  have leastShort : number? (.short (-32768)) = some (-32768) := rfl
  have leastLong : number? (.long Int64.minValue) = some (-2 ^ 63) := rfl
  have minusOne : number? (.long (-1)) = some (-1) := rfl
  have integral : Ty.isInteger .short = true := rfl
  have narrower : Ty.bitWidth .short ≤ Ty.bitWidth .long := Option.some_le_some.mpr (by decide)
  obtain ⟨-, -, -, quotients, -, -, narrows, returns⟩ :=
    integers_in_twos_complement leastShort minusOne integral
  obtain ⟨-, -, -, overflows, -⟩ := integers_in_twos_complement leastLong minusOne integral
  obtain ⟨fails, residues⟩ := quotients .div (.inl rfl)
  refine ⟨?_, narrows (.int .mul) .long rfl rfl (.inl narrower), returns .long rfl narrower,
    (overflows .div (.inl rfl)).1.mpr (.inr ⟨rfl, rfl⟩)⟩
  have defined : (Operation.int .div).eval (.short (-32768)) (.long (-1)) .short ≠ none := by
    rw [ne_eq, fails]
    decide
  obtain ⟨k, result⟩ := Option.ne_none_iff_exists'.mp defined
  obtain ⟨n, quotient, residue⟩ := residues k result
  cases quotient
  exact ⟨k, result, residue⟩

end Literal

end ImpLower
