import Mathlib.Data.Int.ModEq
import ImpLower.Literal.Fold

/-!
# Integer constants as residues

An integer constant stands for a number. Modulo two to the width of an integer type, every number is
congruent to exactly one constant of that type. Widening to a word keeps the number and narrowing a
word takes the residue, so conversion between integer types takes the residue too.
-/

namespace ImpLower

theorem Ty.bitWidth_of_isInteger {ty : Ty} (integral : ty.isInteger = true) :
    ∃ w, ty.bitWidth = some w ∧ w ≤ 64 := by
  cases ty <;> cases integral <;> exact ⟨_, rfl, by decide⟩

theorem Ty.isFloat_of_isInteger {ty : Ty} (integral : ty.isInteger = true) : ty.isFloat = false := by
  cases ty <;> cases integral <;> rfl

/-- Different integer types convert by extending or truncating. -/
theorem Conversion.into_of_integers {target source : Ty} (integral : target.isInteger = true)
    (integral' : source.isInteger = true) (different : target ≠ source) :
    Conversion.into target source = .ok .intSignExtend ∨
      Conversion.into target source = .ok .intTruncate := by
  unfold Conversion.into
  simp only [if_neg different, Ty.isFloat_of_isInteger integral, integral, integral', Bool.false_and,
    Bool.and_self, Bool.false_eq_true, if_false, if_true]
  split
  · exact .inl rfl
  · exact .inr rfl

/-! ## Balanced residues -/

theorem bmod_modEq (n : Int) (w : Nat) : n.bmod (2 ^ w) ≡ n [ZMOD 2 ^ w] := by
  have cast : ((2 ^ w : Nat) : Int) = 2 ^ w := by norm_cast
  rw [Int.ModEq, ← cast, Int.bmod_emod]

theorem modEq_iff_bmod_eq {n m : Int} {w : Nat} :
    n ≡ m [ZMOD 2 ^ w] ↔ n.bmod (2 ^ w) = m.bmod (2 ^ w) := by
  have cast : ((2 ^ w : Nat) : Int) = 2 ^ w := by norm_cast
  constructor
  · intro congruent
    rw [← Int.emod_bmod n, ← Int.emod_bmod m, cast, congruent]
  · intro same
    exact (bmod_modEq n w).symm.trans (same ▸ bmod_modEq m w)

namespace Literal

/-- The number that an integer constant stands for. -/
def number? : Literal → Option Int
  | short value => some value.toInt
  | int value => some value.toInt
  | long value => some value.toInt
  | _ => none

/-- The constant is of type `ty`, and congruent to `n` modulo two to the width of that type. -/
def Residue (ty : Ty) (n : Int) (k : Literal) : Prop :=
  k.type = ty ∧ ∃ w m, ty.bitWidth = some w ∧ k.number? = some m ∧ m ≡ n [ZMOD 2 ^ w]

variable {l k k' : Literal} {ty : Ty} {a m n n' : Int} {w : Nat}

theorem isInteger_of_number? (h : l.number? = some a) : l.type.isInteger = true := by
  cases l <;> cases h <;> rfl

/-- The numbers of a type are the balanced residues of its width. -/
theorem number?_bmod (h : k.number? = some m) (width : k.type.bitWidth = some w) :
    m.bmod (2 ^ w) = m := by
  cases k <;> cases h <;> cases width
  · exact Int16.toInt_bmod _
  · exact Int32.toInt_bmod _
  · exact Int64.toInt_bmod _

/-- A constant is known by its type and its number. -/
theorem eq_of_number? (type : k.type = k'.type) (h : k.number? = some m)
    (h' : k'.number? = some m) : k = k' := by
  cases k <;> cases h <;> cases k' <;> cases type
  · rw [number?, Option.some.injEq, Int16.toInt_inj] at h'
    rw [h']
  · rw [number?, Option.some.injEq, Int32.toInt_inj] at h'
    rw [h']
  · rw [number?, Option.some.injEq, Int64.toInt_inj] at h'
    rw [h']

/-! ## Residues -/

theorem Residue.unique (h : Residue ty n k) (h' : Residue ty n k') : k = k' := by
  obtain ⟨rfl, w, m, width, number, congruent⟩ := h
  obtain ⟨type, w', m', width', number', congruent'⟩ := h'
  obtain rfl : w = w' := Option.some.inj (width.symm.trans width')
  have same : m = m' := by
    rw [← number?_bmod number width, ← number?_bmod number' (type ▸ width)]
    exact modEq_iff_bmod_eq.mp (congruent.trans congruent'.symm)
  exact eq_of_number? type.symm number (same ▸ number')

/-- What is congruent at the width of a type has the same residues there. -/
theorem Residue.congr (h : Residue ty n k) (width : ty.bitWidth = some w)
    (congruent : n ≡ n' [ZMOD 2 ^ w]) : Residue ty n' k := by
  obtain ⟨type, w', m, width', number, near⟩ := h
  obtain rfl : w = w' := Option.some.inj (width.symm.trans width')
  exact ⟨type, w, m, width, number, near.trans congruent⟩

theorem residue_self (h : l.number? = some a) : Residue l.type a l := by
  obtain ⟨w, width, -⟩ := Ty.bitWidth_of_isInteger (isInteger_of_number? h)
  exact ⟨rfl, w, a, width, h, rfl⟩

/-! ## Words -/

theorem ofInt64_residue (integral : ty.isInteger = true) (v : Int64) :
    ∃ k, ofInt64 v ty = some k ∧ Residue ty v.toInt k := by
  cases ty <;> cases integral
  · exact ⟨_, rfl, rfl, 16, _, rfl, rfl, Int64.toInt_toInt16 v ▸ bmod_modEq _ 16⟩
  · exact ⟨_, rfl, rfl, 32, _, rfl, rfl, Int64.toInt_toInt32 v ▸ bmod_modEq _ 32⟩
  · exact ⟨_, rfl, rfl, 64, _, rfl, rfl, rfl⟩

theorem ofInt64_eq_some_iff (integral : ty.isInteger = true) {v : Int64} :
    ofInt64 v ty = some k ↔ Residue ty v.toInt k := by
  obtain ⟨k', narrowed, residue⟩ := ofInt64_residue integral v
  rw [narrowed, Option.some.injEq]
  constructor
  · rintro rfl
    exact residue
  · intro h
    exact residue.unique h

/-- Widening to a word keeps the number. -/
theorem toInt64?_of_number? (h : l.number? = some a) : ∃ u, l.toInt64? = some u ∧ u.toInt = a := by
  cases l <;> cases h
  · exact ⟨_, rfl, Int16.toInt_toInt64 _⟩
  · exact ⟨_, rfl, Int32.toInt_toInt64 _⟩
  · exact ⟨_, rfl, rfl⟩

theorem exists_residue (integral : ty.isInteger = true) (n : Int) : ∃ k, Residue ty n k := by
  obtain ⟨k, -, residue⟩ := ofInt64_residue integral (Int64.ofInt n)
  obtain ⟨w, width, le⟩ := Ty.bitWidth_of_isInteger integral
  refine ⟨k, residue.congr width ?_⟩
  have word : (Int64.ofInt n).toInt ≡ n [ZMOD 2 ^ 64] := by
    rw [Int64.toInt_ofInt]
    exact bmod_modEq n 64
  exact word.of_dvd (pow_dvd_pow 2 le)

/-! ## Conversion -/

/-- Between different integer types a constant moves through a word. -/
theorem convert_of_integers (integral : l.type.isInteger = true) (integral' : ty.isInteger = true)
    (different : ty ≠ l.type) : l.convert ty = l.toInt64?.bind (ofInt64 · ty) := by
  rw [convert]
  rcases Conversion.into_of_integers integral' integral different with h | h
  · rw [h]
  · rw [h]

/-- Conversion between integer types takes the residue. -/
theorem convert_eq_some_iff (h : l.number? = some a) (integral : ty.isInteger = true) :
    l.convert ty = some k ↔ Residue ty a k := by
  by_cases same : ty = l.type
  · subst same
    rw [convert_type_self, Option.some.injEq]
    constructor
    · rintro rfl
      exact residue_self h
    · intro other
      exact (residue_self h).unique other
  · obtain ⟨u, word, rfl⟩ := toInt64?_of_number? h
    rw [convert_of_integers (isInteger_of_number? h) integral same, word, Option.bind_some,
      ofInt64_eq_some_iff integral]

end Literal

end ImpLower
