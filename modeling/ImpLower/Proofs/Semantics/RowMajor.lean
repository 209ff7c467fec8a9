import Mathlib.Tactic.Linarith
import Mathlib.Tactic.Ring
import ImpLower.Proofs.Semantics.Values

/-!
# Row-major positions

The position of an element of an array, as an integer. Where the sizes are positive, positions of
different elements differ, and they all lie below the element count. The words of a length and of an
offset are what wrapping leaves of these numbers, whatever happened on the way to them; where all elements
can be counted by a word, no step on the way wraps around.
-/

namespace ImpLower.Semantics

def volume (sizes : List Int64) : Int :=
  (sizes.map Int64.toInt).prod

def rowMajor : List Int64 → List Int64 → Int
  | _ :: sizes, i :: indices => i.toInt * volume sizes + rowMajor sizes indices
  | _, _ => 0

/-- Indices of all dimensions; the ones left out at the end are zero. -/
def padded (sizes indices : List Int64) : List Int64 :=
  indices ++ List.replicate (sizes.length - indices.length) 0

/-- Positive sizes of an array whose elements a word can count. -/
structure WordSized (sizes : List Int64) : Prop where
  positive : ∀ d ∈ sizes, 1 ≤ d.toInt
  bounded : volume sizes ≤ 2 ^ 63 - 1

/-- Indices for the first dimensions, each within its size. -/
inductive Within : List Int64 → List Int64 → Prop
  | nil {sizes : List Int64} : Within sizes []
  | cons {d i : Int64} {sizes indices : List Int64} (lower : 0 ≤ i.toInt) (upper : i.toInt < d.toInt)
      (rest : Within sizes indices) : Within (d :: sizes) (i :: indices)

@[simp] theorem volume_nil : volume [] = 1 := rfl

@[simp] theorem volume_cons (d : Int64) (sizes : List Int64) :
    volume (d :: sizes) = d.toInt * volume sizes := by
  simp [volume]

@[simp] theorem rowMajor_nil (sizes : List Int64) : rowMajor sizes [] = 0 := by
  cases sizes <;> rfl

theorem one_le_volume {sizes : List Int64} (positive : ∀ d ∈ sizes, 1 ≤ d.toInt) :
    1 ≤ volume sizes := by
  induction sizes with
  | nil => simp
  | cons d sizes ih =>
      obtain ⟨first, others⟩ := List.forall_mem_cons.mp positive
      have rest := ih others
      rw [volume_cons]
      nlinarith

/-! ## Range -/

theorem Within.length_le {sizes indices : List Int64} (h : Within sizes indices) :
    indices.length ≤ sizes.length := by
  induction h with
  | nil => exact Nat.zero_le _
  | cons _ _ _ ih => exact Nat.succ_le_succ ih

theorem rowMajor_nonneg {sizes indices : List Int64} (positive : ∀ d ∈ sizes, 1 ≤ d.toInt)
    (within : Within sizes indices) : 0 ≤ rowMajor sizes indices := by
  induction within with
  | nil => simp
  | @cons d i sizes indices lower upper rest ih =>
      obtain ⟨-, others⟩ := List.forall_mem_cons.mp positive
      have count := one_le_volume others
      have tail := ih others
      rw [rowMajor]
      nlinarith

theorem rowMajor_lt {sizes indices : List Int64} (positive : ∀ d ∈ sizes, 1 ≤ d.toInt)
    (within : Within sizes indices) : rowMajor sizes indices < volume sizes := by
  induction within with
  | nil =>
      have count := one_le_volume positive
      rw [rowMajor_nil]
      omega
  | @cons d i sizes indices lower upper rest ih =>
      obtain ⟨-, others⟩ := List.forall_mem_cons.mp positive
      have count := one_le_volume others
      have tail := ih others
      rw [rowMajor, volume_cons]
      calc i.toInt * volume sizes + rowMajor sizes indices
          < i.toInt * volume sizes + volume sizes := by omega
        _ = (i.toInt + 1) * volume sizes := by ring
        _ ≤ d.toInt * volume sizes := by
            apply Int.mul_le_mul_of_nonneg_right
            · omega
            · omega

/-- The last element of an array stands right before its end. -/
theorem exists_last {sizes : List Int64} (positive : ∀ d ∈ sizes, 1 ≤ d.toInt) :
    ∃ indices, Within sizes indices ∧ indices.length = sizes.length ∧
      rowMajor sizes indices = volume sizes - 1 := by
  induction sizes with
  | nil => exact ⟨[], .nil, rfl, rfl⟩
  | cons d sizes ih =>
      obtain ⟨first, others⟩ := List.forall_mem_cons.mp positive
      obtain ⟨indices, within, whole, last⟩ := ih others
      have index : (d - 1).toInt = d.toInt - 1 := by
        have upper := d.toInt_lt
        have one : (1 : Int64).toInt = 1 := rfl
        rw [Int64.toInt_sub, one]
        apply Int.bmod_eq_of_le
        · omega
        · omega
      refine ⟨(d - 1) :: indices, .cons (by omega) (by omega) within, by simp [whole], ?_⟩
      rw [rowMajor, volume_cons, last, index]
      ring

/-- An element at the upper half of the unsigned words exists exactly where there are more than half as
many elements as unsigned words. -/
theorem exists_upper_iff {sizes : List Int64} (positive : ∀ d ∈ sizes, 1 ≤ d.toInt) :
    (∃ indices, Within sizes indices ∧ indices.length = sizes.length ∧
      2 ^ 63 ≤ rowMajor sizes indices) ↔ 2 ^ 63 < volume sizes := by
  constructor
  · rintro ⟨indices, within, -, upper⟩
    have := rowMajor_lt positive within
    omega
  · intro many
    obtain ⟨indices, within, whole, last⟩ := exists_last positive
    exact ⟨indices, within, whole, by omega⟩

/-! ## Different elements -/

theorem within_replicate {sizes : List Int64} (positive : ∀ d ∈ sizes, 1 ≤ d.toInt) :
    Within sizes (List.replicate sizes.length 0) := by
  induction sizes with
  | nil => exact .nil
  | cons d sizes ih =>
      obtain ⟨first, others⟩ := List.forall_mem_cons.mp positive
      have zero : (0 : Int64).toInt = 0 := rfl
      refine .cons (by omega) (by omega) (ih others)

theorem rowMajor_replicate (sizes : List Int64) (n : Nat) :
    rowMajor sizes (List.replicate n 0) = 0 := by
  induction sizes generalizing n with
  | nil => rfl
  | cons d sizes ih =>
      cases n with
      | zero => rfl
      | succ n =>
          rw [List.replicate_succ, rowMajor, ih]
          simp

theorem padded_cons (d i : Int64) (sizes indices : List Int64) :
    padded (d :: sizes) (i :: indices) = i :: padded sizes indices := by
  simp [padded]

theorem padded_nil (sizes : List Int64) : padded sizes [] = List.replicate sizes.length 0 := by
  simp [padded]

theorem length_padded {sizes indices : List Int64} (h : indices.length ≤ sizes.length) :
    (padded sizes indices).length = sizes.length := by
  simp [padded]
  omega

theorem Within.padded {sizes indices : List Int64} (positive : ∀ d ∈ sizes, 1 ≤ d.toInt)
    (h : Within sizes indices) : Within sizes (padded sizes indices) := by
  induction h with
  | nil =>
      rw [padded_nil]
      exact within_replicate positive
  | cons lower upper rest ih =>
      obtain ⟨-, others⟩ := List.forall_mem_cons.mp positive
      rw [padded_cons]
      exact .cons lower upper (ih others)

theorem rowMajor_padded {sizes indices : List Int64} (h : Within sizes indices) :
    rowMajor sizes (padded sizes indices) = rowMajor sizes indices := by
  induction h with
  | @nil sizes =>
      rw [padded_nil, rowMajor_replicate, rowMajor_nil]
  | cons _ _ _ ih => rw [padded_cons, rowMajor, rowMajor, ih]

/-- A quotient and a remainder are determined by the number they make up. -/
theorem digits_unique {i j a b n : Int} (lowerLeft : 0 ≤ a) (upperLeft : a < n) (lowerRight : 0 ≤ b)
    (upperRight : b < n) (same : i * n + a = j * n + b) : i = j ∧ a = b := by
  have quotient : i = j := by
    rcases Int.lt_trichotomy i j with less | eq | more
    · nlinarith
    · exact eq
    · nlinarith
  subst quotient
  exact ⟨rfl, by omega⟩

theorem rowMajor_injective {sizes t u : List Int64} (positive : ∀ d ∈ sizes, 1 ≤ d.toInt)
    (left : Within sizes t) (right : Within sizes u) (wholeLeft : t.length = sizes.length)
    (wholeRight : u.length = sizes.length) (same : rowMajor sizes t = rowMajor sizes u) : t = u := by
  induction left generalizing u with
  | nil =>
      have empty : u.length = 0 := by
        rw [wholeRight, ← wholeLeft, List.length_nil]
      exact (List.eq_nil_of_length_eq_zero empty).symm
  | @cons d i sizes t lower upper rest ih =>
      cases right with
      | nil => simp at wholeRight
      | @cons _ j _ u lower' upper' rest' =>
          obtain ⟨-, others⟩ := List.forall_mem_cons.mp positive
          obtain ⟨first, tail⟩ := digits_unique (rowMajor_nonneg others rest) (rowMajor_lt others rest)
            (rowMajor_nonneg others rest') (rowMajor_lt others rest') same
          rw [Int64.toInt_inj.mp first, ih others rest' (by simpa using wholeLeft)
            (by simpa using wholeRight) tail]

/-- Indices of different elements have different positions. -/
theorem padded_eq_of_rowMajor {sizes t u : List Int64} (positive : ∀ d ∈ sizes, 1 ≤ d.toInt)
    (left : Within sizes t) (right : Within sizes u)
    (same : rowMajor sizes t = rowMajor sizes u) : padded sizes t = padded sizes u := by
  rw [← rowMajor_padded left, ← rowMajor_padded right] at same
  exact rowMajor_injective positive (left.padded positive) (right.padded positive)
    (length_padded left.length_le) (length_padded right.length_le) same

/-! ## Words -/

/-- What a signed word keeps of an integer. -/
def wrapped (n : Int) : Int :=
  n.bmod (2 ^ 64)

theorem wrapped_bounds (n : Int) : -2 ^ 63 ≤ wrapped n ∧ wrapped n ≤ 2 ^ 63 - 1 := by
  have lower := Int.le_bmod (x := n) (m := 2 ^ 64) (by decide)
  have upper := Int.bmod_lt (x := n) (m := 2 ^ 64) (by decide)
  unfold wrapped
  omega

theorem wrapped_eq_self_iff {n : Int} : wrapped n = n ↔ -2 ^ 63 ≤ n ∧ n ≤ 2 ^ 63 - 1 := by
  constructor
  · intro same
    have bounds := wrapped_bounds n
    rwa [same] at bounds
  · intro fits
    apply Int.bmod_eq_of_le
    · omega
    · omega

/-- Of a number that an unsigned word holds, a signed one keeps the lower half as it is. -/
theorem wrapped_of_unsigned {n : Int} (lower : 0 ≤ n) (upper : n < 2 ^ 64) :
    wrapped n = if n < 2 ^ 63 then n else n - 2 ^ 64 := by
  unfold wrapped
  rw [Int.bmod_def, Int.emod_eq_of_lt lower (by omega)]
  split
  · rw [if_pos (by omega)]
  · rw [if_neg (by omega)]
    rfl

/-- The word of an element count is the product of the sizes, wrapped once. -/
theorem toInt_elements (sizes : List Int64) : (elements sizes).toInt = wrapped (volume sizes) := by
  unfold wrapped
  induction sizes with
  | nil => rfl
  | cons d sizes ih =>
      rw [elements, Int64.toInt_mul, ih, volume_cons]
      exact Int.mul_bmod_bmod

/-- The word of an offset is the row-major position, wrapped once. -/
theorem toInt_flatten (sizes indices : List Int64) :
    (flatten sizes indices).toInt = wrapped (rowMajor sizes indices) := by
  induction sizes generalizing indices with
  | nil => rfl
  | cons d sizes ih =>
      cases indices with
      | nil => rfl
      | cons i indices =>
          rw [flatten, Int64.toInt_add, Int64.toInt_mul, toInt_elements, ih, rowMajor]
          unfold wrapped
          rw [Int.mul_bmod_bmod, Int.bmod_add_bmod, Int.add_bmod_bmod]

theorem toInt_mul_of_range {a b : Int64} (lower : 0 ≤ a.toInt * b.toInt)
    (upper : a.toInt * b.toInt ≤ 2 ^ 63 - 1) : (a * b).toInt = a.toInt * b.toInt := by
  rw [Int64.toInt_mul, Int.bmod_eq_of_le]
  · omega
  · omega

theorem toInt_add_of_range {a b : Int64} (lower : 0 ≤ a.toInt + b.toInt)
    (upper : a.toInt + b.toInt ≤ 2 ^ 63 - 1) : (a + b).toInt = a.toInt + b.toInt := by
  rw [Int64.toInt_add, Int.bmod_eq_of_le]
  · omega
  · omega

/-- Past some dimensions at `base`, every element in the dimensions that are left can be counted. -/
structure Roomy (base : Int64) (sizes : List Int64) : Prop where
  positive : ∀ d ∈ sizes, 1 ≤ d.toInt
  lower : 0 ≤ base.toInt
  upper : (base.toInt + 1) * volume sizes ≤ 2 ^ 63 - 1

theorem WordSized.roomy {sizes : List Int64} (h : WordSized sizes) : Roomy 0 sizes where
  positive := h.positive
  lower := Int.le_refl 0
  upper := by
    have zero : (0 : Int64).toInt = 0 := rfl
    rw [zero, Int.zero_add, Int.one_mul]
    exact h.bounded

section

variable {base d i : Int64} {sizes : List Int64}

theorem Roomy.scaled (h : Roomy base (d :: sizes)) : 0 ≤ base.toInt * d.toInt ∧
    base.toInt * d.toInt + d.toInt ≤ 2 ^ 63 - 1 := by
  obtain ⟨first, others⟩ := List.forall_mem_cons.mp h.positive
  have count := one_le_volume others
  have lower := h.lower
  have upper := h.upper
  rw [volume_cons] at upper
  constructor
  · nlinarith
  · calc base.toInt * d.toInt + d.toInt
        = (base.toInt + 1) * d.toInt * 1 := by ring
      _ ≤ (base.toInt + 1) * d.toInt * volume sizes := by
          apply Int.mul_le_mul_of_nonneg_left count
          nlinarith
      _ = (base.toInt + 1) * (d.toInt * volume sizes) := by ring
      _ ≤ 2 ^ 63 - 1 := upper

theorem Roomy.toInt_mul (h : Roomy base (d :: sizes)) :
    (base * d).toInt = base.toInt * d.toInt := by
  obtain ⟨lower, upper⟩ := h.scaled
  have first := (List.forall_mem_cons.mp h.positive).1
  exact toInt_mul_of_range lower (by omega)

theorem Roomy.toInt_mul_add (h : Roomy base (d :: sizes)) (lower : 0 ≤ i.toInt)
    (upper : i.toInt < d.toInt) : (base * d + i).toInt = (base * d).toInt + i.toInt := by
  obtain ⟨low, high⟩ := h.scaled
  have scaled := h.toInt_mul
  exact toInt_add_of_range (by omega) (by omega)

/-- An index past the next dimension leaves room for the others. -/
theorem Roomy.step (h : Roomy base (d :: sizes)) (lower : 0 ≤ i.toInt) (upper : i.toInt < d.toInt) :
    Roomy (base * d + i) sizes := by
  obtain ⟨-, others⟩ := List.forall_mem_cons.mp h.positive
  obtain ⟨low, high⟩ := h.scaled
  have value : (base * d + i).toInt = base.toInt * d.toInt + i.toInt := by
    rw [h.toInt_mul_add lower upper, h.toInt_mul]
  refine ⟨others, by omega, ?_⟩
  have total := h.upper
  have count := one_le_volume others
  rw [volume_cons] at total
  calc ((base * d + i).toInt + 1) * volume sizes
      ≤ (base.toInt + 1) * d.toInt * volume sizes := by
        apply Int.mul_le_mul_of_nonneg_right
        · have : (base.toInt + 1) * d.toInt = base.toInt * d.toInt + d.toInt := by ring
          omega
        · omega
    _ = (base.toInt + 1) * (d.toInt * volume sizes) := by ring
    _ ≤ 2 ^ 63 - 1 := total

theorem Roomy.scale (h : Roomy base (d :: sizes)) : Roomy (base * d) sizes := by
  have first := (List.forall_mem_cons.mp h.positive).1
  have zero : (0 : Int64).toInt = 0 := rfl
  have stepped := h.step (i := 0) (by omega) (by omega)
  rwa [Int64.add_zero] at stepped

end

/-- With a word to count the elements, the word of the count is the count. -/
theorem WordSized.toInt_elements {sizes : List Int64} (h : WordSized sizes) :
    (elements sizes).toInt = volume sizes := by
  have positive := one_le_volume h.positive
  rw [Semantics.toInt_elements]
  exact wrapped_eq_self_iff.mpr ⟨by omega, h.bounded⟩

/-- The word of a position is then the position. -/
theorem WordSized.toInt_flatten {sizes indices : List Int64} (h : WordSized sizes)
    (within : Within sizes indices) : (flatten sizes indices).toInt = rowMajor sizes indices := by
  have lower := rowMajor_nonneg h.positive within
  have upper := rowMajor_lt h.positive within
  have bounded := h.bounded
  rw [Semantics.toInt_flatten]
  exact wrapped_eq_self_iff.mpr ⟨by omega, by omega⟩

end ImpLower.Semantics
