import Mathlib.Data.List.Nodup
import Mathlib.Data.Nat.Digits.Defs
import ImpLower.Proofs.Lower.Focus

/-!
# Labels of blocks

A new block takes the label it asks for, numbered by the blocks that asked for it before. The labels
that lowering asks for have no point in them, so the number can be told from the rest and no two
blocks get the same label. Numbers are read back as words only, hence this holds of the blocks whose
position is one.
-/

namespace ImpLower.Code

/-- The labels that lowering asks for. -/
def blockLabels : List String :=
  ["entry", "then", "else", "end", "cond", "body", "step", "case", "next"]

/-- A label with its number; the first one goes without. -/
def numbered (base : String) : Nat → String
  | 0 => base
  | n + 1 => s!"{base}.{n + 1}"

/-- What stands before the point of a label. -/
def stem (label : String) : List Char :=
  label.toList.takeWhile (· ≠ '.')

theorem takeWhile_append_of_plain {xs : List Char} (plain : '.' ∉ xs) (rest : List Char) :
    (xs ++ rest).takeWhile (· ≠ '.') = xs ++ rest.takeWhile (· ≠ '.') := by
  apply List.takeWhile_append_of_pos
  intro c hc
  simpa using fun h : c = '.' => plain (h ▸ hc)

theorem toList_numbered_succ (base : String) (n : Nat) :
    (numbered base (n + 1)).toList = base.toList ++ '.' :: Nat.toDigits 10 (n + 1) := by
  simp [numbered, toString, Nat.repr_eq_ofList_toDigits]

theorem stem_numbered {base : String} (plain : '.' ∉ base.toList) (n : Nat) :
    stem (numbered base n) = base.toList := by
  cases n with
  | zero =>
      have := takeWhile_append_of_plain plain []
      simpa [stem, numbered] using this
  | succ n =>
      rw [stem, toList_numbered_succ, takeWhile_append_of_plain plain]
      simp

theorem plain_toDigits (n : Nat) : '.' ∉ Nat.toDigits 10 n := by
  intro point
  have digit := Nat.isDigit_of_mem_toDigits (by decide) (by decide) point
  simp at digit

/-- Read from its end, a numbered label has its digits before its last point. -/
theorem takeWhile_reverse_numbered (base : String) (n : Nat) :
    (numbered base (n + 1)).toList.reverse.takeWhile (· ≠ '.') =
      (Nat.toDigits 10 (n + 1)).reverse := by
  have plain : '.' ∉ (Nat.toDigits 10 (n + 1)).reverse := by
    rw [List.mem_reverse]
    exact plain_toDigits (n + 1)
  rw [toList_numbered_succ, List.reverse_append, List.reverse_cons, List.append_assoc,
    takeWhile_append_of_plain plain]
  simp

theorem numbered_succ_inj {a b : String} {m n : Nat} (h : numbered a (m + 1) = numbered b (n + 1)) :
    a = b ∧ m = n := by
  have digits : Nat.toDigits 10 (m + 1) = Nat.toDigits 10 (n + 1) := by
    apply List.reverse_injective
    rw [← takeWhile_reverse_numbered a m, h, takeWhile_reverse_numbered]
  have numbers := congrArg (Nat.ofDigitChars 10 · 0) digits
  have lists := congrArg String.toList h
  rw [toList_numbered_succ, toList_numbered_succ, digits] at lists
  exact ⟨String.toList_inj.mp (List.append_cancel_right lists), by
    simpa [Nat.ofDigitChars_toDigits] using numbers⟩

theorem numbered_inj {a b : String} (ha : '.' ∉ a.toList) (hb : '.' ∉ b.toList) {m n : Nat}
    (h : numbered a m = numbered b n) : a = b ∧ m = n := by
  have stems : a.toList = b.toList := by
    rw [← stem_numbered ha m, h, stem_numbered hb n]
  have same : a = b := String.toList_inj.mp stems
  subst same
  have lists := congrArg String.toList h
  refine ⟨rfl, ?_⟩
  cases m with
  | zero =>
      cases n with
      | zero => rfl
      | succ n =>
          rw [toList_numbered_succ] at lists
          simp [numbered] at lists
  | succ m =>
      cases n with
      | zero =>
          rw [toList_numbered_succ] at lists
          simp [numbered] at lists
      | succ n => rw [(numbered_succ_inj h).2]

/-- The digits of a word read as a word. -/
theorem isWord_toDigits {n : Nat} (bound : n < 2 ^ 64) : isWord (Nat.toDigits 10 n) = true := by
  have digits : ∀ c ∈ Nat.toDigits 10 n, c.isDigit = true := fun c hc =>
    Nat.isDigit_of_mem_toDigits (by decide) (by decide) hc
  have value : Nat.ofDigitChars 10 (Nat.toDigits 10 n) 0 = n :=
    Nat.ofDigitChars_toDigits (by decide) (by decide)
  unfold isWord
  split
  · next rest h =>
      have := digits '+' (by rw [h]; exact List.mem_cons_self)
      simp at this
  · next other _ =>
      have read : (Nat.toDigits 10 n).foldl (fun n c => 10 * n + (c.toNat - '0'.toNat)) 0 = n :=
        value
      have word : n < UInt64.size := bound
      simp only [read, word, decide_true, Bool.and_true, Bool.and_eq_true, List.all_eq_true]
      exact ⟨by simp, digits⟩

/-- A numbered label counts as a use of its base. -/
theorem usesLabel_numbered_self (base : String) {n : Nat} (bound : n < 2 ^ 64) :
    usesLabel base (numbered base n) = true := by
  cases n with
  | zero => simp [usesLabel, numbered]
  | succ n =>
      have word := isWord_toDigits bound
      have cut : (numbered base (n + 1)).toList.drop base.length =
          '.' :: Nat.toDigits 10 (n + 1) := by
        rw [toList_numbered_succ, String.length, List.drop_left]
      simp only [usesLabel, cut]
      simp [toList_numbered_succ, word]

/-- A numbered label counts as a use of its own base only. -/
theorem usesLabel_numbered {base other : String} (plain : '.' ∉ base.toList)
    (plainOther : '.' ∉ other.toList) {n : Nat} (bound : n < 2 ^ 64) :
    usesLabel base (numbered other n) = decide (base = other) := by
  by_cases same : base = other
  · subst same
    simp [usesLabel_numbered_self base bound]
  · have differ : ¬ numbered other n = base := by
      intro h
      have stems : base.toList = other.toList := by
        rw [← stem_numbered plain 0, ← stem_numbered plainOther n, h]
        rfl
      exact same (String.toList_inj.mp stems)
    simp only [usesLabel, differ, same, decide_false, Bool.false_or]
    split
    · next rest h =>
        -- a label that continues `base` with a point has the stem `base`
        by_contra uses
        rw [Bool.not_eq_false, Bool.and_eq_true, List.isPrefixOf_iff_prefix] at uses
        obtain ⟨tail, ht⟩ := uses.1
        have rest_eq : tail = '.' :: rest := by
          rw [← h, ← ht, String.length, List.drop_left]
        have stems : stem (numbered other n) = base.toList := by
          rw [stem, ← ht, rest_eq, takeWhile_append_of_plain plain]
          simp
        rw [stem_numbered plainOther] at stems
        exact same (String.toList_inj.mp stems.symm)
    · rfl

theorem plain_of_mem_blockLabels {base : String} (known : base ∈ blockLabels) :
    '.' ∉ base.toList := by
  revert base
  decide

/-! ## The labels of a function -/

def Function.labels (F : Function) : List String :=
  F.blocks.toList.map Block.label

@[simp] theorem Function.labels_emit (F : Function) (b : Nat) (is : List Instruction)
    (k : Counters) : (F.emit b is k).labels = F.labels := by
  apply List.ext_getElem?
  intro i
  simp only [labels, emit, List.getElem?_map, Array.getElem?_toList, Array.getElem?_modify]
  split
  · cases F.blocks[i]? <;> rfl
  · rfl

@[simp] theorem Function.labels_close (F : Function) (b : Nat) (t : Terminator) :
    (F.close b t).labels = F.labels := by
  apply List.ext_getElem?
  intro i
  simp only [labels, close, List.getElem?_map, Array.getElem?_toList, Array.getElem?_modify]
  split
  · cases F.blocks[i]? <;> rfl
  · rfl

@[simp] theorem Function.labels_grow (F : Function) (label : String) :
    (F.grow label).labels = F.labels ++ [F.freshLabel label] := by
  simp [labels, grow]

theorem freshLabel_eq_numbered (F : Function) (wanted : String) :
    F.freshLabel wanted = numbered wanted (F.labels.countP (usesLabel wanted)) := by
  have count : F.blocks.countP (fun b => usesLabel wanted b.label) =
      F.labels.countP (usesLabel wanted) := by
    rw [Function.labels, List.countP_map, ← Array.countP_toList]
    rfl
  rw [Function.freshLabel, count]
  cases F.labels.countP (usesLabel wanted) <;> rfl

/-- The labels come from bases that lowering asks for: each one carries the number of earlier blocks
with its base, up to the last block whose position is a word. -/
structure Labelled (bases labels : List String) : Prop where
  known : ∀ base ∈ bases, base ∈ blockLabels
  length : bases.length = labels.length
  label : ∀ {i base}, i < 2 ^ 64 → bases[i]? = some base →
    labels[i]? = some (numbered base ((bases.take i).count base))

namespace Labelled

variable {bases labels : List String}

theorem nil : Labelled [] [] :=
  ⟨by simp, rfl, by simp⟩

/-- As long as positions are words, the uses of a base are the blocks that asked for it. -/
theorem countP_usesLabel (h : Labelled bases labels) (small : bases.length ≤ 2 ^ 64) {base : String}
    (known : base ∈ blockLabels) : labels.countP (usesLabel base) = bases.count base := by
  have pointwise : labels.map (usesLabel base) = bases.map (· == base) := by
    apply List.ext_getElem?
    intro i
    rw [List.getElem?_map, List.getElem?_map]
    cases hi : bases[i]? with
    | none =>
        have : labels[i]? = none := by
          rw [List.getElem?_eq_none_iff] at hi ⊢
          have := h.length
          omega
        rw [this]
        rfl
    | some other =>
        have lt : i < bases.length := (List.getElem?_eq_some_iff.mp hi).1
        have mem : other ∈ bases := List.mem_of_getElem? hi
        have below : (bases.take i).count other < 2 ^ 64 := by
          have := List.count_le_length (l := bases.take i) (a := other)
          rw [List.length_take] at this
          omega
        rw [h.label (by omega) hi, Option.map_some, Option.map_some,
          usesLabel_numbered (plain_of_mem_blockLabels known)
            (plain_of_mem_blockLabels (h.known other mem)) below]
        by_cases same : base = other
        · simp [same]
        · simp [same, Ne.symm same]
  calc labels.countP (usesLabel base)
      = (labels.map (usesLabel base)).countP id := by rw [List.countP_map]; rfl
    _ = (bases.map (· == base)).countP id := by rw [pointwise]
    _ = bases.count base := by rw [List.countP_map]; rfl

theorem grow {F : Function} (h : Labelled bases F.labels) {base : String}
    (known : base ∈ blockLabels) : Labelled (bases ++ [base]) (F.grow base).labels where
  known := by
    intro other mem
    rcases List.mem_append.mp mem with old | new
    · exact h.known other old
    · exact List.mem_singleton.mp new ▸ known
  length := by simp [h.length]
  label := by
    intro i other word hi
    rw [Function.labels_grow]
    have lt := (List.getElem?_eq_some_iff.mp hi).1
    rw [List.length_append, List.length_singleton] at lt
    by_cases old : i < bases.length
    · rw [List.getElem?_append_left old] at hi
      rw [List.getElem?_append_left (h.length ▸ old), List.take_append_of_le_length (by omega)]
      exact h.label word hi
    · have last : i = bases.length := by omega
      subst last
      have same : base = other := by simpa using hi
      subst same
      have labelled : F.freshLabel base = numbered base (bases.count base) := by
        rw [freshLabel_eq_numbered, h.countP_usesLabel (by omega) known]
      rw [labelled, List.take_left, h.length]
      simp

/-- No two blocks have the same label. -/
theorem label_inj (h : Labelled bases labels) {i j : Nat} (hi : i < 2 ^ 64) (hj : j < 2 ^ 64)
    {label : String} (first : labels[i]? = some label) (second : labels[j]? = some label) :
    i = j := by
  -- the number of the later block counts the earlier one
  have lt_of_lt : ∀ {i j : Nat} {a : String}, i < j → bases[i]? = some a →
      (bases.take i).count a < (bases.take j).count a := by
    intro i j a lt ha
    have more : (bases.take (i + 1)).count a = (bases.take i).count a + 1 := by
      simp [List.take_add_one, ha]
    have le : (bases.take (i + 1)).count a ≤ (bases.take j).count a :=
      ((List.take_prefix_take_left (by omega)).sublist).count_le a
    omega
  have some_base : ∀ {k : Nat}, labels[k]? = some label → ∃ a, bases[k]? = some a := by
    intro k hk
    have lt := (List.getElem?_eq_some_iff.mp hk).1
    exact ⟨_, List.getElem?_eq_getElem (h.length ▸ lt)⟩
  obtain ⟨a, ha⟩ := some_base first
  obtain ⟨b, hb⟩ := some_base second
  have equal : numbered a ((bases.take i).count a) = numbered b ((bases.take j).count b) :=
    Option.some.inj <| (h.label hi ha).symm.trans <| first.trans <| second.symm.trans (h.label hj hb)
  obtain ⟨rfl, counts⟩ := numbered_inj
    (plain_of_mem_blockLabels (h.known a (List.mem_of_getElem? ha)))
    (plain_of_mem_blockLabels (h.known b (List.mem_of_getElem? hb))) equal
  rcases Nat.lt_trichotomy i j with lt | eq | gt
  · have := lt_of_lt lt ha
    omega
  · exact eq
  · have := lt_of_lt gt hb
    omega

theorem nodup_take (h : Labelled bases labels) : (labels.take (2 ^ 64)).Nodup := by
  rw [List.nodup_iff_getElem?_ne_getElem?]
  intro i j lt bound same
  rw [List.length_take] at bound
  have hj : j < 2 ^ 64 := by omega
  have hi : i < 2 ^ 64 := by omega
  rw [List.getElem?_take_of_lt hi, List.getElem?_take_of_lt hj] at same
  have first := List.getElem?_eq_getElem (l := labels) (i := j) (by omega)
  exact absurd (h.label_inj hi hj (same.trans first) first) (Nat.ne_of_lt lt)

end Labelled

end ImpLower.Code
