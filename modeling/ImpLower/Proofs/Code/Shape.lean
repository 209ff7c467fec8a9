import ImpLower.Proofs.Lower.Focus

/-!
# The shape of a function

The shape of a function under construction is the list of the terminators of its blocks, as far as they
are closed. It says between which blocks control can pass. What lowering does to a shape is told by how
it spreads from one block: over that block and new ones, and with branches into old blocks only where
they are named.
-/

namespace ImpLower.Code

/-- The terminators of the blocks, in order. -/
abbrev Shape := List (Option Terminator)

def Function.shape (F : Function) : Shape :=
  F.blocks.toList.map Block.terminator

namespace Shape

def IsOpen (s : Shape) (b : Nat) : Prop :=
  s[b]? = some none

/-- Control can pass from the first block to the second. -/
def Edge (s : Shape) (j i : Nat) : Prop :=
  ∃ t, s[j]? = some (some t) ∧ i ∈ t.successors

def Dead (s : Shape) (i : Nat) : Prop :=
  s[i]? = some (some .unreachable)

def grow (s : Shape) : Shape :=
  s ++ [none]

def close (s : Shape) (b : Nat) (t : Terminator) : Shape :=
  s.set b (some t)

@[simp] theorem length_grow (s : Shape) : s.grow.length = s.length + 1 := by
  simp [grow]

@[simp] theorem length_close (s : Shape) (b : Nat) (t : Terminator) :
    (s.close b t).length = s.length := by
  simp [close]

variable {s s' s₁ : Shape} {b b' c i j : Nat} {t : Terminator}

theorem IsOpen.lt (h : s.IsOpen b) : b < s.length :=
  (List.getElem?_eq_some_iff.mp h).1

theorem IsOpen.not_dead (h : s.IsOpen b) : ¬ s.Dead b := by
  intro dead
  cases h.symm.trans dead

theorem getElem?_grow (s : Shape) (i : Nat) :
    s.grow[i]? = if i = s.length then some none else s[i]? := by
  unfold grow
  by_cases hi : i < s.length
  · rw [List.getElem?_append_left hi, if_neg (Nat.ne_of_lt hi)]
  · by_cases eq : i = s.length
    · simp [eq]
    · rw [if_neg eq, List.getElem?_eq_none (by simp; omega), List.getElem?_eq_none (by omega)]

theorem getElem?_close_of_ne (ne : i ≠ b) (t : Terminator) : (s.close b t)[i]? = s[i]? :=
  List.getElem?_set_ne (Ne.symm ne)

theorem getElem?_close_self (lt : b < s.length) (t : Terminator) :
    (s.close b t)[b]? = some (some t) :=
  List.getElem?_set_self lt

/-! ## Open blocks -/

theorem isOpen_grow_self (s : Shape) : s.grow.IsOpen s.length := by
  rw [IsOpen, getElem?_grow, if_pos rfl]

theorem IsOpen.grow (h : s.IsOpen b) : s.grow.IsOpen b := by
  have ne : b ≠ s.length := Nat.ne_of_lt h.lt
  rw [IsOpen, getElem?_grow, if_neg ne]
  exact h

theorem IsOpen.close (h : s.IsOpen b) (ne : b ≠ c) (t : Terminator) : (s.close c t).IsOpen b :=
  (getElem?_close_of_ne ne t).trans h

/-! ## Edges -/

theorem edge_of_grow (h : s.grow.Edge j i) : s.Edge j i := by
  obtain ⟨t, ends, target⟩ := h
  rw [getElem?_grow] at ends
  split at ends
  · cases ends
  · exact ⟨t, ends, target⟩

theorem edge_of_close (h : (s.close b t).Edge j i) : s.Edge j i ∨ j = b ∧ i ∈ t.successors := by
  obtain ⟨u, ends, target⟩ := h
  by_cases eq : j = b
  · subst eq
    have lt : j < s.length := by
      simpa using (List.getElem?_eq_some_iff.mp ends).1
    rw [getElem?_close_self lt] at ends
    cases ends
    exact .inr ⟨rfl, target⟩
  · rw [getElem?_close_of_ne eq] at ends
    exact .inl ⟨u, ends, target⟩

theorem dead_of_grow (h : s.grow.Dead i) : s.Dead i := by
  rw [Dead, getElem?_grow] at h
  split at h
  · cases h
  · exact h

theorem dead_of_close (h : (s.close b t).Dead i) : s.Dead i ∨ i = b ∧ t = .unreachable := by
  by_cases eq : i = b
  · subst eq
    have lt : i < s.length := by
      simpa using (List.getElem?_eq_some_iff.mp h).1
    rw [Dead, getElem?_close_self lt] at h
    cases h
    exact .inr ⟨rfl, rfl⟩
  · rw [Dead, getElem?_close_of_ne eq] at h
    exact .inl h

/-! ## Blocks that nothing leads to -/

/-- Control stays inside the function, and no path leads to a block that is closed as unreachable:
neither from the start of the function nor from another block. -/
structure Clean (s : Shape) : Prop where
  inside : ∀ {j i}, s.Edge j i → i < s.length
  dead : ∀ {i}, s.Dead i → i ≠ 0 ∧ ∀ j, ¬ s.Edge j i

namespace Clean

theorem nil : Clean [] where
  inside h := by
    obtain ⟨t, ends, -⟩ := h
    simp at ends
  dead h := by simp [Dead] at h

theorem grow (h : s.Clean) : s.grow.Clean where
  inside edge := by
    have := h.inside (edge_of_grow edge)
    rw [length_grow]
    omega
  dead gone := by
    obtain ⟨start, unreached⟩ := h.dead (dead_of_grow gone)
    exact ⟨start, fun j edge => unreached j (edge_of_grow edge)⟩

/-- A block is left for blocks that are not closed as unreachable. -/
theorem close (h : s.Clean) (onward : t ≠ .unreachable)
    (targets : ∀ i ∈ t.successors, i < s.length ∧ ¬ s.Dead i) : (s.close b t).Clean where
  inside edge := by
    rw [length_close]
    rcases edge_of_close edge with old | ⟨-, target⟩
    · exact h.inside old
    · exact (targets _ target).1
  dead gone := by
    have old := (dead_of_close gone).resolve_right fun new => onward new.2
    obtain ⟨start, unreached⟩ := h.dead old
    refine ⟨start, fun j edge => ?_⟩
    rcases edge_of_close edge with before | ⟨-, target⟩
    · exact unreached j before
    · exact (targets _ target).2 old

/-- A block that nothing leads to is closed as unreachable. -/
theorem abandon (h : s.Clean) (start : b ≠ 0) (unreached : ∀ j, ¬ s.Edge j b) :
    (s.close b .unreachable).Clean where
  inside edge := by
    rw [length_close]
    rcases edge_of_close edge with old | ⟨-, target⟩
    · exact h.inside old
    · cases target
  dead gone := by
    rcases dead_of_close gone with old | ⟨rfl, -⟩
    · obtain ⟨start', unreached'⟩ := h.dead old
      refine ⟨start', fun j edge => ?_⟩
      rcases edge_of_close edge with before | ⟨-, target⟩
      · exact unreached' j before
      · cases target
    · refine ⟨start, fun j edge => ?_⟩
      rcases edge_of_close edge with before | ⟨-, target⟩
      · exact unreached j before
      · cases target

end Clean

/-! ## Spreading from a block -/

/-- Of the old blocks only `b` is touched, and new branches lead to new blocks or to the ones that are
listed. -/
structure Spreads (s : Shape) (b : Nat) (targets : List Nat) (s' : Shape) : Prop where
  length_le : s.length ≤ s'.length
  kept : ∀ {i}, i < s.length → i ≠ b → s'[i]? = s[i]?
  edges : ∀ {j i}, s'.Edge j i → i < s.length → s.Edge j i ∨ i ∈ targets

namespace Spreads

variable {targets others : List Nat}

theorem refl (s : Shape) (b : Nat) (targets : List Nat) : s.Spreads b targets s where
  length_le := Nat.le_refl _
  kept _ _ := rfl
  edges edge _ := .inl edge

/-- What spreads from the block or from a new one is part of it. -/
theorem trans (h : s.Spreads b targets s₁) (h' : s₁.Spreads c others s')
    (own : c = b ∨ s.length ≤ c) (named : ∀ i ∈ others, i < s.length → i ∈ targets) :
    s.Spreads b targets s' where
  length_le := Nat.le_trans h.length_le h'.length_le
  kept {i} lt ne := by
    have apart : i ≠ c := by
      rcases own with rfl | le
      · exact ne
      · omega
    rw [h'.kept (Nat.lt_of_lt_of_le lt h.length_le) apart, h.kept lt ne]
  edges edge lt := by
    rcases h'.edges edge (Nat.lt_of_lt_of_le lt h.length_le) with before | target
    · exact h.edges before lt
    · exact .inr (named _ target lt)

theorem grow (h : s.Spreads b targets s') : s.Spreads b targets s'.grow where
  length_le := by
    have := h.length_le
    rw [length_grow]
    omega
  kept {i} lt ne := by
    have := h.length_le
    rw [getElem?_grow, if_neg (by omega), h.kept lt ne]
  edges edge lt := h.edges (edge_of_grow edge) lt

theorem close (h : s.Spreads b targets s') (own : c = b ∨ s.length ≤ c)
    (named : ∀ i ∈ t.successors, i < s.length → i ∈ targets) :
    s.Spreads b targets (s'.close c t) where
  length_le := by
    rw [length_close]
    exact h.length_le
  kept {i} lt ne := by
    have apart : i ≠ c := by
      rcases own with rfl | le
      · exact ne
      · omega
    rw [getElem?_close_of_ne apart, h.kept lt ne]
  edges edge lt := by
    rcases edge_of_close edge with before | ⟨-, target⟩
    · exact h.edges before lt
    · exact .inr (named _ target lt)

theorem isOpen (h : s.Spreads b targets s') (isOpen : s.IsOpen i) (ne : i ≠ b) : s'.IsOpen i :=
  (h.kept isOpen.lt ne).trans isOpen

end Spreads

/-! ## Leaving a block for new ones -/

def growBy (s : Shape) : Nat → Shape
  | 0 => s
  | n + 1 => s.grow.growBy n

theorem grow_growBy (s : Shape) (n : Nat) : (s.growBy n).grow = s.growBy (n + 1) := by
  induction n generalizing s with
  | zero => rfl
  | succ n ih => exact ih s.grow

@[simp] theorem length_growBy (s : Shape) (n : Nat) : (s.growBy n).length = s.length + n := by
  induction n generalizing s with
  | zero => rfl
  | succ n ih =>
      rw [growBy, ih, length_grow]
      omega

theorem isOpen_growBy {n : Nat} (le : s.length ≤ i) (lt : i < s.length + n) :
    (s.growBy n).IsOpen i := by
  induction n with
  | zero => omega
  | succ n ih =>
      rw [← grow_growBy]
      by_cases old : i < s.length + n
      · exact (ih old).grow
      · have last : i = (s.growBy n).length := by
          rw [length_growBy]
          omega
        rw [last]
        exact isOpen_grow_self _

theorem Spreads.growBy {targets : List Nat} (h : s.Spreads b targets s') (n : Nat) :
    s.Spreads b targets (s'.growBy n) := by
  induction n generalizing s' with
  | zero => exact h
  | succ n ih => exact ih h.grow

theorem edge_of_growBy {n : Nat} (h : (s.growBy n).Edge j i) : s.Edge j i := by
  induction n generalizing s with
  | zero => exact h
  | succ n ih => exact edge_of_grow (ih h)

theorem Clean.growBy (h : s.Clean) (n : Nat) : (s.growBy n).Clean := by
  induction n generalizing s with
  | zero => exact h
  | succ n ih => exact ih h.grow

/-- What is known once `b` was left by `t` for some of `n` new blocks. -/
structure Forks (s : Shape) (b n : Nat) (t : Terminator) (s' : Shape) : Prop where
  spreads : s.Spreads b [] s'
  length : s'.length = s.length + n
  fresh : ∀ {i}, s.length ≤ i → i < s.length + n → s'.IsOpen i
  edges : ∀ {j i}, s'.Edge j i → s.Edge j i ∨ i ∈ t.successors
  clean : s.Clean → s'.Clean

theorem forks {n : Nat} (lt : b < s.length) (onward : t ≠ .unreachable)
    (targets : ∀ i ∈ t.successors, s.length ≤ i ∧ i < s.length + n) :
    s.Forks b n t ((s.growBy n).close b t) where
  spreads := by
    refine ((Spreads.refl s b []).growBy n).close (.inl rfl) fun i target old => ?_
    have := (targets i target).1
    omega
  length := by simp
  fresh le below := (isOpen_growBy le below).close (by omega) t
  edges edge := (edge_of_close edge).imp edge_of_growBy And.right
  clean before := by
    refine (before.growBy n).close onward fun i target => ?_
    obtain ⟨le, below⟩ := targets i target
    exact ⟨by simpa using below, (isOpen_growBy le below).not_dead⟩

/-- What is known once `b` was left for a test in the first of `n` new blocks, and the test for others
of them. -/
structure Loops (s : Shape) (b n : Nat) (s' : Shape) : Prop where
  spreads : s.Spreads b [] s'
  length : s'.length = s.length + n
  fresh : ∀ {i}, s.length < i → i < s.length + n → s'.IsOpen i
  live : ¬ s'.Dead s.length
  clean : s.Clean → s'.Clean

theorem loops {n : Nat} (lt : b < s.length) (some_ : 0 < n) (onward : t ≠ .unreachable)
    (targets : ∀ i ∈ t.successors, s.length < i ∧ i < s.length + n) :
    s.Loops b n (((s.growBy n).close b (.branch s.length)).close s.length t) := by
  have left : s.Forks b n (.branch s.length) ((s.growBy n).close b (.branch s.length)) :=
    forks lt nofun (by simpa [Terminator.successors] using some_)
  have first := left.fresh (Nat.le_refl _) (by omega)
  refine ⟨?_, by simp, fun above below => ?_, ?_, fun before => ?_⟩
  · refine left.spreads.close (.inr (Nat.le_refl _)) fun i target old => ?_
    have := (targets i target).1
    omega
  · exact (left.fresh (Nat.le_of_lt above) below).close (by omega) t
  · rw [Dead, getElem?_close_self first.lt]
    intro dead
    cases dead
    exact onward rfl
  · refine (left.clean before).close onward fun i target => ?_
    obtain ⟨above, below⟩ := targets i target
    have isOpen := left.fresh (Nat.le_of_lt above) below
    exact ⟨isOpen.lt, isOpen.not_dead⟩

end Shape

/-! ## Shapes of functions -/

namespace Function

theorem getElem?_shape (F : Function) (i : Nat) :
    F.shape[i]? = F.blocks[i]?.map Block.terminator := by
  simp [shape]

theorem isOpen_shape {F : Function} {b : Nat} : F.shape.IsOpen b ↔ F.IsOpen b := by
  rw [Shape.IsOpen, getElem?_shape, Option.map_eq_some_iff]
  rfl

@[simp] theorem length_shape (F : Function) : F.shape.length = F.blocks.size := by
  simp [shape]

theorem shape_emit (F : Function) (b : Nat) (is : List Instruction) (k : Counters) :
    (F.emit b is k).shape = F.shape := by
  apply List.ext_getElem?
  intro i
  rw [getElem?_shape, getElem?_shape, emit, Array.getElem?_modify]
  split
  · simp [Option.map_map, Function.comp_def]
  · rfl

theorem shape_grow (F : Function) (label : String) : (F.grow label).shape = F.shape.grow := by
  simp [shape, grow, Shape.grow]

theorem shape_close (F : Function) (b : Nat) (t : Terminator) :
    (F.close b t).shape = F.shape.close b t := by
  apply List.ext_getElem?
  intro i
  rw [getElem?_shape, close, Array.getElem?_modify, Shape.close, List.getElem?_set]
  split
  · next here =>
      subst here
      by_cases lt : b < F.blocks.size
      · simp [lt]
      · simp [lt]
  · rw [getElem?_shape]

end Function

end ImpLower.Code
