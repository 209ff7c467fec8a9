import ImpLower.Proofs.Lower.Focus

/-!
# How a function grows while it is lowered

Blocks are added at the end, open blocks gain instructions and at last a terminator, and a closed
block never changes. A set of pending blocks is kept next to the function: they are open and wait for
the insertion point, while every other block is closed and branches inside the function.
-/

namespace ImpLower.Code

namespace Function

/-- Closed blocks and those in `kept` are as they were. The other blocks have at most gained
instructions and a terminator. -/
structure Grows (kept : List Nat) (F F' : Function) : Prop where
  header : F.SameHeader F'
  blocks : ∀ {i B}, F.blocks[i]? = some B → ∃ B', F'.blocks[i]? = some B' ∧
    (∃ is, B'.instructions = B.instructions ++ is) ∧ (B.terminator.isSome = true ∨ i ∈ kept → B' = B)

/-- Every block is closed and branches inside the function, but for the pending ones. -/
structure Tidy (F : Function) (pending : List Nat) : Prop where
  isOpen : ∀ i ∈ pending, F.IsOpen i
  isSealed : ∀ {i B}, F.blocks[i]? = some B → i ∉ pending →
    ∃ t, B.terminator = some t ∧ ∀ j ∈ t.successors, j < F.blocks.size

theorem IsOpen.lt {F : Function} {b : Nat} (h : F.IsOpen b) : b < F.blocks.size := by
  obtain ⟨B, hB, -⟩ := h
  exact (Array.getElem?_eq_some_iff.mp hB).1

theorem SameHeader.refl (F : Function) : F.SameHeader F := ⟨rfl, rfl, rfl⟩

theorem SameHeader.trans {F G H : Function} (h : F.SameHeader G) (h' : G.SameHeader H) :
    F.SameHeader H :=
  ⟨h.1.trans h'.1, h.2.1.trans h'.2.1, h.2.2.trans h'.2.2⟩

namespace Grows

variable {F G H : Function} {kept : List Nat} {b : Nat}

theorem refl (kept : List Nat) (F : Function) : Grows kept F F where
  header := .refl F
  blocks hB := ⟨_, hB, ⟨#[], by simp⟩, fun _ => rfl⟩

theorem trans (h : Grows kept F G) (h' : Grows kept G H) : Grows kept F H where
  header := h.header.trans h'.header
  blocks := by
    intro i B hB
    obtain ⟨B₁, hB₁, ⟨is, his⟩, same⟩ := h.blocks hB
    obtain ⟨B₂, hB₂, ⟨js, hjs⟩, same'⟩ := h'.blocks hB₁
    refine ⟨B₂, hB₂, ⟨is ++ js, by rw [hjs, his, Array.append_assoc]⟩, fun hi => ?_⟩
    have eq := same hi
    subst eq
    exact same' hi

theorem weaken {fewer : List Nat} (h : Grows kept F G) (sub : ∀ i ∈ fewer, i ∈ kept) :
    Grows fewer F G where
  header := h.header
  blocks := by
    intro i B hB
    obtain ⟨B', hB', ext, same⟩ := h.blocks hB
    exact ⟨B', hB', ext, fun hi => same (hi.imp_right (sub i))⟩

theorem forget (h : Grows kept F G) : Grows [] F G :=
  h.weaken (by simp)

/-- Changing one open block, by more instructions or a terminator. -/
theorem of_open (open_ : F.IsOpen b) (fresh : b ∉ kept) (header : F.SameHeader G)
    (other : ∀ i, i ≠ b → i < F.blocks.size → G.blocks[i]? = F.blocks[i]?)
    (here : ∀ B, F.blocks[b]? = some B →
      ∃ B', G.blocks[b]? = some B' ∧ ∃ is, B'.instructions = B.instructions ++ is) :
    Grows kept F G where
  header := header
  blocks := by
    intro i B hB
    by_cases hi : i = b
    · subst hi
      obtain ⟨B', hB', ext⟩ := here B hB
      obtain ⟨B₀, hB₀, ht⟩ := open_
      have eq : B₀ = B := Option.some.inj (hB₀.symm.trans hB)
      subst eq
      refine ⟨B', hB', ext, fun hi => ?_⟩
      rcases hi with hi | hi
      · simp [ht] at hi
      · exact absurd hi fresh
    · have lt := (Array.getElem?_eq_some_iff.mp hB).1
      exact ⟨B, (other i hi lt).trans hB, ⟨#[], by simp⟩, fun _ => rfl⟩

theorem emit (open_ : F.IsOpen b) (fresh : b ∉ kept) (is : List Instruction) (k : Counters) :
    Grows kept F (F.emit b is k) :=
  of_open open_ fresh ⟨rfl, rfl, rfl⟩ (fun _ hi _ => getElem?_emit_of_ne hi is k)
    fun _ hB => ⟨_, getElem?_emit_self hB is k, is.toArray, rfl⟩

theorem close (open_ : F.IsOpen b) (fresh : b ∉ kept) (t : Terminator) :
    Grows kept F (F.close b t) :=
  of_open open_ fresh ⟨rfl, rfl, rfl⟩ (fun _ hi _ => getElem?_close_of_ne hi t)
    fun _ hB => ⟨_, getElem?_close_self hB t, #[], by simp⟩

theorem grow (kept : List Nat) (F : Function) (label : String) : Grows kept F (F.grow label) where
  header := ⟨rfl, rfl, rfl⟩
  blocks := by
    intro i B hB
    have lt := (Array.getElem?_eq_some_iff.mp hB).1
    exact ⟨B, (getElem?_grow_of_lt lt label).trans hB, ⟨#[], by simp⟩, fun _ => rfl⟩

theorem size_le (h : Grows kept F G) : F.blocks.size ≤ G.blocks.size := by
  by_contra hlt
  have hlast : G.blocks.size < F.blocks.size := by omega
  obtain ⟨B, hB, -⟩ := h.blocks (Array.getElem?_eq_getElem hlast)
  have := (Array.getElem?_eq_some_iff.mp hB).1
  omega

/-- A kept block is where it was. -/
theorem getElem?_eq (h : Grows kept F G) {i : Nat} (hi : i ∈ kept) (lt : i < F.blocks.size) :
    G.blocks[i]? = F.blocks[i]? := by
  obtain ⟨B', hB', -, same⟩ := h.blocks (Array.getElem?_eq_getElem lt)
  rw [hB', same (.inr hi), Array.getElem?_eq_getElem lt]

theorem endOf_eq (h : Grows kept F G) {i : Nat} (hi : i ∈ kept) (lt : i < F.blocks.size) :
    G.endOf i = F.endOf i := by
  unfold endOf
  rw [h.getElem?_eq hi lt]

end Grows

namespace Tidy

variable {F : Function} {pending : List Nat} {b : Nat}

theorem closed (h : F.Tidy []) : F.Closed := by
  intro B hB
  obtain ⟨i, hi⟩ := List.getElem?_of_mem hB
  exact h.isSealed (by simpa using hi) List.not_mem_nil

theorem notMem (h : F.Tidy pending) {i : Nat} (ge : F.blocks.size ≤ i) : i ∉ pending := by
  intro hi
  have := (h.isOpen i hi).lt
  omega

theorem congr {others : List Nat} (h : F.Tidy pending) (same : ∀ i, i ∈ others ↔ i ∈ pending) :
    F.Tidy others where
  isOpen i hi := h.isOpen i ((same i).mp hi)
  isSealed hB hi := h.isSealed hB fun hp => hi ((same _).mpr hp)

theorem emit (h : F.Tidy pending) (hb : F.IsOpen b) (is : List Instruction) (k : Counters) :
    (F.emit b is k).Tidy pending where
  isOpen i hi := by
    by_cases eq : i = b
    · subst eq
      exact isOpen_emit hb
    · obtain ⟨B, hB, ht⟩ := h.isOpen i hi
      exact ⟨B, (getElem?_emit_of_ne eq is k).trans hB, ht⟩
  isSealed := by
    intro i B' hB' hi
    rw [size_emit]
    by_cases eq : i = b
    · subst eq
      obtain ⟨B, hB, -⟩ := hb
      rw [getElem?_emit_self hB is k] at hB'
      cases hB'
      obtain ⟨t, ht, targets⟩ := h.isSealed hB hi
      exact ⟨t, ht, targets⟩
    · rw [getElem?_emit_of_ne eq] at hB'
      exact h.isSealed hB' hi

theorem grow (h : F.Tidy pending) (label : String) :
    (F.grow label).Tidy (F.blocks.size :: pending) where
  isOpen i hi := by
    rcases List.mem_cons.mp hi with eq | hi
    · subst eq
      exact ⟨_, getElem?_grow_self F label, rfl⟩
    · obtain ⟨B, hB, ht⟩ := h.isOpen i hi
      have lt := (h.isOpen i hi).lt
      exact ⟨B, (getElem?_grow_of_lt lt label).trans hB, ht⟩
  isSealed := by
    intro i B hB hi
    have hne : i ≠ F.blocks.size := fun eq => hi (List.mem_cons.mpr (.inl eq))
    have lt := (Array.getElem?_eq_some_iff.mp hB).1
    rw [size_grow] at lt
    rw [getElem?_grow_of_lt (by omega)] at hB
    obtain ⟨t, ht, targets⟩ := h.isSealed hB fun hp => hi (List.mem_cons.mpr (.inr hp))
    refine ⟨t, ht, fun j hj => ?_⟩
    have := targets j hj
    rw [size_grow]
    omega

theorem close (h : F.Tidy (b :: pending)) (fresh : b ∉ pending) {t : Terminator}
    (targets : ∀ j ∈ t.successors, j < F.blocks.size) : (F.close b t).Tidy pending where
  isOpen i hi := by
    have hne : i ≠ b := fun eq => fresh (eq ▸ hi)
    obtain ⟨B, hB, ht⟩ := h.isOpen i (List.mem_cons_of_mem _ hi)
    exact ⟨B, (getElem?_close_of_ne hne t).trans hB, ht⟩
  isSealed := by
    intro i B' hB' hi
    rw [size_close]
    by_cases eq : i = b
    · subst eq
      obtain ⟨B, hB, -⟩ := h.isOpen i List.mem_cons_self
      rw [getElem?_close_self hB t] at hB'
      cases hB'
      exact ⟨t, rfl, targets⟩
    · rw [getElem?_close_of_ne eq] at hB'
      exact h.isSealed hB' (by simp [eq, hi])

end Tidy

/-! ## Leaving a block for new ones -/

def growAll (F : Function) (labels : List String) : Function :=
  labels.foldl grow F

/-- The function with new blocks and a block closed, usually by a branch to the new ones. -/
def fork (F : Function) (labels : List String) (b : Nat) (t : Terminator) : Function :=
  (F.growAll labels).close b t

@[simp] theorem size_growAll (F : Function) (labels : List String) :
    (F.growAll labels).blocks.size = F.blocks.size + labels.length := by
  induction labels generalizing F with
  | nil => rfl
  | cons label rest ih =>
      have := ih (F.grow label)
      rw [size_grow] at this
      rw [List.length_cons]
      exact this.trans (by omega)

@[simp] theorem counters_growAll (F : Function) (labels : List String) :
    (F.growAll labels).counters = F.counters := by
  induction labels generalizing F with
  | nil => rfl
  | cons label rest ih => exact ih (F.grow label)

theorem counters_fork (F : Function) (labels : List String) (b : Nat) (t : Terminator) :
    (F.fork labels b t).counters = F.counters := by
  simp [fork]

theorem Grows.growAll (kept : List Nat) (F : Function) (labels : List String) :
    Grows kept F (F.growAll labels) := by
  induction labels generalizing F with
  | nil => exact .refl kept F
  | cons label rest ih => exact (Grows.grow kept F label).trans (ih (F.grow label))

theorem Tidy.growAll {F : Function} {pending : List Nat} (h : F.Tidy pending)
    (labels : List String) :
    (F.growAll labels).Tidy (List.range' F.blocks.size labels.length ++ pending) := by
  induction labels generalizing F pending with
  | nil => exact h
  | cons label rest ih =>
      have := ih (h.grow label)
      rw [size_grow] at this
      refine this.congr fun i => ?_
      simp only [List.length_cons, List.range'_succ, List.cons_append, List.mem_cons,
        List.mem_append]
      tauto

theorem getElem?_growAll {F : Function} {labels : List String} {i : Nat} (ge : F.blocks.size ≤ i)
    (lt : i < F.blocks.size + labels.length) :
    ∃ label, (F.growAll labels).blocks[i]? = some { label } := by
  induction labels generalizing F with
  | nil =>
      rw [List.length_nil] at lt
      omega
  | cons label rest ih =>
      rw [List.length_cons] at lt
      by_cases hi : i = F.blocks.size
      · subst hi
        refine ⟨F.freshLabel label, ?_⟩
        have kept : (Grows [F.blocks.size] (F.grow label) ((F.grow label).growAll rest)) :=
          .growAll _ _ rest
        exact (kept.getElem?_eq List.mem_cons_self (by simp)).trans (getElem?_grow_self F label)
      · exact ih (by rw [size_grow]; omega) (by rw [size_grow]; omega)

section

variable {F : Function} {pending : List Nat} {labels : List String} {b : Nat} {t : Terminator}

theorem Grows.isOpen_growAll (h : F.IsOpen b) : (F.growAll labels).IsOpen b := by
  have kept := Grows.growAll [b] F labels
  obtain ⟨B, hB, ht⟩ := h
  have lt := (Array.getElem?_eq_some_iff.mp hB).1
  exact ⟨B, (kept.getElem?_eq List.mem_cons_self lt).trans hB, ht⟩

theorem Grows.fork (h : F.IsOpen b) (fresh : b ∉ pending) : Grows pending F (F.fork labels b t) :=
  (Grows.growAll pending F labels).trans (.close (isOpen_growAll h) fresh t)

theorem Tidy.fork (h : F.Tidy (b :: pending)) (fresh : b ∉ pending)
    (targets : ∀ j ∈ t.successors, j < F.blocks.size + labels.length) :
    (F.fork labels b t).Tidy (List.range' F.blocks.size labels.length ++ pending) := by
  have lt := (h.isOpen b List.mem_cons_self).lt
  have more := h.growAll labels
  have order : (F.growAll labels).Tidy
      (b :: (List.range' F.blocks.size labels.length ++ pending)) :=
    more.congr fun i => by simp only [List.mem_cons, List.mem_append]; tauto
  refine order.close ?_ (by rwa [size_growAll])
  rw [List.mem_append, List.mem_range'_1]
  rintro (hb | hb)
  · omega
  · exact fresh hb

theorem endOf_growAll {i : Nat} (ge : F.blocks.size ≤ i) (lt : i < F.blocks.size + labels.length) :
    (F.growAll labels).endOf i = ⟨i, 0⟩ := by
  obtain ⟨label, new⟩ := getElem?_growAll ge lt
  simp [endOf, new]

theorem endOf_fork {i : Nat} (hb : b < F.blocks.size) (ge : F.blocks.size ≤ i)
    (lt : i < F.blocks.size + labels.length) : (F.fork labels b t).endOf i = ⟨i, 0⟩ := by
  rw [← endOf_growAll ge lt, Function.fork, endOf, getElem?_close_of_ne (by omega)]
  rfl

end

/-! ## Code that stays where it is -/

theorem endOf_emit {F : Function} {b : Nat} (h : F.IsOpen b) (is : List Instruction)
    (k : Counters) : (F.emit b is k).endOf b = (F.endOf b).skip is.length := by
  obtain ⟨B, hB, -⟩ := h
  simp [endOf, getElem?_emit_self hB, hB, Place.skip]

theorem hostedAt_emit {F : Function} {b : Nat} (h : F.IsOpen b) (is : List Instruction)
    (k : Counters) : HostedAt (F.emit b is k) (F.endOf b) is := by
  obtain ⟨B, hB, -⟩ := h
  refine ⟨_, getElem?_emit_self hB is k, fun j i hj => ?_⟩
  simp [endOf, hB, Array.getElem?_append_right, hj]

theorem endsAt_fork {F : Function} {b : Nat} (h : F.IsOpen b) (labels : List String)
    (t : Terminator) : EndsAt (F.fork labels b t) (F.endOf b) t := by
  obtain ⟨B, hB, -⟩ := h
  have lt := (Array.getElem?_eq_some_iff.mp hB).1
  have same := (Grows.growAll [b] F labels).getElem?_eq List.mem_cons_self lt
  refine ⟨{ B with terminator := some t }, getElem?_close_self (same.trans hB) t, ?_, rfl⟩
  simp [endOf, hB]

end Function

theorem Draft.Hosts.grows {d : Draft} {f : Nat} {F G : Function} {kept : List Nat}
    (h : d.Hosts f F) (grows : F.Grows kept G) : d.Hosts f G := by
  obtain ⟨F₀, hF, header⟩ := h
  exact ⟨F₀, hF, header.trans grows.header⟩

theorem HostedAt.mono {F G : Function} {kept : List Nat} {p : Place} {is : List Instruction}
    (h : HostedAt F p is) (grows : F.Grows kept G) : HostedAt G p is := by
  obtain ⟨B, hB, hosted⟩ := h
  obtain ⟨B', hB', ⟨more, hmore⟩, -⟩ := grows.blocks hB
  refine ⟨B', hB', fun k i hk => ?_⟩
  have here := hosted k i hk
  have lt := (Array.getElem?_eq_some_iff.mp here).1
  rw [hmore, Array.getElem?_append_left lt]
  exact here

theorem EndsAt.mono {F G : Function} {kept : List Nat} {p : Place} {t : Terminator}
    (h : EndsAt F p t) (grows : F.Grows kept G) : EndsAt G p t := by
  obtain ⟨B, hB, size, ht⟩ := h
  obtain ⟨B', hB', -, same⟩ := grows.blocks hB
  have eq := same (.inl (by rw [ht]; rfl))
  subst eq
  exact ⟨B', hB', size, ht⟩

/-- What is known after instructions were appended to a pending block, new blocks were added and the
block was closed. -/
structure Function.Leaves (pending : List Nat) (F : Function) (b : Nat) (is : List Instruction)
    (k : Counters) (labels : List String) (t : Terminator) (G : Function) : Prop where
  tidy : G.Tidy (List.range' F.blocks.size labels.length ++ pending)
  grows : F.Grows pending G
  counters : G.counters = k
  size : G.blocks.size = F.blocks.size + labels.length
  hosted : HostedAt G (F.endOf b) is
  ends : EndsAt G ((F.endOf b).skip is.length) t
  empty : ∀ i, F.blocks.size ≤ i → i < F.blocks.size + labels.length → G.endOf i = ⟨i, 0⟩
  fresh : ∀ i, F.blocks.size ≤ i → i ∉ pending

theorem Function.leaves {pending : List Nat} {F : Function} {b : Nat}
    (tidy : F.Tidy (b :: pending)) (fresh : b ∉ pending) (is : List Instruction) (k : Counters)
    (labels : List String) {t : Terminator}
    (targets : ∀ j ∈ t.successors, j < F.blocks.size + labels.length) :
    F.Leaves pending b is k labels t ((F.emit b is k).fork labels b t) := by
  have isOpen := tidy.isOpen b List.mem_cons_self
  have isOpen' : (F.emit b is k).IsOpen b := isOpen_emit isOpen
  have size : (F.emit b is k).blocks.size = F.blocks.size := size_emit F b is k
  have left : (F.emit b is k).Grows [] ((F.emit b is k).fork labels b t) :=
    .fork isOpen' List.not_mem_nil
  constructor
  · have forked : ((F.emit b is k).fork labels b t).Tidy
        (List.range' (F.emit b is k).blocks.size labels.length ++ pending) :=
      (tidy.emit isOpen is k).fork fresh (by rwa [size])
    rwa [size] at forked
  · exact (Grows.emit isOpen fresh is k).trans (.fork isOpen' fresh)
  · exact counters_fork _ _ _ _
  · rw [fork, size_close, size_growAll, size]
  · exact (hostedAt_emit isOpen is k).mono left
  · rw [← endOf_emit isOpen is k]
    exact endsAt_fork isOpen' labels t
  · intro i ge lt
    exact endOf_fork isOpen'.lt (by rwa [size]) (by rwa [size])
  · intro i ge hi
    exact tidy.notMem ge (List.mem_cons_of_mem b hi)

/-- The block may be closed where it stands. -/
theorem Function.leaves_bare {pending : List Nat} {F : Function} {b : Nat}
    (tidy : F.Tidy (b :: pending)) (fresh : b ∉ pending) (labels : List String) {t : Terminator}
    (targets : ∀ j ∈ t.successors, j < F.blocks.size + labels.length) :
    F.Leaves pending b [] F.counters labels t (F.fork labels b t) := by
  have left := Function.leaves tidy fresh [] F.counters labels targets
  rwa [emit_nil] at left

end ImpLower.Code

namespace ImpLower.Lower

open Code

def Spot.growAll (s : Spot) (labels : List String) : Spot :=
  { s with
    function := s.function.growAll labels
    hosts := s.hosts.grows (Function.Grows.growAll [] _ labels)
    isOpen := Function.Grows.isOpen_growAll s.isOpen }

@[simp] theorem Spot.size_emit (s : Spot) (is : List Instruction) (k : Counters) :
    (s.emit is k).function.blocks.size = s.function.blocks.size :=
  Function.size_emit _ _ _ _

theorem exec_addBlock (s : Spot) (sc : Names) (labels : List String) (label : String) {n : Nat}
    (size : s.function.blocks.size + labels.length = n) :
    (addBlock s.index label : Lower Draft Operand Slot Nat BlockId).exec
      ((s.growAll labels).state sc) =
        (.ok ⟨s.index, n⟩, (s.growAll (labels ++ [label])).state sc) := by
  have added := Draft.addBlock_focus (b := s.block) (s.growAll labels).hosts label
  have next : (s.growAll (labels ++ [label])).function = (s.growAll labels).function.grow label := by
    simp [Spot.growAll, Function.growAll]
  have position : (s.growAll labels).function.blocks.size = n :=
    (Function.size_growAll _ _).trans size
  rw [position] at added
  unfold Spot.state
  rw [next]
  exact congrArg (fun r : BlockId × Draft =>
    ((.ok r.1, ⟨r.2, sc, some s.index⟩) : Except Diagnostic BlockId × Lowering Draft Operand Slot Nat))
    added

theorem exec_addBlocks (s : Spot) (sc : Names) (labels : List String) (label : String) (n : Nat)
    {t : Nat} (size : s.function.blocks.size + labels.length = t) :
    (addBlocks s.index label n : Lower Draft Operand Slot Nat (List BlockId)).exec
      ((s.growAll labels).state sc) = (.ok ((List.range' t n).map (BlockId.mk s.index)),
        (s.growAll (labels ++ List.replicate n label)).state sc) := by
  induction n generalizing labels t with
  | zero =>
      rw [addBlocks, List.replicate_zero, List.append_nil]
      rfl
  | succ n ih =>
      have rest := ih (labels ++ [label]) (t := t + 1) (by simp; omega)
      rw [List.append_assoc, List.singleton_append, ← List.replicate_succ] at rest
      rw [addBlocks, Stateful.exec_bind_of_ok (exec_addBlock s sc labels label size),
        Stateful.exec_bind_of_ok rest]
      rfl

end ImpLower.Lower
