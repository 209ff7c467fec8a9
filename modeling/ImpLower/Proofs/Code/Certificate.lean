import Mathlib.Data.Set.Basic
import ImpLower.Proofs.Code.Judgement
import ImpLower.Proofs.Code.Labels
import ImpLower.Proofs.Lower.Growth

/-!
# Certificates of functions under construction

While a function grows block by block, a ledger keeps the types of its registers and slots and, for
each block, a set of registers and slots that have been brought forth whenever control enters it. A
function is certified by its ledger when every instruction is well typed, finds what it uses either
in the set of its block or earlier in the block, and every branch brings along the set of its target.
Each step of construction keeps a function certified.
-/

namespace ImpLower.Code

theorem getElem?_of_prefix {α : Type} {xs ys : List α} (h : xs <+: ys) {i : Nat} {a : α}
    (ha : xs[i]? = some a) : ys[i]? = some a := by
  obtain ⟨more, rfl⟩ := h
  rw [List.getElem?_append_left (List.getElem?_eq_some_iff.mp ha).1]
  exact ha

/-- What is known of a function under construction. -/
structure Ledger where
  function : Function
  registers : List Ty
  slots : List Ty
  /-- What is there whenever control enters a block. -/
  entries : List (Set Local)

namespace Ledger

def entry (L : Ledger) (b : Nat) : Set Local :=
  L.entries[b]?.getD ∅

def availableAt (L : Ledger) (p : Place) : Set Local :=
  { x | x ∈ L.entry p.block ∨ ∃ i < p.index, L.function.DefinesAt ⟨p.block, i⟩ x }

def available (L : Ledger) (b : Nat) : Set Local :=
  { x | x ∈ L.entry b ∨ ∃ i, L.function.DefinesAt ⟨b, i⟩ x }

def Opens (L : Ledger) (b : Nat) (A : Set Local) : Prop :=
  L.entries[b]? = some A

/-- What the ledger says about types, in a program with the given functions and globals. -/
def env (L : Ledger) (sig : Signatures) (globals : Nat → Option Ty) : Env where
  signatures := sig
  globals := globals
  parameters := L.function.parameters
  result := L.function.result
  registers := fun r => L.registers[r]?
  slots := fun n => L.slots[n]?

theorem Opens.entry_eq {L : Ledger} {b : Nat} {A : Set Local} (h : L.Opens b A) :
    L.entry b = A := by
  rw [entry, show L.entries[b]? = some A from h]
  rfl

theorem Opens.subset {L : Ledger} {b : Nat} {A : Set Local} (h : L.Opens b A) :
    A ⊆ L.available b :=
  fun _ hx => .inl (h.entry_eq.symm ▸ hx)

structure Le (L L' : Ledger) : Prop where
  header : L.function.SameHeader L'.function
  registers : L.registers <+: L'.registers
  slots : L.slots <+: L'.slots
  entries : L.entries <+: L'.entries
  defines : ∀ {p x}, L.function.DefinesAt p x → L'.function.DefinesAt p x

namespace Le

variable {L L₁ L' : Ledger}

theorem refl (L : Ledger) : L.Le L :=
  ⟨.refl _, List.prefix_rfl, List.prefix_rfl, List.prefix_rfl, fun h => h⟩

theorem trans (h : L.Le L₁) (h' : L₁.Le L') : L.Le L' :=
  ⟨h.header.trans h'.header, h.registers.trans h'.registers, h.slots.trans h'.slots,
    h.entries.trans h'.entries, fun d => h'.defines (h.defines d)⟩

theorem opens (h : L.Le L') {b : Nat} {A : Set Local} (o : L.Opens b A) : L'.Opens b A :=
  getElem?_of_prefix h.entries o

theorem entry (h : L.Le L') (b : Nat) : L.entry b ⊆ L'.entry b := by
  intro x hx
  cases ho : L.entries[b]? with
  | none => simp [Ledger.entry, ho] at hx
  | some A =>
      have opens : L.Opens b A := ho
      rw [opens.entry_eq] at hx
      exact (h.opens opens).entry_eq.symm ▸ hx

theorem availableAt (h : L.Le L') (p : Place) : L.availableAt p ⊆ L'.availableAt p := by
  rintro x (hx | ⟨i, lt, hx⟩)
  · exact .inl (h.entry _ hx)
  · exact .inr ⟨i, lt, h.defines hx⟩

theorem available (h : L.Le L') (b : Nat) : L.available b ⊆ L'.available b := by
  rintro x (hx | ⟨i, hx⟩)
  · exact .inl (h.entry _ hx)
  · exact .inr ⟨i, h.defines hx⟩

theorem env (h : L.Le L') (sig : Signatures) (globals : Nat → Option Ty) :
    (L.env sig globals).Le (L'.env sig globals) where
  signatures := id
  globals := id
  parameters := h.header.2.2.symm
  result := h.header.2.1.symm
  registers := getElem?_of_prefix h.registers
  slots := getElem?_of_prefix h.slots

end Le

end Ledger

/-- The function is certified by its ledger. -/
structure Certified (sig : Signatures) (globals : Nat → Option Ty) (L : Ledger) : Prop where
  registers : L.function.registers = L.registers.length
  slots : L.function.slots = L.slots.length
  blocks : L.function.blocks.size = L.entries.length
  start : L.Opens 0 ∅
  numbered : L.function.Numbered
  labelled : ∃ bases, Labelled bases L.function.labels
  instructions : ∀ {p i}, L.function.instructionAt? p = some i →
    InstructionOk (L.env sig globals) i ∧ ∀ x ∈ i.uses, x ∈ L.availableAt p
  terminators : ∀ {b t}, L.function.terminatorOf? b = some t →
    TerminatorOk (L.env sig globals) t ∧ (∀ x ∈ t.uses, x ∈ L.available b) ∧
      ∀ s ∈ t.successors, ∃ A, L.Opens s A ∧ A ⊆ L.available b

/-- What is there at the end of a block is there at its last place. -/
theorem Ledger.availableAt_endOf {L : Ledger} {b : Nat} {x : Local} (h : x ∈ L.available b) :
    x ∈ L.availableAt (L.function.endOf b) := by
  rcases h with old | ⟨i, j, hj, hx⟩
  · exact .inl old
  · refine .inr ⟨i, ?_, j, hj, hx⟩
    cases hB : L.function.blocks[b]? with
    | none => simp [Function.instructionAt?, hB] at hj
    | some B =>
        simp only [Function.instructionAt?, hB, Option.bind_some] at hj
        simpa [Function.endOf, hB] using (Array.getElem?_eq_some_iff.mp hj).1

namespace Ledger

/-- The ledger after one more instruction, with the types of what it brings forth. -/
def emit (L : Ledger) (b : Nat) (i : Instruction) (registers slots : List Ty) : Ledger where
  function := L.function.emit b [i] ⟨(L.registers ++ registers).length, (L.slots ++ slots).length⟩
  registers := L.registers ++ registers
  slots := L.slots ++ slots
  entries := L.entries

def close (L : Ledger) (b : Nat) (t : Terminator) : Ledger :=
  { L with function := L.function.close b t }

/-- The ledger with one more block, and what is there on entry to it. -/
def grow (L : Ledger) (label : String) (A : Set Local) : Ledger :=
  { L with function := L.function.grow label, entries := L.entries ++ [A] }

theorem le_emit {L : Ledger} {b : Nat} (isOpen : L.function.IsOpen b) (i : Instruction)
    (registers slots : List Ty) : L.Le (L.emit b i registers slots) :=
  ⟨⟨rfl, rfl, rfl⟩, List.prefix_append _ _, List.prefix_append _ _, List.prefix_rfl,
    fun h => (Function.definesAt_emit isOpen i _ _ _).mpr (.inl h)⟩

theorem le_close (L : Ledger) (b : Nat) (t : Terminator) : L.Le (L.close b t) :=
  ⟨⟨rfl, rfl, rfl⟩, List.prefix_rfl, List.prefix_rfl, List.prefix_rfl,
    fun h => (Function.definesAt_close _ _ _ _ _).mpr h⟩

theorem le_grow (L : Ledger) (label : String) (A : Set Local) : L.Le (L.grow label A) :=
  ⟨⟨rfl, rfl, rfl⟩, List.prefix_rfl, List.prefix_rfl, List.prefix_append _ _,
    fun h => (Function.definesAt_grow _ _ _ _).mpr h⟩

end Ledger

namespace Certified

variable {sig : Signatures} {globals : Nat → Option Ty} {L : Ledger}

/-- Instructions that were there before stay as good as they were. -/
theorem instruction_mono (h : Certified sig globals L) {L' : Ledger} (le : L.Le L') {p : Place}
    {i : Instruction} (hi : L.function.instructionAt? p = some i) :
    InstructionOk (L'.env sig globals) i ∧ ∀ x ∈ i.uses, x ∈ L'.availableAt p := by
  obtain ⟨ok, uses⟩ := h.instructions hi
  exact ⟨(le.env sig globals).instructionOk ok, fun x hx => le.availableAt p (uses x hx)⟩

theorem terminator_mono (h : Certified sig globals L) {L' : Ledger} (le : L.Le L') {b : Nat}
    {t : Terminator} (ht : L.function.terminatorOf? b = some t) :
    TerminatorOk (L'.env sig globals) t ∧ (∀ x ∈ t.uses, x ∈ L'.available b) ∧
      ∀ s ∈ t.successors, ∃ A, L'.Opens s A ∧ A ⊆ L'.available b := by
  obtain ⟨ok, uses, brings⟩ := h.terminators ht
  refine ⟨(le.env sig globals).terminatorOk ok, fun x hx => le.available b (uses x hx), ?_⟩
  intro s hs
  obtain ⟨A, opens, sub⟩ := brings s hs
  exact ⟨A, le.opens opens, sub.trans (le.available b)⟩

theorem emit (h : Certified sig globals L) {b : Nat} (isOpen : L.function.IsOpen b)
    {i : Instruction} {registers slots : List Ty}
    (takes : L.function.Takes i ⟨(L.registers ++ registers).length, (L.slots ++ slots).length⟩)
    (ok : InstructionOk ((L.emit b i registers slots).env sig globals) i)
    (uses : ∀ x ∈ i.uses, x ∈ L.available b) :
    Certified sig globals (L.emit b i registers slots) where
  registers := rfl
  slots := rfl
  blocks := (Function.size_emit _ _ _ _).trans h.blocks
  start := h.start
  numbered := h.numbered.emit isOpen takes
  labelled := by
    rw [Ledger.emit, Function.labels_emit]
    exact h.labelled
  instructions := by
    intro p j hj
    have le := Ledger.le_emit isOpen i registers slots
    rw [Ledger.emit, Function.instructionAt?_emit isOpen] at hj
    by_cases hp : p = L.function.endOf b
    · rw [if_pos hp] at hj
      cases hj
      exact ⟨ok, fun x hx => hp ▸ le.availableAt _ (Ledger.availableAt_endOf (uses x hx))⟩
    · rw [if_neg hp] at hj
      exact h.instruction_mono le hj
  terminators := by
    intro c t ht
    rw [Ledger.emit, Function.terminatorOf?_emit] at ht
    exact h.terminator_mono (Ledger.le_emit isOpen i registers slots) ht

theorem close (h : Certified sig globals L) {b : Nat} (isOpen : L.function.IsOpen b)
    {t : Terminator} (ok : TerminatorOk (L.env sig globals) t)
    (uses : ∀ x ∈ t.uses, x ∈ L.available b)
    (brings : ∀ s ∈ t.successors, ∃ A, L.Opens s A ∧ A ⊆ L.available b) :
    Certified sig globals (L.close b t) where
  registers := h.registers
  slots := h.slots
  blocks := (Function.size_close _ _ _).trans h.blocks
  start := h.start
  numbered := h.numbered.of_same (Function.instructionAt?_close _ _ _) rfl
  labelled := by
    rw [Ledger.close, Function.labels_close]
    exact h.labelled
  instructions := by
    intro p j hj
    rw [Ledger.close, Function.instructionAt?_close] at hj
    exact h.instruction_mono (L.le_close b t) hj
  terminators := by
    intro c t' ht
    have le := L.le_close b t
    rw [Ledger.close, Function.terminatorOf?_close isOpen] at ht
    by_cases hc : c = b
    · rw [if_pos hc] at ht
      cases ht
      subst hc
      refine ⟨(le.env sig globals).terminatorOk ok, fun x hx => le.available _ (uses x hx), ?_⟩
      intro s hs
      obtain ⟨A, opens, sub⟩ := brings s hs
      exact ⟨A, le.opens opens, sub.trans (le.available _)⟩
    · rw [if_neg hc] at ht
      exact h.terminator_mono le ht

theorem grow (h : Certified sig globals L) {label : String} (known : label ∈ blockLabels)
    (A : Set Local) : Certified sig globals (L.grow label A) where
  registers := h.registers
  slots := h.slots
  blocks := by simp [Ledger.grow, h.blocks]
  start := (L.le_grow label A).opens h.start
  numbered := h.numbered.of_same (Function.instructionAt?_grow _ _) rfl
  labelled := by
    obtain ⟨bases, labelled⟩ := h.labelled
    exact ⟨_, labelled.grow known⟩
  instructions := by
    intro p j hj
    rw [Ledger.grow, Function.instructionAt?_grow] at hj
    exact h.instruction_mono (L.le_grow label A) hj
  terminators := by
    intro c t ht
    rw [Ledger.grow, Function.terminatorOf?_grow] at ht
    exact h.terminator_mono (L.le_grow label A) ht

/-- The new block is the last one. -/
theorem opens_grow (h : Certified sig globals L) (label : String) (A : Set Local) :
    (L.grow label A).Opens L.function.blocks.size A := by
  simp [Ledger.Opens, Ledger.grow, h.blocks]

end Certified

end ImpLower.Code
