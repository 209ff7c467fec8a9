import ImpLower.Machine.Run
import ImpLower.Proofs.Machine.Locations
import ImpLower.Proofs.Semantics.RowMajor

/-!
# Histories of arrays

The stores to an array since it was allocated, as the steps of a machine make them. A cell holds, for
each element, the value that was last stored through the indices of that element, and what it was filled
with where there was no store: stores through indices of other elements do not matter.
-/

namespace ImpLower.Semantics

open Code Machine

/-- The offset is the row-major position of the element with these indices. -/
def Addresses (s : State) (sizes indices : List Int64) (offset : Option Operand) : Prop :=
  ∃ n, s.top.offset offset = .ok n ∧ n.toInt = rowMajor sizes (padded sizes indices)

/-- The next instruction loads an element of the array at the location. -/
def Loads (s : State) (l : Location) (sizes indices : List Int64) (dest : Nat) : Prop :=
  ∃ slot ty offset, s.top.instruction? = some (.load dest slot ty offset) ∧ s.location slot = l ∧
    Addresses s sizes indices offset

/-- The next instruction stores a value to an element of the array at the location. -/
def Stores (s : State) (l : Location) (sizes indices : List Int64) (value : Literal) : Prop :=
  ∃ slot ty offset v, s.top.instruction? = some (.store slot ty offset v) ∧ s.location slot = l ∧
    Addresses s sizes indices offset ∧ s.top.operand v = .ok value

/-- Indices and values of stores, the latest first. -/
abbrev History := List (List Int64 × Literal)

/-- The value that was last stored to the element with these indices. -/
def History.latest (sizes indices : List Int64) (h : History) : Option Literal :=
  (h.find? fun e => padded sizes e.1 = padded sizes indices).map Prod.snd

/-- `Since m sizes l first s h`: when the array at `l` was allocated its elements were `first`, and on
the way to `s` the stores `h` were made to it, all of them within its sizes. The globals are allocated
before the first call, and what one call leaves in them the next call finds. -/
inductive Since (m : Code.Module) (sizes : List Int64) :
    Location → Literal → State → History → Prop
  | allocated {s s' : State} {slot n : Nat} {ty : Ty} {length : Option Operand} {name : String}
      (here : s.top.instruction? = some (.alloca slot ty length name))
      (count : s.top.length length = .ok n) (all : n = volume sizes)
      (moves : next m s = .running s') :
      Since m sizes (s.location (.stack slot)) (Literal.initial ty) s' []
  | loaded {s : State} {index : Nat} {g : Global} (declared : m.globals[index]? = some g)
      (all : (initialCell g).size = volume sizes)
      (untouched : s.globals[index]? = some (initialCell g)) :
      Since m sizes (.global index) (g.initializer.getD (Literal.initial g.ty)) s []
  | resumed {s s' : State} {index : Nat} {first : Literal} {h : History}
      (before : Since m sizes (.global index) first s h) (globals : s'.globals = s.globals) :
      Since m sizes (.global index) first s' h
  | moved {s s' : State} {l : Location} {first : Literal} {h : History}
      (before : Since m sizes l first s h) (moves : next m s = .running s') (alive : l.Alive s')
      (untouched : ¬ s.Touches l) : Since m sizes l first s' h
  | stored {s s' : State} {l : Location} {first value : Literal} {h : History}
      {indices : List Int64} (before : Since m sizes l first s h) (within : Within sizes indices)
      (stores : Stores s l sizes indices value) (moves : next m s = .running s') :
      Since m sizes l first s' ((indices, value) :: h)

/-- The cell holds what the history says. -/
structure Holds (sizes : List Int64) (first : Literal) (h : History) (cell : Cell) : Prop where
  size : cell.size = volume sizes
  element : ∀ indices, Within sizes indices →
    cell[(rowMajor sizes indices).toNat]? = some ((h.latest sizes indices).getD first)

section

variable {m : Code.Module} {sizes indices : List Int64} {first value : Literal} {h : History}
  {cell : Cell} {s s' : State} {l : Location}

/-! ## Cells -/

/-- The position of an element is a natural number below the size of the cell. -/
theorem position_lt (wordSized : WordSized sizes) (size : cell.size = volume sizes)
    (within : Within sizes indices) : (rowMajor sizes indices).toNat < cell.size := by
  have lower := rowMajor_nonneg wordSized.positive within
  have upper := rowMajor_lt wordSized.positive within
  omega

theorem holds_replicate (wordSized : WordSized sizes) {n : Nat} (all : n = volume sizes)
    (first : Literal) : Holds sizes first [] (Array.replicate n first) := by
  have size : (Array.replicate n first).size = volume sizes := by rw [Array.size_replicate, all]
  refine ⟨size, fun indices within => ?_⟩
  have lt := position_lt wordSized size within
  rw [Array.size_replicate] at lt
  rw [Array.getElem?_replicate, if_pos lt]
  rfl

theorem latest_cons_self (sizes indices : List Int64) (value : Literal) (h : History)
    {other : List Int64} (same : padded sizes indices = padded sizes other) :
    History.latest sizes other ((indices, value) :: h) = some value := by
  simp [History.latest, same]

theorem latest_cons_of_ne (value : Literal) (h : History) {other : List Int64}
    (ne : padded sizes indices ≠ padded sizes other) :
    History.latest sizes other ((indices, value) :: h) = h.latest sizes other := by
  simp [History.latest, ne]

/-- A store changes one element; the positions of all others differ from its own. -/
theorem Holds.store (holds : Holds sizes first h cell) (wordSized : WordSized sizes)
    (within : Within sizes indices) (value : Literal) :
    Holds sizes first ((indices, value) :: h)
      (cell.setIfInBounds (rowMajor sizes indices).toNat value) := by
  refine ⟨by rw [Array.size_setIfInBounds, holds.size], fun other within' => ?_⟩
  have lt := position_lt wordSized holds.size within
  by_cases same : padded sizes indices = padded sizes other
  · have position : rowMajor sizes indices = rowMajor sizes other := by
      rw [← rowMajor_padded within, same, rowMajor_padded within']
    rw [latest_cons_self sizes indices value h same, ← position,
      Array.getElem?_setIfInBounds_self_of_lt lt]
    rfl
  · have apart : (rowMajor sizes indices).toNat ≠ (rowMajor sizes other).toNat := by
      intro position
      have lower := rowMajor_nonneg wordSized.positive within
      have lower' := rowMajor_nonneg wordSized.positive within'
      exact same (padded_eq_of_rowMajor wordSized.positive within within' (by omega))
    rw [latest_cons_of_ne value h same, Array.getElem?_setIfInBounds_ne apart]
    exact holds.element other within'

/-! ## Accesses -/

/-- Where the offset addresses an element, the machine finds it. -/
theorem Addresses.element {slot : Slot} {offset : Option Operand}
    (addresses : Addresses s sizes indices offset) (wordSized : WordSized sizes)
    (within : Within sizes indices) (found : s.cellAt (s.location slot) = some cell)
    (holds : Holds sizes first h cell) :
    ∃ n, s.top.offset offset = .ok n ∧ s.element slot n =
      .ok ((rowMajor sizes indices).toNat, (h.latest sizes indices).getD first) := by
  obtain ⟨n, read, position⟩ := addresses
  have lower := rowMajor_nonneg wordSized.positive within
  rw [rowMajor_padded within] at position
  exact ⟨n, read, element_of_cellAt found (by omega) (holds.element indices within)⟩

/-- Offsets that are the same address the same element. -/
theorem Addresses.padded_eq {other : List Int64} {offset offset' : Option Operand}
    (left : Addresses s sizes indices offset) (right : Addresses s' sizes other offset')
    (wordSized : WordSized sizes) (within : Within sizes indices) (within' : Within sizes other)
    (same : s.top.offset offset = s'.top.offset offset') :
    padded sizes indices = padded sizes other := by
  obtain ⟨n, read, position⟩ := left
  obtain ⟨n', read', position'⟩ := right
  have word : n = n' := Except.ok.inj (read.symm.trans (same.trans read'))
  rw [rowMajor_padded within] at position
  rw [rowMajor_padded within'] at position'
  exact padded_eq_of_rowMajor wordSized.positive within within'
    (position.symm.trans (word ▸ position'))

theorem Addresses.loads {F : Function} {p : Place} {slot : Slot} {ty : Ty} {offset : Option Operand}
    {dest : Nat} (addresses : Addresses s sizes indices offset) (here : At F p s)
    (hosted : HostedAt F p [.load dest slot ty offset]) :
    Loads s (s.location slot) sizes indices dest :=
  ⟨slot, ty, offset, instruction?_of_hosted here hosted, rfl, addresses⟩

theorem Addresses.stores {F : Function} {p : Place} {slot : Slot} {ty : Ty} {offset : Option Operand}
    {v : Operand} (addresses : Addresses s sizes indices offset) (here : At F p s)
    (hosted : HostedAt F p [.store slot ty offset v]) (read : s.top.operand v = .ok value) :
    Stores s (s.location slot) sizes indices value :=
  ⟨slot, ty, offset, v, instruction?_of_hosted here hosted, rfl, addresses, read⟩

theorem next_of_loads {dest : Nat} (loads : Loads s l sizes indices dest)
    (wordSized : WordSized sizes) (within : Within sizes indices) (found : s.cellAt l = some cell)
    (holds : Holds sizes first h cell) :
    next m s = .running (s.setRegister dest ((h.latest sizes indices).getD first)).advance := by
  obtain ⟨slot, ty, offset, here, rfl, addresses⟩ := loads
  obtain ⟨n, read, element⟩ := addresses.element wordSized within found holds
  rw [next_of_instruction here, execInstruction, read]
  show s.attempt (s.element slot n) _ = _
  rw [element, State.attempt]

theorem cellAt_of_stores (stores : Stores s l sizes indices value) (wordSized : WordSized sizes)
    (within : Within sizes indices) (found : s.cellAt l = some cell)
    (holds : Holds sizes first h cell) (moves : next m s = .running s') :
    s'.cellAt l = some (cell.setIfInBounds (rowMajor sizes indices).toNat value) := by
  obtain ⟨slot, ty, offset, v, here, rfl, addresses, operand⟩ := stores
  obtain ⟨n, read, element⟩ := addresses.element wordSized within found holds
  have writes : next m s =
      .running (s.write slot (rowMajor sizes indices).toNat value).advance := by
    rw [next_of_instruction here, execInstruction, read, operand]
    show s.attempt (do return ((← s.element slot n).1, value)) _ = _
    rw [element]
    rfl
  rw [writes] at moves
  cases moves
  exact cellAt_write_self found _ value

/-! ## Runs -/

theorem cellAt_of_alloca {slot n : Nat} {ty : Ty} {length : Option Operand} {name : String}
    (here : s.top.instruction? = some (.alloca slot ty length name))
    (count : s.top.length length = .ok n) (moves : next m s = .running s') :
    s'.cellAt (s.location (.stack slot)) = some (Array.replicate n (Literal.initial ty)) := by
  rw [next_of_instruction here, execInstruction, count, State.attempt] at moves
  split at moves
  · next fits =>
      cases moves
      exact cellAt_allocate fits _
  · cases moves

/-- Step by step the cell of an array holds what the history says. -/
theorem Since.holds (since : Since m sizes l first s h) (wordSized : WordSized sizes) :
    ∃ cell, s.cellAt l = some cell ∧ Holds sizes first h cell := by
  induction since with
  | allocated here count all moves =>
      exact ⟨_, cellAt_of_alloca here count moves, holds_replicate wordSized all _⟩
  | @loaded s index g declared all untouched =>
      rw [initialCell, Array.size_replicate] at all
      exact ⟨_, untouched, holds_replicate wordSized all _⟩
  | resumed before globals ih =>
      obtain ⟨cell, found, holds⟩ := ih
      refine ⟨cell, ?_, holds⟩
      rw [State.cellAt, globals]
      exact found
  | moved before moves alive untouched ih =>
      obtain ⟨cell, found, holds⟩ := ih
      exact ⟨cell, cellAt_of_untouched moves alive found untouched, holds⟩
  | stored before within stores moves ih =>
      obtain ⟨cell, found, holds⟩ := ih
      exact ⟨_, cellAt_of_stores stores wordSized within found holds moves,
        holds.store wordSized within _⟩

theorem Since.load (since : Since m sizes l first s h) (wordSized : WordSized sizes) {dest : Nat}
    (loads : Loads s l sizes indices dest) (within : Within sizes indices) :
    next m s = .running (s.setRegister dest ((h.latest sizes indices).getD first)).advance := by
  obtain ⟨cell, found, holds⟩ := since.holds wordSized
  exact next_of_loads loads wordSized within found holds

end

end ImpLower.Semantics
