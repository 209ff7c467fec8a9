import ImpLower.Proofs.Semantics.Histories
import ImpLower.Proofs.Semantics.Programs

/-!
# Arrays of a program

What code does with an array. A declaration multiplies the sizes and asks for so many elements, and an
access computes an offset, both as words that wrap. Where the elements can be counted by a word, a
declaration allocates all of them, and the globals are there with all of theirs before the first call; an
access within the sizes then addresses the element with its indices, and no word wraps around on the way.
-/

namespace ImpLower.Semantics

open Code Machine Typed

section

variable {ds : List Decl} {m : Code.Module} {fuel levels : Nat}
  {call : String → List Literal → Eval (Option Literal)} {F : Function} {sc : Names} {c r r' : Nat}
  {is : List Instruction} {p : Place} {env env' : Env} {s : State} {counts indices : List Int64}

/-! ## Allocation -/

/-- The code of an array declaration evaluates the sizes and multiplies them, and ends in the allocation
of so many elements. -/
theorem declaration_reaches (calls : CallsFollow ds m fuel levels call) {v : VarDecl}
    {sizes : List Operand} (code : VarCode (signaturesOf ds) sc v c r is sizes r')
    (array : v.dimensions ≠ []) (placed : Placed sc ⟨r, c⟩) (hosted : HostedAt F p is)
    (depth : s.depth + levels = maxDepth) (ready : Ready ds F sc env p s)
    (evaluates : (evalArguments call v.dimensions).exec env = (.ok (counts.map Literal.long), env')) :
    ∃ k s' js length, is = js ++ [.alloca c v.ty length v.name] ∧ v.ty ≠ .void ∧
      Steps m (GlobalsTyped ds) k s s' ∧ Reaches ds F sc r s (p.skip js.length) env' s' ∧
      Counted s'.top sizes counts ∧ s'.top.length length =
        if elements counts < 0 then .error (.invalidLength (elements counts).toInt)
        else .ok (elements counts).toInt.toNat := by
  cases code with
  | initialized storable given scalar target code => exact absurd scalar array
  | @plain r₁ _ is js _ length storable bare integers dims count =>
      have runs := sizes_follow calls integers dims count placed (hostedAt_append.mp hosted).1 depth
        ready
      rw [evaluates] at runs
      obtain ⟨k, s', steps, _, values, reaches, counted, wrapped⟩ := runs
      cases List.map_injective_iff.mpr (fun _ _ => Literal.long.inj) values
      exact ⟨k, s', is ++ js, length, rfl, storable, steps, reaches, counted, wrapped⟩

/-- The code of an array declaration allocates all elements of the array. -/
theorem declaration_allocates (calls : CallsFollow ds m fuel levels call) {v : VarDecl}
    {sizes : List Operand} (code : VarCode (signaturesOf ds) sc v c r is sizes r')
    (array : v.dimensions ≠ []) (placed : Placed sc ⟨r, c⟩) (room : c < s.top.slots.size)
    (hosted : HostedAt F p is) (depth : s.depth + levels = maxDepth) (ready : Ready ds F sc env p s)
    (evaluates : (evalArguments call v.dimensions).exec env = (.ok (counts.map Literal.long), env'))
    (wordSized : WordSized counts) :
    ∃ k s', Steps m (GlobalsTyped ds) k s s' ∧
      Ready ds F (bindStack sc v c sizes) (env'.push v.name
        ⟨counts, Array.replicate (volume counts).toNat (Literal.initial v.ty)⟩) (p.skip is.length) s' ∧
      Since m counts (s.location (.stack c)) (Literal.initial v.ty) s' [] := by
  obtain ⟨k, s₁, js, length, rfl, storable, steps, reaches, counted, wrapped⟩ :=
    declaration_reaches calls code array placed hosted depth ready evaluates
  have last := (hostedAt_append.mp hosted).2
  have room₁ : c < s₁.top.slots.size := by
    rw [reaches.kept.size]
    exact room
  have positive := one_le_volume wordSized.positive
  have length : s₁.top.length length = .ok (volume counts).toNat := by
    have natural : ¬ elements counts < 0 := by
      rw [Int64.lt_iff_toInt_lt, wordSized.toInt_elements, Int64.toInt_zero]
      omega
    rw [wrapped, if_neg natural, wordSized.toInt_elements]
  obtain ⟨s₂, moves, ready₂, -⟩ :=
    alloca_ready (m := m) storable placed room₁ last reaches.ready counted length
  have here := instruction?_of_hosted reaches.ready.here last
  have since := Since.allocated here length (Int.toNat_of_nonneg (by omega)) moves
  refine ⟨k + 1, s₂, steps.trans (.one reaches.ready.typed moves), ?_, ?_⟩
  · rw [List.length_append, ← Place.skip_skip]
    exact ready₂
  · rw [State.location, reaches.kept.callers] at since
    exact since

theorem toInt_ofNat_of_positive {n : Nat} (small : n < 2 ^ 64) (positive : 1 ≤ (Int64.ofNat n).toInt) :
    (Int64.ofNat n).toInt = n := by
  have size : Int64.size = 2 ^ 64 := rfl
  rw [Int64.toInt_ofNat', Int.bmod, size] at positive ⊢
  split at positive <;> omega

theorem volume_dimensions {dimensions : List Nat} (small : dimensions.prod < 2 ^ 64)
    (natural : ∀ n ∈ dimensions, 0 < n)
    (positive : ∀ d ∈ dimensions.map Int64.ofNat, 1 ≤ d.toInt) :
    volume (dimensions.map Int64.ofNat) = dimensions.prod := by
  induction dimensions with
  | nil => rfl
  | cons n rest ih =>
      obtain ⟨first, others⟩ := List.forall_mem_cons.mp natural
      obtain ⟨firstWord, otherWords⟩ := List.forall_mem_cons.mp positive
      have count : 0 < rest.prod := List.prod_pos_iff_forall_pos_nat.mpr others
      rw [List.prod_cons] at small
      have word := toInt_ofNat_of_positive (by nlinarith) firstWord
      have tail := ih (by nlinarith) others otherWords
      rw [List.map_cons, volume_cons, word, tail, List.prod_cons, Nat.cast_mul]

/-- Before the first call all elements of a global are there. -/
theorem global_loaded (ok : ProgramOk ds) (linked : Linked ds m) {index : Nat} {g : Typed.Global}
    (declared : (globalsOf ds)[index]? = some g)
    (wordSized : WordSized (g.dimensions.map Int64.ofNat))
    (fresh : s.globals = m.globals.map initialCell) :
    Since m (g.dimensions.map Int64.ofNat) (.global index)
      (g.initializer.getD (Literal.initial g.ty)) s [] := by
  obtain ⟨Γ, okGlobal⟩ := globalOk_of_mem ok (List.mem_of_getElem? declared)
  have found : m.globals[index]? = some (globalOf g) := by
    rw [← Array.getElem?_toList, linked.globals, List.getElem?_map, declared]
    rfl
  have size : (initialCell (globalOf g)).size = volume (g.dimensions.map Int64.ofNat) := by
    have small : g.dimensions.prod < 2 ^ 64 := okGlobal.length ▸ okGlobal.addressable
    rw [initialCell_globalOf okGlobal, volume_dimensions small okGlobal.sizes wordSized.positive,
      ← okGlobal.length]
    simp [initialVariable]
  refine .loaded found size ?_
  rw [fresh, Array.getElem?_map, found]
  rfl

/-! ## Accesses -/

/-- The code of an access computes the offset of its element, as a word that wraps. With room for the
elements it takes exact steps only. -/
theorem offset_computes (calls : CallsFollow ds m fuel levels call) {es : List Converted}
    {name : String} {slot : Slot} {ty : Ty} {sizes : List Operand} {after : Option Operand}
    {x : Variable} (code : OffsetCode (signaturesOf ds) sc es sizes none r is after r')
    (placed : Placed sc ⟨r, c⟩) (hosted : HostedAt F p is) (depth : s.depth + levels = maxDepth)
    (ready : Ready ds F sc env p s) (bound : sc.lookup name = some (.var slot ty sizes))
    (found : env.lookup name = some x)
    (evaluates : (evalArguments call es).exec env = (.ok (indices.map Literal.long), env')) :
    ∃ k s', Steps m (GlobalsTyped ds) k s s' ∧ Reaches ds F sc r s (p.skip is.length) env' s' ∧
      s'.top.offset after = .ok (flatten x.sizes indices) ∧
      (WordSized x.sizes → Within x.sizes indices →
        ComputesOffset ds m F sc es sizes none s indices after s') := by
  obtain ⟨x', found', -, counted, -⟩ := ready.agrees.lookup bound
  cases found.symm.trans found'
  have below := ready.agrees.below placed bound
  have runs := offset_follows (fun e _ => exprFollows calls e.value) code placed hosted depth ready
    counted below .start (by simp)
  rw [evaluates] at runs
  obtain ⟨k, s', steps, reaches, _, values, offset, computes⟩ := runs
  cases List.map_injective_iff.mpr (fun _ _ => Literal.long.inj) values
  rw [Int64.zero_mul, Int64.zero_add] at offset
  exact ⟨k, s', steps, reaches, offset.eq_ok, fun wordSized => computes wordSized.roomy⟩

/-- The code of an access within the sizes computes the position of its element. -/
theorem offset_addresses (calls : CallsFollow ds m fuel levels call) {es : List Converted}
    {name : String} {slot : Slot} {ty : Ty} {sizes : List Operand} {after : Option Operand}
    {x : Variable} (code : OffsetCode (signaturesOf ds) sc es sizes none r is after r')
    (placed : Placed sc ⟨r, c⟩) (hosted : HostedAt F p is) (depth : s.depth + levels = maxDepth)
    (ready : Ready ds F sc env p s) (bound : sc.lookup name = some (.var slot ty sizes))
    (found : env.lookup name = some x) (wordSized : WordSized x.sizes)
    (evaluates : (evalArguments call es).exec env = (.ok (indices.map Literal.long), env'))
    (within : Within x.sizes indices) :
    ∃ s', ComputesOffset ds m F sc es sizes none s indices after s' ∧
      Reaches ds F sc r s (p.skip is.length) env' s' ∧ Addresses s' x.sizes indices after := by
  obtain ⟨k, s', -, reaches, offset, computes⟩ :=
    offset_computes calls code placed hosted depth ready bound found evaluates
  refine ⟨s', computes wordSized within, reaches, _, offset, ?_⟩
  rw [rowMajor_padded within]
  exact wordSized.toInt_flatten within

end

end ImpLower.Semantics
