import ImpLower.Proofs.Program.Arrays

/-!
# How far a global array can be addressed

A global array is accepted as long as an unsigned word counts its elements, while its offsets are signed
words. So the elements at the positions below `2 ^ 63` have their row-major position as their offset, and
the ones from there on have a negative offset and are out of bounds, though they are part of the array.
An array has such elements exactly if there are more than `2 ^ 63` elements in it.
-/

namespace ImpLower

open Code

namespace Program

open Lower Machine Semantics Typed Typing

/-! ## Sizes of checked globals -/

/-- The sizes of a global are positive words, and its length is their product. -/
structure Measured (g : Typed.Global) : Prop where
  natural : ∀ n ∈ g.dimensions, 0 < n
  words : ∀ n ∈ g.dimensions, (Int64.ofNat n).toInt = n
  length : g.length = g.dimensions.prod
  unsigned : g.length < 2 ^ 64

theorem words_of_checksSize {Γ : Scope Symbol} {es : List Source.Expr} {ns : List Nat}
    (h : List.Forall₂ (ChecksSize Γ) es ns) : ∀ n ∈ ns, 0 < n ∧ (Int64.ofNat n).toInt = n := by
  induction h with
  | nil => exact nofun
  | cons head _ ih => exact List.forall_mem_cons.mpr ⟨⟨head.pos, head.toInt_ofNat⟩, ih⟩

theorem exists_checksGlobal {Γ : Scope Symbol} (top : Γ.inner = []) {decls : List Source.Decl}
    {ds : List Decl} (h : ChecksDecls Γ decls ds) {g : Typed.Global} (mem : g ∈ globalsOf ds) :
    ∃ Γ' decl, ChecksGlobal Γ' decl g := by
  induction decls generalizing Γ ds with
  | nil =>
      cases checksDecls_nil.mp h
      cases mem
  | cons d rest ih =>
      cases d with
      | global decl =>
          obtain ⟨g', others, checks, later, rfl⟩ := checksDecls_global.mp h
          rcases List.mem_cons.mp mem with rfl | mem
          · exact ⟨Γ, decl, checks⟩
          · exact ih (Scope.inner_push top _ _) later mem
      | function decl =>
          obtain ⟨f, others, -, later, rfl⟩ := (checksDecls_function top).mp h
          exact ih (Scope.inner_push top _ _) later mem

theorem measured_of_checked {decls : List Source.Decl} {ds : List Decl}
    (checked : checkProgram decls = .ok ds) {index : Nat} {g : Typed.Global}
    (declared : (globalsOf ds)[index]? = some g) : Measured g := by
  obtain ⟨Γ, decl, checks⟩ :=
    exists_checksGlobal rfl (checkProgram_eq_ok.mp checked) (List.mem_of_getElem? declared)
  have sizes := words_of_checksSize checks.sizes
  exact ⟨fun n mem => (sizes n mem).1, fun n mem => (sizes n mem).2, checks.length,
    checks.addressable⟩

section

variable {g : Typed.Global}

theorem Measured.positive (h : Measured g) : ∀ d ∈ g.dimensions.map Int64.ofNat, 1 ≤ d.toInt := by
  intro d mem
  obtain ⟨n, size, rfl⟩ := List.mem_map.mp mem
  have natural := h.natural n size
  rw [h.words n size]
  omega

theorem Measured.volume (h : Measured g) : volume (g.dimensions.map Int64.ofNat) = g.length := by
  have small : g.dimensions.prod < 2 ^ 64 := h.length ▸ h.unsigned
  rw [volume_dimensions small h.natural h.positive, h.length]

end

/-! ## Accesses -/

/-- The offset leads to the element of a global with the given indices if its position is below
`2 ^ 63`. From there on the offset is negative, and there is no element at it. -/
structure Locates (g : Typed.Global) (index : Nat) (indices : List Int64) (offset : Option Operand)
    (s : State) : Prop where
  inside : 0 ≤ rowMajor (g.dimensions.map Int64.ofNat) indices ∧
    rowMajor (g.dimensions.map Int64.ofNat) indices < g.length
  lower : rowMajor (g.dimensions.map Int64.ofNat) indices < 2 ^ 63 →
    ∃ n v, s.top.offset offset = .ok n ∧
      n.toInt = rowMajor (g.dimensions.map Int64.ofNat) indices ∧
      s.element (.global index) n = .ok ((rowMajor (g.dimensions.map Int64.ofNat) indices).toNat, v)
  upper : 2 ^ 63 ≤ rowMajor (g.dimensions.map Int64.ofNat) indices →
    ∃ n, s.top.offset offset = .ok n ∧
      n.toInt = rowMajor (g.dimensions.map Int64.ofNat) indices - 2 ^ 64 ∧
      s.element (.global index) n = .error (.indexOutOfBounds n.toInt g.length)

/-- The code of an access to a global within its sizes runs to a state where its offset is as stated. -/
def OffsetsOfGlobals (ds : List Decl) (m : Code.Module)
    (result : Typed.Global → Nat → List Int64 → Option Operand → State → Prop) : Prop :=
  ∀ (spot : Spot) (sc : Names) (site : Construct) (name : String) (index : Nat) (g : Typed.Global)
    (indices : List Converted), (globalsOf ds)[index]? = some g →
    sc.lookup name = some (.var (.global index) g.ty (sizeOperands g.dimensions)) →
    Known spot.draft (signaturesOf ds) sc →
    ExprOk (sc.map (symbolOf (signaturesOf ds))) (.var name g.ty indices) → indices ≠ [] →
    ∃ is o r', Emits spot sc (lowerOffset site indices (sizeOperands g.dimensions) none) is (some o)
        ⟨r', spot.slots⟩ ∧
      ∀ F p fuel levels env (s : State) values env', Poised ds spot sc is F p levels env s →
        (evalArguments (evalCall ds fuel levels) indices).exec env =
          (.ok (values.map Literal.long), env') → Within (g.dimensions.map Int64.ofNat) values →
        ∃ k s', Steps m (GlobalsTyped ds) k s s' ∧ Ready ds F sc env' (p.skip is.length) s' ∧
          result g index values (some o) s'

/-- The code of an access to a global within its sizes locates the element. -/
def LocatesGlobals (ds : List Decl) (m : Code.Module) : Prop :=
  OffsetsOfGlobals ds m Locates

theorem Counted.eq_of_sizeOperands {a : Activation} {ns : List Nat} {counts : List Int64}
    (h : Counted a (sizeOperands ns) counts) : counts = ns.map Int64.ofNat := by
  induction ns generalizing counts with
  | nil =>
      cases h
      rfl
  | cons n ns ih =>
      cases h with
      | cons read rest =>
          cases read
          rw [ih rest, List.map_cons]

section

variable {ds : List Decl} {m : Code.Module} {index : Nat} {g : Typed.Global}

/-- An offset that is the word of the position locates the element. -/
theorem locates_of_offset (measured : Measured g) {frame : Frame Variable} {s : State}
    (agree : GlobalsAgree ds frame s.globals) (declared : (globalsOf ds)[index]? = some g)
    {indices : List Int64} (within : Within (g.dimensions.map Int64.ofNat) indices)
    {offset : Option Operand}
    (read : s.top.offset offset = .ok (flatten (g.dimensions.map Int64.ofNat) indices)) :
    Locates g index indices offset s := by
  obtain ⟨x, -, found, agrees⟩ := agree.lookup declared
  have cell : s.cell (.global index) = .ok x.cell := by
    simp [State.cell, found]
  have lower := rowMajor_nonneg measured.positive within
  have upper := rowMajor_lt measured.positive within
  rw [measured.volume] at upper
  have unsigned := measured.unsigned
  have size : x.cell.size = g.length := agrees.size
  have sizes : x.sizes = g.dimensions.map Int64.ofNat := agrees.sizes
  rw [← sizes] at lower upper read
  constructor
  · rw [← sizes]
    exact ⟨lower, upper⟩
  · intro half
    rw [← sizes] at half ⊢
    obtain ⟨word, v, element⟩ := element_of_lower cell lower (by omega) half
    exact ⟨_, v, read, word, element⟩
  · intro half
    rw [← sizes] at half ⊢
    obtain ⟨word, element⟩ := element_of_upper cell half (by omega)
    exact ⟨_, read, word, by rw [element, word, size]⟩

theorem locatesGlobals (executable : Executable ds m)
    (measured : ∀ (index : Nat) (g : Typed.Global), (globalsOf ds)[index]? = some g → Measured g) :
    LocatesGlobals ds m := by
  intro spot sc site name index g indices declared bound known ok indexed
  cases ok with
  | var symbol deep integers inside =>
      obtain ⟨slot, sizes, found, rank⟩ := lookup_var_of_symbol symbol
      cases bound.symm.trans found
      obtain ⟨is, after, r', emits, code⟩ := lowerOffset_emits
        (fun c _ => exprLowers _ c.value) known inside integers (rank ▸ deep) none site
      obtain ⟨o, rfl⟩ := code.exists_of_indexed indexed
      refine ⟨is, o, r', emits, ?_⟩
      intro F p fuel levels env s values env' poised evaluates within
      obtain ⟨x, stands, -, counted, -⟩ := poised.ready.agrees.lookup bound
      obtain ⟨k, s', steps, reaches, offset, -⟩ := offset_computes
        (callsFollow executable fuel levels) code poised.placed poised.hosted poised.depth
        poised.ready bound stands evaluates
      rw [Counted.eq_of_sizeOperands counted] at offset
      exact ⟨k, s', steps, reaches.ready, locates_of_offset (measured index g declared)
        reaches.ready.agrees.globals declared within offset⟩

end

/-- The length of a checked global is the product of its sizes, all of them positive, and below `2 ^ 64`.
The code of an access within the sizes computes the row-major position of the element, and finds it
there, if the position is below `2 ^ 63`; from there on the offset is negative and out of bounds. There
are such elements exactly in the arrays of more than `2 ^ 63` elements, and too large for the checker are
only the arrays of `2 ^ 64` elements or more. -/
theorem global_elements_found_below_half {decls : List Source.Decl} {ds : List Decl}
    (checked : checkProgram decls = .ok ds) (name : String) :
    ∃ m, ((ofDecls decls).compile (Draft.new name)).1.1 = .ok m ∧
      (∀ (index : Nat) (g : Typed.Global), (globalsOf ds)[index]? = some g →
        g.length = g.dimensions.prod ∧ (∀ n ∈ g.dimensions, 1 ≤ n) ∧ g.length < 2 ^ 64 ∧
        ((∃ indices, Within (g.dimensions.map Int64.ofNat) indices ∧
            indices.length = g.dimensions.length ∧
            2 ^ 63 ≤ rowMajor (g.dimensions.map Int64.ofNat) indices) ↔ 2 ^ 63 < g.length)) ∧
      LocatesGlobals ds m ∧
      ∀ (decl : Source.VarDecl) (sizes : List Nat) (c : Checker), decl.ty ≠ .void →
        decl.dimensions ≠ [] → List.Forall₂ (ChecksSize c.scope) decl.dimensions sizes →
        (((checkGlobal decl).exec c).1 = .error ⟨.arrayTooLarge decl.name, .varDecl⟩ ↔
          2 ^ 64 ≤ sizes.prod) := by
  have measured : ∀ (index : Nat) (g : Typed.Global), (globalsOf ds)[index]? = some g → Measured g :=
    fun _ _ => measured_of_checked checked
  obtain ⟨m, done, compiled⟩ := compile_of_check (p := ofDecls decls) checked name
  refine ⟨m, done, ?_, locatesGlobals compiled.executable measured, ?_⟩
  · intro index g declared
    have shape := measured index g declared
    refine ⟨shape.length, shape.natural, shape.unsigned, ?_⟩
    have upper := exists_upper_iff shape.positive
    rw [shape.volume, List.length_map] at upper
    rw [upper]
    omega
  · intro decl sizes c storable array positive
    exact checkGlobal_tooLarge_iff storable array positive

/-- A global array of `2 ^ 62` rows with three elements each. -/
def wideProgram : List Source.Decl :=
  [.global
    { ty := .int
      name := "wide"
      dimensions := [.literal (.long 4611686018427387904), .literal (.int 3)] }]

def wideGlobal : Typed.Global :=
  ⟨"wide", .int, [4611686018427387904, 3], 13835058055282163712, none⟩

/-- The code of an access to the array runs to a state where its offset is as stated. -/
def WideAccess (m : Code.Module) (values : List Int64) (result : Operand → State → Prop) : Prop :=
  ∃ is o k n s', Emits entrySpot (soleNames wideGlobal)
      (lowerOffset .varUse (constantIndices values) (sizeOperands wideGlobal.dimensions) none) is
      (some o) k ∧
    Steps m (GlobalsTyped [.global wideGlobal]) n (entryState m (entrySpot.emit is k).function) s' ∧
    result o s'

theorem wideAccess_of_offsets {m : Code.Module}
    (compiled : Compiled wideProgram [.global wideGlobal] m)
    {result : Typed.Global → Nat → List Int64 → Option Operand → State → Prop}
    (offsets : OffsetsOfGlobals [.global wideGlobal] m result) {values : List Int64}
    (indexed : values ≠ []) (within : Within (wideGlobal.dimensions.map Int64.ofNat) values) :
    WideAccess m values fun o s => result wideGlobal 0 values (some o) s := by
  have deep : values.length ≤ wideGlobal.dimensions.length := by
    simpa using within.length_le
  obtain ⟨is, o, r', emits, runs⟩ := offsets entrySpot (soleNames wideGlobal) .varUse "wide" 0
    wideGlobal (constantIndices values) rfl rfl (known_soleNames _ _)
    (exprOk_constantIndices values deep) (by simpa [constantIndices] using indexed)
  obtain ⟨n, s', steps, -, here⟩ := runs _ ⟨0, 0⟩ 0 255 _ _ values _
    (poised_start compiled (visible_soleNames _) is _) (exec_constantIndices _ _ _) within
  exact ⟨is, o, _, n, s', emits, steps, here⟩

theorem last_within_wideGlobal :
    Within (wideGlobal.dimensions.map Int64.ofNat) [4611686018427387903, 2] :=
  .cons (by decide +kernel) (by decide +kernel) (.cons (by decide +kernel) (by decide +kernel) .nil)

/-- The second element of the array is found, and the last one is not: it stands at `3 * 2 ^ 62 - 1`. -/
theorem wide_last_element_missed :
    checkProgram wideProgram = .ok [.global wideGlobal] ∧
      ∃ m, ((ofDecls wideProgram).compile (Draft.new "main")).1.1 = .ok m ∧
        WideAccess m [0, 1] (fun o s => ∃ w v, s.top.offset (some o) = .ok w ∧ w.toInt = 1 ∧
          s.element (.global 0) w = .ok (1, v)) ∧
        WideAccess m [4611686018427387903, 2] fun o s => ∃ w, s.top.offset (some o) = .ok w ∧
          w.toInt = -4611686018427387905 ∧ s.element (.global 0) w =
            .error (.indexOutOfBounds (-4611686018427387905) 13835058055282163712) := by
  have checked : checkProgram wideProgram = .ok [.global wideGlobal] := rfl
  obtain ⟨m, done, -, locates, -⟩ := global_elements_found_below_half checked "main"
  obtain ⟨_, done', compiled⟩ := compile_of_check (p := ofDecls wideProgram) checked "main"
  cases done.symm.trans done'
  refine ⟨checked, m, done, ?_, ?_⟩
  · have second : Within (wideGlobal.dimensions.map Int64.ofNat) [0, 1] :=
      .cons (by decide +kernel) (by decide +kernel)
        (.cons (by decide +kernel) (by decide +kernel) .nil)
    obtain ⟨is, o, k, n, s', emits, steps, located⟩ :=
      wideAccess_of_offsets compiled locates (by decide) second
    obtain ⟨w, v, read, word, element⟩ := located.lower (by decide +kernel)
    exact ⟨is, o, k, n, s', emits, steps, w, v, read, word, element⟩
  · obtain ⟨is, o, k, n, s', emits, steps, located⟩ :=
      wideAccess_of_offsets compiled locates (by decide) last_within_wideGlobal
    obtain ⟨w, read, word, element⟩ := located.upper (by decide +kernel)
    have negative : w.toInt = -4611686018427387905 := word.trans (by decide +kernel)
    rw [negative] at element
    exact ⟨is, o, k, n, s', emits, steps, w, read, negative, element⟩

/-- That an array is accepted does not mean that the code of each access to one of its elements leaves
the position of the element as its offset. -/
theorem accepted_array_beyond_offsets :
    ¬ ∀ decls ds m, checkProgram decls = .ok ds →
      ((ofDecls decls).compile (Draft.new "main")).1.1 = .ok m →
      OffsetsOfGlobals ds m fun g _ indices offset s => indices.length = g.dimensions.length →
        ∃ n, s.top.offset offset = .ok n ∧
          n.toInt = rowMajor (g.dimensions.map Int64.ofNat) indices := by
  intro all
  have checked : checkProgram wideProgram = .ok [.global wideGlobal] := rfl
  obtain ⟨m, done, compiled⟩ := compile_of_check (p := ofDecls wideProgram) checked "main"
  obtain ⟨_, _, _, _, _, -, -, offset⟩ :=
    wideAccess_of_offsets compiled (all _ _ m checked done) (by decide) last_within_wideGlobal
  obtain ⟨n, -, position⟩ := offset rfl
  -- no word is as large as the position of the last element
  have large : rowMajor (wideGlobal.dimensions.map Int64.ofNat) [4611686018427387903, 2] =
      13835058055282163711 := by
    decide +kernel
  have small := n.toInt_lt
  omega

end Program

end ImpLower
