import ImpLower.Proofs.Lower.Stmt
import ImpLower.Proofs.Program.Constants
import ImpLower.Proofs.Program.Correctness
import ImpLower.Proofs.Semantics.Accesses

/-!
# Arrays are laid out in row-major order

In a compiled program an access to an array computes the row-major position of its element, exactly and
within the elements that were allocated. Accesses to different elements never meet, so a load returns
what was last stored to its element.
-/

namespace ImpLower

open Code

/-! ## Offsets that are there -/

theorem Code.OffsetCode.exists_of_passed {sig : Signatures} {sc : Names} {es : List Typed.Converted}
    {sizes : List Operand} {o : Operand} {after : Option Operand} {r r' : Nat}
    {is : List Instruction} (h : OffsetCode sig sc es sizes (some o) r is after r') :
    ∃ o', after = some o' := by
  induction es generalizing sizes o r is with
  | nil =>
      cases h
      exact ⟨_, rfl⟩
  | cons e rest ih =>
      cases h with
      | cons integer head step tail => exact ih tail

theorem Code.OffsetCode.exists_of_indexed {sig : Signatures} {sc : Names}
    {es : List Typed.Converted} {sizes : List Operand} {after : Option Operand} {r r' : Nat}
    {is : List Instruction} (h : OffsetCode sig sc es sizes none r is after r')
    (indexed : es ≠ []) : ∃ o, after = some o := by
  cases h with
  | whole => exact absurd rfl indexed
  | cons integer head step tail => exact tail.exists_of_passed

namespace Program

open Lower Machine Semantics Typed Typing

/-- The state is about to run, in the function `F`, the code that was emitted at the spot. It holds what
the environment says, and so many levels of calls are left. -/
structure Poised (ds : List Decl) (spot : Spot) (sc : Names) (is : List Instruction) (F : Function)
    (p : Place) (levels : Nat) (env : Semantics.Env) (s : State) : Prop where
  placed : Placed sc ⟨spot.registers, spot.slots⟩
  hosted : HostedAt F p is
  depth : s.depth + levels = maxDepth
  ready : Ready ds F sc env p s

/-- The code of a local array declaration allocates the array. Where its sizes are evaluated and a word
can count the elements, all of them are there, and the history of the array begins. -/
def AllocatesLocals (ds : List Decl) (m : Code.Module) : Prop :=
  ∀ (spot : Spot) (sc : Names) (v : VarDecl), Known spot.draft (signaturesOf ds) sc →
    VarOk (sc.map (symbolOf (signaturesOf ds))) v → v.dimensions ≠ [] →
    ∃ is sizes r', EmitsInto spot sc (lowerVarDecl v) is () ⟨r', spot.slots + 1⟩
        (bindStack sc v spot.slots sizes) ∧
      ∀ F p fuel levels env (s : State) counts env', Poised ds spot sc is F p levels env s →
        spot.slots < s.top.slots.size → WordSized counts →
        (evalArguments (evalCall ds fuel levels) v.dimensions).exec env =
          (.ok (counts.map Literal.long), env') →
        ∃ k s' x, Steps m (GlobalsTyped ds) k s s' ∧ x.sizes = counts ∧
          Ready ds F (bindStack sc v spot.slots sizes) (env'.push v.name x) (p.skip is.length) s' ∧
          Since m counts (s.location (.stack spot.slots)) (Literal.initial v.ty) s' []

/-- The code of an access leaves the row-major position of its element. Where the indices are evaluated
and within the sizes, and a word can count the elements, no product and no sum on the way wraps around,
and what loads or stores through the offset does so through these indices. -/
def ComputesPositions (ds : List Decl) (m : Code.Module) : Prop :=
  ∀ (spot : Spot) (sc : Names) (site : Construct) (name : String) (ty : Ty)
    (indices : List Converted), Known spot.draft (signaturesOf ds) sc →
    ExprOk (sc.map (symbolOf (signaturesOf ds))) (.var name ty indices) → indices ≠ [] →
    ∃ slot sizes is o r', sc.lookup name = some (.var slot ty sizes) ∧
      Emits spot sc (lowerOffset site indices sizes none) is (some o) ⟨r', spot.slots⟩ ∧
      ∀ F p fuel levels env (s : State) (x : Variable) values env',
        Poised ds spot sc is F p levels env s → env.lookup name = some x → WordSized x.sizes →
        (evalArguments (evalCall ds fuel levels) indices).exec env =
          (.ok (values.map Literal.long), env') → Within x.sizes values →
        ∃ s', ComputesOffset ds m F sc indices sizes none s values (some o) s' ∧
          Ready ds F sc env' (p.skip is.length) s' ∧ s'.location slot = s.location slot ∧
          Addresses s' x.sizes values (some o) ∧ 0 ≤ rowMajor x.sizes (padded x.sizes values) ∧
          rowMajor x.sizes (padded x.sizes values) < volume x.sizes ∧
          (∀ dest, HostedAt F (p.skip is.length) [.load dest slot ty (some o)] →
            Loads s' (s'.location slot) x.sizes values dest) ∧
          ∀ v value, HostedAt F (p.skip is.length) [.store slot ty (some o) v] →
            s'.top.operand v = .ok value → Stores s' (s'.location slot) x.sizes values value

section

variable {ds : List Decl} {m : Code.Module}

theorem allocatesLocals (executable : Executable ds m) : AllocatesLocals ds m := by
  intro spot sc v known ok array
  obtain ⟨is, sizes, r', emits, code, -⟩ := lowerVarDecl_emits known ok
  refine ⟨is, sizes, r', emits, ?_⟩
  intro F p fuel levels env s counts env' poised room wordSized evaluates
  obtain ⟨k, s', steps, ready, since⟩ := declaration_allocates (callsFollow executable fuel levels)
    code array poised.placed room poised.hosted poised.depth poised.ready evaluates wordSized
  exact ⟨k, s', _, steps, rfl, ready, since⟩

theorem computesPositions (executable : Executable ds m) : ComputesPositions ds m := by
  intro spot sc site name ty indices known ok indexed
  cases ok with
  | var bound deep integers inside =>
      obtain ⟨slot, sizes, found, rank⟩ := lookup_var_of_symbol bound
      obtain ⟨is, after, r', emits, code⟩ := lowerOffset_emits
        (fun c _ => exprLowers _ c.value) known inside integers (rank ▸ deep) none site
      obtain ⟨o, rfl⟩ := code.exists_of_indexed indexed
      refine ⟨slot, sizes, is, o, r', found, emits, ?_⟩
      intro F p fuel levels env s x values env' poised stands wordSized evaluates within
      obtain ⟨s', computes, reaches, addresses⟩ := offset_addresses
        (callsFollow executable fuel levels) code poised.placed poised.hosted poised.depth
        poised.ready found stands wordSized evaluates within
      have here := reaches.ready.here
      have home : s'.location slot = s.location slot := by
        cases slot with
        | stack i => rw [State.location, State.location, reaches.kept.callers]
        | global i => rfl
      rw [rowMajor_padded within]
      exact ⟨s', computes, reaches.ready, home, addresses,
        rowMajor_nonneg wordSized.positive within, rowMajor_lt wordSized.positive within,
        fun _ hosted => addresses.loads here hosted,
        fun _ _ hosted read => addresses.stores here hosted read⟩

end

/-- Arrays of a checked program are laid out in row-major order. Local arrays are allocated with all
their elements, and so are the global ones. An access computes the row-major position of its element,
with zeros for missing indices, exactly and below the number of elements. Accesses with different indices
have different offsets, so a load returns what was last stored through its indices since the
allocation. -/
theorem arrays_row_major {decls : List Source.Decl} {ds : List Decl}
    (checked : checkProgram decls = .ok ds) (name : String) :
    ∃ m, ((ofDecls decls).compile (Draft.new name)).1.1 = .ok m ∧
      AllocatesLocals ds m ∧
      (∀ (index : Nat) (g : Typed.Global) (s : State), (globalsOf ds)[index]? = some g →
        WordSized (g.dimensions.map Int64.ofNat) → s.globals = m.globals.map initialCell →
        Since m (g.dimensions.map Int64.ofNat) (.global index)
          (g.initializer.getD (Literal.initial g.ty)) s []) ∧
      ComputesPositions ds m ∧
      (∀ sizes t u s s' o o', WordSized sizes → Within sizes t → Within sizes u →
        padded sizes t ≠ padded sizes u → Addresses s sizes t o → Addresses s' sizes u o' →
        s.top.offset o ≠ s'.top.offset o') ∧
      (∀ sizes l first s h t dest, WordSized sizes → Since m sizes l first s h →
        Within sizes t → Loads s l sizes t dest →
        next m s =
          .running (s.setRegister dest ((History.latest sizes t h).getD first)).advance) := by
  obtain ⟨-, ok, -⟩ := checksDecls_annotated storable_empty rfl (checkProgram_eq_ok.mp checked)
  obtain ⟨m, done, compiled⟩ := compile_of_check (p := ofDecls decls) checked name
  refine ⟨m, done, allocatesLocals compiled.executable, ?_, computesPositions compiled.executable,
    ?_, ?_⟩
  · intro index g s declared wordSized fresh
    exact global_loaded ok compiled.executable.linked declared wordSized fresh
  · intro sizes t u s s' o o' wordSized left right apart addresses addresses' same
    exact apart (addresses.padded_eq addresses' wordSized left right same)
  · intro sizes l first s h t dest wordSized since within loads
    exact since.load wordSized loads within

/-- The names in a function after a single global. -/
def soleNames (g : Typed.Global) : Names :=
  ⟨[[]], [(g.name, .var (.global 0) g.ty (sizeOperands g.dimensions))]⟩

def constantIndices (values : List Int64) : List Converted :=
  values.map fun n => .mk (.literal (.long n)) .identity .long

/-- A run of some code in a function without parameters, about to start. -/
def entryState (m : Code.Module) (F : Function) : State :=
  ⟨m.globals.map initialCell, Activation.start F [], []⟩

section

variable {g : Typed.Global}

theorem lookup_soleNames {name : String} {st : Storage Operand Slot Nat}
    (bound : (soleNames g).lookup name = some st) :
    name = g.name ∧ st = .var (.global 0) g.ty (sizeOperands g.dimensions) := by
  by_cases same : name = g.name
  · subst same
    simp [lookup_eq_or, soleNames] at bound
    exact ⟨rfl, bound.symm⟩
  · have ne : (name == g.name) = false := beq_eq_false_iff_ne.mpr same
    simp [lookup_eq_or, soleNames, List.lookup_cons, ne] at bound

theorem known_soleNames (d : Draft) (g : Typed.Global) :
    Known d (signaturesOf [.global g]) (soleNames g) := by
  intro name f bound
  cases (lookup_soleNames bound).2

theorem visible_soleNames (g : Typed.Global) :
    Visible [.global g] { globals := (soleNames g).globals } where
  top := rfl
  var bound := by
    obtain ⟨rfl, same⟩ := lookup_soleNames bound
    cases same
    exact ⟨0, g, rfl, rfl, rfl, rfl, rfl⟩
  fn bound := by cases (lookup_soleNames bound).2

theorem ok_of_mem_constantIndices {Γ : Scope Symbol} {values : List Int64} {c : Converted}
    (mem : c ∈ constantIndices values) : c.IsIndex ∧ ExprOk Γ c.value := by
  obtain ⟨n, -, rfl⟩ := List.mem_map.mp mem
  exact ⟨⟨⟨nofun, rfl⟩, rfl, rfl⟩, .literal _⟩

theorem exprOk_constantIndices (values : List Int64) (deep : values.length ≤ g.dimensions.length) :
    ExprOk ((soleNames g).map (symbolOf (signaturesOf [.global g])))
      (.var g.name g.ty (constantIndices values)) := by
  have bound : ((soleNames g).map (symbolOf (signaturesOf [.global g]))).lookup g.name =
      some (.var g.ty g.dimensions.length) := by
    rw [Scope.lookup_map]
    simp [soleNames, lookup_eq_or, symbolOf, sizeOperands]
  exact .var bound (by simpa [constantIndices] using deep)
    (fun _ mem => (ok_of_mem_constantIndices (Γ := {}) mem).1)
    fun _ mem => (ok_of_mem_constantIndices mem).2

theorem exec_constantIndices (call : String → List Literal → Eval (Option Literal))
    (values : List Int64) (env : Semantics.Env) :
    (evalArguments call (constantIndices values)).exec env =
      (.ok (values.map Literal.long), env) := by
  induction values with
  | nil => rfl
  | cons n values ih =>
      have first : (evalConverted call (.mk (.literal (.long n)) .identity .long)).exec env =
          (.ok (.long n), env) := rfl
      rw [constantIndices, List.map_cons, evalArguments, Stateful.exec_bind_of_ok first]
      exact Stateful.exec_bind_of_ok ih

end

/-- A function starts with the globals as they are initialized, and no variables of its own. -/
theorem poised_start {decls : List Source.Decl} {ds : List Decl} {m : Code.Module}
    (compiled : Compiled decls ds m) {globals : Frame (Storage Operand Slot Nat)}
    (visible : Visible ds { globals }) (is : List Instruction) (k : Counters) :
    Poised ds entrySpot ⟨[[]], globals⟩ is (entrySpot.emit is k).function ⟨0, 0⟩ 255
      ⟨[[]], initialGlobals ds⟩ (entryState m (entrySpot.emit is k).function) where
  placed := ⟨List.cons_ne_nil _ _, nofun, List.nodup_nil⟩
  hosted := Function.hostedAt_emit entrySpot.isOpen is k
  depth := rfl
  ready := ⟨⟨.cons .nil .nil, visible, compiled.start⟩, rfl, rfl, rfl⟩

def gridProgram : List Source.Decl :=
  [.global
    { ty := .long
      name := "grid"
      dimensions := [.literal (.int 2), .literal (.int 3), .literal (.int 4)] }]

def gridGlobal : Typed.Global :=
  ⟨"grid", .long, [2, 3, 4], 24, none⟩

/-- Stores to `grid[1]` and `grid[1][2]`, and a load of `grid[1][0]`. -/
def gridAccesses : Function where
  name := "accesses"
  result := .void
  parameters := []
  blocks := #[{
    label := "entry"
    instructions := #[
      .store (.global 0) .long (some (.constant (.long 12))) (.constant (.long 7)),
      .store (.global 0) .long (some (.constant (.long 20))) (.constant (.long 9)),
      .load 0 (.global 0) .long (some (.constant (.long 12)))] }]

def gridState (cell : Cell) (next : Nat) : State where
  globals := #[cell]
  top := { Activation.start gridAccesses [] with next }

/-- The code of `grid[1][2]` computes the position 20, and a store there leaves what was stored to
`grid[1]`, which is the element with the indices 1, 0 and 0. -/
theorem grid_rows_kept_apart :
    ∃ m, ((ofDecls gridProgram).compile (Draft.new "main")).1.1 = .ok m ∧
      (∃ is o k, Emits entrySpot (soleNames gridGlobal)
          (lowerOffset .varUse (constantIndices [1, 2]) (sizeOperands [2, 3, 4]) none) is (some o) k ∧
        ∃ s', ComputesOffset [.global gridGlobal] m (entrySpot.emit is k).function
            (soleNames gridGlobal) (constantIndices [1, 2]) (sizeOperands [2, 3, 4]) none
            (entryState m (entrySpot.emit is k).function) [1, 2] (some o) s' ∧
          ∃ n, s'.top.offset (some o) = .ok n ∧ n.toInt = 20) ∧
      ∃ s, Since m [2, 3, 4] (.global 0) (.long 0) s [([1, 2], .long 9), ([1], .long 7)] ∧
        next m s = .running (s.setRegister 0 (.long 7)).advance := by
  have checked : checkProgram gridProgram = .ok [.global gridGlobal] := rfl
  obtain ⟨m, done, -, loaded, computes, -, loads⟩ := arrays_row_major checked "main"
  obtain ⟨_, done', compiled⟩ := compile_of_check (p := ofDecls gridProgram) checked "main"
  cases done.symm.trans done'
  have wordSized : WordSized [2, 3, 4] := by
    refine ⟨?_, by decide⟩
    intro d size
    simp only [List.mem_cons, List.not_mem_nil, or_false] at size
    rcases size with rfl | rfl | rfl <;> decide
  have column : Within [2, 3, 4] [1, 2] :=
    .cons (by decide) (by decide) (.cons (by decide) (by decide) .nil)
  refine ⟨m, done, ?_, ?_⟩
  · obtain ⟨slot, sizes, is, o, r', bound, emits, runs⟩ :=
      computes entrySpot (soleNames gridGlobal) .varUse "grid" .long (constantIndices [1, 2])
        (known_soleNames _ _) (exprOk_constantIndices [1, 2] (by decide)) (List.cons_ne_nil _ _)
    cases (lookup_soleNames bound).2
    obtain ⟨s', through, -, -, ⟨n, read, position⟩, -⟩ := runs _ ⟨0, 0⟩ 0 255 _ _ _ [1, 2] _
      (poised_start compiled (visible_soleNames _) is _) rfl wordSized rfl column
    exact ⟨is, o, _, emits, s', through, n, read, position.trans (by decide)⟩
  · have fresh : m.globals.map initialCell = #[Array.replicate 24 (.long 0)] := by
      apply Array.toList_inj.mp
      rw [Array.toList_map, compiled.executable.linked.globals]
      rfl
    let before := gridState (Array.replicate 24 (.long 0)) 0
    let between := gridState ((Array.replicate 24 (.long 0)).setIfInBounds 12 (.long 7)) 1
    have row : Within [2, 3, 4] [1] := .cons (by decide) (by decide) .nil
    have storesRow : Stores before (.global 0) [2, 3, 4] [1] (.long 7) :=
      ⟨_, _, _, _, rfl, rfl, ⟨12, rfl, by decide⟩, rfl⟩
    have storesColumn : Stores between (.global 0) [2, 3, 4] [1, 2] (.long 9) :=
      ⟨_, _, _, _, rfl, rfl, ⟨20, rfl, by decide⟩, rfl⟩
    have since := ((loaded 0 _ before rfl wordSized fresh.symm).stored row storesRow rfl).stored
      column storesColumn rfl
    exact ⟨_, since, loads _ _ _ _ _ [1, 0] 0 wordSized since
      (.cons (by decide) (by decide) (.cons (by decide) (by decide) .nil))
      ⟨_, _, _, rfl, rfl, ⟨12, rfl, by decide⟩⟩⟩

end Program

end ImpLower
