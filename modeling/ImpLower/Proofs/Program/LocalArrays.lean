import ImpLower.Proofs.Program.Arrays

/-!
# How many elements a local array gets

The sizes of a local array are multiplied as words when its declaration runs, and only the sign of the
product is looked at. So the array gets what wrapping leaves of the product of its sizes. This is the
product where it fits in a word and is not negative, and nowhere else; a size may be negative too, if
another one makes up for it.
-/

namespace ImpLower

open Code

namespace Program

open Lower Machine Semantics Typed Typing

/-! ## Outcomes of an allocation -/

/-- The machine allocates the slot next, with so many initial elements. -/
def Allocates (m : Code.Module) (slot : Nat) (ty : Ty) (n : Nat) (s : State) : Prop :=
  ∃ s', next m s = .running s' ∧ s'.cell (.stack slot) = .ok (Array.replicate n (Literal.initial ty))

/-- The machine stops next, since it cannot allocate so many elements. -/
def RefusesLength (m : Code.Module) (n : Int) (s : State) : Prop :=
  next m s = .trapped (.invalidLength n) s.globals

/-- The slot is allocated with what wrapping leaves of the product of the sizes, or refused for it. -/
structure WrapsLength (m : Code.Module) (slot : Nat) (ty : Ty) (counts : List Int64) (s : State) :
    Prop where
  allocates : ∀ n, Allocates m slot ty n s ↔ (n : Int) = wrapped (volume counts)
  refuses : ∀ n, RefusesLength m n s ↔ n < 0 ∧ n = wrapped (volume counts)

section

variable {m : Code.Module} {slot : Nat} {ty : Ty} {counts : List Int64} {s : State}

theorem wrapsLength_of_trapped (negative : wrapped (volume counts) < 0)
    (traps : next m s = .trapped (.invalidLength (wrapped (volume counts))) s.globals) :
    WrapsLength m slot ty counts s where
  allocates n := by
    constructor
    · rintro ⟨s', moves, -⟩
      cases traps.symm.trans moves
    · intro count
      omega
  refuses n := by
    constructor
    · intro refused
      cases traps.symm.trans refused
      exact ⟨negative, rfl⟩
    · rintro ⟨-, rfl⟩
      exact traps

theorem wrapsLength_of_running (natural : 0 ≤ wrapped (volume counts)) {s' : State}
    (moves : next m s = .running s') (cell : s'.cell (.stack slot) =
      .ok (Array.replicate (wrapped (volume counts)).toNat (Literal.initial ty))) :
    WrapsLength m slot ty counts s where
  allocates n := by
    constructor
    · rintro ⟨_, moves', cell'⟩
      cases moves.symm.trans moves'
      have same := congrArg Array.size (Except.ok.inj (cell.symm.trans cell'))
      rw [Array.size_replicate, Array.size_replicate] at same
      omega
    · intro count
      have same : (wrapped (volume counts)).toNat = n := by omega
      exact ⟨s', moves, same ▸ cell⟩
  refuses n := by
    constructor
    · intro refused
      cases moves.symm.trans refused
    · rintro ⟨negative, rfl⟩
      omega

/-- The array has as many elements as its sizes say exactly if a word can count them. -/
theorem WrapsLength.exact_iff (h : WrapsLength m slot ty counts s) :
    (∃ n, Allocates m slot ty n s ∧ (n : Int) = volume counts) ↔
      0 ≤ volume counts ∧ volume counts ≤ 2 ^ 63 - 1 := by
  constructor
  · rintro ⟨n, allocates, exact⟩
    have same := (h.allocates n).mp allocates
    have fits := wrapped_eq_self_iff.mp (same.symm.trans exact)
    exact ⟨by omega, fits.2⟩
  · rintro ⟨natural, small⟩
    have same : wrapped (volume counts) = volume counts :=
      wrapped_eq_self_iff.mpr ⟨by omega, small⟩
    refine ⟨(volume counts).toNat, (h.allocates _).mpr ?_, by omega⟩
    omega

/-- A negative product is refused by its value exactly if it fits in a word. -/
theorem WrapsLength.refuses_iff (h : WrapsLength m slot ty counts s) :
    RefusesLength m (volume counts) s ↔ -2 ^ 63 ≤ volume counts ∧ volume counts < 0 := by
  rw [h.refuses, and_comm, eq_comm, wrapped_eq_self_iff]
  omega

end

/-! ## Declarations -/

/-- The code of a local array declaration runs to its allocation once the sizes are evaluated. The array
gets what wrapping leaves of their product, or is refused. -/
def WrapsLocals (ds : List Decl) (m : Code.Module) : Prop :=
  ∀ (spot : Spot) (sc : Names) (v : VarDecl), Known spot.draft (signaturesOf ds) sc →
    VarOk (sc.map (symbolOf (signaturesOf ds))) v → v.dimensions ≠ [] →
    ∃ is sizes r', EmitsInto spot sc (lowerVarDecl v) is () ⟨r', spot.slots + 1⟩
        (bindStack sc v spot.slots sizes) ∧
      ∀ F p fuel levels env (s : State) counts env', Poised ds spot sc is F p levels env s →
        spot.slots < s.top.slots.size →
        (evalArguments (evalCall ds fuel levels) v.dimensions).exec env =
          (.ok (counts.map Literal.long), env') →
        ∃ k s₁ length, Steps m (GlobalsTyped ds) k s s₁ ∧
          s₁.top.instruction? = some (.alloca spot.slots v.ty length v.name) ∧
          WrapsLength m spot.slots v.ty counts s₁ ∧
          ((∃ n, Allocates m spot.slots v.ty n s₁ ∧ (n : Int) = volume counts) ↔
            0 ≤ volume counts ∧ volume counts ≤ 2 ^ 63 - 1) ∧
          (RefusesLength m (volume counts) s₁ ↔ -2 ^ 63 ≤ volume counts ∧ volume counts < 0) ∧
          ∀ s₂, next m s₁ = .running s₂ → ∃ x : Variable, x.sizes = counts ∧
            x.cell.size = wrapped (volume counts) ∧
            Ready ds F (bindStack sc v spot.slots sizes) (env'.push v.name x) (p.skip is.length) s₂

section

variable {ds : List Decl} {m : Code.Module} {F : Function} {sc : Names} {c r : Nat} {p : Place}
  {env : Semantics.Env} {s : State} {counts : List Int64} {v : VarDecl} {sizes : List Operand}
  {length : Option Operand}

theorem alloca_wraps (storable : v.ty ≠ .void) (placed : Placed sc ⟨r, c⟩)
    (room : c < s.top.slots.size) (hosted : HostedAt F p [.alloca c v.ty length v.name])
    (ready : Ready ds F sc env p s) (counted : Counted s.top sizes counts)
    (count : s.top.length length =
      if elements counts < 0 then .error (.invalidLength (elements counts).toInt)
      else .ok (elements counts).toInt.toNat) :
    WrapsLength m c v.ty counts s ∧
      ∀ s', next m s = .running s' → ∃ x : Variable, x.sizes = counts ∧
        x.cell.size = wrapped (volume counts) ∧
        Ready ds F (bindStack sc v c sizes) (env.push v.name x) (p.skip 1) s' := by
  simp only [Int64.lt_iff_toInt_lt, toInt_elements, Int64.toInt_zero] at count
  by_cases negative : wrapped (volume counts) < 0
  · rw [if_pos negative] at count
    have traps : next m s = .trapped (.invalidLength (wrapped (volume counts))) s.globals := by
      rw [next_of_hosted ready.here hosted, execInstruction, count, State.attempt]
    refine ⟨wrapsLength_of_trapped negative traps, ?_⟩
    intro s' moves
    cases traps.symm.trans moves
  · rw [if_neg negative] at count
    obtain ⟨s', moves, ready', -⟩ :=
      alloca_ready (m := m) storable placed room hosted ready counted count
    obtain ⟨x, found, cell, -⟩ := ready'.agrees.lookup (Scope.lookup_push_self _ _ _)
    cases (Scope.lookup_push_self _ _ _).symm.trans found
    refine ⟨wrapsLength_of_running (by omega) moves cell, ?_⟩
    intro _ moves'
    cases moves.symm.trans moves'
    refine ⟨_, rfl, ?_, ready'⟩
    rw [Array.size_replicate]
    omega

theorem wrapsLocals (executable : Executable ds m) : WrapsLocals ds m := by
  intro spot sc v known ok array
  obtain ⟨is, sizes, r', emits, code, -⟩ := lowerVarDecl_emits known ok
  refine ⟨is, sizes, r', emits, ?_⟩
  intro F p fuel levels env s counts env' poised room evaluates
  obtain ⟨k, s₁, js, length, rfl, storable, steps, reaches, counted, count⟩ :=
    declaration_reaches (callsFollow executable fuel levels) code array poised.placed poised.hosted
      poised.depth poised.ready evaluates
  have last := (hostedAt_append.mp poised.hosted).2
  have room₁ : spot.slots < s₁.top.slots.size := by
    rw [reaches.kept.size]
    exact room
  obtain ⟨wraps, onward⟩ :=
    alloca_wraps (m := m) storable poised.placed room₁ last reaches.ready counted count
  refine ⟨k, s₁, length, steps, instruction?_of_hosted reaches.ready.here last, wraps,
    wraps.exact_iff, wraps.refuses_iff, ?_⟩
  rw [List.length_append, ← Place.skip_skip]
  exact onward

end

/-- The local arrays of a checked program get what wrapping leaves of the product of their sizes. They
have as many elements as their sizes say exactly if this number is not negative and fits in a word, and
are refused by the product of their sizes exactly if it is negative and fits in a word. -/
theorem local_lengths_wrap_around {decls : List Source.Decl} {ds : List Decl}
    (checked : checkProgram decls = .ok ds) (name : String) :
    ∃ m, ((ofDecls decls).compile (Draft.new name)).1.1 = .ok m ∧ WrapsLocals ds m := by
  obtain ⟨m, done, compiled⟩ := compile_of_check (p := ofDecls decls) checked name
  exact ⟨m, done, wrapsLocals compiled.executable⟩

/-- A function that stores 1 to the first element of a local array and 7 to another one, and returns
the first. The sizes multiply to `2 ^ 64 + 2`. -/
def overlapProgram : List Source.Decl :=
  [.function
    { result := .int
      name := "main"
      parameters := []
      body := [
        .declare
          { ty := .int
            name := "a"
            dimensions := [.literal (.int 3), .literal (.long 6148914691236517206)] },
        .eval (.assign "a" [.literal (.int 0), .literal (.int 0)] (.literal (.int 1))),
        .eval (.assign "a" [.literal (.int 2), .literal (.long 6148914691236517204)]
          (.literal (.int 7))),
        .ret (some (.var "a" [.literal (.int 0), .literal (.int 0)]))] }]

def arrayOf (counts : List Int64) : VarDecl :=
  ⟨"a", .int, constantIndices counts, none⟩

/-- From the start of a function, the code of the declaration runs to a state of that kind. -/
def DeclarationReaches (ds : List Decl) (m : Code.Module) (counts : List Int64)
    (result : State → Prop) : Prop :=
  ∃ is k sc' n s₁, EmitsInto entrySpot ⟨[[]], []⟩ (lowerVarDecl (arrayOf counts)) is () k sc' ∧
    Steps m (GlobalsTyped ds) n (entryState m (entrySpot.emit is k).function) s₁ ∧ result s₁

theorem visible_nothing (ds : List Decl) : Visible ds {} where
  top := rfl
  var := nofun
  fn := nofun

theorem varOk_arrayOf {Γ : Scope Symbol} (fresh : Γ.declaresInCurrent "a" = false)
    (counts : List Int64) : VarOk Γ (arrayOf counts) where
  storable := nofun
  fresh := fresh
  sizes _ mem := ok_of_mem_constantIndices mem
  initial := nofun

/-- Sizes whose product is 6 or -6 are taken as they are. Of the sizes -1 and -1 comes an array with one
element, and of sizes that multiply to `2 ^ 64 + 2` one with two elements. -/
theorem lengths_of_small_and_large_products :
    ∃ ds m, checkProgram overlapProgram = .ok ds ∧
      ((ofDecls overlapProgram).compile (Draft.new "main")).1.1 = .ok m ∧
      DeclarationReaches ds m [2, 3] (Allocates m 0 .int 6) ∧
      DeclarationReaches ds m [2, -3] (RefusesLength m (-6)) ∧
      DeclarationReaches ds m [-1, -1] (Allocates m 0 .int 1) ∧
      DeclarationReaches ds m [3, 6148914691236517206] (Allocates m 0 .int 2) := by
  obtain ⟨ds, checked⟩ : ∃ ds, checkProgram overlapProgram = .ok ds := ⟨_, rfl⟩
  obtain ⟨m, done, wraps⟩ := local_lengths_wrap_around checked "main"
  obtain ⟨_, done', compiled⟩ := compile_of_check (p := ofDecls overlapProgram) checked "main"
  cases done.symm.trans done'
  have reached : ∀ {counts : List Int64} {result : State → Prop}, counts ≠ [] →
      (∀ s, WrapsLength m 0 .int counts s → result s) → DeclarationReaches ds m counts result := by
    intro counts result several implies
    obtain ⟨is, sizes, r', emits, runs⟩ := wraps entrySpot ⟨[[]], []⟩ (arrayOf counts) nofun
      (varOk_arrayOf rfl counts) (by simpa [arrayOf, constantIndices] using several)
    have poised := poised_start compiled (visible_nothing ds) is ⟨r', entrySpot.slots + 1⟩
    obtain ⟨n, s₁, length, steps, -, wrapped, -⟩ :=
      runs _ ⟨0, 0⟩ 0 255 _ _ counts _ poised Nat.zero_lt_one (exec_constantIndices _ _ _)
    exact ⟨is, _, _, n, s₁, emits, steps, implies s₁ wrapped⟩
  refine ⟨ds, m, checked, done, ?_, ?_, ?_, ?_⟩
  · exact reached (by decide) fun s wrapped => (wrapped.allocates 6).mpr (by decide +kernel)
  · exact reached (by decide) fun s wrapped => (wrapped.refuses (-6)).mpr (by decide +kernel)
  · exact reached (by decide) fun s wrapped => (wrapped.allocates 1).mpr (by decide +kernel)
  · exact reached (by decide) fun s wrapped => (wrapped.allocates 2).mpr (by decide +kernel)

def mainAnswer (decls : List Source.Decl) : Option (Except Trap (Option Literal)) :=
  match ((ofDecls decls).compile (Draft.new "main")).1.1 with
  | .ok m => some ((Machine.new m 100).answer ⟨"main", []⟩)
  | .error _ => none

/-- Sizes whose product is beyond a word need not be refused: two elements of the array are then the
same, and the one that was stored to last is returned. -/
theorem overlapping_elements_answered :
    2 ^ 63 - 1 < volume [3, 6148914691236517206] ∧
      mainAnswer overlapProgram = some (.ok (some (.int 7))) := by
  decide +kernel

end Program

end ImpLower
