import ImpLower.Proofs.Lower.Certification.Stmt
import ImpLower.Proofs.Lower.Decl

/-!
# Code of functions is certified

A function starts with an empty entry block, in which nothing is there yet, and is certified as it
grows. Declarations are lowered one after the other and leave the functions before them alone, so
every function of a program is certified against the functions and globals of the whole program.
-/

namespace ImpLower.Lower

open Code Typed Stateful

/-! ## Bodies of functions -/

section

variable {S : Setting} {L : Ledger} {b : Nat} {sc : Names}

/-- Parameters are spilled into slots of their own, at the types of the function's header. -/
theorem runs_lowerParameters {decls : List VarDecl} {Γ : Scope Symbol} {n : Nat}
    (sees : S.Sees L (L.available b) sc)
    (ok : ParametersOk (sc.map (symbolOf S.signatures)) decls Γ)
    (header : L.function.parameters.drop n = decls.map VarDecl.ty) :
    Runs S (lowerParameters decls ((List.range' n decls.length).map Operand.parameter)) L b sc
      fun a L' b' sc' => b = b' ∧ Leads S (L.available b) Γ a L' b' sc' := by
  induction decls generalizing L sc n with
  | nil =>
      cases ok
      rw [lowerParameters.eq_def]
      exact .pure ⟨rfl, Set.Subset.rfl, sees, rfl⟩
  | cons v rest ih =>
      cases ok with
      | cons ok scalar plain tail =>
          have type : L.function.parameters[n]? = some v.ty := by
            rw [← List.head?_drop, header]
            rfl
          have header' : L.function.parameters.drop (n + 1) = rest.map VarDecl.ty := by
            rw [← List.tail_drop, header]
            rfl
          rw [List.length_cons, List.range'_succ, List.map_cons, lowerParameters]
          refine (runs_alloca holds_none v.name).bind ?_
          rintro slot L₁ _ _ le₁ ⟨rfl, rfl, stored, there⟩
          have passed : S.Holds L₁ (L₁.available b) (.parameter n) v.ty :=
            ⟨(Setting.env_le le₁).operand? type, by simp [Operand.locals]⟩
          refine (runs_store stored there holds_none passed).bind ?_
          rintro _ L₂ _ _ le₂ ⟨rfl, rfl, -⟩
          have le := le₁.trans le₂
          have visible : S.Sees L₂ (L₂.available b) (sc.push v.name (.var slot v.ty [])) :=
            (sees.stays le).push ((Setting.env_le le₂).storage? stored)
              (fun x hx => le₂.available b (there x hx)) (by simp) v.name
          have names : (sc.push v.name (.var slot v.ty [])).map (symbolOf S.signatures) =
              bindVar (sc.map (symbolOf S.signatures)) v := by
            simp [bindVar, symbolOf, scalar]
          refine runs_declare.bind ?_
          rintro _ _ _ _ _ ⟨rfl, rfl, rfl⟩
          refine (ih visible (names ▸ tail) (le.header.2.2 ▸ header')).mono ?_
          rintro _ L₃ _ sc₃ le₃ ⟨rfl, sub, sees₃, names₃⟩
          exact ⟨rfl, (le.available b).trans sub, sees₃, names₃⟩

theorem runs_closeFunction :
    Runs S (closeFunction S.result : Lower Draft Operand Slot Nat Unit) L b sc
      fun _ _ _ sc' => sc = sc' := by
  rw [closeFunction]
  refine runs_isClosed.bind ?_
  rintro closed L₁ _ _ le₁ ⟨rfl, rfl, -⟩
  refine .ite (.pure rfl) ?_
  by_cases void : S.result = .void
  · rw [if_pos void]
    exact (runs_retVoid void).mono fun _ _ _ _ _ h => h.2.1
  · rw [if_neg void]
    exact runs_unreachable.mono fun _ _ _ _ _ h => h.2.1

theorem runs_parameters :
    Runs S (parameters S.index : Lower Draft Operand Slot Nat (List Operand)) L b sc
      (Stays b sc fun vs L' =>
        vs = (List.range' 0 L'.function.parameters.length).map Operand.parameter) := by
  intro certifies vs t run
  cases run
  refine ⟨L, b, sc, rfl, .refl _, certifies, rfl, rfl, ?_⟩
  simp [Draft.parameters, Setting.state, atEnd, Draft.focus, certifies.hosts.lt,
    List.range_eq_range']

end

/-- The body of a function, from its entry block. -/
theorem runs_function {S : Setting} {L : Ledger} {b : Nat} {sc : Names} {fd : FnDecl}
    {Γ₁ Γ₂ : Scope Symbol} (sees : S.Sees L (L.available b) sc)
    (parameters : ParametersOk (sc.map (symbolOf S.signatures)).enter fd.parameters Γ₁)
    (body : BlockOk S.result Γ₁ fd.body Γ₂)
    (header : L.function.parameters = fd.parameters.map VarDecl.ty) :
    Runs S (withFrame (do
      lowerParameters fd.parameters (← Lower.parameters S.index)
      lowerBlock fd.body
      closeFunction S.result) : Lower Draft Operand Slot Nat Unit) L b sc
      fun _ _ _ sc' => sc = sc' := by
  have inside : Runs S (do
      lowerParameters fd.parameters (← Lower.parameters S.index)
      lowerBlock fd.body
      closeFunction S.result : Lower Draft Operand Slot Nat Unit) L b sc.enter
      fun _ _ _ _ => True := by
    refine runs_parameters.bind ?_
    rintro vs L₁ _ _ le₁ ⟨rfl, rfl, rfl⟩
    have header₁ : L₁.function.parameters = fd.parameters.map VarDecl.ty :=
      le₁.header.2.2.symm.trans header
    rw [header₁, List.length_map]
    refine (runs_lowerParameters (sees.stays le₁).enter (by simpa using parameters)
      (List.drop_zero.trans header₁)).bind ?_
    rintro _ L₂ _ sc₂ le₂ ⟨rfl, -, sees₂, rfl⟩
    refine (blockCertified fd.body sees₂ body).bind fun _ L₃ b₃ sc₃ _ _ => ?_
    exact runs_closeFunction.mono fun _ _ _ _ _ _ => trivial
  have grows := functionBody_grows (σ := Draft) fd.parameters fd.body S.result S.index
  exact (runs_withFrame (inside.gains grows)).mono fun _ _ _ _ _ h => h.1

/-! ## Functions -/

def globalTypesOf (ds : List Decl) : Nat → Option Ty :=
  fun i => (globalsOf ds)[i]?.map Typed.Global.ty

/-- At top level, names stand for globals and functions, which are there everywhere. -/
theorem sees_of_visible {S : Setting} {ds : List Decl} {sc : Names} (visible : Visible ds sc)
    (known : Known S.draft S.signatures sc) (globals : S.globals = globalTypesOf ds) (L : Ledger)
    (A : Set Local) : S.Sees L A sc where
  known := known
  var := by
    intro name slot ty sizes hl
    obtain ⟨i, g, rfl, found, -, rfl, rfl⟩ := visible.var hl
    refine ⟨?_, by simp [Slot.locals], ?_⟩
    · show S.globals i = some g.ty
      rw [globals, globalTypesOf, found]
      rfl
    · intro n hn
      obtain ⟨size, -, rfl⟩ := List.mem_map.mp hn
      exact S.holds_constant L A _

def entryLedger (fd : FnDecl) : Ledger where
  function := (bareFunction fd).grow "entry"
  registers := []
  slots := []
  entries := [∅]

theorem certified_entry (sig : Signatures) (globals : Nat → Option Ty) (fd : FnDecl) :
    Certified sig globals (entryLedger fd) := by
  have empty : ∀ p, (entryLedger fd).function.instructionAt? p = none := by
    intro p
    rw [entryLedger, Function.instructionAt?_grow]
    simp [bareFunction, Function.instructionAt?]
  have nowhere : ∀ p x, ¬ (entryLedger fd).function.DefinesAt p x := by
    rintro p x ⟨i, hi, -⟩
    cases (empty p).symm.trans hi
  refine ⟨rfl, rfl, rfl, rfl, ⟨?_, ?_, ?_⟩, ⟨_, Labelled.nil.grow (by decide)⟩, ?_, ?_⟩
  · exact fun h => absurd h (nowhere _ _)
  · exact fun h => absurd h (nowhere _ _)
  · rintro (r | n) h
    · exact absurd h (Nat.not_lt_zero r)
    · exact absurd h (Nat.not_lt_zero n)
  · intro p i hi
    cases (empty p).symm.trans hi
  · intro b t ht
    rw [entryLedger, Function.terminatorOf?_grow] at ht
    simp [bareFunction, Function.terminatorOf?] at ht

/-! ## Programs -/

/-- Each function of the draft is certified against the functions and globals of the program. -/
def AllCertified (ds : List Decl) (m : Module) : Prop :=
  ∀ F ∈ m.functions.toList, ∃ L : Ledger, L.function = F ∧
    Certified (signaturesOf ds) (globalTypesOf ds) L

/-- The code of a function is certified against the functions and globals of the program. -/
theorem each_certified (ds : List Decl) : EachFunction ds fun F =>
    ∃ L : Ledger, L.function = F ∧ Certified (signaturesOf ds) (globalTypesOf ds) L := by
  intro done rest d sc f t h split ok run
  have signature := h.signature split
  let S : Setting := ⟨withFunction d (bareFunction f) d.cursor, d.module.functions.size, f.result,
    signaturesOf ds, globalTypesOf ds⟩
  let sc₁ := sc.push f.name (.fn d.module.functions.size)
  have certifies : S.Certifies (entryLedger f) :=
    ⟨hosts_withFunction d f d.cursor, rfl, certified_entry _ _ f⟩
  have sees : S.Sees (entryLedger f) ((entryLedger f).available 0) sc₁ :=
    sees_of_visible (h.visible_function split) ((h.known split).function signature d.cursor) rfl _ _
  have names : sc₁.map (symbolOf S.signatures) = bindFn (sc.map (symbolOf S.signatures)) f := by
    simp [S, sc₁, bindFn, symbolOf, signature]
  obtain ⟨Γ₁, Γ₂, parameters, body⟩ := ok.body
  obtain ⟨L, b, _, rfl, -, certifies', -⟩ :=
    runs_function sees (names ▸ parameters) body rfl certifies () t run
  exact ⟨L.function, b, rfl, L, rfl, certifies'.certified⟩

theorem generate_certified {ds : List Decl} (ok : ProgramOk ds) {name : String} {m : Module}
    (generated : (generate ds (Draft.new name)).1 = .ok m) : AllCertified ds m :=
  generate_functions ok (each_certified ds) generated

end ImpLower.Lower
