import ImpLower.Proofs.Code.Validity
import ImpLower.Proofs.Lower.Certification.Decl
import ImpLower.Proofs.Program.Correctness

/-!
# Compiled modules are valid

The code of a compiled program is in static single assignment form and statically well typed, with
the annotations that execution does not look at. Both are read off the certificates under which the
functions were lowered.
-/

namespace ImpLower.Program

open Code Typed Typing

/-- Functions have the headers they are declared with. -/
theorem signatures_of_linked {ds : List Decl} {m : Code.Module} (linked : Linked ds m) :
    signaturesOf ds = m.signatures := by
  funext g
  rw [signaturesOf, Module.signatures, ← Array.getElem?_toList]
  cases declared : (functionsOf ds)[g]? with
  | none =>
      have missing : m.functions.toList[g]? = none := by
        rw [List.getElem?_eq_none_iff] at declared ⊢
        rwa [← linked.functions.length_eq]
      rw [missing]
      rfl
  | some f =>
      obtain ⟨F, found, sc, -, code⟩ := forall₂_getElem? linked.functions declared
      rw [found, Option.map_some, Option.map_some, code.result, code.parameters]

theorem globalTypes_of_linked {ds : List Decl} {m : Code.Module} (linked : Linked ds m) :
    Lower.globalTypesOf ds = m.globalTypes := by
  funext i
  rw [Lower.globalTypesOf, Module.globalTypes, ← Array.getElem?_toList, linked.globals,
    List.getElem?_map, Option.map_map]
  rfl

theorem programOk_of_check {decls : List Source.Decl} {ds : List Decl}
    (checked : checkProgram decls = .ok ds) : ProgramOk ds :=
  (checksDecls_annotated storable_empty rfl (checkProgram_eq_ok.mp checked)).2.1

theorem compile_eq_generate {p : Program} {ds : List Decl}
    (checked : checkProgram p.declarations = .ok ds) {σ V S B F M : Type} [Emitter σ V S B F M]
    (s : σ) : (p.compile s).1 = Lower.generate ds s := by
  simp [compile, check_of_ok checked, lower]

/-- A program that passes its check compiles to a module with certified functions. -/
theorem certified_of_check {p : Program} {ds : List Decl}
    (checked : checkProgram p.declarations = .ok ds) (name : String) :
    ∃ m, (p.compile (Draft.new name)).1.1 = .ok m ∧ ∀ F ∈ m.functions.toList,
      ∃ L : Ledger, L.function = F ∧ Certified m.signatures m.globalTypes L := by
  have ok := programOk_of_check checked
  obtain ⟨m, d, generated, linked⟩ := Lower.generate_eq_ok ok name
  refine ⟨m, by rw [compile_eq_generate checked, generated], ?_⟩
  have certified := Lower.generate_certified ok (congrArg Prod.fst generated)
  rwa [Lower.AllCertified, signatures_of_linked linked, globalTypes_of_linked linked] at certified

/-- A function whose array is sized by its parameter, and used in a loop around a jump table and after
it in the comparison of a second switch. -/
def sweepProgram : List Source.Decl :=
  [.function
    { result := .int
      name := "sweep"
      parameters := [{ ty := .int, name := "n" }]
      body :=
        [.declare { ty := .int, name := "row", dimensions := [.var "n" [], .literal (.int 2)] },
          .forLoop { ty := .int, name := "i", initializer := some (.literal (.int 0)) }
            (.binary (.relation .lt) (.var "i" []) (.var "n" []))
            (.assign "i" [] (.binary (.arith .add) (.var "i" []) (.literal (.int 1))))
            [.switch (.var "i" [])
              [.mk (.literal (.int 0))
                  [.eval (.assign "row" [.var "i" [], .literal (.int 1)] (.var "n" []))],
                .mk (.literal (.int 3)) [.ret (some (.var "i" []))]]],
          .switch (.var "n" [])
            [.mk (.var "row" [.literal (.int 0), .literal (.int 1)])
              [.ret (some (.literal (.int 1)))]],
          .ifElse (.binary (.relation .lt) (.var "n" []) (.literal (.short 0)))
            [.ret (some (.literal (.int 0)))] [.ret (some (.var "n" []))]] }]

theorem sweepProgram_checks : ∃ ds, checkProgram sweepProgram = .ok ds := by
  have accepted : (checkProgram sweepProgram).isOk = true := by decide +kernel
  cases h : checkProgram sweepProgram with
  | ok ds => exact ⟨ds, rfl⟩
  | error e =>
      rw [h] at accepted
      cases accepted

/-- Compiled code is in static single assignment form: registers and slots are brought forth once and
before every use on every path, what code refers to exists, and labels are distinct. -/
theorem compiled_code_is_valid {p : Program} {ds : List Decl}
    (checked : checkProgram p.declarations = .ok ds) (name : String) :
    ∃ m, (p.compile (Draft.new name)).1.1 = .ok m ∧ ∀ F ∈ m.functions.toList, F.Valid m := by
  obtain ⟨m, compiled, certified⟩ := certified_of_check checked name
  refine ⟨m, compiled, fun F hF => ?_⟩
  obtain ⟨L, rfl, h⟩ := certified F hF
  exact h.valid

theorem sweep_code_is_valid :
    ∃ m, ((ofDecls sweepProgram).compile (Draft.new "main")).1.1 = .ok m ∧
      ∀ F ∈ m.functions.toList, F.Valid m := by
  obtain ⟨ds, checked⟩ := sweepProgram_checks
  exact compiled_code_is_valid (p := ofDecls sweepProgram) checked "main"

/-- Compiled code is well typed, with all its annotations. -/
theorem compiled_code_is_well_typed {p : Program} {ds : List Decl}
    (checked : checkProgram p.declarations = .ok ds) (name : String) :
    ∃ m, (p.compile (Draft.new name)).1.1 = .ok m ∧ ∀ F ∈ m.functions.toList, F.WellTyped m := by
  obtain ⟨m, compiled, certified⟩ := certified_of_check checked name
  refine ⟨m, compiled, fun F hF => ?_⟩
  obtain ⟨L, rfl, h⟩ := certified F hF
  exact h.wellTyped

theorem sweep_code_is_well_typed :
    ∃ m, ((ofDecls sweepProgram).compile (Draft.new "main")).1.1 = .ok m ∧
      ∀ F ∈ m.functions.toList, F.WellTyped m := by
  obtain ⟨ds, checked⟩ := sweepProgram_checks
  exact compiled_code_is_well_typed (p := ofDecls sweepProgram) checked "main"

end ImpLower.Program
