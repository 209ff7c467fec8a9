import ImpLower.Proofs.Machine.Extension
import ImpLower.Proofs.Program.Validity

/-!
# Later declarations leave earlier ones alone

A program that is extended by declarations at its end is checked and lowered as before, up to what the
new declarations add: typed declarations, globals and functions come first in the longer results, at
the same positions. So sessions with functions of the shorter program go the same in both modules.
-/

namespace ImpLower

namespace Typing

open Stateful

/-- Declarations are checked one after the other, each with one result. -/
theorem checkDecls_append {xs ys : List Source.Decl} {s t : Checker} {all : List Typed.Decl}
    (h : (checkDecls (xs ++ ys)).exec s = (.ok all, t)) :
    ∃ first rest u, (checkDecls xs).exec s = (.ok first, u) ∧
      (checkDecls ys).exec u = (.ok rest, t) ∧ all = first ++ rest ∧ first.length = xs.length := by
  induction xs generalizing s all with
  | nil => exact ⟨[], all, s, rfl, h, rfl, rfl⟩
  | cons x xs ih =>
      rw [List.cons_append, checkDecls] at h
      obtain ⟨d, u₁, head, tail⟩ := exec_bind_eq_ok.mp h
      obtain ⟨ds, u₂, more, last⟩ := exec_bind_eq_ok.mp tail
      cases last
      obtain ⟨first, rest, u, here, later, rfl, length⟩ := ih more
      refine ⟨d :: first, rest, u, ?_, later, rfl, by simp [length]⟩
      rw [checkDecls]
      exact exec_seq head <| exec_seq here rfl

theorem checkProgram_append {xs ys : List Source.Decl} {all : List Typed.Decl}
    (h : checkProgram (xs ++ ys) = .ok all) :
    ∃ rest, checkProgram xs = .ok (all.take xs.length) ∧ all = all.take xs.length ++ rest := by
  obtain ⟨first, rest, u, here, -, rfl, length⟩ := checkDecls_append (Prod.ext h rfl)
  refine ⟨rest, ?_, ?_⟩
  · rw [checkProgram, here, ← length, List.take_left]
  · rw [← length, List.take_left]

end Typing

namespace Lower

open Code Typed Stateful

theorem lowerDecls_append {xs ys : List Decl} {s t : Lowering Draft Operand Slot Nat}
    (h : (lowerDecls xs).exec s = (.ok (), t)) :
    (lowerDecls (xs ++ ys)).exec s = (lowerDecls ys).exec t := by
  induction xs generalizing s with
  | nil =>
      cases h
      rfl
  | cons x xs ih =>
      rw [lowerDecls] at h
      obtain ⟨⟨⟩, u, head, tail⟩ := exec_bind_eq_ok.mp h
      rw [List.cons_append, lowerDecls, exec_bind_of_ok head]
      exact ih tail

/-- The module of a program extends the module of its first declarations. -/
theorem generate_append {xs ys : List Decl} (ok : ProgramOk xs) (whole : ProgramOk (xs ++ ys))
    {name : String} {m m' : Module} (generated : (generate xs (Draft.new name)).1 = .ok m)
    (generated' : (generate (xs ++ ys) (Draft.new name)).1 = .ok m') : m.Extends m' := by
  obtain ⟨d, sc, run, progress⟩ := lowerDecls_of_programOk ok name
  rw [generate_of_progress run progress] at generated
  cases generated
  -- the longer program comes through the same draft
  obtain ⟨d₁, sc₁, run₁, progress₁, tail, -⟩ :=
    lowerDecls_exec (progress_start (xs ++ ys) name) rfl whole
  cases run.symm.trans run₁
  have last : xs ++ ys = [] ++ xs ++ (ys ++ []) := by simp
  have tail' : DeclsOk (sc.map (symbolOf (signaturesOf (xs ++ ys)))) (ys ++ []) := by
    rwa [List.append_nil]
  obtain ⟨d', sc', run', progress', -, more⟩ := lowerDecls_exec progress₁ last tail'
  rw [generate_of_progress ((lowerDecls_append run).trans run') progress'] at generated'
  cases generated'
  exact more

end Lower

/-! ## Sessions -/

/-- The call names a declared function; its arguments may be any. -/
def Invocation.Names (decls : List Source.Decl) (c : Invocation) : Prop :=
  ∃ f, Source.Decl.function f ∈ decls ∧ f.name = c.name

namespace Machine

/-- The machines have used as many steps, hold the same in the declared globals, and answer all calls
of declared functions alike. -/
structure AlikeFor (decls : List Source.Decl) (M M' : Machine) : Prop where
  steps : M'.steps = M.steps
  globals : ∀ decl, Source.Decl.global decl ∈ decls →
    M'.globalArray? decl.name = M.globalArray? decl.name
  answers : ∀ c : Invocation, c.Names decls → M'.answer c = M.answer c

/-- A session with functions of the module goes the same in the larger module. -/
theorem after_extend {M : Machine} {m' : Code.Module} (contained : SelfContained M.module)
    (more : M.module.Extends m') (extra : Array Cell) (size : M.globals.size = M.module.globals.size)
    {calls : List Invocation} (known : ∀ c ∈ calls, ∃ g, M.module.functionIndex? c.name = some g) :
    (M.extend m' extra).after calls = (M.after calls).extend m' extra ∧
      (M.after calls).module = M.module ∧
      (M.after calls).globals.size = M.module.globals.size := by
  induction calls generalizing M with
  | nil => exact ⟨rfl, rfl, size⟩
  | cons c rest ih =>
      obtain ⟨⟨g, found⟩, others⟩ := List.forall_mem_cons.mp known
      obtain ⟨called, same, kept⟩ := call_extend contained more extra size found c.arguments
      let N := (M.call c.name c.arguments).2
      have first : ((M.extend m' extra).call c.name c.arguments).2 = N.extend m' extra := by
        rw [called]
      obtain ⟨rest', same', kept'⟩ := ih (M := N) (same.symm ▸ contained) (same.symm ▸ more)
        (kept.trans (by rw [same])) (same.symm ▸ others)
      refine ⟨?_, same'.trans same, kept'.trans (by rw [same])⟩
      exact (congrArg (Machine.after · rest) first).trans rest'

end Machine

namespace Program

open Code Semantics Typed Typing

section

variable {decls : List Source.Decl} {ds : List Decl} {m : Code.Module}

theorem Compiled.functionIndex? (h : Compiled decls ds m) {c : Invocation} (names : c.Names decls) :
    ∃ g, m.functionIndex? c.name = some g := by
  obtain ⟨f, declared, name⟩ := names
  obtain ⟨f', mem, rfl⟩ := function_of_annotated h.annotated declared
  obtain ⟨g, found⟩ := List.mem_iff_getElem?.mp mem
  exact ⟨g, name ▸ h.executable.functionIndex? found⟩

theorem Compiled.globalIndex? (h : Compiled decls ds m) {decl : Source.VarDecl}
    (declared : Source.Decl.global decl ∈ decls) : ∃ i, m.globalIndex? decl.name = some i := by
  obtain ⟨g, mem, same⟩ := global_of_annotated h.annotated declared
  have there : globalOf g ∈ m.globals := by
    rw [← Array.mem_toList_iff, h.executable.linked.globals]
    exact List.mem_map_of_mem mem
  cases found : m.globalIndex? decl.name with
  | some i => exact ⟨i, rfl⟩
  | none =>
      have missing := Array.findIdx?_eq_none_iff.mp found _ there
      exact absurd same.name (by simpa [globalOf] using missing)

theorem selfContained_of_certified (certified : ∀ F ∈ m.functions.toList,
    ∃ L : Ledger, L.function = F ∧ Certified m.signatures m.globalTypes L) :
    Machine.SelfContained m := by
  intro F hF p i hi
  obtain ⟨L, rfl, h⟩ := certified F hF
  exact h.refersIn hi

end

/-- Later declarations never disturb earlier ones. What comes before them is checked with the same
result, has the same code at the same positions, and takes part in every session alike. -/
theorem later_declarations_leave_earlier_alone {ds es : List Source.Decl} {all : List Decl}
    (checked : checkProgram (ds ++ es) = .ok all) (name : String) :
    checkProgram ds = .ok (all.take ds.length) ∧
      ∃ m m', ((ofDecls ds).compile (Draft.new name)).1.1 = .ok m ∧
        ((ofDecls (ds ++ es)).compile (Draft.new name)).1.1 = .ok m' ∧ m.Extends m' ∧
        ∀ limit (calls : List Invocation), (∀ c ∈ calls, c.Names ds) →
          ((Machine.new m limit).after calls).AlikeFor ds ((Machine.new m' limit).after calls) := by
  obtain ⟨rest, first, split⟩ := checkProgram_append checked
  obtain ⟨m, compiled, linked⟩ := compile_of_check (p := ofDecls ds) first name
  obtain ⟨m', compiled', -⟩ := compile_of_check (p := ofDecls (ds ++ es)) checked name
  have more : m.Extends m' := by
    have whole := programOk_of_check checked
    rw [compile_eq_generate first] at compiled
    rw [compile_eq_generate checked, split] at compiled'
    exact Lower.generate_append (programOk_of_check first) (split ▸ whole) compiled compiled'
  have contained : Machine.SelfContained m := by
    obtain ⟨m₁, same, certified⟩ := certified_of_check (p := ofDecls ds) first name
    cases compiled.symm.trans same
    exact selfContained_of_certified certified
  refine ⟨first, m, m', compiled, compiled', more, fun limit calls names => ?_⟩
  obtain ⟨extra, start⟩ := Machine.new_extends more limit
  obtain ⟨session, keeps, size⟩ := Machine.after_extend (M := Machine.new m limit) contained more
    extra (by simp [Machine.new]) fun c hc => linked.functionIndex? (names c hc)
  rw [start, session]
  generalize (Machine.new m limit).after calls = M at keeps size
  replace keeps : M.module = m := keeps
  subst keeps
  refine ⟨rfl, fun decl declared => ?_, fun c called => ?_⟩
  · obtain ⟨i, found⟩ := linked.globalIndex? declared
    exact Machine.globalArray?_extend more size found
  · obtain ⟨g, found⟩ := linked.functionIndex? called
    have same := (Machine.call_extend contained more extra size found c.arguments).1
    rw [Machine.answer, same]
    rfl

/-- The counter counts on, next to a function that is declared after it. -/
theorem tally_undisturbed :
    ∃ all, checkProgram (tallyProgram ++ sweepProgram) = .ok all ∧
      checkProgram tallyProgram = .ok (all.take 2) ∧
      ∃ m m', ((ofDecls tallyProgram).compile (Draft.new "main")).1.1 = .ok m ∧
        ((ofDecls (tallyProgram ++ sweepProgram)).compile (Draft.new "main")).1.1 = .ok m' ∧
        m.Extends m' ∧ ∀ limit,
          ((Machine.new m limit).after [tally 1, tally 4]).AlikeFor tallyProgram
            ((Machine.new m' limit).after [tally 1, tally 4]) := by
  have accepted : (checkProgram (tallyProgram ++ sweepProgram)).isOk = true := by decide +kernel
  cases checked : checkProgram (tallyProgram ++ sweepProgram) with
  | error e =>
      rw [checked] at accepted
      cases accepted
  | ok all =>
      obtain ⟨first, m, m', compiled, compiled', more, alike⟩ :=
        later_declarations_leave_earlier_alone checked "main"
      refine ⟨all, rfl, first, m, m', compiled, compiled', more, fun limit => alike limit _ ?_⟩
      intro c hc
      obtain ⟨f, declared, name, -⟩ := tally_fits [1, 4] c hc
      exact ⟨f, declared, name⟩

end Program

end ImpLower
