import ImpLower.Proofs.Program.History
import ImpLower.Proofs.Semantics.Sessions

/-!
# Compiled programs run as they are written

A program that passes its check compiles to a module whose calls end as evaluation of the checked
program says. So the calls of a compiled program are type safe, in sessions of any length.
-/

namespace ImpLower.Program

open Code Semantics Typed Typing

/-! ## From the source to the module -/

/-- The module is a compiled form of the declarations, and `ds` is their checked form. -/
structure Compiled (decls : List Source.Decl) (ds : List Decl) (m : Code.Module) : Prop where
  annotated : List.Forall₂ Annotates decls ds
  executable : Executable ds m
  start : GlobalsAgree ds (initialGlobals ds) (m.globals.map Machine.initialCell)

theorem compile_of_check {p : Program} {ds : List Decl} (checked : checkProgram p.declarations = .ok ds)
    (name : String) : ∃ m, (p.compile (Draft.new name)).1.1 = .ok m ∧ Compiled p.declarations ds m := by
  obtain ⟨annotated, ok, -⟩ :=
    checksDecls_annotated storable_empty rfl (checkProgram_eq_ok.mp checked)
  obtain ⟨m, d, generated, linked⟩ := Lower.generate_eq_ok ok name
  refine ⟨m, ?_, annotated, executable_of_programOk ok linked, globalsAgree_initial ok linked⟩
  simp [compile, check_of_ok checked, lower, generated]

theorem compiled_of_compile {p : Program} {name : String} {m : Code.Module}
    (compiled : (p.compile (Draft.new name)).1.1 = .ok m) : ∃ ds, Compiled p.declarations ds m := by
  cases h : checkProgram p.declarations with
  | error e => simp [compile, check_of_error h] at compiled
  | ok ds =>
      obtain ⟨m', same, linked⟩ := compile_of_check h name
      rw [compiled] at same
      cases same
      exact ⟨ds, linked⟩

section

variable {decls : List Source.Decl} {ds : List Decl} {m : Code.Module}

theorem function_of_annotated (h : List.Forall₂ Annotates decls ds) {f : Source.FnDecl}
    (declared : Source.Decl.function f ∈ decls) : ∃ f' ∈ functionsOf ds, f'.erase = f := by
  induction h with
  | nil => cases declared
  | cons first _ ih =>
      rcases List.mem_cons.mp declared with here | later
      · subst here
        cases first with
        | function f' => exact ⟨f', List.mem_cons_self, rfl⟩
      · obtain ⟨f', mem, same⟩ := ih later
        cases first with
        | global _ => exact ⟨f', mem, same⟩
        | function _ => exact ⟨f', List.mem_cons_of_mem _ mem, same⟩

theorem global_of_annotated (h : List.Forall₂ Annotates decls ds) {decl : Source.VarDecl}
    (declared : Source.Decl.global decl ∈ decls) : ∃ g ∈ globalsOf ds, AnnotatesGlobal decl g := by
  induction h with
  | nil => cases declared
  | cons first _ ih =>
      rcases List.mem_cons.mp declared with here | later
      · subst here
        cases first with
        | global same => exact ⟨_, List.mem_cons_self, same⟩
      · obtain ⟨g, mem, same⟩ := ih later
        cases first with
        | global _ => exact ⟨g, List.mem_cons_of_mem _ mem, same⟩
        | function _ => exact ⟨g, mem, same⟩

theorem Compiled.callable (h : Compiled decls ds m) {f : Source.FnDecl}
    (declared : Source.Decl.function f ∈ decls) {arguments : List Literal}
    (types : arguments.map Literal.type = f.parameters.map Source.VarDecl.ty) :
    ∃ g f', Callable ds ⟨f.name, arguments⟩ g f' ∧ f'.result = f.result := by
  obtain ⟨f', mem, rfl⟩ := function_of_annotated h.annotated declared
  obtain ⟨g, found⟩ := List.mem_iff_getElem?.mp mem
  refine ⟨g, f', ⟨found, rfl, types.trans ?_⟩, rfl⟩
  rw [FnDecl.erase, List.map_map]
  rfl

theorem Compiled.callable_of_fits (h : Compiled decls ds m) {c : Invocation} (fits : c.Fits decls) :
    ∃ g f, Callable ds c g f := by
  obtain ⟨f, declared, name, types⟩ := fits
  obtain ⟨g, f', callable, -⟩ := h.callable declared types
  rw [name] at callable
  exact ⟨g, f', callable⟩

theorem Compiled.allCallable (h : Compiled decls ds m) {calls : List Invocation}
    (fits : ∀ c ∈ calls, c.Fits decls) : AllCallable ds calls :=
  fun c hc => h.callable_of_fits (fits c hc)

end

/-! ## Meaning -/

/-- Lowering preserves meaning. Where evaluation of a call ends, the compiled program ends the call in
the same way under every limit that is large enough; and where the compiled program ends a call before
the limit, evaluation ends it in the same way. Both leave the same globals behind. -/
theorem lowering_preserves_meaning {decls : List Source.Decl} {ds : List Decl}
    (checked : checkProgram decls = .ok ds) (name : String) :
    ∃ m, ((ofDecls decls).compile (Draft.new name)).1.1 = .ok m ∧
      (∀ calls c frame outcome frame', (∀ x ∈ calls ++ [c], x.Fits decls) →
        LeadsTo ds calls frame → Ends ds frame c outcome frame' →
        ∃ enough, ∀ limit, enough ≤ limit →
          EndsAs ((Machine.new m limit).after calls) c outcome frame') ∧
      (∀ limit calls c, (∀ x ∈ calls ++ [c], x.Fits decls) →
        (∀ n, ((Machine.new m limit).after calls).answer c ≠ .error (.stepLimit n)) →
        ∃ frame outcome frame', LeadsTo ds calls frame ∧ Ends ds frame c outcome frame' ∧
          EndsAs ((Machine.new m limit).after calls) c outcome frame') := by
  obtain ⟨m, done, compiled⟩ := compile_of_check (p := ofDecls decls) checked name
  refine ⟨m, done, ?_, ?_⟩
  · intro calls c frame outcome frame' fits leads ends
    obtain ⟨earlier, g, f, callable⟩ := (compiled.allCallable fits).of_concat
    obtain ⟨steps, globals, agree, reached⟩ :=
      after_of_leadsTo compiled.executable compiled.start earlier leads
    obtain ⟨n, globals', agree', ended⟩ := call_of_ends compiled.executable callable agree ends
    refine ⟨steps + n + 1, fun limit le => ?_⟩
    rw [reached limit (by omega)]
    exact endsAs_of_call compiled.executable.linked agree' (ended limit steps (by omega))
  · intro limit calls c fits running
    obtain ⟨earlier, g, f, callable⟩ := (compiled.allCallable fits).of_concat
    have tracks := tracks_after compiled.executable compiled.start limit calls earlier
    generalize (Machine.new m limit).after calls = M at tracks running ⊢
    obtain ⟨rfl, rfl, ⟨frame, agree⟩, reached⟩ := tracks
    rcases reached with used | ⟨frame, leads, agree⟩
    · rcases call_cases compiled.executable callable agree with
        ⟨_, _, n, _, -, -, -, enough, -⟩ | ⟨globals', -, cut⟩
      · omega
      · exact absurd (by rw [Machine.answer, cut]) (running M.limit)
    · rcases call_cases compiled.executable callable agree with
        ⟨outcome, frame', n, globals', ends, -, agree', -, called⟩ | ⟨globals', -, cut⟩
      · exact ⟨frame, outcome, frame', leads, ends,
          endsAs_of_call compiled.executable.linked agree' called⟩
      · exact absurd (by rw [Machine.answer, cut]) (running M.limit)

def tally (index : Int32) : Invocation := ⟨"tally", [.int index]⟩

/-- The globals of the counter when only its second cell was counted. -/
def counted (times : Int32) : Frame Variable :=
  [("cells", ⟨[4], #[.int 0, .int times, .int 0, .int 0]⟩)]

theorem tally_fits (calls : List Int32) : ∀ x ∈ calls.map tally, x.Fits tallyProgram := by
  intro x hx
  obtain ⟨index, -, rfl⟩ := List.mem_map.mp hx
  exact ⟨_, List.mem_cons_of_mem _ List.mem_cons_self, rfl, rfl⟩

/-- The counter counts, and a call that fails in between does not disturb it. -/
theorem tally_counts_to_two : ∃ m, ((ofDecls tallyProgram).compile (Draft.new "main")).1.1 = .ok m ∧
    ∃ enough, ∀ limit, enough ≤ limit →
      EndsAs ((Machine.new m limit).after [tally 1, tally 4]) (tally 1) (.ok (some (.long 2)))
        (counted 2) := by
  obtain ⟨ds, checked, first, failed, second⟩ : ∃ ds, checkProgram tallyProgram = .ok ds ∧
      Ends ds (initialGlobals ds) (tally 1) (.ok (some (.long 1))) (counted 1) ∧
      Ends ds (counted 1) (tally 4) (.error (.indexOutOfBounds 4 4)) (counted 1) ∧
      Ends ds (counted 1) (tally 1) (.ok (some (.long 2))) (counted 2) :=
    ⟨_, rfl, ⟨0, rfl⟩, ⟨0, rfl⟩, ⟨0, rfl⟩⟩
  obtain ⟨m, compiled, forward, -⟩ := lowering_preserves_meaning checked "main"
  exact ⟨m, compiled, forward [tally 1, tally 4] (tally 1) _ _ _ (tally_fits [1, 4, 1])
    ((LeadsTo.start.call first).call failed) second⟩

/-! ## Safety -/

/-- The traps that the calls of a compiled program can end with. -/
def Ordinary : Trap → Prop
  | .stepLimit _ | .callDepth _ | .indexOutOfBounds .. | .invalidLength _ => True
  | .arithmetic op => op = .int .div ∨ op = .int .rem
  | _ => False

/-- What a call of a function with the given result answers: a value of that type, nothing if it is
`void`, or an ordinary trap. -/
def AnswerOf (result : Ty) : Except Trap (Option Literal) → Prop
  | .ok (some value) => result ≠ .void ∧ value.type = result
  | .ok none => result = .void
  | .error trap => Ordinary trap

theorem answerOf_of_proper {result : Ty} {outcome : Except Fault (Option Literal)}
    (proper : Proper result outcome) : AnswerOf result (outcome.mapError Fault.trap) := by
  cases outcome with
  | ok v =>
      cases proper with
      | value typed => exact ⟨typed ▸ Literal.type_ne_void _, typed⟩
      | nothing void => exact void
  | error fault =>
      cases fault with
      | arithmetic op => exact proper
      | _ => trivial

/-- A global has a number of elements, the same in every session, and they have its type. -/
theorem Compiled.global {decls : List Source.Decl} {ds : List Decl} {m : Code.Module}
    (h : Compiled decls ds m) {decl : Source.VarDecl} (declared : Source.Decl.global decl ∈ decls) :
    ∃ count, ∀ M : Machine, M.module = m → GlobalsTyped ds M.globals →
      ∃ cell, M.globalArray? decl.name = some cell ∧ cell.size = count ∧
        ∀ l ∈ cell, l.type = decl.ty := by
  obtain ⟨g, mem, same⟩ := global_of_annotated h.annotated declared
  obtain ⟨i, found⟩ := List.mem_iff_getElem?.mp mem
  refine ⟨g.length, ?_⟩
  rintro M rfl ⟨frame, agree⟩
  obtain ⟨x, bound, -, agrees⟩ := agree.lookup found
  refine ⟨x.cell, ?_, agrees.size, ?_⟩
  · rw [globalArray?_eq_lookup h.executable.linked agree, ← same.name, bound]
    rfl
  · rw [← same.ty]
    exact agrees.typed

/-- Calls are type safe. Whatever was called before, a call of a declared function with arguments of
the declared types answers what the function declares or ends with an ordinary trap, and every global
keeps its number of elements and its type. -/
theorem calls_are_type_safe {p : Program} {name : String} {m : Code.Module}
    (compiled : (p.compile (Draft.new name)).1.1 = .ok m) (limit : Nat) {calls : List Invocation}
    (fits : ∀ x ∈ calls, x.Fits p.declarations) {f : Source.FnDecl}
    (declared : Source.Decl.function f ∈ p.declarations) {arguments : List Literal}
    (types : arguments.map Literal.type = f.parameters.map Source.VarDecl.ty) :
    AnswerOf f.result (((Machine.new m limit).after calls).answer ⟨f.name, arguments⟩) ∧
      ∀ decl, Source.Decl.global decl ∈ p.declarations → ∃ before now,
        (Machine.new m limit).globalArray? decl.name = some before ∧
        ((Machine.new m limit).after (calls ++ [⟨f.name, arguments⟩])).globalArray? decl.name =
          some now ∧
        now.size = before.size ∧ ∀ l ∈ now, l.type = decl.ty := by
  obtain ⟨ds, linked⟩ := compiled_of_compile compiled
  have answers : AnswerOf f.result
      (((Machine.new m limit).after calls).answer ⟨f.name, arguments⟩) := by
    obtain ⟨g, f', callable, result⟩ := linked.callable declared types
    have tracks := tracks_after linked.executable linked.start limit calls (linked.allCallable fits)
    generalize (Machine.new m limit).after calls = M at tracks ⊢
    obtain ⟨rfl, rfl, ⟨frame, agree⟩, -⟩ := tracks
    rcases call_cases linked.executable callable agree with
      ⟨outcome, _, _, _, -, proper, -, -, called⟩ | ⟨_, -, cut⟩
    · rw [Machine.answer, called, ← result]
      exact answerOf_of_proper proper
    · rw [Machine.answer, cut]
      trivial
  refine ⟨answers, fun decl global => ?_⟩
  have all : ∀ x ∈ calls ++ [⟨f.name, arguments⟩], x.Fits p.declarations := by
    intro x hx
    rcases List.mem_append.mp hx with earlier | last
    · exact fits x earlier
    · rw [List.mem_singleton.mp last]
      exact ⟨f, declared, rfl, types⟩
  have tracks := tracks_after linked.executable linked.start limit _ (linked.allCallable all)
  obtain ⟨count, keeps⟩ := linked.global global
  obtain ⟨before, first, size, -⟩ := keeps (Machine.new m limit) rfl ⟨_, linked.start⟩
  obtain ⟨now, later, size', typed⟩ := keeps _ tracks.module tracks.typed
  exact ⟨before, now, first, later, size'.trans size.symm, typed⟩

/-- The counter answers a `long` or traps, and keeps its cells, also after a call that fails. -/
theorem tally_is_type_safe : ∃ m, ((ofDecls tallyProgram).compile (Draft.new "main")).1.1 = .ok m ∧
    ∀ limit, AnswerOf .long (((Machine.new m limit).after [tally 4]).answer (tally 1)) ∧
      ∃ before now, (Machine.new m limit).globalArray? "cells" = some before ∧
        ((Machine.new m limit).after [tally 4, tally 1]).globalArray? "cells" = some now ∧
        now.size = before.size ∧ ∀ l ∈ now, l.type = .int := by
  obtain ⟨ds, checked⟩ : ∃ ds, checkProgram tallyProgram = .ok ds := ⟨_, rfl⟩
  obtain ⟨m, compiled, -⟩ := compile_of_check (p := ofDecls tallyProgram) checked "main"
  refine ⟨m, compiled, fun limit => ?_⟩
  have safe := calls_are_type_safe compiled limit (tally_fits [4])
    (List.mem_cons_of_mem _ List.mem_cons_self)
    (show ([.int 1] : List Literal).map Literal.type = [.int] from rfl)
  exact ⟨safe.1, safe.2 _ List.mem_cons_self⟩

end ImpLower.Program
