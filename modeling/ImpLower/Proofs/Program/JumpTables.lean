import ImpLower.Proofs.Machine.Residue
import ImpLower.Proofs.Program.Correctness
import ImpLower.Proofs.Semantics.Switches

/-!
# Jump tables and chains

How a switch is laid out cannot be seen from outside. Two modules of one program, one of which has
chains of comparisons where the other has jump tables, answer every session alike and are left with
the same globals, because both do what evaluation does. And evaluation of a switch over constants is
to execute the first match.
-/

namespace ImpLower

namespace Machine

/-- No call is cut off by the limit. -/
def InTime (M : Machine) (calls : List Invocation) : Prop :=
  ∀ r ∈ M.answers calls, isCutOff r = false

theorem answers_concat (M : Machine) (calls : List Invocation) (c : Invocation) :
    M.answers (calls ++ [c]) = M.answers calls ++ [(M.after calls).answer c] := by
  induction calls generalizing M with
  | nil => rfl
  | cons first rest ih =>
      rw [List.cons_append, answers, answers, ih, List.cons_append]
      rfl

theorem InTime.of_concat {M : Machine} {calls : List Invocation} {c : Invocation}
    (h : M.InTime (calls ++ [c])) :
    M.InTime calls ∧ isCutOff ((M.after calls).answer c) = false := by
  rw [InTime, answers_concat] at h
  exact ⟨fun r hr => h r (by simp [hr]), h _ (by simp)⟩

end Machine

namespace Semantics

open Code Machine Typed

/-- By evaluation, the calls end one after the other with the outcomes and lead to the globals. -/
inductive Replies (ds : List Decl) :
    List Invocation → List (Except Fault (Option Literal)) → Frame Variable → Prop
  | start : Replies ds [] [] (initialGlobals ds)
  | call {calls : List Invocation} {c : Invocation} {outcomes : List (Except Fault (Option Literal))}
      {outcome : Except Fault (Option Literal)} {globals globals' : Frame Variable}
      (before : Replies ds calls outcomes globals) (ends : Ends ds globals c outcome globals') :
      Replies ds (calls ++ [c]) (outcomes ++ [outcome]) globals'

/-! ## Evaluation is deterministic -/

/-- The cells of a machine tell what the globals are. -/
theorem GlobalsAgree.frame_unique {ds : List Decl} {frame frame' : Frame Variable}
    {globals : Array Cell} (h : GlobalsAgree ds frame globals)
    (h' : GlobalsAgree ds frame' globals) : frame = frame' := by
  have cells : (frame.map fun b => b.2.cell) = frame'.map fun b => b.2.cell :=
    h.cells.symm.trans h'.cells
  have left := h.declared
  have right := h'.declared
  clear h h'
  generalize globalsOf ds = gs at left right
  induction left generalizing frame' with
  | nil =>
      cases right
      rfl
  | @cons g b gs bs head _ ih =>
      cases right with
      | @cons _ b' _ bs' head' tail' =>
          rw [List.map_cons, List.map_cons, List.cons.injEq] at cells
          obtain ⟨name, sizes, cell⟩ := b
          obtain ⟨name', sizes', cell'⟩ := b'
          have names : name = name' := head.name.trans head'.name.symm
          have dimensions : sizes = sizes' := head.sizes.trans head'.sizes.symm
          have contents : cell = cell' := cells.1
          rw [names, dimensions, contents, ih cells.2 tail']

theorem mapError_trap_injective {a b : Except Fault (Option Literal)}
    (h : a.mapError Fault.trap = b.mapError Fault.trap) : a = b := by
  cases a with
  | ok v =>
      cases b with
      | ok w => cases h; rfl
      | error f => cases h
  | error f =>
      cases b with
      | ok w => cases h
      | error f' =>
          have same : f.trap = f'.trap := Except.error.inj h
          cases f <;> cases f' <;> cases same <;> rfl

/-- A call has one outcome, whatever fuel it took to find it. -/
theorem ends_unique {ds : List Decl} {m : Code.Module} {c : Invocation} {g : Nat} {f : FnDecl}
    (h : Executable ds m) (callable : Callable ds c g f) {frame frame₁ frame₂ : Frame Variable}
    {globals : Array Cell} (agree : GlobalsAgree ds frame globals)
    {outcome₁ outcome₂ : Except Fault (Option Literal)} (first : Ends ds frame c outcome₁ frame₁)
    (second : Ends ds frame c outcome₂ frame₂) : outcome₁ = outcome₂ ∧ frame₁ = frame₂ := by
  obtain ⟨n₁, globals₁, agree₁, called₁⟩ := call_of_ends h callable agree first
  obtain ⟨n₂, globals₂, agree₂, called₂⟩ := call_of_ends h callable agree second
  -- one machine with steps enough for both
  have same := (called₁ (n₁ + n₂ + 1) 0 (by omega)).symm.trans (called₂ (n₁ + n₂ + 1) 0 (by omega))
  have outcomes := mapError_trap_injective (congrArg Prod.fst same)
  have contents : globals₁ = globals₂ := congrArg (fun x => x.2.globals) same
  exact ⟨outcomes, agree₁.frame_unique (contents ▸ agree₂)⟩

/-! ## One program, two layouts -/

section

variable {ds ds' : List Decl} {m m' : Code.Module}

theorem ends_of_untables (h : Untables ds ds') {frame frame' : Frame Variable} {c : Invocation}
    {outcome : Except Fault (Option Literal)} (ends : Ends ds' frame c outcome frame') :
    Ends ds frame c outcome frame' := by
  obtain ⟨fuel, run⟩ := ends
  rw [evalCall_of_untables h] at run
  exact ⟨fuel, run⟩

theorem callable_of_untables (h : Untables ds ds') {c : Invocation} {g : Nat} {f : FnDecl}
    (callable : Callable ds c g f) : ∃ f', Callable ds' c g f' := by
  obtain ⟨f', found, same⟩ := forall₂_getElem? (functionsOf_untables h) callable.found
  exact ⟨f', found, same.name.trans callable.name, by rw [same.parameters, callable.types]⟩

/-- The machine has answered the calls as evaluation does, and stands where evaluation stands. -/
structure Stands (ds : List Decl) (m : Code.Module) (limit : Nat) (calls : List Invocation)
    (outcomes : List (Except Fault (Option Literal))) (frame : Frame Variable) : Prop where
  answers : (Machine.new m limit).answers calls = outcomes.map (·.mapError Fault.trap)
  agree : GlobalsAgree ds frame ((Machine.new m limit).after calls).globals

theorem stands_concat (h : Executable ds m) {c : Invocation} {g : Nat} {f : FnDecl}
    (callable : Callable ds c g f) {limit : Nat} {calls : List Invocation}
    {outcomes : List (Except Fault (Option Literal))} {frame : Frame Variable}
    (stands : Stands ds m limit calls outcomes frame)
    (answered : isCutOff (((Machine.new m limit).after calls).answer c) = false) :
    ∃ outcome frame', Ends ds frame c outcome frame' ∧
      Stands ds m limit (calls ++ [c]) (outcomes ++ [outcome]) frame' := by
  have h : Executable ds ((Machine.new m limit).after calls).module := by
    rw [Machine.module_after]
    exact h
  rcases call_cases h callable stands.agree with
    ⟨outcome, frame', n, globals', ends, -, agree, -, called⟩ | ⟨globals', -, cut⟩
  · refine ⟨outcome, frame', ends, ?_, ?_⟩
    · rw [Machine.answers_concat, stands.answers, Machine.answer, called, List.map_append]
      rfl
    · rw [Machine.after_concat, called]
      exact agree
  · rw [Machine.answer, cut] at answered
    cases answered

/-- Two modules of one program that answer in time answer alike. -/
theorem stand_together (h : Executable ds m) (h' : Executable ds' m') (untabled : Untables ds ds')
    (start : GlobalsAgree ds (initialGlobals ds) (m.globals.map initialCell))
    (start' : GlobalsAgree ds' (initialGlobals ds') (m'.globals.map initialCell))
    {limit limit' : Nat} {calls : List Invocation} (callable : AllCallable ds calls)
    (inTime : (Machine.new m limit).InTime calls) (inTime' : (Machine.new m' limit').InTime calls) :
    ∃ outcomes frame, Replies ds calls outcomes frame ∧ Stands ds m limit calls outcomes frame ∧
      Stands ds' m' limit' calls outcomes frame := by
  induction calls using List.reverseRecOn with
  | nil =>
      rw [initialGlobals_of_untables untabled] at start'
      exact ⟨[], _, .start, ⟨rfl, start⟩, ⟨rfl, start'⟩⟩
  | append_singleton calls c ih =>
      obtain ⟨earlier, g, f, this⟩ := callable.of_concat
      obtain ⟨before, answered⟩ := inTime.of_concat
      obtain ⟨before', answered'⟩ := inTime'.of_concat
      obtain ⟨outcomes, frame, replies, stands, stands'⟩ := ih earlier before before'
      obtain ⟨f', this'⟩ := callable_of_untables untabled this
      obtain ⟨outcome, frame₁, ends, later⟩ := stands_concat h this stands answered
      obtain ⟨outcome', frame₁', ends', later'⟩ := stands_concat h' this' stands' answered'
      obtain ⟨rfl, rfl⟩ :=
        ends_unique h this stands.agree ends (ends_of_untables untabled ends')
      exact ⟨_, _, replies.call ends, later, later'⟩

end

end Semantics

namespace Program

open Code Semantics Typed Typing

/-- A well-annotated program is lowered to a module in working order. -/
theorem generate_executable {ds : List Decl} (ok : ProgramOk ds) (name : String) :
    ∃ m, (Lower.generate ds (Draft.new name)).1 = .ok m ∧ Executable ds m ∧
      GlobalsAgree ds (initialGlobals ds) (m.globals.map Machine.initialCell) := by
  obtain ⟨m, d, generated, linked⟩ := Lower.generate_eq_ok ok name
  exact ⟨m, by rw [generated], executable_of_programOk ok linked, globalsAgree_initial ok linked⟩

/-- Jump tables agree with chains. When some switches of a checked program give up their tables, both
forms are lowered, and as long as no call is cut off the two modules answer every session alike, as
evaluation says, and are left with the same globals. In evaluation, a switch over constants of integer
types compares at the widest of its types and executes the body of the first case whose constant is
the value of the scrutinee there, or nothing if there is none. -/
theorem tables_agree_with_chains {decls : List Source.Decl} {ds ds' : List Decl}
    (checked : checkProgram decls = .ok ds) (untabled : Untables ds ds') (name : String) :
    (∃ m m', (Lower.generate ds (Draft.new name)).1 = .ok m ∧
      (Lower.generate ds' (Draft.new name)).1 = .ok m' ∧
      ∀ limit limit' calls, (∀ c ∈ calls, c.Fits decls) →
        (Machine.new m limit).InTime calls → (Machine.new m' limit').InTime calls →
        (Machine.new m limit).answers calls = (Machine.new m' limit').answers calls ∧
        (∀ g, ((Machine.new m limit).after calls).globalArray? g =
          ((Machine.new m' limit').after calls).globalArray? g) ∧
        ∃ outcomes frame, Replies ds calls outcomes frame ∧
          (Machine.new m limit).answers calls = outcomes.map (·.mapError Fault.trap) ∧
          ∀ g, ((Machine.new m limit).after calls).globalArray? g =
            (frame.lookup g).map Variable.cell) ∧
    ∀ function Γ Γ' scrutinee cases v cs table,
      ChecksStmt function Γ (.switch scrutinee cases) (.switch v cs table) Γ' →
      v.target.isInteger = true → (∀ c ∈ cs, c.constant.isSome = true) →
      Widest v.target (v.value.ty :: cs.map fun c => c.value.value.ty) ∧
      (∀ c ∈ cs, c.constant = c.value.value.constant?.bind (·.convert v.target)) ∧
      ∀ st, StmtUntables (.switch v cs table) st → ∀ call fuel env,
        (evalStmt call fuel st).exec env =
          (evalConverted call v >>= fun value => evalFirst call fuel value cs).exec env := by
  constructor
  · obtain ⟨annotated, ok, -⟩ :=
      checksDecls_annotated storable_empty rfl (checkProgram_eq_ok.mp checked)
    obtain ⟨m, generated, executable, start⟩ := generate_executable ok name
    obtain ⟨m', generated', executable', start'⟩ := generate_executable (untabled.declsOk ok) name
    refine ⟨m, m', generated, generated', ?_⟩
    intro limit limit' calls fits inTime inTime'
    have compiled : Compiled decls ds m := ⟨annotated, executable, start⟩
    obtain ⟨outcomes, frame, replies, stands, stands'⟩ := stand_together executable executable'
      untabled start start' (compiled.allCallable fits) inTime inTime'
    have linked : Linked ds ((Machine.new m limit).after calls).module := by
      rw [Machine.module_after]
      exact executable.linked
    have linked' : Linked ds' ((Machine.new m' limit').after calls).module := by
      rw [Machine.module_after]
      exact executable'.linked
    have globals := globalArray?_eq_lookup linked stands.agree
    have globals' := globalArray?_eq_lookup linked' stands'.agree
    exact ⟨stands.answers.trans stands'.answers.symm,
      fun g => (globals g).trans (globals' g).symm, outcomes, frame, replies, stands.answers, globals⟩
  · intro function Γ Γ' scrutinee cases v cs table checks integer known
    obtain ⟨widest, test, selected, shapes⟩ := switch_of_checksStmt checks
    refine ⟨widest, fun c hc => ?_, fun st given call fuel env => ?_⟩
    · obtain ⟨-, target, folds⟩ := shapes c hc
      rw [folds, Converted.constant?_eq, target]
    · rw [stmt_meansSame _ given call fuel]
      refine evalStmt_switch_eq selected integer (fun c hc => ?_) table env
      obtain ⟨same, target, folds⟩ := shapes c hc
      exact ⟨same, target, folds, known c hc⟩

/-- Cases that remember which was picked last. Two have the same value, at different types. -/
def pickCases : List Source.Case :=
  let remember (n : Int32) : List Source.Stmt := [.eval (.assign "seen" [] (.literal (.int n)))]
  [.mk (.literal (.short 1)) (remember 10), .mk (.literal (.int 1)) (remember 20),
    .mk (.literal (.long 70000)) (remember 30)]

def pickProgram : List Source.Decl :=
  [.global { ty := .int, name := "seen" },
    .function
      { result := .int
        name := "pick"
        parameters := [{ ty := .int, name := "at" }]
        body := [.switch (.var "at" []) pickCases, .ret (some (.var "seen" []))] }]

def pickScope : Scope Symbol where
  inner := [[("at", .var .int 0)]]
  globals := [("pick", .fn .int [.int]), ("seen", .var .int 0)]

def pickTypedCases : List Case :=
  let remember (n : Int32) : List Stmt :=
    [.eval (.assign "seen" .int [] (.mk (.literal (.int n)) .identity .int))]
  [.mk (.mk (.literal (.short 1)) .intSignExtend .long) (.int .eq) (some (.long 1)) (remember 10),
    .mk (.mk (.literal (.int 1)) .intSignExtend .long) (.int .eq) (some (.long 1)) (remember 20),
    .mk (.mk (.literal (.long 70000)) .identity .long) (.int .eq) (some (.long 70000)) (remember 30)]

def pickTyped (table : Bool) : List Decl :=
  [.global ⟨"seen", .int, [], 1, none⟩,
    .function
      { name := "pick"
        result := .int
        parameters := [⟨"at", .int, [], none⟩]
        body :=
          [.switch (.mk (.var "at" .int []) .intSignExtend .long) pickTypedCases table,
            .ret (some (.mk (.var "seen" .int []) .identity .int))] }]

theorem pickTyped_untables : Untables (pickTyped true) (pickTyped false) := by
  refine .cons (.global _) (.cons (.function _ _ _ (.cons ?_ (.cons (.ret _) .nil))) .nil)
  refine .switch _ (.cons _ _ _ ?_ (.cons _ _ _ ?_ (.cons _ _ _ ?_ .nil))) nofun
  all_goals exact .cons (.eval _) .nil

/-- The repeated value, the value at another type, and a value without a case. -/
def picks : List Invocation :=
  [1, 70000, 5].map fun n => ⟨"pick", [.int n]⟩

theorem picks_fit : ∀ c ∈ picks, c.Fits pickProgram := by
  intro c hc
  obtain ⟨n, -, rfl⟩ := List.mem_map.mp hc
  exact ⟨_, List.mem_cons_of_mem _ List.mem_cons_self, rfl, rfl⟩

/-- With a table or without, the first of the two equal cases is picked. -/
theorem picks_answered {table : Bool} {m : Code.Module}
    (generated : (Lower.generate (pickTyped table) (Draft.new "main")).1 = .ok m) :
    (Machine.new m 100).answers picks =
      [.ok (some (.int 10)), .ok (some (.int 30)), .ok (some (.int 30))] := by
  have runs : ∀ table, ((Lower.generate (pickTyped table) (Draft.new "main")).1.toOption.map fun m =>
      (Machine.new m 100).answers picks) =
        some [.ok (some (.int 10)), .ok (some (.int 30)), .ok (some (.int 30))] := by
    decide +kernel
  have answered := runs table
  rw [generated] at answered
  exact Option.some.inj answered

theorem picks_in_time {table : Bool} {m : Code.Module}
    (generated : (Lower.generate (pickTyped table) (Draft.new "main")).1 = .ok m) :
    (Machine.new m 100).InTime picks := by
  rw [Machine.InTime, picks_answered generated]
  decide

/-- Both layouts of the program answer alike, and its switch compares at type `long`. -/
theorem picks_agree :
    (∃ m m', (Lower.generate (pickTyped true) (Draft.new "main")).1 = .ok m ∧
      (Lower.generate (pickTyped false) (Draft.new "main")).1 = .ok m' ∧
      (Machine.new m 100).answers picks = (Machine.new m' 100).answers picks ∧
      ∀ g, ((Machine.new m 100).after picks).globalArray? g =
        ((Machine.new m' 100).after picks).globalArray? g) ∧
    Widest .long [.int, .short, .int, .long] := by
  obtain ⟨⟨m, m', generated, generated', agree⟩, first⟩ :=
    @tables_agree_with_chains pickProgram _ _ rfl pickTyped_untables "main"
  obtain ⟨answers, globals, -⟩ :=
    agree 100 100 picks picks_fit (picks_in_time generated) (picks_in_time generated')
  have switch := first ⟨"pick", .int⟩ pickScope pickScope (.var "at" []) pickCases
    (.mk (.var "at" .int []) .intSignExtend .long) pickTypedCases true rfl rfl (by decide)
  exact ⟨⟨m, m', generated, generated', answers, globals⟩, switch.1⟩

end Program

end ImpLower
