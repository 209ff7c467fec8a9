import ImpLower.Proofs.Typed.Untabled
import ImpLower.Proofs.Typing.Statements
import ImpLower.Proofs.Semantics.Programs

/-!
# The meaning of switches

Evaluation does not ask how a switch is laid out, so a program means the same after some of its
switches gave up their tables. When all cases are integer constants, a switch means what its table
says: the first case whose constant is the value of the scrutinee, or none.
-/

namespace ImpLower.Semantics

open Code Machine Typed

/-! ## Without tables -/

/-- The statement means the same when tables are given up. -/
def MeansSame (st : Stmt) : Prop :=
  ∀ {st' : Stmt}, StmtUntables st st' →
    ∀ (call : String → List Literal → Eval (Option Literal)) (fuel : Nat),
      evalStmt call fuel st' = evalStmt call fuel st

theorem block_meansSame {body : List Stmt} (same : ∀ s ∈ body, MeansSame s) {body' : List Stmt}
    (h : BlockUntables body body') (call : String → List Literal → Eval (Option Literal))
    (fuel : Nat) : evalBlock call fuel body' = evalBlock call fuel body := by
  induction body generalizing body' with
  | nil =>
      cases h
      rfl
  | cons s rest ih =>
      obtain ⟨first, others⟩ := List.forall_mem_cons.mp same
      cases h with
      | cons head tail => rw [evalBlock, evalBlock, first head call fuel, ih others tail]

theorem cases_meanSame {cases : List Case} (same : ∀ c ∈ cases, ∀ s ∈ c.body, MeansSame s)
    {cases' : List Case} (h : CasesUntable cases cases')
    (call : String → List Literal → Eval (Option Literal)) (fuel : Nat) (value : Literal) :
    evalCases call fuel value cases' = evalCases call fuel value cases := by
  induction cases generalizing cases' with
  | nil =>
      cases h
      rfl
  | cons c rest ih =>
      obtain ⟨first, others⟩ := List.forall_mem_cons.mp same
      cases h with
      | cons _ _ _ inside tail =>
          have here := block_meansSame first inside call fuel
          rw [evalCases, evalCases, here, ih others tail]
          rfl

theorem stmt_meansSame (st : Stmt) : MeansSame st := by
  induction st using Stmt.treeInduction with
  | block body ih =>
      rintro _ ⟨inside⟩ call fuel
      rw [evalStmt, evalStmt, block_meansSame ih inside]
  | ifThen condition body ih =>
      intro st' h call fuel
      cases h with
      | ifThen _ inside => rw [evalStmt, evalStmt, block_meansSame ih inside]
  | ifElse condition body other ihb iho =>
      intro st' h call fuel
      cases h with
      | ifElse _ inside otherwise =>
          rw [evalStmt, evalStmt, block_meansSame ihb inside, block_meansSame iho otherwise]
  | forLoop v condition step body ih =>
      intro st' h call fuel
      cases h with
      | forLoop _ _ _ inside => rw [evalStmt, evalStmt, block_meansSame ih inside]
  | whileLoop condition body ih =>
      intro st' h call fuel
      cases h with
      | whileLoop _ inside => rw [evalStmt, evalStmt, block_meansSame ih inside]
  | switch scrutinee cases table ih =>
      intro st' h call fuel
      cases h with
      | switch _ branches _ =>
          rw [evalStmt, evalStmt]
          exact congrArg _ (funext fun value => cases_meanSame ih branches call fuel value)
  | _ =>
      rintro _ ⟨⟩ call fuel
      rfl

section

variable {ds ds' : List Decl}

theorem evalBlock_of_untables {body body' : List Stmt} (h : BlockUntables body body')
    (call : String → List Literal → Eval (Option Literal)) (fuel : Nat) :
    evalBlock call fuel body' = evalBlock call fuel body :=
  block_meansSame (fun s _ => stmt_meansSame s) h call fuel

/-- The two functions share a head, and the body of the second gave up tables. -/
structure FnUntables (f f' : FnDecl) : Prop where
  name : f'.name = f.name
  result : f'.result = f.result
  parameters : f'.parameters = f.parameters
  body : BlockUntables f.body f'.body

theorem functionsOf_untables (h : Untables ds ds') :
    List.Forall₂ FnUntables (functionsOf ds) (functionsOf ds') := by
  induction h with
  | nil => exact .nil
  | cons head _ ih =>
      cases head with
      | global g => exact ih
      | function name result parameters inside => exact .cons ⟨rfl, rfl, rfl, inside⟩ ih

theorem globalsOf_untables (h : Untables ds ds') : globalsOf ds' = globalsOf ds := by
  induction h with
  | nil => rfl
  | cons head _ ih =>
      cases head with
      | global g => rw [globalsOf, globalsOf, ih]
      | function name result parameters inside => exact ih

theorem function?_untables (h : Untables ds ds') (name : String) :
    Option.Rel FnUntables (function? ds name) (function? ds' name) := by
  rw [function?_eq_find?, function?_eq_find?]
  have together := functionsOf_untables h
  generalize functionsOf ds = fs, functionsOf ds' = fs' at together
  induction together with
  | nil => exact .none
  | @cons f f' _ _ head _ ih =>
      by_cases same : f.name = name
      · rw [List.find?_cons_of_pos (by simpa using same),
          List.find?_cons_of_pos (by simpa [head.name] using same)]
        exact .some head
      · rw [List.find?_cons_of_neg (by simpa using same),
          List.find?_cons_of_neg (by simpa [head.name] using same)]
        exact ih

theorem evalCall_of_untables (h : Untables ds ds') (fuel levels : Nat) :
    evalCall ds' fuel levels = evalCall ds fuel levels := by
  induction levels with
  | zero =>
      funext name arguments
      rfl
  | succ levels ih =>
      funext name arguments
      rw [evalCall, evalCall]
      have found := function?_untables h name
      generalize function? ds name = f, function? ds' name = f' at found
      cases found with
      | none => rfl
      | some same =>
          simp only [same.parameters, ih, evalBlock_of_untables same.body]

theorem initialGlobals_of_untables (h : Untables ds ds') :
    initialGlobals ds' = initialGlobals ds := by
  rw [initialGlobals_eq_map, initialGlobals_eq_map, globalsOf_untables h]

end

/-! ## The first match -/

theorem Uniform.eq_of_word {ty : Ty} {a b : Literal} {n : Int64} (h : Uniform ty a)
    (h' : Uniform ty b) (left : a.word = .ok n) (right : b.word = .ok n) : a = b := by
  obtain ⟨rfl, integer⟩ := h
  have types : b.type = a.type := h'.1
  have same := left.trans right.symm
  cases a <;> cases integer <;> cases b <;> cases types
  · simpa [Literal.word, Literal.toInt64?, ← Int64.toInt_inj, ← Int16.toInt_inj] using same
  · simpa [Literal.word, Literal.toInt64?, ← Int64.toInt_inj, ← Int32.toInt_inj] using same
  · simpa [Literal.word, Literal.toInt64?] using same

/-- Constants of one integer type compare equal only to themselves. -/
theorem compare_uniform {ty : Ty} {test : Predicate} {a b : Literal}
    (selected : (BinOp.relation .eq).predicateAt ty = .ok test) (ha : Uniform ty a)
    (hb : Uniform ty b) : compare test a b = .ok (decide (a = b)) := by
  obtain ⟨x, left⟩ := ha.word
  obtain ⟨y, right⟩ := hb.word
  rw [compare_words selected ha.2 left right]
  congr 1
  rw [decide_eq_decide]
  constructor
  · rintro rfl
    exact ha.eq_of_word hb left right
  · rintro rfl
    exact Except.ok.inj (left.symm.trans right)

/-- A case with a constant of the type of the comparison. -/
structure ConstantCase (compared : Ty) (test : Predicate) (c : Case) : Prop where
  test : c.test = test
  target : c.value.target = compared
  folds : c.constant = c.value.constant?
  known : c.constant.isSome = true

section

variable (call : String → List Literal → Eval (Option Literal)) (fuel : Nat)

/-- Executes the body of the first case whose constant is the value, in a frame of its own, or nothing
if there is none. -/
def evalFirst (value : Literal) (cases : List Case) : Eval Completion :=
  match cases.find? fun c => c.constant = some value with
  | some c => withFrame (evalBlock call fuel c.body)
  | none => return .next

variable {call} {fuel}

theorem evalCases_eq_evalFirst {compared : Ty} {test : Predicate} {cases : List Case}
    (selected : (BinOp.relation .eq).predicateAt compared = .ok test)
    (constants : ∀ c ∈ cases, ConstantCase compared test c) {value : Literal}
    (uniform : Uniform compared value) (env : Env) :
    (evalCases call fuel value cases).exec env = (evalFirst call fuel value cases).exec env := by
  induction cases with
  | nil => rw [evalCases, evalFirst, List.find?_nil]
  | cons c rest ih =>
      obtain ⟨here, others⟩ := List.forall_mem_cons.mp constants
      obtain ⟨w, t, constant, body⟩ := c
      obtain ⟨l, rfl⟩ := Option.isSome_iff_exists.mp here.known
      have same : t = test := here.test
      have folds : w.constant? = some l := here.folds.symm
      have typed : Uniform compared l := ⟨(type_of_constant? folds).trans here.target, uniform.2⟩
      rw [evalCases, Stateful.exec_bind_of_ok (evalConverted_of_constant? call folds env), same,
        compare_uniform selected uniform typed, evalFirst]
      refine (Stateful.exec_bind_of_ok (Stateful.exec_ofExcept _ _)).trans ?_
      by_cases hit : value = l
      · rw [List.find?_cons_of_pos (by simp [Case.constant, hit]), if_pos (by simpa using hit)]
        rfl
      · rw [List.find?_cons_of_neg (by simpa [Case.constant] using Ne.symm hit),
          if_neg (by simpa using hit), ih others, evalFirst]

theorem type_of_evalConverted {c : Converted} {env env' : Env} {value : Literal}
    (h : (evalConverted call c).exec env = (.ok value, env')) : value.type = c.target := by
  obtain ⟨e, conversion, target⟩ := c
  rw [evalConverted] at h
  obtain ⟨v, _, -, rest⟩ := Stateful.exec_bind_eq_ok.mp h
  obtain ⟨l, _, -, moved⟩ := Stateful.exec_bind_eq_ok.mp rest
  rw [Stateful.exec_ofExcept, moveTo] at moved
  cases converted : l.convert target with
  | none => simp [converted, required] at moved
  | some w =>
      rw [converted] at moved
      cases moved
      exact Literal.type_of_convert converted

/-- A switch over constants of the type it compares at executes the first match. -/
theorem evalStmt_switch_eq {scrutinee : Converted} {test : Predicate} {cases : List Case}
    (selected : (BinOp.relation .eq).predicateAt scrutinee.target = .ok test)
    (integer : scrutinee.target.isInteger = true)
    (constants : ∀ c ∈ cases, ConstantCase scrutinee.target test c) (table : Bool) (env : Env) :
    (evalStmt call fuel (.switch scrutinee cases table)).exec env =
      (evalConverted call scrutinee >>= fun value => evalFirst call fuel value cases).exec env := by
  rw [evalStmt]
  cases h : (evalConverted call scrutinee).exec env with
  | mk result env' =>
      cases result with
      | error stop => rw [Stateful.exec_bind_of_error h, Stateful.exec_bind_of_error h]
      | ok value =>
          rw [Stateful.exec_bind_of_ok h, Stateful.exec_bind_of_ok h]
          exact evalCases_eq_evalFirst selected constants ⟨type_of_evalConverted h, integer⟩ env'

end

/-! ## Checked switches -/

/-- One of the types that all of them widen to. -/
def Widest (ty : Ty) (types : List Ty) : Prop :=
  ty ∈ types ∧ ∀ t ∈ types, t.join ty = some ty

theorem join_cases {a b c : Ty} (h : a.join b = some c) :
    (c = a ∨ c = b) ∧ a.join c = some c ∧ b.join c = some c := by
  cases a <;> cases b <;> cases h <;> simp [Ty.join, Ty.rank]

theorem join_trans {a b c : Ty} (h : a.join b = some b) (h' : b.join c = some c) :
    a.join c = some c := by
  cases a <;> cases b <;> cases h <;> cases c <;> cases h' <;> rfl

theorem widest_of_checksCases {function : EnclosingFunction} {Γ : Scope Symbol}
    {scrutinee compared final : Ty} {cases : List Source.Case} {pairs : List (Typed.Expr × List Stmt)}
    (h : Typing.ChecksCases function Γ scrutinee compared cases final pairs) :
    Widest final (compared :: pairs.map fun pair => pair.1.ty) := by
  induction cases generalizing compared pairs with
  | nil =>
      obtain ⟨rfl, rfl⟩ := Typing.checksCases_nil.mp h
      simp [Widest, Ty.join_self]
  | cons c rest ih =>
      obtain ⟨value, body⟩ := c
      obtain ⟨te, ty, tb, Γ₁, others, -, joined, -, tail, rfl⟩ := Typing.checksCases_cons.mp h
      obtain ⟨either, left, right⟩ := join_cases joined
      obtain ⟨mem, above⟩ := ih tail
      have wider := above ty List.mem_cons_self
      refine ⟨?_, ?_⟩
      · rcases List.mem_cons.mp mem with rfl | later
        · rcases either with rfl | rfl <;> simp
        · simp [later]
      · intro t ht
        simp only [List.map_cons, List.mem_cons] at ht
        rcases ht with rfl | rfl | later
        · exact join_trans left wider
        · exact join_trans right wider
        · exact above t (List.mem_cons_of_mem _ later)

theorem cases_of_finished {test : Predicate} {compared : Ty}
    {pairs : List (Typed.Expr × List Stmt)} {cs : List Case}
    (h : List.Forall₂ (Typing.FinishesCase test compared) pairs cs) :
    (cs.map fun c => c.value.value.ty) = (pairs.map fun pair => pair.1.ty) ∧
      ∀ c ∈ cs, c.test = test ∧ c.value.target = compared ∧ c.constant = c.value.constant? := by
  induction h with
  | nil => exact ⟨rfl, fun c hc => nomatch hc⟩
  | @cons pair _ _ _ head _ ih =>
      obtain ⟨types, others⟩ := ih
      obtain ⟨conversion, -, rfl⟩ := head
      have folds := Converted.constant?_eq (.mk pair.1 conversion compared)
      refine ⟨by rw [List.map_cons, List.map_cons, types]; rfl, ?_⟩
      exact List.forall_mem_cons.mpr ⟨⟨rfl, rfl, folds.symm⟩, others⟩

/-- A checked switch compares at the widest of its types, by one test, with the values its cases fold
to at that type. -/
theorem switch_of_checksStmt {function : EnclosingFunction} {Γ Γ' : Scope Symbol}
    {scrutinee : Source.Expr} {cases : List Source.Case} {v : Converted} {cs : List Case} {table : Bool}
    (h : Typing.ChecksStmt function Γ (.switch scrutinee cases) (.switch v cs table) Γ') :
    Widest v.target (v.value.ty :: cs.map fun c => c.value.value.ty) ∧
      ∃ test, (BinOp.relation .eq).predicateAt v.target = .ok test ∧
        ∀ c ∈ cs, c.test = test ∧ c.value.target = v.target ∧ c.constant = c.value.constant? := by
  obtain ⟨-, te, compared, pairs, -, -, checked, finished⟩ := Typing.checksStmt_switch.mp h
  obtain ⟨test, conversion, tcs, selected, -, together, same⟩ :=
    Typing.finishSwitch_eq_ok.mp finished
  cases same
  obtain ⟨types, shapes⟩ := cases_of_finished together
  refine ⟨?_, test, selected, shapes⟩
  rw [types]
  exact widest_of_checksCases checked

end ImpLower.Semantics
