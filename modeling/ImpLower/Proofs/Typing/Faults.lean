import ImpLower.Proofs.Induction
import ImpLower.Proofs.Scope.Exits
import ImpLower.Typing.Decl

/-!
# What checking leaves behind and what it reports

Checking leaves every frame that it opened, on each way out, and stays in the function around it. It
fails for a fault of the program only: it never leaves a scope too often, never meets a return outside
of a function and has nothing to do with an emitter. Each function of the checker is gone through once
for all of this.
-/

namespace ImpLower

/-- The name that a statement binds in the frame around it. -/
def Source.Stmt.declares : Source.Stmt → Option String
  | .declare decl => some decl.name
  | _ => none

/-- A fault that the program itself is to blame for. -/
def Cause.isFault : Cause → Bool
  | returnOutsideFunction | notChecked | scopeUnderflow | backend _ => false
  | _ => true

namespace Typing

variable {α β : Type}

/-! ## Expressions -/

/-- If it fails, the program is at fault. -/
def Faults (x : Except Diagnostic α) : Prop :=
  ∀ e, x = .error e → e.cause.isFault = true

namespace Faults

theorem ok (a : α) : Faults (.ok a) :=
  fun _ h => nomatch h

theorem pure (a : α) : Faults (Pure.pure a) :=
  ok a

theorem throw {e : Diagnostic} (h : e.cause.isFault = true) :
    Faults (MonadExcept.throw e : Except Diagnostic α) := by
  intro e' he
  cases he
  exact h

theorem bind {x : Except Diagnostic α} {f : α → Except Diagnostic β} (hx : Faults x)
    (hf : ∀ a, Faults (f a)) : Faults (x >>= f) := by
  cases x with
  | ok a => exact hf a
  | error e =>
      intro e' he
      cases he
      exact hx e rfl

theorem ite {p : Prop} [Decidable p] {x y : Except Diagnostic α} (hx : Faults x) (hy : Faults y) :
    Faults (if p then x else y) := by
  split
  · exact hx
  · exact hy

end Faults

theorem Cause.isFault_ofClash (clash : Clash) : (Cause.ofClash clash).isFault = true := by
  cases clash <;> rfl

theorem atSite_faults (site : Construct) (x : Except Clash α) : Faults (atSite site x) := by
  cases x with
  | ok a => exact .ok a
  | error clash => exact .throw (Cause.isFault_ofClash clash)

theorem convertTo_faults (value : Typed.Expr) (target : Ty) (site : Construct) :
    Faults (convertTo value target site) := by
  unfold convertTo
  split
  · exact .ok _
  · exact .throw rfl

theorem asIndex_faults (value : Typed.Expr) (site : Construct) : Faults (asIndex value site) :=
  .ite (convertTo_faults _ _ _) (.throw rfl)

theorem access_faults (scope : Scope Symbol) (name : String) (accessed : Nat) :
    Faults (access scope name accessed) := by
  refine .bind ?_ fun _ => .ite (.bind (.throw rfl) fun _ => .pure _) (.pure _)
  unfold lookupVar
  split
  · exact .ok _
  · exact .throw rfl
  · exact .throw rfl

theorem lookupFn_faults (scope : Scope Symbol) (name : String) : Faults (lookupFn scope name) := by
  unfold lookupFn
  split
  · exact .ok _
  · exact .throw rfl
  · exact .throw rfl

theorem negate_faults (operand : Typed.Expr) : Faults (negate operand) := by
  unfold negate
  split
  · exact .throw rfl
  · exact .bind (atSite_faults _ _) fun _ => .pure _

theorem operandType_faults (left right : Ty) : Faults (operandType left right) := by
  unfold operandType
  split
  · exact .ok _
  · exact .throw rfl

theorem relate_faults (op : BinOp) (left right : Typed.Expr) : Faults (relate op left right) := by
  have finish : Faults (do
      let common ← operandType left.ty right.ty
      let test ← atSite .binary (op.predicateAt common)
      return Typed.Expr.compare test (← convertTo left common .binary)
        (← convertTo right common .binary)) :=
    .bind (operandType_faults _ _) fun _ => .bind (atSite_faults _ _) fun _ =>
      .bind (convertTo_faults _ _ _) fun _ => .bind (convertTo_faults _ _ _) fun _ => .pure _
  unfold relate
  exact .ite (.bind (.throw rfl) fun _ => .ite (.bind (.throw rfl) fun _ => finish) finish)
    (.ite (.bind (.throw rfl) fun _ => finish) finish)

theorem combine_faults (op : BinOp) (left right : Typed.Expr) : Faults (combine op left right) := by
  have finish : Faults (do
      let common ← operandType left.ty right.ty
      let op ← atSite .binary (op.operationAt common)
      return Typed.Expr.arith op (← convertTo left common .binary)
        (← convertTo right common .binary)) :=
    .bind (operandType_faults _ _) fun _ => .bind (atSite_faults _ _) fun _ =>
      .bind (convertTo_faults _ _ _) fun _ => .bind (convertTo_faults _ _ _) fun _ => .pure _
  unfold combine
  exact .ite (.bind (.throw rfl) fun _ => finish) finish

theorem checkIndices_faults_of_forall {scope : Scope Symbol} {site : Construct}
    {es : List Source.Expr} (h : ∀ e ∈ es, Faults (checkExpr scope e)) :
    Faults (checkIndices scope site es) := by
  induction es with
  | nil =>
      rw [checkIndices]
      exact .pure _
  | cons e rest ih =>
      obtain ⟨head, tail⟩ := List.forall_mem_cons.mp h
      rw [checkIndices]
      exact .bind head fun _ => .bind (asIndex_faults _ _) fun _ => .bind (ih tail) fun _ => .pure _

theorem checkArguments_faults_of_forall {scope : Scope Symbol} {es : List Source.Expr}
    {parameters : List Ty} (h : ∀ e ∈ es, Faults (checkExpr scope e)) :
    Faults (checkArguments scope es parameters) := by
  induction es generalizing parameters with
  | nil =>
      rw [checkArguments.eq_def]
      exact .pure _
  | cons e rest ih =>
      obtain ⟨head, tail⟩ := List.forall_mem_cons.mp h
      cases parameters with
      | nil =>
          rw [checkArguments.eq_def]
          exact .pure _
      | cons ty parameters =>
          rw [checkArguments]
          exact .bind head fun _ => .bind (convertTo_faults _ _ _) fun _ =>
            .bind (ih tail) fun _ => .pure _

theorem checkExpr_faults (scope : Scope Symbol) (e : Source.Expr) : Faults (checkExpr scope e) := by
  induction e using Source.Expr.treeInduction with
  | literal value =>
      rw [checkExpr]
      exact .pure _
  | var name indices ih =>
      rw [checkExpr]
      exact .bind (access_faults _ _ _) fun _ =>
        .bind (checkIndices_faults_of_forall ih) fun _ => .pure _
  | assign name indices value ihs ih =>
      rw [checkExpr]
      exact .bind (access_faults _ _ _) fun _ => .bind (checkIndices_faults_of_forall ihs) fun _ =>
        .bind ih fun _ => .bind (convertTo_faults _ _ _) fun _ => .pure _
  | negate operand ih =>
      rw [checkExpr]
      exact .bind ih fun _ => negate_faults _
  | binary op left right ihl ihr =>
      rw [checkExpr]
      exact .bind ihl fun _ => .bind ihr fun _ => .ite (relate_faults _ _ _) (combine_faults _ _ _)
  | call callee arguments ih =>
      rw [checkExpr]
      refine .bind (lookupFn_faults _ _) fun _ => .ite (.bind (.throw rfl) fun _ => ?_) ?_
      all_goals exact .bind (checkArguments_faults_of_forall ih) fun _ => .pure _

theorem checkIndices_faults (scope : Scope Symbol) (site : Construct) (es : List Source.Expr) :
    Faults (checkIndices scope site es) :=
  checkIndices_faults_of_forall fun e _ => checkExpr_faults scope e

/-! ## Steps -/

open Scope (Allowance)

/-- A step that changes the scope no more than allowed and stays in the enclosing function. If it fails
where that function satisfies `p`, the program is at fault. -/
structure Behaves (A : Allowance Symbol) (p : Option EnclosingFunction → Prop) (m : Check α) :
    Prop where
  scope : ∀ s, A.Permits s.scope (m.exec s).2.scope
  function : ∀ s, (m.exec s).2.function = s.function
  fault : ∀ s, p s.function → Faults (m.exec s).1

section

variable {A : Allowance Symbol} {p : Option EnclosingFunction → Prop}

namespace Behaves

variable {m : Check α} {f : α → Check β}

theorem of_keeps (keeps : Keeps m) (fault : ∀ s, p s.function → Faults (m.exec s).1) :
    Behaves A p m where
  scope s := (keeps s).symm ▸ A.refl s.scope
  function s := by rw [keeps s]
  fault := fault

theorem pure (a : α) : Behaves A p (Pure.pure a) :=
  of_keeps (.pure a) fun _ _ => .ok a

theorem throw {e : Diagnostic} (h : e.cause.isFault = true) :
    Behaves A p (MonadExcept.throw e : Check α) :=
  of_keeps (.throw e) fun _ _ => .throw h

theorem bind (hm : Behaves A p m) (hf : ∀ a, Behaves A p (f a)) : Behaves A p (m >>= f) := by
  have step : ∀ s, A.Permits s.scope ((m >>= f).exec s).2.scope ∧
      ((m >>= f).exec s).2.function = s.function ∧
      (p s.function → Faults ((m >>= f).exec s).1) := by
    intro s
    have scope := hm.scope s
    have same := hm.function s
    have fault := hm.fault s
    rw [Stateful.exec_bind]
    rcases hr : m.exec s with ⟨e | a, t⟩
    · rw [hr] at scope same fault
      exact ⟨scope, same, fun hp => .throw (fault hp e rfl)⟩
    · rw [hr] at scope same
      exact ⟨A.trans scope ((hf a).scope t), ((hf a).function t).trans same,
        fun hp => (hf a).fault t (same ▸ hp)⟩
  exact ⟨fun s => (step s).1, fun s => (step s).2.1, fun s => (step s).2.2⟩

theorem ite {q : Prop} [Decidable q] {m n : Check α} (hm : Behaves A p m) (hn : Behaves A p n) :
    Behaves A p (if q then m else n) := by
  split
  · exact hm
  · exact hn

theorem get : Behaves A p (MonadState.get : Check Checker) :=
  of_keeps (fun _ => rfl) fun s _ => .ok s

theorem reading {g : Scope Symbol → Except Diagnostic α} (h : ∀ scope, Faults (g scope)) :
    Behaves A p (Typing.reading g) :=
  of_keeps (fun _ => rfl) fun s _ => h s.scope

theorem ofExcept {x : Except Diagnostic α} (h : Faults x) :
    Behaves A p (Stateful.ofExcept x : Check α) :=
  of_keeps (fun _ => rfl) fun _ _ => h

theorem restores (hm : Behaves .growing p m) : Restores m := by
  intro s
  obtain ⟨new, grown⟩ := hm.scope s
  refine ⟨new, ?_⟩
  calc (m.exec s).2 = ⟨(m.exec s).2.scope, (m.exec s).2.function⟩ := rfl
    _ = ⟨s.scope.gain new, s.function⟩ := by rw [hm.function s, ← grown]

theorem keeps (hm : Behaves (.naming none) p m) : Keeps m := by
  intro s
  have same : (m.exec s).2.scope = s.scope := (hm.scope s).eq_of_none
  calc (m.exec s).2 = ⟨(m.exec s).2.scope, (m.exec s).2.function⟩ := rfl
    _ = s := by rw [hm.function s, same]

theorem withFrame (hm : Behaves .growing p m) : Behaves A p (ImpLower.withFrame m) := by
  refine of_keeps hm.restores.withFrame fun s hp => ?_
  rw [withFrame_exec]
  exact hm.fault _ hp

/-- Inside a function it does not matter what is around the function. -/
theorem inFunction {q : Option EnclosingFunction → Prop} {function : EnclosingFunction}
    (hm : Behaves A q m) (hq : q (some function)) : Behaves A p (Typing.inFunction function m) where
  scope s := hm.scope { s with function := some function }
  function _ := rfl
  fault s _ := by
    have fault := hm.fault { s with function := some function } hq
    unfold Typing.inFunction
    rw [Stateful.exec_ofFn]
    rcases hr : m.exec { s with function := some function } with ⟨e | a, t⟩
    · rw [hr] at fault
      exact .throw (fault e rfl)
    · exact .ok _

end Behaves

theorem isFault_of_declare {s : Scope Symbol} {name : String} {symbol : Symbol} {e : Scope.Error}
    (h : s.declare name symbol = .error e) (site : Construct) :
    (e.diagnose site).cause.isFault = true := by
  rcases s with ⟨_ | ⟨top, rest⟩, globals⟩
  · cases hl : List.lookup name globals <;> simp [Scope.declare, Scope.bind, hl, Except.map] at h
    subst h
    rfl
  · cases hl : List.lookup name top <;> simp [Scope.declare, Scope.bind, hl, Except.map] at h
    subst h
    rfl

theorem declare_behaves (name : String) (symbol : Symbol) (site : Construct)
    (le : .naming (some name) ≤ A) : Behaves A p (declare name symbol site) := by
  refine ⟨fun s => ?_, fun s => ?_, fun s _ => ?_⟩
  all_goals simp only [declare, Stateful.exec_ofFn]
  all_goals cases declared : s.scope.declare name symbol
  case refine_1.ok => exact le _ _ (Scope.gains_of_declare declared)
  case refine_1.error => exact A.refl s.scope
  case refine_3.ok => exact .ok ()
  case refine_3.error => exact .throw (isFault_of_declare declared site)
  all_goals rfl

theorem declareGlobal_behaves (name : String) (symbol : Symbol) (site : Construct)
    (le : .namingAtTop name ≤ A) : Behaves A p (declareGlobal name symbol site) := by
  have top : ∀ s : Scope Symbol, s.declareGlobal name symbol =
      (({ globals := s.globals } : Scope Symbol).declare name symbol).map
        fun t => { s with globals := t.globals } := by
    intro s
    cases hl : List.lookup name s.globals <;>
      simp [Scope.declareGlobal, Scope.declare, Scope.bind, hl, Except.map]
  refine ⟨fun s => ?_, fun s => ?_, fun s _ => ?_⟩
  · simp only [declareGlobal, Stateful.exec_ofFn]
    cases declared : s.scope.declareGlobal name symbol with
    | error e => exact A.refl s.scope
    | ok scope =>
        refine le _ _ fun top => ?_
        rw [Scope.declareGlobal_eq_declare top] at declared
        exact Scope.gains_of_declare declared
  · simp only [declareGlobal, Stateful.exec_ofFn]
    cases s.scope.declareGlobal name symbol <;> rfl
  · simp only [declareGlobal, Stateful.exec_ofFn, top]
    cases declared : ({ globals := s.scope.globals } : Scope Symbol).declare name symbol with
    | ok scope => exact .ok ()
    | error e => exact .throw (isFault_of_declare declared site)

/-! ## Statements -/

theorem requireStorable_behaves (ty : Ty) : Behaves A p (requireStorable ty) :=
  .ite (.throw rfl) (.pure _)

theorem checkVarDecl_behaves (decl : Source.VarDecl) (le : .naming (some decl.name) ≤ A) :
    Behaves A p (checkVarDecl decl) := by
  unfold checkVarDecl
  refine .bind (requireStorable_behaves _) fun _ => .bind .get fun s =>
    .ite (.bind (.throw rfl) fun _ => ?_) ?_
  all_goals
    refine .bind (.reading fun _ => checkIndices_faults _ _ _) fun dims =>
      .bind (declare_behaves _ _ _ le) fun _ => ?_
    split
    · exact .pure _
    · refine .ite (.bind (.throw rfl) fun _ => ?_) ?_
      all_goals
        exact .bind (.reading fun _ => checkExpr_faults _ _) fun _ =>
          .bind (.ofExcept (convertTo_faults _ _ _)) fun _ => .pure _

theorem checkCondition_behaves (condition : Source.Expr) (site : Construct) :
    Behaves A p (checkCondition condition site) :=
  .bind (.reading fun _ => checkExpr_faults _ _) fun _ =>
    .ite (.bind (.throw rfl) fun _ => .pure _) (.pure _)

/-- The one step that looks at the enclosing function. -/
theorem checkReturn_behaves (inside : ∀ f, p f → f ≠ none) (value : Option Source.Expr) :
    Behaves A p (checkReturn value) := by
  have keeps : Keeps (checkReturn value) := by
    refine .bind (fun _ => rfl) fun s => ?_
    split
    · exact .throw _
    · exact .pure _
    · exact .throw _
    · exact .bind (fun _ => rfl) fun _ => .throw _
    · exact .bind (fun _ => rfl) fun _ => .bind (fun _ => rfl) fun _ => .pure _
  refine .of_keeps keeps fun s hp => ?_
  have known : s.function.map EnclosingFunction.result ≠ none := by simpa using inside _ hp
  unfold checkReturn
  rw [Stateful.exec_bind_of_ok (Stateful.exec_get s)]
  split
  · contradiction
  · exact .ok _
  · exact .throw rfl
  · exact (Behaves.bind (A := A) (p := p) (.reading fun _ => checkExpr_faults _ _) fun _ =>
      .throw rfl).fault s hp
  · exact (Behaves.bind (A := A) (p := p) (.reading fun _ => checkExpr_faults _ _) fun _ =>
      .bind (.ofExcept (convertTo_faults _ _ _)) fun _ => .pure _).fault s hp

theorem widenCase_behaves (scrutinee compared value : Ty) :
    Behaves A p (widenCase scrutinee compared value) := by
  unfold widenCase
  split
  · exact .pure _
  · exact .throw rfl

theorem finishSwitch_faults (scrutinee : Typed.Expr) (compared : Ty)
    (cases : List (Typed.Expr × List Typed.Stmt)) :
    Faults (finishSwitch scrutinee compared cases) := by
  have each : ∀ test, Faults (cases.mapM fun c => finishCase test compared c.1 c.2) := by
    intro test
    induction cases with
    | nil => exact .pure _
    | cons c rest ih =>
        rw [List.mapM_cons]
        exact .bind (.bind (convertTo_faults _ _ _) fun _ => .pure _) fun _ =>
          .bind ih fun _ => .pure _
  exact .bind (atSite_faults _ _) fun test => .bind (each test) fun _ =>
    .bind (convertTo_faults _ _ _) fun _ => .pure _

end

/-- What is said of a statement: it binds at most the name that it declares. -/
def StmtBehaves (st : Source.Stmt) : Prop :=
  ∀ {A : Allowance Symbol}, .naming st.declares ≤ A → Behaves A (· ≠ none) (checkStmt st)

section

variable {A : Allowance Symbol}

theorem checkBlock_behaves_of {body : List Source.Stmt} (h : ∀ st ∈ body, StmtBehaves st) :
    Behaves .growing (· ≠ none) (checkBlock body) := by
  induction body with
  | nil =>
      rw [checkBlock]
      exact .pure _
  | cons st rest ih =>
      obtain ⟨head, tail⟩ := List.forall_mem_cons.mp h
      rw [checkBlock]
      exact .bind (head (Allowance.naming_le_growing _)) fun _ => .bind (ih tail) fun _ => .pure _

theorem checkCases_behaves_of {scrutinee compared : Ty} {cases : List Source.Case}
    (h : ∀ value body, Source.Case.mk value body ∈ cases → ∀ st ∈ body, StmtBehaves st) :
    Behaves A (· ≠ none) (checkCases scrutinee compared cases) := by
  induction cases generalizing compared with
  | nil =>
      rw [checkCases]
      exact .pure _
  | cons c rest ih =>
      obtain ⟨value, body⟩ := c
      rw [checkCases]
      refine .bind (.reading fun _ => checkExpr_faults _ _) fun _ =>
        .bind (widenCase_behaves _ _ _) fun _ =>
          .bind (checkBlock_behaves_of (h value body List.mem_cons_self)).withFrame fun _ =>
            .bind (ih ?_) fun _ => .pure _
      intro value' body' hm
      exact h value' body' (List.mem_cons_of_mem _ hm)

theorem stmtBehaves (st : Source.Stmt) : StmtBehaves st := by
  induction st using Source.Stmt.treeInduction with
  | block body ih =>
      intro A _
      rw [checkStmt]
      exact .bind (checkBlock_behaves_of ih).withFrame fun _ => .pure _
  | declare decl =>
      intro A le
      rw [checkStmt]
      exact .bind (checkVarDecl_behaves decl le) fun _ => .pure _
  | eval e =>
      intro A _
      rw [checkStmt]
      exact .bind (.reading fun _ => checkExpr_faults _ _) fun _ => .pure _
  | ifThen condition body ih =>
      intro A _
      rw [checkStmt]
      exact .bind (checkCondition_behaves _ _) fun _ =>
        .bind (checkBlock_behaves_of ih).withFrame fun _ => .pure _
  | ifElse condition body other ihb iho =>
      intro A _
      rw [checkStmt]
      exact .bind (checkCondition_behaves _ _) fun _ =>
        .bind (checkBlock_behaves_of ihb).withFrame fun _ =>
          .bind (checkBlock_behaves_of iho).withFrame fun _ => .pure _
  | forLoop decl condition step body ih =>
      intro A _
      rw [checkStmt]
      refine .withFrame ?_
      exact .bind (checkVarDecl_behaves decl (Allowance.naming_le_growing _)) fun _ =>
        .bind (checkCondition_behaves _ _) fun _ =>
          .bind (.reading fun _ => checkExpr_faults _ _) fun _ =>
            .bind (checkBlock_behaves_of ih).withFrame fun _ => .pure _
  | whileLoop condition body ih =>
      intro A _
      rw [checkStmt]
      exact .bind (checkCondition_behaves _ _) fun _ =>
        .bind (checkBlock_behaves_of ih).withFrame fun _ => .pure _
  | switch scrutinee cases ih =>
      intro A _
      rw [checkStmt]
      refine .bind (.reading fun _ => checkExpr_faults _ _) fun te =>
        .ite (.bind (.throw rfl) fun _ => ?_) ?_
      all_goals
        exact .bind (checkCases_behaves_of ih) fun _ => .ofExcept (finishSwitch_faults _ _ _)
  | ret value =>
      intro A _
      rw [checkStmt]
      exact .bind (checkReturn_behaves (fun _ h => h) value) fun _ => .pure _

theorem checkBlock_behaves (body : List Source.Stmt) :
    Behaves .growing (· ≠ none) (checkBlock body) :=
  checkBlock_behaves_of fun st _ => stmtBehaves st

theorem checkCases_keeps (scrutinee compared : Ty) (cases : List Source.Case) :
    Keeps (checkCases scrutinee compared cases) :=
  (checkCases_behaves_of fun _ _ _ st _ => stmtBehaves st).keeps

theorem checkStmt_behaves (st : Source.Stmt) :
    Behaves (.naming st.declares) (· ≠ none) (checkStmt st) :=
  stmtBehaves st fun _ _ h => h

/-! ## Declarations -/

theorem checkSizes_faults (scope : Scope Symbol) (name : String) (length : Nat)
    (es : List Source.Expr) : Faults (checkSizes scope name length es) := by
  have size : ∀ c, Faults (constantSize name c) := by
    intro c
    unfold constantSize
    split
    · exact .ite (.ok _) (.throw rfl)
    · exact .throw rfl
  induction es generalizing length with
  | nil =>
      rw [checkSizes]
      exact .pure _
  | cons e rest ih =>
      rw [checkSizes]
      refine .bind (checkExpr_faults _ _) fun _ => .bind (asIndex_faults _ _) fun _ =>
        .bind (size _) fun _ => .ite (.bind (.throw rfl) fun _ => ?_) ?_
      all_goals exact .bind (ih _) fun _ => .pure _

theorem constantInitializer_faults (name : String) (ty : Ty) (value : Typed.Expr) :
    Faults (constantInitializer name ty value) := by
  refine .bind (convertTo_faults _ _ _) fun _ => ?_
  split
  · exact .pure _
  · exact .throw rfl

theorem checkGlobal_behaves (decl : Source.VarDecl) (le : .naming (some decl.name) ≤ A) :
    Behaves A (fun _ => True) (checkGlobal decl) := by
  unfold checkGlobal
  refine .bind (requireStorable_behaves _) fun _ =>
    .bind (.reading fun _ => checkSizes_faults _ _ _ _) fun _ =>
      .bind (declare_behaves _ _ _ le) fun _ => ?_
  split
  · exact .pure _
  · refine .ite (.bind (.throw rfl) fun _ => ?_) ?_
    all_goals
      exact .bind (.reading fun _ => checkExpr_faults _ _) fun _ =>
        .bind (.ofExcept (constantInitializer_faults _ _ _)) fun _ => .pure _

theorem checkParameters_behaves (ps : List Source.VarDecl) :
    Behaves .growing (· ≠ none) (checkParameters ps) := by
  induction ps with
  | nil => exact .pure _
  | cons v rest ih =>
      exact .bind (checkVarDecl_behaves v (Allowance.naming_le_growing _)) fun _ =>
        .bind ih fun _ => .pure _

/-- What is checked in the frame of a function. -/
theorem functionBody_behaves (ps : List Source.VarDecl) (body : List Source.Stmt) :
    Behaves .growing (· ≠ none) (do
      let parameters ← checkParameters ps
      return (parameters, ← checkBlock body)) :=
  .bind (checkParameters_behaves ps) fun _ => .bind (checkBlock_behaves body) fun _ => .pure _

theorem checkFunction_behaves (decl : Source.FnDecl) (le : .namingAtTop decl.name ≤ A) :
    Behaves A (fun _ => True) (checkFunction decl) := by
  unfold checkFunction
  split
  on_goal 1 => refine .bind (.throw rfl) fun _ => ?_
  all_goals
    exact .bind (declareGlobal_behaves _ _ _ le) fun _ =>
      .bind ((functionBody_behaves _ _).withFrame.inFunction (by simp)) fun _ =>
        .ite (.bind (.throw rfl) fun _ => .pure _) (.pure _)

/-- At the top level a declaration binds at most its own name. -/
theorem checkDecl_behaves (d : Source.Decl) (le : .namingAtTop d.name ≤ A) :
    Behaves A (fun _ => True) (checkDecl d) := by
  cases d with
  | global decl =>
      have named : .naming (some decl.name) ≤ A := fun s t h =>
        le s t (Allowance.naming_le_namingAtTop decl.name s t h)
      exact .bind (checkGlobal_behaves decl named) fun _ => .pure _
  | function decl => exact .bind (checkFunction_behaves decl le) fun _ => .pure _

theorem checkDecls_behaves (decls : List Source.Decl) :
    Behaves .all (fun _ => True) (checkDecls decls) := by
  induction decls with
  | nil => exact .pure _
  | cons d rest ih =>
      exact .bind (checkDecl_behaves d fun _ _ _ => trivial) fun _ => .bind ih fun _ => .pure _

theorem checkProgram_faults (decls : List Source.Decl) : Faults (checkProgram decls) :=
  (checkDecls_behaves decls).fault {} trivial

end

end Typing

end ImpLower
