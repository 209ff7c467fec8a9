import ImpLower.Proofs.Induction
import ImpLower.Proofs.Typed.Annotation

/-!
# Giving up jump tables

A switch that could be a jump table may as well be a chain of comparisons. Here some of the switches
of a program give up their tables, and nothing else about it changes. What is left is annotated as
well as before.
-/

namespace ImpLower.Typed

mutual

/-- The second statement is the first after some switches gave up their tables. -/
inductive StmtUntables : Stmt → Stmt → Prop
  | block {body body' : List Stmt} (inside : BlockUntables body body') :
      StmtUntables (.block body) (.block body')
  | declare (v : VarDecl) : StmtUntables (.declare v) (.declare v)
  | eval (e : Expr) : StmtUntables (.eval e) (.eval e)
  | ifThen {body body' : List Stmt} (condition : Expr) (inside : BlockUntables body body') :
      StmtUntables (.ifThen condition body) (.ifThen condition body')
  | ifElse {body body' other other' : List Stmt} (condition : Expr)
      (inside : BlockUntables body body') (otherwise : BlockUntables other other') :
      StmtUntables (.ifElse condition body other) (.ifElse condition body' other')
  | forLoop {body body' : List Stmt} (v : VarDecl) (condition step : Expr)
      (inside : BlockUntables body body') :
      StmtUntables (.forLoop v condition step body) (.forLoop v condition step body')
  | whileLoop {body body' : List Stmt} (condition : Expr) (inside : BlockUntables body body') :
      StmtUntables (.whileLoop condition body) (.whileLoop condition body')
  | switch {cases cases' : List Case} {table table' : Bool} (scrutinee : Converted)
      (branches : CasesUntable cases cases') (given : table' = true → table = true) :
      StmtUntables (.switch scrutinee cases table) (.switch scrutinee cases' table')
  | ret (value : Option Converted) : StmtUntables (.ret value) (.ret value)

inductive BlockUntables : List Stmt → List Stmt → Prop
  | nil : BlockUntables [] []
  | cons {s s' : Stmt} {rest rest' : List Stmt} (head : StmtUntables s s')
      (tail : BlockUntables rest rest') : BlockUntables (s :: rest) (s' :: rest')

/-- Cases, one by one: only their bodies can change. -/
inductive CasesUntable : List Case → List Case → Prop
  | nil : CasesUntable [] []
  | cons {body body' : List Stmt} {rest rest' : List Case} (value : Converted) (test : Predicate)
      (constant : Option Literal) (inside : BlockUntables body body')
      (tail : CasesUntable rest rest') :
      CasesUntable (.mk value test constant body :: rest) (.mk value test constant body' :: rest')

end

/-- The second declaration is the first after some switches gave up their tables. -/
inductive DeclUntables : Decl → Decl → Prop
  | global (g : Global) : DeclUntables (.global g) (.global g)
  | function {body body' : List Stmt} (name : String) (result : Ty) (parameters : List VarDecl)
      (inside : BlockUntables body body') :
      DeclUntables (.function ⟨name, result, parameters, body⟩)
        (.function ⟨name, result, parameters, body'⟩)

/-- The second program is the first after some switches gave up their tables. -/
def Untables (ds ds' : List Decl) : Prop :=
  List.Forall₂ DeclUntables ds ds'

/-! ## Annotations stay right -/

/-- Giving up tables keeps the annotations of the statement right, and where it returns. -/
def KeepsAnnotations (st : Stmt) : Prop :=
  ∀ {st' : Stmt}, StmtUntables st st' → st'.mustReturn = st.mustReturn ∧
    ∀ {result : Ty} {Γ Γ' : Scope Symbol}, StmtOk result Γ st Γ' → StmtOk result Γ st' Γ'

theorem block_keepsAnnotations {body : List Stmt} (keeps : ∀ s ∈ body, KeepsAnnotations s)
    {body' : List Stmt} (h : BlockUntables body body') : mustReturn body' = mustReturn body ∧
      ∀ {result : Ty} {Γ Γ' : Scope Symbol}, BlockOk result Γ body Γ' → BlockOk result Γ body' Γ' := by
  induction body generalizing body' with
  | nil =>
      cases h
      exact ⟨rfl, id⟩
  | cons s rest ih =>
      obtain ⟨first, others⟩ := List.forall_mem_cons.mp keeps
      cases h with
      | cons head tail =>
          obtain ⟨returns, stays⟩ := first head
          obtain ⟨returns', stays'⟩ := ih others tail
          refine ⟨by rw [mustReturn, mustReturn, returns, returns'], fun ok => ?_⟩
          cases ok with
          | cons okHead okTail => exact .cons (stays okHead) (stays' okTail)

theorem cases_keepAnnotations {cases : List Case}
    (keeps : ∀ c ∈ cases, ∀ s ∈ c.body, KeepsAnnotations s) {cases' : List Case}
    (h : CasesUntable cases cases') : cases'.map Case.constant = cases.map Case.constant ∧
      ∀ {result : Ty} {Γ : Scope Symbol} {compared : Ty} {test : Predicate},
        CasesOk result Γ compared test cases → CasesOk result Γ compared test cases' := by
  induction cases generalizing cases' with
  | nil =>
      cases h
      exact ⟨rfl, id⟩
  | cons c rest ih =>
      obtain ⟨first, others⟩ := List.forall_mem_cons.mp keeps
      cases h with
      | cons value test constant inside tail =>
          obtain ⟨constants, stays⟩ := ih others tail
          refine ⟨by rw [List.map_cons, List.map_cons, constants]; rfl, fun ok => ?_⟩
          cases ok with
          | cons ok fits target okBody okTail =>
              exact .cons ok fits target ((block_keepsAnnotations first inside).2 okBody)
                (stays okTail)

theorem switch_keepsAnnotations {scrutinee : Converted} {cases : List Case} {table : Bool}
    (keeps : ∀ c ∈ cases, ∀ s ∈ c.body, KeepsAnnotations s) :
    KeepsAnnotations (.switch scrutinee cases table) := by
  intro st' h
  cases h with
  | @switch _ cases' _ table' _ branches given =>
      obtain ⟨constants, stays⟩ := cases_keepAnnotations keeps branches
      refine ⟨rfl, fun ok => ?_⟩
      cases ok with
      | switch ok fits comparable selected branches tabled =>
          refine .switch ok fits comparable selected (stays branches) fun left => ?_
          obtain ⟨integer, all⟩ := tabled (given left)
          refine ⟨integer, fun c hc => ?_⟩
          have here : c.constant ∈ cases.map Case.constant :=
            constants ▸ List.mem_map_of_mem hc
          obtain ⟨c₀, mem, same⟩ := List.mem_map.mp here
          exact same ▸ all c₀ mem

theorem stmt_keepsAnnotations (st : Stmt) : KeepsAnnotations st := by
  induction st using Stmt.treeInduction with
  | block body ih =>
      rintro _ ⟨inside⟩
      obtain ⟨returns, stays⟩ := block_keepsAnnotations ih inside
      refine ⟨by rw [Stmt.mustReturn, Stmt.mustReturn, returns], fun ok => ?_⟩
      cases ok with
      | block inside => exact .block (stays inside)
  | declare v =>
      rintro _ ⟨⟩
      exact ⟨rfl, id⟩
  | eval e =>
      rintro _ ⟨⟩
      exact ⟨rfl, id⟩
  | ifThen condition body ih =>
      intro st' h
      cases h with
      | ifThen _ inside =>
          obtain ⟨-, stays⟩ := block_keepsAnnotations ih inside
          refine ⟨rfl, fun ok => ?_⟩
          cases ok with
          | ifThen test boolean inside => exact .ifThen test boolean (stays inside)
  | ifElse condition body other ihb iho =>
      intro st' h
      cases h with
      | ifElse _ inside otherwise =>
          obtain ⟨returns, stays⟩ := block_keepsAnnotations ihb inside
          obtain ⟨returns', stays'⟩ := block_keepsAnnotations iho otherwise
          refine ⟨by rw [Stmt.mustReturn, Stmt.mustReturn, returns, returns'], fun ok => ?_⟩
          cases ok with
          | ifElse test boolean inside otherwise =>
              exact .ifElse test boolean (stays inside) (stays' otherwise)
  | forLoop v condition step body ih =>
      intro st' h
      cases h with
      | forLoop _ _ _ inside =>
          obtain ⟨-, stays⟩ := block_keepsAnnotations ih inside
          refine ⟨rfl, fun ok => ?_⟩
          cases ok with
          | forLoop ok test boolean next inside => exact .forLoop ok test boolean next (stays inside)
  | whileLoop condition body ih =>
      intro st' h
      cases h with
      | whileLoop _ inside =>
          obtain ⟨-, stays⟩ := block_keepsAnnotations ih inside
          refine ⟨rfl, fun ok => ?_⟩
          cases ok with
          | whileLoop test boolean inside => exact .whileLoop test boolean (stays inside)
  | switch scrutinee cases table ih => exact switch_keepsAnnotations ih
  | ret value =>
      rintro _ ⟨⟩
      exact ⟨rfl, id⟩

theorem BlockUntables.mustReturn_eq {body body' : List Stmt} (h : BlockUntables body body') :
    mustReturn body' = mustReturn body :=
  (block_keepsAnnotations (fun s _ => stmt_keepsAnnotations s) h).1

theorem BlockUntables.blockOk {body body' : List Stmt} (h : BlockUntables body body') {result : Ty}
    {Γ Γ' : Scope Symbol} (ok : BlockOk result Γ body Γ') : BlockOk result Γ body' Γ' :=
  (block_keepsAnnotations (fun s _ => stmt_keepsAnnotations s) h).2 ok

theorem Untables.declsOk {ds ds' : List Decl} (h : Untables ds ds') {Γ : Scope Symbol}
    (ok : DeclsOk Γ ds) : DeclsOk Γ ds' := by
  induction h generalizing Γ with
  | nil => exact .nil
  | cons head _ ih =>
      cases head with
      | global g =>
          cases ok with
          | global ok tail => exact .global ok (ih tail)
      | function name result parameters inside =>
          cases ok with
          | function ok tail =>
              obtain ⟨Γ₁, Γ₂, bound, body⟩ := ok.body
              refine .function ⟨ok.fresh, ⟨Γ₁, Γ₂, bound, inside.blockOk body⟩, fun value => ?_⟩
                (ih tail)
              exact inside.mustReturn_eq.trans (ok.returns value)

end ImpLower.Typed
