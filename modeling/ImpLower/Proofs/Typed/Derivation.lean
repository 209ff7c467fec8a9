import ImpLower.Proofs.Induction
import ImpLower.Proofs.Typed.Annotation
import ImpLower.Proofs.Typing.Inversion

/-!
# Annotations as derivations

A well-annotated tree is a derivation of the typing rules for its source, and the analysis of return
paths on typed statements is the one the rules describe on source statements.
-/

namespace ImpLower.Typed

open Typing

theorem Converted.Fits.converts {c : Converted} (h : c.Fits) : Converts c.value.ty c.target :=
  ⟨h.1, compatible_iff_into.mpr ⟨_, h.2⟩⟩

theorem areIndices_erase {Γ : Scope Symbol} {cs : List Converted}
    (integers : ∀ c ∈ cs, c.IsIndex) (typed : ∀ c ∈ cs, HasType Γ c.value.erase c.value.ty) :
    AreIndices Γ (cs.map Converted.erase) := by
  induction cs with
  | nil => exact .nil
  | cons c rest ih =>
      obtain ⟨integer, integers⟩ := List.forall_mem_cons.mp integers
      obtain ⟨head, typed⟩ := List.forall_mem_cons.mp typed
      rw [List.map_cons, Converted.erase_eq]
      exact .cons head integer.2.1 (ih integers typed)

theorem areArguments_erase {Γ : Scope Symbol} {cs : List Converted} (fits : ∀ c ∈ cs, c.Fits)
    (typed : ∀ c ∈ cs, HasType Γ c.value.erase c.value.ty) :
    AreArguments Γ (cs.map Converted.erase) (cs.map Converted.target) := by
  induction cs with
  | nil => exact .nil
  | cons c rest ih =>
      obtain ⟨fit, fits⟩ := List.forall_mem_cons.mp fits
      obtain ⟨head, typed⟩ := List.forall_mem_cons.mp typed
      rw [List.map_cons, Converted.erase_eq]
      exact .cons head fit.converts (ih fits typed)

theorem isNumeric_of_operationAt_arith {a : Arith} {ty : Ty} {op : Operation}
    (h : (BinOp.arith a).operationAt ty = .ok op) : ty.isNumeric = true := by
  cases ty <;> simp_all [BinOp.operationAt, Ty.isNumeric, Ty.isFloat, Ty.isInteger]

theorem isInteger_of_operationAt_bitwise {b : Bitwise} {ty : Ty} {op : Operation}
    (h : (BinOp.bitwise b).operationAt ty = .ok op) : ty.isInteger = true := by
  cases ty <;> simp_all [BinOp.operationAt, Ty.isInteger]

theorem hasType_operation {Γ : Scope Symbol} {op : Operation} {left right : Source.Expr}
    {l r ty : Ty} (typedLeft : HasType Γ left l) (typedRight : HasType Γ right r)
    (common : l.join r = some ty) (selected : op.surface.operationAt ty = .ok op) :
    HasType Γ (.binary op.surface left right) ty := by
  cases op with
  | int op => exact .arith typedLeft typedRight common (isNumeric_of_operationAt_arith selected)
  | float op => exact .arith typedLeft typedRight common (isNumeric_of_operationAt_arith selected)
  | bitwise op =>
      exact .bitwise typedLeft typedRight common (isInteger_of_operationAt_bitwise selected)

theorem ExprOk.hasType {Γ : Scope Symbol} {te : Expr} (h : ExprOk Γ te) :
    HasType Γ te.erase te.ty := by
  induction h with
  | literal value => exact .literal value
  | var bound deep integers _ ih =>
      rw [Expr.erase, eraseAll_eq_map]
      exact .var bound (by simpa using deep) (areIndices_erase integers ih)
  | assign bound deep integers _ fits target _ ihs ih =>
      rw [Expr.erase, eraseAll_eq_map, Converted.erase_eq]
      exact .assign bound (by simpa using deep) (areIndices_erase integers ihs) ih
        (target ▸ fits.converts)
  | @negate _ zero operand start _ _ ih =>
      rw [Expr.erase, Expr.ty]
      refine .negate ih ?_
      rw [← Literal.zero_isSome, start]
      rfl
  | arith common _ selected _ _ _ _ ihl ihr =>
      rw [Expr.erase, Converted.erase_eq, Converted.erase_eq]
      exact hasType_operation ihl ihr common selected
  | @compare test _ _ numericLeft numericRight _ _ _ _ _ _ _ ihl ihr =>
      rw [Expr.erase, Converted.erase_eq, Converted.erase_eq]
      cases test with
      | int op => exact .relation ihl ihr numericLeft numericRight
      | float op => exact .relation ihl ihr numericLeft numericRight
  | call bound fits _ ih =>
      rw [Expr.erase, eraseAll_eq_map]
      exact .call bound (areArguments_erase fits ih)

theorem withVar_erase (Γ : Scope Symbol) (v : VarDecl) : withVar Γ v.erase = bindVar Γ v := by
  simp [withVar, bindVar, VarDecl.erase]

theorem VarOk.typed {Γ : Scope Symbol} {v : VarDecl} (h : VarOk Γ v) : VarTyped Γ v.erase where
  storable := h.storable
  fresh := h.fresh
  sizes := areIndices_erase (fun c hc => (h.sizes c hc).1) fun c hc => (h.sizes c hc).2.hasType
  initial := by
    intro e he
    obtain ⟨c, hc, rfl⟩ := Option.map_eq_some_iff.mp he
    obtain ⟨scalar, target, fits, ok⟩ := h.initial c hc
    rw [withVar_erase, Converted.erase_eq]
    exact ⟨by simp [VarDecl.erase, scalar], c.value.ty, ok.hasType, by
      have := fits.converts
      rwa [target] at this⟩

/-! ## Statements -/

def StmtDerives (s : Stmt) : Prop :=
  ∀ {result : Ty} {Γ Γ' : Scope Symbol}, StmtOk result Γ s Γ' → StmtTyped result Γ s.erase Γ'

theorem blockTyped_erase {body : List Stmt} (derives : ∀ s ∈ body, StmtDerives s) {result : Ty}
    {Γ Γ' : Scope Symbol} (h : BlockOk result Γ body Γ') :
    BlockTyped result Γ (eraseBlock body) Γ' := by
  induction body generalizing Γ with
  | nil =>
      cases h
      exact .nil
  | cons s rest ih =>
      cases h with
      | cons head tail =>
          obtain ⟨derived, derives⟩ := List.forall_mem_cons.mp derives
          exact .cons (derived head) (ih derives tail)

theorem casesTyped_erase {cases : List Case} (derives : ∀ c ∈ cases, ∀ s ∈ c.body, StmtDerives s)
    {result : Ty} {Γ : Scope Symbol} {scrutinee compared : Ty} {test : Predicate}
    (compatible : Compatible scrutinee compared) (h : CasesOk result Γ compared test cases) :
    CasesTyped result Γ scrutinee (eraseCases cases) := by
  induction cases with
  | nil => exact .nil
  | cons c rest ih =>
      cases h with
      | @cons _ _ _ _ value body _ ok fits target inside tail =>
          obtain ⟨derived, derives⟩ := List.forall_mem_cons.mp derives
          rw [eraseCases, Converted.erase_eq]
          refine .cons ok.hasType ?_ (blockTyped_erase derived inside) (ih derives tail)
          have fit := fits.converts.2
          rw [target] at fit
          exact compatible.trans fit.symm

theorem stmtDerives (s : Stmt) : StmtDerives s := by
  induction s using Stmt.treeInduction with
  | block body ih =>
      intro result Γ Γ' h
      cases h with
      | block inside => exact .block (blockTyped_erase ih inside)
  | declare decl =>
      intro result Γ Γ' h
      cases h with
      | declare ok =>
          rw [Stmt.erase, ← withVar_erase]
          exact .declare ok.typed
  | eval e =>
      intro result Γ Γ' h
      cases h with
      | eval ok => exact .eval ok.hasType
  | ifThen condition body ih =>
      intro result Γ Γ' h
      cases h with
      | ifThen test boolean inside =>
          exact .ifThen (boolean ▸ test.hasType) (blockTyped_erase ih inside)
  | ifElse condition body other ihb iho =>
      intro result Γ Γ' h
      cases h with
      | ifElse test boolean inside otherwise =>
          exact .ifElse (boolean ▸ test.hasType) (blockTyped_erase ihb inside)
            (blockTyped_erase iho otherwise)
  | forLoop decl condition step body ih =>
      intro result Γ Γ' h
      cases h with
      | forLoop ok test boolean next inside =>
          rw [← withVar_erase] at test next inside
          exact .forLoop ok.typed (boolean ▸ test.hasType) next.hasType
            (blockTyped_erase ih inside)
  | whileLoop condition body ih =>
      intro result Γ Γ' h
      cases h with
      | whileLoop test boolean inside =>
          exact .whileLoop (boolean ▸ test.hasType) (blockTyped_erase ih inside)
  | switch scrutinee cases table ih =>
      intro result Γ Γ' h
      cases h with
      | switch ok fits comparable selected branches tabled =>
          rw [Stmt.erase, Converted.erase_eq]
          exact .switch ok.hasType (switchable_iff.mp comparable)
            (casesTyped_erase ih fits.converts.2 branches)
  | ret value =>
      intro result Γ Γ' h
      cases h with
      | ret returns ok fits target =>
          rw [Stmt.erase, Option.map_some, Converted.erase_eq]
          exact .ret returns ok.hasType (target ▸ fits.converts)
      | retVoid void => exact .retVoid void

theorem BlockOk.typed {result : Ty} {Γ Γ' : Scope Symbol} {body : List Stmt}
    (h : BlockOk result Γ body Γ') : BlockTyped result Γ (eraseBlock body) Γ' :=
  blockTyped_erase (fun s _ => stmtDerives s) h

/-! ## Return paths -/

theorem mustReturn_iff_of_forall {body : List Stmt}
    (h : ∀ s ∈ body, s.mustReturn = true ↔ Returns s.erase) :
    mustReturn body = true ↔ SomeReturns (eraseBlock body) := by
  induction body with
  | nil =>
      simp only [mustReturn, Bool.false_eq_true, eraseBlock, false_iff]
      intro hr
      cases hr
  | cons s rest ih =>
      obtain ⟨head, tail⟩ := List.forall_mem_cons.mp h
      rw [mustReturn, eraseBlock, Bool.or_eq_true, head, ih tail]
      constructor
      · rintro (here | later)
        · exact .head here
        · exact .tail later
      · intro hr
        cases hr with
        | head here => exact .inl here
        | tail later => exact .inr later

theorem Stmt.mustReturn_iff (s : Stmt) : s.mustReturn = true ↔ Returns s.erase := by
  induction s using Stmt.treeInduction with
  | block body ih =>
      rw [Stmt.mustReturn, Stmt.erase, mustReturn_iff_of_forall ih]
      exact ⟨.block, fun h => by cases h; assumption⟩
  | ifElse condition body other ihb iho =>
      rw [Stmt.mustReturn, Stmt.erase, Bool.and_eq_true, mustReturn_iff_of_forall ihb,
        mustReturn_iff_of_forall iho]
      exact ⟨fun h => .ifElse h.1 h.2, fun h => by cases h; exact ⟨‹_›, ‹_›⟩⟩
  | ret value => exact ⟨fun _ => .ret _, fun _ => rfl⟩
  | _ =>
      refine ⟨fun h => ?_, fun h => ?_⟩
      · simp [Stmt.mustReturn] at h
      · rw [Stmt.erase] at h
        cases h

theorem mustReturn_iff (body : List Stmt) :
    mustReturn body = true ↔ SomeReturns (eraseBlock body) :=
  mustReturn_iff_of_forall fun s _ => s.mustReturn_iff

/-! ## Constants -/

theorem Converted.constant?_eq (c : Converted) :
    c.constant? = c.value.constant?.bind (·.convert c.target) := by
  cases c
  rfl

/-- Folding an annotated expression and folding its source agree, and give a constant of the type of
the expression. -/
theorem ExprOk.constant?_eq {Γ : Scope Symbol} {te : Expr} (h : ExprOk Γ te) :
    te.constant? = foldedValue? te.erase ∧ ∀ l, te.constant? = some l → l.type = te.ty := by
  induction h with
  | literal value => exact ⟨rfl, fun l hl => by cases hl; rfl⟩
  | var bound deep integers _ ih => exact ⟨rfl, fun l hl => by cases hl⟩
  | assign bound deep integers _ fits target _ ihs ih => exact ⟨rfl, fun l hl => by cases hl⟩
  | @negate op zero operand start selected _ ih =>
      refine ⟨?_, fun l hl => ?_⟩
      · rw [Expr.constant?, Expr.erase, foldedValue?, ← ih.1]
        cases hc : operand.constant? with
        | none => rfl
        | some v => simp [ih.2 v hc, start, selected, Except.toOption]
      · rw [Expr.constant?] at hl
        obtain ⟨v, -, hv⟩ := Option.bind_eq_some_iff.mp hl
        exact Operation.type_of_eval hv
  | @arith op left right common same selected fitsLeft fitsRight _ _ ihl ihr =>
      refine ⟨?_, fun l hl => ?_⟩
      · rw [Expr.constant?, Expr.erase, foldedValue?, Converted.erase_eq, Converted.erase_eq, ← ihl.1,
          ← ihr.1, Converted.constant?_eq, Converted.constant?_eq, same]
        cases hl : left.value.constant? with
        | none => rfl
        | some a =>
            cases hr : right.value.constant? with
            | none => simp
            | some b => simp [ihl.2 a hl, ihr.2 b hr, common, selected, Except.toOption]
      · rw [Expr.constant?] at hl
        obtain ⟨a, -, hl⟩ := Option.bind_eq_some_iff.mp hl
        obtain ⟨b, -, hl⟩ := Option.bind_eq_some_iff.mp hl
        exact Operation.type_of_eval hl
  | @compare test left right numericLeft numericRight common same selected _ _ _ _ ihl ihr =>
      refine ⟨?_, fun l hl => by cases hl⟩
      rw [Expr.erase, foldedValue?]
      cases foldedValue? left.erase with
      | none => rfl
      | some a =>
          cases foldedValue? right.erase with
          | none => rfl
          | some b =>
              cases test <;>
                simp [Expr.constant?, Predicate.surface, BinOp.operationAt, Except.toOption]
  | call bound fits _ ih => exact ⟨rfl, fun l hl => by cases hl⟩

end ImpLower.Typed
