import ImpLower.Proofs.Code.Layout

/-!
# Counters along the code of statements

Registers and slots are handed out upwards, so what code uses lies between the counters before and
after it. A statement at most adds names to the innermost frame.
-/

namespace ImpLower.Code

open Typed

/-- No counter has gone down. -/
structure Counters.Le (k k' : Counters) : Prop where
  registers : k.registers ≤ k'.registers
  slots : k.slots ≤ k'.slots

namespace Counters.Le

theorem refl (k : Counters) : k.Le k :=
  ⟨Nat.le_refl _, Nat.le_refl _⟩

theorem trans {k k₁ k' : Counters} (h : k.Le k₁) (h' : k₁.Le k') : k.Le k' :=
  ⟨Nat.le_trans h.registers h'.registers, Nat.le_trans h.slots h'.slots⟩

/-- Code of an expression takes registers only. -/
theorem expr {r r' : Nat} (le : r ≤ r') (c : Nat) : Counters.Le ⟨r, c⟩ ⟨r', c⟩ :=
  ⟨le, Nat.le_refl c⟩

end Counters.Le

section

variable {sig : Signatures} {F : Function} {result : Ty} {sc sc' : Names} {p q : Place}
  {k k' : Counters} {exit : Option Place}

theorem ExprCode.grows {e : Expr} {r r' : Nat} {is : List Instruction} {v : Option Operand}
    (h : ExprCode sig sc e r is v r') : r ≤ r' :=
  (exprGrows sig e h).1

theorem ConvertedCode.grows {e : Converted} {r r' : Nat} {is : List Instruction} {v : Operand}
    (h : ConvertedCode sig sc e r is v r') : r ≤ r' ∧ v.Below r' :=
  convertedCode_grows (exprGrows sig e.value) h

theorem ArgumentsCode.grows {es : List Converted} {r r' : Nat} {is : List Instruction}
    {vs : List Operand} (h : ArgumentsCode sig sc es r is vs r') :
    r ≤ r' ∧ ∀ v ∈ vs, v.Below r' :=
  argumentsCode_grows (fun e _ => exprGrows sig e.value) h

theorem OffsetCode.grows {es : List Converted} {sizes : List Operand} {after : Option Operand}
    {r r' : Nat} {is : List Instruction} (h : OffsetCode sig sc es sizes none r is after r') :
    r ≤ r' :=
  (offsetCode_grows (fun e _ => exprGrows sig e.value) (by simp) h).1

theorem VarCode.grows {v : VarDecl} {c r r' : Nat} {is : List Instruction} {sizes : List Operand}
    (h : VarCode sig sc v c r is sizes r') : r ≤ r' ∧ ∀ o ∈ sizes, o.Below r' := by
  cases h with
  | plain storable bare indices dims count =>
      obtain ⟨le, below⟩ := dims.grows
      have le' := count.grows below
      exact ⟨by omega, fun o ho => (below o ho).mono le'⟩
  | initialized storable given scalar target code =>
      exact ⟨code.grows.1, fun o ho => nomatch ho⟩

theorem blockCode_le {body : List Stmt}
    (grows : ∀ st ∈ body, ∀ {sc sc' p k k' exit}, StmtCode sig F result sc st p k sc' exit k' →
      k.Le k') (h : BlockCode sig F result sc body p k exit k') : k.Le k' := by
  induction body generalizing sc p k with
  | nil =>
      cases h
      exact .refl _
  | cons st rest ih =>
      obtain ⟨first, others⟩ := List.forall_mem_cons.mp grows
      cases h with
      | cons head tail => exact (first head).trans (ih others tail)
      | cut head => exact first head

theorem tableCode_le {compared : Ty} {test : Predicate} {e : Nat} {cases : List Case}
    {blocks : List Nat}
    (grows : ∀ c ∈ cases, ∀ {sc p k k' exit}, BlockCode sig F result sc c.body p k exit k' → k.Le k')
    (h : TableCode sig F result sc compared test e cases blocks k k') : k.Le k' := by
  induction cases generalizing blocks k with
  | nil =>
      cases h
      exact .refl _
  | cons c rest ih =>
      obtain ⟨first, others⟩ := List.forall_mem_cons.mp grows
      cases h with
      | cons ok fits target inside joins tail => exact (first inside).trans (ih others tail)

theorem chainCode_le {compared : Ty} {test : Predicate} {x : Operand} {e : Nat} {cases : List Case}
    (grows : ∀ c ∈ cases, ∀ {sc p k k' exit}, BlockCode sig F result sc c.body p k exit k' → k.Le k')
    (h : ChainCode sig F result sc compared test x e cases p k q k') : k.Le k' := by
  induction cases generalizing p k with
  | nil =>
      cases h
      exact .refl _
  | cons c rest ih =>
      obtain ⟨first, others⟩ := List.forall_mem_cons.mp grows
      cases h with
      | cons target code hosted branch inside joins tail =>
          exact ((Counters.Le.expr (Nat.le_succ_of_le code.grows.1) _).trans (first inside)).trans
            (ih others tail)

theorem StmtCode.le {st : Stmt} (h : StmtCode sig F result sc st p k sc' exit k') : k.Le k' := by
  induction st using Stmt.treeInduction generalizing sc sc' p k k' exit with
  | block body ih =>
      cases h with
      | block inside => exact blockCode_le ih inside
  | declare v =>
      cases h with
      | declare code hosted => exact ⟨code.grows.1, Nat.le_succ _⟩
  | eval e =>
      cases h with
      | eval code hosted => exact .expr code.grows _
  | ifThen condition body ih =>
      cases h with
      | ifThen boolean code hosted test inside joins =>
          exact (Counters.Le.expr code.grows _).trans (blockCode_le ih inside)
  | ifElse condition body other ih ihOther =>
      cases h with
      | ifElse boolean code hosted test inside joins otherwise joinsToo =>
          exact ((Counters.Le.expr code.grows _).trans (blockCode_le ih inside)).trans
            (blockCode_le ihOther otherwise)
  | forLoop v condition step body ih =>
      cases h with
      | forLoop declared hosted enters boolean code hostedTest test inside joins next hostedStep again =>
          have inner := blockCode_le ih inside
          have first := declared.grows.1
          have second := code.grows
          have third := next.grows
          have registers := inner.registers
          have slots := inner.slots
          simp only at registers slots
          exact ⟨by simp only; omega, by simp only; omega⟩
  | whileLoop condition body ih =>
      cases h with
      | whileLoop enters boolean code hosted test inside joins =>
          exact (Counters.Le.expr code.grows _).trans (blockCode_le ih inside)
  | switch scrutinee cases table ih =>
      have grows : ∀ c ∈ cases, ∀ {sc p k k' exit},
          BlockCode sig F result sc c.body p k exit k' → k.Le k' :=
        fun c hc _ _ _ _ _ inside => blockCode_le (ih c hc) inside
      cases h with
      | table code hosted integer selected constants jump branches =>
          exact (Counters.Le.expr code.grows.1 _).trans (tableCode_le grows branches)
      | chain code hosted selected branches leaves =>
          exact (Counters.Le.expr code.grows.1 _).trans (chainCode_le grows branches)
  | ret value =>
      cases h with
      | ret target code hosted leaves => exact .expr code.grows.1 _
      | retVoid void leaves => exact .refl _

theorem BlockCode.le {body : List Stmt} (h : BlockCode sig F result sc body p k exit k') : k.Le k' :=
  blockCode_le (fun _ _ _ _ _ _ _ _ code => code.le) h

theorem TableCode.le {compared : Ty} {test : Predicate} {e : Nat} {cases : List Case}
    {blocks : List Nat} (h : TableCode sig F result sc compared test e cases blocks k k') :
    k.Le k' :=
  tableCode_le (fun _ _ _ _ _ _ _ inside => inside.le) h

theorem ChainCode.le {compared : Ty} {test : Predicate} {x : Operand} {e : Nat} {cases : List Case}
    (h : ChainCode sig F result sc compared test x e cases p k q k') : k.Le k' :=
  chainCode_le (fun _ _ _ _ _ _ _ inside => inside.le) h

theorem StmtCode.names_eq_gain {st : Stmt} (h : StmtCode sig F result sc st p k sc' exit k') :
    ∃ new, sc' = sc.gain new := by
  cases h with
  | declare code hosted => exact ⟨_, Scope.push_eq_gain _ _ _⟩
  | _ => exact ⟨[], (Scope.gain_nil _).symm⟩

end

end ImpLower.Code
