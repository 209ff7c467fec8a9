import ImpLower.Source
import ImpLower.Typed.Tree

/-!
# Induction over trees

Expressions and statements nest through lists. The principles below hide that: the hypothesis for a
list is one for each of its members, so a proof about trees needs no companion about lists of trees.
-/

namespace ImpLower

namespace Source

theorem Expr.treeInduction {P : Expr → Prop}
    (literal : ∀ value, P (.literal value))
    (var : ∀ name indices, (∀ e ∈ indices, P e) → P (.var name indices))
    (assign : ∀ name indices value, (∀ e ∈ indices, P e) → P value → P (.assign name indices value))
    (negate : ∀ operand, P operand → P (.negate operand))
    (binary : ∀ op left right, P left → P right → P (.binary op left right))
    (call : ∀ callee arguments, (∀ e ∈ arguments, P e) → P (.call callee arguments)) (e : Expr) :
    P e :=
  @Expr.rec P (fun es => ∀ e ∈ es, P e) literal var assign negate binary call
    (fun _ h => nomatch h) (fun _ _ head tail => List.forall_mem_cons.mpr ⟨head, tail⟩) e

theorem Stmt.treeInduction {P : Stmt → Prop}
    (block : ∀ body, (∀ s ∈ body, P s) → P (.block body))
    (declare : ∀ decl, P (.declare decl))
    (eval : ∀ e, P (.eval e))
    (ifThen : ∀ condition body, (∀ s ∈ body, P s) → P (.ifThen condition body))
    (ifElse : ∀ condition body other, (∀ s ∈ body, P s) → (∀ s ∈ other, P s) →
      P (.ifElse condition body other))
    (forLoop : ∀ decl condition step body, (∀ s ∈ body, P s) →
      P (.forLoop decl condition step body))
    (whileLoop : ∀ condition body, (∀ s ∈ body, P s) → P (.whileLoop condition body))
    (switch : ∀ scrutinee cases, (∀ value body, Case.mk value body ∈ cases → ∀ s ∈ body, P s) →
      P (.switch scrutinee cases))
    (ret : ∀ value, P (.ret value)) (s : Stmt) : P s :=
  @Stmt.rec P (fun | .mk _ body => ∀ s ∈ body, P s) (fun body => ∀ s ∈ body, P s)
    (fun cases => ∀ value body, Case.mk value body ∈ cases → ∀ s ∈ body, P s)
    block declare eval ifThen ifElse forLoop whileLoop switch ret (fun _ _ h => h)
    (fun _ h => nomatch h) (fun _ _ head tail => List.forall_mem_cons.mpr ⟨head, tail⟩)
    (fun _ _ h => nomatch h)
    (fun
      | .mk _ _, _, head, tail, _, _, h => by
          rcases List.mem_cons.mp h with h | h
          · cases h
            exact head
          · exact tail _ _ h) s

end Source

namespace Typed

theorem Expr.treeInduction {P : Expr → Prop}
    (literal : ∀ value, P (.literal value))
    (var : ∀ name ty indices, (∀ c ∈ indices, P c.value) → P (.var name ty indices))
    (assign : ∀ name ty indices value, (∀ c ∈ indices, P c.value) → P value.value →
      P (.assign name ty indices value))
    (negate : ∀ op zero operand, P operand → P (.negate op zero operand))
    (arith : ∀ op left right, P left.value → P right.value → P (.arith op left right))
    (compare : ∀ test left right, P left.value → P right.value → P (.compare test left right))
    (call : ∀ callee result arguments, (∀ c ∈ arguments, P c.value) →
      P (.call callee result arguments)) (e : Expr) : P e :=
  @Expr.rec P (fun c => P c.value) (fun cs => ∀ c ∈ cs, P c.value) literal var assign negate arith
    compare call (fun _ _ _ h => h) (fun _ h => nomatch h)
    (fun _ _ head tail => List.forall_mem_cons.mpr ⟨head, tail⟩) e

theorem Stmt.treeInduction {P : Stmt → Prop}
    (block : ∀ body, (∀ s ∈ body, P s) → P (.block body))
    (declare : ∀ decl, P (.declare decl))
    (eval : ∀ e, P (.eval e))
    (ifThen : ∀ condition body, (∀ s ∈ body, P s) → P (.ifThen condition body))
    (ifElse : ∀ condition body other, (∀ s ∈ body, P s) → (∀ s ∈ other, P s) →
      P (.ifElse condition body other))
    (forLoop : ∀ decl condition step body, (∀ s ∈ body, P s) →
      P (.forLoop decl condition step body))
    (whileLoop : ∀ condition body, (∀ s ∈ body, P s) → P (.whileLoop condition body))
    (switch : ∀ scrutinee cases table, (∀ c ∈ cases, ∀ s ∈ c.body, P s) →
      P (.switch scrutinee cases table))
    (ret : ∀ value, P (.ret value)) (s : Stmt) : P s :=
  @Stmt.rec P (fun c => ∀ s ∈ c.body, P s) (fun body => ∀ s ∈ body, P s)
    (fun cases => ∀ c ∈ cases, ∀ s ∈ c.body, P s)
    block declare eval ifThen ifElse forLoop whileLoop switch ret (fun _ _ _ _ h => h)
    (fun _ h => nomatch h) (fun _ _ head tail => List.forall_mem_cons.mpr ⟨head, tail⟩)
    (fun _ h => nomatch h) (fun _ _ head tail => List.forall_mem_cons.mpr ⟨head, tail⟩) s

end Typed

end ImpLower
