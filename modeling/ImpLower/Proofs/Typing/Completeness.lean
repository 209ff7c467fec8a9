import ImpLower.Proofs.Typing.Statements

/-!
# Well-typed phrases are accepted

Whatever the typing rules derive, the checker accepts, at the type the rules give.
-/

namespace ImpLower.Typing

open Typed (Converted)

/-! ## Expressions -/

/-- The checker finds every type the rules give to an expression. -/
def Infers (Γ : Scope Symbol) (e : Source.Expr) : Prop :=
  ∀ ty, HasType Γ e ty → ∃ te, checkExpr Γ e = .ok te ∧ te.ty = ty

theorem Converts.into {source target : Ty} (h : Converts source target) :
    ∃ c, Conversion.into target source = .ok c :=
  compatible_iff_into.mp h.2

theorem indexes_of_areIndices {Γ : Scope Symbol} {es : List Source.Expr}
    (infers : ∀ e ∈ es, Infers Γ e) (h : AreIndices Γ es) :
    ∃ cs, List.Forall₂ (Indexes Γ) es cs := by
  induction es with
  | nil => exact ⟨[], .nil⟩
  | cons e rest ih =>
      obtain ⟨head, tail⟩ := List.forall_mem_cons.mp infers
      cases h with
      | cons typed integer indices =>
          obtain ⟨te, he, rfl⟩ := head _ typed
          obtain ⟨cs, hs⟩ := ih tail indices
          have compatible : Compatible te.ty .long :=
            .inr ⟨by simp [Ty.isNumeric, integer], rfl⟩
          obtain ⟨conversion, hc⟩ := compatible_iff_into.mp compatible
          exact ⟨_ :: cs, .cons ⟨te, conversion, he, integer, hc, rfl⟩ hs⟩

theorem supplies_of_hasType {Γ : Scope Symbol} {e : Source.Expr} {source target : Ty}
    (infers : Infers Γ e) (typed : HasType Γ e source) (converts : Converts source target) :
    ∃ c, Supplies Γ target e c ∧ c.target = target := by
  obtain ⟨te, he, rfl⟩ := infers _ typed
  obtain ⟨conversion, hc⟩ := converts.into
  exact ⟨_, ⟨te, conversion, he, hc, rfl⟩, rfl⟩

theorem supplies_of_areArguments {Γ : Scope Symbol} {es : List Source.Expr} {parameters : List Ty}
    (infers : ∀ e ∈ es, Infers Γ e) (h : AreArguments Γ es parameters) :
    ∃ cs, List.Forall₂ (fun e c => Supplies Γ c.target e c) es cs ∧
      cs.map Converted.target = parameters := by
  induction es generalizing parameters with
  | nil =>
      cases h
      exact ⟨[], .nil, rfl⟩
  | cons e rest ih =>
      obtain ⟨head, tail⟩ := List.forall_mem_cons.mp infers
      cases h with
      | cons typed converts arguments =>
          obtain ⟨c, supplies, target⟩ := supplies_of_hasType head typed converts
          obtain ⟨cs, hs, targets⟩ := ih tail arguments
          exact ⟨c :: cs, .cons (target ▸ supplies) hs, by rw [List.map_cons, target, targets]⟩

/-- Operands that have a common type convert to it. -/
theorem into_of_join {l r ty : Ty} (h : l.join r = some ty) :
    (∃ c, Conversion.into ty l = .ok c) ∧ ∃ c, Conversion.into ty r = .ok c :=
  ⟨compatible_iff_into.mp (compatible_of_join h).1,
    compatible_iff_into.mp (compatible_of_join h).2⟩

theorem infers_operation {Γ : Scope Symbol} {op : BinOp} (hop : op.isRelational = false)
    {left right : Source.Expr} {l r ty : Ty} (infersLeft : Infers Γ left)
    (infersRight : Infers Γ right) (typedLeft : HasType Γ left l) (typedRight : HasType Γ right r)
    (common : l.join r = some ty) (selected : ∃ o, op.operationAt ty = .ok o) :
    ∃ te, checkExpr Γ (.binary op left right) = .ok te ∧ te.ty = ty := by
  obtain ⟨tl, hl, rfl⟩ := infersLeft _ typedLeft
  obtain ⟨tr, hr, rfl⟩ := infersRight _ typedRight
  obtain ⟨o, ho⟩ := selected
  obtain ⟨⟨c₁, h₁⟩, c₂, h₂⟩ := into_of_join common
  have hb := (binary_operation_eq_ok hop).mpr ⟨ty, o, c₁, c₂, common, ho, h₁, h₂, rfl⟩
  exact ⟨_, checkExpr_binary_eq_ok.mpr ⟨tl, tr, hl, hr, hb⟩, rfl⟩

theorem operationAt_arith_of_isNumeric (a : Arith) {ty : Ty} (h : ty.isNumeric = true) :
    ∃ o, (BinOp.arith a).operationAt ty = .ok o := by
  cases ty <;> simp_all [BinOp.operationAt, Ty.isNumeric, Ty.isFloat, Ty.isInteger]

theorem operationAt_bitwise_of_isInteger (b : Bitwise) {ty : Ty} (h : ty.isInteger = true) :
    ∃ o, (BinOp.bitwise b).operationAt ty = .ok o := by
  simp [BinOp.operationAt, h]

theorem predicateAt_of_switchable (r : Relation) {ty : Ty} (h : Switchable ty) :
    ∃ p, (BinOp.relation r).predicateAt ty = .ok p := by
  cases ty <;> simp_all [Switchable, BinOp.predicateAt, Ty.isNumeric, Ty.isFloat, Ty.isInteger]

theorem infers_relation {Γ : Scope Symbol} {op : Relation} {left right : Source.Expr} {l r : Ty}
    (infersLeft : Infers Γ left) (infersRight : Infers Γ right) (typedLeft : HasType Γ left l)
    (typedRight : HasType Γ right r) (numericLeft : l.isNumeric = true)
    (numericRight : r.isNumeric = true) :
    ∃ te, checkExpr Γ (.binary (.relation op) left right) = .ok te ∧ te.ty = .boolean := by
  obtain ⟨tl, hl, rfl⟩ := infersLeft _ typedLeft
  obtain ⟨tr, hr, rfl⟩ := infersRight _ typedRight
  obtain ⟨ty, common⟩ := compatible_iff_join.mp (.inr ⟨numericLeft, numericRight⟩)
  obtain ⟨⟨c₁, h₁⟩, c₂, h₂⟩ := into_of_join common
  have numeric : ty.isNumeric = true := by
    rcases (compatible_of_join common).1 with same | ⟨-, numeric⟩
    · exact same ▸ numericLeft
    · exact numeric
  obtain ⟨test, ht⟩ := predicateAt_of_switchable op (.inl numeric)
  have hb := binary_relation_eq_ok.mpr
    ⟨numericLeft, numericRight, ty, test, c₁, c₂, common, ht, h₁, h₂, rfl⟩
  exact ⟨_, checkExpr_binary_eq_ok.mpr ⟨tl, tr, hl, hr, hb⟩, rfl⟩

theorem checkExpr_infers (Γ : Scope Symbol) (e : Source.Expr) : Infers Γ e := by
  induction e using Source.Expr.treeInduction with
  | literal value =>
      intro ty h
      cases h
      exact ⟨.literal value, checkExpr_literal_eq_ok.mpr rfl, rfl⟩
  | var name indices ih =>
      intro ty h
      cases h with
      | @var _ _ rank _ bound deep integers =>
          obtain ⟨cs, hs⟩ := indexes_of_areIndices ih integers
          exact ⟨_, checkExpr_var_eq_ok.mpr ⟨ty, rank, cs, bound, deep, hs, rfl⟩, rfl⟩
  | assign name indices value ihs ih =>
      intro ty h
      cases h with
      | @assign _ _ _ rank _ _ bound deep integers typed converts =>
          obtain ⟨cs, hs⟩ := indexes_of_areIndices ihs integers
          obtain ⟨c, supplies, -⟩ := supplies_of_hasType ih typed converts
          exact ⟨_, checkExpr_assign_eq_ok.mpr ⟨ty, rank, cs, c, bound, deep, hs, supplies, rfl⟩,
            rfl⟩
  | negate operand ih =>
      intro ty h
      cases h with
      | negate typed numeric =>
          obtain ⟨te, he, rfl⟩ := ih _ typed
          obtain ⟨op, ho⟩ := operationAt_arith_of_isNumeric .sub numeric
          rw [← Literal.zero_isSome, Option.isSome_iff_exists] at numeric
          obtain ⟨zero, hz⟩ := numeric
          exact ⟨_, checkExpr_negate_eq_ok.mpr ⟨te, zero, op, he, hz, ho, rfl⟩, rfl⟩
  | binary op left right ihl ihr =>
      intro ty h
      cases h with
      | @arith op _ _ _ _ _ typedLeft typedRight common numeric =>
          exact infers_operation rfl ihl ihr typedLeft typedRight common
            (operationAt_arith_of_isNumeric op numeric)
      | @bitwise op _ _ _ _ _ typedLeft typedRight common integer =>
          exact infers_operation rfl ihl ihr typedLeft typedRight common
            (operationAt_bitwise_of_isInteger op integer)
      | relation typedLeft typedRight numericLeft numericRight =>
          exact infers_relation ihl ihr typedLeft typedRight numericLeft numericRight
  | call callee arguments ih =>
      intro ty h
      cases h with
      | call bound fits =>
          obtain ⟨cs, hs, rfl⟩ := supplies_of_areArguments ih fits
          exact ⟨_, checkExpr_call_eq_ok.mpr ⟨ty, cs, bound, hs, rfl⟩, rfl⟩

/-! ## Variables and statements -/

theorem VarTyped.checks {Γ : Scope Symbol} {decl : Source.VarDecl} (h : VarTyped Γ decl) :
    ∃ v, ChecksVar Γ decl v := by
  obtain ⟨cs, sizes⟩ := indexes_of_areIndices (fun e _ => checkExpr_infers Γ e) h.sizes
  cases hi : decl.initializer with
  | none =>
      refine ⟨⟨decl.name, decl.ty, cs, none⟩, ⟨rfl, rfl, h.storable, h.fresh, sizes, ?_⟩⟩
      rw [hi]
      exact .none
  | some e =>
      obtain ⟨scalar, source, typed, converts⟩ := h.initial e hi
      obtain ⟨c, supplies, -⟩ := supplies_of_hasType (checkExpr_infers _ e) typed converts
      refine ⟨⟨decl.name, decl.ty, cs, some c⟩, ⟨rfl, rfl, h.storable, h.fresh, sizes, ?_⟩⟩
      rw [hi]
      exact .some ⟨scalar, supplies⟩

def StmtInfers (s : Source.Stmt) : Prop :=
  ∀ {function : EnclosingFunction} {Γ Γ' : Scope Symbol}, StmtTyped function.result Γ s Γ' →
    ∃ ts, ChecksStmt function Γ s ts Γ'

theorem block_infers {body : List Source.Stmt} (infers : ∀ s ∈ body, StmtInfers s)
    {function : EnclosingFunction} {Γ Γ' : Scope Symbol} (h : BlockTyped function.result Γ body Γ') :
    ∃ tb, ChecksBlock function Γ body tb Γ' := by
  induction body generalizing Γ with
  | nil =>
      cases h
      exact ⟨[], checksBlock_nil.mpr ⟨rfl, rfl⟩⟩
  | cons s rest ih =>
      cases h with
      | cons head tail =>
          obtain ⟨inferred, infers⟩ := List.forall_mem_cons.mp infers
          obtain ⟨ts, hs⟩ := inferred head
          obtain ⟨tb, hb⟩ := ih infers tail
          exact ⟨ts :: tb, checksBlock_cons.mpr ⟨ts, tb, _, hs, hb, rfl⟩⟩

/-- Cases that fit the scrutinee one by one also fit together: the type of the comparison stays in
the family of the scrutinee while it widens, and in the end every case converts to it. -/
theorem cases_infer {cases : List Source.Case}
    (infers : ∀ value body, Source.Case.mk value body ∈ cases → ∀ s ∈ body, StmtInfers s)
    {function : EnclosingFunction} {Γ : Scope Symbol} {scrutinee compared : Ty}
    (family : Compatible scrutinee compared) (h : CasesTyped function.result Γ scrutinee cases) :
    ∃ final pairs, ChecksCases function Γ scrutinee compared cases final pairs ∧
      Compatible scrutinee final ∧ ∀ pair ∈ pairs, Compatible scrutinee pair.1.ty := by
  induction cases generalizing compared with
  | nil => exact ⟨compared, [], checksCases_nil.mpr ⟨rfl, rfl⟩, family, by simp⟩
  | cons c rest ih =>
      cases h with
      | @cons _ _ _ _ value body _ typed compatible inside tail =>
          obtain ⟨te, he, rfl⟩ := checkExpr_infers Γ value _ typed
          obtain ⟨ty, hj⟩ := compatible_iff_join.mp (family.symm.trans compatible)
          have family' : Compatible scrutinee ty := family.trans (compatible_of_join hj).1
          obtain ⟨tb, hb⟩ := block_infers (infers value body List.mem_cons_self) inside
          obtain ⟨final, pairs, hc, hf, hp⟩ :=
            ih (fun value body hm => infers value body (List.mem_cons_of_mem _ hm)) family' tail
          exact ⟨final, (te, tb) :: pairs,
            checksCases_cons.mpr ⟨te, ty, tb, _, pairs, he, hj, hb, hc, rfl⟩, hf,
            List.forall_mem_cons.mpr ⟨compatible, hp⟩⟩

theorem finishes_of_compatible (test : Predicate) {final : Ty}
    {pairs : List (Typed.Expr × List Typed.Stmt)}
    (h : ∀ pair ∈ pairs, Compatible pair.1.ty final) :
    ∃ tcs, List.Forall₂ (FinishesCase test final) pairs tcs := by
  induction pairs with
  | nil => exact ⟨[], .nil⟩
  | cons pair rest ih =>
      obtain ⟨head, tail⟩ := List.forall_mem_cons.mp h
      obtain ⟨conversion, hc⟩ := compatible_iff_into.mp head
      obtain ⟨tcs, hs⟩ := ih tail
      exact ⟨_ :: tcs, .cons ⟨conversion, hc, rfl⟩ hs⟩

theorem Switchable.of_compatible {a b : Ty} (h : Switchable a) (hab : Compatible a b) :
    Switchable b := by
  rcases hab with rfl | ⟨-, numeric⟩
  · exact h
  · exact .inl numeric

theorem switch_infers {scrutinee : Source.Expr} {cases : List Source.Case}
    (infers : ∀ value body, Source.Case.mk value body ∈ cases → ∀ s ∈ body, StmtInfers s) :
    StmtInfers (.switch scrutinee cases) := by
  intro function Γ Γ' h
  cases h with
  | switch typed comparable branches =>
      obtain ⟨te, he, rfl⟩ := checkExpr_infers Γ scrutinee _ typed
      obtain ⟨final, pairs, hc, hf, hp⟩ := cases_infer infers (.inl rfl) branches
      obtain ⟨test, ht⟩ := predicateAt_of_switchable .eq (comparable.of_compatible hf)
      obtain ⟨conversion, hcv⟩ := compatible_iff_into.mp hf
      obtain ⟨tcs, finished⟩ := finishes_of_compatible test
        fun pair hm => (hp pair hm).symm.trans hf
      have hs := finishSwitch_eq_ok.mpr ⟨test, conversion, tcs, ht, hcv, finished, rfl⟩
      exact ⟨_, checksStmt_switch.mpr
        ⟨rfl, te, final, pairs, he, switchable_iff.mpr comparable, hc, hs⟩⟩

theorem ret_infers (value : Option Source.Expr) : StmtInfers (.ret value) := by
  intro function Γ Γ' h
  cases h with
  | ret returns typed converts =>
      obtain ⟨c, supplies, -⟩ := supplies_of_hasType (checkExpr_infers Γ _) typed converts
      exact ⟨_, checksStmt_ret.mpr ⟨rfl, .inr ⟨returns, _, c, rfl, rfl, supplies⟩⟩⟩
  | retVoid void => exact ⟨_, checksStmt_ret.mpr ⟨rfl, .inl ⟨void, rfl, rfl⟩⟩⟩

theorem checkStmt_infers (s : Source.Stmt) : StmtInfers s := by
  induction s using Source.Stmt.treeInduction with
  | block body ih =>
      intro function Γ Γ' h
      cases h with
      | block inside =>
          obtain ⟨tb, hb⟩ := block_infers ih inside
          exact ⟨_, checksStmt_block.mpr ⟨rfl, tb, _, hb, rfl⟩⟩
  | declare decl =>
      intro function Γ Γ' h
      cases h with
      | declare typed =>
          obtain ⟨v, hv⟩ := typed.checks
          exact ⟨_, checksStmt_declare.mpr ⟨rfl, v, hv, rfl⟩⟩
  | eval e =>
      intro function Γ Γ' h
      cases h with
      | eval typed =>
          obtain ⟨te, he, -⟩ := checkExpr_infers Γ e _ typed
          exact ⟨_, checksStmt_eval.mpr ⟨rfl, te, he, rfl⟩⟩
  | ifThen condition body ih =>
      intro function Γ Γ' h
      cases h with
      | ifThen test inside =>
          obtain ⟨tc, hc, hty⟩ := checkExpr_infers Γ condition _ test
          obtain ⟨tb, hb⟩ := block_infers ih inside
          exact ⟨_, checksStmt_ifThen.mpr ⟨rfl, tc, tb, _, hc, hty, hb, rfl⟩⟩
  | ifElse condition body other ihb iho =>
      intro function Γ Γ' h
      cases h with
      | ifElse test inside otherwise =>
          obtain ⟨tc, hc, hty⟩ := checkExpr_infers Γ condition _ test
          obtain ⟨tb, hb⟩ := block_infers ihb inside
          obtain ⟨tother, ho⟩ := block_infers iho otherwise
          exact ⟨_, checksStmt_ifElse.mpr ⟨rfl, tc, tb, tother, _, _, hc, hty, hb, ho, rfl⟩⟩
  | forLoop decl condition step body ih =>
      intro function Γ Γ' h
      cases h with
      | forLoop typed test next inside =>
          obtain ⟨v, hv⟩ := typed.checks
          obtain ⟨tc, hc, hty⟩ := checkExpr_infers _ condition _ test
          obtain ⟨te, he, -⟩ := checkExpr_infers _ step _ next
          obtain ⟨tb, hb⟩ := block_infers ih inside
          exact ⟨_, checksStmt_forLoop.mpr ⟨rfl, v, tc, te, tb, _, hv, hc, hty, he, hb, rfl⟩⟩
  | whileLoop condition body ih =>
      intro function Γ Γ' h
      cases h with
      | whileLoop test inside =>
          obtain ⟨tc, hc, hty⟩ := checkExpr_infers Γ condition _ test
          obtain ⟨tb, hb⟩ := block_infers ih inside
          exact ⟨_, checksStmt_whileLoop.mpr ⟨rfl, tc, tb, _, hc, hty, hb, rfl⟩⟩
  | switch scrutinee cases ih => exact switch_infers ih
  | ret value => exact ret_infers value

end ImpLower.Typing
