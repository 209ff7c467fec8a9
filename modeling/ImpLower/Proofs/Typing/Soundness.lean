import ImpLower.Proofs.Typed.Annotation
import ImpLower.Proofs.Typing.Statements

/-!
# What a successful check gives

An accepted phrase comes back with right annotations and nothing else changed, and right annotations
are a derivation of the typing rules for the source they annotate.
-/

namespace ImpLower

/-- A variable holds values, and so does each parameter. -/
def Symbol.Storable : Symbol → Prop
  | .var ty _ => ty ≠ .void
  | .fn _ parameters => ∀ ty ∈ parameters, ty ≠ .void

namespace Typing

open Typed

def Storable (Γ : Scope Symbol) : Prop :=
  ∀ name symbol, Γ.lookup name = some symbol → symbol.Storable

theorem Storable.enter {Γ : Scope Symbol} (h : Storable Γ) : Storable Γ.enter := by
  intro name symbol hl
  rw [Scope.lookup_enter] at hl
  exact h name symbol hl

theorem Storable.push {Γ : Scope Symbol} (h : Storable Γ) (name : String) {symbol : Symbol}
    (hs : symbol.Storable) : Storable (Γ.push name symbol) := by
  intro other symbol' hl
  by_cases hn : other = name
  · subst hn
    rw [Scope.lookup_push_self] at hl
    cases hl
    exact hs
  · rw [Scope.lookup_push_of_ne _ _ hn] at hl
    exact h other symbol' hl

theorem Storable.withVar {Γ : Scope Symbol} (h : Storable Γ) {decl : Source.VarDecl}
    (hd : decl.ty ≠ .void) : Storable (withVar Γ decl) :=
  h.push decl.name hd

/-! ## Expressions -/

/-- A conversion into a storable type starts from a value. -/
theorem ne_void_of_into {source target : Ty} {c : Conversion} (h : target ≠ .void)
    (hc : Conversion.into target source = .ok c) : source ≠ .void := by
  rintro rfl
  cases target <;> cases hc
  exact h rfl

theorem ne_void_of_isNumeric {ty : Ty} (h : ty.isNumeric = true) : ty ≠ .void := by
  rintro rfl
  cases h

theorem ne_void_of_isInteger {ty : Ty} (h : ty.isInteger = true) : ty ≠ .void := by
  rintro rfl
  cases h

/-- An operation works at a type that holds values. -/
theorem ne_void_of_operationAt {op : BinOp} {ty : Ty} {o : Operation}
    (h : op.operationAt ty = .ok o) : ty ≠ .void := by
  rintro rfl
  cases op <;> cases h

/-- A checked expression is its source with right annotations. -/
def Accepts (Γ : Scope Symbol) (e : Source.Expr) : Prop :=
  ∀ te, checkExpr Γ e = .ok te → te.erase = e ∧ ExprOk Γ te

theorem Indexes.annotated {Γ : Scope Symbol} {e : Source.Expr} {c : Converted}
    (accepts : Accepts Γ e) (h : Indexes Γ e c) :
    c.value.erase = e ∧ c.IsIndex ∧ ExprOk Γ c.value := by
  obtain ⟨te, conversion, he, hi, hc, rfl⟩ := h
  obtain ⟨erased, ok⟩ := accepts te he
  exact ⟨erased, ⟨⟨ne_void_of_isInteger hi, hc⟩, hi, rfl⟩, ok⟩

theorem Supplies.annotated {Γ : Scope Symbol} {ty : Ty} {e : Source.Expr} {c : Converted}
    (accepts : Accepts Γ e) (hty : ty ≠ .void) (h : Supplies Γ ty e c) :
    c.value.erase = e ∧ c.Fits ∧ c.target = ty ∧ ExprOk Γ c.value := by
  obtain ⟨te, conversion, he, hc, rfl⟩ := h
  obtain ⟨erased, ok⟩ := accepts te he
  exact ⟨erased, ⟨ne_void_of_into hty hc, hc⟩, rfl, ok⟩

theorem indexes_annotated {Γ : Scope Symbol} {es : List Source.Expr} {cs : List Converted}
    (accepts : ∀ e ∈ es, Accepts Γ e) (h : List.Forall₂ (Indexes Γ) es cs) :
    cs.map Converted.erase = es ∧ ∀ c ∈ cs, c.IsIndex ∧ ExprOk Γ c.value := by
  induction h with
  | nil => simp
  | cons head _ ih =>
      obtain ⟨accepted, accepts⟩ := List.forall_mem_cons.mp accepts
      obtain ⟨erased, index, ok⟩ := head.annotated accepted
      obtain ⟨rest, oks⟩ := ih accepts
      exact ⟨by simp [erased, rest], List.forall_mem_cons.mpr ⟨⟨index, ok⟩, oks⟩⟩

theorem arguments_annotated {Γ : Scope Symbol} {es : List Source.Expr} {cs : List Converted}
    (accepts : ∀ e ∈ es, Accepts Γ e) (storable : ∀ c ∈ cs, c.target ≠ .void)
    (h : List.Forall₂ (fun e c => Supplies Γ c.target e c) es cs) :
    cs.map Converted.erase = es ∧ ∀ c ∈ cs, c.Fits ∧ ExprOk Γ c.value := by
  induction h with
  | nil => simp
  | cons head _ ih =>
      obtain ⟨accepted, accepts⟩ := List.forall_mem_cons.mp accepts
      obtain ⟨hty, storable⟩ := List.forall_mem_cons.mp storable
      obtain ⟨erased, fits, -, ok⟩ := head.annotated accepted hty
      obtain ⟨rest, oks⟩ := ih accepts storable
      exact ⟨by simp [erased, rest], List.forall_mem_cons.mpr ⟨⟨fits, ok⟩, oks⟩⟩

theorem accepts_binary {Γ : Scope Symbol} {op : BinOp} {left right : Source.Expr}
    (acceptsLeft : Accepts Γ left) (acceptsRight : Accepts Γ right) :
    Accepts Γ (.binary op left right) := by
  intro te h
  obtain ⟨l, r, hl, hr, hb⟩ := checkExpr_binary_eq_ok.mp h
  obtain ⟨erasedLeft, okLeft⟩ := acceptsLeft l hl
  obtain ⟨erasedRight, okRight⟩ := acceptsRight r hr
  cases hop : op.isRelational with
  | true =>
      cases op with
      | relation op =>
          obtain ⟨nl, nr, ty, test, c₁, c₂, hj, ht, h₁, h₂, rfl⟩ := binary_relation_eq_ok.mp hb
          have hs : test.surface = .relation op := Predicate.surface_of_predicateAt ht
          refine ⟨?_, .compare nl nr hj rfl (hs ▸ ht) ⟨ne_void_of_isNumeric nl, h₁⟩
            ⟨ne_void_of_isNumeric nr, h₂⟩ okLeft okRight⟩
          simp [Expr.erase, Converted.value, hs, erasedLeft, erasedRight]
      | arith op => cases hop
      | bitwise op => cases hop
  | false =>
      obtain ⟨ty, o, c₁, c₂, hj, ho, h₁, h₂, rfl⟩ := (binary_operation_eq_ok hop).mp hb
      have hs : o.surface = op := Operation.surface_of_operationAt ho
      have hv : ty ≠ .void := ne_void_of_operationAt ho
      refine ⟨?_, .arith hj rfl (hs ▸ ho) ⟨ne_void_of_into hv h₁, h₁⟩ ⟨ne_void_of_into hv h₂, h₂⟩
        okLeft okRight⟩
      simp [Expr.erase, Converted.value, hs, erasedLeft, erasedRight]

theorem checkExpr_accepts {Γ : Scope Symbol} (storable : Storable Γ) (e : Source.Expr) :
    Accepts Γ e := by
  induction e using Source.Expr.treeInduction with
  | literal value =>
      intro te h
      cases checkExpr_literal_eq_ok.mp h
      exact ⟨rfl, .literal value⟩
  | var name indices ih =>
      intro te h
      obtain ⟨ty, rank, cs, hl, hn, hs, rfl⟩ := checkExpr_var_eq_ok.mp h
      obtain ⟨erased, oks⟩ := indexes_annotated ih hs
      refine ⟨by rw [Expr.erase, eraseAll_eq_map, erased], .var hl ?_ ?_ ?_⟩
      · rwa [← hs.length_eq]
      · exact fun c hc => (oks c hc).1
      · exact fun c hc => (oks c hc).2
  | assign name indices value ihs ih =>
      intro te h
      obtain ⟨ty, rank, cs, c, hl, hn, hs, hc, rfl⟩ := checkExpr_assign_eq_ok.mp h
      obtain ⟨erased, oks⟩ := indexes_annotated ihs hs
      obtain ⟨erasedValue, fits, target, ok⟩ := hc.annotated ih (storable name _ hl)
      refine ⟨?_, .assign hl ?_ ?_ ?_ fits target ok⟩
      · rw [Expr.erase, eraseAll_eq_map, erased, Converted.erase_eq, erasedValue]
      · rwa [← hs.length_eq]
      · exact fun c hc => (oks c hc).1
      · exact fun c hc => (oks c hc).2
  | negate operand ih =>
      intro te h
      obtain ⟨t, zero, op, ht, hz, ho, rfl⟩ := checkExpr_negate_eq_ok.mp h
      obtain ⟨erased, ok⟩ := ih t ht
      exact ⟨by rw [Expr.erase, erased], .negate hz ho ok⟩
  | binary op left right ihl ihr => exact accepts_binary ihl ihr
  | call callee arguments ih =>
      intro te h
      obtain ⟨result, cs, hl, hs, rfl⟩ := checkExpr_call_eq_ok.mp h
      have params : ∀ c ∈ cs, c.target ≠ .void := fun c hc =>
        storable callee _ hl c.target (List.mem_map_of_mem hc)
      obtain ⟨erased, oks⟩ := arguments_annotated ih params hs
      refine ⟨by rw [Expr.erase, eraseAll_eq_map, erased], .call hl ?_ ?_⟩
      · exact fun c hc => (oks c hc).1
      · exact fun c hc => (oks c hc).2

/-! ## Variables and statements -/

theorem ChecksVar.annotated {Γ : Scope Symbol} {decl : Source.VarDecl} {v : Typed.VarDecl}
    (storable : Storable Γ) (h : ChecksVar Γ decl v) :
    v.erase = decl ∧ VarOk Γ v ∧ bindVar Γ v = withVar Γ decl := by
  obtain ⟨hname, hty, hvoid, fresh, sizes, initial⟩ := h
  obtain ⟨erased, oks⟩ := indexes_annotated (fun e _ => checkExpr_accepts storable e) sizes
  rcases v with ⟨name, ty, dims, init⟩
  rcases decl with ⟨ty', name', init', dims'⟩
  simp only at hname hty hvoid fresh sizes initial erased oks
  subst hname hty
  have after : bindVar Γ ⟨name, ty, dims, init⟩ = withVar Γ ⟨ty, name, init', dims'⟩ := by
    simp only [bindVar, withVar, sizes.length_eq]
  cases initial with
  | none =>
      refine ⟨?_, ⟨hvoid, fresh, oks, ?_⟩, after⟩
      · simp [VarDecl.erase, erased]
      · intro c hc
        cases hc
  | some h =>
      obtain ⟨hnil, supplies⟩ := h
      obtain ⟨erasedValue, fits, target, ok⟩ :=
        supplies.annotated (checkExpr_accepts (storable.withVar hvoid) _) hvoid
      refine ⟨?_, ⟨hvoid, fresh, oks, ?_⟩, after⟩
      · simp [VarDecl.erase, erased, erasedValue]
      · intro c hc
        cases hc
        subst hnil
        exact ⟨List.forall₂_nil_left_iff.mp sizes, target, fits, after ▸ ok⟩

def StmtAccepts (s : Source.Stmt) : Prop :=
  ∀ {function : EnclosingFunction} {Γ Γ' : Scope Symbol} {ts : Typed.Stmt}, Storable Γ →
    ChecksStmt function Γ s ts Γ' → ts.erase = s ∧ StmtOk function.result Γ ts Γ' ∧ Storable Γ'

theorem block_accepts {body : List Source.Stmt} (accepts : ∀ s ∈ body, StmtAccepts s)
    {function : EnclosingFunction} {Γ Γ' : Scope Symbol} {tb : List Typed.Stmt}
    (storable : Storable Γ) (h : ChecksBlock function Γ body tb Γ') :
    eraseBlock tb = body ∧ BlockOk function.result Γ tb Γ' := by
  induction body generalizing Γ tb with
  | nil =>
      obtain ⟨rfl, rfl⟩ := checksBlock_nil.mp h
      exact ⟨rfl, .nil⟩
  | cons s rest ih =>
      obtain ⟨ts, trest, Γ₁, hs, hr, rfl⟩ := checksBlock_cons.mp h
      obtain ⟨accepted, accepts⟩ := List.forall_mem_cons.mp accepts
      obtain ⟨erased, ok, storable⟩ := accepted storable hs
      obtain ⟨erasedRest, okRest⟩ := ih accepts storable hr
      exact ⟨by rw [eraseBlock, erased, erasedRest], .cons ok okRest⟩

theorem cases_accepts {cases : List Source.Case}
    (accepts : ∀ value body, Source.Case.mk value body ∈ cases → ∀ s ∈ body, StmtAccepts s)
    {function : EnclosingFunction} {Γ : Scope Symbol} {scrutinee compared final : Ty}
    {test : Predicate} {pairs : List (Typed.Expr × List Typed.Stmt)} {tcs : List Typed.Case}
    (storable : Storable Γ) (hfinal : final ≠ .void)
    (h : ChecksCases function Γ scrutinee compared cases final pairs)
    (finished : List.Forall₂ (FinishesCase test final) pairs tcs) :
    eraseCases tcs = cases ∧ CasesOk function.result Γ final test tcs := by
  induction cases generalizing compared pairs tcs with
  | nil =>
      obtain ⟨-, rfl⟩ := checksCases_nil.mp h
      cases finished
      exact ⟨rfl, .nil⟩
  | cons c rest ih =>
      obtain ⟨value, body⟩ := c
      obtain ⟨te, ty, tb, Γ₁, others, he, -, inside, hr, rfl⟩ := checksCases_cons.mp h
      obtain _ | ⟨⟨conversion, hc, rfl⟩, finished⟩ := finished
      obtain ⟨erased, ok⟩ := checkExpr_accepts storable value te he
      obtain ⟨erasedBody, okBody⟩ :=
        block_accepts (accepts value body List.mem_cons_self) storable.enter inside
      obtain ⟨erasedRest, okRest⟩ :=
        ih (fun value body hm => accepts value body (List.mem_cons_of_mem _ hm)) hr finished
      refine ⟨?_, .cons ok ⟨ne_void_of_into hfinal hc, hc⟩ rfl okBody okRest⟩
      rw [eraseCases, Converted.erase_eq, Converted.value, erased, erasedBody, erasedRest]

/-- Values that a predicate compares exist. -/
theorem ne_void_of_predicateAt {op : BinOp} {ty : Ty} {p : Predicate}
    (h : op.predicateAt ty = .ok p) : ty ≠ .void := by
  rintro rfl
  cases op <;> cases h

theorem forLoop_accepts {decl : Source.VarDecl} {condition step : Source.Expr}
    {body : List Source.Stmt} (accepts : ∀ s ∈ body, StmtAccepts s) :
    StmtAccepts (.forLoop decl condition step body) := by
  intro function Γ Γ' ts storable h
  obtain ⟨rfl, v, tc, te, tb, Γ₁, hv, hc, hb, he, inside, rfl⟩ := checksStmt_forLoop.mp h
  have storable' := storable.enter.withVar hv.storable
  obtain ⟨erasedVar, okVar, after⟩ := hv.annotated storable.enter
  obtain ⟨erased, ok⟩ := checkExpr_accepts storable' condition tc hc
  obtain ⟨erasedStep, okStep⟩ := checkExpr_accepts storable' step te he
  obtain ⟨erasedBody, okBody⟩ := block_accepts accepts storable'.enter inside
  rw [← after] at ok okStep okBody
  exact ⟨by rw [Stmt.erase, erasedVar, erased, erasedStep, erasedBody],
    .forLoop okVar ok hb okStep okBody, storable⟩

theorem switch_accepts {scrutinee : Source.Expr} {cases : List Source.Case}
    (accepts : ∀ value body, Source.Case.mk value body ∈ cases → ∀ s ∈ body, StmtAccepts s) :
    StmtAccepts (.switch scrutinee cases) := by
  intro function Γ Γ' ts storable h
  obtain ⟨rfl, te, compared, pairs, he, hs, hc, hf⟩ := checksStmt_switch.mp h
  obtain ⟨test, conversion, tcs, ht, hcv, finished, rfl⟩ := finishSwitch_eq_ok.mp hf
  have hv := ne_void_of_predicateAt ht
  obtain ⟨erased, ok⟩ := checkExpr_accepts storable scrutinee te he
  obtain ⟨erasedCases, okCases⟩ := cases_accepts accepts storable hv hc finished
  refine ⟨?_, .switch ok ⟨ne_void_of_into hv hcv, hcv⟩ hs ht okCases ?_, storable⟩
  · rw [Stmt.erase, Converted.erase_eq, Converted.value, erased, erasedCases]
  · intro table
    simp only [isTable, Bool.and_eq_true, List.all_eq_true] at table
    exact ⟨table.1.1, table.2⟩

theorem ret_accepts (value : Option Source.Expr) : StmtAccepts (.ret value) := by
  intro function Γ Γ' ts storable h
  obtain ⟨rfl, ⟨hr, rfl, rfl⟩ | ⟨hr, e, c, rfl, rfl, supplies⟩⟩ := checksStmt_ret.mp h
  · exact ⟨rfl, .retVoid hr, storable⟩
  · obtain ⟨erased, fits, target, ok⟩ :=
      supplies.annotated (checkExpr_accepts storable e) hr
    refine ⟨?_, .ret hr ok fits target, storable⟩
    rw [Stmt.erase, Option.map_some, Converted.erase_eq, erased]

theorem checkStmt_accepts (s : Source.Stmt) : StmtAccepts s := by
  induction s using Source.Stmt.treeInduction with
  | block body ih =>
      intro function Γ Γ' ts storable h
      obtain ⟨rfl, tb, Γ₁, inside, rfl⟩ := checksStmt_block.mp h
      obtain ⟨erased, ok⟩ := block_accepts ih storable.enter inside
      exact ⟨by rw [Stmt.erase, erased], .block ok, storable⟩
  | declare decl =>
      intro function Γ Γ' ts storable h
      obtain ⟨rfl, v, hv, rfl⟩ := checksStmt_declare.mp h
      obtain ⟨erased, ok, after⟩ := hv.annotated storable
      exact ⟨by rw [Stmt.erase, erased], after ▸ .declare ok, storable.withVar hv.storable⟩
  | eval e =>
      intro function Γ Γ' ts storable h
      obtain ⟨rfl, te, he, rfl⟩ := checksStmt_eval.mp h
      obtain ⟨erased, ok⟩ := checkExpr_accepts storable e te he
      exact ⟨by rw [Stmt.erase, erased], .eval ok, storable⟩
  | ifThen condition body ih =>
      intro function Γ Γ' ts storable h
      obtain ⟨rfl, tc, tb, Γ₁, hc, hb, inside, rfl⟩ := checksStmt_ifThen.mp h
      obtain ⟨erased, ok⟩ := checkExpr_accepts storable condition tc hc
      obtain ⟨erasedBody, okBody⟩ := block_accepts ih storable.enter inside
      exact ⟨by rw [Stmt.erase, erased, erasedBody], .ifThen ok hb okBody, storable⟩
  | ifElse condition body other ihb iho =>
      intro function Γ Γ' ts storable h
      obtain ⟨rfl, tc, tb, tother, Γ₁, Γ₂, hc, hb, inside, otherwise, rfl⟩ :=
        checksStmt_ifElse.mp h
      obtain ⟨erased, ok⟩ := checkExpr_accepts storable condition tc hc
      obtain ⟨erasedBody, okBody⟩ := block_accepts ihb storable.enter inside
      obtain ⟨erasedOther, okOther⟩ := block_accepts iho storable.enter otherwise
      exact ⟨by rw [Stmt.erase, erased, erasedBody, erasedOther],
        .ifElse ok hb okBody okOther, storable⟩
  | forLoop decl condition step body ih => exact forLoop_accepts ih
  | whileLoop condition body ih =>
      intro function Γ Γ' ts storable h
      obtain ⟨rfl, tc, tb, Γ₁, hc, hb, inside, rfl⟩ := checksStmt_whileLoop.mp h
      obtain ⟨erased, ok⟩ := checkExpr_accepts storable condition tc hc
      obtain ⟨erasedBody, okBody⟩ := block_accepts ih storable.enter inside
      exact ⟨by rw [Stmt.erase, erased, erasedBody], .whileLoop ok hb okBody, storable⟩
  | switch scrutinee cases ih => exact switch_accepts ih
  | ret value => exact ret_accepts value

end Typing

end ImpLower
