import ImpLower.Proofs.Typing.Faults
import ImpLower.Proofs.Typing.Inversion

/-!
# When checking statements succeeds

Checking a statement leaves the scope as it was, up to new names in the innermost frame, and the
enclosing function as it was. With that known, a successful check of each kind of statement comes down
to one equivalence, in the shape of its typing rule.
-/

namespace ImpLower.Typing

open Typed (Converted)

-- every lemma below opens one of these; their equations are found here, once
attribute [local simp] checkStmt checkBlock checkCases

/-! ## Successful checks in a function -/

/-- In the given function, the statement checks to `ts` and turns `Γ` into `Γ'`. -/
def ChecksStmt (function : EnclosingFunction) (Γ : Scope Symbol) (s : Source.Stmt) (ts : Typed.Stmt)
    (Γ' : Scope Symbol) : Prop :=
  (checkStmt s).exec ⟨Γ, some function⟩ = (.ok ts, ⟨Γ', some function⟩)

def ChecksBlock (function : EnclosingFunction) (Γ : Scope Symbol) (body : List Source.Stmt)
    (tb : List Typed.Stmt) (Γ' : Scope Symbol) : Prop :=
  (checkBlock body).exec ⟨Γ, some function⟩ = (.ok tb, ⟨Γ', some function⟩)

/-- The cases check to `pairs` and widen the type of the comparison from `compared` to `final`. -/
def ChecksCases (function : EnclosingFunction) (Γ : Scope Symbol) (scrutinee compared : Ty)
    (cases : List Source.Case) (final : Ty) (pairs : List (Typed.Expr × List Typed.Stmt)) : Prop :=
  (checkCases scrutinee compared cases).exec ⟨Γ, some function⟩ =
    (.ok (final, pairs), ⟨Γ, some function⟩)

/-- A successful check inside a function stays inside it. -/
theorem exec_eq_ok_iff {α : Type} {m : Check α} {A : Scope.Allowance Symbol}
    {p : Option EnclosingFunction → Prop} (hm : Behaves A p m) {Γ : Scope Symbol}
    {function : Option EnclosingFunction} {a : α} {t : Checker} :
    m.exec ⟨Γ, function⟩ = (.ok a, t) ↔
      t.function = function ∧ m.exec ⟨Γ, function⟩ = (.ok a, ⟨t.scope, function⟩) := by
  constructor
  · intro h
    have same : t.function = function := by simpa [h] using hm.function ⟨Γ, function⟩
    subst same
    exact ⟨rfl, h⟩
  · rintro ⟨rfl, h⟩
    exact h

variable {function : EnclosingFunction} {Γ Γ' : Scope Symbol}

/-- A block in a frame of its own leaves nothing behind. -/
theorem withFrame_checkBlock_eq_ok {body : List Source.Stmt} {tb : List Typed.Stmt} {t : Checker} :
    (withFrame (checkBlock body)).exec ⟨Γ, some function⟩ = (.ok tb, t) ↔
      ⟨Γ, some function⟩ = t ∧ ∃ Γ', ChecksBlock function Γ.enter body tb Γ' := by
  rw [(checkBlock_behaves body).restores.withFrame_eq_ok]
  refine and_congr_right fun _ => ⟨?_, fun ⟨Γ', h⟩ => ⟨⟨Γ', some function⟩, h⟩⟩
  rintro ⟨u, h⟩
  exact ⟨u.scope, ((exec_eq_ok_iff (checkBlock_behaves body)).mp h).2⟩

theorem checksBlock_nil {tb : List Typed.Stmt} :
    ChecksBlock function Γ [] tb Γ' ↔ Γ = Γ' ∧ tb = [] := by
  simp [ChecksBlock, checkBlock, and_comm, eq_comm]

theorem checksBlock_cons {s : Source.Stmt} {rest : List Source.Stmt} {tb : List Typed.Stmt} :
    ChecksBlock function Γ (s :: rest) tb Γ' ↔
      ∃ ts trest Γ₁, ChecksStmt function Γ s ts Γ₁ ∧ ChecksBlock function Γ₁ rest trest Γ' ∧
        tb = ts :: trest := by
  rw [ChecksBlock, checkBlock]
  simp only [Stateful.exec_bind_eq_ok, Stateful.exec_pure, Prod.mk.injEq, Except.ok.injEq]
  constructor
  · rintro ⟨ts, c, hs, trest, u, hr, rfl, rfl⟩
    obtain ⟨hc, hs⟩ := (exec_eq_ok_iff (checkStmt_behaves s)).mp hs
    rcases c with ⟨Γ₁, _⟩
    cases hc
    exact ⟨ts, trest, Γ₁, hs, hr, rfl⟩
  · rintro ⟨ts, trest, Γ₁, hs, hr, rfl⟩
    exact ⟨ts, _, hs, trest, _, hr, rfl, rfl⟩

theorem checksStmt_block {body : List Source.Stmt} {ts : Typed.Stmt} :
    ChecksStmt function Γ (.block body) ts Γ' ↔
      Γ = Γ' ∧ ∃ tb Γ₁, ChecksBlock function Γ.enter body tb Γ₁ ∧ ts = .block tb := by
  rw [ChecksStmt, checkStmt]
  simp only [Stateful.exec_bind_eq_ok, withFrame_checkBlock_eq_ok, Stateful.exec_pure,
    Prod.mk.injEq, Except.ok.injEq]
  constructor
  · rintro ⟨tb, _, ⟨rfl, Γ₁, hb⟩, rfl, ⟨⟩⟩
    exact ⟨rfl, tb, Γ₁, hb, rfl⟩
  · rintro ⟨rfl, tb, Γ₁, hb, rfl⟩
    exact ⟨tb, _, ⟨rfl, Γ₁, hb⟩, rfl, rfl⟩

theorem checksStmt_declare {decl : Source.VarDecl} {ts : Typed.Stmt} :
    ChecksStmt function Γ (.declare decl) ts Γ' ↔
      withVar Γ decl = Γ' ∧ ∃ v, ChecksVar Γ decl v ∧ ts = .declare v := by
  rw [ChecksStmt, checkStmt]
  simp only [Stateful.exec_bind_eq_ok, checkVarDecl_eq_ok, Stateful.exec_pure, Prod.mk.injEq,
    Except.ok.injEq]
  constructor
  · rintro ⟨v, _, ⟨hv, rfl⟩, rfl, ⟨⟩⟩
    exact ⟨rfl, v, hv, rfl⟩
  · rintro ⟨rfl, v, hv, rfl⟩
    exact ⟨v, _, ⟨hv, rfl⟩, rfl, rfl⟩

theorem checksStmt_eval {e : Source.Expr} {ts : Typed.Stmt} :
    ChecksStmt function Γ (.eval e) ts Γ' ↔
      Γ = Γ' ∧ ∃ te, checkExpr Γ e = .ok te ∧ ts = .eval te := by
  rw [ChecksStmt, checkStmt]
  simp only [Stateful.exec_bind_eq_ok, reading_eq_ok, Stateful.exec_pure, Prod.mk.injEq,
    Except.ok.injEq]
  constructor
  · rintro ⟨te, _, ⟨he, rfl⟩, rfl, ⟨⟩⟩
    exact ⟨rfl, te, he, rfl⟩
  · rintro ⟨rfl, te, he, rfl⟩
    exact ⟨te, _, ⟨he, rfl⟩, rfl, rfl⟩

theorem checksStmt_ifThen {condition : Source.Expr} {body : List Source.Stmt} {ts : Typed.Stmt} :
    ChecksStmt function Γ (.ifThen condition body) ts Γ' ↔
      Γ = Γ' ∧ ∃ tc tb Γ₁, checkExpr Γ condition = .ok tc ∧ tc.ty = .boolean ∧
        ChecksBlock function Γ.enter body tb Γ₁ ∧ ts = .ifThen tc tb := by
  rw [ChecksStmt, checkStmt]
  simp only [Stateful.exec_bind_eq_ok, checkCondition_eq_ok, Stateful.exec_pure, Prod.mk.injEq,
    Except.ok.injEq]
  constructor
  · rintro ⟨tc, _, ⟨hc, hb, rfl⟩, tb, _, h, rfl, rfl⟩
    obtain ⟨hΓ, Γ₁, inside⟩ := withFrame_checkBlock_eq_ok.mp h
    cases hΓ
    exact ⟨rfl, tc, tb, Γ₁, hc, hb, inside, rfl⟩
  · rintro ⟨rfl, tc, tb, Γ₁, hc, hb, h, rfl⟩
    exact ⟨tc, _, ⟨hc, hb, rfl⟩, tb, _, withFrame_checkBlock_eq_ok.mpr ⟨rfl, Γ₁, h⟩, rfl, rfl⟩

theorem checksStmt_ifElse {condition : Source.Expr} {body other : List Source.Stmt}
    {ts : Typed.Stmt} :
    ChecksStmt function Γ (.ifElse condition body other) ts Γ' ↔
      Γ = Γ' ∧ ∃ tc tb tother Γ₁ Γ₂, checkExpr Γ condition = .ok tc ∧ tc.ty = .boolean ∧
        ChecksBlock function Γ.enter body tb Γ₁ ∧ ChecksBlock function Γ.enter other tother Γ₂ ∧
        ts = .ifElse tc tb tother := by
  rw [ChecksStmt, checkStmt]
  simp only [Stateful.exec_bind_eq_ok, checkCondition_eq_ok, Stateful.exec_pure, Prod.mk.injEq,
    Except.ok.injEq]
  constructor
  · rintro ⟨tc, _, ⟨hc, hb, rfl⟩, tb, _, h₁, tother, _, h₂, rfl, rfl⟩
    obtain ⟨rfl, Γ₁, h₁⟩ := withFrame_checkBlock_eq_ok.mp h₁
    obtain ⟨hΓ, Γ₂, otherwise⟩ := withFrame_checkBlock_eq_ok.mp h₂
    cases hΓ
    exact ⟨rfl, tc, tb, tother, Γ₁, Γ₂, hc, hb, h₁, otherwise, rfl⟩
  · rintro ⟨rfl, tc, tb, tother, Γ₁, Γ₂, hc, hb, h₁, h₂, rfl⟩
    exact ⟨tc, _, ⟨hc, hb, rfl⟩, tb, _, withFrame_checkBlock_eq_ok.mpr ⟨rfl, Γ₁, h₁⟩, tother, _,
      withFrame_checkBlock_eq_ok.mpr ⟨rfl, Γ₂, h₂⟩, rfl, rfl⟩

theorem checksStmt_whileLoop {condition : Source.Expr} {body : List Source.Stmt} {ts : Typed.Stmt} :
    ChecksStmt function Γ (.whileLoop condition body) ts Γ' ↔
      Γ = Γ' ∧ ∃ tc tb Γ₁, checkExpr Γ condition = .ok tc ∧ tc.ty = .boolean ∧
        ChecksBlock function Γ.enter body tb Γ₁ ∧ ts = .whileLoop tc tb := by
  rw [ChecksStmt, checkStmt]
  simp only [Stateful.exec_bind_eq_ok, checkCondition_eq_ok, Stateful.exec_pure, Prod.mk.injEq,
    Except.ok.injEq]
  constructor
  · rintro ⟨tc, _, ⟨hc, hb, rfl⟩, tb, _, h, rfl, rfl⟩
    obtain ⟨hΓ, Γ₁, inside⟩ := withFrame_checkBlock_eq_ok.mp h
    cases hΓ
    exact ⟨rfl, tc, tb, Γ₁, hc, hb, inside, rfl⟩
  · rintro ⟨rfl, tc, tb, Γ₁, hc, hb, h, rfl⟩
    exact ⟨tc, _, ⟨hc, hb, rfl⟩, tb, _, withFrame_checkBlock_eq_ok.mpr ⟨rfl, Γ₁, h⟩, rfl, rfl⟩

theorem checksStmt_forLoop {decl : Source.VarDecl} {condition step : Source.Expr}
    {body : List Source.Stmt} {ts : Typed.Stmt} :
    ChecksStmt function Γ (.forLoop decl condition step body) ts Γ' ↔
      Γ = Γ' ∧ ∃ v tc te tb Γ₁, ChecksVar Γ.enter decl v ∧
        checkExpr (withVar Γ.enter decl) condition = .ok tc ∧ tc.ty = .boolean ∧
        checkExpr (withVar Γ.enter decl) step = .ok te ∧
        ChecksBlock function (withVar Γ.enter decl).enter body tb Γ₁ ∧
        ts = .forLoop v tc te tb := by
  have leave : (withVar Γ.enter decl).unwind Γ.depth = Γ := by
    rw [withVar, Scope.push_eq_gain, Scope.unwind_gain_enter]
  rw [ChecksStmt, checkStmt, withFrame_eq_ok]
  simp only [Stateful.exec_bind_eq_ok, checkVarDecl_eq_ok, checkCondition_eq_ok, reading_eq_ok,
    Stateful.exec_pure, Prod.mk.injEq, Except.ok.injEq]
  constructor
  · rintro ⟨_, ⟨v, _, ⟨hv, rfl⟩, tc, _, ⟨hc, hb, rfl⟩, te, _, ⟨he, rfl⟩, tb, _, h, rfl, rfl⟩, ht⟩
    obtain ⟨rfl, Γ₁, inside⟩ := withFrame_checkBlock_eq_ok.mp h
    have hΓ : Γ = Γ' := leave.symm.trans (congrArg Checker.scope ht)
    exact ⟨hΓ, v, tc, te, tb, Γ₁, hv, hc, hb, he, inside, rfl⟩
  · rintro ⟨rfl, v, tc, te, tb, Γ₁, hv, hc, hb, he, inside, rfl⟩
    have h := withFrame_checkBlock_eq_ok.mpr ⟨rfl, Γ₁, inside⟩
    exact ⟨_, ⟨v, _, ⟨hv, rfl⟩, tc, _, ⟨hc, hb, rfl⟩, te, _, ⟨he, rfl⟩, tb, _, h, rfl, rfl⟩,
      congrArg (Checker.mk · (some function)) leave⟩

theorem checksStmt_ret {value : Option Source.Expr} {ts : Typed.Stmt} :
    ChecksStmt function Γ (.ret value) ts Γ' ↔
      Γ = Γ' ∧ (function.result = .void ∧ value = none ∧ ts = .ret none ∨
        function.result ≠ .void ∧
          ∃ e c, value = some e ∧ ts = .ret (some c) ∧ Supplies Γ function.result e c) := by
  rw [ChecksStmt, checkStmt]
  simp only [Stateful.exec_bind_eq_ok, checkReturn_eq_ok, Stateful.exec_pure, Prod.mk.injEq,
    Except.ok.injEq]
  constructor
  · rintro ⟨v, _, ⟨rfl, ⟨hr, rfl, rfl⟩ | ⟨hr, e, c, rfl, rfl, hs⟩⟩, rfl, ⟨⟩⟩
    · exact ⟨rfl, .inl ⟨hr, rfl, rfl⟩⟩
    · exact ⟨rfl, .inr ⟨hr, e, c, rfl, rfl, hs⟩⟩
  · rintro ⟨rfl, ⟨hr, rfl, rfl⟩ | ⟨hr, e, c, rfl, rfl, hs⟩⟩
    · exact ⟨none, _, ⟨rfl, .inl ⟨hr, rfl, rfl⟩⟩, rfl, rfl⟩
    · exact ⟨some c, _, ⟨rfl, .inr ⟨hr, e, c, rfl, rfl, hs⟩⟩, rfl, rfl⟩

/-! ## Switches -/

theorem widenCase_eq_ok {scrutinee compared value ty : Ty} {s t : Checker} :
    (widenCase scrutinee compared value).exec s = (.ok ty, t) ↔
      compared.join value = some ty ∧ s = t := by
  unfold widenCase commonType
  cases compared.join value <;> simp

theorem checksCases_nil {scrutinee compared final : Ty}
    {pairs : List (Typed.Expr × List Typed.Stmt)} :
    ChecksCases function Γ scrutinee compared [] final pairs ↔ compared = final ∧ pairs = [] := by
  simp [ChecksCases, checkCases, eq_comm]

theorem checksCases_cons {scrutinee compared final : Ty} {value : Source.Expr}
    {body : List Source.Stmt} {rest : List Source.Case}
    {pairs : List (Typed.Expr × List Typed.Stmt)} :
    ChecksCases function Γ scrutinee compared (.mk value body :: rest) final pairs ↔
      ∃ te ty tb Γ₁ others, checkExpr Γ value = .ok te ∧ compared.join te.ty = some ty ∧
        ChecksBlock function Γ.enter body tb Γ₁ ∧
        ChecksCases function Γ scrutinee ty rest final others ∧ pairs = (te, tb) :: others := by
  rw [ChecksCases, checkCases]
  simp only [Stateful.exec_bind_eq_ok, reading_eq_ok, widenCase_eq_ok, Stateful.exec_pure,
    Prod.mk.injEq, Except.ok.injEq, Prod.exists]
  constructor
  · rintro ⟨te, _, ⟨he, rfl⟩, ty, _, ⟨hj, rfl⟩, tb, _, h, f, others, _, hr, ⟨rfl, rfl⟩, rfl⟩
    obtain ⟨rfl, Γ₁, inside⟩ := withFrame_checkBlock_eq_ok.mp h
    exact ⟨te, ty, tb, Γ₁, others, he, hj, inside, hr, rfl⟩
  · rintro ⟨te, ty, tb, Γ₁, others, he, hj, inside, hr, rfl⟩
    have h := withFrame_checkBlock_eq_ok.mpr ⟨rfl, Γ₁, inside⟩
    exact ⟨te, _, ⟨he, rfl⟩, ty, _, ⟨hj, rfl⟩, tb, _, h, final, others, _, hr, ⟨rfl, rfl⟩, rfl⟩

/-- A checked case as the switch keeps it: its value is moved to the type of the comparison. -/
def FinishesCase (test : Predicate) (compared : Ty) (pair : Typed.Expr × List Typed.Stmt)
    (c : Typed.Case) : Prop :=
  ∃ conversion, Conversion.into compared pair.1.ty = .ok conversion ∧
    c = .mk (.mk pair.1 conversion compared) test (pair.1.constant?.bind (·.convert compared))
      pair.2

def isTable (compared : Ty) (cases : List Typed.Case) : Bool :=
  compared.isInteger && !cases.isEmpty && cases.all fun c => c.constant.isSome

theorem finishCase_eq_ok {test : Predicate} {compared : Ty} {value : Typed.Expr}
    {body : List Typed.Stmt} {c : Typed.Case} :
    finishCase test compared value body = .ok c ↔
      FinishesCase test compared (value, body) c := by
  simp only [finishCase, except_bind_eq_ok, convertTo_eq_ok, except_pure_eq_ok]
  constructor
  · rintro ⟨_, ⟨conversion, hc, rfl⟩, rfl⟩
    exact ⟨conversion, hc, rfl⟩
  · rintro ⟨conversion, hc, rfl⟩
    exact ⟨_, ⟨conversion, hc, rfl⟩, rfl⟩

theorem finishSwitch_eq_ok {scrutinee : Typed.Expr} {compared : Ty}
    {pairs : List (Typed.Expr × List Typed.Stmt)} {ts : Typed.Stmt} :
    finishSwitch scrutinee compared pairs = .ok ts ↔
      ∃ test conversion cases, (BinOp.relation .eq).predicateAt compared = .ok test ∧
        Conversion.into compared scrutinee.ty = .ok conversion ∧
        List.Forall₂ (FinishesCase test compared) pairs cases ∧
        ts = .switch (.mk scrutinee conversion compared) cases (isTable compared cases) := by
  simp only [finishSwitch, except_bind_eq_ok, atSite_eq_ok, except_mapM_eq_ok, finishCase_eq_ok,
    convertTo_eq_ok, except_pure_eq_ok]
  constructor
  · rintro ⟨test, ht, cases, hs, _, ⟨conversion, hc, rfl⟩, rfl⟩
    exact ⟨test, conversion, cases, ht, hc, hs, rfl⟩
  · rintro ⟨test, conversion, cases, ht, hc, hs, rfl⟩
    exact ⟨test, ht, cases, hs, _, ⟨conversion, hc, rfl⟩, rfl⟩

theorem checksStmt_switch {scrutinee : Source.Expr} {cases : List Source.Case} {ts : Typed.Stmt} :
    ChecksStmt function Γ (.switch scrutinee cases) ts Γ' ↔
      Γ = Γ' ∧ ∃ te compared pairs, checkExpr Γ scrutinee = .ok te ∧ switchable te.ty = true ∧
        ChecksCases function Γ te.ty te.ty cases compared pairs ∧
        finishSwitch te compared pairs = .ok ts := by
  rw [ChecksStmt, checkStmt]
  simp only [Stateful.exec_bind_eq_ok, reading_eq_ok, Stateful.exec_guard_eq_ok, ofExcept_eq_ok,
    Bool.not_eq_true', Bool.not_eq_false, Prod.exists]
  constructor
  · rintro ⟨te, _, ⟨he, rfl⟩, hs, compared, pairs, t, hc, hf, rfl⟩
    have same := checkCases_keeps te.ty te.ty cases ⟨Γ, some function⟩
    rw [hc] at same
    cases same
    exact ⟨rfl, te, compared, pairs, he, hs, hc, hf⟩
  · rintro ⟨rfl, te, compared, pairs, he, hs, hc, hf⟩
    exact ⟨te, _, ⟨he, rfl⟩, hs, compared, pairs, _, hc, hf, rfl⟩

end ImpLower.Typing
