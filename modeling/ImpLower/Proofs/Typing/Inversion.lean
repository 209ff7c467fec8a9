import Mathlib.Data.Option.Defs
import ImpLower.Proofs.Success
import ImpLower.Proofs.Typing.Rules

/-!
# When checking succeeds

For each function of the checker, one equivalence: it succeeds with a given result exactly when its
parts do and its conditions hold. Every later proof about the checker reads these equivalences and
none opens a definition again.
-/

namespace ImpLower.Typing

open Typed (Converted)

/-! ## Selections at types -/

theorem compatible_iff_join {a b : Ty} : Compatible a b ↔ ∃ ty, a.join b = some ty := by
  cases a <;> cases b <;> simp [Compatible, Ty.isNumeric, Ty.isInteger, Ty.isFloat, Ty.join, Ty.rank]

theorem compatible_iff_into {source target : Ty} :
    Compatible source target ↔ ∃ c, Conversion.into target source = .ok c := by
  cases source <;> cases target <;>
    simp [Compatible, Ty.isNumeric, Ty.isInteger, Ty.isFloat, Conversion.into]

/-- The common type of two types is one of them. -/
theorem compatible_of_join {a b ty : Ty} (h : a.join b = some ty) :
    Compatible a ty ∧ Compatible b ty := by
  cases a <;> cases b <;> cases h <;>
    simp [Compatible, Ty.isNumeric, Ty.isInteger, Ty.isFloat]

theorem Compatible.symm {a b : Ty} : Compatible a b → Compatible b a
  | .inl h => .inl h.symm
  | .inr h => .inr h.symm

theorem Compatible.trans {a b c : Ty} : Compatible a b → Compatible b c → Compatible a c
  | .inl h, k => h ▸ k
  | .inr h, .inl k => k ▸ .inr h
  | .inr h, .inr k => .inr ⟨h.1, k.2⟩

theorem switchable_iff {ty : Ty} : switchable ty = true ↔ Switchable ty := by
  simp [switchable, Switchable, or_assoc]

/-! ## Steps of an expression -/

theorem convertTo_eq_ok {value : Typed.Expr} {target : Ty} {site : Construct} {c : Converted} :
    convertTo value target site = .ok c ↔
      ∃ conversion, Conversion.into target value.ty = .ok conversion ∧
        c = .mk value conversion target := by
  unfold convertTo
  cases h : Conversion.into target value.ty with
  | error e => simp
  | ok conversion => simp [eq_comm]

theorem asIndex_eq_ok {value : Typed.Expr} {site : Construct} {c : Converted} :
    asIndex value site = .ok c ↔
      value.ty.isInteger = true ∧ ∃ conversion, Conversion.into .long value.ty = .ok conversion ∧
        c = .mk value conversion .long := by
  unfold asIndex
  by_cases h : value.ty.isInteger = true
  · simp [h, convertTo_eq_ok]
  · simp [h]

theorem access_eq_ok {Γ : Scope Symbol} {name : String} {n : Nat} {ty : Ty} :
    access Γ name n = .ok ty ↔ ∃ rank, Γ.lookup name = some (.var ty rank) ∧ n ≤ rank := by
  simp only [access, except_bind_eq_ok, except_guard_eq_ok, except_pure_eq_ok, lookupVar]
  cases h : Γ.lookup name with
  | none => simp
  | some symbol =>
      cases symbol with
      | fn result parameters => simp
      | var ty' rank =>
          simp only [Except.ok.injEq, Option.some.injEq, Symbol.var.injEq, Prod.exists,
            Prod.mk.injEq]
          constructor
          · rintro ⟨_, _, ⟨rfl, rfl⟩, hn, rfl⟩
            exact ⟨rank, ⟨rfl, rfl⟩, Nat.le_of_not_lt hn⟩
          · rintro ⟨_, ⟨rfl, rfl⟩, hn⟩
            exact ⟨ty', rank, ⟨rfl, rfl⟩, Nat.not_lt.mpr hn, rfl⟩

theorem lookupFn_eq_ok {Γ : Scope Symbol} {name : String} {result : Ty} {parameters : List Ty} :
    lookupFn Γ name = .ok (result, parameters) ↔
      Γ.lookup name = some (.fn result parameters) := by
  unfold lookupFn
  cases h : Γ.lookup name with
  | none => simp
  | some symbol => cases symbol <;> simp

theorem atSite_eq_ok {α : Type} {site : Construct} {r : Except Clash α} {a : α} :
    atSite site r = .ok a ↔ r = .ok a := by
  cases r <;> simp [atSite]

theorem operandType_eq_ok {l r ty : Ty} : operandType l r = .ok ty ↔ l.join r = some ty := by
  unfold operandType commonType
  cases l.join r <;> simp

theorem negate_eq_ok {operand te : Typed.Expr} :
    negate operand = .ok te ↔
      ∃ zero op, Literal.zero operand.ty = some zero ∧
        (BinOp.arith .sub).operationAt operand.ty = .ok op ∧ te = .negate op zero operand := by
  unfold negate
  cases h : Literal.zero operand.ty with
  | none => simp
  | some zero =>
      simp only [except_bind_eq_ok, atSite_eq_ok, except_pure_eq_ok]
      constructor
      · rintro ⟨op, ho, rfl⟩
        exact ⟨zero, op, rfl, ho, rfl⟩
      · rintro ⟨_, op, ⟨⟩, ho, rfl⟩
        exact ⟨op, ho, rfl⟩

theorem binary_relation_eq_ok {op : Relation} {left right te : Typed.Expr} :
    binary (.relation op) left right = .ok te ↔
      left.ty.isNumeric = true ∧ right.ty.isNumeric = true ∧
        ∃ ty test c₁ c₂, left.ty.join right.ty = some ty ∧
          (BinOp.relation op).predicateAt ty = .ok test ∧
          Conversion.into ty left.ty = .ok c₁ ∧ Conversion.into ty right.ty = .ok c₂ ∧
          te = .compare test (.mk left c₁ ty) (.mk right c₂ ty) := by
  simp only [binary, BinOp.isRelational, if_true, relate, except_bind_eq_ok, except_guard_eq_ok,
    operandType_eq_ok, atSite_eq_ok, convertTo_eq_ok, except_pure_eq_ok, Bool.not_eq_true',
    Bool.not_eq_false]
  constructor
  · rintro ⟨hl, hr, ty, hj, test, ht, _, ⟨c₁, h₁, rfl⟩, _, ⟨c₂, h₂, rfl⟩, rfl⟩
    exact ⟨hl, hr, ty, test, c₁, c₂, hj, ht, h₁, h₂, rfl⟩
  · rintro ⟨hl, hr, ty, test, c₁, c₂, hj, ht, h₁, h₂, rfl⟩
    exact ⟨hl, hr, ty, hj, test, ht, _, ⟨c₁, h₁, rfl⟩, _, ⟨c₂, h₂, rfl⟩, rfl⟩

theorem binary_operation_eq_ok {op : BinOp} (h : op.isRelational = false)
    {left right te : Typed.Expr} :
    binary op left right = .ok te ↔
      ∃ ty o c₁ c₂, left.ty.join right.ty = some ty ∧ op.operationAt ty = .ok o ∧
        Conversion.into ty left.ty = .ok c₁ ∧ Conversion.into ty right.ty = .ok c₂ ∧
        te = .arith o (.mk left c₁ ty) (.mk right c₂ ty) := by
  simp only [binary, h, Bool.false_eq_true, if_false, combine, except_bind_eq_ok,
    except_guard_eq_ok, operandType_eq_ok, atSite_eq_ok, convertTo_eq_ok, except_pure_eq_ok]
  constructor
  · rintro ⟨-, ty, hj, o, ho, _, ⟨c₁, h₁, rfl⟩, _, ⟨c₂, h₂, rfl⟩, rfl⟩
    exact ⟨ty, o, c₁, c₂, hj, ho, h₁, h₂, rfl⟩
  · rintro ⟨ty, o, c₁, c₂, hj, ho, h₁, h₂, rfl⟩
    refine ⟨?_, ty, hj, o, ho, _, ⟨c₁, h₁, rfl⟩, _, ⟨c₂, h₂, rfl⟩, rfl⟩
    -- A type that no operation is defined at never becomes the common type of two operands.
    rintro (hv | hv)
    · rw [hv] at hj
      cases hr : right.ty <;> rw [hr] at hj <;> cases hj
      cases op <;> simp [BinOp.operationAt, Ty.isFloat, Ty.isInteger] at ho
    · rw [hv] at hj
      cases hl : left.ty <;> rw [hl] at hj <;> cases hj
      cases op <;> simp [BinOp.operationAt, Ty.isFloat, Ty.isInteger] at ho

/-! ## Expressions -/

def Indexes (Γ : Scope Symbol) (e : Source.Expr) (c : Converted) : Prop :=
  ∃ te conversion, checkExpr Γ e = .ok te ∧ te.ty.isInteger = true ∧
    Conversion.into .long te.ty = .ok conversion ∧ c = .mk te conversion .long

/-- An expression and its checked form as a value of type `ty`. -/
def Supplies (Γ : Scope Symbol) (ty : Ty) (e : Source.Expr) (c : Converted) : Prop :=
  ∃ te conversion, checkExpr Γ e = .ok te ∧ Conversion.into ty te.ty = .ok conversion ∧
    c = .mk te conversion ty

-- the lemmas below each open one of these; their equations are found here, once
attribute [local simp] checkIndices checkArguments checkExpr

theorem checkIndices_eq_ok {Γ : Scope Symbol} {site : Construct} {es : List Source.Expr}
    {cs : List Converted} :
    checkIndices Γ site es = .ok cs ↔ List.Forall₂ (Indexes Γ) es cs := by
  induction es generalizing cs with
  | nil =>
      rw [checkIndices]
      cases cs <;> simp
  | cons e rest ih =>
      rw [checkIndices]
      simp only [except_bind_eq_ok, except_pure_eq_ok, asIndex_eq_ok, ih]
      constructor
      · rintro ⟨te, he, _, ⟨hi, conversion, hc, rfl⟩, cs, hs, rfl⟩
        exact .cons ⟨te, conversion, he, hi, hc, rfl⟩ hs
      · rintro (_ | ⟨⟨te, conversion, he, hi, hc, rfl⟩, hs⟩)
        exact ⟨te, he, _, ⟨hi, conversion, hc, rfl⟩, _, hs, rfl⟩

theorem checkArguments_eq_ok {Γ : Scope Symbol} {es : List Source.Expr} {tys : List Ty}
    (len : es.length = tys.length) {cs : List Converted} :
    checkArguments Γ es tys = .ok cs ↔
      List.Forall₂ (fun e c => Supplies Γ c.target e c) es cs ∧ cs.map Converted.target = tys := by
  induction es generalizing tys cs with
  | nil =>
      cases tys with
      | nil =>
          rw [checkArguments]
          · cases cs <;> simp
          · intro _ _ _ _ h
            cases h
      | cons ty tys => simp at len
  | cons e rest ih =>
      cases tys with
      | nil => simp at len
      | cons ty tys =>
          rw [checkArguments]
          simp only [except_bind_eq_ok, except_pure_eq_ok, convertTo_eq_ok,
            ih (Nat.succ.inj len)]
          constructor
          · rintro ⟨te, he, _, ⟨conversion, hc, rfl⟩, cs, ⟨hs, rfl⟩, rfl⟩
            exact ⟨.cons ⟨te, conversion, he, hc, rfl⟩ hs, rfl⟩
          · rintro ⟨_ | ⟨⟨te, conversion, he, hc, hm⟩, hs⟩, ht⟩
            obtain ⟨rfl, rfl⟩ := List.cons.inj ht
            exact ⟨te, he, _, ⟨conversion, hc, rfl⟩, _, ⟨hs, rfl⟩, by rw [← hm]⟩

theorem checkExpr_literal_eq_ok {Γ : Scope Symbol} {value : Literal} {te : Typed.Expr} :
    checkExpr Γ (.literal value) = .ok te ↔ te = .literal value := by
  rw [checkExpr, except_pure_eq_ok, eq_comm]

theorem checkExpr_var_eq_ok {Γ : Scope Symbol} {name : String} {indices : List Source.Expr}
    {te : Typed.Expr} :
    checkExpr Γ (.var name indices) = .ok te ↔
      ∃ ty rank cs, Γ.lookup name = some (.var ty rank) ∧ indices.length ≤ rank ∧
        List.Forall₂ (Indexes Γ) indices cs ∧ te = .var name ty cs := by
  rw [checkExpr]
  simp only [except_bind_eq_ok, access_eq_ok, checkIndices_eq_ok, except_pure_eq_ok]
  constructor
  · rintro ⟨ty, ⟨rank, hl, hn⟩, cs, hs, rfl⟩
    exact ⟨ty, rank, cs, hl, hn, hs, rfl⟩
  · rintro ⟨ty, rank, cs, hl, hn, hs, rfl⟩
    exact ⟨ty, ⟨rank, hl, hn⟩, cs, hs, rfl⟩

theorem checkExpr_assign_eq_ok {Γ : Scope Symbol} {name : String} {indices : List Source.Expr}
    {value : Source.Expr} {te : Typed.Expr} :
    checkExpr Γ (.assign name indices value) = .ok te ↔
      ∃ ty rank cs c, Γ.lookup name = some (.var ty rank) ∧ indices.length ≤ rank ∧
        List.Forall₂ (Indexes Γ) indices cs ∧ Supplies Γ ty value c ∧
        te = .assign name ty cs c := by
  rw [checkExpr]
  simp only [except_bind_eq_ok, access_eq_ok, checkIndices_eq_ok, convertTo_eq_ok,
    except_pure_eq_ok]
  constructor
  · rintro ⟨ty, ⟨rank, hl, hn⟩, cs, hs, tv, hv, _, ⟨conversion, hc, rfl⟩, rfl⟩
    exact ⟨ty, rank, cs, _, hl, hn, hs, ⟨tv, conversion, hv, hc, rfl⟩, rfl⟩
  · rintro ⟨ty, rank, cs, _, hl, hn, hs, ⟨tv, conversion, hv, hc, rfl⟩, rfl⟩
    exact ⟨ty, ⟨rank, hl, hn⟩, cs, hs, tv, hv, _, ⟨conversion, hc, rfl⟩, rfl⟩

theorem checkExpr_negate_eq_ok {Γ : Scope Symbol} {operand : Source.Expr} {te : Typed.Expr} :
    checkExpr Γ (.negate operand) = .ok te ↔
      ∃ t zero op, checkExpr Γ operand = .ok t ∧ Literal.zero t.ty = some zero ∧
        (BinOp.arith .sub).operationAt t.ty = .ok op ∧ te = .negate op zero t := by
  rw [checkExpr]
  simp only [except_bind_eq_ok, negate_eq_ok]
  constructor
  · rintro ⟨t, ht, zero, op, hz, ho, rfl⟩
    exact ⟨t, zero, op, ht, hz, ho, rfl⟩
  · rintro ⟨t, zero, op, ht, hz, ho, rfl⟩
    exact ⟨t, ht, zero, op, hz, ho, rfl⟩

theorem checkExpr_binary_eq_ok {Γ : Scope Symbol} {op : BinOp} {left right : Source.Expr}
    {te : Typed.Expr} :
    checkExpr Γ (.binary op left right) = .ok te ↔
      ∃ l r, checkExpr Γ left = .ok l ∧ checkExpr Γ right = .ok r ∧ binary op l r = .ok te := by
  rw [checkExpr]
  simp only [except_bind_eq_ok, exists_and_left]

theorem checkExpr_call_eq_ok {Γ : Scope Symbol} {callee : String} {arguments : List Source.Expr}
    {te : Typed.Expr} :
    checkExpr Γ (.call callee arguments) = .ok te ↔
      ∃ result cs, Γ.lookup callee = some (.fn result (cs.map Converted.target)) ∧
        List.Forall₂ (fun e c => Supplies Γ c.target e c) arguments cs ∧
        te = .call callee result cs := by
  rw [checkExpr]
  simp only [except_bind_eq_ok, except_guard_eq_ok, except_pure_eq_ok, Prod.exists,
    lookupFn_eq_ok, not_not, ne_eq]
  constructor
  · rintro ⟨result, parameters, hl, len, cs, hs, rfl⟩
    obtain ⟨hf, rfl⟩ := (checkArguments_eq_ok len).mp hs
    exact ⟨result, cs, hl, hf, rfl⟩
  · rintro ⟨result, cs, hl, hf, rfl⟩
    have len : arguments.length = (cs.map Converted.target).length := by
      rw [List.length_map, hf.length_eq]
    exact ⟨result, _, hl, len, cs, (checkArguments_eq_ok len).mpr ⟨hf, rfl⟩, rfl⟩

/-! ## Variables, conditions and returns -/

theorem reading_eq_ok {α : Type} {f : Scope Symbol → Except Diagnostic α} {s t : Checker} {a : α} :
    (reading f).exec s = (.ok a, t) ↔ f s.scope = .ok a ∧ s = t := by
  simp [reading]

theorem ofExcept_eq_ok {α : Type} {r : Except Diagnostic α} {s t : Checker} {a : α} :
    (Stateful.ofExcept r : Check α).exec s = (.ok a, t) ↔ r = .ok a ∧ s = t := by
  simp

theorem declare_eq_ok {name : String} {symbol : Symbol} {site : Construct} {s t : Checker}
    {u : Unit} :
    (declare name symbol site).exec s = (.ok u, t) ↔
      s.scope.declaresInCurrent name = false ∧
        { s with scope := s.scope.push name symbol } = t := by
  cases h : s.scope.declare name symbol with
  | error e =>
      simp only [declare, Stateful.exec_ofFn, h, Prod.mk.injEq, reduceCtorEq, false_and,
        false_iff, not_and]
      intro fresh
      rw [Scope.declare_eq_ok.mpr ⟨fresh, rfl⟩] at h
      cases h
  | ok scope =>
      obtain ⟨fresh, rfl⟩ := Scope.declare_eq_ok.mp h
      simp [declare, h, fresh]

theorem requireStorable_eq_ok {ty : Ty} {s t : Checker} {u : Unit} :
    (requireStorable ty).exec s = (.ok u, t) ↔ ty ≠ .void ∧ s = t := by
  unfold requireStorable
  by_cases h : ty = .void
  · simp [h]
  · simp [h]

structure ChecksVar (Γ : Scope Symbol) (decl : Source.VarDecl) (v : Typed.VarDecl) : Prop where
  name : v.name = decl.name
  ty : v.ty = decl.ty
  storable : decl.ty ≠ .void
  fresh : Γ.declaresInCurrent decl.name = false
  sizes : List.Forall₂ (Indexes Γ) decl.dimensions v.dimensions
  initial : Option.Rel (fun e c => decl.dimensions = [] ∧ Supplies (withVar Γ decl) decl.ty e c)
    decl.initializer v.initializer

theorem checkVarDecl_eq_ok {decl : Source.VarDecl} {v : Typed.VarDecl} {s t : Checker} :
    (checkVarDecl decl).exec s = (.ok v, t) ↔
      ChecksVar s.scope decl v ∧ { s with scope := withVar s.scope decl } = t := by
  unfold checkVarDecl
  simp only [Stateful.exec_bind_eq_ok, Stateful.exec_guard_eq_ok, requireStorable_eq_ok,
    reading_eq_ok, declare_eq_ok, checkIndices_eq_ok, Stateful.exec_get, Prod.mk.injEq,
    Except.ok.injEq]
  constructor
  · rintro ⟨_, _, ⟨hv, rfl⟩, _, _, ⟨rfl, rfl⟩, hf, dims, _, ⟨hs, rfl⟩, _, _, ⟨-, rfl⟩, h⟩
    have hfresh : s.scope.declaresInCurrent decl.name = false := by simpa using hf
    have hscope : s.scope.push decl.name (.var decl.ty dims.length) = withVar s.scope decl := by
      rw [withVar, hs.length_eq]
    cases hi : decl.initializer with
    | none =>
        simp only [hi, Stateful.exec_pure, Prod.mk.injEq, Except.ok.injEq] at h
        obtain ⟨rfl, rfl⟩ := h
        refine ⟨⟨rfl, rfl, hv, hfresh, hs, ?_⟩, by rw [hscope]⟩
        rw [hi]
        exact .none
    | some e =>
        simp only [hi, Stateful.exec_guard_eq_ok, Stateful.exec_bind_eq_ok, reading_eq_ok,
          ofExcept_eq_ok, convertTo_eq_ok, Stateful.exec_pure, Prod.mk.injEq,
          Except.ok.injEq] at h
        obtain ⟨he, te, _, ⟨hte, rfl⟩, _, _, ⟨⟨conversion, hc, rfl⟩, rfl⟩, rfl, rfl⟩ := h
        refine ⟨⟨rfl, rfl, hv, hfresh, hs, ?_⟩, by rw [hscope]⟩
        have hd : decl.dimensions = [] := by
          have : dims = [] := by simpa using he
          subst this
          exact List.forall₂_nil_right_iff.mp hs
        rw [hi, ← hscope]
        exact .some ⟨hd, te, conversion, hte, hc, rfl⟩
  · rintro ⟨⟨hname, hty, hv, hf, hs, hi⟩, rfl⟩
    rcases v with ⟨name, ty, dims, init⟩
    simp only at hname hty hs hi
    subst hname hty
    have hscope : s.scope.push decl.name (.var decl.ty dims.length) = withVar s.scope decl := by
      rw [withVar, hs.length_eq]
    refine ⟨(), _, ⟨hv, rfl⟩, _, _, ⟨rfl, rfl⟩, by simpa using hf, dims, _, ⟨hs, rfl⟩, (), _,
      ⟨hf, rfl⟩, ?_⟩
    rw [hscope]
    generalize hd : decl.initializer = di at hi ⊢
    cases hi with
    | none => simp
    | some h =>
        obtain ⟨hnil, te, conversion, hte, hc, rfl⟩ := h
        have he : ¬ (!dims.isEmpty) = true := by
          rw [hnil] at hs
          simp [List.forall₂_nil_left_iff.mp hs]
        simp only [Stateful.exec_guard_eq_ok, Stateful.exec_bind_eq_ok, reading_eq_ok,
          ofExcept_eq_ok, convertTo_eq_ok, Stateful.exec_pure]
        exact ⟨he, te, _, ⟨hte, rfl⟩, _, _, ⟨⟨conversion, hc, rfl⟩, rfl⟩, rfl⟩

theorem checkCondition_eq_ok {condition : Source.Expr} {site : Construct} {s t : Checker}
    {te : Typed.Expr} :
    (checkCondition condition site).exec s = (.ok te, t) ↔
      checkExpr s.scope condition = .ok te ∧ te.ty = .boolean ∧ s = t := by
  simp only [checkCondition, Stateful.exec_bind_eq_ok, reading_eq_ok, Stateful.exec_guard_eq_ok,
    Stateful.exec_pure, Prod.mk.injEq, Except.ok.injEq, ne_eq, not_not]
  constructor
  · rintro ⟨_, _, ⟨h, rfl⟩, hb, rfl, rfl⟩
    exact ⟨h, hb, rfl⟩
  · rintro ⟨h, hb, rfl⟩
    exact ⟨te, s, ⟨h, rfl⟩, hb, rfl, rfl⟩

theorem checkReturn_eq_ok {value : Option Source.Expr} {Γ : Scope Symbol}
    {function : EnclosingFunction} {t : Checker} {v : Option Converted} :
    (checkReturn value).exec ⟨Γ, some function⟩ = (.ok v, t) ↔
      ⟨Γ, some function⟩ = t ∧ (function.result = .void ∧ value = none ∧ v = none ∨
        function.result ≠ .void ∧
          ∃ e c, value = some e ∧ v = some c ∧ Supplies Γ function.result e c) := by
  obtain ⟨name, result⟩ := function
  unfold checkReturn
  rw [Stateful.exec_bind_of_ok (Stateful.exec_get _)]
  by_cases hv : result = .void
  · subst hv
    cases value with
    | none => simp [and_comm, eq_comm]
    | some e => simp [Stateful.exec_bind_eq_ok]
  · cases value with
    | none => cases result <;> simp_all
    | some e =>
        have go : (do
            let value ← reading fun scope => checkExpr scope e
            return some (← Stateful.ofExcept (convertTo value result .returnStmt)) :
              Check (Option Converted)).exec ⟨Γ, some ⟨name, result⟩⟩ = (.ok v, t) ↔
              ⟨Γ, some ⟨name, result⟩⟩ = t ∧ ∃ c, v = some c ∧ Supplies Γ result e c := by
          simp only [Stateful.exec_bind_eq_ok, reading_eq_ok, ofExcept_eq_ok, convertTo_eq_ok,
            Stateful.exec_pure, Prod.mk.injEq, Except.ok.injEq]
          constructor
          · rintro ⟨te, _, ⟨hte, rfl⟩, _, _, ⟨⟨conversion, hc, rfl⟩, rfl⟩, rfl, rfl⟩
            exact ⟨rfl, _, rfl, te, conversion, hte, hc, rfl⟩
          · rintro ⟨rfl, _, rfl, te, conversion, hte, hc, rfl⟩
            exact ⟨te, _, ⟨hte, rfl⟩, _, _, ⟨⟨conversion, hc, rfl⟩, rfl⟩, rfl, rfl⟩
        cases result with
        | void => exact absurd rfl hv
        | _ => simpa using go

end ImpLower.Typing
