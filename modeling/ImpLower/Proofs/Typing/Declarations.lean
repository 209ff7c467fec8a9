import ImpLower.Proofs.Typing.Statements

/-!
# When checking declarations succeeds

The equivalences of the checker for globals, parameters, functions and whole programs. The sizes of a
global array are multiplied one by one against a bound; since each of them is positive, this comes to
one bound on the product of all.
-/

namespace ImpLower.Typing

open Typed (Converted)

/-! ## Globals -/

def ChecksSize (Γ : Scope Symbol) (e : Source.Expr) (n : Nat) : Prop :=
  ∃ c value size, Indexes Γ e c ∧ c.constant? = some value ∧ value.toInt64? = some size ∧
    0 < size ∧ n = size.toInt.toNat

theorem constantSize_eq_ok {name : String} {c : Converted} {n : Nat} :
    constantSize name c = .ok n ↔
      ∃ value size, c.constant? = some value ∧ value.toInt64? = some size ∧ 0 < size ∧
        n = size.toInt.toNat := by
  unfold constantSize
  cases hc : c.constant? with
  | none => simp
  | some value =>
      cases hs : value.toInt64? with
      | none => simp [hs]
      | some size =>
          by_cases hp : 0 < size
          · simp [hs, hp, eq_comm]
          · simp [hs, hp]

theorem ChecksSize.pos {Γ : Scope Symbol} {e : Source.Expr} {n : Nat} (h : ChecksSize Γ e n) :
    0 < n := by
  obtain ⟨_, _, size, -, -, -, hp, rfl⟩ := h
  have : (0 : Int) < size.toInt := by simpa [Int64.lt_iff_toInt_lt] using hp
  omega

theorem ChecksSize.toInt_ofNat {Γ : Scope Symbol} {e : Source.Expr} {n : Nat}
    (h : ChecksSize Γ e n) : (Int64.ofNat n).toInt = n := by
  obtain ⟨_, _, size, -, -, -, -, rfl⟩ := h
  have upper := size.toInt_lt
  exact Int64.toInt_ofNat_of_lt (by omega)

theorem prod_pos_of_checksSize {Γ : Scope Symbol} {es : List Source.Expr} {ns : List Nat}
    (h : List.Forall₂ (ChecksSize Γ) es ns) : 0 < ns.prod := by
  induction h with
  | nil => simp
  | cons head _ ih =>
      rw [List.prod_cons]
      exact Nat.mul_pos head.pos ih

theorem checkSizes_eq_ok {Γ : Scope Symbol} {name : String} {length total : Nat}
    {es : List Source.Expr} {ns : List Nat} (bound : length < maxElements) :
    checkSizes Γ name length es = .ok (total, ns) ↔
      List.Forall₂ (ChecksSize Γ) es ns ∧ total = length * ns.prod ∧ total < maxElements := by
  induction es generalizing length ns with
  | nil =>
      rw [checkSizes]
      simp only [except_pure_eq_ok, Prod.mk.injEq, List.forall₂_nil_left_iff]
      constructor
      · rintro ⟨rfl, rfl⟩
        exact ⟨rfl, by simp, bound⟩
      · rintro ⟨rfl, ht, -⟩
        exact ⟨by simpa using ht.symm, rfl⟩
  | cons e rest ih =>
      rw [checkSizes]
      simp only [except_bind_eq_ok, except_guard_eq_ok, asIndex_eq_ok, constantSize_eq_ok,
        except_pure_eq_ok, Prod.exists, Prod.mk.injEq, Nat.not_le]
      constructor
      · rintro ⟨te, he, _, ⟨hi, conversion, hc, rfl⟩, n, ⟨value, size, hv, hs, hp, rfl⟩, hlt, _, ns,
          hr, rfl, rfl⟩
        obtain ⟨hf, ht, hb⟩ := (ih hlt).mp hr
        refine ⟨.cons ⟨_, value, size, ⟨te, conversion, he, hi, hc, rfl⟩, hv, hs, hp, rfl⟩ hf, ?_,
          hb⟩
        rw [ht, List.prod_cons, Nat.mul_assoc]
      · rintro ⟨_ | ⟨head, hf⟩, ht, hb⟩
        obtain ⟨_, value, size, ⟨te, conversion, he, hi, hc, rfl⟩, hv, hs, hp, rfl⟩ := head
        rw [List.prod_cons, ← Nat.mul_assoc] at ht
        have hlt : length * size.toInt.toNat < maxElements :=
          Nat.lt_of_le_of_lt (Nat.le_mul_of_pos_right _ (prod_pos_of_checksSize hf)) (ht ▸ hb)
        exact ⟨te, he, _, ⟨hi, conversion, hc, rfl⟩, _, ⟨value, size, hv, hs, hp, rfl⟩, hlt, _, _,
          (ih hlt).mpr ⟨hf, ht, hb⟩, rfl, rfl⟩

/-- Sizes that multiply to too many elements are refused for that, wherever the product passes the
bound. -/
theorem checkSizes_tooLarge {Γ : Scope Symbol} {name : String} {length : Nat}
    {es : List Source.Expr} {ns : List Nat} (bound : length < maxElements)
    (sizes : List.Forall₂ (ChecksSize Γ) es ns) (large : maxElements ≤ length * ns.prod) :
    checkSizes Γ name length es = .error ⟨.arrayTooLarge name, .varDecl⟩ := by
  induction sizes generalizing length with
  | nil =>
      rw [List.prod_nil, Nat.mul_one] at large
      omega
  | @cons e n es ns head tail ih =>
      obtain ⟨_, value, size, ⟨te, conversion, he, hi, hc, rfl⟩, hv, hs, hp, rfl⟩ := head
      have index : asIndex te .varDecl = .ok (.mk te conversion .long) :=
        asIndex_eq_ok.mpr ⟨hi, conversion, hc, rfl⟩
      have constant : constantSize name (.mk te conversion .long) = .ok size.toInt.toNat :=
        constantSize_eq_ok.mpr ⟨value, size, hv, hs, hp, rfl⟩
      rw [List.prod_cons, ← Nat.mul_assoc] at large
      rw [checkSizes, he]
      simp only [bind, Except.bind, index, constant]
      by_cases reached : maxElements ≤ length * size.toInt.toNat
      · rw [if_pos reached]
        rfl
      · rw [if_neg reached, ih (Nat.lt_of_not_le reached) large]

theorem constantInitializer_eq_ok {name : String} {ty : Ty} {value : Typed.Expr} {l : Literal} :
    constantInitializer name ty value = .ok l ↔
      ∃ conversion, Conversion.into ty value.ty = .ok conversion ∧
        (Converted.mk value conversion ty).constant? = some l := by
  simp only [constantInitializer, except_bind_eq_ok, convertTo_eq_ok]
  constructor
  · rintro ⟨_, ⟨conversion, hc, rfl⟩, h⟩
    cases hk : (Converted.mk value conversion ty).constant? with
    | none => simp [hk] at h
    | some k =>
        simp only [hk, except_pure_eq_ok] at h
        exact ⟨conversion, hc, h ▸ hk⟩
  · rintro ⟨conversion, hc, hk⟩
    exact ⟨_, ⟨conversion, hc, rfl⟩, by simp [hk]⟩

structure ChecksGlobal (Γ : Scope Symbol) (decl : Source.VarDecl) (g : Typed.Global) : Prop where
  name : g.name = decl.name
  ty : g.ty = decl.ty
  storable : decl.ty ≠ .void
  fresh : Γ.declaresInCurrent decl.name = false
  sizes : List.Forall₂ (ChecksSize Γ) decl.dimensions g.dimensions
  length : g.length = g.dimensions.prod
  addressable : g.length < maxElements
  initial : Option.Rel (fun e l => decl.dimensions = [] ∧
      ∃ c, Supplies (withVar Γ decl) decl.ty e c ∧ c.constant? = some l)
    decl.initializer g.initializer

theorem checkGlobal_eq_ok {decl : Source.VarDecl} {g : Typed.Global} {s t : Checker} :
    (checkGlobal decl).exec s = (.ok g, t) ↔
      ChecksGlobal s.scope decl g ∧ { s with scope := withVar s.scope decl } = t := by
  have one : 1 < maxElements := by decide
  unfold checkGlobal
  simp only [Stateful.exec_bind_eq_ok, requireStorable_eq_ok, reading_eq_ok, declare_eq_ok,
    checkSizes_eq_ok one, Nat.one_mul, Prod.exists]
  constructor
  · rintro ⟨_, _, ⟨hv, rfl⟩, total, dims, _, ⟨⟨hs, rfl, hb⟩, rfl⟩, _, _, ⟨hfresh, rfl⟩, h⟩
    have hscope : s.scope.push decl.name (.var decl.ty dims.length) = withVar s.scope decl := by
      rw [withVar, hs.length_eq]
    rw [hscope] at h
    cases hi : decl.initializer with
    | none =>
        simp only [hi, Stateful.exec_pure, Prod.mk.injEq, Except.ok.injEq] at h
        obtain ⟨rfl, rfl⟩ := h
        refine ⟨⟨rfl, rfl, hv, hfresh, hs, rfl, hb, ?_⟩, rfl⟩
        rw [hi]
        exact .none
    | some e =>
        simp only [hi, Stateful.exec_guard_eq_ok, Stateful.exec_bind_eq_ok, reading_eq_ok,
          ofExcept_eq_ok, constantInitializer_eq_ok, Stateful.exec_pure, Prod.mk.injEq,
          Except.ok.injEq] at h
        obtain ⟨he, te, _, ⟨hte, rfl⟩, l, _, ⟨⟨conversion, hc, hk⟩, rfl⟩, rfl, rfl⟩ := h
        refine ⟨⟨rfl, rfl, hv, hfresh, hs, rfl, hb, ?_⟩, rfl⟩
        have hd : decl.dimensions = [] := by
          have : dims = [] := by simpa using he
          subst this
          exact List.forall₂_nil_right_iff.mp hs
        rw [hi]
        exact .some ⟨hd, _, ⟨te, conversion, hte, hc, rfl⟩, hk⟩
  · rintro ⟨⟨hname, hty, hv, hfresh, hs, hlength, hb, hi⟩, rfl⟩
    rcases g with ⟨name, ty, dims, length, init⟩
    simp only at hname hty hs hlength hb hi
    subst hname hty hlength
    have hscope : s.scope.push decl.name (.var decl.ty dims.length) = withVar s.scope decl := by
      rw [withVar, hs.length_eq]
    refine ⟨(), _, ⟨hv, rfl⟩, _, dims, _, ⟨⟨hs, rfl, hb⟩, rfl⟩, (), _, ⟨hfresh, rfl⟩, ?_⟩
    rw [hscope]
    generalize hd : decl.initializer = di at hi ⊢
    cases hi with
    | none => simp
    | some h =>
        obtain ⟨hnil, _, ⟨te, conversion, hte, hc, rfl⟩, hk⟩ := h
        have he : ¬ (!dims.isEmpty) = true := by
          rw [hnil] at hs
          simp [List.forall₂_nil_left_iff.mp hs]
        simp only [Stateful.exec_guard_eq_ok, Stateful.exec_bind_eq_ok, reading_eq_ok,
          ofExcept_eq_ok, constantInitializer_eq_ok, Stateful.exec_pure]
        exact ⟨he, te, _, ⟨hte, rfl⟩, _, _, ⟨⟨conversion, hc, hk⟩, rfl⟩, rfl⟩

/-- A global array of positive sizes is refused as too large exactly where the sizes multiply to the
bound or more. -/
theorem checkGlobal_tooLarge_iff {decl : Source.VarDecl} {ns : List Nat} {s : Checker}
    (storable : decl.ty ≠ .void) (array : decl.dimensions ≠ [])
    (sizes : List.Forall₂ (ChecksSize s.scope) decl.dimensions ns) :
    ((checkGlobal decl).exec s).1 = .error ⟨.arrayTooLarge decl.name, .varDecl⟩ ↔
      maxElements ≤ ns.prod := by
  have one : 1 < maxElements := by decide
  have passes : (requireStorable decl.ty).exec s = (.ok (), s) :=
    requireStorable_eq_ok.mpr ⟨storable, rfl⟩
  unfold checkGlobal
  rw [Stateful.exec_bind_of_ok passes]
  constructor
  · intro refused
    by_contra small
    have checked : checkSizes s.scope decl.name 1 decl.dimensions = .ok (ns.prod, ns) :=
      (checkSizes_eq_ok one).mpr ⟨sizes, (Nat.one_mul _).symm, Nat.lt_of_not_le small⟩
    have several : ns ≠ [] := by
      rintro rfl
      exact array (List.forall₂_nil_right_iff.mp sizes)
    rw [Stateful.exec_bind_of_ok (reading_eq_ok.mpr ⟨checked, rfl⟩), Stateful.exec_bind, declare,
      Stateful.exec_ofFn] at refused
    -- What comes after the sizes fails for other reasons.
    cases declared : s.scope.declare decl.name (.var decl.ty ns.length) with
    | error e => cases e <;> simp [declared, Scope.Error.diagnose, Cause.ofScopeError] at refused
    | ok scope =>
        cases given : decl.initializer with
        | none => simp [declared, given] at refused
        | some initializer => simp [declared, given, several] at refused
  · intro large
    have refused : (reading fun scope => checkSizes scope decl.name 1 decl.dimensions).exec s =
        (.error ⟨.arrayTooLarge decl.name, .varDecl⟩, s) := by
      rw [reading, Stateful.exec_ofFn, checkSizes_tooLarge one sizes (by rwa [Nat.one_mul])]
    rw [Stateful.exec_bind_of_error refused]

/-! ## Functions -/

/-- In a frame of its own, the parameters check to `vs` and turn `Γ` into `Γ'`. -/
def ChecksParameters (function : EnclosingFunction) (Γ : Scope Symbol) (ps : List Source.VarDecl)
    (vs : List Typed.VarDecl) (Γ' : Scope Symbol) : Prop :=
  (checkParameters ps).exec ⟨Γ, some function⟩ = (.ok vs, ⟨Γ', some function⟩)

theorem checksParameters_nil {function : EnclosingFunction} {Γ Γ' : Scope Symbol}
    {vs : List Typed.VarDecl} :
    ChecksParameters function Γ [] vs Γ' ↔ Γ = Γ' ∧ vs = [] := by
  simp [ChecksParameters, checkParameters, and_comm, eq_comm]

theorem checksParameters_cons {function : EnclosingFunction} {Γ Γ' : Scope Symbol}
    {p : Source.VarDecl} {rest : List Source.VarDecl} {vs : List Typed.VarDecl} :
    ChecksParameters function Γ (p :: rest) vs Γ' ↔
      ∃ v others, ChecksVar Γ p v ∧ ChecksParameters function (withVar Γ p) rest others Γ' ∧
        vs = v :: others := by
  rw [ChecksParameters, checkParameters]
  simp only [Stateful.exec_bind_eq_ok, checkVarDecl_eq_ok, Stateful.exec_pure, Prod.mk.injEq,
    Except.ok.injEq]
  constructor
  · rintro ⟨v, _, ⟨hv, rfl⟩, others, _, hr, rfl, rfl⟩
    exact ⟨v, others, hv, hr, rfl⟩
  · rintro ⟨v, others, hv, hr, rfl⟩
    exact ⟨v, _, ⟨hv, rfl⟩, others, _, hr, rfl, rfl⟩

theorem declareGlobal_eq_ok {name : String} {symbol : Symbol} {site : Construct} {s t : Checker}
    {u : Unit} (top : s.scope.inner = []) :
    (declareGlobal name symbol site).exec s = (.ok u, t) ↔
      s.scope.declaresInCurrent name = false ∧
        { s with scope := s.scope.push name symbol } = t := by
  have h := @declare_eq_ok name symbol site s t u
  rw [← h]
  simp only [declareGlobal, declare, Stateful.exec_ofFn, Scope.declareGlobal_eq_declare top]

theorem inFunction_eq_ok {α : Type} {function : EnclosingFunction} {body : Check α} {s t : Checker}
    {left : Option EnclosingFunction} {a : α} :
    (inFunction function body).exec s = (.ok (left, a), t) ↔
      ∃ u, body.exec { s with function := some function } = (.ok a, u) ∧ u.function = left ∧
        { u with function := s.function } = t := by
  unfold inFunction
  rcases h : body.exec { s with function := some function } with ⟨_ | _, u⟩
  · simp [h, Except.map]
  · simp [h, Except.map, and_assoc, and_left_comm]

structure ChecksFn (Γ : Scope Symbol) (decl : Source.FnDecl) (f : Typed.FnDecl) : Prop where
  name : f.name = decl.name
  result : f.result = decl.result
  plain : ∀ p ∈ decl.parameters, plainParameter p = true
  fresh : Γ.declaresInCurrent decl.name = false
  body : ∃ Γ₁ Γ₂,
    ChecksParameters ⟨decl.name, decl.result⟩ (withFn Γ decl).enter decl.parameters f.parameters Γ₁ ∧
    ChecksBlock ⟨decl.name, decl.result⟩ Γ₁ decl.body f.body Γ₂
  returns : decl.result ≠ .void → Typed.mustReturn f.body = true

/-- Parameters and body share a frame, which is gone afterwards. -/
theorem checkBody_eq_ok {function : EnclosingFunction} {Γ : Scope Symbol} {ps : List Source.VarDecl}
    {body : List Source.Stmt} {vs : List Typed.VarDecl} {tb : List Typed.Stmt} {t : Checker} :
    (withFrame (do
      let parameters ← checkParameters ps
      return (parameters, ← checkBlock body))).exec ⟨Γ, some function⟩ = (.ok (vs, tb), t) ↔
      ⟨Γ, some function⟩ = t ∧ ∃ Γ₁ Γ₂, ChecksParameters function Γ.enter ps vs Γ₁ ∧
        ChecksBlock function Γ₁ body tb Γ₂ := by
  rw [(functionBody_behaves ps body).restores.withFrame_eq_ok]
  refine and_congr_right fun _ => ?_
  simp only [Stateful.exec_bind_eq_ok, Stateful.exec_pure, Prod.mk.injEq, Except.ok.injEq]
  constructor
  · rintro ⟨_, _, ⟨Γ₁, r⟩, hp, _, _, hb, ⟨rfl, rfl⟩, rfl⟩
    obtain ⟨hr, hp⟩ := (exec_eq_ok_iff (checkParameters_behaves ps)).mp hp
    cases hr
    exact ⟨Γ₁, _, hp, ((exec_eq_ok_iff (checkBlock_behaves body)).mp hb).2⟩
  · rintro ⟨Γ₁, Γ₂, hp, hb⟩
    exact ⟨_, vs, _, hp, tb, _, hb, ⟨rfl, rfl⟩, rfl⟩

theorem checkFunction_eq_ok {decl : Source.FnDecl} {f : Typed.FnDecl} {s t : Checker}
    (top : s.scope.inner = []) :
    (checkFunction decl).exec s = (.ok f, t) ↔
      ChecksFn s.scope decl f ∧ { s with scope := withFn s.scope decl } = t := by
  unfold checkFunction
  cases hp : decl.parameters.find? fun p => !plainParameter p with
  | some p =>
      have bad : ¬ ∀ p ∈ decl.parameters, plainParameter p = true := by
        intro plain
        have := List.find?_some hp
        simp [plain p (List.mem_of_find?_eq_some hp)] at this
      simp only [Stateful.exec_bind_eq_ok, Stateful.exec_throw, Prod.mk.injEq, reduceCtorEq,
        false_and, exists_false, false_iff, not_and]
      exact fun h => absurd h.plain bad
  | none =>
      have plain : ∀ p ∈ decl.parameters, plainParameter p = true := by
        simpa using List.find?_eq_none.mp hp
      simp only [Stateful.exec_bind_eq_ok, declareGlobal_eq_ok top, inFunction_eq_ok,
        Stateful.exec_guard_eq_ok, Stateful.exec_pure, Prod.mk.injEq, Except.ok.injEq, Prod.exists]
      constructor
      · rintro ⟨_, _, ⟨hf, rfl⟩, _, vs, tb, _, ⟨_, hb, rfl, rfl⟩, hr, rfl, rfl⟩
        obtain ⟨rfl, body⟩ := checkBody_eq_ok.mp hb
        refine ⟨⟨rfl, rfl, plain, hf, body, ?_⟩, rfl⟩
        simpa using hr
      · rintro ⟨⟨hname, hresult, -, hf, hb, hr⟩, rfl⟩
        rcases f with ⟨name, result, vs, tb⟩
        simp only at hname hresult hb hr
        subst hname hresult
        exact ⟨(), _, ⟨hf, rfl⟩, _, vs, tb, _, ⟨_, checkBody_eq_ok.mpr ⟨rfl, hb⟩, rfl, rfl⟩,
          by simpa using hr, rfl, rfl⟩

/-! ## Programs -/

/-- Outside of every function, the declarations check to `ds` in `Γ`. -/
def ChecksDecls (Γ : Scope Symbol) (decls : List Source.Decl) (ds : List Typed.Decl) : Prop :=
  ∃ t, (checkDecls decls).exec ⟨Γ, none⟩ = (.ok ds, t)

theorem checksDecls_nil {Γ : Scope Symbol} {ds : List Typed.Decl} :
    ChecksDecls Γ [] ds ↔ ds = [] := by
  simp [ChecksDecls, checkDecls, eq_comm]

theorem checksDecls_global {Γ : Scope Symbol} {decl : Source.VarDecl} {rest : List Source.Decl}
    {ds : List Typed.Decl} :
    ChecksDecls Γ (.global decl :: rest) ds ↔
      ∃ g others, ChecksGlobal Γ decl g ∧ ChecksDecls (withVar Γ decl) rest others ∧
        ds = .global g :: others := by
  rw [ChecksDecls, checkDecls, checkDecl]
  simp only [Stateful.exec_bind_eq_ok, checkGlobal_eq_ok, Stateful.exec_pure, Prod.mk.injEq,
    Except.ok.injEq]
  constructor
  · rintro ⟨_, _, _, ⟨g, _, ⟨hg, rfl⟩, rfl, rfl⟩, others, _, hr, rfl, rfl⟩
    exact ⟨g, others, hg, ⟨_, hr⟩, rfl⟩
  · rintro ⟨g, others, hg, ⟨_, hr⟩, rfl⟩
    exact ⟨_, _, _, ⟨g, _, ⟨hg, rfl⟩, rfl, rfl⟩, others, _, hr, rfl, rfl⟩

theorem checksDecls_function {Γ : Scope Symbol} (top : Γ.inner = []) {decl : Source.FnDecl}
    {rest : List Source.Decl} {ds : List Typed.Decl} :
    ChecksDecls Γ (.function decl :: rest) ds ↔
      ∃ f others, ChecksFn Γ decl f ∧ ChecksDecls (withFn Γ decl) rest others ∧
        ds = .function f :: others := by
  have inversion := fun f t => @checkFunction_eq_ok decl f ⟨Γ, none⟩ t top
  rw [ChecksDecls, checkDecls, checkDecl]
  simp only [Stateful.exec_bind_eq_ok, inversion, Stateful.exec_pure, Prod.mk.injEq,
    Except.ok.injEq]
  constructor
  · rintro ⟨_, _, _, ⟨f, _, ⟨hf, rfl⟩, rfl, rfl⟩, others, _, hr, rfl, rfl⟩
    exact ⟨f, others, hf, ⟨_, hr⟩, rfl⟩
  · rintro ⟨f, others, hf, ⟨_, hr⟩, rfl⟩
    exact ⟨_, _, _, ⟨f, _, ⟨hf, rfl⟩, rfl, rfl⟩, others, _, hr, rfl, rfl⟩

theorem checkProgram_eq_ok {decls : List Source.Decl} {ds : List Typed.Decl} :
    checkProgram decls = .ok ds ↔ ChecksDecls {} decls ds := by
  rw [checkProgram, ChecksDecls]
  rcases (checkDecls decls).exec {} with ⟨r, t⟩
  simp

end ImpLower.Typing
