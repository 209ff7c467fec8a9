import ImpLower.Proofs.Typed.Derivation
import ImpLower.Proofs.Typing.Completeness
import ImpLower.Proofs.Typing.Declarations
import ImpLower.Proofs.Typing.Soundness

/-!
# What the checker accepts

The checker accepts exactly the well-typed programs. What it returns is the program itself with right
annotations: functions come back to the letter, and a global keeps its name and type while its sizes
and its initial value are replaced by the constants they fold to.
-/

namespace ImpLower.Typing

open Typed

/-! ## Constants -/

/-- A constant moves wherever its type converts to. -/
theorem convert_of_compatible {l : Literal} {ty : Ty} (h : Compatible l.type ty) :
    ∃ k, l.convert ty = some k := by
  obtain ⟨c, hc⟩ := compatible_iff_into.mp h
  unfold Literal.convert
  cases l <;> cases ty <;> cases hc <;> exact ⟨_, rfl⟩

/-- An integer keeps its value as a `long`. -/
theorem toInt64?_of_convert_long {l k : Literal} (hi : l.type.isInteger = true)
    (h : l.convert .long = some k) : k.toInt64? = l.toInt64? := by
  cases l <;> cases hi <;> cases h <;> rfl

/-- A size expression and the size it stands for. -/
def FoldsToSize (e : Source.Expr) (n : Nat) : Prop :=
  ∃ value size, foldedValue? e = some value ∧ value.toInt64? = some size ∧ 0 < size ∧
    n = size.toInt.toNat

theorem ChecksSize.folds {Γ : Scope Symbol} (storable : Storable Γ) {e : Source.Expr} {n : Nat}
    (h : ChecksSize Γ e n) :
    FoldsToSize e n ∧ ∃ ty, HasType Γ e ty ∧ ty.isInteger = true := by
  obtain ⟨_, k, size, ⟨te, conversion, he, hi, hc, rfl⟩, hk, hs, hp, rfl⟩ := h
  obtain ⟨erased, ok⟩ := checkExpr_accepts storable e te he
  obtain ⟨folded, typed⟩ := ok.constant?_eq
  rw [Converted.constant?_eq] at hk
  obtain ⟨value, hv, hk⟩ := Option.bind_eq_some_iff.mp hk
  have word := toInt64?_of_convert_long ((typed value hv).symm ▸ hi) hk
  refine ⟨⟨value, size, ?_, word ▸ hs, hp, rfl⟩, te.ty, erased ▸ ok.hasType, hi⟩
  rw [← erased, ← folded]
  exact hv

theorem checksSize_of_folds {Γ : Scope Symbol} (storable : Storable Γ) {e : Source.Expr} {n : Nat}
    {ty : Ty} (typed : HasType Γ e ty) (integer : ty.isInteger = true) (h : FoldsToSize e n) :
    ChecksSize Γ e n := by
  obtain ⟨value, size, folds, word, hp, rfl⟩ := h
  obtain ⟨te, he, rfl⟩ := checkExpr_infers Γ e ty typed
  obtain ⟨erased, ok⟩ := checkExpr_accepts storable e te he
  obtain ⟨folded, typed⟩ := ok.constant?_eq
  rw [erased, folds] at folded
  have hty := typed value folded
  have compatible : Compatible te.ty .long := .inr ⟨by simp [Ty.isNumeric, integer], rfl⟩
  obtain ⟨conversion, hc⟩ := compatible_iff_into.mp compatible
  obtain ⟨k, hk⟩ := convert_of_compatible (hty.symm ▸ compatible : Compatible value.type .long)
  refine ⟨_, k, size, ⟨te, conversion, he, integer, hc, rfl⟩, ?_, ?_, hp, rfl⟩
  · rw [Converted.constant?_eq]
    simp [Converted.value, Converted.target, folded, hk]
  · rw [toInt64?_of_convert_long (hty.symm ▸ integer) hk, word]

theorem sizesTyped_iff {Γ : Scope Symbol} (storable : Storable Γ) {es : List Source.Expr}
    {ns : List Nat} : SizesTyped Γ es ns ↔ List.Forall₂ (ChecksSize Γ) es ns := by
  constructor
  · intro h
    induction h with
    | nil => exact .nil
    | cons typed integer constant word positive _ ih =>
        exact .cons (checksSize_of_folds storable typed integer
          ⟨_, _, constant, word, positive, rfl⟩) ih
  · intro h
    induction h with
    | nil => exact .nil
    | cons head _ ih =>
        obtain ⟨⟨value, size, folds, word, hp, rfl⟩, ty, typed, integer⟩ := head.folds storable
        exact .cons typed integer folds word hp ih

/-! ## Globals -/

/-- A global and what is left of it: its name, its type and the constants it folds to. -/
structure AnnotatesGlobal (decl : Source.VarDecl) (g : Typed.Global) : Prop where
  name : g.name = decl.name
  ty : g.ty = decl.ty
  sizes : List.Forall₂ FoldsToSize decl.dimensions g.dimensions
  initial : Option.Rel (fun e l => (foldedValue? e).bind (·.convert decl.ty) = some l)
    decl.initializer g.initializer

theorem Supplies.folds {Γ : Scope Symbol} (storable : Storable Γ) {ty : Ty} (hty : ty ≠ .void)
    {e : Source.Expr} {c : Converted} (h : Supplies Γ ty e c) :
    c.constant? = (foldedValue? e).bind (·.convert ty) ∧
      ∃ source, HasType Γ e source ∧ Converts source ty := by
  obtain ⟨erased, fits, target, ok⟩ := h.annotated (checkExpr_accepts storable e) hty
  rw [Converted.constant?_eq, target, ok.constant?_eq.1, erased]
  exact ⟨rfl, c.value.ty, erased ▸ ok.hasType, target ▸ fits.converts⟩

theorem pos_of_checksSize {Γ : Scope Symbol} {es : List Source.Expr} {ns : List Nat}
    (h : List.Forall₂ (ChecksSize Γ) es ns) : ∀ n ∈ ns, 0 < n := by
  induction h with
  | nil => simp
  | cons head _ ih => exact List.forall_mem_cons.mpr ⟨head.pos, ih⟩

theorem ChecksGlobal.annotated {Γ : Scope Symbol} (storable : Storable Γ) {decl : Source.VarDecl}
    {g : Typed.Global} (h : ChecksGlobal Γ decl g) :
    AnnotatesGlobal decl g ∧ GlobalOk Γ g ∧ GlobalTyped Γ decl ∧
      bindGlobal Γ g = withVar Γ decl := by
  obtain ⟨hname, hty, hvoid, fresh, sizes, length, addressable, initial⟩ := h
  rcases decl with ⟨ty, name, init, dims⟩
  rcases g with ⟨name', ty', ns, length', init'⟩
  simp only at hname hty hvoid fresh sizes length addressable initial
  subst hname hty
  have storable' : Storable (withVar Γ ⟨ty', name', init, dims⟩) := storable.withVar hvoid
  have folds : List.Forall₂ FoldsToSize dims ns := sizes.imp fun _ _ hs => (hs.folds storable).1
  have shape : ∃ ns, SizesTyped Γ dims ns ∧ ns.prod < 2 ^ 64 :=
    ⟨ns, (sizesTyped_iff storable).mpr sizes, length ▸ addressable⟩
  have after : bindGlobal Γ ⟨name', ty', ns, length', init'⟩ =
      withVar Γ ⟨ty', name', init, dims⟩ := by
    simp only [bindGlobal, withVar, sizes.length_eq]
  cases initial with
  | none =>
      exact ⟨⟨rfl, rfl, folds, .none⟩,
        ⟨hvoid, fresh, pos_of_checksSize sizes, length, addressable, fun l hl => by cases hl⟩,
        ⟨hvoid, fresh, shape, fun e he => by cases he⟩, after⟩
  | @some e l hi =>
      obtain ⟨scalar, c, supplies, constant⟩ := hi
      obtain ⟨folded, source, typed, converts⟩ := supplies.folds storable' hvoid
      rw [constant, eq_comm] at folded
      refine ⟨⟨rfl, rfl, folds, .some folded⟩,
        ⟨hvoid, fresh, pos_of_checksSize sizes, length, addressable, ?_⟩,
        ⟨hvoid, fresh, shape, ?_⟩, after⟩
      · rintro _ ⟨⟩
        obtain ⟨value, -, hv⟩ := Option.bind_eq_some_iff.mp folded
        refine ⟨?_, Literal.type_of_convert hv⟩
        rw [scalar] at sizes
        exact List.forall₂_nil_left_iff.mp sizes
      · rintro _ ⟨⟩
        obtain ⟨value, hv, -⟩ := Option.bind_eq_some_iff.mp folded
        exact ⟨scalar, ⟨source, typed, converts⟩, by rw [hv]; rfl⟩

theorem GlobalTyped.checks {Γ : Scope Symbol} (storable : Storable Γ) {decl : Source.VarDecl}
    (h : GlobalTyped Γ decl) : ∃ g, ChecksGlobal Γ decl g := by
  obtain ⟨ns, sizes, bound⟩ := h.sizes
  have sizes := (sizesTyped_iff storable).mp sizes
  cases hi : decl.initializer with
  | none =>
      refine ⟨⟨decl.name, decl.ty, ns, ns.prod, none⟩,
        ⟨rfl, rfl, h.storable, h.fresh, sizes, rfl, bound, ?_⟩⟩
      rw [hi]
      exact .none
  | some e =>
      obtain ⟨scalar, ⟨source, typed, converts⟩, constant⟩ := h.initial e hi
      have storable' := storable.withVar h.storable
      obtain ⟨value, hv⟩ := Option.isSome_iff_exists.mp constant
      obtain ⟨te, he, rfl⟩ := checkExpr_infers _ e source typed
      obtain ⟨erased, ok⟩ := checkExpr_accepts storable' e te he
      obtain ⟨folded, typed⟩ := ok.constant?_eq
      rw [erased, hv] at folded
      have compatible : Compatible value.type decl.ty := (typed value folded).symm ▸ converts.2
      obtain ⟨l, hl⟩ := convert_of_compatible compatible
      obtain ⟨conversion, hc⟩ := converts.into
      refine ⟨⟨decl.name, decl.ty, ns, ns.prod, some l⟩,
        ⟨rfl, rfl, h.storable, h.fresh, sizes, rfl, bound, ?_⟩⟩
      rw [hi]
      refine .some ⟨scalar, _, ⟨te, conversion, he, hc, rfl⟩, ?_⟩
      rw [Converted.constant?_eq]
      simp [Converted.value, Converted.target, folded, hl]

/-! ## Functions -/

theorem plainParameter_iff {p : Source.VarDecl} :
    plainParameter p = true ↔ p.dimensions = [] ∧ p.initializer = none := by
  simp [plainParameter]

theorem parameters_accept {function : EnclosingFunction} {Γ Γ' : Scope Symbol}
    {ps : List Source.VarDecl}
    {vs : List Typed.VarDecl} (storable : Storable Γ)
    (plain : ∀ p ∈ ps, plainParameter p = true) (h : ChecksParameters function Γ ps vs Γ') :
    vs.map VarDecl.erase = ps ∧ ParametersOk Γ vs Γ' ∧ ParametersTyped Γ ps Γ' ∧ Storable Γ' := by
  induction ps generalizing Γ vs with
  | nil =>
      obtain ⟨rfl, rfl⟩ := checksParameters_nil.mp h
      exact ⟨rfl, .nil, .nil, storable⟩
  | cons p rest ih =>
      obtain ⟨v, others, hv, hr, rfl⟩ := checksParameters_cons.mp h
      obtain ⟨head, tail⟩ := List.forall_mem_cons.mp plain
      obtain ⟨scalar, bare⟩ := plainParameter_iff.mp head
      obtain ⟨erased, ok, after⟩ := hv.annotated storable
      obtain ⟨erasedRest, oks, typed, storable'⟩ := ih (storable.withVar hv.storable) tail hr
      have scalar' : v.dimensions = [] := by
        rw [← erased] at scalar
        exact List.map_eq_nil_iff.mp scalar
      have bare' : v.initializer = none := by
        rw [← erased] at bare
        exact Option.map_eq_none_iff.mp bare
      refine ⟨?_, .cons ok scalar' bare' (after ▸ oks), .cons (erased ▸ ok.typed) scalar bare typed,
        storable'⟩
      rw [List.map_cons, erased, erasedRest]

theorem parameters_infer {function : EnclosingFunction} {Γ Γ' : Scope Symbol}
    {ps : List Source.VarDecl}
    (h : ParametersTyped Γ ps Γ') :
    (∃ vs, ChecksParameters function Γ ps vs Γ') ∧ ∀ p ∈ ps, plainParameter p = true := by
  induction h with
  | nil => exact ⟨⟨[], checksParameters_nil.mpr ⟨rfl, rfl⟩⟩, by simp⟩
  | cons typed scalar plain _ ih =>
      obtain ⟨v, hv⟩ := typed.checks
      obtain ⟨⟨vs, hs⟩, plains⟩ := ih
      exact ⟨⟨v :: vs, checksParameters_cons.mpr ⟨v, vs, hv, hs, rfl⟩⟩,
        List.forall_mem_cons.mpr ⟨plainParameter_iff.mpr ⟨scalar, plain⟩, plains⟩⟩

theorem storable_of_parametersTyped {Γ Γ' : Scope Symbol} {ps : List Source.VarDecl}
    (h : ParametersTyped Γ ps Γ') : ∀ ty ∈ ps.map Source.VarDecl.ty, ty ≠ .void := by
  induction h with
  | nil => simp
  | cons typed _ _ _ ih => exact List.forall_mem_cons.mpr ⟨typed.storable, ih⟩

theorem storable_of_checksParameters {function : EnclosingFunction} {Γ Γ' : Scope Symbol}
    {ps : List Source.VarDecl} {vs : List Typed.VarDecl} (h : ChecksParameters function Γ ps vs Γ') :
    ∀ ty ∈ ps.map Source.VarDecl.ty, ty ≠ .void := by
  induction ps generalizing Γ vs with
  | nil => simp
  | cons p rest ih =>
      obtain ⟨v, others, hv, hr, -⟩ := checksParameters_cons.mp h
      exact List.forall_mem_cons.mpr ⟨hv.storable, ih hr⟩

theorem ChecksFn.annotated {Γ : Scope Symbol} (storable : Storable Γ) {decl : Source.FnDecl}
    {f : Typed.FnDecl} (h : ChecksFn Γ decl f) :
    f.erase = decl ∧ FnOk Γ f ∧ FunctionTyped Γ decl ∧ Storable (withFn Γ decl) ∧
      bindFn Γ f = withFn Γ decl := by
  obtain ⟨hname, hresult, plain, fresh, ⟨Γ₁, Γ₂, hp, hb⟩, returns⟩ := h
  have storable' : Storable (withFn Γ decl) :=
    storable.push decl.name (storable_of_checksParameters hp)
  obtain ⟨erasedParameters, okParameters, typedParameters, storableBody⟩ :=
    parameters_accept storable'.enter plain hp
  obtain ⟨erasedBody, okBody⟩ :=
    block_accepts (fun s _ => checkStmt_accepts s) storableBody hb
  have erased : f.erase = decl := by
    rw [FnDecl.erase, hname, hresult, erasedParameters, erasedBody]
  have after : bindFn Γ f = withFn Γ decl := by
    rw [← erased]
    simp [bindFn, withFn, FnDecl.erase, VarDecl.erase, Function.comp_def]
  refine ⟨erased, ⟨hname ▸ fresh, ⟨Γ₁, Γ₂, after ▸ okParameters, hresult ▸ okBody⟩,
    hresult ▸ returns⟩, ⟨fresh, ⟨Γ₁, Γ₂, typedParameters, erasedBody ▸ okBody.typed⟩, ?_⟩,
    storable', after⟩
  intro hr
  rw [← erasedBody]
  exact (mustReturn_iff f.body).mp (returns hr)

theorem FunctionTyped.checks {Γ : Scope Symbol} (storable : Storable Γ) {decl : Source.FnDecl}
    (h : FunctionTyped Γ decl) : ∃ f, ChecksFn Γ decl f := by
  obtain ⟨fresh, ⟨Γ₁, Γ₂, typedParameters, typedBody⟩, returns⟩ := h
  obtain ⟨⟨vs, hp⟩, plain⟩ := parameters_infer typedParameters
  have typed : BlockTyped (EnclosingFunction.mk decl.name decl.result).result Γ₁ decl.body Γ₂ :=
    typedBody
  obtain ⟨tb, hb⟩ := block_infers (fun s _ => checkStmt_infers s) typed
  have storable' : Storable (withFn Γ decl) :=
    storable.push decl.name (storable_of_parametersTyped typedParameters)
  obtain ⟨-, -, -, storableBody⟩ := parameters_accept storable'.enter plain hp
  obtain ⟨erasedBody, -⟩ := block_accepts (fun s _ => checkStmt_accepts s) storableBody hb
  refine ⟨⟨decl.name, decl.result, vs, tb⟩, ⟨rfl, rfl, plain, fresh, ⟨Γ₁, Γ₂, hp, hb⟩, ?_⟩⟩
  intro hr
  rw [mustReturn_iff, erasedBody]
  exact returns hr

/-! ## Programs -/

inductive Annotates : Source.Decl → Typed.Decl → Prop
  | global {decl : Source.VarDecl} {g : Typed.Global} (same : AnnotatesGlobal decl g) :
      Annotates (.global decl) (.global g)
  | function (f : Typed.FnDecl) : Annotates (.function f.erase) (.function f)

theorem checksDecls_annotated {Γ : Scope Symbol} (storable : Storable Γ) (top : Γ.inner = [])
    {decls : List Source.Decl} {ds : List Typed.Decl} (h : ChecksDecls Γ decls ds) :
    List.Forall₂ Annotates decls ds ∧ DeclsOk Γ ds ∧ DeclsTyped Γ decls := by
  induction decls generalizing Γ ds with
  | nil =>
      cases checksDecls_nil.mp h
      exact ⟨.nil, .nil, .nil⟩
  | cons d rest ih =>
      cases d with
      | global decl =>
          obtain ⟨g, others, hg, hr, rfl⟩ := checksDecls_global.mp h
          obtain ⟨same, ok, typed, after⟩ := hg.annotated storable
          obtain ⟨annotates, oks, typeds⟩ :=
            ih (storable.withVar hg.storable) (Scope.inner_push top _ _) hr
          exact ⟨.cons (.global same) annotates, .global ok (after ▸ oks), .global typed typeds⟩
      | function decl =>
          obtain ⟨f, others, hf, hr, rfl⟩ := (checksDecls_function top).mp h
          obtain ⟨rfl, ok, typed, storable', after⟩ := hf.annotated storable
          obtain ⟨annotates, oks, typeds⟩ := ih storable' (Scope.inner_push top _ _) hr
          exact ⟨.cons (.function f) annotates, .function ok (after ▸ oks), .function typed typeds⟩

theorem checksDecls_of_typed {Γ : Scope Symbol} (storable : Storable Γ) (top : Γ.inner = [])
    {decls : List Source.Decl} (h : DeclsTyped Γ decls) : ∃ ds, ChecksDecls Γ decls ds := by
  induction h with
  | nil => exact ⟨[], checksDecls_nil.mpr rfl⟩
  | global typed _ ih =>
      obtain ⟨g, hg⟩ := typed.checks storable
      obtain ⟨ds, hs⟩ := ih (storable.withVar hg.storable) (Scope.inner_push top _ _)
      exact ⟨_, checksDecls_global.mpr ⟨g, ds, hg, hs, rfl⟩⟩
  | function typed _ ih =>
      obtain ⟨f, hf⟩ := typed.checks storable
      obtain ⟨ds, hs⟩ := ih (hf.annotated storable).2.2.2.1 (Scope.inner_push top _ _)
      exact ⟨_, (checksDecls_function top).mpr ⟨f, ds, hf, hs, rfl⟩⟩

theorem storable_empty : Storable {} := by
  intro name symbol h
  simp [Scope.lookup] at h

/-- The checker accepts exactly the well-typed programs, and what it returns is the program with right
annotations. -/
theorem checkProgram_accepts_exactly_wellTyped (decls : List Source.Decl) :
    ((∃ ds, checkProgram decls = .ok ds) ↔ WellTyped decls) ∧
      ∀ ds, checkProgram decls = .ok ds → ProgramOk ds ∧ List.Forall₂ Annotates decls ds := by
  refine ⟨⟨?_, fun h => ?_⟩, fun ds h => ?_⟩
  · rintro ⟨ds, h⟩
    exact (checksDecls_annotated storable_empty rfl (checkProgram_eq_ok.mp h)).2.2
  · obtain ⟨ds, hs⟩ := checksDecls_of_typed storable_empty rfl h
    exact ⟨ds, checkProgram_eq_ok.mpr hs⟩
  · obtain ⟨annotates, ok, -⟩ :=
      checksDecls_annotated storable_empty rfl (checkProgram_eq_ok.mp h)
    exact ⟨ok, annotates⟩

/-- A counter per cell: `tally` adds one to a cell of a global array and returns it. -/
def tallyProgram : List Source.Decl :=
  [.global
      { ty := .int
        name := "cells"
        dimensions := [.binary (.arith .mul) (.literal (.int 2)) (.literal (.short 2))] },
    .function
      { result := .long
        name := "tally"
        parameters := [{ ty := .int, name := "at" }]
        body :=
          [.ifThen (.binary (.relation .lt) (.var "at" []) (.literal (.int 0)))
              [.ret (some (.literal (.int 0)))],
            .eval (.assign "cells" [.var "at" []]
              (.binary (.arith .add) (.var "cells" [.var "at" []]) (.literal (.short 1)))),
            .ret (some (.var "cells" [.var "at" []]))] }]

/-- The counter is well typed and comes back annotated. -/
theorem tallyProgram_accepted :
    WellTyped tallyProgram ∧ ∃ ds, checkProgram tallyProgram = .ok ds ∧ ProgramOk ds ∧
      List.Forall₂ Annotates tallyProgram ds := by
  obtain ⟨ds, hs⟩ : ∃ ds, checkProgram tallyProgram = .ok ds := ⟨_, rfl⟩
  have accepted := checkProgram_accepts_exactly_wellTyped tallyProgram
  exact ⟨accepted.1.mp ⟨ds, hs⟩, ds, hs, accepted.2 ds hs⟩

end ImpLower.Typing
