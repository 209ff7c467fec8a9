import ImpLower.Proofs.Lower.Certification.Expr
import ImpLower.Proofs.Lower.Confinement
import ImpLower.Proofs.Lower.Stmt
import ImpLower.Proofs.Semantics.Cases

/-!
# Code of statements is certified

A well-annotated statement is lowered under a ledger. It may come out in another block, but what was
there before it is still there: each block is opened with what was there when it was added, and every
branch is taken where that is still so.
-/

namespace ImpLower.Lower

open Code Typed Stateful

/-! ## Local variables -/

section

variable {S : Setting} {L : Ledger} {b : Nat} {sc : Names} {site : Construct}

theorem runs_product {sizes : List Operand}
    (holds : ∀ n ∈ sizes, S.Holds L (L.available b) n .long) :
    Runs S (product sizes) L b sc
      (Stays b sc fun o L' => ∀ v, o = some v → S.Holds L' (L'.available b) v .long) := by
  have go : ∀ {sizes : List Operand} {L : Ledger} {o : Operand},
      S.Holds L (L.available b) o .long → (∀ n ∈ sizes, S.Holds L (L.available b) n .long) →
      Runs S (product.go o sizes) L b sc
        (Stays b sc fun v L' => S.Holds L' (L'.available b) v .long) := by
    intro sizes
    induction sizes with
    | nil =>
        intro L o length _
        exact .pure ⟨rfl, rfl, length⟩
    | cons n ns ih =>
        intro L o length holds
        obtain ⟨first, others⟩ := List.forall_mem_cons.mp holds
        rw [product.go]
        refine (runs_longArith length first "length").bind ?_
        rintro v L₁ _ _ le₁ ⟨rfl, rfl, hv⟩
        exact ih hv fun n hn => (others n hn).stays le₁
  cases sizes with
  | nil => exact .pure ⟨rfl, rfl, holds_none⟩
  | cons n ns =>
      obtain ⟨first, others⟩ := List.forall_mem_cons.mp holds
      rw [product]
      refine (go first others).bind ?_
      rintro v L₁ _ _ le₁ ⟨rfl, rfl, hv⟩
      exact .pure ⟨rfl, rfl, fun w hw => by cases hw; exact hv⟩

/-- Control comes out where everything is that was there before, with the names of `Γ` visible. -/
def Leads {α : Type} (S : Setting) (A : Set Local) (Γ : Scope Symbol) (_ : α) (L' : Ledger)
    (b' : Nat) (sc' : Names) : Prop :=
  A ⊆ L'.available b' ∧ S.Sees L' (L'.available b') sc' ∧ sc'.map (symbolOf S.signatures) = Γ

theorem HoldsAll.each {A : Set Local} {vs : List Operand} {tys : List Ty} {ty : Ty}
    (h : HoldsAll S L A vs tys) (same : ∀ t ∈ tys, t = ty) : ∀ v ∈ vs, S.Holds L A v ty := by
  induction h with
  | nil => simp
  | cons head _ ih =>
      obtain ⟨first, others⟩ := List.forall_mem_cons.mp same
      exact List.forall_mem_cons.mpr ⟨first ▸ head, ih others⟩

/-- The variable is visible from its declaration on, to its own initial value too. -/
theorem runs_lowerVarDecl {v : VarDecl} (sees : S.Sees L (L.available b) sc)
    (ok : VarOk (sc.map (symbolOf S.signatures)) v) :
    Runs S (lowerVarDecl v) L b sc fun a L' b' sc' => b = b' ∧
      Leads S (L.available b) (bindVar (sc.map (symbolOf S.signatures)) v) a L' b' sc' := by
  have longs : ∀ t ∈ v.dimensions.map Converted.target, t = .long := by
    intro t ht
    obtain ⟨c, hc, rfl⟩ := List.mem_map.mp ht
    exact (ok.sizes c hc).1.2.2
  rw [lowerVarDecl]
  refine (runs_lowerArguments_of (fun c _ => exprCertified c.value) sees
    (fun c hc => (ok.sizes c hc).2) fun c hc => (ok.sizes c hc).1.1).bind ?_
  rintro sizes L₁ _ _ le₁ ⟨rfl, rfl, dims⟩
  have rank : sizes.length = v.dimensions.length := by
    rw [List.Forall₂.length_eq dims, List.length_map]
  have holds := dims.each longs
  refine (runs_product holds).bind ?_
  rintro length L₂ _ _ le₂ ⟨rfl, rfl, count⟩
  refine (runs_alloca count v.name).bind ?_
  rintro slot L₃ _ _ le₃ ⟨rfl, rfl, stored, there⟩
  have le := (le₁.trans le₂).trans le₃
  have visible := (sees.stays le).push stored there
    (fun n hn => (holds n hn).stays (le₂.trans le₃)) v.name
  refine runs_declare.bind ?_
  rintro _ _ _ _ _ ⟨rfl, rfl, rfl⟩
  have names : (sc.push v.name (.var slot v.ty sizes)).map (symbolOf S.signatures) =
      bindVar (sc.map (symbolOf S.signatures)) v := by
    simp [bindVar, symbolOf, rank]
  cases given : v.initializer with
  | none => exact .pure ⟨rfl, le.available _, visible, names⟩
  | some initial =>
      obtain ⟨-, target, fits, inside⟩ := ok.initial initial given
      refine (runs_lowerConverted visible (names ▸ inside) fits).bind ?_
      rintro value L₄ _ _ le₄ ⟨rfl, rfl, hv⟩
      rw [target] at hv
      refine (runs_store ((Setting.env_le le₄).storage? stored)
        (fun x hx => le₄.available _ (there x hx)) holds_none hv).mono ?_
      rintro _ L₅ _ _ le₅ ⟨rfl, rfl, -⟩
      exact ⟨rfl, ((le.trans le₄).trans le₅).available _, visible.stays (le₄.trans le₅), names⟩

end

/-! ## Bodies -/

/-- Wherever the statement is well annotated, control comes out of it with the names after it. -/
def StmtCertified (st : Stmt) : Prop :=
  ∀ {S : Setting} {L : Ledger} {b : Nat} {sc : Names} {Γ : Scope Symbol},
    S.Sees L (L.available b) sc → StmtOk S.result (sc.map (symbolOf S.signatures)) st Γ →
    Runs S (lowerStmt st) L b sc (Leads S (L.available b) Γ)

/-- Wherever the statements are well annotated, what was there before them is there after them. -/
def BlockCertified (body : List Stmt) : Prop :=
  ∀ {S : Setting} {L : Ledger} {b : Nat} {sc : Names} {Γ : Scope Symbol},
    S.Sees L (L.available b) sc → BlockOk S.result (sc.map (symbolOf S.signatures)) body Γ →
    Runs S (lowerBlock body) L b sc fun _ L' b' _ => L.available b ⊆ L'.available b'

theorem blockCertified_of_forall {body : List Stmt} (certified : ∀ st ∈ body, StmtCertified st) :
    BlockCertified body := by
  intro S L b sc Γ sees ok
  induction body generalizing L b sc with
  | nil =>
      rw [lowerBlock]
      exact .pure Set.Subset.rfl
  | cons st rest ih =>
      obtain ⟨certified₀, certified⟩ := List.forall_mem_cons.mp certified
      cases ok with
      | cons head tail =>
          rw [lowerBlock]
          refine runs_isClosed.bind ?_
          rintro closed L₁ _ _ le₁ ⟨rfl, rfl, -⟩
          refine .ite (.pure (le₁.available b)) ?_
          refine (certified₀ (sees.stays le₁) head).bind ?_
          rintro _ L₂ b₂ sc₂ le₂ ⟨sub, sees₂, rfl⟩
          refine (ih certified sees₂ tail).mono ?_
          rintro _ L₃ b₃ _ le₃ sub'
          exact ((le₁.available b).trans sub).trans sub'

section

variable {S : Setting} {L : Ledger} {b : Nat} {sc : Names} {site : Construct}

theorem Runs.gains {α : Type} {m : Lower Draft Operand Slot Nat α} (grows : Grows m)
    {Q : α → Ledger → Nat → Names → Prop} (h : Runs S m L b sc Q) :
    Runs S m L b sc fun a L' b' sc' => (∃ new, sc' = sc.gain new) ∧ Q a L' b' sc' := by
  intro certifies a t run
  have gained := (grows (S.state L b sc)).scope
  rw [run] at gained
  obtain ⟨L', b', sc', rfl, le, certifies', hq⟩ := h certifies a t run
  exact ⟨L', b', sc', rfl, le, certifies', gained, hq⟩

/-- The frame is gone afterwards, with whatever names it gained. -/
theorem runs_withFrame {α : Type} {m : Lower Draft Operand Slot Nat α} {Q : α → Ledger → Nat → Prop}
    (h : Runs S m L b sc.enter fun a L' b' sc' => (∃ new, sc' = sc.enter.gain new) ∧ Q a L' b') :
    Runs S (withFrame m) L b sc fun a L' b' sc' => sc = sc' ∧ Q a L' b' := by
  intro certifies a t run
  obtain ⟨u, inside, rfl⟩ := withFrame_eq_ok.mp run
  obtain ⟨L', b', sc', rfl, le, certifies', ⟨new, rfl⟩, hq⟩ := h certifies a u inside
  refine ⟨L', b', sc, ?_, le, certifies', rfl, hq⟩
  show S.state L' b' ((sc.enter.gain new).unwind sc.depth) = S.state L' b' sc
  rw [Scope.unwind_gain_enter]

theorem runs_framed {m : Lower Draft Operand Slot Nat Unit} (sees : S.Sees L (L.available b) sc)
    (h : Runs S m L b sc.enter fun _ L' b' sc' =>
      (∃ new, sc' = sc.enter.gain new) ∧ L.available b ⊆ L'.available b') :
    Runs S (withFrame m) L b sc (Leads S (L.available b) (sc.map (symbolOf S.signatures))) := by
  refine (runs_withFrame h).mono ?_
  rintro _ L₁ b₁ _ le₁ ⟨rfl, sub⟩
  exact ⟨sub, sees.mono le₁ sub, rfl⟩

theorem runs_body {body : List Stmt} (certified : BlockCertified body) {Γ : Scope Symbol}
    (sees : S.Sees L (L.available b) sc)
    (ok : BlockOk S.result (sc.map (symbolOf S.signatures)).enter body Γ) :
    Runs S (withFrame (lowerBlock body)) L b sc fun _ L' b' sc' =>
      sc = sc' ∧ L.available b ⊆ L'.available b' :=
  runs_withFrame ((certified sees.enter (by simpa using ok)).gains (lowerBlock_grows body))

theorem runs_fallInto {e : Nat} {A : Set Local} (opens : L.Opens e A) (sub : A ⊆ L.available b) :
    Runs S (fallInto ⟨S.index, e⟩ site) L b sc (Stays b sc fun _ _ => True) := by
  rw [fallInto]
  refine runs_isClosed.bind ?_
  rintro closed L₁ _ _ le₁ ⟨rfl, rfl, -⟩
  refine .ite (.pure ⟨rfl, rfl, trivial⟩) ?_
  refine (runs_branch (le₁.opens opens) (sub.trans (le₁.available b))).bind ?_
  rintro _ L₂ _ _ le₂ ⟨rfl, rfl, -⟩
  exact .pure ⟨rfl, rfl, trivial⟩

/-- A body in a block of its own, from which control goes on to the block `e`: both were opened with
what is there. What comes after it starts in another block. -/
theorem runs_arm {body : List Stmt} (certified : BlockCertified body) {A : Set Local} {i e : Nat}
    {Γ : Scope Symbol} (opens : L.Opens i A) (opensEnd : L.Opens e A) (sees : S.Sees L A sc)
    (ok : BlockOk S.result (sc.map (symbolOf S.signatures)).enter body Γ) {β : Type}
    {k : Bool → Lower Draft Operand Slot Nat β} {R : β → Ledger → Nat → Names → Prop}
    (next : ∀ r L' b', L.Le L' → Runs S (k r) L' b' sc R) :
    Runs S (do
      moveTo ⟨S.index, i⟩
      withFrame (lowerBlock body)
      let r ← fallInto ⟨S.index, e⟩ site
      k r) L b sc R := by
  refine (runs_moveTo i).bind ?_
  rintro _ _ _ _ _ ⟨rfl, rfl, rfl⟩
  refine (runs_body certified (sees.mono (.refl L) opens.subset) ok).bind ?_
  rintro _ L₁ b₁ _ le₁ ⟨rfl, sub⟩
  refine (runs_fallInto (le₁.opens opensEnd) (opens.subset.trans sub)).bind ?_
  rintro r L₂ _ _ le₂ ⟨rfl, rfl, -⟩
  exact next r L₂ b₁ (le₁.trans le₂)

/-- Control goes on in a block that was opened with the set. -/
theorem runs_leave {A : Set Local} {e : Nat} (opens : L.Opens e A) (sees : S.Sees L A sc)
    {A₀ : Set Local} (sub : A₀ ⊆ A) :
    Runs S (moveTo ⟨S.index, e⟩ : Lower Draft Operand Slot Nat Unit) L b sc
      (Leads S A₀ (sc.map (symbolOf S.signatures))) := by
  refine (runs_moveTo e).mono ?_
  rintro _ _ _ _ _ ⟨rfl, rfl, rfl⟩
  exact ⟨sub.trans opens.subset, sees.mono (.refl L) opens.subset, rfl⟩

end

/-! ## Statements -/

theorem block_certified {body : List Stmt} (certified : BlockCertified body) :
    StmtCertified (.block body) := by
  intro S L b sc Γ sees ok
  cases ok with
  | block inside =>
      rw [lowerStmt]
      exact runs_framed sees
        ((certified sees.enter (by simpa using inside)).gains (lowerBlock_grows body))

theorem declare_certified (v : VarDecl) : StmtCertified (.declare v) := by
  intro S L b sc Γ sees ok
  cases ok with
  | declare ok =>
      rw [lowerStmt]
      exact (runs_lowerVarDecl sees ok).mono fun _ _ _ _ _ h => h.2

theorem eval_certified (e : Expr) : StmtCertified (.eval e) := by
  intro S L b sc Γ sees ok
  cases ok with
  | eval ok =>
      rw [lowerStmt]
      refine (exprCertified e sees ok).bind ?_
      rintro v L₁ _ _ le₁ ⟨rfl, rfl, -⟩
      exact .pure ⟨le₁.available b, sees.stays le₁, rfl⟩

theorem ret_certified (value : Option Converted) : StmtCertified (.ret value) := by
  intro S L b sc Γ sees ok
  cases ok with
  | ret valued ok fits target =>
      rw [lowerStmt]
      refine (runs_lowerConverted sees ok fits).bind ?_
      rintro v L₁ _ _ le₁ ⟨rfl, rfl, hv⟩
      rw [target] at hv
      refine (runs_ret valued hv).mono ?_
      rintro _ L₂ _ _ le₂ ⟨rfl, rfl, -⟩
      have le := le₁.trans le₂
      exact ⟨le.available b, sees.stays le, rfl⟩
  | retVoid void =>
      rw [lowerStmt]
      refine (runs_retVoid void).mono ?_
      rintro _ L₁ _ _ le₁ ⟨rfl, rfl, -⟩
      exact ⟨le₁.available b, sees.stays le₁, rfl⟩

theorem ifThen_certified {condition : Expr} {body : List Stmt} (certified : BlockCertified body) :
    StmtCertified (.ifThen condition body) := by
  intro S L b sc Γ sees ok
  cases ok with
  | ifThen test boolean inside =>
      rw [lowerStmt]
      refine runs_enclosingFunction.bind ?_
      rintro _ L₀ _ _ le₀ ⟨rfl, rfl, rfl⟩
      refine (runs_lowerValue (sees.stays le₀) test).bind ?_
      rintro v L₁ _ _ le₁ ⟨rfl, rfl, hv⟩
      rw [boolean] at hv
      have sees₁ := sees.stays (le₀.trans le₁)
      refine (runs_addBlock (by decide) (L₁.available b)).bind ?_
      rintro _ L₂ _ _ le₂ ⟨rfl, rfl, t, rfl, opensThen⟩
      refine (runs_addBlock (by decide) (L₁.available b)).bind ?_
      rintro _ L₃ _ _ le₃ ⟨rfl, rfl, e, rfl, opensEnd⟩
      have le₁₃ := le₂.trans le₃
      refine (runs_condBranch (hv.stays le₁₃) (le₃.opens opensThen) opensEnd
        (le₁₃.available b)).bind ?_
      rintro _ L₄ _ _ le₄ ⟨rfl, rfl, -⟩
      have le₁₄ := le₁₃.trans le₄
      refine runs_arm certified ((le₃.trans le₄).opens opensThen) (le₄.opens opensEnd)
        (sees₁.later le₁₄) inside fun _ L₅ b₅ le₅ => ?_
      exact runs_leave ((le₄.trans le₅).opens opensEnd) (sees₁.later (le₁₄.trans le₅))
        ((le₀.trans le₁).available b)

theorem ifElse_certified {condition : Expr} {body other : List Stmt}
    (certified : BlockCertified body) (certifiedOther : BlockCertified other) :
    StmtCertified (.ifElse condition body other) := by
  intro S L b sc Γ sees ok
  cases ok with
  | ifElse test boolean inside otherwise =>
      rw [lowerStmt]
      refine runs_enclosingFunction.bind ?_
      rintro _ L₀ _ _ le₀ ⟨rfl, rfl, rfl⟩
      refine (runs_lowerValue (sees.stays le₀) test).bind ?_
      rintro v L₁ _ _ le₁ ⟨rfl, rfl, hv⟩
      rw [boolean] at hv
      have sees₁ := sees.stays (le₀.trans le₁)
      refine (runs_addBlock (by decide) (L₁.available b)).bind ?_
      rintro _ L₂ _ _ le₂ ⟨rfl, rfl, t, rfl, opensThen⟩
      refine (runs_addBlock (by decide) (L₁.available b)).bind ?_
      rintro _ L₃ _ _ le₃ ⟨rfl, rfl, f, rfl, opensElse⟩
      refine (runs_addBlock (by decide) (L₁.available b)).bind ?_
      rintro _ L₄ _ _ le₄ ⟨rfl, rfl, e, rfl, opensEnd⟩
      have le₂₄ := le₃.trans le₄
      have le₁₄ := le₂.trans le₂₄
      refine (runs_condBranch (hv.stays le₁₄) (le₂₄.opens opensThen) (le₄.opens opensElse)
        (le₁₄.available b)).bind ?_
      rintro _ L₅ _ _ le₅ ⟨rfl, rfl, -⟩
      have le₁₅ := le₁₄.trans le₅
      refine runs_arm certified ((le₂₄.trans le₅).opens opensThen) (le₅.opens opensEnd)
        (sees₁.later le₁₅) inside fun reached L₆ b₆ le₆ => ?_
      have le₁₆ := le₁₅.trans le₆
      have le₄₆ := le₅.trans le₆
      refine runs_arm certifiedOther ((le₄.trans le₄₆).opens opensElse) (le₄₆.opens opensEnd)
        (sees₁.later le₁₆) otherwise fun reachedToo L₇ b₇ le₇ => ?_
      refine (runs_leave ((le₄₆.trans le₇).opens opensEnd) (sees₁.later (le₁₆.trans le₇))
        ((le₀.trans le₁).available b)).bind ?_
      rintro _ L₈ b₈ sc₈ le₈ leads
      refine .ite (.pure leads) (runs_unreachable.mono ?_)
      rintro _ L₉ _ _ le₉ ⟨rfl, rfl, -⟩
      exact ⟨leads.1.trans (le₉.available _), leads.2.1.stays le₉, leads.2.2⟩

theorem whileLoop_certified {condition : Expr} {body : List Stmt}
    (certified : BlockCertified body) : StmtCertified (.whileLoop condition body) := by
  intro S L b sc Γ sees ok
  cases ok with
  | whileLoop test boolean inside =>
      rw [lowerStmt]
      refine runs_enclosingFunction.bind ?_
      rintro _ L₀ _ _ le₀ ⟨rfl, rfl, rfl⟩
      have sees₀ := sees.stays le₀
      refine (runs_addBlock (by decide) (L₀.available b)).bind ?_
      rintro _ L₁ _ _ le₁ ⟨rfl, rfl, h, rfl, opensCond⟩
      refine (runs_addBlock (by decide) (L₀.available b)).bind ?_
      rintro _ L₂ _ _ le₂ ⟨rfl, rfl, i, rfl, opensBody⟩
      refine (runs_addBlock (by decide) (L₀.available b)).bind ?_
      rintro _ L₃ _ _ le₃ ⟨rfl, rfl, e, rfl, opensEnd⟩
      have le₀₃ := (le₁.trans le₂).trans le₃
      refine (runs_branch ((le₂.trans le₃).opens opensCond) (le₀₃.available b)).bind ?_
      rintro _ L₄ _ _ le₄ ⟨rfl, rfl, -⟩
      have le₀₄ := le₀₃.trans le₄
      have opensCond₄ := ((le₂.trans le₃).trans le₄).opens opensCond
      refine (runs_moveTo h).bind ?_
      rintro _ _ _ _ _ ⟨rfl, rfl, rfl⟩
      refine (runs_lowerValue (sees₀.mono le₀₄ opensCond₄.subset) test).bind ?_
      rintro v L₅ _ _ le₅ ⟨rfl, rfl, hv⟩
      rw [boolean] at hv
      have opensCond₅ := le₅.opens opensCond₄
      refine (runs_condBranch hv (((le₃.trans le₄).trans le₅).opens opensBody)
        ((le₄.trans le₅).opens opensEnd) opensCond₅.subset).bind ?_
      rintro _ L₆ _ _ le₆ ⟨rfl, rfl, -⟩
      have le₀₆ := (le₀₄.trans le₅).trans le₆
      have le₃₆ := (le₄.trans le₅).trans le₆
      refine runs_arm certified ((le₃.trans le₃₆).opens opensBody) (le₆.opens opensCond₅)
        (sees₀.later le₀₆) inside fun _ L₇ b₇ le₇ => ?_
      exact runs_leave ((le₃₆.trans le₇).opens opensEnd) (sees₀.later (le₀₆.trans le₇))
        (le₀.available b)

/-- The frame of the loop holds its variable, which is there in each of its blocks. -/
theorem forLoop_certified {v : VarDecl} {condition step : Expr} {body : List Stmt}
    (certified : BlockCertified body) : StmtCertified (.forLoop v condition step body) := by
  intro S L b sc Γ sees ok
  cases ok with
  | forLoop ok test boolean next inside =>
      rw [lowerStmt]
      refine runs_framed sees (runs_enclosingFunction.bind ?_)
      rintro _ L₀ _ _ le₀ ⟨rfl, rfl, rfl⟩
      refine ((runs_lowerVarDecl (sees.stays le₀).enter (by simpa using ok)).gains
        (lowerVarDecl_grows v)).bind ?_
      rintro _ L₁ _ sc₁ le₁ ⟨gained, rfl, sub, sees₁, names⟩
      rw [Scope.map_enter, ← names] at test next inside
      refine (runs_addBlock (by decide) (L₁.available b)).bind ?_
      rintro _ L₂ _ _ le₂ ⟨rfl, rfl, h, rfl, opensCond⟩
      refine (runs_addBlock (by decide) (L₁.available b)).bind ?_
      rintro _ L₃ _ _ le₃ ⟨rfl, rfl, i, rfl, opensBody⟩
      refine (runs_addBlock (by decide) (L₁.available b)).bind ?_
      rintro _ L₄ _ _ le₄ ⟨rfl, rfl, j, rfl, opensStep⟩
      refine (runs_addBlock (by decide) (L₁.available b)).bind ?_
      rintro _ L₅ _ _ le₅ ⟨rfl, rfl, e, rfl, opensEnd⟩
      have le₃₅ := le₄.trans le₅
      have le₂₅ := le₃.trans le₃₅
      have le₁₅ := le₂.trans le₂₅
      refine (runs_branch (le₂₅.opens opensCond) (le₁₅.available b)).bind ?_
      rintro _ L₆ _ _ le₆ ⟨rfl, rfl, -⟩
      have opensCond₆ := (le₂₅.trans le₆).opens opensCond
      refine (runs_moveTo h).bind ?_
      rintro _ _ _ _ _ ⟨rfl, rfl, rfl⟩
      refine (runs_lowerValue (sees₁.mono (le₁₅.trans le₆) opensCond₆.subset) test).bind ?_
      rintro v L₇ _ _ le₇ ⟨rfl, rfl, hv⟩
      rw [boolean] at hv
      have le₅₇ := le₆.trans le₇
      have opensCond₇ := le₇.opens opensCond₆
      refine (runs_condBranch hv ((le₃₅.trans le₅₇).opens opensBody) (le₅₇.opens opensEnd)
        opensCond₇.subset).bind ?_
      rintro _ L₈ _ _ le₈ ⟨rfl, rfl, -⟩
      have le₅₈ := le₅₇.trans le₈
      have opensStep₈ := (le₅.trans le₅₈).opens opensStep
      refine runs_arm certified ((le₃₅.trans le₅₈).opens opensBody) opensStep₈
        (sees₁.later (le₁₅.trans le₅₈)) inside fun _ L₉ b₉ le₉ => ?_
      have le₅₉ := le₅₈.trans le₉
      have opensStep₉ := le₉.opens opensStep₈
      refine (runs_moveTo j).bind ?_
      rintro _ _ _ _ _ ⟨rfl, rfl, rfl⟩
      refine (exprCertified step (sees₁.mono (le₁₅.trans le₅₉) opensStep₉.subset) next).bind ?_
      rintro _ M _ _ leM ⟨rfl, rfl, -⟩
      refine (runs_branch (((le₈.trans le₉).trans leM).opens opensCond₇)
        (leM.opens opensStep₉).subset).bind ?_
      rintro _ M' _ _ leM' ⟨rfl, rfl, -⟩
      have opensEnd' := ((le₅₉.trans leM).trans leM').opens opensEnd
      refine (runs_moveTo e).mono ?_
      rintro _ _ _ _ _ ⟨rfl, rfl, rfl⟩
      exact ⟨gained, ((le₀.available b).trans sub).trans opensEnd'.subset⟩

/-! ## Switches -/

theorem runs_lowerTable {S : Setting} {L : Ledger} {b : Nat} {sc : Names} {cases : List Case}
    (certified : ∀ c ∈ cases, BlockCertified c.body) {compared : Ty} {test : Predicate}
    (ok : CasesOk S.result (sc.map (symbolOf S.signatures)) compared test cases) {A : Set Local}
    {is : List Nat} {e : Nat} (opens : ∀ i ∈ is, L.Opens i A) (opensEnd : L.Opens e A)
    (sees : S.Sees L A sc) :
    Runs S (lowerTable ⟨S.index, e⟩ cases (is.map (BlockId.mk S.index))) L b sc
      fun _ _ _ sc' => sc = sc' := by
  induction cases generalizing L b is with
  | nil =>
      unfold lowerTable
      exact .pure rfl
  | cons c rest ih =>
      obtain ⟨first, others⟩ := List.forall_mem_cons.mp certified
      cases ok with
      | cons ok fits target inside tail =>
          cases is with
          | nil =>
              unfold lowerTable
              exact .pure rfl
          | cons i is =>
              obtain ⟨opensFirst, opensOthers⟩ := List.forall_mem_cons.mp opens
              rw [List.map_cons, lowerTable]
              refine runs_arm first opensFirst opensEnd sees inside fun _ L₁ b₁ le₁ => ?_
              exact ih others tail (fun j hj => le₁.opens (opensOthers j hj)) (le₁.opens opensEnd)
                (sees.later le₁)

/-- Each comparison is made where the scrutinee still is. -/
theorem runs_lowerChain {S : Setting} {L : Ledger} {b : Nat} {sc : Names} {cases : List Case}
    (certified : ∀ c ∈ cases, BlockCertified c.body) {compared : Ty} {test : Predicate}
    (ok : CasesOk S.result (sc.map (symbolOf S.signatures)) compared test cases)
    (family : test.WorksAt compared) {A : Set Local} {x : Operand} (scrutinee : S.Holds L A x compared)
    {e : Nat} (opensEnd : L.Opens e A) (sees : S.Sees L A sc) (sub : A ⊆ L.available b) :
    Runs S (lowerChain S.index x ⟨S.index, e⟩ cases) L b sc
      fun _ L' b' sc' => sc = sc' ∧ A ⊆ L'.available b' := by
  induction cases generalizing L b with
  | nil =>
      rw [lowerChain]
      exact .pure ⟨rfl, sub⟩
  | cons c rest ih =>
      obtain ⟨first, others⟩ := List.forall_mem_cons.mp certified
      cases ok with
      | cons ok fits target inside tail =>
          rw [lowerChain]
          refine (runs_lowerConverted (sees.mono (.refl L) sub) ok fits).bind ?_
          rintro v L₁ _ _ le₁ ⟨rfl, rfl, hv⟩
          rw [target] at hv
          have there : S.Holds L₁ (L₁.available b) x compared :=
            scrutinee.mono le₁ (sub.trans (le₁.available b))
          refine (runs_compare family there hv "case_match").bind ?_
          rintro w L₂ _ _ le₂ ⟨rfl, rfl, hw⟩
          refine (runs_addBlock (by decide) A).bind ?_
          rintro _ L₃ _ _ le₃ ⟨rfl, rfl, i, rfl, opensCase⟩
          refine (runs_addBlock (by decide) A).bind ?_
          rintro _ L₄ _ _ le₄ ⟨rfl, rfl, j, rfl, opensNext⟩
          have le₀₄ := ((le₁.trans le₂).trans le₃).trans le₄
          refine (runs_condBranch (hw.stays (le₃.trans le₄)) (le₄.opens opensCase) opensNext
            (sub.trans (le₀₄.available b))).bind ?_
          rintro _ L₅ _ _ le₅ ⟨rfl, rfl, -⟩
          have le₀₅ := le₀₄.trans le₅
          refine runs_arm first ((le₄.trans le₅).opens opensCase) (le₀₅.opens opensEnd)
            (sees.later le₀₅) inside fun _ L₆ b₆ le₆ => ?_
          have le₀₆ := le₀₅.trans le₆
          refine (runs_moveTo j).bind ?_
          rintro _ _ _ _ _ ⟨rfl, rfl, rfl⟩
          exact ih others tail (scrutinee.mono le₀₆ Set.Subset.rfl) (le₀₆.opens opensEnd)
            (sees.later le₀₆) ((le₅.trans le₆).opens opensNext).subset

theorem Uniform.same_self {ty : Ty} {l : Literal} (h : Semantics.Uniform ty l) :
    l.same l = true := by
  obtain ⟨rfl, integer⟩ := h
  cases l with
  | float x => cases integer
  | double x => cases integer
  | _ => simp [Literal.same]

/-- A jump table has constants of one integer type, each of them once. -/
theorem tableEntries_uniform {ty : Ty} {table : List (Literal × Nat)}
    {cases : List (Option Literal × Nat)} (uniform : ∀ x ∈ table, Semantics.Uniform ty x.1)
    (constants : ∀ x ∈ cases, ∀ l, x.1 = some l → Semantics.Uniform ty l)
    (distinct : (table.map Prod.fst).Nodup) :
    (∀ x ∈ tableEntries table cases, Semantics.Uniform ty x.1) ∧
      ((tableEntries table cases).map Prod.fst).Nodup := by
  induction cases generalizing table with
  | nil => exact ⟨uniform, distinct⟩
  | cons case rest ih =>
      obtain ⟨here, others⟩ := List.forall_mem_cons.mp constants
      obtain ⟨_ | l, block⟩ := case
      · exact ih uniform others distinct
      · rw [tableEntries]
        split
        · exact ih uniform others distinct
        · next new =>
            have uniform' : ∀ x ∈ table ++ [(l, block)], Semantics.Uniform ty x.1 := by
              simp only [List.forall_mem_append, List.forall_mem_singleton]
              exact ⟨uniform, here l rfl⟩
            refine ih uniform' others ?_
            have unseen : l ∉ table.map Prod.fst := by
              intro seen
              obtain ⟨x, hx, rfl⟩ := List.mem_map.mp seen
              exact new (List.any_eq_true.mpr ⟨x, hx, Uniform.same_self (uniform x hx)⟩)
            rw [List.map_append, List.nodup_append]
            refine ⟨distinct, by simp, ?_⟩
            rintro a ha _ hb rfl
            cases List.mem_singleton.mp hb
            exact unseen ha

theorem constants_uniform {result compared : Ty} {Γ : Scope Symbol} {test : Predicate}
    {cases : List Case} (ok : CasesOk result Γ compared test cases)
    (integer : compared.isInteger = true) :
    ∀ c ∈ cases, ∀ l, c.constant = some l → Semantics.Uniform compared l := by
  induction cases with
  | nil => simp
  | cons c rest ih =>
      cases ok with
      | cons ok fits target inside tail =>
          refine List.forall_mem_cons.mpr ⟨fun l hl => ?_, ih tail⟩
          exact ⟨target ▸ Semantics.type_of_constant? hl, integer⟩

/-- The jump leads to a block of its own for each constant. -/
theorem runs_jump {S : Setting} {L : Ledger} {b : Nat} {sc : Names} {cases : List Case} {compared : Ty}
    {test : Predicate} {Γ : Scope Symbol} (ok : CasesOk S.result Γ compared test cases)
    (integer : compared.isInteger = true) {x : Operand}
    (scrutinee : S.Holds L (L.available b) x compared) {A : Set Local} {is : List Nat} {e : Nat}
    (opens : ∀ i ∈ is, L.Opens i A) (opensEnd : L.Opens e A) (sub : A ⊆ L.available b) :
    Runs S (request .switchStmt (.switch x (BlockId.mk S.index e) (tableEntries []
      ((cases.map Case.constant).zip (is.map (BlockId.mk S.index))))) :
        Lower Draft Operand Slot Nat Unit) L b sc (Stays b sc fun _ _ => True) := by
  have table : tableEntries [] ((cases.map Case.constant).zip (is.map (BlockId.mk S.index))) =
      (tableEntries [] ((cases.map Case.constant).zip is)).map
        fun c => (c.1, BlockId.mk S.index c.2) := by
    rw [List.zip_map_right]
    exact tableEntries_map (BlockId.mk S.index) [] _
  have constants : ∀ x ∈ (cases.map Case.constant).zip is, ∀ l, x.1 = some l →
      Semantics.Uniform compared l := by
    intro x hx l hl
    obtain ⟨c, hc, constant⟩ := List.mem_map.mp (List.of_mem_zip hx).1
    exact constants_uniform ok integer c hc l (constant.trans hl)
  have none_yet : ∀ x ∈ ([] : List (Literal × Nat)), Semantics.Uniform compared x.1 := by simp
  obtain ⟨uniform, distinct⟩ := tableEntries_uniform none_yet constants List.nodup_nil
  rw [table]
  refine runs_switch integer scrutinee (fun c hc => (uniform c hc).1) distinct opensEnd ?_ sub
  intro c hc
  rcases mem_tableEntries hc with seen | listed
  · cases seen
  · obtain ⟨x, hx, same⟩ := List.mem_map.mp listed
    exact opens c.2 (same ▸ (List.of_mem_zip hx).2)

theorem switch_certified {scrutinee : Converted} {cases : List Case} {table : Bool}
    (certified : ∀ c ∈ cases, BlockCertified c.body) :
    StmtCertified (.switch scrutinee cases table) := by
  intro S L b sc Γ sees ok
  cases ok with
  | switch ok fits comparable selected branches tabled =>
      cases table with
      | true =>
          rw [lowerStmt]
          refine runs_enclosingFunction.bind ?_
          rintro _ L₀ _ _ le₀ ⟨rfl, rfl, rfl⟩
          refine (runs_lowerConverted (sees.stays le₀) ok fits).bind ?_
          rintro x L₁ _ _ le₁ ⟨rfl, rfl, hx⟩
          have sees₁ := sees.stays (le₀.trans le₁)
          refine (runs_addBlocks (by decide) (L₁.available b) cases.length).bind ?_
          rintro _ L₂ _ _ le₂ ⟨rfl, rfl, is, rfl, -, opens⟩
          refine (runs_addBlock (by decide) (L₁.available b)).bind ?_
          rintro _ L₃ _ _ le₃ ⟨rfl, rfl, e, rfl, opensEnd⟩
          have le₁₃ := le₂.trans le₃
          refine (runs_jump branches (tabled rfl).1 (hx.stays le₁₃)
            (fun i hi => le₃.opens (opens i hi)) opensEnd (le₁₃.available b)).bind ?_
          rintro _ L₄ _ _ le₄ ⟨rfl, rfl, -⟩
          refine (runs_lowerTable certified branches
            (fun i hi => (le₃.trans le₄).opens (opens i hi)) (le₄.opens opensEnd)
            (sees₁.later (le₁₃.trans le₄))).bind ?_
          rintro _ L₅ b₅ _ le₅ rfl
          exact runs_leave ((le₄.trans le₅).opens opensEnd)
            (sees₁.later ((le₁₃.trans le₄).trans le₅)) ((le₀.trans le₁).available b)
      | false =>
          rw [lowerStmt]
          refine runs_enclosingFunction.bind ?_
          rintro _ L₀ _ _ le₀ ⟨rfl, rfl, rfl⟩
          refine (runs_lowerConverted (sees.stays le₀) ok fits).bind ?_
          rintro x L₁ _ _ le₁ ⟨rfl, rfl, hx⟩
          have sees₁ := sees.stays (le₀.trans le₁)
          refine (runs_addBlock (by decide) (L₁.available b)).bind ?_
          rintro _ L₂ _ _ le₂ ⟨rfl, rfl, e, rfl, opensEnd⟩
          refine (runs_lowerChain certified branches (Predicate.worksAt_of_predicateAt selected)
            (hx.mono le₂ Set.Subset.rfl) opensEnd (sees₁.later le₂) (le₂.available b)).bind ?_
          rintro _ L₃ b₃ _ le₃ ⟨rfl, sub⟩
          refine (runs_branch (le₃.opens opensEnd) sub).bind ?_
          rintro _ L₄ _ _ le₄ ⟨rfl, rfl, -⟩
          exact runs_leave ((le₃.trans le₄).opens opensEnd)
            (sees₁.later ((le₂.trans le₃).trans le₄)) ((le₀.trans le₁).available b)

theorem stmtCertified (st : Stmt) : StmtCertified st := by
  induction st using Stmt.treeInduction with
  | block body ih => exact block_certified (blockCertified_of_forall ih)
  | declare v => exact declare_certified v
  | eval e => exact eval_certified e
  | ifThen condition body ih => exact ifThen_certified (blockCertified_of_forall ih)
  | ifElse condition body other ih ih' =>
      exact ifElse_certified (blockCertified_of_forall ih) (blockCertified_of_forall ih')
  | forLoop v condition step body ih => exact forLoop_certified (blockCertified_of_forall ih)
  | whileLoop condition body ih => exact whileLoop_certified (blockCertified_of_forall ih)
  | switch scrutinee cases table ih =>
      exact switch_certified fun c hc => blockCertified_of_forall (ih c hc)
  | ret value => exact ret_certified value

theorem blockCertified (body : List Stmt) : BlockCertified body :=
  blockCertified_of_forall fun st _ => stmtCertified st

end ImpLower.Lower
