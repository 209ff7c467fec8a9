import ImpLower.Lower.Decl
import ImpLower.Proofs.Lower.Straight
import ImpLower.Proofs.Scope.Exits

/-!
# How lowering is put together

Lowering is written once for all emitters and reaches an emitter only by asking it. So what it does
to two emitters with the same handles is put together alike, step by step, from the same requests and
the same questions. The description also says what a piece of lowering may do to the scope, and whether
the block at the insertion point is closed before and after it. Each function of lowering is described
once; what every kind of step respects then holds of whole programs.
-/

namespace ImpLower

/-- The name that a statement binds in the frame around it. -/
def Typed.Stmt.declares : Typed.Stmt → Option String
  | .declare decl => some decl.name
  | _ => none

/-- The name that a declaration binds. -/
def Typed.Decl.name : Typed.Decl → String
  | .global decl => decl.name
  | .function decl => decl.name

variable {σ τ V S B F M α β : Type}

/-- Whether a request closes the block at the insertion point. -/
def Request.closes : Request V S B F → Bool
  | .branch _ => true
  | .condBranch .. => true
  | .switch .. => true
  | .ret _ => true
  | .unreachable => true
  | .addFunction .. => false
  | .alloca .. => false
  | .global .. => false
  | .load .. => false
  | .store .. => false
  | .constant _ => false
  | .binary .. => false
  | .compare .. => false
  | .convert .. => false
  | .call .. => false
  | .finish => false

namespace Lower

open Scope (Allowance Gains)

/-- Two lowerings that are put together alike, into emitters of two kinds, and change the scope no more
than allowed. The two flags tell whether the block at the insertion point is known to be closed, before
and after; where it is known, only one answer to the question is followed. -/
inductive Parallel [Emitter σ V S B F M] [Emitter τ V S B F M] :
    Allowance (Storage V S F) → {α : Type} → Lower σ V S F α → Lower τ V S F α → Bool → Bool → Prop
  | aside {A : Allowance (Storage V S F)} {α : Type} {m : Lower σ V S F α} {m' : Lower τ V S F α}
      {p : Bool} (keeps : ∀ s, (m.exec s).2.emitter = s.emitter)
      (permitted : ∀ s, A.Permits s.scope (m.exec s).2.scope)
      (function : ∀ s, (m.exec s).2.function = s.function)
      (same : ∀ s (e : τ), m'.exec (s.into e) = ((m.exec s).1, (m.exec s).2.into e)) :
      Parallel A m m' p p
  | straight {A : Allowance (Storage V S F)} {α : Type} {m : Lower σ V S F α} {m' : Lower τ V S F α}
      {p : Bool} (h : Straight m m') : Parallel A m m' p false
  | request {A : Allowance (Storage V S F)} {p : Bool} (site : Construct) (r : Request V S B F) :
      Parallel A (request site r) (request site r) p r.closes
  | addBlock {A : Allowance (Storage V S F)} {p : Bool} (f : F) (label : String) :
      Parallel A (addBlock f label) (addBlock f label) p false
  | moveTo {A : Allowance (Storage V S F)} {p : Bool} (block : B) :
      Parallel A (moveTo block) (moveTo block) p false
  | parameters {A : Allowance (Storage V S F)} {p : Bool} (f : F) :
      Parallel A (parameters f) (parameters f) p false
  | asks {A : Allowance (Storage V S F)} {α : Type} {f : Bool → Lower σ V S F α}
      {f' : Bool → Lower τ V S F α} {p : Bool} {q : Bool → Bool}
      (rest : ∀ closed, Parallel A (f closed) (f' closed) (closed || p) (q closed)) :
      Parallel A (isClosed >>= f) (isClosed >>= f') p (q true && (p || q false))
  | bind {A : Allowance (Storage V S F)} {α β : Type} {m : Lower σ V S F α} {m' : Lower τ V S F α}
      {f : α → Lower σ V S F β} {f' : α → Lower τ V S F β} {p q r : Bool}
      (head : Parallel A m m' p q) (tail : ∀ a, Parallel A (f a) (f' a) q r) :
      Parallel A (m >>= f) (m' >>= f') p r
  | withFrame {A : Allowance (Storage V S F)} {α : Type} {m : Lower σ V S F α}
      {m' : Lower τ V S F α} {p q : Bool} (body : Parallel .growing m m' p q) :
      Parallel A (withFrame m) (withFrame m') p q
  | inFunction {A : Allowance (Storage V S F)} {α : Type} (f : F) {m : Lower σ V S F α}
      {m' : Lower τ V S F α} {p q : Bool} (body : Parallel A m m' p q) :
      Parallel A (inFunction f m) (inFunction f m') p q
  | weaken {A : Allowance (Storage V S F)} {α : Type} {m : Lower σ V S F α} {m' : Lower τ V S F α}
      {p p' q q' : Bool} (h : Parallel A m m' p q) (before : p = true → p' = true)
      (after : q' = true → q = true) : Parallel A m m' p' q'

/-- A lowering that can be done into any emitter reaches emitters of two kinds alike. -/
abbrev Alike (σ τ : Type) [Emitter σ V S B F M] [Emitter τ V S B F M]
    (A : Allowance (Storage V S F)) (m : {ρ : Type} → [Emitter ρ V S B F M] → Lower ρ V S F α)
    (p q : Bool) : Prop :=
  Parallel A (m : Lower σ V S F α) (m : Lower τ V S F α) p q

variable [Emitter σ V S B F M] [Emitter τ V S B F M] {A : Allowance (Storage V S F)} {p q : Bool}

namespace Parallel

theorem unknown {m : Lower σ V S F α} {m' : Lower τ V S F α} (h : Parallel A m m' p q) :
    Parallel A m m' p false :=
  h.weaken id fun known => by cases known

/-- Nothing need be known before. -/
theorem anyway {m : Lower σ V S F α} {m' : Lower τ V S F α} (h : Parallel A m m' false q) :
    Parallel A m m' p q :=
  h.weaken (fun known => by cases known) id

theorem pure (a : α) : Alike σ τ A (Pure.pure a) p p :=
  .aside (fun _ => rfl) (fun s => A.refl s.scope) (fun _ => rfl) fun _ _ => rfl

theorem ite {c : Prop} [Decidable c] {m n : Lower σ V S F α} {m' n' : Lower τ V S F α}
    (hm : Parallel A m m' p q) (hn : Parallel A n n' p q) :
    Parallel A (if c then m else n) (if c then m' else n') p q := by
  split
  · exact hm
  · exact hn

end Parallel

/-! ## Single steps -/

theorem alike_declare (name : String) (storage : Storage V S F) (site : Construct)
    (le : .naming (some name) ≤ A) : Alike σ τ A (declare name storage site) p p := by
  refine .aside (fun s => ?_) (fun s => ?_) (fun s => ?_) fun s e => ?_
  all_goals simp only [declare, Stateful.exec_ofFn, Lowering.into]
  all_goals cases declared : s.scope.declare name storage
  case refine_2.error => exact A.refl s.scope
  case refine_2.ok => exact le _ _ (Scope.gains_of_declare declared)
  all_goals rfl

theorem alike_declareGlobal (name : String) (storage : Storage V S F) (site : Construct)
    (le : .namingAtTop name ≤ A) : Alike σ τ A (declareGlobal name storage site) p p := by
  refine .aside (fun s => ?_) (fun s => ?_) (fun s => ?_) fun s e => ?_
  all_goals simp only [declareGlobal, Stateful.exec_ofFn, Lowering.into]
  all_goals cases declared : s.scope.declareGlobal name storage
  case refine_2.error => exact A.refl s.scope
  case refine_2.ok =>
    refine le _ _ fun top => ?_
    rw [Scope.declareGlobal_eq_declare top] at declared
    exact Scope.gains_of_declare declared
  all_goals rfl

theorem alike_addBlocks (f : F) (label : String) (n : Nat) :
    Alike σ τ A (addBlocks f label n) p false := by
  induction n generalizing p with
  | zero => exact .unknown (.pure _)
  | succ n ih => exact .bind (.addBlock f label) fun _ => .bind ih fun _ => .pure _

theorem fallInto_bind (target : B) (site : Construct) (k : Bool → Lower σ V S F β) :
    fallInto target site >>= k = isClosed >>= fun closed =>
      if closed then k false else request site (.branch target) >>= fun _ => k true := by
  rw [fallInto, bind_assoc]
  congr 1
  funext closed
  cases closed with
  | true => exact pure_bind _ _
  | false => exact bind_assoc _ _ _

/-- Control goes on from a block just if it is not closed. -/
theorem Parallel.fallInto {target : B} {site : Construct} {k : Bool → Lower σ V S F β}
    {k' : Bool → Lower τ V S F β} {q : Bool → Bool}
    (rest : ∀ reached, Parallel A (k reached) (k' reached) true (q reached)) :
    Parallel A (Lower.fallInto target site >>= k) (Lower.fallInto target site >>= k') p
      (q false && (p || q true)) := by
  rw [fallInto_bind, fallInto_bind]
  refine .asks (q := fun closed => q !closed) fun closed => ?_
  cases closed with
  | true => exact rest false
  | false => exact .bind (.request _ _) fun _ => rest true

theorem alike_fallInto (target : B) (site : Construct) :
    Alike σ τ A (fallInto target site) p false := by
  refine .unknown (.asks (q := fun _ => false) fun closed => ?_)
  exact .ite (.unknown (.pure _)) (.bind (.request _ _) fun _ => .unknown (.pure _))

/-! ## Statements -/

theorem alike_lowerVarDecl (decl : Typed.VarDecl) (le : .naming (some decl.name) ≤ A) :
    Alike σ τ A (lowerVarDecl decl) p false := by
  unfold lowerVarDecl
  refine .bind (.straight (straight_lowerArguments _ _)) fun sizes =>
    .bind (.straight (straight_product _)) fun length => .bind (.request _ _) fun slot =>
      .bind (alike_declare _ _ _ le) fun _ => ?_
  split
  · exact .pure _
  · exact .bind (.straight (straight_lowerConverted _ _)) fun _ => .request _ _

/-- What is said of a statement when it is described: it binds at most the name that it declares, and
leaves a closed block if it always returns. -/
def StmtAlike (σ τ : Type) [Emitter σ V S B F M] [Emitter τ V S B F M] (st : Typed.Stmt) : Prop :=
  ∀ {A : Allowance (Storage V S F)}, .naming st.declares ≤ A →
    Alike σ τ A (lowerStmt st) false st.mustReturn

section

variable {body : List Typed.Stmt} {cases : List Typed.Case}

theorem alike_lowerBlock_of (h : ∀ st ∈ body, StmtAlike σ τ st) :
    Alike σ τ .growing (lowerBlock body) p (p || Typed.mustReturn body) := by
  induction body generalizing p with
  | nil =>
      unfold lowerBlock
      exact .weaken (.pure _) id (by simp [Typed.mustReturn])
  | cons st rest ih =>
      obtain ⟨first, others⟩ := List.forall_mem_cons.mp h
      unfold lowerBlock
      refine .weaken (.asks (q := fun closed => closed || Typed.mustReturn (st :: rest)) ?_) id (by simp)
      intro closed
      cases closed with
      | true => exact .pure _
      | false => exact .bind (first (Allowance.naming_le_growing _)).anyway fun _ => ih others

theorem alike_arm (h : ∀ st ∈ body, StmtAlike σ τ st) :
    Alike σ τ A (withFrame (lowerBlock body)) false (Typed.mustReturn body) :=
  .withFrame (alike_lowerBlock_of h)

theorem alike_lowerTable_of (endBlock : B) (blocks : List B)
    (h : ∀ c ∈ cases, ∀ st ∈ c.body, StmtAlike σ τ st) :
    Alike σ τ A (lowerTable endBlock cases blocks) p false := by
  induction cases generalizing blocks p with
  | nil =>
      unfold lowerTable
      exact .unknown (.pure _)
  | cons c rest ih =>
      obtain ⟨value, test, constant, body⟩ := c
      obtain ⟨first, others⟩ := List.forall_mem_cons.mp h
      cases blocks with
      | nil =>
          unfold lowerTable
          exact .unknown (.pure _)
      | cons block blocks =>
          unfold lowerTable
          exact .bind (.moveTo _) fun _ => .bind (alike_arm first) fun _ =>
            .bind (alike_fallInto _ _) fun _ => ih blocks others

theorem alike_lowerChain_of (f : F) (scrutinee : V) (endBlock : B)
    (h : ∀ c ∈ cases, ∀ st ∈ c.body, StmtAlike σ τ st) :
    Alike σ τ A (lowerChain f scrutinee endBlock cases) p false := by
  induction cases generalizing p with
  | nil =>
      unfold lowerChain
      exact .unknown (.pure _)
  | cons c rest ih =>
      obtain ⟨value, test, constant, body⟩ := c
      obtain ⟨first, others⟩ := List.forall_mem_cons.mp h
      unfold lowerChain
      exact .bind (.straight (straight_lowerConverted _ _)) fun _ => .bind (.request _ _) fun _ =>
        .bind (.addBlock _ _) fun _ => .bind (.addBlock _ _) fun _ =>
        .bind (.request _ _) fun _ => .bind (.moveTo _) fun _ => .bind (alike_arm first) fun _ =>
        .bind (alike_fallInto _ _) fun _ => .bind (.moveTo _) fun _ => ih others

theorem alike_ifThen (condition : Typed.Expr) (h : ∀ st ∈ body, StmtAlike σ τ st) :
    Alike σ τ A (lowerStmt (.ifThen condition body)) p false := by
  unfold lowerStmt
  exact .bind (.straight (straight_enclosingFunction _)) fun _ =>
    .bind (.straight (straight_lowerValue _ _)) fun _ =>
    .bind (.addBlock _ _) fun _ => .bind (.addBlock _ _) fun _ =>
    .bind (.request _ _) fun _ => .bind (.moveTo _) fun _ => .bind (alike_arm h) fun _ =>
    .bind (alike_fallInto _ _) fun _ => .moveTo _

theorem alike_ifElse (condition : Typed.Expr) {other : List Typed.Stmt}
    (h : ∀ st ∈ body, StmtAlike σ τ st) (h' : ∀ st ∈ other, StmtAlike σ τ st) :
    Alike σ τ A (lowerStmt (.ifElse condition body other)) p
      (Typed.mustReturn body && Typed.mustReturn other) := by
  -- the end is closed where it is reached from neither arm
  have last : ∀ reached : Bool, Alike σ τ A
      (if reached then Pure.pure () else request .ifStmt .unreachable) false !reached := by
    intro reached
    cases reached with
    | true => exact .pure _
    | false => exact .request _ _
  unfold lowerStmt
  refine .weaken (.bind (.straight (straight_enclosingFunction _)) fun _ =>
    .bind (.straight (straight_lowerValue _ _)) fun _ =>
    .bind (.addBlock _ _) fun _ => .bind (.addBlock _ _) fun _ => .bind (.addBlock _ _) fun _ =>
    .bind (.request _ _) fun _ => .bind (.moveTo _) fun _ => .bind (alike_arm h) fun _ =>
    .fallInto fun reached => .bind (.moveTo _) fun _ => .bind (alike_arm h') fun _ =>
    .fallInto fun reachedToo => .bind (.moveTo _) fun _ => last (reached || reachedToo)) id ?_
  intro both
  rw [Bool.and_eq_true] at both
  simp [both]

theorem alike_forLoop (decl : Typed.VarDecl) (condition step : Typed.Expr)
    (h : ∀ st ∈ body, StmtAlike σ τ st) :
    Alike σ τ A (lowerStmt (.forLoop decl condition step body)) p false := by
  unfold lowerStmt
  refine .withFrame ?_
  exact .bind (.straight (straight_enclosingFunction _)) fun _ =>
    .bind (alike_lowerVarDecl decl (Allowance.naming_le_growing _)) fun _ =>
    .bind (.addBlock _ _) fun _ => .bind (.addBlock _ _) fun _ =>
    .bind (.addBlock _ _) fun _ => .bind (.addBlock _ _) fun _ =>
    .bind (.request _ _) fun _ => .bind (.moveTo _) fun _ =>
    .bind (.straight (straight_lowerValue _ _)) fun _ => .bind (.request _ _) fun _ =>
    .bind (.moveTo _) fun _ => .bind (alike_arm h) fun _ =>
    .bind (alike_fallInto _ _) fun _ => .bind (.moveTo _) fun _ =>
    .bind (.straight (straight_lowerExpr _)) fun _ => .bind (.request _ _) fun _ => .moveTo _

theorem alike_whileLoop (condition : Typed.Expr) (h : ∀ st ∈ body, StmtAlike σ τ st) :
    Alike σ τ A (lowerStmt (.whileLoop condition body)) p false := by
  unfold lowerStmt
  exact .bind (.straight (straight_enclosingFunction _)) fun _ => .bind (.addBlock _ _) fun _ =>
    .bind (.addBlock _ _) fun _ => .bind (.addBlock _ _) fun _ =>
    .bind (.request _ _) fun _ => .bind (.moveTo _) fun _ =>
    .bind (.straight (straight_lowerValue _ _)) fun _ => .bind (.request _ _) fun _ =>
    .bind (.moveTo _) fun _ => .bind (alike_arm h) fun _ =>
    .bind (alike_fallInto _ _) fun _ => .moveTo _

theorem alike_switch (scrutinee : Typed.Converted) (table : Bool)
    (h : ∀ c ∈ cases, ∀ st ∈ c.body, StmtAlike σ τ st) :
    Alike σ τ A (lowerStmt (.switch scrutinee cases table)) p false := by
  cases table with
  | true =>
      unfold lowerStmt
      exact .bind (.straight (straight_enclosingFunction _)) fun _ =>
        .bind (.straight (straight_lowerConverted _ _)) fun _ =>
        .bind (alike_addBlocks _ _ _) fun _ => .bind (.addBlock _ _) fun _ =>
        .bind (.request _ _) fun _ => .bind (alike_lowerTable_of _ _ h) fun _ => .moveTo _
  | false =>
      unfold lowerStmt
      exact .bind (.straight (straight_enclosingFunction _)) fun _ =>
        .bind (.straight (straight_lowerConverted _ _)) fun _ => .bind (.addBlock _ _) fun _ =>
        .bind (alike_lowerChain_of _ _ _ h) fun _ => .bind (.request _ _) fun _ => .moveTo _

theorem alike_ret (value : Option Typed.Converted) :
    Alike σ τ A (lowerStmt (.ret value)) p true := by
  cases value with
  | none =>
      unfold lowerStmt
      exact .request _ _
  | some value =>
      unfold lowerStmt
      exact .bind (.straight (straight_lowerConverted _ _)) fun _ => .request _ _

end

theorem stmtAlike (st : Typed.Stmt) : StmtAlike σ τ st := by
  induction st using Typed.Stmt.treeInduction with
  | block body ih =>
      intro A _
      unfold lowerStmt
      exact alike_arm ih
  | declare decl =>
      intro A le
      unfold lowerStmt
      exact alike_lowerVarDecl decl le
  | eval e =>
      intro A _
      unfold lowerStmt
      exact .bind (.straight (straight_lowerExpr e)) fun _ => .pure _
  | ifThen condition body ih => exact fun _ => alike_ifThen condition ih
  | ifElse condition body other ih ih' => exact fun _ => alike_ifElse condition ih ih'
  | forLoop decl condition step body ih => exact fun _ => alike_forLoop decl condition step ih
  | whileLoop condition body ih => exact fun _ => alike_whileLoop condition ih
  | switch scrutinee cases table ih => exact fun _ => alike_switch scrutinee table ih
  | ret value => exact fun _ => alike_ret value

theorem alike_lowerBlock (body : List Typed.Stmt) :
    Alike σ τ .growing (lowerBlock body) p (p || Typed.mustReturn body) :=
  alike_lowerBlock_of fun st _ => stmtAlike st

/-! ## Declarations -/

theorem alike_lowerSizes (sizes : List Nat) : Alike σ τ A (lowerSizes sizes) p false := by
  induction sizes generalizing p with
  | nil => exact .unknown (.pure _)
  | cons size rest ih => exact .bind (.request _ _) fun _ => .bind ih fun _ => .pure _

theorem alike_lowerParameters (decls : List Typed.VarDecl) (values : List V) :
    Alike σ τ .growing (lowerParameters decls values) p false := by
  induction decls generalizing values p with
  | nil =>
      unfold lowerParameters
      exact .unknown (.pure _)
  | cons decl decls ih =>
      cases values with
      | nil =>
          unfold lowerParameters
          exact .unknown (.pure _)
      | cons value values =>
          unfold lowerParameters
          exact .bind (.request _ _) fun _ => .bind (.request _ _) fun _ =>
            .bind (alike_declare _ _ _ (Allowance.naming_le_growing _)) fun _ => ih values

theorem alike_closeFunction (result : Ty) : Alike σ τ A (closeFunction result) p true := by
  refine .weaken (.asks (q := fun _ => true) fun closed => ?_) id (by simp)
  cases closed with
  | true => exact .pure _
  | false => exact .ite (c := result = .void) (.request _ _) (.request _ _)

/-- What is lowered in the frame of a function. -/
theorem alike_functionBody (decls : List Typed.VarDecl) (body : List Typed.Stmt) (result : Ty)
    (f : F) :
    Alike σ τ .growing (do
      lowerParameters decls (← parameters f)
      lowerBlock body
      closeFunction result) p true :=
  .bind (.parameters f) fun _ => .bind (alike_lowerParameters _ _) fun _ =>
    .bind (alike_lowerBlock _) fun _ => alike_closeFunction _

theorem alike_lowerDecl (d : Typed.Decl) (le : .namingAtTop d.name ≤ A) :
    Alike σ τ A (lowerDecl d) p false := by
  cases d with
  | global decl =>
      have named : .naming (some decl.name) ≤ A := fun s t h =>
        le s t (Allowance.naming_le_namingAtTop decl.name s t h)
      exact .bind (.request _ _) fun _ => .bind (alike_lowerSizes _) fun _ =>
        alike_declare _ _ _ named
  | function decl =>
      exact .bind (.request _ _) fun f => .bind (alike_declareGlobal _ _ _ le) fun _ =>
        .bind (.addBlock _ _) fun _ => .bind (.moveTo _) fun _ =>
        .unknown (.inFunction f (.withFrame (alike_functionBody _ _ _ f)))

theorem alike_lowerDecls (ds : List Typed.Decl) : Alike σ τ .all (lowerDecls ds) p false := by
  induction ds generalizing p with
  | nil => exact .unknown (.pure _)
  | cons d rest ih => exact .bind (alike_lowerDecl d fun _ _ _ => trivial) fun _ => ih

theorem alike_lowerProgram (ds : List Typed.Decl) :
    Parallel .all (lowerProgram ds : Lower σ V S F M) (lowerProgram ds : Lower τ V S F M) p false :=
  .bind (alike_lowerDecls ds) fun _ => .request _ _

end Lower

end ImpLower
