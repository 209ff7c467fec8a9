import ImpLower.Lower.Stmt
import ImpLower.Proofs.Induction
import ImpLower.Proofs.Scope.Frames

/-!
# Straight-line lowering

Expressions are lowered by looking names up and asking for values and single instructions. They add no
block, close none and bind no name, into whatever emitter they are lowered, and into two emitters with
the same handles they are lowered by the same requests.
-/

namespace ImpLower

variable {σ τ V S B F M : Type}

/-- Whether a request is for a value, a slot or one instruction, and leaves blocks as they are. -/
def Request.isStraight : Request V S B F → Bool
  | .alloca .. => true
  | .load .. => true
  | .store .. => true
  | .constant _ => true
  | .binary .. => true
  | .compare .. => true
  | .convert .. => true
  | .call .. => true
  | .addFunction .. => false
  | .global .. => false
  | .branch _ => false
  | .condBranch .. => false
  | .switch .. => false
  | .ret _ => false
  | .unreachable => false
  | .finish => false

/-- The same state of lowering, around another emitter. -/
def Lowering.into (s : Lowering σ V S F) (emitter : τ) : Lowering τ V S F where
  emitter := emitter
  scope := s.scope
  function := s.function

namespace Lower

/-- Two lowerings, into emitters of two kinds, that only look at the state and make the same straight
requests. What they look at does not depend on the emitter. -/
inductive Straight [Emitter σ V S B F M] [Emitter τ V S B F M] :
    {α : Type} → Lower σ V S F α → Lower τ V S F α → Prop
  | looks {α : Type} {m : Lower σ V S F α} {m' : Lower τ V S F α} (keeps : Keeps m)
      (same : ∀ s (e : τ), m'.exec (s.into e) = ((m.exec s).1, s.into e)) : Straight m m'
  | asks (site : Construct) (r : Request V S B F) (straight : r.isStraight = true) :
      Straight (request site r) (request site r)
  | bind {α β : Type} {m : Lower σ V S F α} {m' : Lower τ V S F α} {f : α → Lower σ V S F β}
      {f' : α → Lower τ V S F β} (head : Straight m m') (tail : ∀ a, Straight (f a) (f' a)) :
      Straight (m >>= f) (m' >>= f')

variable [Emitter σ V S B F M] [Emitter τ V S B F M] {α : Type}

/-- A lowering that can be done into any emitter is straight, whatever two emitters it is done into. -/
abbrev AlikeStraight (σ τ : Type) [Emitter σ V S B F M] [Emitter τ V S B F M]
    (m : {ρ : Type} → [Emitter ρ V S B F M] → Lower ρ V S F α) : Prop :=
  Straight (m : Lower σ V S F α) (m : Lower τ V S F α)

namespace Straight

theorem pure (a : α) : AlikeStraight σ τ (Pure.pure a) :=
  .looks (.pure a) fun _ _ => rfl

theorem throw (e : Diagnostic) :
    Straight (MonadExcept.throw e : Lower σ V S F α) (MonadExcept.throw e : Lower τ V S F α) :=
  .looks (.throw e) fun _ _ => rfl

theorem ite {p : Prop} [Decidable p] {m n : Lower σ V S F α} {m' n' : Lower τ V S F α}
    (hm : Straight m m') (hn : Straight n n') :
    Straight (if p then m else n) (if p then m' else n') := by
  split
  · exact hm
  · exact hn

end Straight

theorem straight_lookupVar (name : String) (site : Construct) :
    AlikeStraight σ τ (lookupVar name site) := by
  apply Straight.looks
  · intro s
    simp only [lookupVar, Stateful.exec_ofFn]
    split <;> rfl
  · intro s e
    simp only [lookupVar, Stateful.exec_ofFn, Lowering.into]
    split <;> rfl

theorem straight_lookupFn (name : String) (site : Construct) :
    AlikeStraight σ τ (lookupFn name site) := by
  apply Straight.looks
  · intro s
    simp only [lookupFn, Stateful.exec_ofFn]
    split <;> rfl
  · intro s e
    simp only [lookupFn, Stateful.exec_ofFn, Lowering.into]
    split <;> rfl

theorem straight_enclosingFunction (site : Construct) :
    AlikeStraight σ τ (enclosingFunction site) := by
  apply Straight.looks
  · intro s
    simp only [enclosingFunction, Stateful.exec_ofFn]
    split <;> rfl
  · intro s e
    simp only [enclosingFunction, Stateful.exec_ofFn, Lowering.into]
    split <;> rfl

theorem straight_required (site : Construct) (value : Option V) :
    AlikeStraight σ τ (required site value) := by
  cases value with
  | none => exact .throw _
  | some value => exact .pure value

/-! ## Offsets -/

theorem straight_scaleBy (site : Construct) (offset : V) (sizes : List V) :
    AlikeStraight σ τ (scaleBy site offset sizes) := by
  induction sizes generalizing offset with
  | nil => exact .pure _
  | cons size sizes ih => exact .bind (.asks _ _ rfl) fun scaled => ih scaled

theorem straight_addIndex (site : Construct) (size index : V) (offset : Option V) :
    AlikeStraight σ τ (addIndex site size index offset) := by
  cases offset with
  | none => exact .pure _
  | some offset => exact .bind (.asks _ _ rfl) fun _ => .asks _ _ rfl

/-! ## Expressions -/

theorem straight_lowerConverted_of {site : Construct} {c : Typed.Converted}
    (h : AlikeStraight σ τ (lowerExpr c.value)) :
    AlikeStraight σ τ (lowerConverted site c) := by
  obtain ⟨value, conversion, target⟩ := c
  unfold lowerConverted
  exact .bind h fun v => .bind (straight_required _ v) fun _ => .ite (.pure _) (.asks _ _ rfl)

theorem straight_lowerArguments_of {site : Construct} {cs : List Typed.Converted}
    (h : ∀ c ∈ cs, AlikeStraight σ τ (lowerExpr c.value)) :
    AlikeStraight σ τ (lowerArguments site cs) := by
  induction cs with
  | nil =>
      unfold lowerArguments
      exact .pure _
  | cons c rest ih =>
      unfold lowerArguments
      have tail := ih fun c hc => h c (List.mem_cons_of_mem _ hc)
      exact .bind (straight_lowerConverted_of (h c List.mem_cons_self)) fun _ =>
        .bind tail fun _ => .pure _

theorem straight_lowerOffset_of {site : Construct} {cs : List Typed.Converted}
    (h : ∀ c ∈ cs, AlikeStraight σ τ (lowerExpr c.value)) (sizes : List V)
    (offset : Option V) :
    AlikeStraight σ τ (lowerOffset site cs sizes offset) := by
  induction cs generalizing sizes offset with
  | nil =>
      cases offset with
      | none =>
          unfold lowerOffset
          exact .pure _
      | some offset =>
          unfold lowerOffset
          exact .bind (straight_scaleBy _ _ _) fun _ => .pure _
  | cons c rest ih =>
      cases sizes with
      | nil =>
          unfold lowerOffset
          exact .pure _
      | cons size sizes =>
          unfold lowerOffset
          exact .bind (straight_lowerConverted_of (h c List.mem_cons_self)) fun _ =>
            .bind (straight_addIndex _ _ _ _) fun _ =>
              ih (fun c hc => h c (List.mem_cons_of_mem _ hc)) _ _

theorem straight_lowerExpr (e : Typed.Expr) :
    AlikeStraight σ τ (lowerExpr e) := by
  induction e using Typed.Expr.treeInduction with
  | literal value =>
      unfold lowerExpr
      exact .bind (.asks _ _ rfl) fun _ => .pure _
  | var name ty indices ih =>
      unfold lowerExpr
      exact .bind (straight_lookupVar _ _) fun _ => .bind (straight_lowerOffset_of ih _ _) fun _ =>
        .bind (.asks _ _ rfl) fun _ => .pure _
  | assign name ty indices value ihs ih =>
      unfold lowerExpr
      exact .bind (straight_lowerConverted_of ih) fun _ => .bind (straight_lookupVar _ _) fun _ =>
        .bind (straight_lowerOffset_of ihs _ _) fun _ => .bind (.asks _ _ rfl) fun _ => .pure _
  | negate op zero operand ih =>
      unfold lowerExpr
      exact .bind (.asks _ _ rfl) fun _ => .bind ih fun _ => .bind (straight_required _ _) fun _ =>
        .bind (.asks _ _ rfl) fun _ => .pure _
  | arith op left right ihl ihr =>
      unfold lowerExpr
      exact .bind (straight_lowerConverted_of ihl) fun _ =>
        .bind (straight_lowerConverted_of ihr) fun _ => .bind (.asks _ _ rfl) fun _ => .pure _
  | compare test left right ihl ihr =>
      unfold lowerExpr
      exact .bind (straight_lowerConverted_of ihl) fun _ =>
        .bind (straight_lowerConverted_of ihr) fun _ => .bind (.asks _ _ rfl) fun _ => .pure _
  | call callee result arguments ih =>
      unfold lowerExpr
      exact .bind (straight_lookupFn _ _) fun _ => .bind (straight_lowerArguments_of ih) fun _ =>
        .asks _ _ rfl

theorem straight_lowerConverted (site : Construct) (c : Typed.Converted) :
    AlikeStraight σ τ (lowerConverted site c) :=
  straight_lowerConverted_of (straight_lowerExpr c.value)

theorem straight_lowerArguments (site : Construct) (cs : List Typed.Converted) :
    AlikeStraight σ τ (lowerArguments site cs) :=
  straight_lowerArguments_of fun c _ => straight_lowerExpr c.value

theorem straight_lowerValue (site : Construct) (e : Typed.Expr) :
    AlikeStraight σ τ (lowerValue site e) :=
  .bind (straight_lowerExpr e) fun _ => straight_required _ _

theorem straight_product (sizes : List V) :
    AlikeStraight σ τ (product sizes) := by
  cases sizes with
  | nil => exact .pure _
  | cons size sizes =>
      have go : ∀ length, AlikeStraight σ τ (product.go length sizes) := by
        induction sizes with
        | nil => exact fun length => .pure _
        | cons size sizes ih => exact fun length => .bind (.asks _ _ rfl) fun length => ih length
      exact .bind (go size) fun _ => .pure _

end Lower

end ImpLower
