import ImpLower.Proofs.Lower.Parallel

/-!
# What lowering can touch

Lowering into an arbitrary emitter, one that may refuse any request, reaches the scope only through
declarations in the innermost frame, and sets the function being lowered only to put it back. So each
piece of lowering, whether it succeeded or not, leaves both as they were, up to the names it declares
in the innermost frame.
-/

namespace ImpLower.Lower

open Scope (Allowance)

variable {σ τ V S B F M α : Type}

/-- The scope has changed no more than allowed, and the function being lowered is the same. -/
structure Within (A : Allowance (Storage V S F)) (s t : Lowering σ V S F) : Prop where
  scope : A.Permits s.scope t.scope
  function : t.function = s.function

namespace Within

variable {A : Allowance (Storage V S F)} {s t u : Lowering σ V S F}

theorem of_same (scope : t.scope = s.scope) (function : t.function = s.function) : Within A s t :=
  ⟨scope ▸ A.refl s.scope, function⟩

theorem trans (h : Within A s t) (h' : Within A t u) : Within A s u :=
  ⟨A.trans h.scope h'.scope, h'.function.trans h.function⟩

end Within

variable [Emitter σ V S B F M] [Emitter τ V S B F M] {A : Allowance (Storage V S F)} {p q : Bool}
  {m : Lower σ V S F α} {m' : Lower τ V S F α}

theorem within_request (site : Construct) (r : Request V S B F) :
    Moves (Within A) (request site r : Lower σ V S F (r.Reply M)) := by
  intro s
  simp only [request, Stateful.exec_ofFn]
  split <;> exact .of_same rfl rfl

theorem within_isClosed : Moves (Within A) (isClosed : Lower σ V S F Bool) :=
  fun _ => .of_same rfl rfl

theorem Straight.within (h : Straight m m') : Moves (Within A) m := by
  induction h with
  | looks keeps _ => exact Moves.of_keeps (fun _ => .of_same rfl rfl) keeps
  | asks site r _ => exact within_request site r
  | bind _ _ head tail => exact Moves.bind Within.trans head tail

/-- What a frame of its own gained is gone when the frame is closed. -/
theorem within_withFrame (h : Moves (Within .growing) m) : Moves (Within A) (withFrame m) := by
  intro s
  obtain ⟨⟨new, grown⟩, function⟩ := h { s with scope := s.scope.enter }
  refine .of_same ?_ function
  show Scope.unwind (m.exec { s with scope := s.scope.enter }).2.scope s.scope.depth = s.scope
  rw [grown, Scope.unwind_gain_enter]

/-- On every path out, lowering has changed the scope no more than its description allows. -/
theorem Parallel.within (h : Parallel A m m' p q) : Moves (Within A) m := by
  induction h with
  | aside _ permitted function _ => exact fun s => ⟨permitted s, function s⟩
  | straight h => exact h.within
  | request site r => exact within_request site r
  | addBlock f label => exact fun _ => .of_same rfl rfl
  | moveTo block => exact fun _ => .of_same rfl rfl
  | parameters f => exact fun _ => .of_same rfl rfl
  | asks _ rest => exact Moves.bind Within.trans within_isClosed rest
  | bind _ _ head tail => exact Moves.bind Within.trans head tail
  | withFrame _ ih => exact within_withFrame ih
  | inFunction f _ ih => exact fun s => ⟨(ih { s with function := some f }).scope, rfl⟩
  | weaken _ _ _ ih => exact ih

/-- Only a variable declaration leaves a binding behind. -/
theorem lowerStmt_within (st : Typed.Stmt) :
    Moves (Within (.naming st.declares)) (lowerStmt st : Lower σ V S F Unit) :=
  Parallel.within (stmtAlike (σ := σ) (τ := σ) st fun _ _ h => h)

/-- Lowering that at most adds bindings to the innermost frame. -/
abbrev Grows (m : Lower σ V S F α) : Prop :=
  Moves (Within .growing) m

theorem lowerVarDecl_grows (decl : Typed.VarDecl) :
    Grows (lowerVarDecl decl : Lower σ V S F Unit) :=
  Parallel.within (alike_lowerVarDecl (σ := σ) (τ := σ) (p := false) decl
    (Allowance.naming_le_growing _))

theorem lowerBlock_grows (body : List Typed.Stmt) : Grows (lowerBlock body : Lower σ V S F Unit) :=
  Parallel.within (alike_lowerBlock (σ := σ) (τ := σ) (p := false) body)

theorem functionBody_grows (decls : List Typed.VarDecl) (body : List Typed.Stmt) (result : Ty)
    (f : F) :
    Grows (do
      lowerParameters decls (← parameters f)
      lowerBlock body
      closeFunction result : Lower σ V S F Unit) :=
  Parallel.within (alike_functionBody (σ := σ) (τ := σ) (p := false) decls body result f)

/-- At the top level a declaration at most adds its own name. -/
theorem lowerDecl_within (d : Typed.Decl) :
    Moves (Within (.namingAtTop d.name)) (lowerDecl d : Lower σ V S F Unit) :=
  Parallel.within (alike_lowerDecl (σ := σ) (τ := σ) (p := false) d fun _ _ h => h)

end ImpLower.Lower
