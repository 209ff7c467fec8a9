import ImpLower.Proofs.Semantics.Declarations

/-!
# Frames, branches and loops

A machine follows a statement through its code. Where control goes on, it reaches the place behind the
statement; where the statement returns, the machine stands before a step that ends the call with the
same value. A loop is followed iteration by iteration, each of which takes at least one step.
-/

namespace ImpLower.Semantics

open Code Machine Typed

/-- The next step ends the call with the value. -/
structure Returning (ds : List Decl) (m : Code.Module) (result : Ty) (v : Option Literal) (env : Env)
    (s : State) : Prop where
  results : Results result v
  globals : GlobalsAgree ds env.globals s.globals
  block : s.top.currentBlock?.isSome = true
  pops : next m s = s.pop v

/-- Where a machine stands after code that started in `s` and goes on through `exit`. -/
def Leaves (ds : List Decl) (m : Code.Module) (F : Function) (result : Ty) (sc : Names)
    (exit : Option Place) (s : State) : Completion → Env → State → Prop
  | .next, env, s' => Stays s s' ∧ ∃ q, exit = some q ∧ Ready ds F sc env q s'
  | .returned v, env, s' => Stays s s' ∧ Returning ds m result v env s'

/-- A machine follows the statement through its code. -/
def StmtFollows (ds : List Decl) (m : Code.Module) (fuel levels : Nat)
    (call : String → List Literal → Eval (Option Literal)) (result : Ty) (st : Stmt) : Prop :=
  ∀ {sc sc' : Names} {F : Function} {p : Place} {k k' : Counters} {exit : Option Place} {env : Env}
    {s : State}, StmtCode (signaturesOf ds) F result sc st p k sc' exit k' → Placed sc k →
    k'.slots ≤ s.top.slots.size → s.depth + levels = maxDepth → Ready ds F sc env p s →
    Follows ds m fuel s ((evalStmt call fuel st).exec env) (Leaves ds m F result sc' exit s)

/-- A machine follows the statements through their code, which binds names in the current frame. -/
def BlockFollows (ds : List Decl) (m : Code.Module) (fuel levels : Nat)
    (call : String → List Literal → Eval (Option Literal)) (result : Ty) (body : List Stmt) : Prop :=
  ∀ {sc : Names} {F : Function} {p : Place} {k k' : Counters} {exit : Option Place} {env : Env}
    {s : State}, BlockCode (signaturesOf ds) F result sc body p k exit k' → Placed sc k →
    k'.slots ≤ s.top.slots.size → s.depth + levels = maxDepth → Ready ds F sc env p s →
    Follows ds m fuel s ((evalBlock call fuel body).exec env) fun completion env' s' =>
      ∃ new, Leaves ds m F result (sc.gain new) exit s completion env' s'

theorem placed_of_stmtCode {sig : Signatures} {F : Function} {result : Ty} {sc sc' : Names}
    {st : Stmt} {p : Place} {k k' : Counters} {exit : Option Place}
    (h : StmtCode sig F result sc st p k sc' exit k') (placed : Placed sc k) : Placed sc' k' := by
  have le := h.le
  cases h with
  | declare code hosted => exact placed.bind code.grows.1 code.grows.2
  | _ => exact placed.mono le.registers le.slots

theorem Leaves.imp {ds : List Decl} {m : Code.Module} {F : Function} {result : Ty} {sc : Names}
    {exit exit' : Option Place} {s₀ s s' : State} {completion : Completion} {env : Env}
    (h : Leaves ds m F result sc exit s completion env s') (stays : Stays s₀ s)
    (sub : ∀ q, exit = some q → exit' = some q) :
    Leaves ds m F result sc exit' s₀ completion env s' := by
  cases completion with
  | next =>
      obtain ⟨later, q, hq, ready⟩ := h
      exact ⟨stays.trans later, q, sub q hq, ready⟩
  | returned v =>
      obtain ⟨later, returning⟩ := h
      exact ⟨stays.trans later, returning⟩

/-! ## Sequences -/

section

variable {ds : List Decl} {m : Code.Module} {fuel levels : Nat}
  {call : String → List Literal → Eval (Option Literal)} {result : Ty} {sc : Names} {F : Function}
  {p : Place} {env : Env} {s : State}

theorem blockFollows_of_forall {body : List Stmt}
    (follows : ∀ st ∈ body, StmtFollows ds m fuel levels call result st) :
    BlockFollows ds m fuel levels call result body := by
  induction body with
  | nil =>
      intro sc F p k k' exit env s code placed room depth ready
      cases code
      rw [evalBlock]
      exact .here ⟨[], .refl 0 s, _, rfl, (Scope.gain_nil sc).symm ▸ ready⟩
  | cons st rest ih =>
      obtain ⟨first, others⟩ := List.forall_mem_cons.mp follows
      intro sc F p k k' exit env s code placed room depth ready
      rw [evalBlock]
      cases code with
      | @cons _ sc₁ _ _ _ p₁ _ k₁ _ _ head tail =>
          have room₁ : k₁.slots ≤ s.top.slots.size := Nat.le_trans tail.le.slots room
          refine (first head placed room₁ depth ready).bind ?_
          intro completion env₁ s₁ left
          obtain ⟨new, rfl⟩ := head.names_eq_gain
          cases completion with
          | returned v => exact .here ⟨new, left⟩
          | next =>
              obtain ⟨stays, q, hq, ready₁⟩ := left
              cases hq
              refine (ih others tail (placed_of_stmtCode head placed) (stays.size ▸ room)
                (stays.depth ▸ depth) ready₁).imp ?_
              rintro completion env₂ s₂ ⟨more, left'⟩
              rw [Scope.gain_gain] at left'
              exact ⟨more ++ new, left'.imp stays fun _ h => h⟩
      | @cut _ sc₁ _ _ _ _ _ head =>
          refine (first head placed room depth ready).bind ?_
          intro completion env₁ s₁ left
          obtain ⟨new, rfl⟩ := head.names_eq_gain
          cases completion with
          | returned v => exact .here ⟨new, left⟩
          | next =>
              obtain ⟨-, q, hq, -⟩ := left
              cases hq

/-- The names of a frame are gone when it is left. -/
theorem Leaves.leave {new : Frame (Storage Operand Slot Nat)} {exit : Option Place} {s' : State}
    {completion : Completion} {env' : Env}
    (h : Leaves ds m F result (sc.enter.gain new) exit s completion env' s')
    (depth : env.depth = sc.depth) :
    Leaves ds m F result sc exit s completion (env'.unwind env.depth) s' := by
  cases completion with
  | next =>
      obtain ⟨stays, q, hq, ready⟩ := h
      exact ⟨stays, q, hq, ready.agrees.leave depth, ready.here⟩
  | returned v =>
      obtain ⟨stays, returning⟩ := h
      exact ⟨stays, returning.results, returning.globals, returning.block, returning.pops⟩

theorem frame_follows {body : List Stmt} (follows : BlockFollows ds m fuel levels call result body)
    {k k' : Counters} {exit : Option Place}
    (code : BlockCode (signaturesOf ds) F result sc.enter body p k exit k') (placed : Placed sc k)
    (room : k'.slots ≤ s.top.slots.size) (depth : s.depth + levels = maxDepth)
    (ready : Ready ds F sc env p s) :
    Follows ds m fuel s ((withFrame (evalBlock call fuel body)).exec env)
      (Leaves ds m F result sc exit s) := by
  refine (follows code placed.enter room depth ⟨ready.agrees.enter, ready.here⟩).withFrame ?_
  rintro completion env' s' ⟨new, left⟩
  exact left.leave ready.agrees.depth_eq

/-! ## Branches -/

theorem Ready.jump (ready : Ready ds F sc env p s) (block : Nat) :
    Ready ds F sc env ⟨block, 0⟩ (s.jump block) :=
  ⟨ready.agrees.jump block, ready.here.jump block⟩

theorem Reaches.jump {r : Nat} {t : State} (h : Reaches ds F sc r s p env t) (block : Nat) :
    Reaches ds F sc r s ⟨block, 0⟩ env (t.jump block) :=
  ⟨h.ready.jump block, h.kept.trans ⟨rfl, rfl, fun _ _ _ read => read⟩⟩

theorem Reaches.stays {r : Nat} {t : State} (h : Reaches ds F sc r s p env t) : Stays s t :=
  h.kept.mono (Nat.zero_le r)

theorem stays_jump (s : State) (block : Nat) : Stays s (s.jump block) :=
  ⟨rfl, rfl, fun _ _ _ read => read⟩

theorem next_branch {e : Nat} (here : At F p s) (ends : EndsAt F p (.branch e)) :
    next m s = .running (s.jump e) :=
  next_of_ends here ends

theorem next_condBranch {o : Operand} {b : Bool} {t e : Nat} (here : At F p s)
    (ends : EndsAt F p (.condBranch o t e)) (read : s.top.operand o = .ok (.boolean b)) :
    next m s = .running (s.jump (if b then t else e)) := by
  rw [next_of_ends here ends, execTerminator, read]
  cases b <;> rfl

/-- A body in a block of its own, from which control goes on to the block `e`. -/
theorem arm_follows {body : List Stmt} (follows : BlockFollows ds m fuel levels call result body)
    {k k' : Counters} {exit : Option Place} {t e : Nat}
    (code : BlockCode (signaturesOf ds) F result sc.enter body ⟨t, 0⟩ k exit k')
    (joins : Joins F exit e) (placed : Placed sc k) (room : k'.slots ≤ s.top.slots.size)
    (depth : s.depth + levels = maxDepth) (ready : Ready ds F sc env ⟨t, 0⟩ s) :
    Follows ds m fuel s ((withFrame (evalBlock call fuel body)).exec env)
      (Leaves ds m F result sc (exit.map fun _ => ⟨e, 0⟩) s) := by
  refine (frame_follows follows code placed room depth ready).onward ?_
  intro completion env' s' left
  cases completion with
  | returned v => exact ⟨0, s', .refl, left⟩
  | next =>
      obtain ⟨stays, q, rfl, ready'⟩ := left
      have moves : next m s' = .running (s'.jump e) := next_branch ready'.here (joins q rfl)
      exact ⟨1, _, .one ready'.typed moves, stays.trans (stays_jump s' e), _, rfl, ready'.jump e⟩

theorem condition_follows (calls : CallsFollow ds m fuel levels call) {condition : Expr}
    {r r' c : Nat} {is : List Instruction} {v : Operand} (boolean : condition.ty = .boolean)
    (code : ExprCode (signaturesOf ds) sc condition r is (some v) r') (placed : Placed sc ⟨r, c⟩)
    (hosted : HostedAt F p is) (depth : s.depth + levels = maxDepth)
    (ready : Ready ds F sc env p s) :
    Follows ds m fuel s ((evalCondition call condition).exec env) fun b env' s' =>
      Reaches ds F sc r s (p.skip is.length) env' s' ∧ s'.top.operand v = .ok (.boolean b) := by
  rw [evalCondition]
  refine (exprFollows calls condition code placed hosted depth ready).bind ?_
  rintro _ env' s' ⟨reaches, yields⟩
  cases yields with
  | value read typed =>
      obtain ⟨b, rfl⟩ := Literal.eq_boolean_of_type (typed.trans boolean)
      exact .bind_ok (.here ⟨reaches, read⟩)

/-! ## Loops -/

/-- The rule for loops. `Inv` holds where the test starts, `Begun` where the body starts and `Ended`
where the step starts; the test ends with a step into the body or out of the loop. -/
theorem loop_follows {test : Eval Bool} {body : Eval Completion} {step : Eval Unit}
    (Inv Begun Ended : Env → State → Prop) {Q : Completion → Env → State → Prop}
    (tests : ∀ env s, Inv env s → Follows ds m fuel s (test.exec env) fun b env' s' =>
      GlobalsTyped ds s'.globals ∧ ∃ t, next m s' = .running t ∧
        if b then Begun env' t else Q .next env' t)
    (runs : ∀ env s, Begun env s → Follows ds m fuel s (body.exec env) fun completion env' s' =>
      match completion with
      | .next => Ended env' s'
      | .returned v => Q (.returned v) env' s')
    (steps : ∀ env s, Ended env s → Follows ds m fuel s (step.exec env) fun _ env' s' => Inv env' s')
    {n : Nat} (le : n ≤ fuel) {env : Env} {s : State} (inv : Inv env s) :
    Follows ds m n s ((loop test body step n).exec env) Q := by
  -- each iteration takes the step that ends its test, so the fuel left never exceeds the steps ahead
  induction n generalizing env s with
  | zero => exact ⟨0, s, Nat.le_refl 0, .refl⟩
  | succ n ih =>
      rw [loop]
      refine ((tests env s inv).weaken le).bind ?_
      rintro b env₁ s₁ ⟨typed, t, moves, after⟩
      refine .step typed moves ?_
      cases b with
      | false => exact .here after
      | true =>
          refine ((runs env₁ t after).weaken (Nat.le_of_succ_le le)).bind ?_
          intro completion env₂ s₂ ended
          cases completion with
          | returned v => exact .here ended
          | next =>
              refine ((steps env₂ s₂ ended).weaken (Nat.le_of_succ_le le)).bind ?_
              intro _ env₃ s₃ inv'
              exact ih (Nat.le_of_succ_le le) inv'

end

end ImpLower.Semantics
