import ImpLower.Proofs.Semantics.Cases

/-!
# Code of statements

Every statement is followed by the machine through its code, whatever calls do as long as the machine
follows them too.
-/

namespace ImpLower.Semantics

open Code Machine Typed

section

variable {ds : List Decl} {m : Code.Module} {fuel levels : Nat}
  {call : String → List Literal → Eval (Option Literal)} {result : Ty}

theorem ifThen_follows (calls : CallsFollow ds m fuel levels call) (condition : Expr)
    {body : List Stmt} (follows : BlockFollows ds m fuel levels call result body) :
    StmtFollows ds m fuel levels call result (.ifThen condition body) := by
  intro sc sc' F p k k' exit env s code placed room depth ready
  cases code with
  | @ifThen _ _ _ _ r c r₁ t e _ is v exit boolean code hosted test inside joins =>
      rw [evalStmt]
      refine (condition_follows calls boolean code placed hosted depth ready).bind ?_
      rintro b env₁ s₁ ⟨reaches, read⟩
      have moves : next m s₁ = .running (s₁.jump (if b then t else e)) :=
        next_condBranch reaches.ready.here test read
      have stays := (reaches.jump (if b then t else e)).stays
      refine .after (.one reaches.ready.typed moves) ?_
      cases b with
      | true =>
          refine (arm_follows follows inside joins (placed.grow code.grows) (stays.size ▸ room)
            (stays.depth ▸ depth) (reaches.ready.jump t)).imp ?_
          exact fun _ _ _ left => left.imp stays fun q hq => by
            obtain ⟨-, -, rfl⟩ := Option.map_eq_some_iff.mp hq
            rfl
      | false => exact .here ⟨stays, _, rfl, reaches.ready.jump e⟩

theorem ifElse_follows (calls : CallsFollow ds m fuel levels call) (condition : Expr)
    {body other : List Stmt} (follows : BlockFollows ds m fuel levels call result body)
    (followsOther : BlockFollows ds m fuel levels call result other) :
    StmtFollows ds m fuel levels call result (.ifElse condition body other) := by
  intro sc sc' F p k k' exit env s code placed room depth ready
  cases code with
  | @ifElse _ _ _ _ _ r c r₁ t f e k₁ _ is v exit₁ exit₂ boolean code hosted test inside joins
      otherwise joinsToo =>
      rw [evalStmt]
      refine (condition_follows calls boolean code placed hosted depth ready).bind ?_
      rintro b env₁ s₁ ⟨reaches, read⟩
      have moves : next m s₁ = .running (s₁.jump (if b then t else f)) :=
        next_condBranch reaches.ready.here test read
      have stays := (reaches.jump (if b then t else f)).stays
      have placed₁ := placed.grow code.grows
      have le := inside.le
      refine .after (.one reaches.ready.typed moves) ?_
      cases b with
      | true =>
          have room₁ := Nat.le_trans otherwise.le.slots room
          refine (arm_follows follows inside joins placed₁ (stays.size ▸ room₁)
            (stays.depth ▸ depth) (reaches.ready.jump t)).imp ?_
          exact fun _ _ _ left => left.imp stays fun q hq => by
            obtain ⟨q', rfl, rfl⟩ := Option.map_eq_some_iff.mp hq
            rfl
      | false =>
          refine (arm_follows followsOther otherwise joinsToo (placed₁.mono le.registers le.slots)
            (stays.size ▸ room) (stays.depth ▸ depth) (reaches.ready.jump f)).imp ?_
          exact fun _ _ _ left => left.imp stays fun q hq => by
            obtain ⟨q', rfl, rfl⟩ := Option.map_eq_some_iff.mp hq
            rw [Option.isSome_some, Bool.or_true]
            rfl

/-- From a state `s₀`, the machine has come to the start of a block. -/
structure Arrived (ds : List Decl) (F : Function) (sc : Names) (s₀ : State) (block : Nat) (env : Env)
    (t : State) : Prop where
  stays : Stays s₀ t
  ready : Ready ds F sc env ⟨block, 0⟩ t

/-- Iterations from the block `h` of the test on; the body in `b` leads to the block `n` of the step. -/
theorem iterations_follow (calls : CallsFollow ds m fuel levels call) {sc : Names} {F : Function}
    {condition : Expr} {body : List Stmt} (follows : BlockFollows ds m fuel levels call result body)
    {step : Eval Unit} {r c r₁ h b n e : Nat} {k' : Counters} {is : List Instruction} {v : Operand}
    {exit : Option Place} (boolean : condition.ty = .boolean)
    (code : ExprCode (signaturesOf ds) sc condition r is (some v) r₁) (hosted : HostedAt F ⟨h, 0⟩ is)
    (test : EndsAt F ⟨h, is.length⟩ (.condBranch v b e))
    (inside : BlockCode (signaturesOf ds) F result sc.enter body ⟨b, 0⟩ ⟨r₁, c⟩ exit k')
    (joins : Joins F exit n) (placed : Placed sc ⟨r, c⟩) {s₀ : State}
    (room : k'.slots ≤ s₀.top.slots.size) (depth : s₀.depth + levels = maxDepth)
    (steps : ∀ env t, Arrived ds F sc s₀ n env t → Follows ds m fuel t (step.exec env)
      fun _ env' t' => Arrived ds F sc s₀ h env' t') {env : Env} {t : State}
    (arrived : Arrived ds F sc s₀ h env t) :
    Follows ds m fuel t
      ((loop (evalCondition call condition) (withFrame (evalBlock call fuel body)) step fuel).exec env)
      (Leaves ds m F result sc (some ⟨e, 0⟩) s₀) := by
  refine loop_follows (Arrived ds F sc s₀ h) (Arrived ds F sc s₀ b) (Arrived ds F sc s₀ n) ?_ ?_ steps
    (Nat.le_refl fuel) arrived
  · intro env₁ s₁ start
    refine (condition_follows calls boolean code placed hosted (start.stays.depth ▸ depth)
      start.ready).imp ?_
    rintro answer env₂ s₂ ⟨reaches, read⟩
    rw [Place.skip_start] at reaches
    refine ⟨reaches.ready.typed, _, next_condBranch reaches.ready.here test read, ?_⟩
    have later := start.stays.trans (reaches.jump (if answer then b else e)).stays
    cases answer with
    | true => exact ⟨later, reaches.ready.jump b⟩
    | false => exact ⟨later, _, rfl, reaches.ready.jump e⟩
  · intro env₁ s₁ begun
    refine (arm_follows follows inside joins (placed.grow code.grows) (begun.stays.size ▸ room)
      (begun.stays.depth ▸ depth) begun.ready).imp ?_
    intro completion env₂ s₂ left
    cases completion with
    | returned v => exact ⟨begun.stays.trans left.1, left.2⟩
    | next =>
        obtain ⟨later, q, hq, ready₂⟩ := left
        obtain ⟨-, -, rfl⟩ := Option.map_eq_some_iff.mp hq
        exact ⟨begun.stays.trans later, ready₂⟩

theorem whileLoop_follows (calls : CallsFollow ds m fuel levels call) (condition : Expr)
    {body : List Stmt} (follows : BlockFollows ds m fuel levels call result body) :
    StmtFollows ds m fuel levels call result (.whileLoop condition body) := by
  intro sc sc' F p k k' exit env s code placed room depth ready
  cases code with
  | @whileLoop _ _ _ _ r c r₁ h b e _ is v exit enters boolean code hosted test inside joins =>
      have moves : next m s = .running (s.jump h) := next_branch ready.here enters
      rw [evalStmt]
      refine .after (.one ready.typed moves) ?_
      exact iterations_follow calls follows boolean code hosted test inside joins placed room depth
        (fun env t arrived => .here arrived) ⟨stays_jump s h, ready.jump h⟩

theorem forLoop_follows (calls : CallsFollow ds m fuel levels call) (v : VarDecl)
    (condition step : Expr) {body : List Stmt}
    (follows : BlockFollows ds m fuel levels call result body) :
    StmtFollows ds m fuel levels call result (.forLoop v condition step body) := by
  intro sc sc' F p k k' exit env s code placed room depth ready
  cases code with
  | @forLoop _ _ _ _ _ _ r c r₁ r₂ r₃ h b n e k₁ is js ks sizes w x exit declared hosted enters boolean
      code hostedTest test inside joins onward hostedStep again =>
      have le := inside.le
      have placed₁ : Placed (bindStack sc.enter v c sizes) ⟨r₁, c + 1⟩ :=
        placed.enter.bind declared.grows.1 declared.grows.2
      have placed₂ : Placed (bindStack sc.enter v c sizes) ⟨k₁.registers, c + 1⟩ :=
        placed₁.grow (Nat.le_trans code.grows le.registers)
      have roomVar : c < s.top.slots.size := Nat.lt_of_lt_of_le le.slots room
      have entered : Ready ds F sc.enter env.enter p s := ⟨ready.agrees.enter, ready.here⟩
      have steps : ∀ env t, Arrived ds F (bindStack sc.enter v c sizes) s n env t →
          Follows ds m fuel t ((do let _ ← evalExpr call step : Eval Unit).exec env)
            fun _ env' t' => Arrived ds F (bindStack sc.enter v c sizes) s h env' t' := by
        intro env₁ s₁ ended
        refine (exprFollows calls step onward placed₂ hostedStep (ended.stays.depth ▸ depth)
          ended.ready).bind ?_
        rintro _ env₂ s₂ ⟨reaches, -⟩
        rw [Place.skip_start] at reaches
        have moves : next m s₂ = .running (s₂.jump h) := next_branch reaches.ready.here again
        exact .after (.one reaches.ready.typed moves)
          (.here ⟨ended.stays.trans (reaches.jump h).stays, reaches.ready.jump h⟩)
      rw [evalStmt]
      refine Follows.withFrame
        (R := Leaves ds m F result (bindStack sc.enter v c sizes) (some ⟨e, 0⟩) s) ?_ ?_
      · refine (varDecl_follows calls declared placed.enter roomVar hosted depth entered).bind ?_
        rintro - env₁ s₁ ⟨ready₁, stays⟩
        have moves : next m s₁ = .running (s₁.jump h) := next_branch ready₁.here enters
        refine .after (.one ready₁.typed moves) ?_
        exact iterations_follow calls follows boolean code hostedTest test inside joins placed₁ room
          depth steps ⟨stays.trans (stays_jump s₁ h), ready₁.jump h⟩
      · intro completion env' s' left
        rw [bindStack, Scope.push_eq_gain] at left
        exact left.leave ready.agrees.depth_eq

theorem switch_follows (calls : CallsFollow ds m fuel levels call) (scrutinee : Converted)
    {cases : List Case} (follows : ∀ c ∈ cases, BlockFollows ds m fuel levels call result c.body)
    (table : Bool) : StmtFollows ds m fuel levels call result (.switch scrutinee cases table) := by
  intro sc sc' F p k k' exit env s code placed room depth ready
  rw [evalStmt]
  cases code with
  | @table _ _ _ test _ r c r₁ e _ is v blocks code hosted integer selected constants jump branches =>
      refine (converted_follows (exprFollows calls scrutinee.value) code placed hosted depth
        ready).bind ?_
      rintro l env₁ s₁ ⟨reaches, read, typed⟩
      obtain ⟨n, word⟩ := Literal.word_of_integer (l := l) (typed ▸ integer)
      let target := firstMatch n e ((cases.map Case.constant).zip blocks)
      have moves : next m s₁ = .running (s₁.jump target) := by
        rw [next_of_ends reaches.ready.here jump, execTerminator, read]
        show s₁.attempt (do chooseCase (← l.word) e _) _ = _
        rw [word]
        show s₁.attempt (chooseCase n e _) _ = _
        rw [chooseCase_of_tableCode branches integer, State.attempt]
      have stays := (reaches.jump target).stays
      refine .after (.one reaches.ready.typed moves) ?_
      refine (table_follows follows branches selected integer constants (placed.grow code.grows.1)
        (stays.size ▸ room) (stays.depth ▸ depth) word (reaches.ready.jump target)).imp ?_
      exact fun _ _ _ left => left.imp stays fun _ h => h
  | chain code hosted selected branches leaves =>
      obtain ⟨grown, below⟩ := code.grows
      refine (converted_follows (exprFollows calls scrutinee.value) code placed hosted depth
        ready).bind ?_
      rintro l env₁ s₁ ⟨reaches, read, typed⟩
      refine (chain_follows calls follows branches leaves selected (placed.grow grown)
        (reaches.stays.size ▸ room) (reaches.stays.depth ▸ depth) typed read below reaches.ready).imp ?_
      exact fun _ _ _ left => left.imp reaches.stays fun _ h => h

theorem ret_follows (calls : CallsFollow ds m fuel levels call) (value : Option Converted) :
    StmtFollows ds m fuel levels call result (.ret value) := by
  intro sc sc' F p k k' exit env s code placed room depth ready
  cases code with
  | ret target code hosted leaves =>
      rw [evalStmt]
      refine (converted_follows (exprFollows calls _) code placed hosted depth ready).bind ?_
      rintro l env₁ s₁ ⟨reaches, read, typed⟩
      refine .here ⟨reaches.stays, .value (typed.trans target), reaches.ready.agrees.globals,
        reaches.ready.here.block_of_ends leaves, ?_⟩
      rw [next_of_ends reaches.ready.here leaves, execTerminator, Activation.returnValue, read]
      rfl
  | retVoid void leaves =>
      rw [evalStmt]
      exact .here ⟨.refl 0 s, .nothing void, ready.agrees.globals,
        ready.here.block_of_ends leaves, next_of_ends ready.here leaves⟩

theorem stmtFollows (calls : CallsFollow ds m fuel levels call) (st : Stmt) :
    StmtFollows ds m fuel levels call result st := by
  induction st using Stmt.treeInduction with
  | block body ih =>
      intro sc sc' F p k k' exit env s code placed room depth ready
      cases code with
      | block inside =>
          rw [evalStmt]
          exact frame_follows (blockFollows_of_forall ih) inside placed room depth ready
  | declare v =>
      intro sc sc' F p k k' exit env s code placed room depth ready
      cases code with
      | declare code hosted =>
          rw [evalStmt]
          refine (varDecl_follows calls code placed room hosted depth ready).bind ?_
          rintro - env₁ s₁ ⟨ready₁, stays⟩
          exact .here ⟨stays, _, rfl, ready₁⟩
  | eval e =>
      intro sc sc' F p k k' exit env s code placed room depth ready
      cases code with
      | eval code hosted =>
          rw [evalStmt]
          refine (exprFollows calls e code placed hosted depth ready).bind ?_
          rintro _ env₁ s₁ ⟨reaches, -⟩
          exact .here ⟨reaches.stays, _, rfl, reaches.ready⟩
  | ifThen condition body ih => exact ifThen_follows calls condition (blockFollows_of_forall ih)
  | ifElse condition body other ih ihOther =>
      exact ifElse_follows calls condition (blockFollows_of_forall ih)
        (blockFollows_of_forall ihOther)
  | forLoop v condition step body ih =>
      exact forLoop_follows calls v condition step (blockFollows_of_forall ih)
  | whileLoop condition body ih => exact whileLoop_follows calls condition (blockFollows_of_forall ih)
  | switch scrutinee cases table ih =>
      exact switch_follows calls scrutinee (fun c hc => blockFollows_of_forall (ih c hc)) table
  | ret value => exact ret_follows calls value

theorem blockFollows (calls : CallsFollow ds m fuel levels call) (body : List Stmt) :
    BlockFollows ds m fuel levels call result body :=
  blockFollows_of_forall fun st _ => stmtFollows calls st

end

end ImpLower.Semantics
