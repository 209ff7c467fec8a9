import ImpLower.Proofs.Semantics.Expressions

/-!
# Code of local declarations

A machine follows a declaration through its code: the sizes are evaluated, their product is checked and
a fresh cell takes the next slot, with the initial value in it where there is one.
-/

namespace ImpLower.Semantics

open Code Machine Typed

/-- A later state of the same call. -/
abbrev Stays (s s' : State) : Prop := Kept 0 s s'

section

variable {ds : List Decl} {m : Code.Module} {fuel levels : Nat}
  {call : String → List Literal → Eval (Option Literal)} {sc : Names} {F : Function} {c : Nat}
  {p : Place} {env : Env} {s : State}

theorem exec_allocate (name : String) (ty : Ty) (sizes : List Int64) (env : Env) :
    (allocate name ty sizes).exec env =
      if elements sizes < 0 then (.error (.fault (.invalidLength (elements sizes).toInt)), env)
      else (.ok (), env.push name
        ⟨sizes, Array.replicate (elements sizes).toInt.toNat (Literal.initial ty)⟩) := by
  unfold allocate
  by_cases negative : elements sizes < 0
  · simp only [if_pos negative]
    rfl
  · simp only [if_neg negative]
    rfl

/-- An allocation that has its element count binds the variable. -/
theorem alloca_ready {v : VarDecl} {r n : Nat} {sizes : List Operand} {counts : List Int64}
    {length : Option Operand} (storable : v.ty ≠ .void) (placed : Placed sc ⟨r, c⟩)
    (room : c < s.top.slots.size) (hosted : HostedAt F p [.alloca c v.ty length v.name])
    (ready : Ready ds F sc env p s) (counted : Counted s.top sizes counts)
    (count : s.top.length length = .ok n) :
    ∃ s', next m s = .running s' ∧
      Ready ds F (bindStack sc v c sizes)
        (env.push v.name ⟨counts, Array.replicate n (Literal.initial v.ty)⟩) (p.skip 1) s' ∧
      Kept r s s' := by
  have typed : ∀ l ∈ Array.replicate n (Literal.initial v.ty), l.type = v.ty := by
    intro l hl
    rw [(Array.mem_replicate.mp hl).2]
    exact Literal.type_initial storable
  refine ⟨(s.allocate c (Array.replicate n (Literal.initial v.ty))).advance, ?_, ⟨?_, ?_⟩, ?_⟩
  · rw [next_of_hosted ready.here hosted, execInstruction, count, State.attempt, if_pos room]
  · exact (ready.agrees.allocate placed room v counted typed).advance
  · exact ⟨ready.here.function, ready.here.block, congrArg (· + 1) ready.here.next⟩
  · exact ⟨rfl, Array.size_setIfInBounds, fun _ _ _ read => read⟩

theorem allocate_follows {v : VarDecl} {r : Nat} {sizes : List Operand} {counts : List Int64}
    {length : Option Operand} (storable : v.ty ≠ .void) (placed : Placed sc ⟨r, c⟩)
    (room : c < s.top.slots.size) (hosted : HostedAt F p [.alloca c v.ty length v.name])
    (ready : Ready ds F sc env p s) (counted : Counted s.top sizes counts)
    (count : s.top.length length =
      if elements counts < 0 then .error (.invalidLength (elements counts).toInt)
      else .ok (elements counts).toInt.toNat) :
    Follows ds m fuel s ((allocate v.name v.ty counts).exec env) fun _ env' s' =>
      Ready ds F (bindStack sc v c sizes) env' (p.skip 1) s' ∧ Kept r s s' := by
  rw [exec_allocate]
  by_cases negative : elements counts < 0
  · rw [if_pos negative] at count ⊢
    have traps : next m s = .trapped (.invalidLength (elements counts).toInt) s.globals := by
      rw [next_of_hosted ready.here hosted, execInstruction, count, State.attempt]
    exact .fault (f := .invalidLength _) trivial ready.agrees.globals traps
  · rw [if_neg negative] at count ⊢
    obtain ⟨s', moves, ready', kept⟩ :=
      alloca_ready (m := m) storable placed room hosted ready counted count
    exact .after (.one ready.typed moves) (.here ⟨ready', kept⟩)

theorem exists_longs {es : List Converted} {ls : List Literal} (indices : ∀ e ∈ es, e.IsIndex)
    (types : ls.map Literal.type = es.map Converted.target) :
    ∃ counts : List Int64, ls = counts.map Literal.long := by
  induction ls generalizing es with
  | nil => exact ⟨[], rfl⟩
  | cons l rest ih =>
      cases es with
      | nil => cases types
      | cons e es =>
          obtain ⟨first, others⟩ := List.forall_mem_cons.mp indices
          rw [List.map_cons, List.map_cons, List.cons.injEq] at types
          obtain ⟨n, rfl⟩ := Literal.eq_long_of_type (types.1.trans first.2.2)
          obtain ⟨counts, rfl⟩ := ih others types.2
          exact ⟨n :: counts, rfl⟩

/-- The sizes of a variable are evaluated and multiplied. -/
theorem sizes_follow (calls : CallsFollow ds m fuel levels call) {es : List Converted}
    {r r₁ r' : Nat} {is js : List Instruction} {sizes : List Operand} {length : Option Operand}
    (indices : ∀ e ∈ es, e.IsIndex) (dims : ArgumentsCode (signaturesOf ds) sc es r is sizes r₁)
    (count : LengthCode sizes r₁ js length r') (placed : Placed sc ⟨r, c⟩)
    (hosted : HostedAt F p (is ++ js)) (depth : s.depth + levels = maxDepth)
    (ready : Ready ds F sc env p s) :
    Follows ds m fuel s ((evalArguments call es).exec env) fun ls env' s' =>
      ∃ counts : List Int64, ls = counts.map Literal.long ∧
        Reaches ds F sc r s (p.skip (is ++ js).length) env' s' ∧ Counted s'.top sizes counts ∧
        s'.top.length length =
          if elements counts < 0 then .error (.invalidLength (elements counts).toInt)
          else .ok (elements counts).toInt.toNat := by
  obtain ⟨first, second⟩ := hostedAt_append.mp hosted
  obtain ⟨grown, below⟩ := dims.grows
  refine (arguments_follow (fun e _ => exprFollows calls e.value) dims placed first depth
    ready).onward ?_
  rintro ls env₁ s₁ ⟨reaches, reads, types⟩
  obtain ⟨counts, rfl⟩ := exists_longs indices types
  have counted : Counted s₁.top sizes counts := by rwa [List.forall₂_map_right_iff] at reads
  obtain ⟨n, s₂, steps, reaches', length⟩ :=
    length_follows count (placed.grow grown) second reaches.ready counted below
  have counted₂ : Counted s₂.top sizes counts :=
    counted.imp fun o ho l => reaches'.kept.operand o l (below o ho)
  refine ⟨n, s₂, steps, counts, rfl, ?_, counted₂, length⟩
  rw [List.length_append, ← Place.skip_skip]
  exact reaches.trans grown reaches'

theorem varDecl_follows (calls : CallsFollow ds m fuel levels call) {v : VarDecl} {r r' : Nat}
    {is : List Instruction} {sizes : List Operand}
    (code : VarCode (signaturesOf ds) sc v c r is sizes r') (placed : Placed sc ⟨r, c⟩)
    (room : c < s.top.slots.size) (hosted : HostedAt F p is) (depth : s.depth + levels = maxDepth)
    (ready : Ready ds F sc env p s) :
    Follows ds m fuel s ((evalVarDecl call v).exec env) fun _ env' s' =>
      Ready ds F (bindStack sc v c sizes) env' (p.skip is.length) s' ∧ Stays s s' := by
  rw [evalVarDecl]
  cases code with
  | @plain r₁ _ is js _ length storable bare indices dims count =>
      obtain ⟨start, last⟩ := hostedAt_append.mp hosted
      refine (sizes_follow calls indices dims count placed start depth ready).bind ?_
      rintro _ env₁ s₁ ⟨counts, rfl, reaches, counted, length⟩
      rw [mapM_index]
      refine .bind_ok ?_
      have room₁ : c < s₁.top.slots.size := by
        rw [reaches.kept.size]
        exact room
      refine (allocate_follows storable placed room₁ last reaches.ready counted length).bind ?_
      rintro - env₂ s₂ ⟨ready₂, kept⟩
      rw [bare]
      refine .here ⟨?_, (reaches.kept.trans kept).mono (Nat.zero_le _)⟩
      rw [List.length_append, ← Place.skip_skip]
      exact ready₂
  | @initialized _ initial is value storable given scalar target code =>
      obtain ⟨start, last⟩ := hostedAt_append.mp hosted
      obtain ⟨first, second⟩ := hostedAt_append.mp (show HostedAt F p ([_] ++ is) from start)
      have none : (evalArguments call v.dimensions).exec env = (.ok [], env) := by
        rw [scalar, evalArguments]
        rfl
      rw [Stateful.exec_bind_of_ok none]
      refine .bind_ok ?_
      refine (allocate_follows storable placed room first ready .nil rfl).bind ?_
      rintro - env₁ s₁ ⟨ready₁, kept⟩
      have placed₁ : Placed (bindStack sc v c []) ⟨r, c + 1⟩ :=
        placed.bind (Nat.le_refl r) (fun _ ho => absurd ho List.not_mem_nil)
      have depth₁ : s₁.depth + levels = maxDepth := kept.depth ▸ depth
      rw [given]
      refine (converted_follows (exprFollows calls initial.value) code placed₁ second depth₁
        ready₁).bind ?_
      rintro l env₂ s₂ ⟨reaches, read, typed⟩
      rw [List.length_cons, Nat.add_comm, ← Place.skip_skip] at last
      refine (write_follows reaches placed₁ last (Scope.lookup_push_self _ _ _) .nil .start read
        (typed.trans target)).imp ?_
      rintro - env₃ s₃ ⟨reaches', -⟩
      refine ⟨?_, (kept.trans reaches'.kept).mono (Nat.zero_le _)⟩
      rw [List.length_append, List.length_cons, Nat.add_comm is.length, ← Place.skip_skip,
        ← Place.skip_skip]
      exact reaches'.ready

end

end ImpLower.Semantics
