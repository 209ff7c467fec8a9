import ImpLower.Proofs.Semantics.Statements

/-!
# Calls

A call spills its arguments into the first slots, runs the body of the function and hands the result
to its caller. With one level of depth less the same holds of the calls inside, so a machine follows
every call; when no level is left both report the depth.
-/

namespace ImpLower.Semantics

open Code Machine Typed

/-- The module is linked from the program and its functions have different names. -/
structure Executable (ds : List Decl) (m : Code.Module) : Prop where
  linked : Linked ds m
  distinct : ((functionsOf ds).map FnDecl.name).Nodup

theorem function?_eq_find? (ds : List Decl) (name : String) :
    function? ds name = (functionsOf ds).find? fun f => f.name = name := by
  induction ds with
  | nil => rfl
  | cons d rest ih =>
      cases d with
      | global g => exact ih
      | function f =>
          rw [functionsOf, List.find?_cons, ← ih]
          by_cases same : f.name = name
          · simp [function?, same]
          · simp [function?, same]

theorem find?_of_getElem? {fs : List FnDecl} {f : FnDecl} {i : Nat}
    (distinct : (fs.map FnDecl.name).Nodup) (found : fs[i]? = some f) :
    (fs.find? fun x => x.name = f.name) = some f := by
  induction fs generalizing i with
  | nil => simp at found
  | cons x rest ih =>
      rw [List.map_cons, List.nodup_cons] at distinct
      cases i with
      | zero =>
          cases found
          simp
      | succ i =>
          have mem : f.name ∈ rest.map FnDecl.name :=
            List.mem_map.mpr ⟨f, List.mem_of_getElem? found, rfl⟩
          have ne : x.name ≠ f.name := fun same => distinct.1 (same ▸ mem)
          rw [List.find?_cons, decide_eq_false ne]
          exact ih distinct.2 found

section

variable {ds : List Decl} {m : Code.Module} {fuel levels : Nat} {F : Function} {env : Env} {s : State}

theorem Executable.function? (h : Executable ds m) {f : FnDecl} {g : Nat}
    (found : (functionsOf ds)[g]? = some f) : Semantics.function? ds f.name = some f := by
  rw [function?_eq_find?]
  exact find?_of_getElem? h.distinct found

theorem Executable.activate (h : Executable ds m) {f : FnDecl} {g : Nat}
    (found : (functionsOf ds)[g]? = some f) {arguments : List Literal}
    (types : arguments.map Literal.type = f.parameters.map VarDecl.ty) :
    ∃ F sc, m.functions[g]? = some F ∧ Visible ds sc ∧ FnCode (signaturesOf ds) sc f F ∧
      ∀ depth, activate m g arguments depth =
        if maxDepth ≤ depth then .error (.callDepth depth) else .ok (Activation.start F arguments) := by
  obtain ⟨F, hF, sc, visible, code⟩ := forall₂_getElem? h.linked.functions found
  rw [Array.getElem?_toList] at hF
  have arity : arguments.length = F.parameters.length := by
    have := congrArg List.length types
    rw [code.parameters]
    simpa using this
  refine ⟨F, sc, hF, visible, code, fun depth => ?_⟩
  rw [Machine.activate, hF]
  simp only [arity, ne_eq, not_true_eq_false, if_false]

/-! ## Parameters -/

/-- A parameter that was allocated and then filled with its argument. -/
theorem adjust_push_parameter (frame : Frame Variable) (globals : Frame Variable) (name : String)
    (initial a : Literal) :
    ((⟨[frame], globals⟩ : Env).push name ⟨[], #[initial]⟩).adjust name (·.set 0 a) =
      ⟨[(name, ⟨[], #[a]⟩) :: frame], globals⟩ := by
  simp [Scope.push, Scope.adjust, Scope.adjustFrames, Scope.adjustFrame, Variable.set]

/-- One parameter: its slot is allocated and takes the argument. -/
theorem parameter_follows {sc : Names} {v : VarDecl} {i : Nat} {frame globals : Frame Variable}
    {p : Place} {a : Literal} (storable : v.ty ≠ .void) (placed : Placed sc ⟨0, i⟩)
    (room : i < s.top.slots.size)
    (hosted : HostedAt F p [.alloca i v.ty none v.name, .store (.stack i) v.ty none (.parameter i)])
    (ready : Ready ds F sc ⟨[frame], globals⟩ p s) (argument : s.top.arguments[i]? = some a)
    (typed : a.type = v.ty) :
    ∃ t, Steps m (GlobalsTyped ds) 2 s t ∧
      Ready ds F (bindStack sc v i []) ⟨[(v.name, ⟨[], #[a]⟩) :: frame], globals⟩ (p.skip 2) t ∧
      t.callers = s.callers ∧ t.top.slots.size = s.top.slots.size ∧
      t.top.arguments = s.top.arguments := by
  obtain ⟨first, second⟩ := hostedAt_append.mp (show HostedAt F p ([_] ++ [_]) from hosted)
  let cell : Cell := #[Literal.initial v.ty]
  let s₁ := (s.allocate i cell).advance
  have moves : next m s = .running s₁ := by
    rw [next_of_hosted ready.here first, execInstruction]
    show (if i < s.top.slots.size then _ else _) = _
    rw [if_pos room]
    rfl
  have fresh : ∀ l ∈ cell, l.type = v.ty := by
    intro l hl
    rw [show l = Literal.initial v.ty by simpa [cell] using hl]
    exact Literal.type_initial storable
  have ready₁ : Ready ds F (bindStack sc v i []) ((⟨[frame], globals⟩ : Env).push v.name ⟨[], cell⟩)
      (p.skip 1) s₁ :=
    ⟨(ready.agrees.allocate placed room v .nil fresh).advance, ready.here.function, ready.here.block,
      congrArg (· + 1) ready.here.next⟩
  have placed₁ : Placed (bindStack sc v i []) ⟨0, i + 1⟩ :=
    placed.bind (Nat.le_refl 0) (fun _ ho => absurd ho List.not_mem_nil)
  have value : s₁.top.operand (.parameter i) = .ok a := by
    have same : s₁.top.arguments[i]? = some a := argument
    rw [Activation.operand, same]
  have element : s₁.element (.stack i) 0 = .ok (0, Literal.initial v.ty) := by
    have stored : s₁.cell (.stack i) = .ok cell := by
      simp [State.cell, s₁, State.allocate, State.advance, Activation.advance, room]
    rw [State.element, stored]
    rfl
  have moves' : next m s₁ = .running (s₁.write (.stack i) 0 a).advance := by
    rw [next_store (n := 0) ready₁.here second rfl value, element]
    rfl
  have agrees := ready₁.agrees.write placed₁.distinct (Scope.lookup_push_self _ _ _) typed 0
  rw [adjust_push_parameter] at agrees
  refine ⟨_, .step ready.typed moves (.one ready₁.typed moves'), ⟨agrees.advance, ?_⟩, rfl, ?_, rfl⟩
  · exact Place.skip_skip p 1 1 ▸ (At.write ready₁.here (.stack i) 0 a).advance
  · simp [State.write, State.advance, Activation.advance, s₁, State.allocate]

theorem parameters_follow {sc sc' : Names} {vs : List VarDecl} {i : Nat} {is : List Instruction}
    (code : ParametersCode sc vs i is sc') {frame globals : Frame Variable} {p : Place}
    {arguments : List Literal} (placed : Placed sc ⟨0, i⟩)
    (room : i + vs.length ≤ s.top.slots.size) (hosted : HostedAt F p is)
    (ready : Ready ds F sc ⟨[frame], globals⟩ p s) (given : s.top.arguments.drop i = arguments)
    (types : arguments.map Literal.type = vs.map VarDecl.ty) :
    ∃ n t, Steps m (GlobalsTyped ds) n s t ∧
      Ready ds F sc' ⟨[bindParameters frame vs arguments], globals⟩ (p.skip is.length) t ∧
      Placed sc' ⟨0, i + vs.length⟩ ∧ t.callers = s.callers ∧
      t.top.slots.size = s.top.slots.size := by
  induction code generalizing s p frame arguments with
  | nil =>
      rw [List.map_nil, List.map_eq_nil_iff] at types
      subst types
      exact ⟨0, s, .refl, ready, placed, rfl, rfl⟩
  | @cons sc sc' v rest i is storable tail ih =>
      cases arguments with
      | nil => cases types
      | cons a arguments =>
          rw [List.map_cons, List.map_cons, List.cons.injEq] at types
          rw [List.length_cons] at room ⊢
          have argument : s.top.arguments[i]? = some a := by
            rw [← List.head?_drop, given]
            rfl
          have others : s.top.arguments.drop (i + 1) = arguments := by
            rw [← List.drop_drop, given]
            rfl
          obtain ⟨first, second⟩ := hostedAt_append.mp (show HostedAt F p ([_, _] ++ is) from hosted)
          obtain ⟨s₁, steps, ready₁, callers, size, same⟩ := parameter_follows (m := m) storable placed
            (by omega) first ready argument types.1
          have placed₁ : Placed (bindStack sc v i []) ⟨0, i + 1⟩ :=
            placed.bind (Nat.le_refl 0) (fun _ ho => absurd ho List.not_mem_nil)
          obtain ⟨n, t, more, ready', placed', callers', size'⟩ := ih placed₁ (by omega) second ready₁
            (same ▸ others) types.2
          have length : i + 1 + rest.length = i + (rest.length + 1) := by omega
          refine ⟨2 + n, t, steps.trans more, ?_, length ▸ placed', callers'.trans callers,
            size'.trans size⟩
          rw [Place.skip_skip, Nat.add_comm] at ready'
          exact ready'

/-! ## Bodies -/

theorem Follows.inFunction {parameters : Frame Variable} {body : Eval Completion}
    {R : Completion → Env → State → Prop} {Q : Option Literal → Env → State → Prop}
    (h : Follows ds m fuel s (body.exec ⟨[parameters], env.globals⟩) R)
    (leave : ∀ completion env' s', R completion env' s' →
      Q completion.value { env with globals := env'.globals } s') :
    Follows ds m fuel s ((inFunction parameters body).exec env) Q := by
  rw [Semantics.inFunction, Stateful.exec_ofFn]
  generalize body.exec ⟨[parameters], env.globals⟩ = out at h ⊢
  rcases out with ⟨(f | _ | _) | completion, env'⟩
  · exact h
  · exact h
  · exact h
  · obtain ⟨k, t, more, r⟩ := h
    exact ⟨k, t, more, leave _ _ _ r⟩

/-- The body of a function runs to a step that ends the call. -/
theorem body_follows {call : String → List Literal → Eval (Option Literal)}
    (calls : CallsFollow ds m fuel levels call) {sc : Names} {f : FnDecl} {arguments : List Literal}
    (visible : Visible ds sc) (code : FnCode (signaturesOf ds) sc f F)
    (types : arguments.map Literal.type = f.parameters.map VarDecl.ty)
    (depth : s.depth + levels = maxDepth) (start : s.top = Activation.start F arguments)
    (globals : GlobalsAgree ds env.globals s.globals) :
    Follows ds m fuel s ((inFunction (bindParameters [] f.parameters arguments)
        (evalBlock call fuel f.body)).exec env) fun v env' s' =>
      env'.inner = env.inner ∧ s'.callers = s.callers ∧ Returning ds m f.result v env' s' := by
  obtain ⟨is, sc₁, exit, parameters, hosted, body, ends⟩ := code.body
  have size : s.top.slots.size = F.slots := by simp [start, Activation.start]
  have room : 0 + f.parameters.length ≤ s.top.slots.size := by
    rw [size, Nat.zero_add]
    exact body.le.slots
  have placed : Placed sc.enter ⟨0, 0⟩ := by
    constructor <;> simp [Scope.enter, visible.top]
  have top : ({ globals := sc.enter.globals } : Names) = sc := by
    obtain ⟨inner, outer⟩ := sc
    cases visible.top
    rfl
  have ready : Ready ds F sc.enter ⟨[[]], env.globals⟩ ⟨0, 0⟩ s := by
    refine ⟨⟨?_, top.symm ▸ visible, globals⟩, ?_, ?_, ?_⟩
    · rw [Scope.inner_enter, visible.top]
      exact .cons .nil .nil
    · rw [start]
      rfl
    · rw [start]
      rfl
    · rw [start]
      rfl
  obtain ⟨n, t, steps, ready₁, placed₁, callers, size₁⟩ := parameters_follow (m := m) parameters placed
    room hosted ready (by rw [start]; rfl) types
  have depth₁ : t.depth + levels = maxDepth := by
    rw [State.depth, callers]
    exact depth
  rw [Place.skip_start] at ready₁
  rw [Nat.zero_add] at placed₁
  have room₁ : F.slots ≤ t.top.slots.size := Nat.le_of_eq (size₁.trans size).symm
  refine .inFunction (.after steps (blockFollows calls f.body body placed₁ room₁ depth₁ ready₁)) ?_
  rintro completion env' s' ⟨new, left⟩
  cases completion with
  | returned v =>
      obtain ⟨stays, returning⟩ := left
      exact ⟨rfl, stays.callers.trans callers, returning.results, returning.globals, returning.block,
        returning.pops⟩
  | next =>
      obtain ⟨stays, q, hq, ready'⟩ := left
      obtain ⟨void, ret⟩ := ends q hq
      exact ⟨rfl, stays.callers.trans callers, .nothing void, ready'.agrees.globals,
        ready'.here.block_of_ends ret, next_of_ends ready'.here ret⟩

theorem callsFollow (h : Executable ds m) (fuel levels : Nat) :
    CallsFollow ds m fuel levels (evalCall ds fuel levels) := by
  induction levels with
  | zero =>
      intro g f s env arguments dest found types depth globals moves
      obtain ⟨F, sc, -, -, -, activates⟩ := h.activate found types
      have deep : s.depth = maxDepth := depth
      rw [activates, if_pos (Nat.le_of_eq deep.symm), deep] at moves
      exact .fault (f := .callDepth maxDepth) trivial globals moves
  | succ levels ih =>
      intro g f s env arguments dest found types depth globals moves
      obtain ⟨F, sc, -, visible, code, activates⟩ := h.activate found types
      have shallow : ¬ maxDepth ≤ s.depth := by omega
      rw [activates, if_neg shallow] at moves
      have arity : arguments.length = f.parameters.length := by
        simpa using congrArg List.length types
      rw [evalCall, h.function? found]
      simp only [arity, if_true]
      refine .after (.one ⟨_, globals⟩ moves) ?_
      have inner : (s.push dest (Activation.start F arguments)).depth + levels = maxDepth := by
        show s.callers.length + 1 + 1 + levels = maxDepth
        rw [State.depth] at depth
        omega
      refine (body_follows ih visible code types inner rfl globals).onward ?_
      rintro v env' s' ⟨same, callers, returning⟩
      have back : next m s' = .running { s' with
          top := s.top.advance.receive dest v, callers := s.callers } := by
        rw [returning.pops, State.pop, callers]
        rfl
      exact ⟨1, _, .one ⟨_, returning.globals⟩ back, same, returning.globals, rfl, rfl,
        returning.results⟩

end

end ImpLower.Semantics
