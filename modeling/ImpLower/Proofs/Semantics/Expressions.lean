import ImpLower.Proofs.Code.Counters
import ImpLower.Proofs.Semantics.Offsets

/-!
# Code of expressions

A machine follows the evaluation of an expression through its code: the operand the code names holds
the value, which has the type of the expression. What calls do is an assumption here.
-/

namespace ImpLower.Semantics

open Code Machine Typed

/-- A result of the given type; none where there is nothing to return. -/
inductive Results (ty : Ty) : Option Literal → Prop
  | value {l : Literal} (typed : l.type = ty) : Results ty (some l)
  | nothing (void : ty = .void) : Results ty none

/-- With so many levels left, a machine at a call instruction follows the call: it comes back to the
caller, past the instruction and with the result where it is wanted. -/
def CallsFollow (ds : List Decl) (m : Code.Module) (fuel levels : Nat)
    (call : String → List Literal → Eval (Option Literal)) : Prop :=
  ∀ {g : Nat} {f : FnDecl} {s : State} {env : Env} {arguments : List Literal} {dest : Option Nat},
    (functionsOf ds)[g]? = some f → arguments.map Literal.type = f.parameters.map VarDecl.ty →
    s.depth + levels = maxDepth → GlobalsAgree ds env.globals s.globals →
    next m s = (s.attempt (activate m g arguments s.depth) fun callee s =>
      .running (s.push dest callee)) →
    Follows ds m fuel s ((call f.name arguments).exec env) fun v env' s' =>
      env'.inner = env.inner ∧ GlobalsAgree ds env'.globals s'.globals ∧ s'.callers = s.callers ∧
        s'.top = s.top.advance.receive dest v ∧ Results f.result v

def ExprFollows (ds : List Decl) (m : Code.Module) (fuel levels : Nat)
    (call : String → List Literal → Eval (Option Literal)) (e : Expr) : Prop :=
  ∀ {sc : Names} {F : Function} {r r' c : Nat} {is : List Instruction} {v : Option Operand}
    {p : Place} {env : Env} {s : State}, ExprCode (signaturesOf ds) sc e r is v r' →
    Placed sc ⟨r, c⟩ → HostedAt F p is → s.depth + levels = maxDepth → Ready ds F sc env p s →
    Follows ds m fuel s ((evalExpr call e).exec env) fun l env' s' =>
      Reaches ds F sc r s (p.skip is.length) env' s' ∧ Yields s' e.ty v l

section

variable {ds : List Decl} {m : Code.Module} {fuel levels : Nat}
  {call : String → List Literal → Eval (Option Literal)} {sc : Names} {F : Function} {c : Nat}
  {p : Place} {env : Env} {s : State}

theorem converted_follows {e : Converted} (follows : ExprFollows ds m fuel levels call e.value)
    {r r' : Nat} {is : List Instruction} {v : Operand}
    (code : ConvertedCode (signaturesOf ds) sc e r is v r') (placed : Placed sc ⟨r, c⟩)
    (hosted : HostedAt F p is) (depth : s.depth + levels = maxDepth)
    (ready : Ready ds F sc env p s) :
    Follows ds m fuel s ((evalConverted call e).exec env) fun l env' s' =>
      Reaches ds F sc r s (p.skip is.length) env' s' ∧ s'.top.operand v = .ok l ∧
        l.type = e.target := by
  obtain ⟨value, conversion, target⟩ := e
  rw [evalConverted]
  cases code with
  | kept fits same code =>
      refine (follows code placed hosted depth ready).bind ?_
      rintro _ env' s' ⟨reaches, yields⟩
      cases yields with
      | @value _ l read typed =>
          have into : Conversion.into target l.type = .ok .identity := by
            rw [typed, ← same]
            exact fits.2
          have eq : target = l.type := Conversion.eq_of_into_eq_identity into
          subst eq
          refine .bind_ok ?_
          rw [moveTo, Literal.convert_type_self]
          exact .here ⟨reaches, read, rfl⟩
  | @moved _ _ r' is v fits moves code =>
      obtain ⟨start, last⟩ := hostedAt_append.mp hosted
      refine (follows code placed start depth ready).bind ?_
      rintro _ env' s' ⟨reaches, yields⟩
      cases yields with
      | @value _ l read typed =>
          have into : Conversion.into target l.type = .ok conversion := by
            rw [typed]
            exact fits.2
          obtain ⟨w, moved⟩ := Literal.convert_of_into into
          have steps : next m s' = .running (s'.setRegister r' w).advance := by
            rw [next_of_hosted reaches.ready.here last, execInstruction, read]
            show s'.attempt (evalConvert l target) _ = _
            rw [evalConvert, moved, State.attempt]
          have grown := code.grows
          refine .bind_ok ?_
          rw [moveTo, moved]
          refine .after (.one reaches.ready.typed steps) (.here ⟨?_, ?_, Literal.type_of_convert moved⟩)
          · rw [List.length_append, ← Place.skip_skip]
            exact reaches.setRegister grown (placed.grow grown) w
          · exact operand_setRegister _ r' w

theorem arguments_follow {es : List Converted}
    (follows : ∀ e ∈ es, ExprFollows ds m fuel levels call e.value) {r r' : Nat}
    {is : List Instruction} {vs : List Operand}
    (code : ArgumentsCode (signaturesOf ds) sc es r is vs r') (placed : Placed sc ⟨r, c⟩)
    (hosted : HostedAt F p is) (depth : s.depth + levels = maxDepth)
    (ready : Ready ds F sc env p s) :
    Follows ds m fuel s ((evalArguments call es).exec env) fun ls env' s' =>
      Reaches ds F sc r s (p.skip is.length) env' s' ∧
        List.Forall₂ (fun o l => s'.top.operand o = .ok l) vs ls ∧
        ls.map Literal.type = es.map Converted.target := by
  induction es generalizing r is vs p env s with
  | nil =>
      cases code
      rw [evalArguments]
      exact .here ⟨.refl ready _, .nil, rfl⟩
  | cons e rest ih =>
      obtain ⟨first, others⟩ := List.forall_mem_cons.mp follows
      cases code with
      | @cons _ _ _ r₁ _ is js v vs head tail =>
          obtain ⟨start, last⟩ := hostedAt_append.mp hosted
          obtain ⟨grown, below⟩ := head.grows
          rw [evalArguments]
          refine (converted_follows first head placed start depth ready).bind ?_
          rintro l env₁ s₁ ⟨reaches, read, typed⟩
          have depth₁ : s₁.depth + levels = maxDepth := reaches.kept.depth ▸ depth
          refine (ih others tail (placed.grow grown) last depth₁ reaches.ready).bind ?_
          rintro ls env₂ s₂ ⟨reaches', reads, types⟩
          refine .here ⟨?_, .cons (reaches'.kept.operand v l below read) reads, ?_⟩
          · rw [List.length_append, ← Place.skip_skip]
            exact reaches.trans grown reaches'
          · rw [List.map_cons, List.map_cons, typed, types]

/-- The code of an access computes its row-major offset. Where there is room for the elements and the
indices are within the sizes, nothing wraps around on the way. -/
theorem offset_follows {es : List Converted}
    (follows : ∀ e ∈ es, ExprFollows ds m fuel levels call e.value) {sizes : List Operand}
    {before after : Option Operand} {r r' : Nat} {is : List Instruction}
    (code : OffsetCode (signaturesOf ds) sc es sizes before r is after r')
    (placed : Placed sc ⟨r, c⟩) (hosted : HostedAt F p is) (depth : s.depth + levels = maxDepth)
    (ready : Ready ds F sc env p s) {counts : List Int64} {base : Int64}
    (counted : Counted s.top sizes counts) (belowSizes : ∀ o ∈ sizes, o.Below r)
    (offset : Offset s before base) (belowOffset : ∀ o, before = some o → o.Below r) :
    Follows ds m fuel s ((evalArguments call es).exec env) fun ls env' s' =>
      Reaches ds F sc r s (p.skip is.length) env' s' ∧ ∃ indices, ls = indices.map Literal.long ∧
        Offset s' after (base * elements counts + flatten counts indices) ∧
        (Roomy base counts → Within counts indices →
          ComputesOffset ds m F sc es sizes before s indices after s') := by
  induction es generalizing sizes before r is p env s counts base with
  | nil =>
      rw [evalArguments]
      cases code with
      | whole =>
          cases offset
          exact .here ⟨.refl ready _, [], rfl, by simpa using Offset.start, fun _ _ => .whole⟩
      | scaled scale =>
          cases offset with
          | passed read =>
              obtain ⟨n, s', steps, reaches, value, scales⟩ :=
                scale_follows scale placed hosted ready read counted belowSizes
              refine .after steps (.here ⟨reaches, [], rfl, ?_, fun roomy _ => .scaled (scales roomy)⟩)
              simpa using Offset.passed value
  | cons e rest ih =>
      obtain ⟨first, others⟩ := List.forall_mem_cons.mp follows
      cases code with
      | @cons _ _ n v o sizes before after _ r₁ r₂ _ is js ks integer head step tail =>
          cases counted with
          | @cons _ count _ counts readCount counted =>
              obtain ⟨belowSize, belowSizes⟩ := List.forall_mem_cons.mp belowSizes
              rw [List.append_assoc] at hosted ⊢
              obtain ⟨start, rest⟩ := hostedAt_append.mp hosted
              obtain ⟨middle, last⟩ := hostedAt_append.mp rest
              obtain ⟨grown, below⟩ := head.grows
              obtain ⟨grown₁, below₁⟩ := step.grows below
              have grown₂ : _ ≤ r₂ := Nat.le_trans grown grown₁
              rw [evalArguments]
              refine (converted_follows first head placed start depth ready).traced.bind ?_
              rintro l env₁ s₁ ⟨⟨k₁, run⟩, reaches, read, typed⟩
              obtain ⟨i, rfl⟩ := Literal.eq_long_of_type (typed.trans integer.2.2)
              obtain ⟨k, s₂, steps, reaches', value, adds⟩ := index_follows (m := m) step
                (placed.grow grown) middle reaches.ready (offset.keep belowOffset reaches.kept)
                (reaches.kept.operand n _ belowSize readCount) read below
              have both := reaches.trans grown reaches'
              have depth₂ : s₂.depth + levels = maxDepth := both.kept.depth ▸ depth
              have counted₂ : Counted s₂.top sizes counts :=
                Counted.imp counted fun o ho l => both.kept.operand o l (belowSizes o ho)
              refine .after steps ((ih others tail (placed.grow grown₂) last depth₂ both.ready counted₂
                (fun o ho => (belowSizes o ho).mono grown₂) (.passed value)
                fun x hx => by cases hx; exact below₁).bind ?_)
              rintro ls env₃ s₃ ⟨reaches'', indices, rfl, offset', computes⟩
              refine .here ⟨?_, i :: indices, rfl, ?_, fun roomy within => ?_⟩
              · rw [List.length_append, List.length_append, ← Place.skip_skip, ← Place.skip_skip]
                exact both.trans grown₂ reaches''
              · rw [flatten_step]
                exact offset'
              · cases within with
                | cons lower upper within =>
                    exact .cons head ready.here start run reaches.ready.here reaches.kept.callers read
                      (adds counts roomy lower upper) (computes (roomy.step lower upper) within)

theorem mapM_index (indices : List Int64) :
    (indices.map Literal.long).mapM index = (.ok indices : Except Stop (List Int64)) := by
  rw [except_mapM_eq_ok, List.forall₂_map_left_iff, List.forall₂_same]
  exact fun n _ => rfl

/-- The indices of an access, and what is done with them once the machine has computed the offset. -/
theorem indices_follow {α : Type} {es : List Converted} {k : List Int64 → Eval α}
    {Q : α → Env → State → Prop} (follows : ∀ e ∈ es, ExprFollows ds m fuel levels call e.value)
    {name : String} {slot : Slot} {ty : Ty} {sizes : List Operand} {after : Option Operand}
    {r r' : Nat} {is : List Instruction}
    (code : OffsetCode (signaturesOf ds) sc es sizes none r is after r') (placed : Placed sc ⟨r, c⟩)
    (hosted : HostedAt F p is) (depth : s.depth + levels = maxDepth) (ready : Ready ds F sc env p s)
    (bound : sc.lookup name = some (.var slot ty sizes))
    (rest : ∀ counts indices env' s', Reaches ds F sc r s (p.skip is.length) env' s' →
      Counted s'.top sizes counts → Offset s' after (flatten counts indices) →
      Follows ds m fuel s' ((k indices).exec env') Q) :
    Follows ds m fuel s ((do
        let values ← evalArguments call es
        let indices ← Stateful.ofExcept (values.mapM index)
        k indices).exec env) Q := by
  obtain ⟨x, -, -, counted, -⟩ := ready.agrees.lookup bound
  have below := ready.agrees.below placed bound
  refine (offset_follows follows code placed hosted depth ready counted below .start (by simp)).bind ?_
  rintro _ env' s' ⟨reaches, indices, rfl, offset, -⟩
  rw [mapM_index]
  refine .bind_ok (rest x.sizes indices env' s' reaches ?_ ?_)
  · exact counted.imp fun o ho l => reaches.kept.operand o l (below o ho)
  · rwa [Int64.zero_mul, Int64.zero_add] at offset

/-- A machine that computes a value into the next register follows the same computation. -/
theorem follows_register {α : Type} {x : Eval α} {Q : α → Env → State → Prop} {r r' : Nat}
    {s' : State} {l : Literal} (reaches : Reaches ds F sc r s p env s') (le : r ≤ r')
    (placed : Placed sc ⟨r', c⟩) (moves : next m s' = .running (s'.setRegister r' l).advance)
    (rest : ∀ t, Reaches ds F sc r s (p.skip 1) env t → t.top.operand (.register r') = .ok l →
      Follows ds m fuel t (x.exec env) Q) : Follows ds m fuel s' (x.exec env) Q :=
  .after (.one reaches.ready.typed moves)
    (rest _ (reaches.setRegister le placed l) (operand_setRegister _ r' l))

/-- Operations either have a result of their type or trap. -/
theorem operate_follows {r r' : Nat} {op : Operation} {x y : Operand} {a b : Literal} {ty : Ty}
    {s' : State} (reaches : Reaches ds F sc r s p env s') (le : r ≤ r') (placed : Placed sc ⟨r', c⟩)
    (hosted : HostedAt F p [.binary r' op x y]) (left : s'.top.operand x = .ok a)
    (right : s'.top.operand y = .ok b) (typedLeft : a.type = ty) (typedRight : b.type = ty)
    (selected : op.surface.operationAt ty = .ok op) :
    Follows ds m fuel s' ((do
        return some (← Stateful.ofExcept (operate op a b ty)) : Eval (Option Literal)).exec env)
      fun l env' t => Reaches ds F sc r s (p.skip 1) env' t ∧ Yields t ty (some (.register r')) l := by
  have runs : next m s' = (s'.attempt (evalBinary op a b) fun value s =>
      .running (s.setRegister r' value).advance) := by
    rw [next_of_hosted reaches.ready.here hosted, execInstruction, left, right]
    rfl
  rw [evalBinary, typedLeft] at runs
  rcases Operation.eval_of_selected selected typedLeft typedRight with ⟨v, value⟩ | ⟨none, division⟩
  · rw [value] at runs
    rw [operate, value]
    refine follows_register reaches le placed runs fun t reached read => ?_
    exact .here ⟨reached, .value read (Operation.type_of_eval value)⟩
  · rw [none] at runs
    rw [operate, none]
    exact .fault (f := .arithmetic op) division reaches.ready.agrees.globals runs

/-- Comparisons of operands of one type have an answer. -/
theorem next_compare {r : Nat} {test : Predicate} {op : BinOp} {x y : Operand} {a b : Literal}
    {ty : Ty} (here : At F p s) (hosted : HostedAt F p [.compare r test x y])
    (left : s.top.operand x = .ok a) (right : s.top.operand y = .ok b) (typedLeft : a.type = ty)
    (typedRight : b.type = ty) (selected : op.predicateAt ty = .ok test) :
    ∃ answer, compare test a b = .ok answer ∧
      next m s = .running (s.setRegister r (.boolean answer)).advance := by
  obtain ⟨answer, holds⟩ := Predicate.holds_of_selected selected typedLeft typedRight
  refine ⟨answer, by rw [compare, holds], ?_⟩
  rw [next_of_hosted here hosted, execInstruction, left, right]
  show s.attempt (test.holds a b) _ = _
  rw [holds, State.attempt]

theorem next_store {slot : Slot} {ty : Ty} {o : Option Operand} {v : Operand} {n : Int64}
    {l : Literal} (here : At F p s) (hosted : HostedAt F p [.store slot ty o v])
    (offset : s.top.offset o = .ok n) (value : s.top.operand v = .ok l) :
    next m s = (s.attempt (do return ((← s.element slot n).1, l)) fun (position, value) s =>
      .running (s.write slot position value).advance) := by
  rw [next_of_hosted here hosted, execInstruction, offset, value]
  rfl

theorem kept_write (r : Nat) (s : State) (slot : Slot) (position : Nat) (l : Literal) :
    Kept r s (s.write slot position l).advance := by
  cases slot with
  | stack i => exact ⟨rfl, Array.size_modify, fun _ _ _ read => read⟩
  | global i => exact ⟨rfl, rfl, fun _ _ _ read => read⟩

theorem At.write (here : At F p s) (slot : Slot) (position : Nat) (l : Literal) :
    At F p (s.write slot position l) := by
  cases slot <;> exact ⟨here.function, here.block, here.next⟩

/-- Where the element exists the machine moves on to what the access does with it, and traps as the
evaluation does otherwise. -/
theorem access_follows {α : Type} {name : String} {slot : Slot} {ty : Ty} {sizes : List Operand}
    {indices counts : List Int64} {k : Variable → Nat → Eval α} {run : Nat × Literal → State → Outcome}
    {Q : α → Env → State → Prop} (ready : Ready ds F sc env p s)
    (bound : sc.lookup name = some (.var slot ty sizes)) (counted : Counted s.top sizes counts)
    (moves : next m s = s.attempt (s.element slot (flatten counts indices)) run)
    (rest : ∀ x i v, x.cell[i]? = some v → v.type = ty → next m s = run (i, v) s →
      Follows ds m fuel s ((k x i).exec env) Q) :
    Follows ds m fuel s ((do
        let x ← resolve name
        let i ← Stateful.ofExcept (x.position indices)
        k x i).exec env) Q := by
  obtain ⟨x, found, cell, counted', typed⟩ := ready.agrees.lookup bound
  have same : counts = x.sizes := counted.unique counted'
  subst same
  have resolved : (resolve name).exec env = (.ok x, env) := by
    simp [resolve, found]
  rw [Stateful.exec_bind_of_ok resolved]
  rcases element_of_position cell indices with ⟨i, v, position, value, element⟩ |
      ⟨i, n, position, element⟩
  · rw [element] at moves
    rw [position]
    exact .bind_ok (rest x i v value (typed v (Array.mem_of_getElem? value)) moves)
  · rw [element] at moves
    rw [position]
    exact .fault (f := .indexOutOfBounds i n) trivial ready.agrees.globals moves

theorem read_follows {r r' : Nat} {name : String} {slot : Slot} {ty : Ty} {sizes : List Operand}
    {o : Option Operand} {indices counts : List Int64} {s' : State}
    (reaches : Reaches ds F sc r s p env s') (le : r ≤ r') (placed : Placed sc ⟨r', c⟩)
    (hosted : HostedAt F p [.load r' slot ty o])
    (bound : sc.lookup name = some (.var slot ty sizes)) (counted : Counted s'.top sizes counts)
    (offset : Offset s' o (flatten counts indices)) :
    Follows ds m fuel s' ((read name indices).exec env) fun l env' t =>
      Reaches ds F sc r s (p.skip 1) env' t ∧ t.top.operand (.register r') = .ok l ∧ l.type = ty := by
  have moves : next m s' = (s'.attempt (s'.element slot (flatten counts indices))
      fun (_, value) s => .running (s.setRegister r' value).advance) := by
    rw [next_of_hosted reaches.ready.here hosted, execInstruction, offset.eq_ok]
    rfl
  refine access_follows reaches.ready bound counted moves fun x i v value typed moves => ?_
  rw [value]
  refine follows_register reaches le placed moves fun t reached read => ?_
  exact .here ⟨reached, read, typed⟩

theorem write_follows {r : Nat} {name : String} {slot : Slot} {ty : Ty} {sizes : List Operand}
    {o : Option Operand} {indices counts : List Int64} {v : Operand} {l : Literal} {s' : State}
    (reaches : Reaches ds F sc r s p env s') (placed : Placed sc ⟨r, c⟩)
    (hosted : HostedAt F p [.store slot ty o v])
    (bound : sc.lookup name = some (.var slot ty sizes)) (counted : Counted s'.top sizes counts)
    (offset : Offset s' o (flatten counts indices)) (value : s'.top.operand v = .ok l)
    (typed : l.type = ty) :
    Follows ds m fuel s' ((write name indices l).exec env) fun _ env' t =>
      Reaches ds F sc r s (p.skip 1) env' t ∧ t.top.operand v = .ok l := by
  have moves : next m s' = (s'.attempt (s'.element slot (flatten counts indices))
      fun (position, _) s => .running (s.write slot position l).advance) := by
    rw [next_store reaches.ready.here hosted offset.eq_ok value]
    cases s'.element slot (flatten counts indices) <;> rfl
  refine access_follows reaches.ready bound counted moves fun x i w old _ moves => ?_
  refine .after (.one reaches.ready.typed moves) (.here ⟨⟨⟨?_, ?_⟩, ?_⟩, ?_⟩)
  · exact (reaches.ready.agrees.write placed.distinct bound typed i).advance
  · exact (At.write reaches.ready.here slot i l).advance
  · exact reaches.kept.trans (kept_write r s' slot i l)
  · cases slot <;> exact value

/-- Two operands, evaluated from left to right, and what is done with them. -/
theorem operands_follow {α : Type} {left right : Converted} {k : Literal → Literal → Eval α}
    {Q : α → Env → State → Prop} (ihl : ExprFollows ds m fuel levels call left.value)
    (ihr : ExprFollows ds m fuel levels call right.value) {r r₁ r' : Nat}
    {is js : List Instruction} {v w : Operand}
    (codeLeft : ConvertedCode (signaturesOf ds) sc left r is v r₁)
    (codeRight : ConvertedCode (signaturesOf ds) sc right r₁ js w r') (placed : Placed sc ⟨r, c⟩)
    (hosted : HostedAt F p (is ++ js)) (depth : s.depth + levels = maxDepth)
    (ready : Ready ds F sc env p s)
    (rest : ∀ a b env' s', Reaches ds F sc r s (p.skip (is ++ js).length) env' s' → r ≤ r' →
      s'.top.operand v = .ok a → s'.top.operand w = .ok b → a.type = left.target →
      b.type = right.target → Follows ds m fuel s' ((k a b).exec env') Q) :
    Follows ds m fuel s ((do
        let a ← evalConverted call left
        let b ← evalConverted call right
        k a b).exec env) Q := by
  obtain ⟨start, last⟩ := hostedAt_append.mp hosted
  obtain ⟨grown, below⟩ := codeLeft.grows
  obtain ⟨grown', -⟩ := codeRight.grows
  refine (converted_follows ihl codeLeft placed start depth ready).bind ?_
  rintro a env₁ s₁ ⟨reaches, read, typed⟩
  refine (converted_follows ihr codeRight (placed.grow grown) last (reaches.kept.depth ▸ depth)
    reaches.ready).bind ?_
  rintro b env₂ s₂ ⟨reaches', read', typed'⟩
  refine rest a b env₂ s₂ ?_ (Nat.le_trans grown grown') (reaches'.kept.operand v a below read) read'
    typed typed'
  rw [List.length_append, ← Place.skip_skip]
  exact reaches.trans grown reaches'

/-! ## Calls -/

theorem operands_eq_ok {a : Activation} {vs : List Operand} {ls : List Literal}
    (h : List.Forall₂ (fun o l => a.operand o = .ok l) vs ls) : a.operands vs = .ok ls := by
  induction h with
  | nil => rfl
  | cons head tail ih =>
      rw [Activation.operands, head, ih]
      rfl

theorem call_returns (calls : CallsFollow ds m fuel levels call) {callee : String} {result : Ty}
    {arguments : List Converted} {g r r' : Nat} {is : List Instruction} {vs : List Operand}
    {dest : Option Nat}
    (follows : ∀ e ∈ arguments, ExprFollows ds m fuel levels call e.value)
    (bound : sc.lookup callee = some (.fn g))
    (known : signaturesOf ds g = some (result, arguments.map Converted.target))
    (code : ArgumentsCode (signaturesOf ds) sc arguments r is vs r') (placed : Placed sc ⟨r, c⟩)
    (hosted : HostedAt F p (is ++ [.call dest g vs])) (depth : s.depth + levels = maxDepth)
    (ready : Ready ds F sc env p s) :
    Follows ds m fuel s ((evalExpr call (.call callee result arguments)).exec env)
      fun v env' s' => ∃ env₁ s₁, Reaches ds F sc r s (p.skip is.length) env₁ s₁ ∧
        env'.inner = env₁.inner ∧ GlobalsAgree ds env'.globals s'.globals ∧
        s'.callers = s₁.callers ∧ s'.top = s₁.top.advance.receive dest v ∧ Results result v := by
  obtain ⟨start, last⟩ := hostedAt_append.mp hosted
  rw [evalExpr]
  refine (arguments_follow follows code placed start depth ready).bind ?_
  rintro ls env₁ s₁ ⟨reaches, reads, types⟩
  obtain ⟨f, found, rfl⟩ := reaches.ready.agrees.lookup_fn bound
  have signature : f.result = result ∧ f.parameters.map VarDecl.ty = arguments.map Converted.target := by
    simpa [signaturesOf, found] using known
  obtain ⟨rfl, parameters⟩ := signature
  have moves : next m s₁ = (s₁.attempt (activate m g ls s₁.depth) fun callee s =>
      .running (s.push dest callee)) := by
    rw [next_of_hosted reaches.ready.here last, execInstruction, operands_eq_ok reads]
    rfl
  refine (calls found (types.trans parameters.symm) (reaches.kept.depth ▸ depth)
    reaches.ready.agrees.globals moves).imp ?_
  rintro v env₂ s₂ ⟨inner, globals, callers, top, results⟩
  exact ⟨env₁, s₁, reaches, inner, globals, callers, top, results⟩

/-- A state that differs in its globals only. -/
theorem Reaches.swap {r : Nat} {env' : Env} {t s' : State} (h : Reaches ds F sc r s p env t)
    (top : s'.top = t.top) (callers : s'.callers = t.callers) (inner : env'.inner = env.inner)
    (globals : GlobalsAgree ds env'.globals s'.globals) : Reaches ds F sc r s p env' s' where
  ready.agrees := ⟨by rw [top, inner]; exact h.ready.agrees.locals, h.ready.agrees.visible, globals⟩
  ready.here := ⟨by rw [top]; exact h.ready.here.function, by rw [top]; exact h.ready.here.block,
    by rw [top]; exact h.ready.here.next⟩
  kept := ⟨callers.trans h.kept.callers, by rw [top]; exact h.kept.size,
    by rw [top]; exact h.kept.operand⟩

theorem Reaches.advance {r : Nat} {t : State} (h : Reaches ds F sc r s p env t) :
    Reaches ds F sc r s (p.skip 1) env t.advance where
  ready := ⟨h.ready.agrees.advance, h.ready.here.advance⟩
  kept := h.kept.trans ⟨rfl, rfl, fun _ _ _ read => read⟩

theorem advance_setRegister (a : Activation) (r : Nat) (l : Literal) :
    a.advance.setRegister r l = (a.setRegister r l).advance := by
  unfold Activation.setRegister Activation.advance
  split <;> rfl

/-! ## All expressions -/

theorem literal_follows (value : Literal) : ExprFollows ds m fuel levels call (.literal value) := by
  intro sc F r r' c is v p env s code placed hosted depth ready
  cases code
  rw [evalExpr]
  exact .here ⟨.refl ready _, .value rfl rfl⟩

theorem var_follows {name : String} {ty : Ty} {indices : List Converted}
    (ih : ∀ c ∈ indices, ExprFollows ds m fuel levels call c.value) :
    ExprFollows ds m fuel levels call (.var name ty indices) := by
  intro sc F r r' c is v p env s code placed hosted depth ready
  cases code with
  | var bound offset =>
      obtain ⟨start, last⟩ := hostedAt_append.mp hosted
      have grown := offset.grows
      rw [evalExpr, List.length_append, ← Place.skip_skip]
      refine indices_follow ih offset placed start depth ready bound ?_
      intro counts indices env₁ s₁ reaches counted offset₁
      refine (read_follows reaches grown (placed.grow grown) last bound counted offset₁).bind ?_
      rintro l env₂ s₂ ⟨reaches', read, typed⟩
      exact .here ⟨reaches', .value read typed⟩

theorem assign_follows {name : String} {ty : Ty} {indices : List Converted} {value : Converted}
    (ihs : ∀ c ∈ indices, ExprFollows ds m fuel levels call c.value)
    (ih : ExprFollows ds m fuel levels call value.value) :
    ExprFollows ds m fuel levels call (.assign name ty indices value) := by
  intro sc F r r' c is v p env s code placed hosted depth ready
  cases code with
  | @assign _ _ _ _ slot sizes _ r₁ _ is js v o assigned target bound offset =>
      rw [List.append_assoc] at hosted ⊢
      obtain ⟨start, rest⟩ := hostedAt_append.mp hosted
      obtain ⟨middle, last⟩ := hostedAt_append.mp rest
      obtain ⟨grown, below⟩ := assigned.grows
      rw [evalExpr, List.length_append, List.length_append, ← Place.skip_skip, ← Place.skip_skip]
      refine (converted_follows ih assigned placed start depth ready).bind ?_
      rintro l env₁ s₁ ⟨reaches, read, typed⟩
      refine indices_follow ihs offset (placed.grow grown) middle (reaches.kept.depth ▸ depth)
        reaches.ready bound ?_
      intro counts indices env₂ s₂ reaches' counted offset₂
      refine (write_follows (reaches.trans grown reaches') placed last bound counted offset₂
        (reaches'.kept.operand v l below read) (typed.trans target)).bind ?_
      rintro - env₃ s₃ ⟨reaches'', read'⟩
      exact .here ⟨reaches'', .value read' (typed.trans target)⟩

theorem negate_follows {op : Operation} {zero : Literal} {operand : Expr}
    (ih : ExprFollows ds m fuel levels call operand) :
    ExprFollows ds m fuel levels call (.negate op zero operand) := by
  intro sc F r r' c is v p env s code placed hosted depth ready
  cases code with
  | @negate _ _ _ _ r₁ is v start selected code =>
      obtain ⟨first, last⟩ := hostedAt_append.mp hosted
      have grown := code.grows
      rw [evalExpr]
      refine (ih code placed first depth ready).bind ?_
      rintro _ env₁ s₁ ⟨reaches, yields⟩
      cases yields with
      | value read typed =>
          refine .bind_ok ?_
          have surface : op.surface = .arith .sub := Operation.surface_of_operationAt selected
          rw [List.length_append, ← Place.skip_skip]
          exact operate_follows reaches grown (placed.grow grown) last rfl read
            (Literal.type_of_zero start) typed (surface ▸ selected)

theorem arith_follows {op : Operation} {left right : Converted}
    (ihl : ExprFollows ds m fuel levels call left.value)
    (ihr : ExprFollows ds m fuel levels call right.value) :
    ExprFollows ds m fuel levels call (.arith op left right) := by
  intro sc F r r' c is v p env s code placed hosted depth ready
  cases code with
  | arith same selected codeLeft codeRight =>
      obtain ⟨start, last⟩ := hostedAt_append.mp hosted
      rw [evalExpr, List.length_append, ← Place.skip_skip]
      refine operands_follow ihl ihr codeLeft codeRight placed start depth ready ?_
      intro a b env₂ s₂ reaches grown readLeft readRight typedLeft typedRight
      exact operate_follows reaches grown (placed.grow grown) last readLeft readRight typedLeft
        (typedRight.trans same) selected

theorem compare_follows {test : Predicate} {left right : Converted}
    (ihl : ExprFollows ds m fuel levels call left.value)
    (ihr : ExprFollows ds m fuel levels call right.value) :
    ExprFollows ds m fuel levels call (.compare test left right) := by
  intro sc F r r' c is v p env s code placed hosted depth ready
  cases code with
  | compare same selected codeLeft codeRight =>
      obtain ⟨start, last⟩ := hostedAt_append.mp hosted
      rw [evalExpr, List.length_append, ← Place.skip_skip]
      refine operands_follow ihl ihr codeLeft codeRight placed start depth ready ?_
      intro a b env₂ s₂ reaches grown readLeft readRight typedLeft typedRight
      obtain ⟨answer, compared, moves⟩ := next_compare (m := m) reaches.ready.here last readLeft
        readRight typedLeft (typedRight.trans same) selected
      rw [compared]
      refine follows_register reaches grown (placed.grow grown) moves fun t reached read => ?_
      exact .here ⟨reached, .value read rfl⟩

theorem call_follows (calls : CallsFollow ds m fuel levels call) {callee : String} {result : Ty}
    {arguments : List Converted} (ih : ∀ c ∈ arguments, ExprFollows ds m fuel levels call c.value) :
    ExprFollows ds m fuel levels call (.call callee result arguments) := by
  intro sc F r r' c is v p env s code placed hosted depth ready
  cases code with
  | @call _ _ _ g _ r₁ is vs bound known valued code =>
      have grown := code.grows.1
      refine (call_returns calls ih bound known code placed hosted depth ready).imp ?_
      rintro _ env' s' ⟨env₁, s₁, reaches, inner, globals, callers, top, results⟩
      rw [List.length_append, ← Place.skip_skip]
      cases results with
      | nothing void => exact absurd void valued
      | @value l typed =>
          have back : s'.top = (s₁.setRegister r₁ l).advance.top :=
            top.trans (advance_setRegister s₁.top r₁ l)
          have reached := reaches.setRegister grown (placed.grow grown) l
          refine ⟨reached.swap back callers inner globals, .value ?_ typed⟩
          rw [back]
          exact operand_setRegister _ r₁ l
  | callVoid bound known code =>
      refine (call_returns calls ih bound known code placed hosted depth ready).imp ?_
      rintro v env' s' ⟨env₁, s₁, reaches, inner, globals, callers, top, results⟩
      rw [List.length_append, ← Place.skip_skip]
      cases results with
      | nothing void => exact ⟨reaches.advance.swap top callers inner globals, .nothing rfl⟩
      | value typed => exact absurd typed (Literal.type_ne_void _)

theorem exprFollows (calls : CallsFollow ds m fuel levels call) (e : Expr) :
    ExprFollows ds m fuel levels call e := by
  induction e using Expr.treeInduction with
  | literal value => exact literal_follows value
  | var name ty indices ih => exact var_follows ih
  | assign name ty indices value ihs ih => exact assign_follows ihs ih
  | negate op zero operand ih => exact negate_follows ih
  | arith op left right ihl ihr => exact arith_follows ihl ihr
  | compare test left right ihl ihr => exact compare_follows ihl ihr
  | call callee result arguments ih => exact call_follows calls ih

end

end ImpLower.Semantics
