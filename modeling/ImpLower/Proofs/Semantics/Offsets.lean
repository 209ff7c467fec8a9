import ImpLower.Proofs.Machine.Locations
import ImpLower.Proofs.Semantics.Following
import ImpLower.Proofs.Semantics.RowMajor

/-!
# Reaching a place

What holds of the state that code for an expression leads to, and the code that computes offsets and
lengths. Such code never fails and touches nothing but fresh registers. Where there is room for the
elements of the array, its words do not wrap around.
-/

namespace ImpLower.Semantics

open Code Machine Typed

/-- From `s`, code that writes registers from `r` on has come to the place. -/
structure Reaches (ds : List Decl) (F : Function) (sc : Names) (r : Nat) (s : State) (p : Place)
    (env : Env) (s' : State) : Prop where
  ready : Ready ds F sc env p s'
  kept : Kept r s s'

namespace Reaches

variable {ds : List Decl} {m : Code.Module} {F : Function} {sc : Names} {r r' c : Nat}
  {s s₁ s' : State} {p q : Place} {env env' : Env}

theorem refl (ready : Ready ds F sc env p s) (r : Nat) : Reaches ds F sc r s p env s :=
  ⟨ready, .refl r s⟩

theorem trans (h : Reaches ds F sc r s p env s₁) (le : r ≤ r')
    (h' : Reaches ds F sc r' s₁ q env' s') : Reaches ds F sc r s q env' s' :=
  ⟨h'.ready, h.kept.trans (h'.kept.mono le)⟩

theorem setRegister (h : Reaches ds F sc r s p env s') (le : r ≤ r')
    (placed : Placed sc ⟨r', c⟩) (l : Literal) :
    Reaches ds F sc r s (p.skip 1) env (s'.setRegister r' l).advance :=
  ⟨h.ready.setRegister placed l, h.kept.trans ((kept_setRegister s' r' l).mono le)⟩

end Reaches

theorem Counted.unique {a : Activation} {sizes : List Operand} {counts counts' : List Int64}
    (h : Counted a sizes counts) (h' : Counted a sizes counts') : counts = counts' := by
  induction h generalizing counts' with
  | nil =>
      cases h'
      rfl
  | cons head tail ih =>
      cases h' with
      | cons head' tail' =>
          cases head.symm.trans head'
          rw [ih tail']

theorem Agrees.below {ds : List Decl} {sc : Names} {env : Env} {s : State} {r c : Nat}
    (h : Agrees ds sc env s) (placed : Placed sc ⟨r, c⟩) {name : String} {slot : Slot} {ty : Ty}
    {sizes : List Operand} (bound : sc.lookup name = some (.var slot ty sizes)) :
    ∀ o ∈ sizes, o.Below r := by
  rw [lookup_eq_or] at bound
  rcases lookup_local h.locals.flatten name with ⟨missing, -⟩ | ⟨st, x, found, -, local_⟩
  · rw [missing, Option.none_or, ← Scope.lookup_nil] at bound
    obtain ⟨i, g, rfl, -, -, -, rfl⟩ := h.visible.var bound
    intro o ho
    obtain ⟨n, -, rfl⟩ := List.mem_map.mp ho
    trivial
  · rw [found, Option.some_or] at bound
    cases bound
    have reserved := placed.reserved _ (mem_of_lookup found)
    cases local_
    exact reserved.2

/-! ## Arithmetic on offsets -/

/-- The offset of the dimensions passed so far; at first it is zero and nowhere. -/
inductive Offset (s : State) : Option Operand → Int64 → Prop
  | start : Offset s none 0
  | passed {o : Operand} {n : Int64} (read : s.top.operand o = .ok (.long n)) : Offset s (some o) n

theorem Offset.eq_ok {s : State} {o : Option Operand} {n : Int64} (h : Offset s o n) :
    s.top.offset o = .ok n := by
  cases h with
  | start => rfl
  | passed read =>
      rw [Activation.offset, read]
      rfl

theorem Offset.keep {s s' : State} {o : Option Operand} {n : Int64} {r : Nat} (h : Offset s o n)
    (below : ∀ x, o = some x → x.Below r) (kept : Kept r s s') : Offset s' o n := by
  cases h with
  | start => exact .start
  | passed read => exact .passed (kept.operand _ _ (below _ rfl) read)

/-- One step of a machine that applies an operation to two words; the result is what `f` gives for the
integers. -/
inductive ExactStep (m : Code.Module) (op : Operation) (f : Int → Int → Int) (x y : Operand)
    (s : State) : Operand → State → Prop
  | mk {r : Nat} {a b n : Int64} (here : s.top.instruction? = some (.binary r op x y))
      (left : s.top.operand x = .ok (.long a)) (right : s.top.operand y = .ok (.long b))
      (moves : next m s = .running (s.setRegister r (.long n)).advance)
      (same : n.toInt = f a.toInt b.toInt) :
      ExactStep m op f x y s (.register r) (s.setRegister r (.long n)).advance

abbrev Multiplies (m : Code.Module) := ExactStep m (.int .mul) (· * ·)

abbrev Adds (m : Code.Module) := ExactStep m (.int .add) (· + ·)

/-- An offset is multiplied by sizes, one after the other. -/
inductive ScalesExactly (m : Code.Module) :
    Operand → List Operand → State → Operand → State → Prop
  | nil {o : Operand} {s : State} : ScalesExactly m o [] s o s
  | cons {o n o₁ o' : Operand} {ns : List Operand} {s s₁ s' : State}
      (step : Multiplies m o n s o₁ s₁) (tail : ScalesExactly m o₁ ns s₁ o' s') :
      ScalesExactly m o (n :: ns) s o' s'

/-- An index is added to the offset of the dimensions before it, which is first multiplied by the size
of its own dimension. -/
inductive AddsIndexExactly (m : Code.Module) (n i : Operand) :
    Option Operand → State → Operand → State → Prop
  | first {s : State} : AddsIndexExactly m n i none s i s
  | next {o o₁ o₂ : Operand} {s s₁ s₂ : State} (scaled : Multiplies m o n s o₁ s₁)
      (added : Adds m o₁ i s₁ o₂ s₂) : AddsIndexExactly m n i (some o) s o₂ s₂

/-- From `s` the machine runs the code of an access in the function `F`: the code of each index, which
leaves a word, and after it the arithmetic on the offset, which never wraps around. -/
inductive ComputesOffset (ds : List Decl) (m : Code.Module) (F : Function) (sc : Names) :
    List Converted → List Operand → Option Operand → State → List Int64 → Option Operand → State → Prop
  | whole {sizes : List Operand} {s : State} : ComputesOffset ds m F sc [] sizes none s [] none s
  | scaled {sizes : List Operand} {o o' : Operand} {s s' : State}
      (scale : ScalesExactly m o sizes s o' s') :
      ComputesOffset ds m F sc [] sizes (some o) s [] (some o') s'
  | cons {c : Converted} {rest : List Converted} {n v o : Operand} {sizes : List Operand}
      {before after : Option Operand} {r r₁ k : Nat} {is : List Instruction} {p : Place}
      {s s₁ s₂ s' : State} {i : Int64} {indices : List Int64}
      (code : ConvertedCode (signaturesOf ds) sc c r is v r₁) (start : At F p s)
      (hosted : HostedAt F p is) (run : Steps m (GlobalsTyped ds) k s s₁)
      (stop : At F (p.skip is.length) s₁) (back : s₁.callers = s.callers)
      (value : s₁.top.operand v = .ok (.long i))
      (step : AddsIndexExactly m n v before s₁ o s₂)
      (tail : ComputesOffset ds m F sc rest sizes (some o) s₂ indices after s') :
      ComputesOffset ds m F sc (c :: rest) (n :: sizes) before s (i :: indices) after s'

section

variable {ds : List Decl} {m : Code.Module} {F : Function} {sc : Names} {c : Nat} {env : Env}

theorem next_binary_long {p : Place} {s : State} {r : Nat} {op : Operation} {x y : Operand}
    {a b n : Int64} (here : At F p s) (hosted : HostedAt F p [.binary r op x y])
    (left : s.top.operand x = .ok (.long a)) (right : s.top.operand y = .ok (.long b))
    (value : op.eval (.long a) (.long b) .long = some (.long n)) :
    next m s = .running (s.setRegister r (.long n)).advance := by
  have result : (do
      let l ← s.top.operand x
      evalBinary op l (← s.top.operand y)) = (.ok (.long n) : Except Trap Literal) := by
    rw [left, right]
    show evalBinary op (.long a) (.long b) = _
    rw [evalBinary, Literal.type, value]
  rw [next_of_hosted here hosted, execInstruction, result, State.attempt]

theorem exactStep_of_hosted {p : Place} {s : State} {r : Nat} {op : Operation} {f : Int → Int → Int}
    {x y : Operand} {a b n : Int64} (here : At F p s) (hosted : HostedAt F p [.binary r op x y])
    (left : s.top.operand x = .ok (.long a)) (right : s.top.operand y = .ok (.long b))
    (moves : next m s = .running (s.setRegister r (.long n)).advance)
    (same : n.toInt = f a.toInt b.toInt) :
    ExactStep m op f x y s (.register r) (s.setRegister r (.long n)).advance :=
  .mk (instruction?_of_hosted here hosted) left right moves same

theorem scale_follows {o o' : Operand} {sizes : List Operand} {r r' : Nat} {is : List Instruction}
    (code : ScaleCode o sizes r is o' r') {s : State} {p : Place} {a : Int64} {counts : List Int64}
    (placed : Placed sc ⟨r, c⟩) (hosted : HostedAt F p is) (ready : Ready ds F sc env p s)
    (read : s.top.operand o = .ok (.long a)) (counted : Counted s.top sizes counts)
    (below : ∀ n ∈ sizes, n.Below r) :
    ∃ n s', Steps m (GlobalsTyped ds) n s s' ∧ Reaches ds F sc r s (p.skip is.length) env s' ∧
      s'.top.operand o' = .ok (.long (a * elements counts)) ∧
      (Roomy a counts → ScalesExactly m o sizes s o' s') := by
  induction code generalizing s p a counts with
  | nil =>
      cases counted
      exact ⟨0, s, .refl, .refl ready _, by simpa [elements] using read, fun _ => .nil⟩
  | @cons o n o' ns r r' is tail ih =>
      cases counted with
      | @cons _ count _ counts readCount counted =>
          obtain ⟨here, rest⟩ := hostedAt_append.mp (show HostedAt F p ([_] ++ is) from hosted)
          have moves := next_binary_long (m := m) ready.here here read readCount
            (Operation.eval_mul_long a count)
          have reached := (Reaches.refl ready r).setRegister (Nat.le_refl r) placed
            (.long (a * count))
          have counted' := Counted.imp counted fun x hx l =>
            reached.kept.operand x l (below x (List.mem_cons_of_mem _ hx))
          obtain ⟨k, s', steps, reaches, value, scales⟩ := ih (placed.grow (Nat.le_succ r))
            rest reached.ready (operand_setRegister s.top r _) counted'
            fun x hx => (below x (List.mem_cons_of_mem _ hx)).mono (Nat.le_succ r)
          refine ⟨1 + k, s', (Steps.one ready.typed moves).trans steps, ?_, ?_, fun roomy => ?_⟩
          · rw [List.length_cons, Nat.add_comm, ← Place.skip_skip]
            exact reached.trans (Nat.le_succ r) reaches
          · rw [elements_scale]
            exact value
          · have step : Multiplies m o n s (.register r) _ :=
              exactStep_of_hosted ready.here here read readCount moves roomy.toInt_mul
            exact .cons step (scales roomy.scale)

theorem index_follows {n i o : Operand} {before : Option Operand} {r r' : Nat}
    {is : List Instruction} (code : IndexCode n i before r is o r') {s : State} {p : Place}
    {base count index : Int64} (placed : Placed sc ⟨r, c⟩) (hosted : HostedAt F p is)
    (ready : Ready ds F sc env p s) (offset : Offset s before base)
    (size : s.top.operand n = .ok (.long count)) (value : s.top.operand i = .ok (.long index))
    (below : i.Below r) :
    ∃ k s', Steps m (GlobalsTyped ds) k s s' ∧ Reaches ds F sc r s (p.skip is.length) env s' ∧
      s'.top.operand o = .ok (.long (base * count + index)) ∧
      ∀ counts, Roomy base (count :: counts) → 0 ≤ index.toInt → index.toInt < count.toInt →
        AddsIndexExactly m n i before s o s' := by
  cases code with
  | first =>
      cases offset
      exact ⟨0, s, .refl, .refl ready _, by simpa using value, fun _ _ _ _ => .first⟩
  | @next o r =>
      cases offset with
      | passed read =>
          obtain ⟨scale, add⟩ :=
            hostedAt_append.mp (show HostedAt F p ([_] ++ [_]) from hosted)
          have first := next_binary_long (m := m) ready.here scale read size
            (Operation.eval_mul_long base count)
          have reached := (Reaches.refl ready r).setRegister (Nat.le_refl r) placed
            (.long (base * count))
          have second := next_binary_long (m := m) reached.ready.here add
            (operand_setRegister s.top r _) (reached.kept.operand i _ below value)
            (Operation.eval_add_long _ index)
          have reached' := reached.setRegister (Nat.le_succ r)
            (placed.grow (Nat.le_succ r)) (.long (base * count + index))
          refine ⟨2, _, .step ready.typed first (.one reached.ready.typed second), ?_,
            operand_setRegister _ (r + 1) _, fun counts roomy lower upper => ?_⟩
          · exact Place.skip_skip p 1 1 ▸ reached'
          · have scaled : Multiplies m o n s (.register r) _ :=
              exactStep_of_hosted ready.here scale read size first roomy.toInt_mul
            have added : Adds m (.register r) i _ (.register (r + 1)) _ :=
              exactStep_of_hosted reached.ready.here add (operand_setRegister s.top r _)
                (reached.kept.operand i _ below value) second (roomy.toInt_mul_add lower upper)
            exact .next scaled added

theorem length_follows {sizes : List Operand} {length : Option Operand} {r r' : Nat}
    {is : List Instruction} (code : LengthCode sizes r is length r') {s : State} {p : Place}
    {counts : List Int64} (placed : Placed sc ⟨r, c⟩) (hosted : HostedAt F p is)
    (ready : Ready ds F sc env p s) (counted : Counted s.top sizes counts)
    (below : ∀ n ∈ sizes, n.Below r) :
    ∃ n s', Steps m (GlobalsTyped ds) n s s' ∧ Reaches ds F sc r s (p.skip is.length) env s' ∧
      s'.top.length length = if elements counts < 0 then .error (.invalidLength (elements counts).toInt)
        else .ok (elements counts).toInt.toNat := by
  cases code with
  | scalar =>
      cases counted
      exact ⟨0, s, .refl, .refl ready _, rfl⟩
  | array scale =>
      cases counted with
      | cons read counted =>
          obtain ⟨n, s', steps, reaches, value, -⟩ := scale_follows scale placed hosted ready read
            counted fun x hx => below x (List.mem_cons_of_mem _ hx)
          refine ⟨n, s', steps, reaches, ?_⟩
          rw [Activation.length, value]
          rfl

end

/-! ## Elements -/

/-- The machine finds an element exactly where the evaluator does. -/
theorem element_of_position {s : State} {slot : Slot} {x : Variable} (cell : s.cell slot = .ok x.cell)
    (indices : List Int64) :
    (∃ i v, x.position indices = .ok i ∧ x.cell[i]? = some v ∧
        s.element slot (flatten x.sizes indices) = .ok (i, v)) ∨
      ∃ i n, x.position indices = .error (.fault (.indexOutOfBounds i n)) ∧
        s.element slot (flatten x.sizes indices) = .error (.indexOutOfBounds i n) := by
  unfold State.element Variable.position
  rw [cell]
  cases (flatten x.sizes indices).toInt with
  | ofNat i =>
      by_cases lt : i < x.cell.size
      · refine .inl ⟨i, x.cell[i], ?_, Array.getElem?_eq_getElem lt, ?_⟩
        · simp [lt]
        · simp only [bind, Except.bind, Array.getElem?_eq_getElem lt]
          rfl
      · refine .inr ⟨i, x.cell.size, ?_, ?_⟩
        · simp [lt]
        · simp only [bind, Except.bind, Array.getElem?_eq_none (Nat.le_of_not_lt lt)]
          rfl
  | negSucc i =>
      refine .inr ⟨_, x.cell.size, ?_, rfl⟩
      simp

section

variable {s : State} {slot : Slot} {x : Variable} {indices : List Int64}

/-- An element in the lower half is where its offset says. -/
theorem element_of_lower (cell : s.cell slot = .ok x.cell) (lower : 0 ≤ rowMajor x.sizes indices)
    (upper : rowMajor x.sizes indices < x.cell.size) (half : rowMajor x.sizes indices < 2 ^ 63) :
    (flatten x.sizes indices).toInt = rowMajor x.sizes indices ∧
      ∃ v, s.element slot (flatten x.sizes indices) = .ok ((rowMajor x.sizes indices).toNat, v) := by
  have word : (flatten x.sizes indices).toInt = rowMajor x.sizes indices := by
    rw [toInt_flatten]
    exact wrapped_eq_self_iff.mpr ⟨by omega, by omega⟩
  have position : x.position indices = .ok (rowMajor x.sizes indices).toNat := by
    rw [Variable.position, word]
    exact if_pos ⟨lower, upper⟩
  rcases element_of_position cell indices with ⟨i, v, found, -, element⟩ | ⟨i, n, missing, -⟩
  · cases position.symm.trans found
    exact ⟨word, v, element⟩
  · cases position.symm.trans missing

/-- An element in the upper half has a negative offset, so it is out of bounds. -/
theorem element_of_upper (cell : s.cell slot = .ok x.cell) (half : 2 ^ 63 ≤ rowMajor x.sizes indices)
    (unsigned : rowMajor x.sizes indices < 2 ^ 64) :
    (flatten x.sizes indices).toInt = rowMajor x.sizes indices - 2 ^ 64 ∧
      s.element slot (flatten x.sizes indices) =
        .error (.indexOutOfBounds (rowMajor x.sizes indices - 2 ^ 64) x.cell.size) := by
  have word : (flatten x.sizes indices).toInt = rowMajor x.sizes indices - 2 ^ 64 := by
    rw [toInt_flatten, wrapped_of_unsigned (by omega) unsigned, if_neg (by omega)]
  have position : x.position indices =
      .error (.fault (.indexOutOfBounds (rowMajor x.sizes indices - 2 ^ 64) x.cell.size)) := by
    rw [Variable.position, word]
    exact if_neg (by omega)
  rcases element_of_position cell indices with ⟨i, v, found, -⟩ | ⟨i, n, missing, element⟩
  · cases position.symm.trans found
  · cases position.symm.trans missing
    exact ⟨word, element⟩

end

end ImpLower.Semantics
