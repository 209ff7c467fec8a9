import ImpLower.Proofs.Code.Shape
import ImpLower.Proofs.Lower.Ledgers
import ImpLower.Proofs.Lower.Stmt
import ImpLower.Proofs.Lower.Straight

/-!
# Where lowering ends

From an open block, lowering that succeeds ends in a block of the same function. That block is closed
just if control can never run past what was lowered. On the way, only the first block and new ones are
touched, branches lead to new blocks only, and a block is closed as unreachable only where nothing leads
to it. Nothing is assumed of what is lowered.
-/

namespace ImpLower.Code.Draft

variable {d d' : Draft} {f b : Nat} {F : Function}

/-- A straight request only adds instructions to the block at the insertion point. -/
theorem straight_focus_eq_ok (h : d.Hosts f F) {r : DraftRequest} (straight : r.isStraight = true)
    {v : r.Reply Module} (ok : (perform r).exec (d.focus f F b) = (.ok v, d')) :
    ∃ is k, d' = d.focus f (F.emit b is k) b := by
  cases r with
  | constant value =>
      cases ok
      exact ⟨[], F.counters, by rw [Function.emit_nil]⟩
  | alloca ty length name =>
      obtain ⟨-, -, rfl⟩ := appendAlloca_focus_eq_ok h ok
      exact ⟨_, _, rfl⟩
  | store slot ty offset value =>
      obtain ⟨-, rfl⟩ := append_focus_eq_ok h ok
      exact ⟨_, _, rfl⟩
  | load slot ty offset name =>
      obtain ⟨-, -, rfl⟩ := appendDef_focus_eq_ok (i := (.load · slot ty offset)) h ok
      exact ⟨_, _, rfl⟩
  | binary op left right name =>
      obtain ⟨-, -, rfl⟩ := appendDef_focus_eq_ok (i := (.binary · op left right)) h ok
      exact ⟨_, _, rfl⟩
  | compare test left right name =>
      obtain ⟨-, -, rfl⟩ := appendDef_focus_eq_ok (i := (.compare · test left right)) h ok
      exact ⟨_, _, rfl⟩
  | convert conversion value target name =>
      obtain ⟨-, -, rfl⟩ := appendDef_focus_eq_ok (i := (.convert · conversion value target)) h ok
      exact ⟨_, _, rfl⟩
  | call callee arguments name =>
      obtain ⟨G, u, looked, called⟩ := Stateful.exec_bind_eq_ok.mp ok
      obtain ⟨-, rfl⟩ := consult_eq_ok.mp looked
      split at called
      · obtain ⟨_, d₁, appended, last⟩ := Stateful.exec_bind_eq_ok.mp called
        cases last
        obtain ⟨-, rfl⟩ := append_focus_eq_ok h appended
        exact ⟨_, _, rfl⟩
      · obtain ⟨_, d₁, appended, last⟩ := Stateful.exec_bind_eq_ok.mp called
        cases last
        obtain ⟨-, -, rfl⟩ := appendDef_focus_eq_ok
          (i := fun dest => .call (some dest) callee arguments) h appended
        exact ⟨_, _, rfl⟩
  | addFunction name result parameters => cases straight
  | global ty length initializer name => cases straight
  | branch target => cases straight
  | condBranch condition onTrue onFalse => cases straight
  | switch value default cases => cases straight
  | ret value => cases straight
  | unreachable => cases straight
  | finish => cases straight

end ImpLower.Code.Draft

namespace ImpLower.Lower

open Code Typed Stateful

/-- Every successful run of `m` from the end of block `b` of a function of the given shape ends in a
block of the same function, as `Q` says. -/
def Ensures {α : Type} (d : Draft) (f : Nat) (m : Lower Draft Operand Slot Nat α) (s : Shape)
    (b : Nat) (Q : α → Shape → Nat → Prop) : Prop :=
  ∀ (F : Function) (sc : Names) (a : α) (t : Lowering Draft Operand Slot Nat), d.Hosts f F →
    F.shape = s → m.exec (atEnd d f F b sc) = (.ok a, t) →
    ∃ G b' sc', t = atEnd d f G b' sc' ∧ d.Hosts f G ∧ Q a G.shape b'

variable {d : Draft} {f : Nat} {s : Shape} {b : Nat} {site : Construct}

namespace Ensures

variable {α β : Type} {m : Lower Draft Operand Slot Nat α} {k : α → Lower Draft Operand Slot Nat β}
  {Q Q' : α → Shape → Nat → Prop} {R : β → Shape → Nat → Prop}

theorem pure {a : α} (h : Q a s b) : Ensures d f (Pure.pure a) s b Q := by
  intro F sc a' t hosts shape run
  cases run
  exact ⟨F, b, sc, rfl, hosts, shape ▸ h⟩

theorem bind (head : Ensures d f m s b Q)
    (tail : ∀ a s' b', Q a s' b' → Ensures d f (k a) s' b' R) : Ensures d f (m >>= k) s b R := by
  intro F sc c t hosts shape run
  obtain ⟨a, u, first, second⟩ := exec_bind_eq_ok.mp run
  obtain ⟨G, b', sc', rfl, hosts', holds⟩ := head F sc a u hosts shape first
  exact tail a G.shape b' holds G sc' c t hosts' rfl second

theorem imp (h : Ensures d f m s b Q) (weaken : ∀ a s' b', Q a s' b' → Q' a s' b') :
    Ensures d f m s b Q' := by
  intro F sc a t hosts shape run
  obtain ⟨G, b', sc', rfl, hosts', holds⟩ := h F sc a t hosts shape run
  exact ⟨G, b', sc', rfl, hosts', weaken _ _ _ holds⟩

/-- A frame around the work is not seen in the code. -/
theorem withFrame (h : Ensures d f m s b Q) : Ensures d f (ImpLower.withFrame m) s b Q := by
  intro F sc a t hosts shape run
  obtain ⟨u, inside, rfl⟩ := withFrame_eq_ok.mp run
  obtain ⟨G, b', sc', rfl, hosts', holds⟩ := h F sc.enter a u hosts shape inside
  exact ⟨G, b', sc'.unwind sc.depth, rfl, hosts', holds⟩

end Ensures

/-! ## Single steps -/

/-- The step leaves the shape and the block as they were. -/
def Stands {α : Type} (s : Shape) (b : Nat) (P : α → Prop) (a : α) (s' : Shape) (b' : Nat) : Prop :=
  s = s' ∧ b = b' ∧ P a

/-- The step closes the block, which was open. -/
def Closes {α : Type} (s : Shape) (b : Nat) (t : Terminator) (_ : α) (s' : Shape) (b' : Nat) : Prop :=
  s.IsOpen b ∧ s.close b t = s' ∧ b = b'

theorem ensures_straight {α : Type} {m m' : Lower Draft Operand Slot Nat α} (h : Straight m m') :
    Ensures d f m s b (Stands s b fun _ => True) := by
  induction h with
  | looks keeps _ =>
      intro F sc a t hosts shape run
      have same := keeps (atEnd d f F b sc)
      rw [run] at same
      exact ⟨F, b, sc, same, hosts, shape.symm, rfl, trivial⟩
  | asks site r straight =>
      intro F sc a t hosts shape run
      obtain ⟨d', ok, rfl⟩ := request_eq_ok run
      obtain ⟨is, k, rfl⟩ := Draft.straight_focus_eq_ok hosts straight ok
      exact ⟨F.emit b is k, b, sc, rfl, hosts, by rw [Function.shape_emit, shape], rfl, trivial⟩
  | bind _ _ head tail =>
      refine head.bind ?_
      rintro a _ _ ⟨rfl, rfl, -⟩
      exact tail a

theorem ensures_isClosed {o : Option Terminator} (here : s[b]? = some o) :
    Ensures d f isClosed s b (Stands s b fun closed => closed = o.isSome) := by
  intro F sc a t hosts shape run
  subst shape
  rw [Function.getElem?_shape, Option.map_eq_some_iff] at here
  obtain ⟨B, hB, rfl⟩ := here
  rw [exec_isClosed hosts hB] at run
  cases run
  exact ⟨F, b, sc, rfl, hosts, rfl, rfl, rfl⟩

theorem ensures_enclosingFunction :
    Ensures d f (enclosingFunction site) s b (Stands s b fun g => f = g) := by
  intro F sc a t hosts shape run
  cases run
  exact ⟨F, b, sc, rfl, hosts, shape.symm, rfl, rfl⟩

theorem ensures_moveTo (i : Nat) :
    Ensures d f (moveTo ⟨f, i⟩) s b fun _ s' b' => s = s' ∧ i = b' := by
  intro F sc a t hosts shape run
  cases run
  exact ⟨F, i, sc, rfl, hosts, shape.symm, rfl⟩

theorem ensures_declare {name : String} {storage : Storage Operand Slot Nat} :
    Ensures d f (declare name storage site) s b (Stands s b fun _ => True) := by
  intro F sc a t hosts shape run
  simp only [declare, atEnd, Stateful.exec_ofFn] at run
  split at run
  · next scope declared =>
      cases run
      exact ⟨F, b, scope, rfl, hosts, shape.symm, rfl, trivial⟩
  · cases run

theorem ensures_addBlock (label : String) :
    Ensures d f (addBlock f label) s b fun B s' b' =>
      BlockId.mk f s.length = B ∧ s.grow = s' ∧ b = b' := by
  intro F sc B t hosts shape run
  have added := Draft.addBlock_focus hosts (b := b) label
  simp only [addBlock, Emitter.addBlock, atEnd, Stateful.exec_ofFn, added] at run
  cases run
  subst shape
  exact ⟨F.grow label, b, sc, rfl, hosts, by rw [Function.length_shape], by rw [Function.shape_grow],
    rfl⟩

/-- A request that closes the block at the insertion point. -/
theorem ensures_close {r : DraftRequest} {t : Terminator}
    (closes : ∀ {F v d'}, d.Hosts f F → (Draft.perform r).exec (d.focus f F b) = (.ok v, d') →
      F.IsOpen b ∧ d' = d.focus f (F.close b t) b) :
    Ensures d f (request site r) s b (Closes s b t) := by
  intro F sc a u hosts shape run
  obtain ⟨d', ok, rfl⟩ := request_eq_ok run
  obtain ⟨isOpen, rfl⟩ := closes hosts ok
  subst shape
  exact ⟨F.close b t, b, sc, rfl, hosts, Function.isOpen_shape.mpr isOpen,
    (Function.shape_close F b t).symm, rfl⟩

theorem ensures_branch (i : Nat) :
    Ensures d f (request site (.branch ⟨f, i⟩)) s b (Closes s b (.branch i)) :=
  ensures_close fun hosts closed => by
    rw [Draft.perform_branch_focus] at closed
    exact Draft.close_focus_eq_ok hosts closed

theorem ensures_condBranch (v : Operand) (i j : Nat) :
    Ensures d f (request site (.condBranch v ⟨f, i⟩ ⟨f, j⟩)) s b (Closes s b (.condBranch v i j)) :=
  ensures_close fun hosts closed => by
    rw [Draft.perform_condBranch_focus] at closed
    exact Draft.close_focus_eq_ok hosts closed

theorem ensures_switch (v : Operand) (default : Nat) (entries : List (Literal × Nat)) :
    Ensures d f (request site (.switch v ⟨f, default⟩
      (entries.map fun c => (c.1, BlockId.mk f c.2)))) s b (Closes s b (.switch v default entries)) :=
  ensures_close fun hosts closed => by
    rw [Draft.perform_switch_focus] at closed
    exact Draft.close_focus_eq_ok hosts closed

theorem ensures_ret (v : Option Operand) :
    Ensures d f (request site (.ret v)) s b (Closes s b (.ret v)) :=
  ensures_close (r := .ret v) fun hosts closed => Draft.close_focus_eq_ok hosts closed

theorem ensures_unreachable :
    Ensures d f (request site .unreachable) s b (Closes s b .unreachable) :=
  ensures_close (r := .unreachable) fun hosts closed => Draft.close_focus_eq_ok hosts closed

/-! ## Passing over what is lowered -/

/-- From the end of `b` lowering has come to the end of `b'`, which is closed just if `returns`. -/
structure Passes (s : Shape) (b : Nat) (returns : Bool) (s' : Shape) (b' : Nat) : Prop where
  spreads : s.Spreads b [] s'
  own : b' = b ∨ s.length ≤ b'
  ends : ∃ o, s'[b']? = some o ∧ o.isSome = returns
  clean : s.Clean → s'.Clean

/-- Wherever the statement is lowered, its end is closed just if control can never run past it. -/
def StmtPasses (st : Stmt) : Prop :=
  ∀ {d : Draft} {f : Nat} {s : Shape} {b : Nat}, s.IsOpen b →
    Ensures d f (lowerStmt st) s b fun _ => Passes s b st.mustReturn

def BlockPasses (body : List Stmt) : Prop :=
  ∀ {d : Draft} {f : Nat} {s : Shape} {b : Nat}, s.IsOpen b →
    Ensures d f (lowerBlock body) s b fun _ => Passes s b (mustReturn body)

namespace Passes

theorem stay (isOpen : s.IsOpen b) : Passes s b false s b :=
  ⟨.refl s b [], .inl rfl, ⟨none, isOpen, rfl⟩, id⟩

theorem isOpen {s' : Shape} {b' : Nat} (h : Passes s b false s' b') : s'.IsOpen b' := by
  obtain ⟨o, here, ends⟩ := h.ends
  rw [Option.isSome_eq_false_iff, Option.isNone_iff_eq_none] at ends
  exact here.trans (congrArg some ends)

theorem trans {s₁ s' : Shape} {b₁ b' : Nat} {earlier returns : Bool} (h : Passes s b earlier s₁ b₁)
    (h' : Passes s₁ b₁ returns s' b') : Passes s b returns s' b' where
  spreads := h.spreads.trans h'.spreads h.own (by simp)
  own := by
    have := h.spreads.length_le
    rcases h'.own with rfl | new
    · exact h.own
    · exact .inr (by omega)
  ends := h'.ends
  clean before := h'.clean (h.clean before)

end Passes

/-- Statements behind a closed block are left out. -/
theorem ensures_lowerBlock_of_closed {o : Option Terminator} (here : s[b]? = some o)
    (closed : o.isSome = true) (body : List Stmt) :
    Ensures d f (lowerBlock body) s b (Stands s b fun _ => True) := by
  cases body with
  | nil =>
      rw [lowerBlock]
      exact .pure ⟨rfl, rfl, trivial⟩
  | cons st rest =>
      rw [lowerBlock]
      refine (ensures_isClosed here).bind ?_
      rintro _ _ _ ⟨rfl, rfl, rfl⟩
      rw [if_pos closed]
      exact .pure ⟨rfl, rfl, trivial⟩

theorem blockPasses_of_forall {body : List Stmt} (passes : ∀ st ∈ body, StmtPasses st) :
    BlockPasses body := by
  intro d f s b isOpen
  induction body generalizing s b with
  | nil =>
      rw [lowerBlock]
      exact .pure (.stay isOpen)
  | cons st rest ih =>
      obtain ⟨first, others⟩ := List.forall_mem_cons.mp passes
      rw [lowerBlock]
      refine (ensures_isClosed isOpen).bind ?_
      rintro _ _ _ ⟨rfl, rfl, rfl⟩
      refine (first isOpen).bind ?_
      intro _ s₁ b₁ passed
      rw [mustReturn]
      cases returns : st.mustReturn with
      | false =>
          rw [returns] at passed
          exact (ih others passed.isOpen).imp fun _ _ _ passed' => passed.trans passed'
      | true =>
          rw [returns] at passed
          obtain ⟨o, here, closed⟩ := passed.ends
          refine (ensures_lowerBlock_of_closed here closed rest).imp ?_
          rintro _ _ _ ⟨rfl, rfl, -⟩
          exact passed

/-! ## Bodies in blocks of their own -/

theorem ensures_fallInto {o : Option Terminator} (here : s[b]? = some o) (e : Nat) :
    Ensures d f (fallInto ⟨f, e⟩ site) s b fun reached s' _ =>
      reached = !o.isSome ∧ s' = if o.isSome then s else s.close b (.branch e) := by
  rw [fallInto]
  refine (ensures_isClosed here).bind ?_
  rintro _ _ _ ⟨rfl, rfl, rfl⟩
  cases o with
  | some t => exact .pure ⟨rfl, rfl⟩
  | none =>
      refine (ensures_branch e).bind ?_
      rintro _ _ _ ⟨-, rfl, rfl⟩
      exact .pure ⟨rfl, rfl⟩

/-- A body in a block of its own, from which control goes on to the block `e` unless the body always
returns. What comes after it starts in another block. -/
theorem ensures_arm {body : List Stmt} (passes : BlockPasses body) {t e : Nat} (isOpen : s.IsOpen t)
    (lt : e < s.length) (ne : e ≠ t) (live : ¬ s.Dead e) {β : Type}
    {k : Bool → Lower Draft Operand Slot Nat β} {R : β → Shape → Nat → Prop}
    (next : ∀ s' b', s.Spreads t (if mustReturn body then [] else [e]) s' → (s.Clean → s'.Clean) →
      Ensures d f (k (!mustReturn body)) s' b' R) :
    Ensures d f (do
      moveTo ⟨f, t⟩
      withFrame (lowerBlock body)
      let reached ← fallInto ⟨f, e⟩ site
      k reached) s b R := by
  refine (ensures_moveTo t).bind ?_
  rintro _ _ _ ⟨rfl, rfl⟩
  refine (passes isOpen).withFrame.bind fun _ s₁ b₁ passed => ?_
  obtain ⟨o, here, returns⟩ := passed.ends
  refine (ensures_fallInto here e).bind ?_
  rintro _ _ b₂ ⟨rfl, rfl⟩
  rw [returns]
  apply next
  · cases closed : mustReturn body with
    | true => exact passed.spreads
    | false =>
        have wider := (Shape.Spreads.refl s t [e]).trans passed.spreads (.inl rfl) (by simp)
        exact wider.close passed.own (by simp [Terminator.successors])
  · intro clean
    have clean₁ := passed.clean clean
    cases closed : mustReturn body with
    | true => exact clean₁
    | false =>
        have kept := passed.spreads.kept lt ne
        refine clean₁.close (by simp) fun i target => ?_
        cases List.mem_singleton.mp target
        refine ⟨Nat.lt_of_lt_of_le lt passed.spreads.length_le, ?_⟩
        rw [Shape.Dead, kept]
        exact live

theorem eq_of_mem_targets {returns : Bool} {e i : Nat} (h : i ∈ if returns then [] else [e]) :
    i = e := by
  cases returns with
  | true => cases h
  | false => exact List.mem_singleton.mp h

/-- Control goes on in a new block. -/
theorem ensures_leave {s₀ : Shape} {b₀ e : Nat} (spreads : s₀.Spreads b₀ [] s) (new : s₀.length ≤ e)
    (isOpen : s.IsOpen e) (clean : s₀.Clean → s.Clean) :
    Ensures d f (moveTo ⟨f, e⟩) s b fun _ => Passes s₀ b₀ false := by
  refine (ensures_moveTo e).imp ?_
  rintro _ _ _ ⟨rfl, rfl⟩
  exact ⟨spreads, .inr new, ⟨none, isOpen, rfl⟩, clean⟩

/-! ## Statements -/

theorem ret_passes (value : Option Converted) : StmtPasses (.ret value) := by
  intro d f s b isOpen
  have closes : ∀ v, Ensures d f (request .returnStmt (.ret v)) s b fun (_ : Unit) =>
      Passes s b true := by
    intro v
    refine (ensures_ret v).imp ?_
    rintro _ _ _ ⟨-, rfl, rfl⟩
    refine ⟨(Shape.Spreads.refl s b []).close (.inl rfl) (by simp [Terminator.successors]), .inl rfl,
      ⟨_, Shape.getElem?_close_self isOpen.lt _, rfl⟩, fun clean => clean.close nofun ?_⟩
    simp [Terminator.successors]
  cases value with
  | none =>
      rw [lowerStmt]
      exact closes none
  | some value =>
      rw [lowerStmt]
      refine (ensures_straight (straight_lowerConverted _ _)).bind ?_
      rintro v _ _ ⟨rfl, rfl, -⟩
      exact closes (some v)

theorem ensures_lowerVarDecl (v : VarDecl) :
    Ensures d f (lowerVarDecl v) s b (Stands s b fun _ => True) := by
  rw [lowerVarDecl]
  refine (ensures_straight (straight_lowerArguments _ _)).bind ?_
  rintro sizes _ _ ⟨rfl, rfl, -⟩
  refine (ensures_straight (straight_product _)).bind ?_
  rintro length _ _ ⟨rfl, rfl, -⟩
  refine (ensures_straight (.asks _ _ rfl)).bind ?_
  rintro slot _ _ ⟨rfl, rfl, -⟩
  refine ensures_declare.bind ?_
  rintro _ _ _ ⟨rfl, rfl, -⟩
  cases v.initializer with
  | none => exact .pure ⟨rfl, rfl, trivial⟩
  | some initial =>
      refine (ensures_straight (straight_lowerConverted _ _)).bind ?_
      rintro value _ _ ⟨rfl, rfl, -⟩
      exact ensures_straight (.asks _ _ rfl)

theorem ifThen_passes {condition : Expr} {body : List Stmt} (passes : BlockPasses body) :
    StmtPasses (.ifThen condition body) := by
  intro d f s b isOpen
  rw [lowerStmt]
  refine ensures_enclosingFunction.bind ?_
  rintro _ _ _ ⟨rfl, rfl, rfl⟩
  refine (ensures_straight (straight_lowerValue _ _)).bind ?_
  rintro v _ _ ⟨rfl, rfl, -⟩
  refine (ensures_addBlock "then").bind ?_
  rintro _ _ _ ⟨rfl, rfl, rfl⟩
  refine (ensures_addBlock "end").bind ?_
  rintro _ _ _ ⟨rfl, rfl, rfl⟩
  refine (ensures_condBranch v _ _).bind ?_
  rintro _ _ _ ⟨-, rfl, rfl⟩
  rw [Shape.length_grow]
  have left : s.Forks b 2 _ (s.grow.grow.close b (.condBranch v s.length (s.length + 1))) :=
    Shape.forks isOpen.lt nofun (by simp [Terminator.successors])
  have openEnd := left.fresh (i := s.length + 1) (by omega) (by omega)
  refine ensures_arm passes (left.fresh (Nat.le_refl _) (by omega)) openEnd.lt (by omega)
    openEnd.not_dead fun s' b' more clean => ?_
  refine ensures_leave (left.spreads.trans more (.inr (Nat.le_refl _)) ?_) (Nat.le_succ _)
    (more.isOpen openEnd (by omega)) fun h => clean (left.clean h)
  intro i target old
  have := eq_of_mem_targets target
  omega

theorem ifElse_passes {condition : Expr} {body other : List Stmt} (passes : BlockPasses body)
    (passesOther : BlockPasses other) : StmtPasses (.ifElse condition body other) := by
  intro d f s b isOpen
  rw [lowerStmt]
  refine ensures_enclosingFunction.bind ?_
  rintro _ _ _ ⟨rfl, rfl, rfl⟩
  refine (ensures_straight (straight_lowerValue _ _)).bind ?_
  rintro v _ _ ⟨rfl, rfl, -⟩
  refine (ensures_addBlock "then").bind ?_
  rintro _ _ _ ⟨rfl, rfl, rfl⟩
  refine (ensures_addBlock "else").bind ?_
  rintro _ _ _ ⟨rfl, rfl, rfl⟩
  refine (ensures_addBlock "end").bind ?_
  rintro _ _ _ ⟨rfl, rfl, rfl⟩
  refine (ensures_condBranch v _ _).bind ?_
  rintro _ _ _ ⟨-, rfl, rfl⟩
  simp only [Shape.length_grow, Nat.add_assoc, Nat.reduceAdd]
  have left : s.Forks b 3 _ (s.grow.grow.grow.close b (.condBranch v s.length (s.length + 1))) :=
    Shape.forks isOpen.lt nofun (by simp [Terminator.successors])
  have openElse := left.fresh (i := s.length + 1) (by omega) (by omega)
  have openEnd := left.fresh (i := s.length + 2) (by omega) (by omega)
  refine ensures_arm passes (left.fresh (Nat.le_refl _) (by omega)) openEnd.lt (by omega)
    openEnd.not_dead fun s₁ b₁ more₁ clean₁ => ?_
  have openEnd₁ := more₁.isOpen openEnd (by omega)
  refine ensures_arm passesOther (more₁.isOpen openElse (by omega)) openEnd₁.lt (by omega)
    openEnd₁.not_dead fun s₂ b₂ more₂ clean₂ => ?_
  have openEnd₂ := more₂.isOpen openEnd₁ (by omega)
  have spreads : s.Spreads b [] s₂ := by
    refine (left.spreads.trans more₁ (.inr (Nat.le_refl _)) ?_).trans more₂ (.inr (Nat.le_succ _)) ?_
    all_goals
      intro i target old
      have := eq_of_mem_targets target
      omega
  have clean : s.Clean → s₂.Clean := fun h => clean₂ (clean₁ (left.clean h))
  have onward : Passes s b false s₂ (s.length + 2) :=
    ⟨spreads, .inr (Nat.le_add_right _ 2), ⟨none, openEnd₂, rfl⟩, clean⟩
  refine (ensures_moveTo _).bind ?_
  rintro _ _ _ ⟨rfl, rfl⟩
  rw [Stmt.mustReturn]
  cases returns : mustReturn body with
  | false => exact .pure onward
  | true =>
      cases returnsToo : mustReturn other with
      | false => exact .pure onward
      | true =>
          -- neither arm goes on, so nothing leads to the end
          have unreached : s.Clean → ∀ j, ¬ s₂.Edge j (s.length + 2) := by
            intro h j edge₂
            have edge₁ := (more₂.edges edge₂ openEnd₁.lt).resolve_right (by simp [returnsToo])
            have edge := (more₁.edges edge₁ openEnd.lt).resolve_right (by simp [returns])
            rcases left.edges edge with old | target
            · have := h.inside old
              omega
            · simp [Terminator.successors] at target
          refine ensures_unreachable.imp ?_
          rintro _ _ _ ⟨-, rfl, rfl⟩
          exact ⟨spreads.close onward.own (by simp [Terminator.successors]), onward.own,
            ⟨_, Shape.getElem?_close_self openEnd₂.lt _, rfl⟩,
            fun h => (clean h).abandon (by omega) (unreached h)⟩

theorem whileLoop_passes {condition : Expr} {body : List Stmt} (passes : BlockPasses body) :
    StmtPasses (.whileLoop condition body) := by
  intro d f s b isOpen
  rw [lowerStmt]
  refine ensures_enclosingFunction.bind ?_
  rintro _ _ _ ⟨rfl, rfl, rfl⟩
  refine (ensures_addBlock "cond").bind ?_
  rintro _ _ _ ⟨rfl, rfl, rfl⟩
  refine (ensures_addBlock "body").bind ?_
  rintro _ _ _ ⟨rfl, rfl, rfl⟩
  refine (ensures_addBlock "end").bind ?_
  rintro _ _ _ ⟨rfl, rfl, rfl⟩
  refine (ensures_branch _).bind ?_
  rintro _ _ _ ⟨-, rfl, rfl⟩
  refine (ensures_moveTo _).bind ?_
  rintro _ _ _ ⟨rfl, rfl⟩
  refine (ensures_straight (straight_lowerValue _ _)).bind ?_
  rintro v _ _ ⟨rfl, rfl, -⟩
  refine (ensures_condBranch v _ _).bind ?_
  rintro _ _ _ ⟨-, rfl, rfl⟩
  simp only [Shape.length_grow, Nat.add_assoc, Nat.reduceAdd]
  have left : s.Loops b 3 ((s.grow.grow.grow.close b (.branch s.length)).close s.length
      (.condBranch v (s.length + 1) (s.length + 2))) :=
    Shape.loops isOpen.lt (by omega) nofun (by simp [Terminator.successors])
  have openBody := left.fresh (i := s.length + 1) (by omega) (by omega)
  have openEnd := left.fresh (i := s.length + 2) (by omega) (by omega)
  refine ensures_arm passes openBody (by rw [left.length]; omega) (by omega) left.live
    fun s' b' more clean => ?_
  refine ensures_leave (left.spreads.trans more (.inr (Nat.le_succ _)) ?_) (Nat.le_add_right _ 2)
    (more.isOpen openEnd (by omega)) fun h => clean (left.clean h)
  intro i target old
  have := eq_of_mem_targets target
  omega

theorem forLoop_passes {v : VarDecl} {condition step : Expr} {body : List Stmt}
    (passes : BlockPasses body) : StmtPasses (.forLoop v condition step body) := by
  intro d f s b isOpen
  rw [lowerStmt]
  refine Ensures.withFrame ?_
  refine ensures_enclosingFunction.bind ?_
  rintro _ _ _ ⟨rfl, rfl, rfl⟩
  refine (ensures_lowerVarDecl v).bind ?_
  rintro _ _ _ ⟨rfl, rfl, -⟩
  refine (ensures_addBlock "cond").bind ?_
  rintro _ _ _ ⟨rfl, rfl, rfl⟩
  refine (ensures_addBlock "body").bind ?_
  rintro _ _ _ ⟨rfl, rfl, rfl⟩
  refine (ensures_addBlock "step").bind ?_
  rintro _ _ _ ⟨rfl, rfl, rfl⟩
  refine (ensures_addBlock "end").bind ?_
  rintro _ _ _ ⟨rfl, rfl, rfl⟩
  refine (ensures_branch _).bind ?_
  rintro _ _ _ ⟨-, rfl, rfl⟩
  refine (ensures_moveTo _).bind ?_
  rintro _ _ _ ⟨rfl, rfl⟩
  refine (ensures_straight (straight_lowerValue _ _)).bind ?_
  rintro w _ _ ⟨rfl, rfl, -⟩
  refine (ensures_condBranch w _ _).bind ?_
  rintro _ _ _ ⟨-, rfl, rfl⟩
  simp only [Shape.length_grow, Nat.add_assoc, Nat.reduceAdd]
  have left : s.Loops b 4 ((s.grow.grow.grow.grow.close b (.branch s.length)).close s.length
      (.condBranch w (s.length + 1) (s.length + 3))) :=
    Shape.loops isOpen.lt (by omega) nofun (by simp [Terminator.successors])
  have openStep := left.fresh (i := s.length + 2) (by omega) (by omega)
  have openEnd := left.fresh (i := s.length + 3) (by omega) (by omega)
  have openBody := left.fresh (i := s.length + 1) (by omega) (by omega)
  refine ensures_arm passes openBody openStep.lt (by omega) openStep.not_dead
    fun s₁ b₁ more clean => ?_
  have openStep₁ := more.isOpen openStep (by omega)
  have openEnd₁ := more.isOpen openEnd (by omega)
  have first : s.length < s₁.length ∧ ¬ s₁.Dead s.length := by
    have lt := more.length_le
    have ne : s.length ≠ s.length + 1 := by omega
    rw [left.length] at lt
    rw [Shape.Dead, more.kept (by rw [left.length]; omega) ne]
    exact ⟨by omega, left.live⟩
  refine (ensures_moveTo _).bind ?_
  rintro _ _ _ ⟨rfl, rfl⟩
  refine (ensures_straight (straight_lowerExpr _)).bind ?_
  rintro _ _ _ ⟨rfl, rfl, -⟩
  refine (ensures_branch _).bind ?_
  rintro _ _ _ ⟨-, rfl, rfl⟩
  have spreads : s.Spreads b [] s₁ := by
    refine left.spreads.trans more (.inr (Nat.le_succ _)) fun i target old => ?_
    have := eq_of_mem_targets target
    omega
  refine ensures_leave (spreads.close (.inr (Nat.le_add_right _ 2)) ?_) (Nat.le_add_right _ 3)
    (openEnd₁.close (by omega) _) fun h => (clean (left.clean h)).close (by simp) ?_
  · simp [Terminator.successors]
  · simpa [Terminator.successors] using first

/-! ## Switches -/

/-- Out of a chain of comparisons control comes past the last one, or goes from a case to the end. -/
theorem ensures_lowerChain {cases : List Case} (passes : ∀ c ∈ cases, BlockPasses c.body) (v : Operand)
    {e : Nat} (isOpen : s.IsOpen b) (openEnd : s.IsOpen e) (ne : e ≠ b) :
    Ensures d f (lowerChain f v ⟨f, e⟩ cases) s b fun _ s' b' =>
      s.Spreads b [e] s' ∧ (b' = b ∨ s.length ≤ b') ∧ s'.IsOpen b' ∧ (s.Clean → s'.Clean) := by
  induction cases generalizing s b with
  | nil =>
      rw [lowerChain]
      exact .pure ⟨.refl s b [e], .inl rfl, isOpen, id⟩
  | cons c rest ih =>
      obtain ⟨value, test, constant, body⟩ := c
      obtain ⟨first, others⟩ := List.forall_mem_cons.mp passes
      rw [lowerChain]
      refine (ensures_straight (straight_lowerConverted _ _)).bind ?_
      rintro w _ _ ⟨rfl, rfl, -⟩
      refine (ensures_straight (.asks _ _ rfl)).bind ?_
      rintro matched _ _ ⟨rfl, rfl, -⟩
      refine (ensures_addBlock "case").bind ?_
      rintro _ _ _ ⟨rfl, rfl, rfl⟩
      refine (ensures_addBlock "next").bind ?_
      rintro _ _ _ ⟨rfl, rfl, rfl⟩
      refine (ensures_condBranch matched _ _).bind ?_
      rintro _ _ _ ⟨-, rfl, rfl⟩
      rw [Shape.length_grow]
      have left : s.Forks b 2 _ (s.grow.grow.close b (.condBranch matched s.length (s.length + 1))) :=
        Shape.forks isOpen.lt nofun (by simp [Terminator.successors])
      have below := openEnd.lt
      have openCase := left.fresh (i := s.length) (by omega) (by omega)
      have openNext := left.fresh (i := s.length + 1) (by omega) (by omega)
      have openEnd₁ := left.spreads.isOpen openEnd ne
      refine ensures_arm first openCase openEnd₁.lt (by omega) openEnd₁.not_dead
        fun s₂ b₂ more clean => ?_
      refine (ensures_moveTo _).bind ?_
      rintro _ _ _ ⟨rfl, rfl⟩
      have openEnd₂ := more.isOpen openEnd₁ (by omega)
      have spreads : s.Spreads b [e] s₂ := by
        have wider := (Shape.Spreads.refl s b [e]).trans left.spreads (.inl rfl) (by simp)
        refine wider.trans more (.inr (Nat.le_refl _)) fun i target _ => ?_
        exact List.mem_singleton.mpr (eq_of_mem_targets target)
      refine (ih others (more.isOpen openNext (by omega)) openEnd₂ (by omega)).imp ?_
      rintro _ s₃ b₃ ⟨further, own, isOpen₃, clean₃⟩
      refine ⟨spreads.trans further (.inr (Nat.le_succ _)) fun i target _ => target, ?_, isOpen₃,
        fun h => clean₃ (clean (left.clean h))⟩
      have := spreads.length_le
      omega

theorem chainSwitch_passes (scrutinee : Converted) {cases : List Case}
    (passes : ∀ c ∈ cases, BlockPasses c.body) : StmtPasses (.switch scrutinee cases false) := by
  intro d f s b isOpen
  rw [lowerStmt]
  refine ensures_enclosingFunction.bind ?_
  rintro _ _ _ ⟨rfl, rfl, rfl⟩
  refine (ensures_straight (straight_lowerConverted _ _)).bind ?_
  rintro v _ _ ⟨rfl, rfl, -⟩
  refine (ensures_addBlock "end").bind ?_
  rintro _ _ _ ⟨rfl, rfl, rfl⟩
  have lt := isOpen.lt
  have openEnd := Shape.isOpen_grow_self s
  have grown : s.Spreads b [] s.grow := (Shape.Spreads.refl s b []).grow
  refine (ensures_lowerChain passes v isOpen.grow openEnd (by omega)).bind ?_
  rintro _ s₁ b₁ ⟨more, own, isOpen₁, clean⟩
  refine (ensures_branch _).bind ?_
  rintro _ _ _ ⟨-, rfl, rfl⟩
  have openEnd₁ := more.isOpen openEnd (by omega)
  rw [Shape.length_grow] at own
  have spreads : s.Spreads b [] s₁ := by
    refine grown.trans more (.inl rfl) fun i target old => ?_
    have := List.mem_singleton.mp target
    omega
  refine ensures_leave (spreads.close (by omega) ?_) (Nat.le_refl _) (openEnd₁.close (by omega) _)
    fun h => (clean h.grow).close nofun ?_
  · simp [Terminator.successors]
  · simpa [Terminator.successors] using ⟨openEnd₁.lt, openEnd₁.not_dead⟩

theorem ensures_addBlocks (label : String) (n : Nat) :
    Ensures d f (addBlocks f label n) s b fun Bs s' b' =>
      (List.range' s.length n).map (BlockId.mk f) = Bs ∧ s.growBy n = s' ∧ b = b' := by
  induction n generalizing s with
  | zero => exact .pure ⟨rfl, rfl, rfl⟩
  | succ n ih =>
      rw [addBlocks]
      refine (ensures_addBlock label).bind ?_
      rintro _ _ _ ⟨rfl, rfl, rfl⟩
      refine ih.bind ?_
      rintro _ _ _ ⟨rfl, rfl, rfl⟩
      refine .pure ⟨?_, rfl, rfl⟩
      rw [List.range'_succ, List.map_cons, Shape.length_grow]

/-- The cases of a table, each in a block of its own, all go on to the end. -/
theorem ensures_lowerTable {cases : List Case} (passes : ∀ c ∈ cases, BlockPasses c.body) {s₀ : Shape}
    {b₀ e : Nat} {blocks : List Nat} (spreads : s₀.Spreads b₀ [] s)
    (isOpen : ∀ i ∈ blocks, s₀.length ≤ i ∧ s.IsOpen i) (distinct : blocks.Nodup)
    (openEnd : s.IsOpen e) (new : s₀.length ≤ e) (apart : e ∉ blocks) :
    Ensures d f (lowerTable ⟨f, e⟩ cases (blocks.map (BlockId.mk f))) s b fun _ s' _ =>
      s₀.Spreads b₀ [] s' ∧ s'.IsOpen e ∧ (s.Clean → s'.Clean) := by
  induction cases generalizing s b blocks with
  | nil =>
      unfold lowerTable
      exact .pure ⟨spreads, openEnd, id⟩
  | cons c rest ih =>
      obtain ⟨value, test, constant, body⟩ := c
      obtain ⟨first, others⟩ := List.forall_mem_cons.mp passes
      cases blocks with
      | nil =>
          unfold lowerTable
          exact .pure ⟨spreads, openEnd, id⟩
      | cons block blocks =>
          obtain ⟨⟨own, openCase⟩, openRest⟩ := List.forall_mem_cons.mp isOpen
          obtain ⟨absent, distinct'⟩ := List.nodup_cons.mp distinct
          have ne : e ≠ block := fun h => apart (h ▸ List.mem_cons_self)
          rw [List.map_cons, lowerTable]
          refine ensures_arm first openCase openEnd.lt ne openEnd.not_dead fun s₁ b₁ more clean => ?_
          have wider : s₀.Spreads b₀ [] s₁ := by
            refine spreads.trans more (.inr own) fun i target old => ?_
            have := eq_of_mem_targets target
            omega
          have stillOpen : ∀ i ∈ blocks, s₀.length ≤ i ∧ s₁.IsOpen i := by
            intro i hi
            obtain ⟨le, open_⟩ := openRest i hi
            exact ⟨le, more.isOpen open_ fun h => absent (h ▸ hi)⟩
          refine (ih others wider stillOpen distinct' (more.isOpen openEnd ne) fun h =>
            apart (List.mem_cons_of_mem _ h)).imp ?_
          rintro _ s₂ _ ⟨spreads₂, openEnd₂, clean₂⟩
          exact ⟨spreads₂, openEnd₂, fun h => clean₂ (clean h)⟩

theorem tableSwitch_passes (scrutinee : Converted) {cases : List Case}
    (passes : ∀ c ∈ cases, BlockPasses c.body) : StmtPasses (.switch scrutinee cases true) := by
  intro d f s b isOpen
  rw [lowerStmt]
  refine ensures_enclosingFunction.bind ?_
  rintro _ _ _ ⟨rfl, rfl, rfl⟩
  refine (ensures_straight (straight_lowerConverted _ _)).bind ?_
  rintro v _ _ ⟨rfl, rfl, -⟩
  refine (ensures_addBlocks "case" cases.length).bind ?_
  rintro _ _ _ ⟨rfl, rfl, rfl⟩
  refine (ensures_addBlock "end").bind ?_
  rintro _ _ _ ⟨rfl, rfl, rfl⟩
  let n := cases.length
  let blocks := List.range' s.length n
  let entries := tableEntries [] ((cases.map Case.constant).zip blocks)
  have table : tableEntries [] ((cases.map Case.constant).zip (blocks.map (BlockId.mk f))) =
      entries.map fun c => (c.1, BlockId.mk f c.2) := by
    rw [List.zip_map_right]
    exact tableEntries_map (BlockId.mk f) [] _
  have inside : ∀ i ∈ (Terminator.switch v (s.length + n) entries).successors,
      s.length ≤ i ∧ i < s.length + (n + 1) := by
    intro i target
    rcases List.mem_cons.mp target with rfl | target
    · omega
    · obtain ⟨entry, he, rfl⟩ := List.mem_map.mp target
      have listed : entry.2 ∈ ((cases.map Case.constant).zip blocks).map Prod.snd :=
        (mem_tableEntries he).resolve_left List.not_mem_nil
      obtain ⟨pair, hz, same⟩ := List.mem_map.mp listed
      have among := List.mem_range'_1.mp (List.of_mem_zip hz).2
      omega
  rw [Shape.length_growBy, Shape.grow_growBy, table]
  refine (ensures_switch v _ entries).bind ?_
  rintro _ _ _ ⟨-, rfl, rfl⟩
  have left : s.Forks b (n + 1) _ ((s.growBy (n + 1)).close b (.switch v (s.length + n) entries)) :=
    Shape.forks isOpen.lt nofun inside
  have openEnd := left.fresh (i := s.length + n) (by omega) (by omega)
  have openCases : ∀ i ∈ blocks, s.length ≤ i ∧
      ((s.growBy (n + 1)).close b (.switch v (s.length + n) entries)).IsOpen i := by
    intro i hi
    have among := List.mem_range'_1.mp hi
    exact ⟨among.1, left.fresh among.1 (by omega)⟩
  refine (ensures_lowerTable passes left.spreads openCases List.nodup_range' openEnd
    (Nat.le_add_right _ _) fun h => ?_).bind ?_
  · have among := List.mem_range'_1.mp h
    omega
  · rintro _ s₁ b₁ ⟨spreads, openEnd₁, clean⟩
    exact ensures_leave spreads (Nat.le_add_right _ _) openEnd₁ fun h => clean (left.clean h)

/-! ## All statements -/

theorem stmtPasses (st : Stmt) : StmtPasses st := by
  induction st using Stmt.treeInduction with
  | block body ih =>
      intro d f s b isOpen
      rw [lowerStmt]
      exact (blockPasses_of_forall ih isOpen).withFrame
  | declare v =>
      intro d f s b isOpen
      rw [lowerStmt]
      refine (ensures_lowerVarDecl v).imp ?_
      rintro _ _ _ ⟨rfl, rfl, -⟩
      exact .stay isOpen
  | eval e =>
      intro d f s b isOpen
      rw [lowerStmt]
      refine (ensures_straight (.bind (straight_lowerExpr e) fun _ => .pure ())).imp ?_
      rintro _ _ _ ⟨rfl, rfl, -⟩
      exact .stay isOpen
  | ifThen condition body ih => exact ifThen_passes (blockPasses_of_forall ih)
  | ifElse condition body other ih ihOther =>
      exact ifElse_passes (blockPasses_of_forall ih) (blockPasses_of_forall ihOther)
  | forLoop v condition step body ih => exact forLoop_passes (blockPasses_of_forall ih)
  | whileLoop condition body ih => exact whileLoop_passes (blockPasses_of_forall ih)
  | switch scrutinee cases table ih =>
      have passes : ∀ c ∈ cases, BlockPasses c.body := fun c hc => blockPasses_of_forall (ih c hc)
      cases table with
      | true => exact @tableSwitch_passes scrutinee cases passes
      | false => exact @chainSwitch_passes scrutinee cases passes
  | ret value => exact ret_passes value

theorem blockPasses (body : List Stmt) : BlockPasses body :=
  blockPasses_of_forall fun st _ => stmtPasses st

end ImpLower.Lower
