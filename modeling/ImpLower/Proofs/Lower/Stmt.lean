import ImpLower.Proofs.Lower.Expr
import ImpLower.Proofs.Lower.Growth

/-!
# Lowering statements always succeeds

From an open block, a well-annotated statement is lowered to its code. It adds blocks and closes them,
but for the one it leaves the insertion point in, and touches no other block that is still pending.
Code that is in place stays in place however the function grows afterwards, so the layout of a
statement is claimed for every function that its own grows into.
-/

namespace ImpLower.Lower

open Code Typed Stateful

-- the equations of the mutual functions are found here, once, and not by each lemma that opens one
attribute [local simp] lowerStmt lowerBlock lowerChain lowerTable

/-! ## Local variables -/

theorem map_bindStack {sig : Signatures} {sc : Names} {v : VarDecl} {slot : Nat}
    {sizes : List Operand} (rank : sizes.length = v.dimensions.length) :
    (bindStack sc v slot sizes).map (symbolOf sig) = bindVar (sc.map (symbolOf sig)) v := by
  simp [bindStack, bindVar, symbolOf, rank]

section

variable {sig : Signatures} {s : Spot} {sc : Names}

theorem productGo_emits (sc : Names) (o : Operand) (sizes : List Operand) :
    ∃ is o' r', Emits s sc (product.go o sizes) is o' ⟨r', s.slots⟩ ∧
      ScaleCode o sizes s.registers is o' r' := by
  induction sizes generalizing s o with
  | nil => exact ⟨[], o, s.registers, .pure, .nil⟩
  | cons n ns ih =>
      obtain ⟨is, o', r', runs, code⟩ :=
        ih (s := s.emit [.binary s.registers (.int .mul) o n] ⟨s.registers + 1, s.slots⟩)
          (.register s.registers)
      refine ⟨_, o', r', ?_, .cons code⟩
      rw [product.go]
      exact (emits_binary _ o n _).bind runs

theorem product_emits (sc : Names) (sizes : List Operand) :
    ∃ is o r', Emits s sc (product sizes) is o ⟨r', s.slots⟩ ∧
      LengthCode sizes s.registers is o r' := by
  cases sizes with
  | nil => exact ⟨[], none, s.registers, .pure, .scalar⟩
  | cons n ns =>
      obtain ⟨is, o, r', run, code⟩ := productGo_emits sc n ns
      refine ⟨is, some o, r', ?_, .array code⟩
      rw [product]
      exact run.before rfl

theorem lowerVarDecl_emits {v : VarDecl} (known : Known s.draft sig sc)
    (ok : VarOk (sc.map (symbolOf sig)) v) :
    ∃ is sizes r', EmitsInto s sc (lowerVarDecl v) is () ⟨r', s.slots + 1⟩
        (bindStack sc v s.slots sizes) ∧
      VarCode sig sc v s.slots s.registers is sizes r' ∧ sizes.length = v.dimensions.length := by
  have fresh : sc.declaresInCurrent v.name = false := by
    rw [← Scope.declaresInCurrent_map (symbolOf sig)]
    exact ok.fresh
  cases given : v.initializer with
  | none =>
      obtain ⟨is, sizes, r₁, run, dims⟩ :=
        lowerArguments_emits (fun c _ => exprLowers sig c.value) known
          (fun c hc => (ok.sizes c hc).2) (fun c hc => (ok.sizes c hc).1.1) .varDecl
      obtain ⟨js, length, r', run₁, count⟩ :=
        product_emits (s := s.emit is ⟨r₁, s.slots⟩) sc sizes
      refine ⟨_, sizes, r', ?_, .plain ok.storable given (fun c hc => (ok.sizes c hc).1) dims
        count, dims.length_eq⟩
      rw [lowerVarDecl, given, List.append_assoc]
      exact run.bind (run₁.bind ((emits_alloca v.ty length v.name).before
        ((Stateful.exec_bind_of_ok (exec_declare fresh)).trans rfl)))
  | some initial =>
      obtain ⟨scalar, target, fits, inside⟩ := ok.initial initial given
      have bound : (bindStack sc v s.slots []).map (symbolOf sig) = bindVar (sc.map _) v :=
        map_bindStack (by simp [scalar])
      let s₁ := s.emit [.alloca s.slots v.ty none v.name] ⟨s.registers, s.slots + 1⟩
      obtain ⟨is, value, r', run, code⟩ :=
        lowerConverted_emits (s := s₁) (exprLowers sig initial.value)
          (known.push v.name _ _ _) (bound ▸ inside) fits .varDecl
      refine ⟨_, [], r', ?_, .initialized ok.storable given scalar target code, by simp [scalar]⟩
      rw [lowerVarDecl, given, scalar]
      exact .after rfl (.after rfl ((emits_alloca v.ty none v.name).bind
        (.after (exec_declare fresh) (run.bind (emits_store (.stack s.slots) v.ty none value)))))

end

/-! ## Where a statement ends -/

/-- The insertion point after a statement: at the place its control comes out, or in a closed block if
there is none. -/
inductive Lands (pending : List Nat) (F : Function) (b : Nat) : Option Place → Prop
  | onward {p : Place} (tidy : F.Tidy (b :: pending)) (fresh : b ∉ pending) (here : F.endOf b = p) :
      Lands pending F b (some p)
  | done (tidy : F.Tidy pending) (fresh : b ∉ pending) (lt : b < F.blocks.size) :
      Lands pending F b none

/-- Control goes on in a block that was set aside, still empty. -/
theorem Lands.join {pending : List Nat} {F G : Function} {e : Nat} (tidy : G.Tidy (e :: pending))
    (fresh : e ∉ pending) (grows : F.Grows (e :: pending) G) (lt : e < F.blocks.size)
    (empty : F.endOf e = ⟨e, 0⟩) : Lands pending G e (some ⟨e, 0⟩) :=
  .onward tidy fresh ((grows.endOf_eq List.mem_cons_self lt).trans empty)

/-- The insertion point is in a closed block just when nothing comes out. -/
theorem Lands.exec_isClosed {pending : List Nat} {d : Draft} {f : Nat} {F : Function} {b : Nat}
    {exit : Option Place} (h : Lands pending F b exit) (hosts : d.Hosts f F) (sc : Names) :
    (isClosed : Lower Draft Operand Slot Nat Bool).exec (atEnd d f F b sc) =
      (.ok exit.isNone, atEnd d f F b sc) := by
  cases h with
  | onward tidy fresh here =>
      obtain ⟨B, hB, ht⟩ := tidy.isOpen b List.mem_cons_self
      rw [Lower.exec_isClosed hosts hB, ht]
      rfl
  | done tidy fresh lt =>
      have hB := Array.getElem?_eq_getElem lt
      obtain ⟨t, ht, -⟩ := tidy.isSealed hB fresh
      rw [Lower.exec_isClosed hosts hB, ht]
      rfl

theorem fallInto_exec {pending : List Nat} {d : Draft} {f : Nat} {F : Function} {b e : Nat}
    {exit : Option Place} (h : Lands pending F b exit) (hosts : d.Hosts f F)
    (target : e < F.blocks.size) (site : Construct) (sc : Names) :
    ∃ G, (fallInto ⟨f, e⟩ site).exec (atEnd d f F b sc) =
        (.ok exit.isSome, atEnd d f G b sc) ∧
      G.Tidy pending ∧ F.Grows pending G ∧ G.counters = F.counters ∧
      ∀ H, G.Grows [] H → Joins H exit e := by
  have closed := h.exec_isClosed hosts sc
  cases h with
  | @onward p tidy fresh here =>
      have isOpen := tidy.isOpen b List.mem_cons_self
      let s : Spot := ⟨d, f, F, b, hosts, isOpen⟩
      have left : ∀ j ∈ (Terminator.branch e).successors, j < F.blocks.size := by
        simpa [Terminator.successors] using target
      refine ⟨F.fork [] b (.branch e), ?_, tidy.fork fresh left, .fork isOpen fresh, rfl, ?_⟩
      · rw [fallInto, Stateful.exec_bind_of_ok closed]
        exact Stateful.exec_bind_of_ok (exec_branch (s := s) e)
      · intro H grows q hq
        cases hq
        exact here ▸ (Function.endsAt_fork isOpen [] _).mono grows
  | done tidy fresh lt =>
      refine ⟨F, ?_, tidy, .refl _ _, rfl, fun H _ q hq => nomatch hq⟩
      rw [fallInto, Stateful.exec_bind_of_ok closed]
      rfl

structure Lowered (sig : Signatures) (result : Ty) (s : Spot) (sc : Names) (pending : List Nat)
    (st : Stmt) (F : Function) (b : Nat) (sc' : Names) (exit : Option Place) : Prop where
  run : (lowerStmt st).exec (s.state sc) = (.ok (), atEnd s.draft s.index F b sc')
  lands : Lands pending F b exit
  grows : s.function.Grows pending F
  code : ∀ H, F.Grows [] H → StmtCode sig H result sc st (s.function.endOf s.block)
    s.function.counters sc' exit F.counters

/-- Wherever it is well annotated, the statement is lowered to its code. -/
def StmtLowers (sig : Signatures) (result : Ty) (st : Stmt) : Prop :=
  ∀ {s : Spot} {sc : Names} {Γ : Scope Symbol} {pending : List Nat}, Known s.draft sig sc →
    StmtOk result (sc.map (symbolOf sig)) st Γ → s.function.Tidy (s.block :: pending) →
    s.block ∉ pending →
    ∃ F b new exit, Lowered sig result s sc pending st F b (sc.gain new) exit ∧
      (sc.gain new).map (symbolOf sig) = Γ ∧ Known s.draft sig (sc.gain new)

/-- A statement that binds nothing. -/
theorem Lowered.stays {sig : Signatures} {result : Ty} {s : Spot} {sc : Names}
    {pending : List Nat} {st : Stmt} {F : Function} {b : Nat} {exit : Option Place}
    (h : Lowered sig result s sc pending st F b sc exit) (known : Known s.draft sig sc) :
    ∃ F b new exit, Lowered sig result s sc pending st F b (sc.gain new) exit ∧
      (sc.gain new).map (symbolOf sig) = sc.map (symbolOf sig) ∧
      Known s.draft sig (sc.gain new) := by
  refine ⟨F, b, [], exit, ?_⟩
  rw [Scope.gain_nil]
  exact ⟨h, rfl, known⟩

def BlockLowers (sig : Signatures) (result : Ty) (body : List Stmt) : Prop :=
  ∀ {s : Spot} {sc : Names} {Γ : Scope Symbol} {pending : List Nat}, Known s.draft sig sc →
    BlockOk result (sc.map (symbolOf sig)) body Γ → s.function.Tidy (s.block :: pending) →
    s.block ∉ pending →
    ∃ F b new exit, (lowerBlock body).exec (s.state sc) =
        (.ok (), atEnd s.draft s.index F b (sc.gain new)) ∧
      Lands pending F b exit ∧ s.function.Grows pending F ∧
      ∀ H, F.Grows [] H → BlockCode sig H result sc body (s.function.endOf s.block)
        s.function.counters exit F.counters

theorem blockLowers_of_forall {sig : Signatures} {result : Ty} {body : List Stmt}
    (lowers : ∀ st ∈ body, StmtLowers sig result st) : BlockLowers sig result body := by
  induction body with
  | nil =>
      intro s sc Γ pending known ok tidy fresh
      refine ⟨s.function, s.block, [], some (s.function.endOf s.block), ?_,
        .onward tidy fresh rfl, .refl _ _, fun H _ => .nil⟩
      rw [lowerBlock, Scope.gain_nil]
      rfl
  | cons st rest ih =>
      intro s sc Γ pending known ok tidy fresh
      cases ok with
      | cons head tail =>
          obtain ⟨lower, lowers⟩ := List.forall_mem_cons.mp lowers
          obtain ⟨F, b, new, exit, ⟨run, lands, grows, code⟩, rfl, known'⟩ :=
            lower known head tidy fresh
          have isOpen : (isClosed : Lower Draft Operand Slot Nat Bool).exec (s.state sc) =
              (.ok false, s.state sc) :=
            (Lands.onward tidy fresh rfl).exec_isClosed s.hosts sc
          have hosts : s.draft.Hosts s.index F := s.hosts.grows grows
          have start : (lowerBlock (st :: rest)).exec (s.state sc) =
              (lowerBlock rest).exec (atEnd s.draft s.index F b (sc.gain new)) := by
            rw [lowerBlock, Stateful.exec_bind_of_ok isOpen]
            exact Stateful.exec_bind_of_ok run
          rw [start]
          have closed := lands.exec_isClosed hosts (sc.gain new)
          cases lands with
          | onward tidy' fresh' here =>
              obtain ⟨G, b', new', exit', runs, lands', grows', codes⟩ :=
                ih lowers (s := ⟨s.draft, s.index, F, b, hosts,
                  tidy'.isOpen b List.mem_cons_self⟩) known' tail tidy' fresh'
              refine ⟨G, b', new' ++ new, exit', ?_, lands', grows.trans grows', fun H hH => ?_⟩
              · rw [← Scope.gain_gain]
                exact runs
              · have below := grows'.forget.trans hH
                exact .cons (code H below) (here ▸ codes H hH)
          | done tidy' fresh' lt =>
              refine ⟨F, b, new, none, ?_, .done tidy' fresh' lt, grows,
                fun H hH => .cut (code H hH)⟩
              cases rest with
              | nil =>
                  rw [lowerBlock]
                  rfl
              | cons st' rest =>
                  rw [lowerBlock, Stateful.exec_bind_of_ok closed]
                  rfl

/-! ## Bodies -/

theorem withFrame_atEnd {α : Type} {m : Lower Draft Operand Slot Nat α} {d : Draft} {f b b' : Nat}
    {F G : Function} {sc : Names} {new : Frame (Storage Operand Slot Nat)} {a : α}
    (h : m.exec (atEnd d f F b sc.enter) = (.ok a, atEnd d f G b' (sc.enter.gain new))) :
    (withFrame m).exec (atEnd d f F b sc) = (.ok a, atEnd d f G b' sc) := by
  refine withFrame_eq_ok.mpr ⟨_, h, ?_⟩
  show atEnd d f G b' ((sc.enter.gain new).unwind sc.depth) = atEnd d f G b' sc
  rw [Scope.unwind_gain_enter]

section

variable {sig : Signatures} {result : Ty} {d : Draft} {f : Nat} {sc : Names} {pending : List Nat}

theorem withFrame_lowers {body : List Stmt} (lowers : BlockLowers sig result body) {F : Function}
    {b : Nat} {Γ : Scope Symbol} (hosts : d.Hosts f F) (known : Known d sig sc)
    (ok : BlockOk result (sc.map (symbolOf sig)).enter body Γ) (tidy : F.Tidy (b :: pending))
    (fresh : b ∉ pending) :
    ∃ G b' exit, (withFrame (lowerBlock body)).exec (atEnd d f F b sc) =
        (.ok (), atEnd d f G b' sc) ∧
      Lands pending G b' exit ∧ F.Grows pending G ∧
      ∀ H, G.Grows [] H → BlockCode sig H result sc.enter body (F.endOf b) F.counters exit
        G.counters := by
  let s : Spot := ⟨d, f, F, b, hosts, tidy.isOpen b List.mem_cons_self⟩
  have entered : Known s.draft sig sc.enter := known.enter
  obtain ⟨G, b', new, exit, run, lands, grows, code⟩ :=
    lowers (s := s) entered (by simpa using ok) tidy fresh
  exact ⟨G, b', exit, withFrame_atEnd run, lands, grows, code⟩

/-- A body in a block of its own, from which control goes on to the block `e`. -/
theorem arm_lowers {body : List Stmt} (lowers : BlockLowers sig result body) {F : Function}
    {t e : Nat} {Γ : Scope Symbol} (hosts : d.Hosts f F) (known : Known d sig sc)
    (ok : BlockOk result (sc.map (symbolOf sig)).enter body Γ) (tidy : F.Tidy (t :: pending))
    (fresh : t ∉ pending) (empty : F.endOf t = ⟨t, 0⟩) (target : e < F.blocks.size)
    (b : Nat) (site : Construct) :
    ∃ G b' exit, (∀ {β : Type} (k : Bool → Lower Draft Operand Slot Nat β),
        (do
          moveTo (BlockId.mk f t)
          withFrame (lowerBlock body)
          let reached ← fallInto (BlockId.mk f e) site
          k reached).exec (atEnd d f F b sc) = (k exit.isSome).exec (atEnd d f G b' sc)) ∧
      G.Tidy pending ∧ F.Grows pending G ∧
      ∀ H, G.Grows [] H → BlockCode sig H result sc.enter body ⟨t, 0⟩ F.counters exit G.counters ∧
        Joins H exit e := by
  obtain ⟨G₁, b', exit, run, lands, grows, code⟩ :=
    withFrame_lowers lowers hosts known ok tidy fresh
  have below : e < G₁.blocks.size := Nat.lt_of_lt_of_le target grows.size_le
  obtain ⟨G, run₁, tidy', grows', counters, joins⟩ :=
    fallInto_exec lands (hosts.grows grows) below site sc
  refine ⟨G, b', exit, fun k => ?_, tidy', grows.trans grows', fun H hH => ⟨?_, joins H hH⟩⟩
  · have move : (moveTo ⟨f, t⟩ : Lower Draft Operand Slot Nat Unit).exec (atEnd d f F b sc) =
        (.ok (), atEnd d f F t sc) := rfl
    rw [Stateful.exec_bind_of_ok move, Stateful.exec_bind_of_ok run,
      Stateful.exec_bind_of_ok run₁]
  · rw [counters, ← empty]
    exact code H (grows'.forget.trans hH)

/-! ## Statements -/

theorem block_lowers {body : List Stmt} (lowers : BlockLowers sig result body) :
    StmtLowers sig result (.block body) := by
  intro s sc Γ pending known ok tidy fresh
  cases ok with
  | block inside =>
      obtain ⟨F, b, exit, run, lands, grows, code⟩ :=
        withFrame_lowers lowers s.hosts known inside tidy fresh
      refine Lowered.stays ⟨?_, lands, grows, fun H hH => .block (code H hH)⟩ known
      rw [lowerStmt]
      exact run

theorem declare_lowers (v : VarDecl) : StmtLowers sig result (.declare v) := by
  intro s sc Γ pending known ok tidy fresh
  cases ok with
  | declare ok =>
      obtain ⟨is, sizes, r', run, code, rank⟩ := lowerVarDecl_emits known ok
      let F := (s.emit is ⟨r', s.slots + 1⟩).function
      refine ⟨F, s.block, [(v.name, .var (.stack s.slots) v.ty sizes)],
        some ((s.function.endOf s.block).skip is.length), ?_⟩
      rw [← Scope.push_eq_gain]
      refine ⟨⟨?_, ?_, ?_, fun H hH => ?_⟩, map_bindStack rank, known.push _ _ _ _⟩
      · rw [lowerStmt]
        exact run
      · exact .onward (tidy.emit s.isOpen is _) fresh (Function.endOf_emit s.isOpen is _)
      · exact .emit s.isOpen fresh is _
      · exact .declare code ((Function.hostedAt_emit s.isOpen is _).mono hH)

theorem eval_lowers (e : Expr) : StmtLowers sig result (.eval e) := by
  intro s sc Γ pending known ok tidy fresh
  cases ok with
  | eval ok =>
      obtain ⟨is, v, r', run, code⟩ := exprLowers sig e known ok
      have lands := Lands.onward (tidy.emit s.isOpen is ⟨r', s.slots⟩) fresh
        (Function.endOf_emit s.isOpen is _)
      refine Lowered.stays ⟨?_, lands, .emit s.isOpen fresh is _, fun H hH => ?_⟩ known
      · rw [lowerStmt]
        exact Stateful.exec_bind_of_ok run
      · exact .eval code ((Function.hostedAt_emit s.isOpen is _).mono hH)

theorem ifThen_lowers {condition : Expr} {body : List Stmt} (lowers : BlockLowers sig result body) :
    StmtLowers sig result (.ifThen condition body) := by
  intro s sc Γ pending known ok tidy fresh
  cases ok with
  | ifThen test boolean inside =>
      obtain ⟨is, v, r₁, run, code⟩ :=
        lowerValue_emits (exprLowers sig condition) known test (by simp [boolean]) .ifStmt
      let t := s.function.blocks.size
      let s₁ := s.emit is ⟨r₁, s.slots⟩
      let G := s₁.function.fork ["then", "end"] s.block (.condBranch v t (t + 1))
      have left : s.function.Leaves pending s.block is ⟨r₁, s.slots⟩ ["then", "end"]
          (.condBranch v t (t + 1)) G :=
        Function.leaves tidy fresh is _ _ (by simp [Terminator.successors, t])
      have hosts : s.draft.Hosts s.index G := s.hosts.grows left.grows
      have tidy₁ : G.Tidy (t :: (t + 1) :: pending) := left.tidy
      have freshThen : t ∉ (t + 1) :: pending := by simp [left.fresh t (Nat.le_refl _)]
      have freshEnd : t + 1 ∉ pending := left.fresh _ (Nat.le_succ _)
      have lt : t + 1 < G.blocks.size := by simp [left.size, t]
      obtain ⟨F, b', exit, arm, tidy', grows, arms⟩ :=
        arm_lowers lowers hosts known inside tidy₁ freshThen
          (left.empty t (Nat.le_refl _) (by simp [t])) lt s.block .ifStmt
      have lands := Lands.join tidy' freshEnd grows lt
        (left.empty (t + 1) (Nat.le_succ _) (by simp [t]))
      have within : G.Grows [] F := grows.forget
      refine Lowered.stays ⟨?_, lands, left.grows.trans (grows.weaken (by simp_all)), ?_⟩ known
      · rw [lowerStmt]
        exact exec_seq rfl <| exec_seq run <|
          exec_seq (exec_addBlock s₁ sc [] "then" (by simp [s₁, t])) <|
          exec_seq (exec_addBlock s₁ sc ["then"] "end" (by simp [s₁, t])) <|
          exec_seq (exec_condBranch (s := s₁.growAll ["then", "end"]) v t (t + 1)) <| arm _
      · intro H hH
        obtain ⟨codes, joins⟩ := arms H hH
        exact .ifThen boolean code (left.hosted.mono (within.trans hH))
          (left.ends.mono (within.trans hH)) (left.counters ▸ codes) joins

/-- A block that control never comes to is closed as it is. -/
theorem unreachable_lowers {F : Function} {e : Nat} (hosts : d.Hosts f F)
    (tidy : F.Tidy (e :: pending)) (fresh : e ∉ pending) (site : Construct) :
    ∃ G, (request site .unreachable : Lower Draft Operand Slot Nat Unit).exec (atEnd d f F e sc) =
        (.ok (), atEnd d f G e sc) ∧
      Lands pending G e none ∧ F.Grows pending G ∧ G.counters = F.counters := by
  let s : Spot := ⟨d, f, F, e, hosts, tidy.isOpen e List.mem_cons_self⟩
  have closed := Function.leaves_bare (t := .unreachable) tidy fresh []
    (by simp [Terminator.successors])
  exact ⟨F.fork [] e .unreachable, exec_unreachable (s := s),
    .done closed.tidy fresh (closed.size ▸ s.isOpen.lt), closed.grows, closed.counters⟩

/-- The block behind two arms: one that neither of them comes to is closed as it is. -/
theorem end_lowers {F : Function} {e : Nat} (hosts : d.Hosts f F) (tidy : F.Tidy (e :: pending))
    (fresh : e ∉ pending) (empty : F.endOf e = ⟨e, 0⟩) (reached : Bool) (site : Construct) :
    ∃ G, (if reached then pure () else request site .unreachable :
        Lower Draft Operand Slot Nat Unit).exec (atEnd d f F e sc) = (.ok (), atEnd d f G e sc) ∧
      Lands pending G e (if reached then some ⟨e, 0⟩ else none) ∧ F.Grows pending G ∧
      G.counters = F.counters := by
  cases reached with
  | true => exact ⟨F, rfl, .onward tidy fresh empty, .refl _ _, rfl⟩
  | false => exact unreachable_lowers hosts tidy fresh site

/-- Two bodies, each in a block of its own, from which control goes on to the block `e`. -/
theorem arms_lower {body other : List Stmt} (lowers : BlockLowers sig result body)
    (lowersToo : BlockLowers sig result other) {G : Function} {x y e : Nat} {Γ Δ : Scope Symbol}
    (hosts : d.Hosts f G) (known : Known d sig sc)
    (inside : BlockOk result (sc.map (symbolOf sig)).enter body Γ)
    (otherwise : BlockOk result (sc.map (symbolOf sig)).enter other Δ)
    (tidy : G.Tidy (x :: y :: pending)) (fresh : x ∉ y :: pending) (freshToo : y ∉ pending)
    (empty : G.endOf x = ⟨x, 0⟩) (emptyToo : G.endOf y = ⟨y, 0⟩) (hy : y < G.blocks.size)
    (he : e < G.blocks.size) (b : Nat) (site : Construct) :
    ∃ F b' exit exit', (∀ {β : Type} (k : Bool → Bool → Lower Draft Operand Slot Nat β),
        (do
          moveTo (BlockId.mk f x)
          withFrame (lowerBlock body)
          let reached ← fallInto (BlockId.mk f e) site
          moveTo (BlockId.mk f y)
          withFrame (lowerBlock other)
          let reachedToo ← fallInto (BlockId.mk f e) site
          k reached reachedToo).exec (atEnd d f G b sc) =
            (k exit.isSome exit'.isSome).exec (atEnd d f F b' sc)) ∧
      F.Tidy pending ∧ G.Grows pending F ∧
      ∀ H, F.Grows [] H → ∃ between,
        BlockCode sig H result sc.enter body ⟨x, 0⟩ G.counters exit between ∧ Joins H exit e ∧
        BlockCode sig H result sc.enter other ⟨y, 0⟩ between exit' F.counters ∧ Joins H exit' e := by
  obtain ⟨G', b₁, exit, arm, tidy', grows, codes⟩ :=
    arm_lowers lowers hosts known inside tidy fresh empty he b site
  have emptyToo' : G'.endOf y = ⟨y, 0⟩ := (grows.endOf_eq List.mem_cons_self hy).trans emptyToo
  obtain ⟨F, b₂, exit', armToo, tidy'', grows', codesToo⟩ :=
    arm_lowers lowersToo (hosts.grows grows) known otherwise tidy' freshToo emptyToo'
      (Nat.lt_of_lt_of_le he grows.size_le) b₁ site
  refine ⟨F, b₂, exit, exit', fun k => (arm _).trans (armToo _), tidy'',
    (grows.weaken fun i hi => List.mem_cons_of_mem _ hi).trans grows', fun H hH => ?_⟩
  obtain ⟨code, joins⟩ := codes H (grows'.forget.trans hH)
  obtain ⟨codeToo, joinsToo⟩ := codesToo H hH
  exact ⟨G'.counters, code, joins, codeToo, joinsToo⟩

theorem ifElse_lowers {condition : Expr} {body other : List Stmt}
    (lowers : BlockLowers sig result body) (lowersToo : BlockLowers sig result other) :
    StmtLowers sig result (.ifElse condition body other) := by
  intro s sc Γ pending known ok tidy fresh
  cases ok with
  | ifElse test boolean inside otherwise =>
      obtain ⟨is, v, r₁, run, code⟩ :=
        lowerValue_emits (exprLowers sig condition) known test (by simp [boolean]) .ifStmt
      let t := s.function.blocks.size
      let s₁ := s.emit is ⟨r₁, s.slots⟩
      let G := s₁.function.fork ["then", "else", "end"] s.block (.condBranch v t (t + 1))
      have left : s.function.Leaves pending s.block is ⟨r₁, s.slots⟩ ["then", "else", "end"]
          (.condBranch v t (t + 1)) G :=
        Function.leaves tidy fresh is _ _ (by simp [Terminator.successors, t])
      have tidy₁ : G.Tidy (t :: (t + 1) :: (t + 2) :: pending) := left.tidy
      have freshThen : t ∉ (t + 1) :: (t + 2) :: pending := by
        simp [left.fresh t (Nat.le_refl _)]
      have freshElse : t + 1 ∉ (t + 2) :: pending := by
        simp [left.fresh (t + 1) (Nat.le_succ _)]
      have freshEnd : t + 2 ∉ pending := left.fresh _ (Nat.le_add_right _ 2)
      have lt : t + 2 < G.blocks.size := by simp [left.size, t]
      obtain ⟨F₁, b₁, exit, exit', arms, tidy₂, grows₁, codes⟩ :=
        arms_lower lowers lowersToo (s.hosts.grows left.grows) known inside otherwise tidy₁ freshThen
          freshElse (left.empty t (Nat.le_refl _) (by simp [t]))
          (left.empty (t + 1) (Nat.le_succ _) (by simp [t])) (by omega) lt s.block .ifStmt
      have empty : F₁.endOf (t + 2) = ⟨t + 2, 0⟩ :=
        (grows₁.endOf_eq List.mem_cons_self lt).trans
          (left.empty (t + 2) (Nat.le_add_right _ 2) (by simp [t]))
      have grown : s.function.Grows pending F₁ :=
        left.grows.trans (grows₁.weaken fun i hi => List.mem_cons_of_mem _ hi)
      obtain ⟨F, last, lands, grows₂, counters⟩ :=
        end_lowers (s.hosts.grows grown) tidy₂ freshEnd empty (exit.isSome || exit'.isSome) .ifStmt
      refine Lowered.stays ⟨?_, lands, grown.trans grows₂, fun H hH => ?_⟩ known
      · rw [lowerStmt]
        exact exec_seq rfl <| exec_seq run <|
          exec_seq (exec_addBlock s₁ sc [] "then" (by simp [s₁, t])) <|
          exec_seq (exec_addBlock s₁ sc ["then"] "else" (by simp [s₁, t])) <|
          exec_seq (exec_addBlock s₁ sc ["then", "else"] "end" (by simp [s₁, t])) <|
          exec_seq (exec_condBranch (s := s₁.growAll ["then", "else", "end"]) v t (t + 1)) <|
          (arms _).trans <| exec_seq rfl last
      · have below : F₁.Grows [] H := grows₂.forget.trans hH
        have within : G.Grows [] H := grows₁.forget.trans below
        obtain ⟨between, inside₁, joins₁, inside₂, joins₂⟩ := codes H below
        rw [counters]
        exact .ifElse boolean code (left.hosted.mono within) (left.ends.mono within)
          (left.counters ▸ inside₁) joins₁ inside₂ joins₂

/-- The test of a loop in a block of its own. -/
theorem test_lowers {condition : Expr} {G : Function} {h : Nat} (hosts : d.Hosts f G)
    (known : Known d sig sc) (test : ExprOk (sc.map (symbolOf sig)) condition)
    (boolean : condition.ty = .boolean) (tidy : G.Tidy (h :: pending)) (fresh : h ∉ pending)
    (empty : G.endOf h = ⟨h, 0⟩) {x y : Nat} (hx : x < G.blocks.size) (hy : y < G.blocks.size)
    (b : Nat) (site : Construct) :
    ∃ G' is v r', (∀ {β : Type} (k : Lower Draft Operand Slot Nat β),
        (do
          moveTo (BlockId.mk f h)
          let v ← lowerValue site condition
          let _ : Unit ← request site (.condBranch v (BlockId.mk f x) (BlockId.mk f y))
          k).exec (atEnd d f G b sc) = k.exec (atEnd d f G' h sc)) ∧
      G'.Tidy pending ∧ G.Grows pending G' ∧ G'.blocks.size = G.blocks.size ∧
      G'.counters = ⟨r', G.slots⟩ ∧ ExprCode sig sc condition G.registers is (some v) r' ∧
      HostedAt G' ⟨h, 0⟩ is ∧ EndsAt G' ⟨h, is.length⟩ (.condBranch v x y) := by
  let s : Spot := ⟨d, f, G, h, hosts, tidy.isOpen h List.mem_cons_self⟩
  obtain ⟨is, v, r', run, code⟩ :=
    lowerValue_emits (s := s) (exprLowers sig condition) known test (by simp [boolean]) site
  have left : G.Leaves pending h is ⟨r', s.slots⟩ [] (.condBranch v x y) _ :=
    Function.leaves tidy fresh is _ [] (by simp [Terminator.successors, hx, hy])
  have hosted := left.hosted
  have ends := left.ends
  rw [empty] at hosted ends
  rw [Place.skip_start] at ends
  refine ⟨_, is, v, r', fun k => ?_, left.tidy, left.grows, left.size, left.counters, code,
    hosted, ends⟩
  exact exec_seq rfl <| exec_seq run <| exec_seq (exec_condBranch (s := s.emit _ _) v x y) rfl

/-- The test of a loop and its body, each in a block of its own. From the body control goes on to the
block `e`. -/
theorem round_lowers {condition : Expr} {body : List Stmt} {Γ : Scope Symbol}
    (lowers : BlockLowers sig result body) {G : Function} {h x y e : Nat} (hosts : d.Hosts f G)
    (known : Known d sig sc) (test : ExprOk (sc.map (symbolOf sig)) condition)
    (boolean : condition.ty = .boolean)
    (inside : BlockOk result (sc.map (symbolOf sig)).enter body Γ) (tidy : G.Tidy (h :: x :: pending))
    (fresh : h ∉ x :: pending) (freshBody : x ∉ pending) (empty : G.endOf h = ⟨h, 0⟩)
    (emptyBody : G.endOf x = ⟨x, 0⟩) (hx : x < G.blocks.size) (hy : y < G.blocks.size)
    (he : e < G.blocks.size) (b : Nat) (site : Construct) :
    ∃ F b' exit is v r', (∀ {β : Type} (k : Lower Draft Operand Slot Nat β),
        (do
          moveTo (BlockId.mk f h)
          let v ← lowerValue site condition
          let _ : Unit ← request site (.condBranch v (BlockId.mk f x) (BlockId.mk f y))
          moveTo (BlockId.mk f x)
          withFrame (lowerBlock body)
          let _ ← fallInto (BlockId.mk f e) site
          k).exec (atEnd d f G b sc) = k.exec (atEnd d f F b' sc)) ∧
      F.Tidy pending ∧ G.Grows pending F ∧ ExprCode sig sc condition G.registers is (some v) r' ∧
      ∀ H, F.Grows [] H → HostedAt H ⟨h, 0⟩ is ∧ EndsAt H ⟨h, is.length⟩ (.condBranch v x y) ∧
        BlockCode sig H result sc.enter body ⟨x, 0⟩ ⟨r', G.slots⟩ exit F.counters ∧
        Joins H exit e := by
  obtain ⟨G', is, v, r', head, tidy', grows, size, counters, code, hosted, ends⟩ :=
    test_lowers (x := x) (y := y) hosts known test boolean tidy fresh empty hx hy b site
  have emptyBody' : G'.endOf x = ⟨x, 0⟩ := (grows.endOf_eq List.mem_cons_self hx).trans emptyBody
  obtain ⟨F, b', exit, arm, tidy'', grows', arms⟩ :=
    arm_lowers (e := e) lowers (hosts.grows grows) known inside tidy' freshBody emptyBody'
      (size ▸ he) h site
  refine ⟨F, b', exit, is, v, r', fun k => (head _).trans (arm fun _ => k), tidy'',
    (grows.weaken fun i hi => List.mem_cons_of_mem _ hi).trans grows', code, fun H hH => ?_⟩
  have below : G'.Grows [] H := grows'.forget.trans hH
  obtain ⟨codes, joins⟩ := arms H hH
  exact ⟨hosted.mono below, ends.mono below, counters ▸ codes, joins⟩

theorem whileLoop_lowers {condition : Expr} {body : List Stmt}
    (lowers : BlockLowers sig result body) : StmtLowers sig result (.whileLoop condition body) := by
  intro s sc Γ pending known ok tidy fresh
  cases ok with
  | whileLoop test boolean inside =>
      let t := s.function.blocks.size
      let G := s.function.fork ["cond", "body", "end"] s.block (.branch t)
      have left : s.function.Leaves pending s.block [] s.function.counters ["cond", "body", "end"]
          (.branch t) G :=
        Function.leaves_bare tidy fresh _ (by simp [Terminator.successors, t])
      have tidy₁ : G.Tidy (t :: (t + 1) :: (t + 2) :: pending) := left.tidy
      have freshCond : t ∉ (t + 1) :: (t + 2) :: pending := by
        simp [left.fresh t (Nat.le_refl _)]
      have freshBody : t + 1 ∉ (t + 2) :: pending := by
        simp [left.fresh (t + 1) (Nat.le_succ _)]
      have freshEnd : t + 2 ∉ pending := left.fresh _ (Nat.le_add_right _ 2)
      have lt : t + 2 < G.blocks.size := by simp [left.size, t]
      obtain ⟨F, b', exit, is, v, r', round, tidy', grows, code, codes⟩ :=
        round_lowers (x := t + 1) (y := t + 2) (e := t) lowers (s.hosts.grows left.grows) known test
          boolean inside tidy₁ freshCond freshBody (left.empty t (Nat.le_refl _) (by simp [t]))
          (left.empty (t + 1) (Nat.le_succ _) (by simp [t])) (by omega) lt (by omega) s.block
          .whileStmt
      have lands := Lands.join tidy' freshEnd grows lt
        (left.empty (t + 2) (Nat.le_add_right _ 2) (by simp [t]))
      refine Lowered.stays ⟨?_, lands,
        left.grows.trans (grows.weaken fun i hi => List.mem_cons_of_mem _ hi), ?_⟩ known
      · rw [lowerStmt]
        exact exec_seq rfl <|
          exec_seq (exec_addBlock s sc [] "cond" rfl) <|
          exec_seq (exec_addBlock s sc ["cond"] "body" rfl) <|
          exec_seq (exec_addBlock s sc ["cond", "body"] "end" rfl) <|
          exec_seq (exec_branch (s := s.growAll ["cond", "body", "end"]) t) <| round _
      · intro H hH
        have start : G.registers = s.registers ∧ G.slots = s.slots := Counters.mk.inj left.counters
        obtain ⟨hosted, ends, inside, joins⟩ := codes H hH
        rw [start.1] at code
        rw [start.2] at inside
        exact .whileLoop (left.ends.mono (grows.forget.trans hH)) boolean code hosted ends inside joins

/-- The step of a loop in a block of its own. -/
theorem step_lowers {step : Expr} {G : Function} {h x : Nat} (hosts : d.Hosts f G)
    (known : Known d sig sc) (next : ExprOk (sc.map (symbolOf sig)) step)
    (tidy : G.Tidy (h :: pending)) (fresh : h ∉ pending) (empty : G.endOf h = ⟨h, 0⟩)
    (hx : x < G.blocks.size) (b : Nat) (site : Construct) :
    ∃ G' is v r', (∀ {β : Type} (k : Lower Draft Operand Slot Nat β),
        (do
          moveTo (BlockId.mk f h)
          let _ ← lowerExpr step
          let _ : Unit ← request site (.branch (BlockId.mk f x))
          k).exec (atEnd d f G b sc) = k.exec (atEnd d f G' h sc)) ∧
      G'.Tidy pending ∧ G.Grows pending G' ∧ G'.counters = ⟨r', G.slots⟩ ∧
      ExprCode sig sc step G.registers is v r' ∧ HostedAt G' ⟨h, 0⟩ is ∧
      EndsAt G' ⟨h, is.length⟩ (.branch x) := by
  let s : Spot := ⟨d, f, G, h, hosts, tidy.isOpen h List.mem_cons_self⟩
  obtain ⟨is, v, r', run, code⟩ := exprLowers sig step (s := s) known next
  have left : G.Leaves pending h is ⟨r', s.slots⟩ [] (.branch x) _ :=
    Function.leaves tidy fresh is _ [] (by simpa [Terminator.successors] using hx)
  have hosted := left.hosted
  have ends := left.ends
  rw [empty] at hosted ends
  rw [Place.skip_start] at ends
  refine ⟨_, is, v, r', fun k => ?_, left.tidy, left.grows, left.counters, code, hosted, ends⟩
  exact exec_seq rfl <| exec_seq run <| exec_seq (exec_branch (s := s.emit _ _) x) rfl

/-- The part of a `for` loop behind its declaration. -/
theorem iteration_lowers {s : Spot} {condition step : Expr} {body : List Stmt} {Γ : Scope Symbol}
    (lowers : BlockLowers sig result body) (known : Known s.draft sig sc)
    (test : ExprOk (sc.map (symbolOf sig)) condition) (boolean : condition.ty = .boolean)
    (next : ExprOk (sc.map (symbolOf sig)) step)
    (inside : BlockOk result (sc.map (symbolOf sig)).enter body Γ)
    (tidy : s.function.Tidy (s.block :: pending)) (fresh : s.block ∉ pending) :
    ∃ F e, (do
        let condBlock ← addBlock s.index "cond"
        let bodyBlock ← addBlock s.index "body"
        let stepBlock ← addBlock s.index "step"
        let endBlock ← addBlock s.index "end"
        let _ : Unit ← request .forStmt (.branch condBlock)
        moveTo condBlock
        let condition ← lowerValue .forStmt condition
        let _ : Unit ← request .forStmt (.condBranch condition bodyBlock endBlock)
        moveTo bodyBlock
        withFrame (lowerBlock body)
        let _ ← fallInto stepBlock .forStmt
        moveTo stepBlock
        let _ ← lowerExpr step
        let _ : Unit ← request .forStmt (.branch condBlock)
        moveTo endBlock : Lower Draft Operand Slot Nat Unit).exec (s.state sc) =
          (.ok (), atEnd s.draft s.index F e sc) ∧
      Lands pending F e (some ⟨e, 0⟩) ∧ s.function.Grows pending F ∧
      ∀ H, F.Grows [] H → ∀ {outer : Names} {v : VarDecl} {p : Place} {r c : Nat}
        {is : List Instruction} {sizes : List Operand},
        VarCode sig outer.enter v c r is sizes s.registers → s.slots = c + 1 →
        bindStack outer.enter v c sizes = sc → HostedAt H p is →
        p.skip is.length = s.function.endOf s.block →
        StmtCode sig H result outer (.forLoop v condition step body) p ⟨r, c⟩ outer (some ⟨e, 0⟩)
          F.counters := by
  let t := s.function.blocks.size
  let G := s.function.fork ["cond", "body", "step", "end"] s.block (.branch t)
  have left : s.function.Leaves pending s.block [] s.function.counters
      ["cond", "body", "step", "end"] (.branch t) G :=
    Function.leaves_bare tidy fresh _ (by simp [Terminator.successors, t])
  have tidy₁ : G.Tidy (t :: (t + 1) :: (t + 2) :: (t + 3) :: pending) := left.tidy
  have freshCond : t ∉ (t + 1) :: (t + 2) :: (t + 3) :: pending := by
    simp [left.fresh t (Nat.le_refl _)]
  have freshBody : t + 1 ∉ (t + 2) :: (t + 3) :: pending := by
    simp [left.fresh (t + 1) (Nat.le_succ _)]
  have freshStep : t + 2 ∉ (t + 3) :: pending := by
    simp [left.fresh (t + 2) (Nat.le_add_right _ 2)]
  have freshEnd : t + 3 ∉ pending := left.fresh _ (Nat.le_add_right _ 3)
  have lt : t + 3 < G.blocks.size := by simp [left.size, t]
  have hosts : s.draft.Hosts s.index G := s.hosts.grows left.grows
  obtain ⟨F₁, b₁, exit, js, w, r₂, round, tidy₂, grows₁, code, codes⟩ :=
    round_lowers (x := t + 1) (y := t + 3) (e := t + 2) lowers hosts known test boolean inside tidy₁
      freshCond freshBody (left.empty t (Nat.le_refl _) (by simp [t]))
      (left.empty (t + 1) (Nat.le_succ _) (by simp [t])) (by omega) lt (by omega) s.block .forStmt
  have size := grows₁.size_le
  have emptyStep : F₁.endOf (t + 2) = ⟨t + 2, 0⟩ :=
    (grows₁.endOf_eq List.mem_cons_self (by omega)).trans
      (left.empty (t + 2) (Nat.le_add_right _ 2) (by simp [t]))
  obtain ⟨F, ks, x, r₃, again, tidy₃, grows₂, counters, stepCode, hostedStep, endsStep⟩ :=
    step_lowers (x := t) (hosts.grows grows₁) known next tidy₂ freshStep emptyStep (by omega) b₁
      .forStmt
  have grows : G.Grows ((t + 3) :: pending) F :=
    (grows₁.weaken fun i hi => List.mem_cons_of_mem _ hi).trans grows₂
  have lands := Lands.join tidy₃ freshEnd grows lt
    (left.empty (t + 3) (Nat.le_add_right _ 3) (by simp [t]))
  refine ⟨F, t + 3, ?_, lands,
    left.grows.trans (grows.weaken fun i hi => List.mem_cons_of_mem _ hi), ?_⟩
  · exact exec_seq (exec_addBlock s sc [] "cond" rfl) <|
      exec_seq (exec_addBlock s sc ["cond"] "body" rfl) <|
      exec_seq (exec_addBlock s sc ["cond", "body"] "step" rfl) <|
      exec_seq (exec_addBlock s sc ["cond", "body", "step"] "end" rfl) <|
      exec_seq (exec_branch (s := s.growAll ["cond", "body", "step", "end"]) t) <|
      (round _).trans <| again _
  · intro H hH outer v p r c is sizes declared slots names hostedVar place
    subst names
    have start : G.registers = s.registers ∧ G.slots = s.slots := Counters.mk.inj left.counters
    have enters := left.ends.mono (grows.forget.trans hH)
    obtain ⟨hosted, ends, bodyCode, joins⟩ := codes H (grows₂.forget.trans hH)
    rw [start.1] at code
    rw [start.2, slots] at bodyCode
    rw [List.length_nil, Place.skip_zero, ← place] at enters
    rw [counters]
    exact .forLoop declared hostedVar enters boolean code hosted ends bodyCode joins stepCode
      (hostedStep.mono hH) (endsStep.mono hH)

theorem forLoop_lowers {v : VarDecl} {condition step : Expr} {body : List Stmt}
    (lowers : BlockLowers sig result body) :
    StmtLowers sig result (.forLoop v condition step body) := by
  intro s sc Γ pending known ok tidy fresh
  cases ok with
  | forLoop ok test boolean next inside =>
      have entered : Known s.draft sig sc.enter := known.enter
      obtain ⟨is, sizes, r₁, run, declared, rank⟩ :=
        lowerVarDecl_emits (s := s) entered (by simpa using ok)
      have names : (bindStack sc.enter v s.slots sizes).map (symbolOf sig) =
          bindVar (sc.map (symbolOf sig)).enter v := by
        simpa using map_bindStack rank
      rw [← names] at test next inside
      obtain ⟨F, e, rest, lands, grows, codes⟩ :=
        iteration_lowers (s := s.emit is ⟨r₁, s.slots + 1⟩) lowers
          (known.enter.push _ _ _ _) test boolean next inside (tidy.emit s.isOpen is _) fresh
      refine Lowered.stays ⟨?_, lands, (Function.Grows.emit s.isOpen fresh is _).trans grows,
        fun H hH => ?_⟩ known
      · rw [lowerStmt]
        rw [Scope.push_eq_gain] at rest
        rw [bindStack, Scope.push_eq_gain] at run
        exact withFrame_atEnd (exec_seq rfl <| exec_seq run rest)
      · have below := grows.forget.trans hH
        exact codes H hH declared rfl rfl ((Function.hostedAt_emit s.isOpen is _).mono below)
          (Function.endOf_emit s.isOpen is _).symm

theorem ret_lowers (value : Option Converted) : StmtLowers sig result (.ret value) := by
  intro s sc Γ pending known ok tidy fresh
  cases ok with
  | @ret _ value returns ok fits target =>
      obtain ⟨is, v, r', run, code⟩ :=
        lowerConverted_emits (exprLowers sig value.value) known ok fits .returnStmt
      have left : s.function.Leaves pending s.block is ⟨r', s.slots⟩ [] (.ret (some v)) _ :=
        Function.leaves tidy fresh is _ [] (by simp [Terminator.successors])
      refine Lowered.stays ⟨?_, .done left.tidy fresh (left.size ▸ s.isOpen.lt), left.grows,
        fun H hH => ?_⟩ known
      · rw [lowerStmt]
        exact exec_seq run (exec_ret (s := s.emit is ⟨r', s.slots⟩) (some v))
      · rw [left.counters]
        exact .ret target code (left.hosted.mono hH) (left.ends.mono hH)
  | retVoid void =>
      have left : s.function.Leaves pending s.block [] s.function.counters [] (.ret none)
          (s.function.fork [] s.block (.ret none)) :=
        Function.leaves_bare tidy fresh [] (by simp [Terminator.successors])
      refine Lowered.stays ⟨?_, .done left.tidy fresh (left.size ▸ s.isOpen.lt), left.grows,
        fun H hH => ?_⟩ known
      · rw [lowerStmt]
        exact exec_ret none
      · rw [left.counters]
        exact .retVoid void (left.ends.mono hH)

/-! ## Cases -/

/-- One case of a chain: the comparison, and the body in a block of its own. Control that does not
enter the body comes to the next block, which is empty. -/
theorem case_lowers {value : Converted} {body : List Stmt} {Γ : Scope Symbol} (x : Operand)
    (test : Predicate) (lowers : BlockLowers sig result body) {s : Spot} {e : Nat}
    (known : Known s.draft sig sc) (ok : ExprOk (sc.map (symbolOf sig)) value.value)
    (fits : value.Fits) (inside : BlockOk result (sc.map (symbolOf sig)).enter body Γ)
    (tidy : s.function.Tidy (s.block :: pending)) (fresh : s.block ∉ pending) (target : e ∈ pending) :
    ∃ F n, (∀ {β : Type} (k : Lower Draft Operand Slot Nat β),
        (do
          let value ← lowerConverted .switchCase value
          let matched : Operand ← request .switchCase (.compare test x value "case_match")
          let caseBlock ← addBlock s.index "case"
          let nextBlock ← addBlock s.index "next"
          let _ : Unit ← request .switchCase (.condBranch matched caseBlock nextBlock)
          moveTo caseBlock
          withFrame (lowerBlock body)
          let _ ← fallInto (BlockId.mk s.index e) .switchCase
          moveTo nextBlock
          k).exec (s.state sc) = k.exec (atEnd s.draft s.index F n sc)) ∧
      F.Tidy (n :: pending) ∧ n ∉ pending ∧ s.function.Grows pending F ∧ F.endOf n = ⟨n, 0⟩ ∧
      ∀ H, F.Grows [] H → ∀ {rest : List Case} {q : Place} {k' : Counters},
        ChainCode sig H result sc value.target test x e rest ⟨n, 0⟩ F.counters q k' →
        ChainCode sig H result sc value.target test x e (.mk value test value.constant? body :: rest)
          (s.function.endOf s.block) s.function.counters q k' := by
  obtain ⟨is, v, r₁, run, code⟩ :=
    lowerConverted_emits (exprLowers sig value.value) known ok fits .switchCase
  let t := s.function.blocks.size
  let s₁ := (s.emit is ⟨r₁, s.slots⟩).emit [.compare r₁ test x v] ⟨r₁ + 1, s.slots⟩
  let js := is ++ [.compare r₁ test x v]
  let G := s₁.function.fork ["case", "next"] s.block (.condBranch (.register r₁) t (t + 1))
  have left : s.function.Leaves pending s.block js ⟨r₁ + 1, s.slots⟩ ["case", "next"]
      (.condBranch (.register r₁) t (t + 1)) G := by
    have := Function.leaves tidy fresh js ⟨r₁ + 1, s.slots⟩ ["case", "next"]
      (t := .condBranch (.register r₁) t (t + 1)) (by simp [Terminator.successors, t])
    rwa [← Function.emit_emit] at this
  have tidy₁ : G.Tidy (t :: (t + 1) :: pending) := left.tidy
  have freshCase : t ∉ (t + 1) :: pending := by simp [left.fresh t (Nat.le_refl _)]
  have below : e < G.blocks.size := (tidy₁.isOpen e (by simp [target])).lt
  obtain ⟨F, b, exit, arm, tidy₂, grows, arms⟩ :=
    arm_lowers lowers (s.hosts.grows left.grows) known inside tidy₁ freshCase
      (left.empty t (Nat.le_refl _) (by simp [t])) below s.block .switchCase
  have empty : F.endOf (t + 1) = ⟨t + 1, 0⟩ :=
    (grows.endOf_eq List.mem_cons_self (by simp [left.size, t])).trans
      (left.empty (t + 1) (Nat.le_succ _) (by simp [t]))
  refine ⟨F, t + 1, fun k => ?_, tidy₂, left.fresh _ (Nat.le_succ _),
    left.grows.trans (grows.weaken fun i hi => List.mem_cons_of_mem _ hi), empty, ?_⟩
  · exact exec_seq run <|
      exec_seq (emits_compare (s := s.emit is ⟨r₁, s.slots⟩) test x v "case_match") <|
      exec_seq (exec_addBlock s₁ sc [] "case" (by simp [s₁, t])) <|
      exec_seq (exec_addBlock s₁ sc ["case"] "next" (by simp [s₁, t])) <|
      exec_seq (exec_condBranch (s := s₁.growAll ["case", "next"]) (.register r₁) t (t + 1)) <|
      (arm _).trans <| exec_seq rfl rfl
  · intro H hH rest q k' chain
    have within : G.Grows [] H := grows.forget.trans hH
    obtain ⟨bodyCode, joins⟩ := arms H hH
    rw [left.counters] at bodyCode
    have branch := left.ends.mono within
    rw [List.length_append, List.length_singleton] at branch
    exact .cons rfl code (left.hosted.mono within) branch bodyCode joins chain

theorem chain_lowers {cases : List Case} {compared : Ty} {test : Predicate} (x : Operand)
    (lowers : ∀ c ∈ cases, BlockLowers sig result c.body) {s : Spot} {e : Nat}
    (known : Known s.draft sig sc) (ok : CasesOk result (sc.map (symbolOf sig)) compared test cases)
    (tidy : s.function.Tidy (s.block :: pending)) (fresh : s.block ∉ pending) (target : e ∈ pending) :
    ∃ F b, (lowerChain s.index x (BlockId.mk s.index e) cases).exec (s.state sc) =
        (.ok (), atEnd s.draft s.index F b sc) ∧
      F.Tidy (b :: pending) ∧ b ∉ pending ∧ s.function.Grows pending F ∧
      ∀ H, F.Grows [] H → ChainCode sig H result sc compared test x e cases
        (s.function.endOf s.block) s.function.counters (F.endOf b) F.counters := by
  induction cases generalizing s with
  | nil =>
      refine ⟨s.function, s.block, ?_, tidy, fresh, .refl _ _, fun H _ => .nil⟩
      rw [lowerChain]
      rfl
  | cons case rest ih =>
      cases ok with
      | @cons _ _ _ _ value body _ ok fits compares inside tail =>
          obtain ⟨lower, lowers⟩ := List.forall_mem_cons.mp lowers
          subst compares
          obtain ⟨F₁, n, first, tidy₁, fresh₁, grows₁, empty, link⟩ :=
            case_lowers x test lower known ok fits inside tidy fresh target
          let s₁ : Spot := ⟨s.draft, s.index, F₁, n, s.hosts.grows grows₁,
            tidy₁.isOpen _ List.mem_cons_self⟩
          obtain ⟨F, b, runs, tidy', fresh', grows₂, codes⟩ :=
            ih lowers (s := s₁) known tail tidy₁ fresh₁
          refine ⟨F, b, ?_, tidy', fresh', grows₁.trans grows₂, fun H hH => ?_⟩
          · rw [lowerChain]
            exact (first _).trans runs
          · exact link H (grows₂.forget.trans hH) (empty ▸ codes H hH)

theorem chainSwitch_lowers (scrutinee : Converted) {cases : List Case}
    (lowers : ∀ c ∈ cases, BlockLowers sig result c.body) :
    StmtLowers sig result (.switch scrutinee cases false) := by
  intro s sc Γ pending known ok tidy fresh
  cases ok with
  | switch ok fits comparable selected branches tabled =>
      obtain ⟨is, v, r₁, run, code⟩ :=
        lowerConverted_emits (exprLowers sig scrutinee.value) known ok fits .switchStmt
      let e := s.function.blocks.size
      let s₁ := s.emit is ⟨r₁, s.slots⟩
      let s₂ := s₁.growAll ["end"]
      have size : s₁.function.blocks.size = e := s.size_emit _ _
      have tidy₂ : s₂.function.Tidy (s.block :: e :: pending) := by
        have := (tidy.emit s.isOpen is ⟨r₁, s.slots⟩).growAll ["end"]
        rw [Function.size_emit] at this
        refine this.congr fun i => ?_
        simp only [List.length_singleton, List.range'_one, List.singleton_append, List.mem_cons, e]
        tauto
      have freshEnd : e ∉ pending := fun h => tidy.notMem (Nat.le_refl _) (List.mem_cons_of_mem _ h)
      have freshHere : s.block ∉ e :: pending := by
        have : s.block ≠ e := Nat.ne_of_lt s.isOpen.lt
        simp [this, fresh]
      have empty : s₂.function.endOf e = ⟨e, 0⟩ :=
        Function.endOf_growAll (Nat.le_of_eq size) (by simp [size])
      obtain ⟨F, b, runs, tidy₃, fresh₃, grows, chain⟩ :=
        chain_lowers v lowers (s := s₂) (e := e) known branches tidy₂ freshHere List.mem_cons_self
      let s₃ : Spot := ⟨s.draft, s.index, F, b, s₂.hosts.grows grows,
        tidy₃.isOpen b List.mem_cons_self⟩
      have lt : e < s₂.function.blocks.size := (tidy₂.isOpen e (by simp)).lt
      have small : e < F.blocks.size := Nat.lt_of_lt_of_le lt grows.size_le
      have left : F.Leaves (e :: pending) b [] F.counters [] (.branch e)
          (F.fork [] b (.branch e)) :=
        Function.leaves_bare tidy₃ fresh₃ [] (by simpa [Terminator.successors] using small)
      have onward := grows.trans left.grows
      have start : s.function.Grows pending s₂.function :=
        (Function.Grows.emit s.isOpen fresh is _).trans (.growAll _ _ _)
      refine Lowered.stays ⟨?_, Lands.join left.tidy freshEnd onward lt empty,
        start.trans (onward.weaken fun i hi => List.mem_cons_of_mem _ hi), fun H hH => ?_⟩ known
      · rw [lowerStmt]
        exact exec_seq rfl <| exec_seq run <|
          exec_seq (exec_addBlock s₁ sc [] "end" (by simp [size])) <| exec_seq runs <|
          exec_seq (exec_branch (s := s₃) e) rfl
      · have grown : s₁.function.Grows [] s₂.function := .growAll _ _ _
        have kept : s₁.function.Grows [s.block] s₂.function := .growAll _ _ _
        have below : s₂.function.Grows [] H := onward.forget.trans hH
        have place : s₂.function.endOf s.block = (s.function.endOf s.block).skip is.length :=
          (kept.endOf_eq List.mem_cons_self s₁.isOpen.lt).trans (Function.endOf_emit s.isOpen is _)
        have codes := chain H (left.grows.forget.trans hH)
        have counters : s₂.function.counters = ⟨r₁, s.slots⟩ := Function.counters_growAll _ _
        rw [show s₂.block = s.block from rfl, place, counters] at codes
        have hosted := (Function.hostedAt_emit s.isOpen is ⟨r₁, s.slots⟩).mono (grown.trans below)
        rw [left.counters]
        exact .chain code hosted selected codes (left.ends.mono hH)

theorem table_lowers {cases : List Case} {compared : Ty} {test : Predicate}
    (lowers : ∀ c ∈ cases, BlockLowers sig result c.body) {F : Function} {t e b : Nat}
    (hosts : d.Hosts f F) (known : Known d sig sc)
    (ok : CasesOk result (sc.map (symbolOf sig)) compared test cases)
    (tidy : F.Tidy (List.range' t cases.length ++ pending))
    (fresh : ∀ i, t ≤ i → i < t + cases.length → i ∉ pending)
    (empty : ∀ i, t ≤ i → i < t + cases.length → F.endOf i = ⟨i, 0⟩) (target : e < F.blocks.size) :
    ∃ G b', (lowerTable (BlockId.mk f e) cases
          ((List.range' t cases.length).map (BlockId.mk f))).exec (atEnd d f F b sc) =
        (.ok (), atEnd d f G b' sc) ∧
      G.Tidy pending ∧ F.Grows pending G ∧
      ∀ H, G.Grows [] H → TableCode sig H result sc compared test e cases
        (List.range' t cases.length) F.counters G.counters := by
  induction cases generalizing F t b with
  | nil =>
      cases ok
      exact ⟨F, b, by rw [lowerTable.eq_def]; rfl, tidy, .refl _ _, fun H _ => .nil⟩
  | cons case rest ih =>
      cases ok with
      | @cons _ _ _ _ value body _ ok fits compares inside tail =>
          obtain ⟨lower, lowers⟩ := List.forall_mem_cons.mp lowers
          rw [List.length_cons] at tidy fresh empty ⊢
          rw [List.range'_succ] at tidy ⊢
          have freshHere : t ∉ List.range' (t + 1) rest.length ++ pending := by
            rw [List.mem_append, List.mem_range'_1]
            rintro (h | h)
            · omega
            · exact fresh t (Nat.le_refl _) (by omega) h
          obtain ⟨F₁, b₁, exit, arm, tidy₁, grows₁, arms⟩ :=
            arm_lowers lower hosts known inside tidy freshHere (empty t (Nat.le_refl _) (by omega))
              target b .switchCase
          have empty₁ : ∀ i, t + 1 ≤ i → i < t + 1 + rest.length → F₁.endOf i = ⟨i, 0⟩ := by
            intro i ge lt
            have mem : i ∈ List.range' (t + 1) rest.length ++ pending := by
              rw [List.mem_append, List.mem_range'_1]
              exact .inl ⟨ge, lt⟩
            have inF := (tidy.isOpen i (List.mem_cons_of_mem _ mem)).lt
            exact (grows₁.endOf_eq mem inF).trans (empty i (by omega) (by omega))
          obtain ⟨G, b', runs, tidy', grows₂, codes⟩ :=
            ih lowers (b := b₁) (hosts.grows grows₁) tail tidy₁
              (fun i ge lt => fresh i (by omega) (by omega)) empty₁
              (Nat.lt_of_lt_of_le target grows₁.size_le)
          have onward : F.Grows pending G :=
            (grows₁.weaken fun i hi => List.mem_append_right _ hi).trans grows₂
          refine ⟨G, b', ?_, tidy', onward, fun H hH => ?_⟩
          · rw [List.map_cons, lowerTable]
            exact (arm _).trans runs
          · obtain ⟨bodyCode, joins⟩ := arms H (grows₂.forget.trans hH)
            exact .cons ok fits compares bodyCode joins (codes H hH)

theorem tableEntries_map {B C : Type} (g : B → C) (table : List (Literal × B))
    (cases : List (Option Literal × B)) :
    tableEntries (table.map fun c => (c.1, g c.2)) (cases.map fun c => (c.1, g c.2)) =
      (tableEntries table cases).map fun c => (c.1, g c.2) := by
  induction cases generalizing table with
  | nil => rfl
  | cons case rest ih =>
      obtain ⟨_ | constant, block⟩ := case
      · exact ih table
      · have seen : ((table.map fun c => (c.1, g c.2)).any fun seen => seen.1.same constant) =
            table.any fun seen => seen.1.same constant := by
          rw [List.any_map]
          rfl
        rw [List.map_cons, tableEntries, tableEntries, seen]
        split
        · exact ih table
        · rw [← ih (table ++ [(constant, block)]), List.map_append]
          rfl

theorem mem_tableEntries {B : Type} {table : List (Literal × B)}
    {cases : List (Option Literal × B)} {entry : Literal × B}
    (h : entry ∈ tableEntries table cases) :
    entry ∈ table ∨ entry.2 ∈ cases.map Prod.snd := by
  induction cases generalizing table with
  | nil => exact .inl h
  | cons case rest ih =>
      obtain ⟨_ | constant, block⟩ := case
      · exact (ih h).imp_right (List.mem_cons_of_mem _)
      · rw [tableEntries] at h
        split at h
        · exact (ih h).imp_right (List.mem_cons_of_mem _)
        · rcases ih h with seen | later
          · rcases List.mem_append.mp seen with seen | new
            · exact .inl seen
            · rw [List.mem_singleton.mp new]
              exact .inr List.mem_cons_self
          · exact .inr (List.mem_cons_of_mem _ later)

theorem mem_successors_table {v : Operand} {e j : Nat} {constants : List (Option Literal)}
    {blocks : List Nat}
    (h : j ∈ (Terminator.switch v e (tableEntries [] (constants.zip blocks))).successors) :
    j = e ∨ j ∈ blocks := by
  refine (List.mem_cons.mp h).imp_right fun h => ?_
  obtain ⟨entry, mem, rfl⟩ := List.mem_map.mp h
  have listed := (mem_tableEntries mem).resolve_left List.not_mem_nil
  obtain ⟨pair, zipped, same⟩ := List.mem_map.mp listed
  exact same ▸ (List.of_mem_zip zipped).2

theorem exec_tableSwitch {s : Spot} {site : Construct} (v : Operand) (e : Nat)
    (constants : List (Option Literal)) (blocks : List Nat) :
    (request site (.switch v (BlockId.mk s.index e) (tableEntries []
      (constants.zip (blocks.map (BlockId.mk s.index))))) : Lower Draft Operand Slot Nat Unit).exec
        (s.state sc) =
      (.ok (), s.close sc (.switch v e (tableEntries [] (constants.zip blocks)))) := by
  have entries : tableEntries [] (constants.zip (blocks.map (BlockId.mk s.index))) =
      (tableEntries [] (constants.zip blocks)).map fun c => (c.1, BlockId.mk s.index c.2) := by
    rw [List.zip_map_right]
    exact tableEntries_map (BlockId.mk s.index) [] _
  rw [entries]
  exact exec_switch v e _

theorem tableSwitch_lowers (scrutinee : Converted) {cases : List Case}
    (lowers : ∀ c ∈ cases, BlockLowers sig result c.body) :
    StmtLowers sig result (.switch scrutinee cases true) := by
  intro s sc Γ pending known ok tidy fresh
  cases ok with
  | switch ok fits comparable selected branches tabled =>
      obtain ⟨integer, constants⟩ := tabled rfl
      obtain ⟨is, v, r₁, run, code⟩ :=
        lowerConverted_emits (exprLowers sig scrutinee.value) known ok fits .switchStmt
      let t := s.function.blocks.size
      let n := cases.length
      let blocks := List.range' t n
      let labels := List.replicate n "case" ++ ["end"]
      let entries := tableEntries [] ((cases.map Case.constant).zip blocks)
      let s₁ := s.emit is ⟨r₁, s.slots⟩
      let G := s₁.function.fork labels s.block (.switch v (t + n) entries)
      have count : labels.length = n + 1 := by simp [labels]
      have targets : ∀ j ∈ (Terminator.switch v (t + n) entries).successors,
          j < s.function.blocks.size + labels.length := by
        intro j hj
        rw [count]
        rcases mem_successors_table hj with last | among
        · simp only [t] at last
          omega
        · have bounds := List.mem_range'_1.mp among
          simp only [t] at bounds
          omega
      have left : s.function.Leaves pending s.block is ⟨r₁, s.slots⟩ labels
          (.switch v (t + n) entries) G := Function.leaves tidy fresh is _ labels targets
      have tidy₁ : G.Tidy (blocks ++ (t + n) :: pending) := by
        have := left.tidy
        rw [count, List.range'_1_concat, List.append_assoc] at this
        exact this
      have freshCases : ∀ i, t ≤ i → i < t + cases.length → i ∉ (t + n) :: pending := by
        intro i ge lt
        have hne : i ≠ t + n := Nat.ne_of_lt lt
        simp [hne, left.fresh i ge]
      have freshEnd : t + n ∉ pending := left.fresh _ (Nat.le_add_right _ _)
      have lt : t + n < G.blocks.size := by
        rw [left.size, count]
        simp only [t]
        omega
      obtain ⟨F, b, runs, tidy', grows, codes⟩ :=
        table_lowers lowers (b := s.block) (s.hosts.grows left.grows) known branches tidy₁ freshCases
          (fun i ge lt => left.empty i ge (by rw [count]; simp only [t] at lt; omega)) lt
      have lands := Lands.join tidy' freshEnd grows lt
        (left.empty (t + n) (Nat.le_add_right _ _) (by rw [count]; simp only [t]; omega))
      refine Lowered.stays ⟨?_, lands,
        left.grows.trans (grows.weaken fun i hi => List.mem_cons_of_mem _ hi), fun H hH => ?_⟩ known
      · have added := exec_addBlocks s₁ sc [] "case" n (t := t) (by simp [s₁, t])
        rw [lowerStmt]
        exact exec_seq rfl <| exec_seq run <| exec_seq added <|
          exec_seq (exec_addBlock s₁ sc (List.replicate n "case") "end" (n := t + n)
            (by simp [s₁, t])) <|
          exec_seq (exec_tableSwitch (s := s₁.growAll labels) v (t + n) _ blocks) <| exec_seq runs rfl
      · have below : G.Grows [] H := grows.forget.trans hH
        have bodies := codes H hH
        rw [left.counters] at bodies
        exact .table code (left.hosted.mono below) integer selected constants
          (left.ends.mono below) bodies

end

theorem stmtLowers (sig : Signatures) (result : Ty) (st : Stmt) : StmtLowers sig result st := by
  induction st using Stmt.treeInduction with
  | block body ih => exact block_lowers (blockLowers_of_forall ih)
  | declare v => exact declare_lowers v
  | eval e => exact eval_lowers e
  | ifThen condition body ih => exact ifThen_lowers (blockLowers_of_forall ih)
  | ifElse condition body other ih ihOther =>
      exact ifElse_lowers (blockLowers_of_forall ih) (blockLowers_of_forall ihOther)
  | forLoop v condition step body ih => exact forLoop_lowers (blockLowers_of_forall ih)
  | whileLoop condition body ih => exact whileLoop_lowers (blockLowers_of_forall ih)
  | switch scrutinee cases table ih =>
      have lowers : ∀ c ∈ cases, BlockLowers sig result c.body :=
        fun c hc => blockLowers_of_forall (ih c hc)
      cases table with
      | true => exact @tableSwitch_lowers sig result scrutinee cases lowers
      | false => exact @chainSwitch_lowers sig result scrutinee cases lowers
  | ret value => exact ret_lowers value

theorem blockLowers (sig : Signatures) (result : Ty) (body : List Stmt) :
    BlockLowers sig result body :=
  blockLowers_of_forall fun st _ => stmtLowers sig result st

end ImpLower.Lower
