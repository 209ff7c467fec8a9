import ImpLower.Proofs.Typed.Derivation
import ImpLower.Proofs.Semantics.Blocks

/-!
# Code of switches

Both layouts of a switch select the first case that matches. A chain compares the scrutinee with one
case after the other, as the evaluator does. A jump table has no entry for a constant that repeats an
earlier one, and the values of its cases are known beforehand, so evaluating them changes nothing.
-/

namespace ImpLower.Semantics

open Code Machine Typed

/-! ## Constants -/

theorem evalConverted_of_value {call : String → List Literal → Eval (Option Literal)} {c : Converted}
    {env : Env} {l w : Literal} (value : (evalExpr call c.value).exec env = (.ok (some l), env))
    (moved : l.convert c.target = some w) : (evalConverted call c).exec env = (.ok w, env) := by
  obtain ⟨e, conversion, target⟩ := c
  have last : (Stateful.ofExcept (moveTo l target) : Eval Literal).exec env = (.ok w, env) := by
    rw [Stateful.exec_ofExcept, moveTo]
    exact congrArg (fun v => (required v, env)) moved
  rw [evalConverted]
  exact Stateful.exec_seq value last

/-- A constant evaluates to what it folds to. -/
theorem evalExpr_of_constant? (call : String → List Literal → Eval (Option Literal)) (e : Expr)
    {l : Literal} (h : e.constant? = some l) (env : Env) :
    (evalExpr call e).exec env = (.ok (some l), env) := by
  have operated : ∀ {op : Operation} {a b v : Literal} {ty : Ty}, op.eval a b ty = some v →
      (do return some (← Stateful.ofExcept (operate op a b ty)) : Eval (Option Literal)).exec env =
        (.ok (some v), env) := by
    intro op a b v ty value
    rw [operate, value]
    rfl
  induction e using Expr.treeInduction generalizing l with
  | literal value =>
      cases h
      rw [evalExpr]
      rfl
  | negate op zero operand ih =>
      simp only [Expr.constant?, bind, Option.bind_eq_some_iff] at h
      obtain ⟨v, inner, value⟩ := h
      rw [evalExpr]
      exact Stateful.exec_seq (ih inner) (operated value)
  | arith op left right ihl ihr =>
      simp only [Expr.constant?, Converted.constant?_eq, bind, Option.bind_eq_some_iff] at h
      obtain ⟨a, ⟨l, first, moved⟩, b, ⟨r, second, moved'⟩, value⟩ := h
      rw [evalExpr]
      exact Stateful.exec_seq (evalConverted_of_value (ihl first) moved) <|
        Stateful.exec_seq (evalConverted_of_value (ihr second) moved') (operated value)
  | _ => simp [Expr.constant?] at h

theorem evalConverted_of_constant? (call : String → List Literal → Eval (Option Literal))
    {c : Converted} {l : Literal} (h : c.constant? = some l) (env : Env) :
    (evalConverted call c).exec env = (.ok l, env) := by
  simp only [Converted.constant?_eq, Option.bind_eq_some_iff] at h
  obtain ⟨v, inner, moved⟩ := h
  exact evalConverted_of_value (evalExpr_of_constant? call c.value inner env) moved

/-! ## Jump tables -/

/-- The block of the first constant with the word `n`. -/
def firstMatch (n : Int64) (default : Nat) : List (Option Literal × Nat) → Nat
  | [] => default
  | (none, _) :: rest => firstMatch n default rest
  | (some l, block) :: rest =>
      match l.word with
      | .ok w => if w = n then block else firstMatch n default rest
      | .error _ => firstMatch n default rest

/-- Constants of one integer type. -/
def Uniform (ty : Ty) (l : Literal) : Prop :=
  l.type = ty ∧ ty.isInteger = true

theorem Uniform.word {ty : Ty} {l : Literal} (h : Uniform ty l) : ∃ n, l.word = .ok n :=
  Literal.word_of_integer (h.1 ▸ h.2)

theorem Uniform.eq_of_same {ty : Ty} {a b : Literal} (h : Uniform ty a) (h' : Uniform ty b)
    (same : a.same b = true) : a = b := by
  obtain ⟨rfl, integer⟩ := h
  cases a with
  | float x => cases integer
  | double x => cases integer
  | _ => simpa [Literal.same] using same

theorem chooseCase_cons {n w : Int64} {default block : Nat} {l : Literal}
    {rest : List (Literal × Nat)} (word : l.word = .ok w) :
    chooseCase n default ((l, block) :: rest) =
      if w = n then .ok block else chooseCase n default rest := by
  rw [chooseCase, word]
  by_cases same : w = n
  · rw [if_pos same]
    subst same
    simp [bind, Except.bind, pure, Except.pure]
  · rw [if_neg same]
    simp [bind, Except.bind, same]

theorem chooseCase_append {ty : Ty} {n : Int64} {default : Nat} {table : List (Literal × Nat)}
    (uniform : ∀ x ∈ table, Uniform ty x.1) {l : Literal} {block : Nat} {w : Int64}
    (word : l.word = .ok w) :
    chooseCase n default (table ++ [(l, block)]) =
      chooseCase n (if w = n then block else default) table := by
  induction table with
  | nil =>
      rw [List.nil_append, chooseCase_cons word]
      split <;> rfl
  | cons x rest ih =>
      obtain ⟨first, others⟩ := List.forall_mem_cons.mp uniform
      obtain ⟨w', word'⟩ := first.word
      rw [List.cons_append, chooseCase_cons word', chooseCase_cons word', ih others]

/-- What follows a table that has the word does not matter. -/
theorem chooseCase_of_mem {ty : Ty} {n : Int64} {table : List (Literal × Nat)}
    (uniform : ∀ x ∈ table, Uniform ty x.1) {x : Literal × Nat} (mem : x ∈ table)
    (word : x.1.word = .ok n) (default default' : Nat) :
    chooseCase n default table = chooseCase n default' table := by
  induction table with
  | nil => cases mem
  | cons y rest ih =>
      obtain ⟨first, others⟩ := List.forall_mem_cons.mp uniform
      obtain ⟨w, word'⟩ := first.word
      rw [chooseCase_cons word', chooseCase_cons word']
      by_cases same : w = n
      · rw [if_pos same, if_pos same]
      · rw [if_neg same, if_neg same]
        rcases List.mem_cons.mp mem with rfl | later
        · cases word'.symm.trans word
          exact absurd rfl same
        · exact ih others later

/-- A table without the repeated constants still leads to the first match. -/
theorem chooseCase_tableEntries {ty : Ty} {n : Int64} {default : Nat}
    {table : List (Literal × Nat)} {cases : List (Option Literal × Nat)}
    (uniform : ∀ x ∈ table, Uniform ty x.1) (constants : ∀ x ∈ cases, ∀ l, x.1 = some l → Uniform ty l) :
    chooseCase n default (Lower.tableEntries table cases) =
      chooseCase n (firstMatch n default cases) table := by
  induction cases generalizing table with
  | nil => rfl
  | cons case rest ih =>
      obtain ⟨here, others⟩ := List.forall_mem_cons.mp constants
      obtain ⟨_ | l, block⟩ := case
      · exact ih uniform others
      · have this := here l rfl
        obtain ⟨w, word⟩ := this.word
        have first : firstMatch n default ((some l, block) :: rest) =
            if w = n then block else firstMatch n default rest := by
          rw [firstMatch, word]
        rw [first, Lower.tableEntries]
        split
        · next seen =>
            rw [ih uniform others]
            obtain ⟨x, mem, same⟩ := List.any_eq_true.mp seen
            have eq : x.1 = l := (uniform x mem).eq_of_same this same
            by_cases hit : w = n
            · subst hit
              exact chooseCase_of_mem uniform mem (eq ▸ word) _ _
            · rw [if_neg hit]
        · have uniform' : ∀ x ∈ table ++ [(l, block)], Uniform ty x.1 := by
            intro x hx
            rcases List.mem_append.mp hx with old | new
            · exact uniform x old
            · cases List.mem_singleton.mp new
              exact this
          rw [ih uniform' others, chooseCase_append uniform word]

theorem type_of_constant? {c : Converted} {l : Literal} (h : c.constant? = some l) :
    l.type = c.target := by
  rw [Converted.constant?_eq] at h
  obtain ⟨v, -, moved⟩ := Option.bind_eq_some_iff.mp h
  exact Literal.type_of_convert moved

theorem compare_words {ty : Ty} {test : Predicate} {a b : Literal} {x y : Int64}
    (selected : (BinOp.relation .eq).predicateAt ty = .ok test) (integer : ty.isInteger = true)
    (left : a.word = .ok x) (right : b.word = .ok y) : compare test a b = .ok (decide (x = y)) := by
  have onWords : test = .int .eq := by
    cases ty <;> cases integer <;> cases selected <;> rfl
  rw [onWords, compare, Predicate.holds, left, right]
  rfl

theorem type_of_tableCode {sig : Signatures} {F : Function} {result compared : Ty} {sc : Names}
    {test : Predicate} {e : Nat} {cases : List Case} {blocks : List Nat} {k k' : Counters}
    (code : TableCode sig F result sc compared test e cases blocks k k') :
    ∀ c ∈ cases, ∀ l, c.constant = some l → l.type = compared := by
  induction cases generalizing blocks k with
  | nil => exact fun c hc => nomatch hc
  | cons c rest ih =>
      cases code with
      | cons ok fits target inside joins tail =>
          exact List.forall_mem_cons.mpr ⟨fun l hl => target ▸ type_of_constant? hl, ih tail⟩

/-- The table of a switch leads to the first match. -/
theorem chooseCase_of_tableCode {sig : Signatures} {F : Function} {result compared : Ty} {sc : Names}
    {test : Predicate} {e : Nat} {cases : List Case} {blocks : List Nat} {k k' : Counters}
    (code : TableCode sig F result sc compared test e cases blocks k k')
    (integer : compared.isInteger = true) (n : Int64) :
    chooseCase n e (Lower.tableEntries [] ((cases.map Case.constant).zip blocks)) =
      .ok (firstMatch n e ((cases.map Case.constant).zip blocks)) := by
  have constants : ∀ x ∈ (cases.map Case.constant).zip blocks, ∀ l, x.1 = some l →
      Uniform compared l := by
    intro x hx l hl
    obtain ⟨c, hc, constant⟩ := List.mem_map.mp (List.of_mem_zip hx).1
    exact ⟨type_of_tableCode code c hc l (constant.trans hl), integer⟩
  exact chooseCase_tableEntries (by simp) constants

section

variable {ds : List Decl} {m : Code.Module} {fuel levels : Nat}
  {call : String → List Literal → Eval (Option Literal)} {result : Ty} {sc : Names} {F : Function}
  {p : Place} {env : Env} {s : State}

/-- A machine that has jumped to the first match goes on as the evaluator does. -/
theorem table_follows {cases : List Case}
    (follows : ∀ c ∈ cases, BlockFollows ds m fuel levels call result c.body) {compared : Ty}
    {test : Predicate} {e : Nat} {blocks : List Nat} {k k' : Counters}
    (code : TableCode (signaturesOf ds) F result sc compared test e cases blocks k k')
    (selected : (BinOp.relation .eq).predicateAt compared = .ok test)
    (integer : compared.isInteger = true)
    (constants : ∀ c ∈ cases, c.constant.isSome = true) (placed : Placed sc k)
    (room : k'.slots ≤ s.top.slots.size) (depth : s.depth + levels = maxDepth) {value : Literal}
    {n : Int64} (word : value.word = .ok n)
    (ready : Ready ds F sc env
      ⟨firstMatch n e ((cases.map Case.constant).zip blocks), 0⟩ s) :
    Follows ds m fuel s ((evalCases call fuel value cases).exec env)
      (Leaves ds m F result sc (some ⟨e, 0⟩) s) := by
  induction cases generalizing blocks k with
  | nil =>
      cases code
      rw [evalCases]
      exact .here ⟨.refl 0 s, _, rfl, ready⟩
  | cons c rest ih =>
      obtain ⟨first, others⟩ := List.forall_mem_cons.mp follows
      obtain ⟨folds, otherFolds⟩ := List.forall_mem_cons.mp constants
      cases code with
      | @cons _ _ _ _ b v body _ blocks _ k₁ _ exit ok fits target inside joins tail =>
          obtain ⟨l, constant⟩ := Option.isSome_iff_exists.mp folds
          have constant : v.constant? = some l := constant
          have uniform : Uniform compared l := ⟨target ▸ type_of_constant? constant, integer⟩
          obtain ⟨w, word'⟩ := uniform.word
          have equal := compare_words selected integer word word'
          have matched : firstMatch n e (((Case.mk v test v.constant? body :: rest).map
              Case.constant).zip (b :: blocks)) =
              if w = n then b else firstMatch n e ((rest.map Case.constant).zip blocks) := by
            show firstMatch n e ((v.constant?, b) :: _) = _
            rw [constant, firstMatch, word']
            rfl
          rw [matched] at ready
          rw [evalCases, Stateful.exec_bind_of_ok (evalConverted_of_constant? call constant env), equal]
          refine .bind_ok ?_
          by_cases hit : w = n
          · rw [if_pos hit] at ready
            rw [if_pos (by simp [hit])]
            have room₁ : k₁.slots ≤ s.top.slots.size := Nat.le_trans tail.le.slots room
            refine (arm_follows first inside joins placed room₁ depth ready).imp ?_
            exact fun _ _ _ left => left.imp (.refl 0 s) fun q hq => by
              obtain ⟨-, -, rfl⟩ := Option.map_eq_some_iff.mp hq
              rfl
          · rw [if_neg hit] at ready
            rw [if_neg (by simpa using Ne.symm hit)]
            have le := inside.le
            exact ih others tail otherFolds (placed.mono le.registers le.slots) ready

/-! ## Chains -/

theorem chain_follows (calls : CallsFollow ds m fuel levels call) {cases : List Case}
    (follows : ∀ c ∈ cases, BlockFollows ds m fuel levels call result c.body) {compared : Ty}
    {test : Predicate} {x : Operand} {e : Nat} {q : Place} {k k' : Counters}
    (code : ChainCode (signaturesOf ds) F result sc compared test x e cases p k q k')
    (leaves : EndsAt F q (.branch e))
    (selected : (BinOp.relation .eq).predicateAt compared = .ok test) (placed : Placed sc k)
    (room : k'.slots ≤ s.top.slots.size) (depth : s.depth + levels = maxDepth) {value : Literal}
    (typed : value.type = compared) (read : s.top.operand x = .ok value)
    (below : x.Below k.registers) (ready : Ready ds F sc env p s) :
    Follows ds m fuel s ((evalCases call fuel value cases).exec env)
      (Leaves ds m F result sc (some ⟨e, 0⟩) s) := by
  induction cases generalizing p k env s with
  | nil =>
      cases code
      rw [evalCases]
      have moves : next m s = .running (s.jump e) := next_branch ready.here leaves
      exact .after (.one ready.typed moves) (.here ⟨stays_jump s e, _, rfl, ready.jump e⟩)
  | cons c rest ih =>
      obtain ⟨first, others⟩ := List.forall_mem_cons.mp follows
      cases code with
      | @cons _ _ _ _ v _ b n r c r₁ w body _ _ _ k₁ _ is exit target code hosted branch inside joins
          tail =>
          obtain ⟨start, last⟩ := hostedAt_append.mp hosted
          have grown := code.grows.1
          rw [evalCases]
          refine (converted_follows (exprFollows calls w.value) code placed start depth ready).bind ?_
          rintro l env₁ s₁ ⟨reaches, read₁, typed₁⟩
          obtain ⟨answer, compared, moves⟩ := next_compare (m := m) reaches.ready.here last
            (reaches.kept.operand x value below read) read₁ typed (typed₁.trans target) selected
          rw [compared]
          refine .bind_ok ?_
          refine follows_register reaches grown (placed.grow grown) moves fun t reached flag => ?_
          rw [Place.skip_skip] at reached
          have onward : next m t = .running (t.jump (if answer then b else n)) :=
            next_condBranch reached.ready.here branch flag
          refine .after (.one reached.ready.typed onward) ?_
          have stays := (reached.jump (if answer then b else n)).stays
          have placed₁ : Placed sc ⟨r₁ + 1, c⟩ := placed.grow (Nat.le_succ_of_le grown)
          have le := inside.le
          cases answer with
          | true =>
              have room₁ : k₁.slots ≤ (t.jump b).top.slots.size :=
                stays.size ▸ Nat.le_trans tail.le.slots room
              refine (arm_follows first inside joins placed₁ room₁ (stays.depth ▸ depth)
                (reached.ready.jump b)).imp ?_
              exact fun _ _ _ left => left.imp stays fun q hq => by
                obtain ⟨-, -, rfl⟩ := Option.map_eq_some_iff.mp hq
                rfl
          | false =>
              refine (ih others tail (placed₁.mono le.registers le.slots) (stays.size ▸ room)
                (stays.depth ▸ depth) ((reached.jump n).kept.operand x value below read)
                (below.mono ?_) (reached.ready.jump n)).imp ?_
              · exact Nat.le_trans (Nat.le_succ_of_le grown) le.registers
              · exact fun _ _ _ left => left.imp stays fun _ h => h

end

end ImpLower.Semantics
