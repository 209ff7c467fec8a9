import ImpLower.Proofs.Lower.Decl
import ImpLower.Proofs.Semantics.Folding
import ImpLower.Proofs.Typing.Declarations
import ImpLower.Proofs.Typing.Soundness

/-!
# Folding equals execution

Folding a constant expression and running its code give the same value, or neither gives one. So a
constant initializer means the same for a global, where it is folded, and for a local variable, where
it is run: both hold the same value, and the global is rejected exactly when the local traps.
-/

namespace ImpLower

namespace Machine

open Code

variable {m : Code.Module} {P Q : Array Cell → Prop} {n k : Nat} {s s₁ s₂ : State}

theorem Steps.unique (h : Steps m P n s s₁) (h' : Steps m Q n s s₂) : s₁ = s₂ := by
  induction h with
  | refl =>
      cases h'
      rfl
  | step _ moves _ ih =>
      cases h' with
      | step _ moves' rest' =>
          cases moves.symm.trans moves'
          exact ih rest'

/-- A run that halts goes no further. -/
theorem Halts.not_steps {result : Except Trap (Option Literal)} {globals : Array Cell}
    (h : Halts m P n s result globals) (h' : Steps m Q k s s₂) : k ≤ n := by
  obtain ⟨s', steps, -, -, ends⟩ := h
  induction steps generalizing k with
  | refl =>
      cases h' with
      | refl => exact Nat.le_refl _
      | step _ moves _ => rw [moves] at ends; cases ends
  | step _ moves _ ih =>
      cases h' with
      | refl => exact Nat.zero_le _
      | step _ moves' rest' =>
          cases moves.symm.trans moves'
          exact Nat.succ_le_succ (ih rest' ends)

end Machine

namespace Typing

open Typed

/-- A checked expression without names is well annotated, and checks the same in every scope. -/
theorem checkExpr_arithmetic {Γ : Scope Symbol} {source : Source.Expr} {e : Expr}
    (checked : checkExpr Γ source = .ok e) (arithmetic : Arithmetic e) :
    (e.erase = source ∧ ExprOk Γ e) ∧ ∀ Γ', checkExpr Γ' source = .ok e := by
  induction source using Source.Expr.treeInduction generalizing e with
  | literal value =>
      cases checkExpr_literal_eq_ok.mp checked
      exact ⟨⟨rfl, .literal value⟩, fun _ => checkExpr_literal_eq_ok.mpr rfl⟩
  | negate operand ih =>
      obtain ⟨t, zero, op, ht, hz, ho, rfl⟩ := checkExpr_negate_eq_ok.mp checked
      cases arithmetic with
      | negate inside =>
          obtain ⟨⟨erased, ok⟩, anywhere⟩ := ih ht inside
          refine ⟨⟨by rw [Expr.erase, erased], .negate hz ho ok⟩, fun Γ' => ?_⟩
          exact checkExpr_negate_eq_ok.mpr ⟨t, zero, op, anywhere Γ', hz, ho, rfl⟩
  | binary op left right ihl ihr =>
      obtain ⟨l, r, hl, hr, hb⟩ := checkExpr_binary_eq_ok.mp checked
      have both : Arithmetic l ∧ Arithmetic r := by
        cases hop : op.isRelational with
        | true =>
            cases op with
            | relation op =>
                obtain ⟨-, -, ty, test, c₁, c₂, -, -, -, -, rfl⟩ := binary_relation_eq_ok.mp hb
                cases arithmetic
            | arith op => cases hop
            | bitwise op => cases hop
        | false =>
            obtain ⟨ty, o, c₁, c₂, -, -, -, -, rfl⟩ := (binary_operation_eq_ok hop).mp hb
            cases arithmetic with
            | arith insideLeft insideRight => exact ⟨insideLeft, insideRight⟩
      obtain ⟨okLeft, anywhereLeft⟩ := ihl hl both.1
      obtain ⟨okRight, anywhereRight⟩ := ihr hr both.2
      have acceptsLeft : Accepts Γ left := fun te h => by cases hl.symm.trans h; exact okLeft
      have acceptsRight : Accepts Γ right := fun te h => by cases hr.symm.trans h; exact okRight
      refine ⟨accepts_binary acceptsLeft acceptsRight e checked, fun Γ' => ?_⟩
      exact checkExpr_binary_eq_ok.mpr ⟨l, r, anywhereLeft Γ', anywhereRight Γ', hb⟩
  | var name indices ih =>
      obtain ⟨ty, rank, cs, -, -, -, rfl⟩ := checkExpr_var_eq_ok.mp checked
      cases arithmetic
  | assign name indices value ihs ih =>
      obtain ⟨ty, rank, cs, c, -, -, -, -, rfl⟩ := checkExpr_assign_eq_ok.mp checked
      cases arithmetic
  | call callee arguments ih =>
      obtain ⟨result, cs, -, -, rfl⟩ := checkExpr_call_eq_ok.mp checked
      cases arithmetic

theorem ne_void_of_arithmetic {Γ : Scope Symbol} {e : Expr} (arithmetic : Arithmetic e)
    (ok : ExprOk Γ e) : e.ty ≠ .void := by
  induction arithmetic with
  | literal value => exact value.type_ne_void
  | negate _ ih =>
      cases ok with
      | negate _ _ inside => exact ih inside
  | arith _ _ _ _ =>
      cases ok with
      | arith _ _ selected _ _ _ _ => exact ne_void_of_operationAt selected

def initialized (ty : Ty) (name : String) (source : Source.Expr) : Source.VarDecl where
  ty := ty
  name := name
  initializer := some source

section

variable {s : Checker} {ty : Ty} {name : String} {source : Source.Expr} {e : Expr} {c : Converted}

/-- A global with an initial value is accepted if that folds, and rejected as not constant if not. -/
theorem checkGlobal_initialized (storable : ty ≠ .void)
    (fresh : s.scope.declaresInCurrent name = false) (checked : ∀ Γ, checkExpr Γ source = .ok e)
    (moved : convertTo e ty .varDecl = .ok c) :
    ((checkGlobal (initialized ty name source)).exec s).1 =
      match c.constant? with
      | some l => .ok ⟨name, ty, [], 1, some l⟩
      | none => .error ⟨.nonConstantGlobal name, .varDecl⟩ := by
  let t : Checker := { s with scope := s.scope.push name (.var ty 0) }
  have initial : constantInitializer name ty e =
      match c.constant? with
      | some l => .ok l
      | none => .error ⟨.nonConstantGlobal name, .varDecl⟩ := by
    rw [constantInitializer, moved]
    show (match c.constant? with
      | some constant => pure constant
      | none => throw _ : Except Diagnostic Literal) = _
    cases c.constant? <;> rfl
  have run : (checkGlobal (initialized ty name source)).exec s =
      (Stateful.ofExcept (constantInitializer name ty e) >>= fun l =>
        pure ⟨name, ty, [], 1, some l⟩ : Check Typed.Global).exec t :=
    Stateful.exec_seq (b := ()) (requireStorable_eq_ok.mpr ⟨storable, rfl⟩) <|
      Stateful.exec_seq (reading_eq_ok.mpr ⟨rfl, rfl⟩) <|
        Stateful.exec_seq (b := ()) (declare_eq_ok.mpr ⟨fresh, rfl⟩) <|
          Stateful.exec_seq (reading_eq_ok.mpr ⟨checked _, rfl⟩) rfl
  rw [run, initial]
  cases c.constant? <;> rfl

/-- A local variable with an initial value is accepted whether that folds or not. -/
theorem checkVarDecl_initialized (storable : ty ≠ .void)
    (fresh : s.scope.declaresInCurrent name = false) (checked : ∀ Γ, checkExpr Γ source = .ok e)
    (moved : convertTo e ty .varDecl = .ok c) :
    ((checkVarDecl (initialized ty name source)).exec s).1 = .ok ⟨name, ty, [], some c⟩ := by
  obtain ⟨conversion, into, rfl⟩ := convertTo_eq_ok.mp moved
  have checks : ChecksVar s.scope (initialized ty name source)
      ⟨name, ty, [], some (.mk e conversion ty)⟩ :=
    ⟨rfl, rfl, storable, fresh, .nil, .some ⟨rfl, e, conversion, checked _, into, rfl⟩⟩
  rw [checkVarDecl_eq_ok.mpr ⟨checks, rfl⟩]

end

end Typing

namespace Semantics

open Code Machine Typed
open Lower (Spot Emits EmitsInto lowerExpr lowerConverted lowerVarDecl)

/-! ## Local variables -/

theorem performs_alloca {m : Code.Module} {F : Function} {p : Place} {s : State} {slot : Nat} {ty : Ty}
    {name : String} (here : At F p s) (hosted : HostedAt F p [.alloca slot ty none name])
    (room : slot < s.top.slots.size) :
    Performs m F p [.alloca slot ty none name] s (some ()) fun _ s' =>
      s'.cell (.stack slot) = .ok #[Literal.initial ty] := by
  have moves : next m s = .running (s.allocate slot #[Literal.initial ty]).advance := by
    rw [next_of_hosted here hosted, execInstruction]
    show (if slot < s.top.slots.size then _ else _) = _
    rw [if_pos room]
    rfl
  refine ⟨_, .one trivial moves, ⟨here.function, here.block, congrArg (· + 1) here.next⟩, rfl, ?_⟩
  simp [State.cell, State.allocate, State.advance, Activation.advance, room]

theorem performs_store {m : Code.Module} {F : Function} {p : Place} {s : State} {slot : Nat} {ty : Ty}
    {v : Operand} {l first : Literal} (here : At F p s)
    (hosted : HostedAt F p [.store (.stack slot) ty none v]) (value : s.top.operand v = .ok l)
    (scalar : s.cell (.stack slot) = .ok #[first]) :
    Performs m F p [.store (.stack slot) ty none v] s (some l) fun l s' =>
      s'.cell (.stack slot) = .ok #[l] := by
  have element : s.element (.stack slot) 0 = .ok (0, first) := by
    rw [State.element, scalar]
    rfl
  have moves : next m s = .running (s.write (.stack slot) 0 l).advance := by
    rw [next_store (n := 0) here hosted rfl value, element]
    rfl
  refine ⟨_, .one trivial moves, (At.write here (.stack slot) 0 l).advance, rfl, ?_⟩
  have there : s.top.slots[slot]? = some (some #[first]) := by
    rw [State.cell] at scalar
    split at scalar
    · next found => rw [found, Except.ok.inj scalar]
    · cases scalar
  simp [State.cell, State.write, State.advance, Activation.advance, Array.getElem?_modify, there]

/-- A local variable with a constant initial value comes to hold what that folds to. -/
theorem variable_settles {Γ : Scope Symbol} {c : Converted} (arithmetic : Arithmetic c.value)
    (ok : ExprOk Γ c.value) (fits : c.Fits) (s : Spot) {sc : Names} {name : String}
    (fresh : sc.declaresInCurrent name = false) :
    ∃ is r, EmitsInto s sc (lowerVarDecl ⟨name, c.target, [], some c⟩) is () ⟨r, s.slots + 1⟩
        (bindStack sc ⟨name, c.target, [], some c⟩ s.slots []) ∧
      ∀ {m F p st}, At F p st → HostedAt F p is → s.slots < st.top.slots.size →
        Performs m F p is st c.constant? fun l st' => st'.cell (.stack s.slots) = .ok #[l] := by
  let s₁ := s.emit [.alloca s.slots c.target none name] ⟨s.registers, s.slots + 1⟩
  let sc₁ := sc.push name (.var (.stack s.slots) c.target [])
  obtain ⟨is, o, r, emits, -, -, performs⟩ :=
    converted_settles (arithmetic_settles arithmetic ok s₁ sc₁) ok fits .varDecl
  refine ⟨[.alloca s.slots c.target none name] ++ (is ++ [.store (.stack s.slots) c.target none o]), r,
    ?_, fun {m F p st} here hosted room => ?_⟩
  · rw [lowerVarDecl]
    exact .after rfl (.after rfl ((Lower.emits_alloca c.target none name).bind
      (.after (Lower.exec_declare fresh)
        (emits.bind (Lower.emits_store (.stack s.slots) c.target none o)))))
  · obtain ⟨first, rest⟩ := hostedAt_append.mp hosted
    obtain ⟨second, last⟩ := hostedAt_append.mp rest
    have whole : c.constant? = (some ()).bind fun _ => c.constant?.bind some := by
      cases c.constant? <;> rfl
    rw [whole]
    refine (performs_alloca here first room).bind fun _ st₁ _ there allocated => ?_
    refine (performs there second).bind fun l st₂ _ there' delivered => ?_
    have kept : st₂.cell (.stack s.slots) = .ok #[Literal.initial c.target] := by
      rw [State.cell, delivered.1.slots]
      exact allocated
    exact performs_store there' last delivered.2 kept

end Semantics

namespace Program

open Code Machine Typed Typing Semantics
open Lower (Spot Emits EmitsInto lowerExpr lowerConverted lowerVarDecl lowerGlobal)

/-! ## The two meanings of a constant -/

/-- What running the instructions comes to, in every frame that is ready for them: they are passed
with a value exactly if `holds` says so of it, and stopped by an arithmetic trap exactly if `fails`. -/
structure RunsAs (ready : State → Prop) (is : List Instruction) (left : Literal → State → Prop)
    (holds : Literal → Prop) (fails : Prop) : Prop where
  value : ∀ {m : Code.Module} {F : Function} {p : Place} {s : State}, At F p s → HostedAt F p is →
    ready s → ∀ l, (∃ s', Steps m (fun _ => True) is.length s s' ∧ At F (p.skip is.length) s' ∧
      left l s') ↔ holds l
  fault : ∀ {m : Code.Module} {F : Function} {p : Place} {s : State}, At F p s → HostedAt F p is →
    ready s → ((∃ n op, n < is.length ∧
      Halts m (fun _ => True) n s (.error (.arithmetic op)) s.globals) ↔ fails)

/-- A machine is deterministic: what a run comes to, it comes to in no other way. -/
theorem runsAs_of_performs {ready : State → Prop} {is : List Instruction}
    {left : Literal → State → Prop} {value? : Option Literal}
    (unique : ∀ {l l' s}, left l s → left l' s → l = l')
    (performs : ∀ {m F p s}, At F p s → HostedAt F p is → ready s →
      Performs m F p is s value? left) :
    RunsAs ready is left (value? = some ·) (value? = none) where
  value {m F p s} here hosted given l := by
    have whole := performs (m := m) here hosted given
    cases value? with
    | none =>
        obtain ⟨n, op, lt, halts⟩ := whole
        refine ⟨fun ⟨s', steps, _⟩ => ?_, nofun⟩
        exact absurd (halts.not_steps steps) (Nat.not_le.mpr lt)
    | some l' =>
        obtain ⟨t, steps, there, -, reached⟩ := whole
        constructor
        · rintro ⟨s', steps', -, reached'⟩
          rw [steps.unique steps'] at reached
          exact congrArg some (unique reached reached')
        · intro same
          cases same
          exact ⟨t, steps, there, reached⟩
  fault {m F p s} here hosted given := by
    have whole := performs (m := m) here hosted given
    cases value? with
    | none => exact ⟨fun _ => rfl, fun _ => whole⟩
    | some l' =>
        obtain ⟨t, steps, -⟩ := whole
        refine ⟨fun ⟨n, op, lt, halts⟩ => ?_, nofun⟩
        exact absurd (halts.not_steps steps) (Nat.not_le.mpr lt)

/-- The global is accepted, and lowering it adds a global that holds the value from the start. -/
def GlobalHolds (t : Checker) (decl : Source.VarDecl) (l : Literal) : Prop :=
  ∃ g, ((checkGlobal decl).exec t).1 = .ok g ∧
    ∀ (d : Draft) (sc : Names), sc.declaresInCurrent decl.name = false →
      ∃ k sc', (lowerGlobal g).exec ⟨d, sc, none⟩ = (.ok (), ⟨Lower.withGlobal d k, sc', none⟩) ∧
        initialCell k = #[l]

section

variable {t : Checker} {ty : Ty} {name : String} {source : Source.Expr} {e : Expr} {c : Converted}

theorem globalHolds_iff (storable : ty ≠ .void) (fresh : t.scope.declaresInCurrent name = false)
    (checked : ∀ Γ, checkExpr Γ source = .ok e) (moved : convertTo e ty .varDecl = .ok c)
    (l : Literal) : GlobalHolds t (initialized ty name source) l ↔ c.constant? = some l := by
  have accepted := checkGlobal_initialized storable fresh checked moved
  have target : c.target = ty := by
    obtain ⟨conversion, -, rfl⟩ := convertTo_eq_ok.mp moved
    rfl
  cases folds : c.constant? with
  | none =>
      rw [folds] at accepted
      refine ⟨fun ⟨g, ok, _⟩ => ?_, nofun⟩
      cases accepted.symm.trans ok
  | some v =>
      rw [folds] at accepted
      -- lowering adds a global that holds what was folded
      have lowers : ∀ (d : Draft) (sc : Names), sc.declaresInCurrent name = false →
          ∃ sc', (lowerGlobal ⟨name, ty, [], 1, some v⟩).exec ⟨d, sc, none⟩ =
            (.ok (), ⟨Lower.withGlobal d (globalOf ⟨name, ty, [], 1, some v⟩), sc', none⟩) := by
        intro d sc new
        have ok : GlobalOk (sc.map (symbolOf fun _ => none)) ⟨name, ty, [], 1, some v⟩ := by
          refine ⟨storable, ?_, nofun, rfl, ?_, ?_⟩
          · rwa [Scope.declaresInCurrent_map]
          · show 1 < maxElements
            decide
          · rintro w ⟨⟩
            exact ⟨rfl, target ▸ type_of_constant? folds⟩
        exact ⟨_, Lower.lowerGlobal_exec ok⟩
      constructor
      · rintro ⟨g, ok, adds⟩
        cases accepted.symm.trans ok
        obtain ⟨k, sc', run, holds⟩ := adds (Draft.new "") {} rfl
        obtain ⟨sc₁, run'⟩ := lowers (Draft.new "") {} rfl
        have same : k = globalOf ⟨name, ty, [], 1, some v⟩ := by
          have states := congrArg (fun r => r.2.emitter.module.globals.back?) (run.symm.trans run')
          simpa [Lower.withGlobal] using states
        rw [same] at holds
        have value : v = l := by simpa [initialCell, globalOf] using holds
        rw [value]
      · rintro ⟨⟩
        refine ⟨_, accepted, fun d sc new => ?_⟩
        obtain ⟨sc', run⟩ := lowers d sc new
        exact ⟨_, sc', run, rfl⟩

theorem nonConstantGlobal_iff (storable : ty ≠ .void)
    (fresh : t.scope.declaresInCurrent name = false) (checked : ∀ Γ, checkExpr Γ source = .ok e)
    (moved : convertTo e ty .varDecl = .ok c) :
    ((checkGlobal (initialized ty name source)).exec t).1 =
      .error ⟨.nonConstantGlobal name, .varDecl⟩ ↔ c.constant? = none := by
  rw [checkGlobal_initialized storable fresh checked moved]
  cases c.constant? <;> simp

end

/-- Folding a checked expression of literals, negation, arithmetic and bitwise operators gives what
running its code gives, also after a conversion; it fails exactly where running traps. So a global and a
local variable with this initial value come to hold the same, and the global is rejected as not constant
exactly if the local variable traps. -/
theorem folding_equals_execution {Γ : Scope Symbol} {source : Source.Expr} {e : Expr}
    (checked : checkExpr Γ source = .ok e) (arithmetic : Arithmetic e) :
    (∀ (s : Spot) (sc : Names), ∃ is o r, Emits s sc (lowerExpr e) is (some o) ⟨r, s.slots⟩ ∧
      RunsAs (fun _ => True) is (fun l st => st.top.operand o = .ok l)
        (e.constant? = some ·) (e.constant? = none)) ∧
    (∀ (ty : Ty) (c : Converted) (site site' : Construct), convertTo e ty site = .ok c →
      ∀ (s : Spot) (sc : Names), ∃ is o r,
        Emits s sc (lowerConverted site' c) is o ⟨r, s.slots⟩ ∧
        RunsAs (fun _ => True) is (fun l st => st.top.operand o = .ok l)
          (c.constant? = some ·) (c.constant? = none)) ∧
    ∀ (ty : Ty) (c : Converted), ty ≠ .void → convertTo e ty .varDecl = .ok c →
      ∀ (t u : Checker) (g x : String), t.scope.declaresInCurrent g = false →
        u.scope.declaresInCurrent x = false →
        ((checkVarDecl (initialized ty x source)).exec u).1 = .ok ⟨x, ty, [], some c⟩ ∧
        ∀ (s : Spot) (sc : Names), sc.declaresInCurrent x = false → ∃ is r sc',
          EmitsInto s sc (lowerVarDecl ⟨x, ty, [], some c⟩) is () ⟨r, s.slots + 1⟩ sc' ∧
          RunsAs (fun st => s.slots < st.top.slots.size) is
            (fun l st => st.cell (.stack s.slots) = .ok #[l])
            (GlobalHolds t (initialized ty g source))
            (((checkGlobal (initialized ty g source)).exec t).1 =
              .error ⟨.nonConstantGlobal g, .varDecl⟩) := by
  obtain ⟨⟨-, ok⟩, anywhere⟩ := checkExpr_arithmetic checked arithmetic
  have fits : ∀ {ty site c}, convertTo e ty site = .ok c → c.value = e ∧ c.target = ty ∧ c.Fits := by
    intro ty site c moved
    obtain ⟨conversion, into, rfl⟩ := convertTo_eq_ok.mp moved
    exact ⟨rfl, rfl, ne_void_of_arithmetic arithmetic ok, into⟩
  refine ⟨fun s sc => ?_, fun ty c site site' moved s sc => ?_, ?_⟩
  · obtain ⟨is, o, r, emits, -, -, performs⟩ := arithmetic_settles arithmetic ok s sc
    refine ⟨is, o, r, emits, runsAs_of_performs (fun h h' => Except.ok.inj (h.symm.trans h')) ?_⟩
    exact fun here hosted _ => (performs here hosted).imp fun _ _ delivered => delivered.2
  · obtain ⟨rfl, rfl, fit⟩ := fits moved
    obtain ⟨is, o, r, emits, -, -, performs⟩ :=
      converted_settles (arithmetic_settles arithmetic ok s sc) ok fit site'
    refine ⟨is, o, r, emits, runsAs_of_performs (fun h h' => Except.ok.inj (h.symm.trans h')) ?_⟩
    exact fun here hosted _ => (performs here hosted).imp fun _ _ delivered => delivered.2
  · intro ty c storable moved t u g x freshGlobal freshLocal
    refine ⟨checkVarDecl_initialized storable freshLocal anywhere moved, fun s sc fresh => ?_⟩
    have values := globalHolds_iff storable freshGlobal anywhere moved
    have faults := nonConstantGlobal_iff storable freshGlobal anywhere moved
    obtain ⟨rfl, rfl, fit⟩ := fits moved
    obtain ⟨is, r, emits, performs⟩ := variable_settles arithmetic ok fit s fresh
    refine ⟨is, r, _, emits, ?_⟩
    have runs := runsAs_of_performs
      (fun h h' => by simpa using Except.ok.inj (h.symm.trans h')) performs
    exact ⟨fun here hosted room l => (runs.value here hosted room l).trans (values l).symm,
      fun here hosted room => (runs.fault here hosted room).trans faults.symm⟩

/-- `-7 / divisor`, of a short and a long integer. -/
def quotient (divisor : Int64) : Source.Expr :=
  .binary (.arith .div) (.negate (.literal (.short 7))) (.literal (.long divisor))

/-- The quotient as it is checked, at type `long`. -/
def typedQuotient (divisor : Int64) : Expr :=
  .arith (.int .div)
    (.mk (.negate (.int .sub) (.short 0) (.literal (.short 7))) .intSignExtend .long)
    (.mk (.literal (.long divisor)) .identity .long)

def entrySpot : Spot where
  draft := { module :=
    { name := "main", functions := #[{ name := "f", result := .void, parameters := [] }] } }
  index := 0
  function :=
    { name := "f", result := .void, parameters := [], blocks := #[{ label := "entry" }] }
  block := 0
  hosts := ⟨_, rfl, rfl, rfl, rfl⟩
  isOpen := ⟨_, rfl, rfl⟩

/-- `-7 / 2` rounds towards zero, in a global and in a local variable of type `int`. `-7 / 0` is no
constant for the global, and traps in the local variable. -/
theorem quotients_fold_as_they_run :
    (GlobalHolds {} (initialized .int "g" (quotient 2)) (.int (-3)) ∧
      ∃ is r sc', EmitsInto entrySpot {}
          (lowerVarDecl ⟨"x", .int, [], some (.mk (typedQuotient 2) .intTruncate .int)⟩) is () r sc' ∧
        ∀ {m F p s}, At F p s → HostedAt F p is → 0 < s.top.slots.size →
          ∃ s', Steps m (fun _ => True) is.length s s' ∧ At F (p.skip is.length) s' ∧
            s'.cell (.stack 0) = .ok #[.int (-3)]) ∧
    ((checkGlobal (initialized .int "g" (quotient 0))).exec {}).1 =
        .error ⟨.nonConstantGlobal "g", .varDecl⟩ ∧
      ∃ is r sc', EmitsInto entrySpot {}
          (lowerVarDecl ⟨"x", .int, [], some (.mk (typedQuotient 0) .intTruncate .int)⟩) is () r sc' ∧
        ∀ {m F p s}, At F p s → HostedAt F p is → 0 < s.top.slots.size →
          ∃ n op, n < is.length ∧ Halts m (fun _ => True) n s (.error (.arithmetic op)) s.globals := by
  have checked : ∀ divisor Γ, checkExpr Γ (quotient divisor) = .ok (typedQuotient divisor) :=
    fun _ _ => rfl
  have arithmetic : ∀ divisor, Arithmetic (typedQuotient divisor) :=
    fun _ => .arith (.negate (.literal _)) (.literal _)
  have moved : ∀ divisor, convertTo (typedQuotient divisor) .int .varDecl =
      .ok (.mk (typedQuotient divisor) .intTruncate .int) :=
    fun _ => rfl
  have storable : Ty.int ≠ .void := nofun
  have settled := fun divisor =>
    ((folding_equals_execution (checked divisor {}) (arithmetic divisor)).2.2 .int _ storable
      (moved divisor) {} {} "g" "x" rfl rfl).2 entrySpot {} rfl
  have three : GlobalHolds {} (initialized .int "g" (quotient 2)) (.int (-3)) :=
    (globalHolds_iff storable rfl (checked 2) (moved 2) _).mpr (by decide +kernel)
  have rejected : ((checkGlobal (initialized .int "g" (quotient 0))).exec {}).1 =
      .error ⟨.nonConstantGlobal "g", .varDecl⟩ :=
    (nonConstantGlobal_iff storable rfl (checked 0) (moved 0)).mpr (by decide +kernel)
  refine ⟨⟨three, ?_⟩, rejected, ?_⟩
  · obtain ⟨is, r, sc', emits, runs⟩ := settled 2
    exact ⟨is, _, sc', emits, fun here hosted room => (runs.value here hosted room _).mpr three⟩
  · obtain ⟨is, r, sc', emits, runs⟩ := settled 0
    exact ⟨is, _, sc', emits, fun here hosted room => (runs.fault here hosted room).mpr rejected⟩

end Program

end ImpLower
