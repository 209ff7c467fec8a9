import ImpLower.Proofs.Lower.Focus
import ImpLower.Proofs.Semantics.Cases

/-!
# Running the code of constant expressions

The code of an expression made of literals, negation and arithmetic reads no variable and calls nothing,
so it runs alike in every frame. Where folding finds a value, the machine comes out behind the code with
that value; where folding finds none, it stops inside with an arithmetic trap.
-/

namespace ImpLower

namespace Typed

/-- Expressions made of literals, negation, arithmetic and bitwise operators. -/
inductive Arithmetic : Expr → Prop
  | literal (value : Literal) : Arithmetic (.literal value)
  | negate {op : Operation} {zero : Literal} {operand : Expr} (inside : Arithmetic operand) :
      Arithmetic (.negate op zero operand)
  | arith {op : Operation} {left right : Converted} (insideLeft : Arithmetic left.value)
      (insideRight : Arithmetic right.value) : Arithmetic (.arith op left right)

end Typed

namespace Semantics

open Code Machine Typed
open Lower (Spot Emits lowerExpr lowerConverted exec_constant emits_binary emits_convert)

/-! ## Straight-line code -/

/-- The later state differs from the earlier one in the place it has reached and in registers from `r`
on only. -/
structure Computed (r : Nat) (s s' : State) : Prop where
  globals : s'.globals = s.globals
  callers : s'.callers = s.callers
  slots : s'.top.slots = s.top.slots
  operand : ∀ o l, o.Below r → s.top.operand o = .ok l → s'.top.operand o = .ok l

namespace Computed

variable {r r' : Nat} {s s₁ s' : State}

theorem refl (r : Nat) (s : State) : Computed r s s :=
  ⟨rfl, rfl, rfl, fun _ _ _ h => h⟩

theorem trans (h : Computed r s s₁) (h' : Computed r s₁ s') : Computed r s s' where
  globals := h'.globals.trans h.globals
  callers := h'.callers.trans h.callers
  slots := h'.slots.trans h.slots
  operand o l below read := h'.operand o l below (h.operand o l below read)

theorem mono (h : Computed r' s s') (le : r ≤ r') : Computed r s s' where
  globals := h.globals
  callers := h.callers
  slots := h.slots
  operand o l below := h.operand o l (below.mono le)

theorem setRegister (s : State) (r : Nat) (l : Literal) :
    Computed r s (s.setRegister r l).advance where
  globals := rfl
  callers := rfl
  slots := slots_setRegister s.top r l
  operand _ _ below read := operand_setRegister_of_below below read

end Computed

/-- The machine carries out the instructions at the place. Where there is a result it comes out behind
them with the globals it had; where there is none it stops inside with an arithmetic trap. -/
def Performs {α : Type} (m : Code.Module) (F : Function) (p : Place) (is : List Instruction)
    (s : State) (result : Option α) (Q : α → State → Prop) : Prop :=
  match result with
  | some a => ∃ s', Steps m (fun _ => True) is.length s s' ∧ At F (p.skip is.length) s' ∧
      s'.globals = s.globals ∧ Q a s'
  | none => ∃ n op, n < is.length ∧
      Halts m (fun _ => True) n s (.error (.arithmetic op)) s.globals

section

variable {α β : Type} {m : Code.Module} {F : Function} {p : Place} {is js : List Instruction}
  {r : Nat} {s : State} {x : Option α} {Q R : α → State → Prop}

theorem Performs.nothing {a : α} (here : At F p s) (h : Q a s) : Performs m F p [] s (some a) Q :=
  ⟨s, .refl, here, rfl, h⟩

theorem Performs.imp (h : Performs m F p is s x R) (imp : ∀ a s', R a s' → Q a s') :
    Performs m F p is s x Q := by
  cases x with
  | none => exact h
  | some a =>
      obtain ⟨s', steps, there, globals, reached⟩ := h
      exact ⟨s', steps, there, globals, imp a s' reached⟩

theorem Performs.bind {f : α → Option β} {Q : β → State → Prop} (head : Performs m F p is s x R)
    (tail : ∀ a s', x = some a → At F (p.skip is.length) s' → R a s' →
      Performs m F (p.skip is.length) js s' (f a) Q) :
    Performs m F p (is ++ js) s (x.bind f) Q := by
  cases x with
  | none =>
      obtain ⟨n, op, lt, halts⟩ := head
      exact ⟨n, op, by rw [List.length_append]; omega, halts⟩
  | some a =>
      obtain ⟨s', steps, there, globals, reached⟩ := head
      have rest := tail a s' rfl there reached
      rw [Option.bind_some]
      cases result : f a with
      | none =>
          rw [result] at rest
          obtain ⟨n, op, lt, halts⟩ := rest
          refine ⟨is.length + n, op, by rw [List.length_append]; omega, ?_⟩
          rw [← globals]
          exact steps.halts halts
      | some b =>
          rw [result] at rest
          obtain ⟨t, steps', there', globals', reached'⟩ := rest
          refine ⟨t, ?_, ?_, globals'.trans globals, reached'⟩
          · rw [List.length_append]
            exact steps.trans steps'
          · rw [List.length_append, ← Place.skip_skip]
            exact there'

/-- The value is in the operand, and otherwise only registers from `r` on are changed. -/
def Delivers (r : Nat) (s : State) (o : Operand) (l : Literal) (s' : State) : Prop :=
  Computed r s s' ∧ s'.top.operand o = .ok l

/-- One instruction that writes a register. -/
theorem performs_register {i : Instruction} {l : Literal} (here : At F p s)
    (moves : next m s = .running (s.setRegister r l).advance) :
    Performs m F p [i] s (some l) (Delivers r s (.register r)) :=
  ⟨_, .one trivial moves, (At.setRegister here r l).advance, rfl, .setRegister s r l,
    operand_setRegister s.top r l⟩

theorem performs_binary {op : Operation} {v w : Operand} {a b : Literal} {ty : Ty}
    (here : At F p s) (hosted : HostedAt F p [.binary r op v w])
    (left : s.top.operand v = .ok a) (right : s.top.operand w = .ok b) (typed : a.type = ty) :
    Performs m F p [.binary r op v w] s (op.eval a b ty) (Delivers r s (.register r)) := by
  subst typed
  have step : next m s = s.attempt (evalBinary op a b) fun value s =>
      .running (s.setRegister r value).advance := by
    rw [next_of_hosted here hosted, execInstruction, left, right]
    rfl
  cases value : op.eval a b a.type with
  | none =>
      have traps : next m s = .trapped (.arithmetic op) s.globals := by
        rw [step, evalBinary, value]
        rfl
      refine ⟨0, op, Nat.zero_lt_one, s, .refl, trivial, ?_, by rw [traps]; rfl⟩
      obtain ⟨B, hB, -⟩ := hosted
      simp [Activation.currentBlock?, here.function, here.block, hB]
  | some l =>
      refine performs_register here ?_
      rw [step, evalBinary, value]
      rfl

theorem performs_convert {c : Conversion} {v : Operand} {a : Literal} {target : Ty}
    (here : At F p s) (hosted : HostedAt F p [.convert r c v target])
    (read : s.top.operand v = .ok a) (possible : ∃ w, a.convert target = some w) :
    Performs m F p [.convert r c v target] s (a.convert target) (Delivers r s (.register r)) := by
  obtain ⟨w, moved⟩ := possible
  rw [moved]
  refine performs_register here ?_
  rw [next_of_hosted here hosted, execInstruction, read]
  show s.attempt (evalConvert a target) _ = _
  rw [evalConvert, moved]
  rfl

end

/-! ## Lowering and running -/

/-- From the spot on, the step emits code that performs in every frame as the constant says. Its value
is left in an operand below the next free register. -/
def Settles {α : Type} (s : Spot) (sc : Names) (x : Lower Draft Operand Slot Nat α)
    (result : Operand → α) (value? : Option Literal) : Prop :=
  ∃ is o r', Emits s sc x is (result o) ⟨r', s.slots⟩ ∧ s.registers ≤ r' ∧ o.Below r' ∧
    ∀ {m F p st}, At F p st → HostedAt F p is →
      Performs m F p is st value? (Delivers s.registers st o)

theorem converted_settles {c : Converted} {s : Spot} {sc : Names} {Γ : Scope Symbol}
    (settles : Settles s sc (lowerExpr c.value) some c.value.constant?) (ok : ExprOk Γ c.value)
    (fits : c.Fits) (site : Construct) : Settles s sc (lowerConverted site c) id c.constant? := by
  obtain ⟨e, conversion, target⟩ := c
  obtain ⟨is, o, r', emits, le, below, performs⟩ := settles
  -- what the value folds to has the type its conversion starts from
  have into : ∀ l, e.constant? = some l → Conversion.into target l.type = .ok conversion := by
    intro l folds
    rw [ok.constant?_eq.2 l folds]
    exact fits.2
  rw [Settles, lowerConverted, Converted.constant?_eq]
  by_cases kept : conversion = .identity
  · refine ⟨is, o, r', emits.before ?_, le, below, fun here hosted => ?_⟩
    · simp [Lower.required, kept]
    · have same : e.constant?.bind (·.convert target) = e.constant? := by
        cases folds : e.constant? with
        | none => rfl
        | some l =>
            have eq : target = l.type := Conversion.eq_of_into_eq_identity (kept ▸ into l folds)
            rw [Option.bind_some, eq, Literal.convert_type_self]
      show Performs _ _ _ _ _ (e.constant?.bind (·.convert target)) _
      rw [same]
      exact performs here hosted
  · refine ⟨is ++ [.convert r' conversion o target], .register r', r' + 1, ?_, by omega,
      Nat.lt_succ_self r', fun here hosted => ?_⟩
    · refine emits.bind (.after (a := o) rfl ?_)
      rw [if_neg kept]
      exact emits_convert conversion o target "conv"
    · obtain ⟨first, last⟩ := hostedAt_append.mp hosted
      refine (performs here first).bind fun l st' folds there left => ?_
      refine (performs_convert there last left.2 (Literal.convert_of_into (into l folds))).imp ?_
      exact fun _ _ left' => ⟨left.1.trans (left'.1.mono le), left'.2⟩

theorem arithmetic_settles {Γ : Scope Symbol} {e : Expr} (arithmetic : Arithmetic e)
    (ok : ExprOk Γ e) (s : Spot) (sc : Names) : Settles s sc (lowerExpr e) some e.constant? := by
  induction arithmetic generalizing s with
  | literal value =>
      refine ⟨[], .constant value, s.registers, ?_, Nat.le_refl _, trivial, fun here _ => ?_⟩
      · rw [lowerExpr]
        exact .after (exec_constant value) .pure
      · exact .nothing here ⟨.refl _ _, rfl⟩
  | @negate op zero operand _ ih =>
      cases ok with
      | negate start selected inside =>
          obtain ⟨is, o, r', emits, le, below, performs⟩ := ih inside s
          refine ⟨is ++ [.binary r' op (.constant zero) o], .register r', r' + 1, ?_, by omega,
            Nat.lt_succ_self r', fun here hosted => ?_⟩
          · rw [lowerExpr]
            refine .after (exec_constant zero) (emits.bind (.after (a := o) rfl ?_))
            exact (emits_binary op (.constant zero) o "neg").before rfl
          · obtain ⟨first, last⟩ := hostedAt_append.mp hosted
            rw [Expr.constant?]
            refine (performs here first).bind fun l st' folds there left => ?_
            refine (performs_binary there last rfl left.2 (Literal.type_of_zero start)).imp ?_
            exact fun _ _ left' => ⟨left.1.trans (left'.1.mono le), left'.2⟩
  | @arith op left right _ _ ihl ihr =>
      cases ok with
      | arith common same selected fitsLeft fitsRight insideLeft insideRight =>
          obtain ⟨is, v, r₁, emits, le, below, performs⟩ :=
            converted_settles (ihl insideLeft s) insideLeft fitsLeft .binary
          obtain ⟨js, w, r', emits', le', below', performs'⟩ :=
            converted_settles (ihr insideRight (s.emit is ⟨r₁, s.slots⟩)) insideRight fitsRight .binary
          have lower : s.registers ≤ r' := Nat.le_trans le le'
          refine ⟨is ++ (js ++ [.binary r' op v w]), .register r', r' + 1, ?_, by omega,
            Nat.lt_succ_self r', fun here hosted => ?_⟩
          · rw [lowerExpr]
            exact emits.bind (emits'.bind ((emits_binary op v w "binop").before rfl))
          · obtain ⟨first, rest⟩ := hostedAt_append.mp hosted
            obtain ⟨second, last⟩ := hostedAt_append.mp rest
            rw [Expr.constant?]
            refine (performs here first).bind fun a st₁ folds there one => ?_
            refine (performs' there second).bind fun b st₂ folds' there' two => ?_
            -- the left value is in a register that the code on the right leaves alone
            have read : st₂.top.operand v = .ok a := two.1.operand v a below one.2
            refine (performs_binary there' last read two.2 (type_of_constant? folds)).imp ?_
            exact fun _ _ three =>
              ⟨one.1.trans ((two.1.mono le).trans (three.1.mono lower)), three.2⟩

end Semantics

end ImpLower
