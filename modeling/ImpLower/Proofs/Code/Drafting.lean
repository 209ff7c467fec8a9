import ImpLower.Proofs.Code.Numbering
import ImpLower.Proofs.Recorder

/-!
# What a request does to a draft

Every request is atomic: it is refused before anything was changed, or it is carried out to its end. A
request that emits code appends one instruction to the block at the insertion point or closes that
block. Together with the other events this is all that ever happens to a draft.
-/

namespace ImpLower.Code

def emitsCode : DraftRequest → Bool
  | .addFunction .. => false
  | .global .. => false
  | .constant _ => false
  | .finish => false
  | .alloca .. => true
  | .load .. => true
  | .store .. => true
  | .binary .. => true
  | .compare .. => true
  | .convert .. => true
  | .call .. => true
  | .branch _ => true
  | .condBranch .. => true
  | .switch .. => true
  | .ret _ => true
  | .unreachable => true

namespace Draft

/-- The insertion point is in an open block of the function. -/
structure PointsInto (d : Draft) (place : BlockId) (F : Function) : Prop where
  cursor : d.cursor = some place
  function : d.module.functions[place.function]? = some F
  isOpen : F.IsOpen place.block

/-- One instruction is appended to the block at the insertion point, or that block is closed. Apart
from a counter of the function around it, which goes up with what the instruction brings forth,
nothing else changes. -/
inductive Emission (d : Draft) : Draft → Prop
  | instruction {place : BlockId} {F : Function} {i : Instruction} {k : Counters}
      (points : d.PointsInto place F) (takes : F.Takes i k)
      (known : ∀ g, i.callee? = some g → g < d.module.functions.size) :
      Emission d (d.focus place.function (F.emit place.block [i] k) place.block)
  | terminator {place : BlockId} {F : Function} (points : d.PointsInto place F) (t : Terminator) :
      Emission d (d.focus place.function (F.close place.block t) place.block)

/-- What an event can do to a draft. -/
inductive Change (d : Draft) : Draft → Prop
  | none : Change d d
  | move (place : BlockId) : Change d { d with cursor := some place }
  | function {name : String} (new : d.module.functionIndex? name = .none) (result : Ty)
      (parameters : List Ty) :
      Change d { d with module := { d.module with
        functions := d.module.functions.push { name, result, parameters } } }
  | global (g : Global) :
      Change d { d with module := { d.module with globals := d.module.globals.push g } }
  | block {f : Nat} {F : Function} (found : d.module.functions[f]? = some F) (label : String) :
      Change d (d.setFunction f (F.grow label))
  | emission {d' : Draft} (emission : d.Emission d') : Change d d'

/-- The edit is refused at once, or it is carried out and leads to a draft with the property. -/
def Atomic {α : Type} (m : Edit α) (d : Draft) (P : Draft → Prop) : Prop :=
  (∃ e, m.exec d = (.error e, d)) ∨ ∃ a d', m.exec d = (.ok a, d') ∧ P d'

namespace Atomic

variable {α β : Type} {d : Draft} {P Q : Draft → Prop}

theorem of_ok {m : Edit α} {a : α} {d' : Draft} (run : m.exec d = (.ok a, d')) (holds : P d') :
    Atomic m d P :=
  .inr ⟨a, d', run, holds⟩

/-- A look at the draft changes nothing. -/
theorem looking {look : Draft → Except Refusal α} (now : P d) : Atomic (Draft.consult look) d P := by
  cases found : look d with
  | error e => exact .inl ⟨e, congrArg (·, d) found⟩
  | ok a => exact of_ok (congrArg (·, d) found) now

/-- A look at the draft may come first. -/
theorem consult {look : Draft → Except Refusal α} {f : α → Edit β}
    (rest : ∀ a, look d = .ok a → Atomic (f a) d P) : Atomic (Draft.consult look >>= f) d P := by
  cases found : look d with
  | error e =>
      have run : (Draft.consult look).exec d = (.error e, d) := congrArg (·, d) found
      exact .inl ⟨e, Stateful.exec_bind_of_error run⟩
  | ok a =>
      have run : (Draft.consult look).exec d = (.ok a, d) := congrArg (·, d) found
      rw [Atomic, Stateful.exec_bind_of_ok run]
      exact rest a found

theorem andThen {m : Edit α} (h : Atomic m d P) (f : α → β) :
    Atomic (m >>= fun a => pure (f a)) d P := by
  rcases h with ⟨e, run⟩ | ⟨a, d', run, holds⟩
  · exact .inl ⟨e, Stateful.exec_bind_of_error run⟩
  · exact of_ok (Stateful.exec_bind_of_ok run) holds

theorem imp {m : Edit α} (h : Atomic m d P) (weaken : ∀ d', P d' → Q d') : Atomic m d Q := by
  rcases h with refused | ⟨a, d', run, holds⟩
  · exact .inl refused
  · exact of_ok run (weaken d' holds)

theorem of_error {m : Edit α} (h : Atomic m d P) {e : Refusal} {d' : Draft}
    (run : m.exec d = (.error e, d')) : d' = d := by
  rcases h with ⟨e', refused⟩ | ⟨a, d₁, granted, -⟩
  · rw [refused] at run
    cases run
    rfl
  · rw [granted] at run
    cases run

theorem holds_of_ok {m : Edit α} (h : Atomic m d P) {a : α} {d' : Draft}
    (run : m.exec d = (.ok a, d')) : P d' := by
  rcases h with ⟨e', refused⟩ | ⟨a', d₁, granted, holds⟩
  · rw [refused] at run
    cases run
  · rw [granted] at run
    cases run
    exact holds

/-- What holds after a grant and holds of the draft as it is holds in the end. -/
theorem final {m : Edit α} (h : Atomic m d P) (now : P d) : P (m.exec d).2 := by
  rcases h with ⟨e, refused⟩ | ⟨a, d', granted, holds⟩
  · rw [refused]
    exact now
  · rw [granted]
    exact holds

end Atomic

/-! ## Code at the insertion point -/

/-- A draft is itself seen from its insertion point. -/
theorem PointsInto.focus_eq {d : Draft} {place : BlockId} {F : Function}
    (h : d.PointsInto place F) : d.focus place.function F place.block = d := by
  obtain ⟨lt, found⟩ := Array.getElem?_eq_some_iff.mp h.function
  unfold focus
  rw [← found, Array.setIfInBounds_def, dif_pos lt, Array.set_getElem_self]
  have cursor := h.cursor
  cases d with
  | mk module cursor' =>
      simp only at cursor
      rw [cursor]

theorem PointsInto.hosts {d : Draft} {place : BlockId} {F : Function} (h : d.PointsInto place F) :
    d.Hosts place.function F :=
  ⟨F, h.function, rfl, rfl, rfl⟩

variable {d : Draft}

/-- An edit at the insertion point is described by what it does there, in an open block. -/
theorem atomic_of_focus {α : Type} {m : Edit α} {P : Draft → Prop}
    (blocked : ∀ e, d.insertionPoint = .error e → m.exec d = (.error e, d))
    (carried : ∀ {place F}, d.PointsInto place F →
      ∃ a d', m.exec (d.focus place.function F place.block) = (.ok a, d') ∧ P d') :
    Atomic m d P := by
  cases point : d.insertionPoint with
  | error e => exact .inl ⟨e, blocked e point⟩
  | ok p =>
      obtain ⟨place, F, B⟩ := p
      obtain ⟨cursor, function, block, isOpen⟩ := insertionPoint_eq_ok.mp point
      have points : d.PointsInto place F := ⟨cursor, function, B, block, isOpen⟩
      obtain ⟨a, d', run, holds⟩ := carried points
      rw [points.focus_eq] at run
      exact .of_ok run holds

theorem atomic_append {i : Instruction} (nothing : i.defines = none)
    (known : ∀ g, i.callee? = some g → g < d.module.functions.size) :
    Atomic (append i) d d.Emission := by
  apply atomic_of_focus
  · intro e point
    exact Stateful.exec_bind_of_error (congrArg (·, d) point)
  · intro place F points
    exact ⟨_, _, append_focus points.hosts points.isOpen i,
      .instruction points (.nothing nothing) known⟩

theorem atomic_appendDef {i : Nat → Instruction} (writes : ∀ r, (i r).defines = some (.register r))
    (known : ∀ r g, (i r).callee? = some g → g < d.module.functions.size) :
    Atomic (appendDef i) d d.Emission := by
  apply atomic_of_focus
  · intro e point
    exact Stateful.exec_bind_of_error (congrArg (·, d) point)
  · intro place F points
    exact ⟨_, _, appendDef_focus points.hosts points.isOpen i,
      .instruction points (.register (writes _)) (known _)⟩

theorem atomic_appendAlloca (ty : Ty) (length : Option Operand) (name : String) :
    Atomic (appendAlloca ty length name) d d.Emission := by
  apply atomic_of_focus
  · intro e point
    exact Stateful.exec_bind_of_error (congrArg (·, d) point)
  · intro place F points
    refine ⟨_, _, appendAlloca_focus points.hosts points.isOpen ty length name, ?_⟩
    exact .instruction points (.slot rfl) fun g called => by cases called

theorem atomic_close (t : Terminator) : Atomic (close t) d d.Emission := by
  apply atomic_of_focus
  · intro e point
    exact Stateful.exec_bind_of_error (congrArg (·, d) point)
  · intro place F points
    exact ⟨_, _, close_focus points.hosts points.isOpen t, .terminator points t⟩

theorem atomic_appendCall (callee : Nat) (arguments : List Operand) :
    Atomic (appendCall callee arguments) d d.Emission := by
  unfold appendCall
  apply Atomic.consult
  intro G found
  have lt := (Array.getElem?_eq_some_iff.mp (function_eq_ok.mp found)).1
  have known : ∀ dest g, (Instruction.call dest callee arguments).callee? = some g →
      g < d.module.functions.size := by
    intro dest g called
    cases called
    exact lt
  split
  · exact (atomic_append rfl (known none)).andThen fun _ => none
  · exact (atomic_appendDef (fun _ => rfl) fun r => known (some r)).andThen some

/-- A request for code is refused at once or emits just that. -/
theorem atomic_perform_of_emitsCode {r : DraftRequest} (emits : emitsCode r = true) :
    Atomic (perform r) d d.Emission := by
  have plain : ∀ {i : Instruction}, i.callee? = none → ∀ g, i.callee? = some g →
      g < d.module.functions.size := by
    intro i none g called
    rw [none] at called
    cases called
  cases r with
  | alloca ty length name => exact atomic_appendAlloca ty length name
  | load slot ty offset name =>
      exact atomic_appendDef (i := (.load · slot ty offset)) (fun _ => rfl) fun _ => plain rfl
  | store slot ty offset value => exact atomic_append rfl (plain rfl)
  | binary op left right name =>
      exact atomic_appendDef (i := (.binary · op left right)) (fun _ => rfl) fun _ => plain rfl
  | compare test left right name =>
      exact atomic_appendDef (i := (.compare · test left right)) (fun _ => rfl) fun _ => plain rfl
  | convert conversion value target name =>
      exact atomic_appendDef (i := (.convert · conversion value target)) (fun _ => rfl)
        fun _ => plain rfl
  | call callee arguments name => exact atomic_appendCall callee arguments
  | branch target => exact .consult fun _ _ => atomic_close _
  | condBranch condition onTrue onFalse =>
      exact .consult fun _ _ => .consult fun _ _ => atomic_close _
  | switch value default cases => exact .consult fun _ _ => .consult fun _ _ => atomic_close _
  | ret value => exact atomic_close _
  | unreachable => exact atomic_close _
  | addFunction name result parameters => cases emits
  | global ty length initializer name => cases emits
  | constant value => cases emits
  | finish => cases emits

/-! ## All events -/

theorem addFunction_of_taken {name : String} {i : Nat}
    (taken : d.module.functionIndex? name = some i) (result : Ty) (parameters : List Ty) :
    ∃ e, (addFunction name result parameters).exec d = (.error e, d) := by
  rw [addFunction, Stateful.exec_bind_of_ok (Stateful.exec_get d), taken]
  exact ⟨_, rfl⟩

theorem atomic_perform (r : DraftRequest) : Atomic (perform r) d d.Change := by
  by_cases emits : emitsCode r = true
  · exact (atomic_perform_of_emitsCode emits).imp fun _ => .emission
  · cases r with
    | addFunction name result parameters =>
        cases taken : d.module.functionIndex? name with
        | none => exact .of_ok (addFunction_of_new taken result parameters) (.function taken _ _)
        | some i => exact .inl (addFunction_of_taken taken result parameters)
    | global ty length initializer name => exact .of_ok (addGlobal_exec d _) (.global _)
    | constant value => exact .of_ok rfl .none
    | finish => exact .looking .none
    | alloca ty length name => exact absurd rfl emits
    | load slot ty offset name => exact absurd rfl emits
    | store slot ty offset value => exact absurd rfl emits
    | binary op left right name => exact absurd rfl emits
    | compare test left right name => exact absurd rfl emits
    | convert conversion value target name => exact absurd rfl emits
    | call callee arguments name => exact absurd rfl emits
    | branch target => exact absurd rfl emits
    | condBranch condition onTrue onFalse => exact absurd rfl emits
    | switch value default cases => exact absurd rfl emits
    | ret value => exact absurd rfl emits
    | unreachable => exact absurd rfl emits

theorem change_addBlock (f : Nat) (label : String) : d.Change (d.addBlock f label).2 := by
  unfold addBlock
  cases found : d.module.functions[f]? with
  | none => exact .none
  | some F => exact .block found label

/-- An event does at most one of the listed changes. -/
theorem change_apply (e : Event Operand Slot BlockId Nat) : d.Change (e.apply d) := by
  cases e with
  | request r => exact (atomic_perform r).final .none
  | addBlock f label => exact change_addBlock f label
  | moveTo place => exact .move place
  | isClosed => exact .none
  | parameters f => exact .none

end Draft

end ImpLower.Code
