import Mathlib.Data.List.Induction
import ImpLower.Program
import ImpLower.Proofs.Lower.Decl
import ImpLower.Proofs.Typing.Acceptance
import ImpLower.Proofs.Typing.Faults

/-!
# Histories of a program

A program is built up, checked and lowered by commands in any order. Whether it may be lowered is a
matter of its history: it must have been checked, with success, since it last changed.
-/

namespace ImpLower.Program

open Code

/-- What can be done with a program. Lowering goes into a new module of the given name. -/
inductive Command where
  | restart (declarations : List Source.Decl)
  | add (d : Source.Decl)
  | check
  | lower (name : String)
  | compile (name : String)

def Command.run (p : Program) : Command → Program
  | restart declarations => ofDecls declarations
  | add d => p.add d
  | check => p.check.2
  | lower _ => p
  | compile name => (p.compile (Draft.new name)).2

/-- A command and the program it was given to. -/
structure Step where
  before : Program
  command : Command

namespace Step

def Checks (s : Step) : Prop :=
  s.command = .check ∨ ∃ name, s.command = .compile name

def Succeeds (s : Step) : Prop :=
  s.Checks ∧ s.before.check.1 = .ok ()

def Spoils (s : Step) : Prop :=
  (∃ declarations, s.command = .restart declarations) ∨ (∃ d, s.command = .add d) ∨
    s.Checks ∧ ∃ e, s.before.check.1 = .error e

end Step

def after (p : Program) (commands : List Command) : Program :=
  commands.foldl Command.run p

/-- The commands, each with the program it was given to. -/
def history (p : Program) : List Command → List Step
  | [] => []
  | c :: rest => ⟨p, c⟩ :: history (c.run p) rest

/-- A check succeeded, and since then the program neither changed nor failed a check. -/
def CheckedSince (steps : List Step) : Prop :=
  ∃ earlier step later, steps = earlier ++ step :: later ∧ step.Succeeds ∧ ∀ s ∈ later, ¬ s.Spoils

theorem after_concat (p : Program) (commands : List Command) (c : Command) :
    p.after (commands ++ [c]) = c.run (p.after commands) := by
  simp [after]

theorem history_concat (p : Program) (commands : List Command) (c : Command) :
    p.history (commands ++ [c]) = p.history commands ++ [⟨p.after commands, c⟩] := by
  induction commands generalizing p with
  | nil => rfl
  | cons first rest ih =>
      rw [List.cons_append, history, ih, history, List.cons_append]
      rfl

theorem checkedSince_concat {steps : List Step} {s : Step} :
    CheckedSince (steps ++ [s]) ↔ s.Succeeds ∨ CheckedSince steps ∧ ¬ s.Spoils := by
  constructor
  · rintro ⟨earlier, step, later, eq, ok, quiet⟩
    rcases List.eq_nil_or_concat later with rfl | ⟨later', last, rfl⟩
    · obtain ⟨-, same⟩ := List.append_inj' eq rfl
      cases same
      exact .inl ok
    · have eq' : steps ++ [s] = (earlier ++ step :: later') ++ [last] := by simpa using eq
      obtain ⟨rfl, same⟩ := List.append_inj' eq' rfl
      cases same
      exact .inr ⟨⟨earlier, step, later', rfl, ok, fun x hx => quiet x (by simp [hx])⟩,
        quiet s (by simp)⟩
  · rintro (ok | ⟨⟨earlier, step, later, rfl, ok, quiet⟩, spared⟩)
    · exact ⟨steps, s, [], rfl, ok, by simp⟩
    · refine ⟨earlier, step, later ++ [s], by simp, ok, fun x hx => ?_⟩
      rcases List.mem_append.mp hx with hx | hx
      · exact quiet x hx
      · rw [List.mem_singleton.mp hx]
        exact spared

theorem not_checkedSince_nil : ¬ CheckedSince [] := by
  rintro ⟨earlier, step, later, eq, -⟩
  simp at eq

/-! ## What the program remembers -/

theorem check_of_ok {p : Program} {checked : List Typed.Decl}
    (h : Typing.checkProgram p.declarations = .ok checked) :
    p.check = (.ok (), { p with checked := some checked }) := by
  simp [check, h]

theorem check_of_error {p : Program} {e : Diagnostic}
    (h : Typing.checkProgram p.declarations = .error e) :
    p.check = (.error e, { p with checked := none }) := by
  simp [check, h]

theorem compile_snd {σ V S B F M : Type} [Emitter σ V S B F M] (p : Program) (emitter : σ) :
    (p.compile emitter).2 = p.check.2 := by
  unfold compile
  rcases hc : p.check with ⟨_ | _, p'⟩ <;> rfl

/-- The program remembers a check just when its history has one that still counts, and what it
remembers is the result of that check. -/
structure Remembers (p : Program) (steps : List Step) : Prop where
  isChecked : p.isChecked = true ↔ CheckedSince steps
  result : ∀ checked, p.checked = some checked →
    Typing.checkProgram p.declarations = .ok checked

theorem Remembers.check {p : Program} {s : Step} (steps : List Step) (here : s.before = p)
    (checks : s.Checks) : Remembers p.check.2 (steps ++ [s]) := by
  subst here
  cases h : Typing.checkProgram s.before.declarations with
  | ok checked =>
      have done := check_of_ok h
      refine ⟨?_, ?_⟩
      · rw [checkedSince_concat, done]
        exact ⟨fun _ => .inl ⟨checks, by rw [done]⟩, fun _ => rfl⟩
      · rw [done]
        intro other same
        cases same
        exact h
  | error e =>
      have failed := check_of_error h
      refine ⟨?_, ?_⟩
      · rw [checkedSince_concat, failed]
        refine ⟨fun hc => (nomatch hc), ?_⟩
        rintro (ok | ⟨-, spared⟩)
        · have := ok.2
          rw [failed] at this
          cases this
        · exact absurd (.inr (.inr ⟨checks, e, by rw [failed]⟩)) spared
      · rw [failed]
        intro other same
        cases same

/-- A change makes the program forget. -/
theorem Remembers.forgets {p : Program} {s : Step} (steps : List Step) (idle : ¬ s.Checks)
    (spoils : s.Spoils) (unchecked : p.checked = none) : Remembers p (steps ++ [s]) := by
  constructor
  · rw [checkedSince_concat, Program.isChecked, unchecked]
    constructor
    · intro h
      cases h
    · rintro (ok | ⟨-, spared⟩)
      · exact absurd ok.1 idle
      · exact absurd spoils spared
  · intro checked h
    rw [unchecked] at h
    cases h

theorem Remembers.run {p : Program} {steps : List Step} (h : Remembers p steps) (c : Command) :
    Remembers (c.run p) (steps ++ [⟨p, c⟩]) := by
  cases c with
  | restart declarations =>
      refine .forgets steps ?_ (.inl ⟨_, rfl⟩) rfl
      rintro (hc | ⟨_, hc⟩) <;> cases hc
  | add d =>
      refine .forgets steps ?_ (.inr (.inl ⟨_, rfl⟩)) rfl
      rintro (hc | ⟨_, hc⟩) <;> cases hc
  | check => exact .check steps rfl (.inl rfl)
  | lower name =>
      refine ⟨?_, h.result⟩
      rw [checkedSince_concat]
      have quiet : ¬ (Step.mk p (.lower name)).Spoils := by
        rintro (⟨_, hc⟩ | ⟨_, hc⟩ | ⟨hc | ⟨_, hc⟩, -⟩) <;> cases hc
      have idle : ¬ (Step.mk p (.lower name)).Succeeds := by
        rintro ⟨hc | ⟨_, hc⟩, -⟩ <;> cases hc
      rw [Command.run, h.isChecked]
      tauto
  | compile name =>
      rw [Command.run, compile_snd]
      exact .check steps rfl (.inr ⟨name, rfl⟩)

theorem remembers_history (commands : List Command) :
    Remembers (after {} commands) (history {} commands) := by
  induction commands using List.reverseRecOn with
  | nil => exact ⟨⟨fun h => (nomatch h), fun h => absurd h not_checkedSince_nil⟩, fun _ h => nomatch h⟩
  | append_singleton commands c ih =>
      rw [after_concat, history_concat]
      exact ih.run c

/-! ## Lowering -/

theorem lower_of_checked {p : Program} {checked : List Typed.Decl} (h : p.checked = some checked)
    (fits : Typing.checkProgram p.declarations = .ok checked) (name : String) :
    ∃ m, (p.lower (Draft.new name)).1 = .ok m := by
  obtain ⟨-, ok, -⟩ :=
    Typing.checksDecls_annotated Typing.storable_empty rfl (Typing.checkProgram_eq_ok.mp fits)
  obtain ⟨m, d, run, -⟩ := Lower.generate_eq_ok ok name
  refine ⟨m, ?_⟩
  unfold lower
  rw [h]
  exact congrArg Prod.fst run

/-- Whatever was done with a program: a failed check is the program's own fault, lowering is refused
just when no check counts, and whenever one does it leads to a module. -/
theorem lower_succeeds_iff_checkedSince (commands : List Command) (name : String) :
    (∀ e, (after {} commands).check.1 = .error e → e.cause ≠ .scopeUnderflow ∧
      e.cause ≠ .returnOutsideFunction ∧ e.cause ≠ .notChecked ∧
      ∀ message, e.cause ≠ .backend message) ∧
    (((after {} commands).lower (Draft.new name)).1 = .error ⟨.notChecked, .program⟩ ↔
      ¬ CheckedSince (history {} commands)) ∧
    (CheckedSince (history {} commands) →
      ∃ m, ((after {} commands).lower (Draft.new name)).1 = .ok m) ∧
    ((∃ e, (after {} commands).check.1 = .error e ∧
        ((after {} commands).compile (Draft.new name)).1.1 = .error e) ∨
      ∃ m, ((after {} commands).compile (Draft.new name)).1.1 = .ok m) := by
  generalize hp : after {} commands = p
  have remembers : Remembers p (history {} commands) := hp ▸ remembers_history commands
  have lowers : CheckedSince (history {} commands) → ∃ m, (p.lower (Draft.new name)).1 = .ok m := by
    intro since
    obtain ⟨checked, hc⟩ := Option.isSome_iff_exists.mp (remembers.isChecked.mpr since)
    exact lower_of_checked hc (remembers.result checked hc) name
  refine ⟨?_, ⟨?_, ?_⟩, lowers, ?_⟩
  · intro e he
    have fault : e.cause.isFault = true := by
      cases h : Typing.checkProgram p.declarations with
      | ok checked => simp [check_of_ok h] at he
      | error d =>
          simp only [check_of_error h, Except.error.injEq] at he
          exact Typing.checkProgram_faults _ e (he ▸ h)
    refine ⟨?_, ?_, ?_, fun message => ?_⟩ <;> intro hc <;> simp [hc, Cause.isFault] at fault
  · intro refused since
    obtain ⟨m, hm⟩ := lowers since
    rw [refused] at hm
    cases hm
  · intro never
    have unchecked : p.checked = none := by
      cases hc : p.checked with
      | none => rfl
      | some checked => exact absurd (remembers.isChecked.mp (by simp [isChecked, hc])) never
    simp [lower, unchecked]
  · cases h : Typing.checkProgram p.declarations with
    | error e =>
        refine .inl ⟨e, by rw [check_of_error h], ?_⟩
        simp [compile, check_of_error h]
    | ok checked =>
        refine .inr ?_
        obtain ⟨m, hm⟩ := lower_of_checked (p := { p with checked := some checked }) rfl h name
        refine ⟨m, ?_⟩
        simp [compile, check_of_ok h, hm]

end ImpLower.Program
