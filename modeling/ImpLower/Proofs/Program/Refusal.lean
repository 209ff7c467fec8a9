import ImpLower.Proofs.Lower.Recording
import ImpLower.Proofs.Program.Validity

/-!
# Refused requests

An emitter that refuses a request in the middle ends the lowering of a program there. What was asked
before stays as it was, the emitter is not used again, not even to ask whether a block is closed, and
the refusal comes back as it was given.
-/

namespace ImpLower.Program

open Code Typing Typed

/-- A recorder around an empty draft. -/
def recorder (name : String) (injection : Option Injection) :
    Recorder Draft Operand Slot BlockId Nat :=
  { inner := Draft.new name, injection }

/-- A recorder with no request behind it spares what ends before the request it is to refuse. -/
theorem recorder_spares (name : String) {injection : Option Injection}
    {events : List (Event Operand Slot BlockId Nat)}
    (ends : ∀ i, injection = some i → requestCount events ≤ i.index) :
    (recorder name injection).Spares events := by
  intro i hi
  have bound := ends i hi
  simp only [recorder]
  omega

/-- A checked program is lowered by a series of events, every use of the emitter being one, and its
module is what they make of a draft. A recorder that is to refuse the request with number `n` logs them
all if there are not as many requests. Otherwise its log ends with that request, the draft inside it has
not seen it, and the diagnostic gives the reason word for word. -/
theorem refused_request_ends_lowering {p : Program} {ds : List Decl}
    (checked : checkProgram p.declarations = .ok ds) (name message : String) (n : Nat) :
    ∃ (m : Module) (events : List (Event Operand Slot BlockId Nat)),
      (p.compile (Draft.new name)).1 = (.ok m, replay (Draft.new name) events) ∧
      (p.compile (recorder name none)).1 =
        (.ok m,
          { inner := replay (Draft.new name) events
            log := events.toArray
            requests := requestCount events }) ∧
      (requestCount events ≤ n →
        (p.compile (recorder name (some ⟨n, message⟩))).1 =
          (.ok m,
            { inner := replay (Draft.new name) events
              log := events.toArray
              requests := requestCount events
              injection := some ⟨n, message⟩ })) ∧
      (n < requestCount events →
        ∃ before after r site, events = before ++ .request r :: after ∧ requestCount before = n ∧
          (p.compile (recorder name (some ⟨n, message⟩))).1 =
            (.error ⟨.backend message, site⟩,
              { inner := replay (Draft.new name) before
                log := (before ++ [Event.request r]).toArray
                requests := n + 1
                injection := some ⟨n, message⟩ })) := by
  obtain ⟨m, d, generated, -⟩ := Lower.generate_eq_ok (programOk_of_check checked) name
  obtain ⟨result, events, unfailed, recorded⟩ := Lower.generate_recounts ds (Draft.new name)
  obtain ⟨rfl, rfl⟩ := Prod.mk.inj (unfailed.symm.trans generated)
  simp only [compile_eq_generate checked]
  refine ⟨m, events, generated, ?_, fun most => ?_, fun among => ?_⟩
  · have spares : (recorder name none).Spares events := recorder_spares name (by simp)
    rw [(recorded (recorder name none) rfl).1 spares]
    simp [Recorder.passed, recorder]
  · have spares : (recorder name (some ⟨n, message⟩)).Spares events :=
      recorder_spares name (by simpa using most)
    rw [(recorded (recorder name (some ⟨n, message⟩)) rfl).1 spares]
    simp [Recorder.passed, recorder]
  · obtain ⟨before, r, after, split, count⟩ := exists_split_of_lt_requestCount among
    have strikes : (recorder name (some ⟨n, message⟩)).Strikes events before r message :=
      ⟨⟨after, split⟩, by simp [recorder, count]⟩
    obtain ⟨site, run⟩ := (recorded (recorder name (some ⟨n, message⟩)) rfl).2 strikes
    refine ⟨before, after, r, site, split, count, ?_⟩
    rw [run]
    simp [Recorder.passed, Recorder.refused, Recorder.record, recorder, count]

/-- Lowering makes sixty requests here. A refusal of the fortieth leaves forty on record. -/
theorem sweep_breaks_off :
    ∃ before r site, requestCount before = 39 ∧
      ((ofDecls sweepProgram).compile (recorder "main" (some ⟨39, "disk full"⟩))).1 =
        (.error ⟨.backend "disk full", site⟩,
          { inner := replay (Draft.new "main") before
            log := (before ++ [Event.request r]).toArray
            requests := 40
            injection := some ⟨39, "disk full"⟩ }) := by
  obtain ⟨ds, checked⟩ := sweepProgram_checks
  obtain ⟨m, events, -, unfailed, -, breaksOff⟩ :=
    refused_request_ends_lowering (p := ofDecls sweepProgram) checked "main" "disk full" 39
  have asked : ((ofDecls sweepProgram).compile (recorder "main" none)).1.2.requests = 60 := by
    decide +kernel
  rw [unfailed] at asked
  obtain ⟨before, after, r, site, -, count, run⟩ := breaksOff (by simp only at asked; omega)
  exact ⟨before, r, site, count, run⟩

end ImpLower.Program
