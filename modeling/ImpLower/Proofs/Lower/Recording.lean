import ImpLower.Proofs.Lower.Parallel
import ImpLower.Proofs.Recorder

/-!
# Lowering into a recorder

A recorder that refuses nothing is not noticed: lowering ends with the same result, and the log is the
list of events that made the emitter what it is. Where the recorder refuses a request, lowering goes
the same way up to that request, ends there, and reports the refusal.
-/

namespace ImpLower.Lower

variable {σ V S B F M α β : Type} [Emitter σ V S B F M]

/-- From the state `s`, lowering by `m` is a series of events, and lowering by `m'` into a recorder
around the same emitter passes them on in order, up to the one it has to refuse. -/
structure Recounts (s : Lowering σ V S F) (m : Lower σ V S F α)
    (m' : Lower (Recorder σ V S B F) V S F α) (events : List (Event V S B F)) : Prop where
  replays : (m.exec s).2.emitter = replay s.emitter events
  passes : ∀ R : Recorder σ V S B F, R.inner = s.emitter → R.Spares events →
    m'.exec (s.into R) = ((m.exec s).1, (m.exec s).2.into (R.passed events))
  breaksOff : ∀ R : Recorder σ V S B F, R.inner = s.emitter → ∀ {before r message},
    R.Strikes events before r message → ∃ site t,
      m'.exec (s.into R) = (.error ⟨.backend message, site⟩, t) ∧
        t.emitter = (R.passed before).refused r

/-- Lowering by `m'` into a recorder recounts lowering by `m`. -/
def Recorded (m : Lower σ V S F α) (m' : Lower (Recorder σ V S B F) V S F α) : Prop :=
  ∀ s, ∃ events, Recounts s m m' events

namespace Recounts

variable {s : Lowering σ V S F} {m : Lower σ V S F α} {m' : Lower (Recorder σ V S B F) V S F α}
  {f : α → Lower σ V S F β} {f' : α → Lower (Recorder σ V S B F) V S F β}
  {events later : List (Event V S B F)}

/-- No events, where the emitter is only looked at. -/
theorem of_keeps (keeps : (m.exec s).2.emitter = s.emitter)
    (same : ∀ R : Recorder σ V S B F, R.inner = s.emitter →
      m'.exec (s.into R) = ((m.exec s).1, (m.exec s).2.into R)) : Recounts s m m' [] where
  replays := keeps
  passes R inner _ := by rw [R.passed_nil, same R inner]
  breaksOff R _ before r message strikes := by
    obtain ⟨⟨after, split⟩, -⟩ := strikes
    simp at split

theorem bind_error (h : Recounts s m m' events) {e : Diagnostic} {t : Lowering σ V S F}
    (run : m.exec s = (.error e, t)) : Recounts s (m >>= f) (m' >>= f') events := by
  have whole : (m >>= f).exec s = (.error e, t) := Stateful.exec_bind_of_error run
  refine ⟨?_, fun R inner spares => ?_, fun R inner before r message strikes => ?_⟩
  · rw [whole, ← h.replays, run]
  · have first := h.passes R inner spares
    rw [run] at first
    rw [whole, Stateful.exec_bind_of_error first]
  · obtain ⟨site, u, first, emitter⟩ := h.breaksOff R inner strikes
    exact ⟨site, u, Stateful.exec_bind_of_error first, emitter⟩

/-- Events of a sequence: those of the first step, then those of the second. -/
theorem bind_ok (h : Recounts s m m' events) {a : α} {t : Lowering σ V S F}
    (run : m.exec s = (.ok a, t)) (h' : Recounts t (f a) (f' a) later) :
    Recounts s (m >>= f) (m' >>= f') (events ++ later) := by
  have whole : (m >>= f).exec s = (f a).exec t := Stateful.exec_bind_of_ok run
  have middle : t.emitter = replay s.emitter events := by rw [← h.replays, run]
  -- what the recorder does first, as long as nothing of it is refused
  have first : ∀ R : Recorder σ V S B F, R.inner = s.emitter → R.Spares events →
      (m' >>= f').exec (s.into R) = (f' a).exec (t.into (R.passed events)) := by
    intro R inner spares
    have passes := h.passes R inner spares
    rw [run] at passes
    exact Stateful.exec_bind_of_ok passes
  have inside : ∀ R : Recorder σ V S B F, R.inner = s.emitter →
      (R.passed events).inner = t.emitter := by
    intro R inner
    rw [middle, ← inner]
    rfl
  refine ⟨?_, fun R inner spares => ?_, fun R inner before r message strikes => ?_⟩
  · rw [whole, h'.replays, middle, replay_append]
  · obtain ⟨sparesFirst, sparesLater⟩ := spares.of_append
    rw [first R inner sparesFirst, h'.passes _ (inside R inner) sparesLater, whole, R.passed_append]
  · rcases strikes.of_append with among | ⟨more, rfl, spares, behind⟩
    · obtain ⟨site, u, run', emitter⟩ := h.breaksOff R inner among
      exact ⟨site, u, Stateful.exec_bind_of_error run', emitter⟩
    · rw [first R inner spares, R.passed_append]
      exact h'.breaksOff _ (inside R inner) behind

/-- Work around a step that leaves the emitter aside, before it and after it. -/
theorem around {w : Lower σ V S F α} {w' : Lower (Recorder σ V S B F) V S F α}
    {s₁ : Lowering σ V S F} (after : (ρ : Type) → Lowering ρ V S F → Lowering ρ V S F)
    (h : Recounts s₁ m m' events) (before : s₁.emitter = s.emitter)
    (run : w.exec s = ((m.exec s₁).1, after _ (m.exec s₁).2))
    (run' : ∀ R, w'.exec (s.into R) =
      ((m'.exec (s₁.into R)).1, after _ (m'.exec (s₁.into R)).2))
    (keeps : ∀ ρ t, (after ρ t).emitter = t.emitter)
    (same : ∀ (t : Lowering σ V S F) (R : Recorder σ V S B F),
      after _ (t.into R) = (after _ t).into R) :
    Recounts s w w' events where
  replays := by rw [run, keeps, h.replays, before]
  passes R inner spares := by
    rw [run', h.passes R (inner.trans before.symm) spares, run, same]
  breaksOff R inner earlier r message strikes := by
    obtain ⟨site, t, broken, emitter⟩ := h.breaksOff R (inner.trans before.symm) strikes
    exact ⟨site, after _ t, by rw [run', broken], (keeps _ t).trans emitter⟩

theorem withFrame (h : Recounts { s with scope := s.scope.enter } m m' events) :
    Recounts s (ImpLower.withFrame m) (ImpLower.withFrame m') events :=
  around (fun _ t => { t with scope := t.scope.unwind s.scope.depth }) h rfl
    (withFrame_exec m s) (fun R => withFrame_exec m' (s.into R)) (fun _ _ => rfl) fun _ _ => rfl

theorem inFunction (g : F) (h : Recounts { s with function := some g } m m' events) :
    Recounts s (Lower.inFunction g m) (Lower.inFunction g m') events :=
  around (fun _ t => { t with function := s.function }) h rfl rfl (fun _ => rfl)
    (fun _ _ => rfl) fun _ _ => rfl

end Recounts

/-- A request is one event, passed on unless it is the one to refuse. -/
theorem recounts_request (s : Lowering σ V S F) (site : Construct) (r : Request V S B F) :
    Recounts s (request site r) (request site r) [.request r] where
  replays := by
    simp only [request, Stateful.exec_ofFn, replay_cons, replay_nil, Event.apply]
    rcases (Emitter.perform r).exec s.emitter with ⟨_ | reply, e⟩
    · rfl
    · rfl
  passes R inner spares := by
    have run := R.perform_of_spares spares
    rw [inner] at run
    simp only [request, Stateful.exec_ofFn, Lowering.into]
    rw [show (Emitter.perform r).exec R = (Recorder.perform r).exec R from rfl, run]
    rcases (Emitter.perform r).exec s.emitter with ⟨_ | reply, e⟩
    · rfl
    · rfl
  breaksOff R inner before r' message strikes := by
    obtain ⟨⟨after, split⟩, injection⟩ := strikes
    cases before with
    | nil =>
        cases split
        have run := Recorder.perform_of_strikes (r := r) injection
        refine ⟨site, s.into (R.refused r), ?_, ?_⟩
        · simp only [request, Stateful.exec_ofFn, Lowering.into]
          rw [show (Emitter.perform r).exec R = (Recorder.perform r).exec R from rfl, run]
          rfl
        · rw [R.passed_nil]
          rfl
    | cons e before => simp at split

/-- An event that cannot be refused is passed on. -/
theorem recounts_event {s : Lowering σ V S F} {m : Lower σ V S F α}
    {m' : Lower (Recorder σ V S B F) V S F α} {e : Event V S B F} (certain : e.isRequest = false)
    (replays : (m.exec s).2.emitter = e.apply s.emitter)
    (passes : ∀ R : Recorder σ V S B F, R.inner = s.emitter → m'.exec (s.into R) =
      ((m.exec s).1, (m.exec s).2.into { R.record e with inner := e.apply R.inner })) :
    Recounts s m m' [e] where
  replays := replays
  passes R inner _ := by rw [passes R inner, R.passed_of_not_request certain]
  breaksOff R _ before r message strikes := by
    obtain ⟨⟨after, split⟩, -⟩ := strikes
    cases before with
    | nil =>
        cases split
        cases certain
    | cons e before => simp at split

theorem Recorded.bind {m : Lower σ V S F α} {m' : Lower (Recorder σ V S B F) V S F α}
    {f : α → Lower σ V S F β} {f' : α → Lower (Recorder σ V S B F) V S F β} (head : Recorded m m')
    (tail : ∀ a, Recorded (f a) (f' a)) : Recorded (m >>= f) (m' >>= f') := by
  intro s
  obtain ⟨events, here⟩ := head s
  cases run : m.exec s with
  | mk result t =>
      cases result with
      | error e => exact ⟨events, here.bind_error run⟩
      | ok a =>
          obtain ⟨later, there⟩ := tail a t
          exact ⟨events ++ later, here.bind_ok run there⟩

theorem recorded_of_straight {m : Lower σ V S F α} {m' : Lower (Recorder σ V S B F) V S F α}
    (h : Straight m m') : Recorded m m' := by
  induction h with
  | looks keeps same =>
      intro s
      refine ⟨[], .of_keeps (congrArg Lowering.emitter (keeps s)) fun R _ => ?_⟩
      rw [same s R, keeps s]
  | asks site r _ => exact fun s => ⟨_, recounts_request s site r⟩
  | bind _ _ head tail => exact head.bind tail

theorem recorded_isClosed :
    Recorded (isClosed : Lower σ V S F Bool) (isClosed : Lower (Recorder σ V S B F) V S F Bool) := by
  refine fun ⟨_, _, _⟩ => ⟨[.isClosed], recounts_event rfl rfl ?_⟩
  rintro R rfl
  rfl

/-- Lowering that is put together alike is recounted, whatever the emitter inside the recorder. -/
theorem recorded_of_parallel {m : Lower σ V S F α} {m' : Lower (Recorder σ V S B F) V S F α}
    {A : Scope.Allowance (Storage V S F)} {p q : Bool} (h : Parallel A m m' p q) : Recorded m m' := by
  induction h with
  | aside keeps permitted function same => exact fun s => ⟨[], .of_keeps (keeps s) fun R _ => same s R⟩
  | straight h => exact recorded_of_straight h
  | request site r => exact fun s => ⟨_, recounts_request s site r⟩
  | addBlock f label =>
      refine fun ⟨_, _, _⟩ => ⟨[.addBlock f label], recounts_event rfl rfl ?_⟩
      rintro R rfl
      rfl
  | moveTo block =>
      refine fun ⟨_, _, _⟩ => ⟨[.moveTo block], recounts_event rfl rfl ?_⟩
      rintro R rfl
      rfl
  | parameters f =>
      refine fun ⟨_, _, _⟩ => ⟨[.parameters f], recounts_event rfl rfl ?_⟩
      rintro R rfl
      rfl
  | asks _ rest => exact recorded_isClosed.bind rest
  | bind _ _ head tail => exact head.bind tail
  | withFrame _ ih =>
      intro s
      obtain ⟨events, inside⟩ := ih { s with scope := s.scope.enter }
      exact ⟨events, inside.withFrame⟩
  | inFunction f _ ih =>
      intro s
      obtain ⟨events, inside⟩ := ih { s with function := some f }
      exact ⟨events, inside.inFunction f⟩
  | weaken _ _ _ ih => exact ih

/-- Lowering a program is a series of events. A recorder around the emitter logs them all, or those up
to the request that it refuses. -/
theorem generate_recounts (ds : List Typed.Decl) (s : σ) :
    ∃ (result : Except Diagnostic M) (events : List (Event V S B F)),
      generate ds s = (result, replay s events) ∧
      ∀ R : Recorder σ V S B F, R.inner = s →
        (R.Spares events → generate ds R = (result, R.passed events)) ∧
        ∀ {before r message}, R.Strikes events before r message → ∃ site,
          generate ds R = (.error ⟨.backend message, site⟩, (R.passed before).refused r) := by
  have alike : Parallel .all (lowerProgram ds : Lower σ V S F M)
      (lowerProgram ds : Lower (Recorder σ V S B F) V S F M) false false := alike_lowerProgram ds
  obtain ⟨events, recounts⟩ := recorded_of_parallel alike { emitter := s }
  refine ⟨(generate ds s).1, events, ?_, fun R inner => ⟨fun spares => ?_, fun strikes => ?_⟩⟩
  · exact Prod.ext rfl recounts.replays
  · have run := recounts.passes R inner spares
    exact congrArg (fun out : Except Diagnostic M × Lowering (Recorder σ V S B F) V S F =>
      (out.1, out.2.emitter)) run
  · obtain ⟨site, t, run, emitter⟩ := recounts.breaksOff R inner strikes
    refine ⟨site, ?_⟩
    rw [← emitter]
    exact congrArg (fun out : Except Diagnostic M × Lowering (Recorder σ V S B F) V S F =>
      (out.1, out.2.emitter)) run

end ImpLower.Lower
