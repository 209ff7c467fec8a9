import ImpLower.Proofs.Success
import ImpLower.Recorder

/-!
# Events and what recorders make of them

An event can be carried out again, on the same emitter or on another one. The log of a recorder is
therefore a full account of the emitter inside it: that emitter is always what the log makes of the
one the recorder started with.
-/

namespace ImpLower

variable {σ V S B F M : Type}

namespace Event

/-- Whether the event is one that an emitter can refuse. -/
def isRequest : Event V S B F → Bool
  | request _ => true
  | addBlock .. => false
  | moveTo _ => false
  | isClosed => false
  | parameters _ => false

theorem isRequest_eq_true {e : Event V S B F} (h : e.isRequest = true) : ∃ r, e = request r := by
  cases e with
  | request r => exact ⟨r, rfl⟩
  | addBlock f label => cases h
  | moveTo block => cases h
  | isClosed => cases h
  | parameters f => cases h

def apply [Emitter σ V S B F M] (s : σ) : Event V S B F → σ
  | request r => ((Emitter.perform r).exec s).2
  | addBlock f label => (Emitter.addBlock f label s).2
  | moveTo block => Emitter.moveTo block s
  | isClosed => (Emitter.isClosed s).2
  | parameters f => (Emitter.parameters f s).2

end Event

def replay [Emitter σ V S B F M] (s : σ) (events : List (Event V S B F)) : σ :=
  events.foldl Event.apply s

@[simp] theorem replay_nil [Emitter σ V S B F M] (s : σ) :
    replay s ([] : List (Event V S B F)) = s := rfl

@[simp] theorem replay_cons [Emitter σ V S B F M] (s : σ) (e : Event V S B F)
    (events : List (Event V S B F)) : replay s (e :: events) = replay (e.apply s) events := rfl

theorem replay_append [Emitter σ V S B F M] (s : σ) (first last : List (Event V S B F)) :
    replay s (first ++ last) = replay (replay s first) last :=
  List.foldl_append

/-- What holds of an emitter and is kept by every event holds after any events. -/
theorem replay_keeps [Emitter σ V S B F M] {P : σ → Prop}
    (step : ∀ s (e : Event V S B F), P s → P (e.apply s)) {s : σ} (start : P s)
    (events : List (Event V S B F)) : P (replay s events) := by
  induction events generalizing s with
  | nil => exact start
  | cons e rest ih => exact ih (step s e start)

def requestCount (events : List (Event V S B F)) : Nat :=
  events.countP Event.isRequest

@[simp] theorem requestCount_nil : requestCount ([] : List (Event V S B F)) = 0 := rfl

@[simp] theorem requestCount_append (first last : List (Event V S B F)) :
    requestCount (first ++ last) = requestCount first + requestCount last :=
  List.countP_append

@[simp] theorem requestCount_request (r : Request V S B F) (events : List (Event V S B F)) :
    requestCount (.request r :: events) = requestCount events + 1 :=
  List.countP_cons_of_pos rfl

theorem requestCount_of_not_request {e : Event V S B F} (certain : e.isRequest = false)
    (events : List (Event V S B F)) : requestCount (e :: events) = requestCount events :=
  List.countP_cons_of_neg (by simp [certain])

/-- A request is found by its number. -/
theorem exists_split_of_lt_requestCount {events : List (Event V S B F)} {n : Nat}
    (lt : n < requestCount events) :
    ∃ before r after, events = before ++ .request r :: after ∧ requestCount before = n := by
  induction events generalizing n with
  | nil => exact absurd lt (Nat.not_lt_zero n)
  | cons e rest ih =>
      cases kind : e.isRequest with
      | true =>
          obtain ⟨r, rfl⟩ := Event.isRequest_eq_true kind
          cases n with
          | zero => exact ⟨[], r, rest, rfl, rfl⟩
          | succ n =>
              rw [requestCount_request] at lt
              obtain ⟨before, r', after, split, count⟩ := ih (Nat.lt_of_succ_lt_succ lt)
              exact ⟨.request r :: before, r', after, by rw [split, List.cons_append], by simp [count]⟩
      | false =>
          rw [requestCount_of_not_request kind] at lt
          obtain ⟨before, r, after, split, count⟩ := ih lt
          exact ⟨e :: before, r, after, by rw [split, List.cons_append],
            (requestCount_of_not_request kind before).trans count⟩

/-! ## Recorders -/

namespace Recorder

variable [Emitter σ V S B F M]

/-- The recorder after events that it passed on. -/
def passed (s : Recorder σ V S B F) (events : List (Event V S B F)) : Recorder σ V S B F :=
  { s with
    inner := replay s.inner events
    log := s.log ++ events.toArray
    requests := s.requests + requestCount events }

/-- The recorder after a request that it refused. -/
def refused (s : Recorder σ V S B F) (r : Request V S B F) : Recorder σ V S B F :=
  { s.record (.request r) with requests := s.requests + 1 }

@[simp] theorem passed_nil (s : Recorder σ V S B F) : s.passed [] = s := by
  simp [passed]

theorem passed_of_not_request {e : Event V S B F} (certain : e.isRequest = false)
    (s : Recorder σ V S B F) : s.passed [e] = { s.record e with inner := e.apply s.inner } := by
  simp [passed, record, requestCount_of_not_request certain]

theorem passed_append (s : Recorder σ V S B F) (first last : List (Event V S B F)) :
    s.passed (first ++ last) = (s.passed first).passed last := by
  simp [passed, replay_append, Array.append_assoc, Nat.add_assoc]

/-- None of the events is the request to refuse. -/
def Spares (s : Recorder σ V S B F) (events : List (Event V S B F)) : Prop :=
  ∀ i, s.injection = some i →
    i.index < s.requests ∨ s.requests + requestCount events ≤ i.index

/-- The request to refuse is the one behind the events `before`. -/
def Strikes (s : Recorder σ V S B F) (events before : List (Event V S B F)) (r : Request V S B F)
    (message : String) : Prop :=
  (∃ after, events = before ++ .request r :: after) ∧
    s.injection = some ⟨s.requests + requestCount before, message⟩

theorem Spares.of_append {s : Recorder σ V S B F} {first last : List (Event V S B F)}
    (h : s.Spares (first ++ last)) : s.Spares first ∧ (s.passed first).Spares last := by
  constructor
  · intro i hi
    have apart := h i hi
    rw [requestCount_append] at apart
    omega
  · intro i hi
    have apart := h i hi
    rw [requestCount_append] at apart
    simp only [passed]
    omega

/-- The request to refuse lies among the first events, or the first events are spared and it lies
among the last. -/
theorem Strikes.of_append {s : Recorder σ V S B F} {first last before : List (Event V S B F)}
    {r : Request V S B F} {message : String} (h : s.Strikes (first ++ last) before r message) :
    s.Strikes first before r message ∨ ∃ more, before = first ++ more ∧ s.Spares first ∧
      (s.passed first).Strikes last more r message := by
  obtain ⟨⟨after, split⟩, injection⟩ := h
  have behind : ∀ more, before = first ++ more → last = more ++ .request r :: after →
      ∃ more, before = first ++ more ∧ s.Spares first ∧
        (s.passed first).Strikes last more r message := by
    intro more same rest
    have count : requestCount before = requestCount first + requestCount more := by
      rw [same, requestCount_append]
    refine ⟨more, same, ?_, ⟨after, rest⟩, ?_⟩
    · intro i hi
      cases injection.symm.trans hi
      simp only
      omega
    · simp only [passed, injection, count, Nat.add_assoc]
  rcases List.append_eq_append_iff.mp split with ⟨more, same, rest⟩ | ⟨more, same, rest⟩
  · exact .inr (behind more same rest)
  · cases more with
    | nil => exact .inr (behind [] (by rw [same, List.append_nil, List.append_nil]) rest.symm)
    | cons e more =>
        obtain ⟨rfl, -⟩ := List.cons.inj rest
        exact .inl ⟨⟨more, same⟩, injection⟩

theorem refusal?_of_spares {s : Recorder σ V S B F} {r : Request V S B F}
    (h : s.Spares [.request r]) : s.refusal? = none := by
  unfold refusal?
  cases hi : s.injection with
  | none => rfl
  | some i =>
      have apart := h i hi
      rw [requestCount_request, requestCount_nil] at apart
      exact if_neg (by omega)

theorem perform_of_spares {s : Recorder σ V S B F} {r : Request V S B F}
    (h : s.Spares [.request r]) :
    (perform r).exec s = (((Emitter.perform r).exec s.inner).1, s.passed [.request r]) := by
  simp [perform, refusal?_of_spares h, passed, record, Event.apply]

theorem perform_of_strikes {s : Recorder σ V S B F} {r : Request V S B F} {message : String}
    (h : s.injection = some ⟨s.requests, message⟩) :
    (perform r).exec s = (.error (.backend message), s.refused r) := by
  simp [perform, refusal?, h, refused]

end Recorder

end ImpLower
