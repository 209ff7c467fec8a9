import ImpLower.Proofs.Scope.Exits
import ImpLower.Scope.Command

/-!
# Changes of a scope

A run of commands comes down to the changes that took effect: frames opened and closed, names
declared. Refused commands leave nothing, and a nested sequence opens a frame, makes the changes of its
body up to the first failure, and closes the frames that are left. Replaying the changes leads to the
same scope.
-/

namespace ImpLower.Scope

variable {α : Type}

inductive Event (α : Type) where
  | opened
  | closed
  | declared (name : String) (value : α)
  | declaredGlobally (name : String) (value : α)

namespace Event

def apply : Event α → Scope α → Except Error (Scope α)
  | opened, s => .ok s.enter
  | closed, s => s.exit
  | declared name value, s => s.declare name value
  | declaredGlobally name value, s => s.declareGlobal name value

/-- The change, if it takes effect. -/
def effect (e : Event α) (s : Scope α) : List (Event α) :=
  match e.apply s with
  | .ok _ => [e]
  | .error _ => []

def opens : Event α → Bool
  | opened => true
  | _ => false

def closes : Event α → Bool
  | closed => true
  | _ => false

end Event

/-- Makes changes one after the other, up to the first that is refused. -/
def replay : List (Event α) → Scope α → Except Error (Scope α)
  | [], s => .ok s
  | e :: es, s => e.apply s >>= replay es

theorem replay_cons_eq_ok {e : Event α} {es : List (Event α)} {s t : Scope α} :
    replay (e :: es) s = .ok t ↔ ∃ u, e.apply s = .ok u ∧ replay es u = .ok t :=
  except_bind_eq_ok

theorem replay_append {es fs : List (Event α)} {s t : Scope α} (h : replay es s = .ok t) :
    replay (es ++ fs) s = replay fs t := by
  induction es generalizing s with
  | nil =>
      cases h
      rfl
  | cons e es ih =>
      obtain ⟨u, first, rest⟩ := replay_cons_eq_ok.mp h
      rw [List.cons_append, replay, first]
      exact ih rest

/-- A change adds or takes away at most one frame. -/
theorem depth_of_apply {e : Event α} {s t : Scope α} (h : e.apply s = .ok t) :
    t.depth + [e].countP Event.closes = s.depth + [e].countP Event.opens := by
  cases e with
  | opened =>
      cases h
      rfl
  | closed => exact depth_of_exit h
  | declared name value => exact (gains_of_declare h).depth
  | declaredGlobally name value =>
      obtain ⟨-, rfl⟩ := declareGlobal_eq_ok.mp h
      rfl

theorem depth_of_replay {es : List (Event α)} {s t : Scope α} (h : replay es s = .ok t) :
    t.depth + es.countP Event.closes = s.depth + es.countP Event.opens := by
  induction es generalizing s with
  | nil =>
      cases h
      rfl
  | cons e es ih =>
      obtain ⟨u, first, rest⟩ := replay_cons_eq_ok.mp h
      have head := depth_of_apply first
      have tail := ih rest
      rw [List.countP_cons, List.countP_cons]
      simp only [List.countP_singleton] at head
      omega

theorem replay_closed_append (above rest : List (Frame α)) (globals : Frame α) :
    replay (List.replicate above.length .closed) ⟨above ++ rest, globals⟩ = .ok ⟨rest, globals⟩ := by
  induction above with
  | nil => rfl
  | cons top above ih => exact ih

/-- Closing the frames above a depth one by one unwinds to that depth. -/
theorem replay_closed {depth : Nat} (pos : 1 ≤ depth) (s : Scope α) :
    replay (List.replicate (s.depth - depth) .closed) s = .ok (s.unwind depth) := by
  have count : (s.inner.take (s.depth - depth)).length = s.depth - depth := by
    rw [List.length_take, Scope.depth]
    omega
  have closed := replay_closed_append (s.inner.take (s.depth - depth))
    (s.inner.drop (s.depth - depth)) s.globals
  rwa [count, List.take_append_drop] at closed

/-! ## The changes of a run -/

mutual

/-- The changes that a command makes. -/
def Command.events : Command α → Scope α → List (Event α)
  | .enter, s => Event.opened.effect s
  | .exit, s => Event.closed.effect s
  | .declare name value, s => (Event.declared name value).effect s
  | .declareGlobal name value, s => (Event.declaredGlobally name value).effect s
  | .lookup _, _ => []
  | .current _, _ => []
  | .nested body, s =>
      .opened :: (bodyEvents body s.enter ++
        List.replicate ((execBody body s.enter).2.depth - s.depth) .closed)

def bodyEvents : List (Command α) → Scope α → List (Event α)
  | [], _ => []
  | c :: rest, s =>
      c.events s ++
        match (c.exec s).1.error? with
        | some _ => []
        | none => bodyEvents rest (c.exec s).2

end

/-- The changes that commands make, whether they fail or not. -/
def allEvents : List (Command α) → Scope α → List (Event α)
  | [], _ => []
  | c :: rest, s => c.events s ++ allEvents rest (c.exec s).2

theorem Command.treeInduction {P : Command α → Prop} (enter : P .enter) (exit : P .exit)
    (declare : ∀ name value, P (.declare name value))
    (declareGlobal : ∀ name value, P (.declareGlobal name value))
    (lookup : ∀ name, P (.lookup name)) (current : ∀ name, P (.current name))
    (nested : ∀ body, (∀ c ∈ body, P c) → P (.nested body)) (c : Command α) : P c :=
  @Command.rec α P (fun body => ∀ c ∈ body, P c) enter exit declare declareGlobal lookup current nested
    (fun _ h => nomatch h) (fun _ _ head tail => List.forall_mem_cons.mpr ⟨head, tail⟩) c

/-- A body stops at its first failure. -/
theorem execBody_cons_of_error {c : Command α} {rest : List (Command α)} {s : Scope α} {e : Error}
    (h : (c.exec s).1.error? = some e) :
    execBody (c :: rest) s = (.error (e, [(c.exec s).1]), (c.exec s).2) := by
  simp only [execBody, h]

theorem execBody_cons_of_ok {c : Command α} {rest : List (Command α)} {s : Scope α}
    (h : (c.exec s).1.error? = none) :
    (execBody (c :: rest) s).2 = (execBody rest (c.exec s).2).2 ∧
      (execBody (c :: rest) s).1.isOk = (execBody rest (c.exec s).2).1.isOk := by
  simp only [execBody, h]
  rcases execBody rest (c.exec s).2 with ⟨_ | entries, u⟩
  · exact ⟨rfl, rfl⟩
  · exact ⟨rfl, rfl⟩

/-- A nested sequence is undone down to the depth before it, and fails when its body does. -/
theorem exec_nested (body : List (Command α)) (s : Scope α) :
    ((Command.nested body).exec s).2 = (execBody body s.enter).2.unwind s.depth ∧
      ((Command.nested body).exec s).1.error?.isNone = (execBody body s.enter).1.isOk := by
  have inside : (withFrame (Stateful.ofFn (execBody body))).exec s =
      ((execBody body s.enter).1, (execBody body s.enter).2.unwind s.depth) := rfl
  rw [Command.exec, inside]
  cases (execBody body s.enter).1 with
  | ok entries => exact ⟨rfl, rfl⟩
  | error e => exact ⟨rfl, rfl⟩

theorem replay_effect (e : Event α) (s : Scope α) :
    replay (e.effect s) s = .ok (changed s (e.apply s)).2 := by
  unfold Event.effect
  cases h : e.apply s with
  | ok t =>
      rw [replay, h]
      rfl
  | error error => rfl

theorem replay_bodyEvents_of_forall {body : List (Command α)}
    (each : ∀ c ∈ body, ∀ s, replay (c.events s) s = .ok (c.exec s).2) (s : Scope α) :
    replay (bodyEvents body s) s = .ok (execBody body s).2 := by
  induction body generalizing s with
  | nil => rfl
  | cons c rest ih =>
      obtain ⟨head, tail⟩ := List.forall_mem_cons.mp each
      rw [bodyEvents, replay_append (head s)]
      cases h : (c.exec s).1.error? with
      | some e =>
          rw [execBody_cons_of_error h]
          rfl
      | none =>
          rw [(execBody_cons_of_ok h).1]
          exact ih tail _

/-- The changes of a command lead to the scope that the command leads to. -/
theorem Command.replay_events (c : Command α) (s : Scope α) :
    replay (c.events s) s = .ok (c.exec s).2 := by
  induction c using Command.treeInduction generalizing s with
  | enter => exact replay_effect .opened s
  | exit => exact replay_effect .closed s
  | declare name value => exact replay_effect (.declared name value) s
  | declareGlobal name value => exact replay_effect (.declaredGlobally name value) s
  | lookup name => rfl
  | current name => rfl
  | nested body each =>
      have inside := replay_bodyEvents_of_forall each s.enter
      rw [(exec_nested body s).1, Command.events]
      change replay (bodyEvents body s.enter ++ _) s.enter = _
      rw [replay_append inside, replay_closed s.one_le_depth]

theorem replay_bodyEvents (body : List (Command α)) (s : Scope α) :
    replay (bodyEvents body s) s = .ok (execBody body s).2 :=
  replay_bodyEvents_of_forall (fun c _ => c.replay_events) s

theorem replay_allEvents (run : List (Command α)) (s : Scope α) :
    replay (allEvents run s) s = .ok (execAll run s).2 := by
  induction run generalizing s with
  | nil => rfl
  | cons c rest ih =>
      rw [allEvents, replay_append (c.replay_events s)]
      exact ih _

end ImpLower.Scope
