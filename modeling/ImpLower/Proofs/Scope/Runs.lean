import ImpLower.Proofs.Scope.Containment

/-!
# Scopes over whole runs

What holds of a scope after any commands, and of work in a frame of its own from there. Each command
is refused for one reason only, and then changes nothing; open frames keep their bindings; names are
looked up from the inside out; and contained work leaves the frames around it as they were.
-/

namespace ImpLower.Scope

variable {α : Type}

/-! ## Refusals -/

/-- Why a command is refused in a scope. -/
inductive Refuses (s : Scope α) : Command α → Error → Prop
  | exit (outermost : s.depth = 1) : Refuses s .exit .underflow
  | declare {name : String} {value : α} (taken : s.declaresInCurrent name = true) :
      Refuses s (.declare name value) (.redeclaration name)
  | declareGlobal {name : String} {value : α} (taken : (s.globals.lookup name).isSome = true) :
      Refuses s (.declareGlobal name value) (.redeclaration name)

theorem error?_changed {s : Scope α} {r : Except Error (Scope α)} {e : Error}
    (h : (changed s r).1.error? = some e) : r = .error e ∧ (changed s r).2 = s := by
  cases r with
  | ok t => cases h
  | error e' =>
      cases h
      exact ⟨rfl, rfl⟩

theorem depth_of_exit_eq_error {s : Scope α} {e : Error} (h : s.exit = .error e) :
    e = .underflow ∧ s.depth = 1 := by
  rcases s with ⟨_ | ⟨top, rest⟩, globals⟩
  · cases h
    exact ⟨rfl, rfl⟩
  · cases h

theorem bind_eq_error {frame : Frame α} {name : String} {value : α} {e : Error}
    (h : bind frame name value = .error e) :
    e = .redeclaration name ∧ (frame.lookup name).isSome = true := by
  unfold bind at h
  cases found : frame.lookup name with
  | none =>
      rw [found] at h
      cases h
  | some other =>
      rw [found] at h
      cases h
      exact ⟨rfl, rfl⟩

theorem map_eq_error {β γ : Type} {r : Except Error β} {f : β → γ} {e : Error}
    (h : r.map f = .error e) : r = .error e := by
  cases r with
  | ok b => cases h
  | error e' =>
      cases h
      rfl

theorem declare_eq_error {s : Scope α} {name : String} {value : α} {e : Error}
    (h : s.declare name value = .error e) :
    e = .redeclaration name ∧ s.declaresInCurrent name = true := by
  rcases s with ⟨_ | ⟨top, rest⟩, globals⟩
  · exact bind_eq_error (map_eq_error h)
  · exact bind_eq_error (map_eq_error h)

theorem refuses_of_error {s : Scope α} {c : Command α} {e : Error}
    (single : ∀ body, c ≠ .nested body) (h : (c.exec s).1.error? = some e) :
    s.Refuses c e ∧ (c.exec s).2 = s := by
  cases c with
  | enter => cases h
  | exit =>
      obtain ⟨refused, same⟩ := error?_changed h
      obtain ⟨rfl, outermost⟩ := depth_of_exit_eq_error refused
      exact ⟨.exit outermost, same⟩
  | declare name value =>
      obtain ⟨refused, same⟩ := error?_changed h
      obtain ⟨rfl, taken⟩ := declare_eq_error refused
      exact ⟨.declare taken, same⟩
  | declareGlobal name value =>
      obtain ⟨refused, same⟩ := error?_changed h
      obtain ⟨rfl, taken⟩ := bind_eq_error (map_eq_error refused)
      exact ⟨.declareGlobal taken, same⟩
  | lookup name => cases h
  | current name => cases h
  | nested body => exact absurd rfl (single body)

/-! ## Whole runs -/

/-- After any commands: the global frame is there, a refused command changes nothing, no binding of
an open frame is lost or replaced, and a name stands for its declaration in the innermost open frame
that has one. Work in a frame of its own restores the scope if it never exits more frames than it has
entered, be it given by its changes or as a sequence of commands. -/
theorem runs_keep_frames (run : List (Command α)) :
    1 ≤ (reached run).depth ∧
    (∀ c e, (∀ body, c ≠ .nested body) → (c.exec (reached run)).1.error? = some e →
      (reached run).Refuses c e ∧ (c.exec (reached run)).2 = reached run) ∧
    (journal run).frames.length = (reached run).depth ∧
    (∀ more i frame frame' name value, (i, frame) ∈ numberedFrames run →
      (i, frame') ∈ numberedFrames (run ++ more) → frame.lookup name = some value →
      frame'.lookup name = some value) ∧
    (∀ name value, (reached run).lookup name = some value ↔
      ∃ inside i outside, (journal run).frames = inside ++ i :: outside ∧
        (i, name, value) ∈ (journal run).entries ∧
        ∀ k ∈ inside, ∀ v, (k, name, v) ∉ (journal run).entries) ∧
    (∀ {ε β : Type} (body : Stateful ε (Scope α) β) (es : List (Event α)),
      replay es (reached run).enter = .ok (body.exec (reached run).enter).2 → Contained 0 es →
      Sheltered (reached run) body es) ∧
    (∀ body : List (Command α), (bodyHeight body 0).isSome = true →
      Sheltered (reached run) (Stateful.ofFn (execBody body))
        (bodyEvents body (reached run).enter)) := by
  refine ⟨one_le_depth _, ?_, length_frames_journal run, ?_, ?_, ?_, ?_⟩
  · intro c e single failed
    exact refuses_of_error single failed
  · intro more i frame frame' name value before after bound
    exact lookup_numberedFrames before after bound
  · intro name value
    rw [← (scope_journal run).1]
    exact (scope_journal run).2.lookup_scope
  · intro ε β body es changes contained
    exact sheltered_of_contained changes contained
  · intro body height
    obtain ⟨m, known⟩ := Option.isSome_iff_exists.mp height
    have each := fun c (_ : c ∈ body) => Command.contained_events c
    have contained := (bodyEvents_contained_of_forall each known (reached run).enter).1
    exact sheltered_of_contained (replay_bodyEvents body (reached run).enter) contained

/-- A name declared globally and hidden in a frame. -/
def shadowing : List (Command Nat) :=
  [.declare "x" 0, .enter, .declare "x" 1]

/-- Commands that fail in a frame of their own making, after a global declaration. -/
def unfinished : List (Command Nat) :=
  [.declare "y" 2, .enter, .declareGlobal "g" 3, .declare "x" 4, .declare "x" 5, .exit]

/-- The failure comes out as it is, with both frames closed; the new global is there, and the name
that was hidden once more in between stands for what it did. -/
theorem unfinished_work_restored :
    (bodyHeight unfinished 0).isSome = true ∧
    Sheltered (reached shadowing) (Stateful.ofFn (execBody unfinished))
      (bodyEvents unfinished (reached shadowing).enter) ∧
    ((Command.nested unfinished).exec (reached shadowing)).1.error? = some (.redeclaration "x") ∧
    ((Command.nested unfinished).exec (reached shadowing)).2.lookup "x" = some 1 ∧
    ((Command.nested unfinished).exec (reached shadowing)).2.lookup "g" = some 3 := by
  have height : (bodyHeight unfinished 0).isSome = true := by decide
  obtain ⟨-, -, -, -, -, -, sheltered⟩ := runs_keep_frames shadowing
  exact ⟨height, sheltered unfinished height, by decide +kernel, by decide +kernel, by decide +kernel⟩

end ImpLower.Scope
