import Mathlib.Data.List.Nodup
import ImpLower.Proofs.Scope.Events

/-!
# The journal of a scope

A journal keeps the changes of a scope by frame: every frame has a number of its own, and nothing
that was declared is ever struck out. The scope that a run has reached is what its journal says of the
frames that are still open. So a binding stays as long as its frame does, and a name stands for its
declaration in the innermost open frame that has one.
-/

namespace ImpLower.Scope

variable {α : Type}

/-- The frames of a run are numbered in the order in which they were opened, and the global frame
has number zero. The journal lists the open ones, innermost first, and every declaration with the
number of its frame, latest first. -/
structure Journal (α : Type) where
  opened : Nat := 0
  live : List Nat := []
  entries : List (Nat × String × α) := []
  numbered : ∀ i ∈ live, 0 < i ∧ i ≤ opened := by simp
  distinct : live.Nodup := by simp
  dated : ∀ d ∈ entries, d.1 ≤ opened := by simp

namespace Journal

def frames (j : Journal α) : List Nat :=
  j.live ++ [0]

def bindings (j : Journal α) (i : Nat) : Frame α :=
  (j.entries.filter (·.1 = i)).map Prod.snd

/-- Puts down a declaration in a frame. -/
def enter (j : Journal α) (i : Nat) (known : i ≤ j.opened) (name : String) (value : α) : Journal α :=
  { j with
    entries := (i, name, value) :: j.entries
    dated := List.forall_mem_cons.mpr ⟨known, j.dated⟩ }

theorem innermost_le (j : Journal α) : j.live.headD 0 ≤ j.opened := by
  cases h : j.live with
  | nil => exact Nat.zero_le _
  | cons i rest => exact (j.numbered i (by simp [h])).2

/-- Puts down a change. -/
def note (j : Journal α) : Event α → Journal α
  | .opened =>
      { opened := j.opened + 1
        live := (j.opened + 1) :: j.live
        entries := j.entries
        numbered := List.forall_mem_cons.mpr
          ⟨⟨Nat.succ_pos _, Nat.le_refl _⟩,
            fun i h => ⟨(j.numbered i h).1, Nat.le_succ_of_le (j.numbered i h).2⟩⟩
        distinct := List.nodup_cons.mpr
          ⟨fun h => Nat.not_succ_le_self _ (j.numbered _ h).2, j.distinct⟩
        dated := fun d h => Nat.le_succ_of_le (j.dated d h) }
  | .closed =>
      { j with
        live := j.live.tail
        numbered := fun i h => j.numbered i (List.mem_of_mem_tail h)
        distinct := j.distinct.tail }
  | .declared name value => j.enter (j.live.headD 0) j.innermost_le name value
  | .declaredGlobally name value => j.enter 0 (Nat.zero_le _) name value

def scope (j : Journal α) : Scope α where
  inner := j.live.map j.bindings
  globals := j.bindings 0

theorem frames_scope (j : Journal α) : j.scope.frames = j.frames.map j.bindings := by
  simp [scope, Scope.frames, frames]

/-! ## Changes, one by one -/

theorem bindings_enter_self (j : Journal α) {i : Nat} (known : i ≤ j.opened) (name : String)
    (value : α) : (j.enter i known name value).bindings i = (name, value) :: j.bindings i := by
  simp [bindings, enter]

theorem bindings_enter_of_ne (j : Journal α) {i k : Nat} (known : i ≤ j.opened) (name : String)
    (value : α) (other : i ≠ k) : (j.enter i known name value).bindings k = j.bindings k := by
  simp [bindings, enter, other]

/-- A frame starts out empty. -/
theorem bindings_unopened (j : Journal α) {i : Nat} (later : j.opened < i) : j.bindings i = [] := by
  have none : j.entries.filter (·.1 = i) = [] := by
    rw [List.filter_eq_nil_iff]
    intro d h same
    have := j.dated d h
    simp only [decide_eq_true_eq] at same
    omega
  rw [bindings, none, List.map_nil]

theorem scope_opened (j : Journal α) : (j.note .opened).scope = j.scope.enter := by
  have empty := j.bindings_unopened (Nat.lt_succ_self j.opened)
  change Scope.mk (j.bindings (j.opened + 1) :: j.live.map j.bindings) (j.bindings 0) = _
  rw [empty]
  rfl

/-- Declaring in the innermost frame changes no other frame. -/
theorem scope_enter_innermost (j : Journal α) {i : Nat} (known : i ≤ j.opened)
    (innermost : j.live.headD 0 = i) (name : String) (value : α) :
    (j.enter i known name value).scope = j.scope.push name value := by
  change Scope.mk (j.live.map (j.enter i known name value).bindings)
    ((j.enter i known name value).bindings 0) = _
  rcases hl : j.live with _ | ⟨k, rest⟩
  · obtain rfl : 0 = i := by rw [← innermost, hl]; rfl
    rw [bindings_enter_self]
    simp [push, scope, hl]
  · obtain rfl : k = i := by rw [← innermost, hl]; rfl
    have distinct := j.distinct
    rw [hl, List.nodup_cons] at distinct
    have others : ∀ m ∈ rest, (j.enter k known name value).bindings m = j.bindings m := by
      intro m hm
      apply j.bindings_enter_of_ne
      rintro rfl
      exact distinct.1 hm
    have positive : k ≠ 0 := by
      have := (j.numbered k (by simp [hl])).1
      omega
    rw [List.map_cons, bindings_enter_self, List.map_congr_left others,
      bindings_enter_of_ne _ _ _ _ positive]
    simp [push, scope, hl]

theorem scope_enter_global (j : Journal α) (name : String) (value : α) :
    (j.enter 0 (Nat.zero_le _) name value).scope =
      { j.scope with globals := (name, value) :: j.scope.globals } := by
  have others : ∀ m ∈ j.live, (j.enter 0 (Nat.zero_le _) name value).bindings m = j.bindings m := by
    intro m hm
    apply j.bindings_enter_of_ne
    have := (j.numbered m hm).1
    omega
  change Scope.mk (j.live.map (j.enter 0 (Nat.zero_le _) name value).bindings)
    ((j.enter 0 (Nat.zero_le _) name value).bindings 0) = _
  rw [List.map_congr_left others, bindings_enter_self]
  rfl

/-- The journal keeps up with the scope. -/
theorem scope_note {j : Journal α} {e : Event α} {t : Scope α} (h : e.apply j.scope = .ok t) :
    (j.note e).scope = t := by
  cases e with
  | opened =>
      cases h
      exact j.scope_opened
  | closed =>
      simp only [Event.apply, exit, scope] at h
      rcases hl : j.live with _ | ⟨i, rest⟩
      · rw [hl] at h
        cases h
      · rw [hl] at h
        cases h
        change Scope.mk (j.live.tail.map j.bindings) (j.bindings 0) = _
        rw [hl]
        rfl
  | declared name value =>
      obtain ⟨-, rfl⟩ := declare_eq_ok.mp h
      exact j.scope_enter_innermost j.innermost_le rfl name value
  | declaredGlobally name value =>
      obtain ⟨-, rfl⟩ := declareGlobal_eq_ok.mp h
      exact j.scope_enter_global name value

/-! ## Declarations stay -/

/-- No name is declared twice in a frame. -/
def Single (j : Journal α) : Prop :=
  ∀ i, ((j.bindings i).map Prod.fst).Nodup

theorem Single.enter {j : Journal α} (single : j.Single) {i : Nat} (known : i ≤ j.opened)
    {name : String} (value : α) (fresh : (j.bindings i).lookup name = none) :
    (j.enter i known name value).Single := by
  intro k
  by_cases same : i = k
  · subst same
    rw [bindings_enter_self, List.map_cons, List.nodup_cons]
    refine ⟨?_, single i⟩
    rw [List.lookup_eq_none_iff] at fresh
    intro member
    obtain ⟨b, hb, rfl⟩ := List.mem_map.mp member
    simpa using fresh b hb
  · rw [bindings_enter_of_ne _ _ _ _ same]
    exact single k

theorem current_scope (j : Journal α) : j.scope.current = j.bindings (j.live.headD 0) := by
  rcases hl : j.live with _ | ⟨i, rest⟩ <;> simp [scope, current, hl]

/-- A declaration that the scope accepts is the first of its name in its frame. -/
theorem Single.note {j : Journal α} {e : Event α} {t : Scope α} (single : j.Single)
    (h : e.apply j.scope = .ok t) : (j.note e).Single := by
  cases e with
  | opened => exact single
  | closed => exact single
  | declared name value =>
      obtain ⟨fresh, -⟩ := declare_eq_ok.mp h
      rw [declaresInCurrent, current_scope, Option.isSome_eq_false_iff,
        Option.isNone_iff_eq_none] at fresh
      exact single.enter j.innermost_le value fresh
  | declaredGlobally name value =>
      obtain ⟨fresh, -⟩ := declareGlobal_eq_ok.mp h
      exact single.enter (Nat.zero_le _) value fresh

/-- The journal of a run is that of the scope it leads to. -/
theorem scope_foldl {es : List (Event α)} {j : Journal α} {t : Scope α} (single : j.Single)
    (h : replay es j.scope = .ok t) : (es.foldl note j).scope = t ∧ (es.foldl note j).Single := by
  induction es generalizing j with
  | nil =>
      cases h
      exact ⟨rfl, single⟩
  | cons e es ih =>
      obtain ⟨u, first, rest⟩ := replay_cons_eq_ok.mp h
      rw [← scope_note first] at rest
      exact ih (single.note first) rest

theorem entries_note (j : Journal α) (e : Event α) : j.entries <:+ (j.note e).entries := by
  cases e with
  | opened => exact List.suffix_refl _
  | closed => exact List.suffix_refl _
  | declared name value => exact List.suffix_cons _ _
  | declaredGlobally name value => exact List.suffix_cons _ _

theorem entries_foldl (es : List (Event α)) (j : Journal α) :
    j.entries <:+ (es.foldl note j).entries := by
  induction es generalizing j with
  | nil => exact List.suffix_refl _
  | cons e es ih => exact (j.entries_note e).trans (ih _)

/-! ## Reading the journal -/

theorem mem_bindings {j : Journal α} {i : Nat} {name : String} {value : α} :
    (name, value) ∈ j.bindings i ↔ (i, name, value) ∈ j.entries := by
  simp [bindings]

/-- A frame finds a name where the journal has its declaration. -/
theorem Single.lookup_eq_some_iff {j : Journal α} (single : j.Single) {i : Nat} {name : String}
    {value : α} : (j.bindings i).lookup name = some value ↔ (i, name, value) ∈ j.entries := by
  rw [← mem_bindings, List.lookup_eq_some_iff]
  constructor
  · rintro ⟨later, earlier, split, -⟩
    simp [split]
  · intro member
    obtain ⟨later, earlier, split⟩ := List.append_of_mem member
    refine ⟨later, earlier, split, ?_⟩
    intro b hb
    have names := single i
    rw [split, List.map_append, List.map_cons, List.nodup_append] at names
    have differs := names.2.2 b.1 (List.mem_map_of_mem hb) name List.mem_cons_self
    exact bne_iff_ne.mpr differs.symm

theorem lookup_eq_none_iff {j : Journal α} {i : Nat} {name : String} :
    (j.bindings i).lookup name = none ↔ ∀ value, (i, name, value) ∉ j.entries := by
  simp only [← mem_bindings, List.lookup_eq_none_iff]
  constructor
  · intro other value member
    simpa using other _ member
  · rintro absent ⟨n, value⟩ member
    have differs : name ≠ n := by
      rintro rfl
      exact absent value member
    simpa using differs

/-- A name stands for what is declared in the innermost open frame that has a declaration of it. -/
theorem Single.lookup_scope {j : Journal α} (single : j.Single) {name : String} {value : α} :
    j.scope.lookup name = some value ↔
      ∃ inside i outside, j.frames = inside ++ i :: outside ∧ (i, name, value) ∈ j.entries ∧
        ∀ k ∈ inside, ∀ v, (k, name, v) ∉ j.entries := by
  have found : j.scope.lookup name = j.frames.findSome? fun i => (j.bindings i).lookup name := by
    change j.scope.frames.findSome? (List.lookup name) = _
    rw [frames_scope, List.findSome?_map]
    rfl
  rw [found, List.findSome?_eq_some_iff]
  simp only [single.lookup_eq_some_iff, lookup_eq_none_iff]

end Journal

/-! ## Runs -/

def reached (run : List (Command α)) : Scope α :=
  (execAll run {}).2

def journal (run : List (Command α)) : Journal α :=
  (allEvents run {}).foldl Journal.note {}

/-- The open frames after commands, with their numbers. -/
def numberedFrames (run : List (Command α)) : List (Nat × Frame α) :=
  (journal run).frames.zip (reached run).frames

theorem scope_journal (run : List (Command α)) :
    (journal run).scope = reached run ∧ (journal run).Single := by
  have empty : ({} : Journal α).Single := fun _ => List.nodup_nil
  exact Journal.scope_foldl empty (replay_allEvents run {})

theorem mem_numberedFrames {run : List (Command α)} {i : Nat} {frame : Frame α}
    (h : (i, frame) ∈ numberedFrames run) : frame = (journal run).bindings i := by
  rw [numberedFrames, ← (scope_journal run).1, Journal.frames_scope, List.zip_eq_zipWith,
    List.zipWith_map_right, List.zipWith_self, List.mem_map] at h
  obtain ⟨k, -, same⟩ := h
  cases same
  rfl

theorem length_frames_journal (run : List (Command α)) :
    (journal run).frames.length = (reached run).depth := by
  rw [← (scope_journal run).1]
  simp [Journal.frames, Journal.scope, depth]

theorem allEvents_append (run more : List (Command α)) (s : Scope α) :
    allEvents (run ++ more) s = allEvents run s ++ allEvents more (execAll run s).2 := by
  induction run generalizing s with
  | nil => rfl
  | cons c rest ih =>
      rw [List.cons_append, allEvents, allEvents, ih, List.append_assoc]
      rfl

theorem entries_journal_append (run more : List (Command α)) :
    (journal run).entries <:+ (journal (run ++ more)).entries := by
  rw [journal, journal, allEvents_append, List.foldl_append]
  exact Journal.entries_foldl _ _

/-- A binding stays what it is as long as its frame is open. -/
theorem lookup_numberedFrames {run more : List (Command α)} {i : Nat} {frame frame' : Frame α}
    {name : String} {value : α} (before : (i, frame) ∈ numberedFrames run)
    (after : (i, frame') ∈ numberedFrames (run ++ more)) (bound : frame.lookup name = some value) :
    frame'.lookup name = some value := by
  rw [mem_numberedFrames before, (scope_journal run).2.lookup_eq_some_iff] at bound
  rw [mem_numberedFrames after, (scope_journal _).2.lookup_eq_some_iff]
  exact (entries_journal_append run more).mem bound

end ImpLower.Scope
