import ImpLower.Proofs.Scope.Journal

/-!
# Work in a frame of its own

Changes that close no more frames than they opened keep to the frames above those that were there,
except for global declarations. Whatever is left open when such work ends, with success or not,
closing the frames above the old depth restores the old frames, and the globals have at most gained
names.
-/

namespace ImpLower.Scope

variable {α : Type}

/-! ## Contained changes -/

/-- With `n` frames opened before, the changes never close more frames than have been opened. -/
def Contained (n : Nat) (es : List (Event α)) : Prop :=
  ∀ p, p <+: es → p.countP Event.closes ≤ n + p.countP Event.opens

/-- The binding that a change adds to the global frame from anywhere. -/
def Event.global? : Event α → Option (String × α)
  | declaredGlobally name value => some (name, value)
  | _ => none

/-- The scope `t` is `s` with the global declarations among the changes. -/
structure Restored (s : Scope α) (es : List (Event α)) (t : Scope α) : Prop where
  depth : t.depth = s.depth
  inner : t.inner = s.inner
  globals : t.globals = (es.filterMap Event.global?).reverse ++ s.globals
  kept : ∀ name value, s.globals.lookup name = some value → t.globals.lookup name = some value
  lookup : ∀ name, t.lookup name ≠ s.lookup name →
    (∀ frame ∈ s.frames, frame.lookup name = none) ∧
      ∃ value, .declaredGlobally name value ∈ es ∧ t.lookup name = some value

/-- Work in a frame of its own ends as the work does, no exit after it fails, and the scope around
it is restored. -/
structure Sheltered {ε β : Type} (s : Scope α) (body : Stateful ε (Scope α) β)
    (es : List (Event α)) : Prop where
  result : ((withFrame body).exec s).1 = (body.exec s.enter).1
  exits : (body.exec s.enter).2.exitTo s.depth = .ok ((withFrame body).exec s).2
  restored : Restored s es ((withFrame body).exec s).2

namespace Contained

variable {n m : Nat} {e : Event α} {es fs : List (Event α)}

theorem nil (n : Nat) : Contained n ([] : List (Event α)) := by
  intro p h
  rw [List.prefix_nil.mp h]
  exact Nat.zero_le _

theorem single (h : [e].countP Event.closes ≤ n + [e].countP Event.opens) : Contained n [e] := by
  intro p hp
  rcases List.prefix_cons_iff.mp hp with rfl | ⟨q, rfl, hq⟩
  · exact Nat.zero_le _
  · rw [List.prefix_nil.mp hq]
    exact h

theorem replicate {k : Nat} (le : k ≤ n) : Contained n (List.replicate k (.closed : Event α)) := by
  intro p hp
  have short := hp.length_le
  have most := List.countP_le_length (p := Event.closes) (l := p)
  rw [List.length_replicate] at short
  omega

theorem append (h : Contained n es)
    (count : n + es.countP Event.opens = m + es.countP Event.closes) (rest : Contained m fs) :
    Contained n (es ++ fs) := by
  rintro p ⟨after, split⟩
  rcases List.append_eq_append_iff.mp split with ⟨more, rfl, -⟩ | ⟨q, rfl, rfl⟩
  · exact h p (List.prefix_append _ _)
  · have := rest q (List.prefix_append _ _)
    rw [List.countP_append, List.countP_append]
    omega

theorem head (h : Contained n (e :: es)) :
    [e].countP Event.closes ≤ n + [e].countP Event.opens :=
  h [e] (by simp)

theorem tail (h : Contained n (e :: es))
    (count : n + [e].countP Event.opens = m + [e].countP Event.closes) : Contained m es := by
  intro p hp
  have := h (e :: p) (by simpa using hp)
  rw [List.countP_cons, List.countP_cons] at this
  simp only [List.countP_singleton] at count
  omega

end Contained

/-! ## Runs of contained changes -/

/-- One contained change: there is still a frame above the old ones, and only a global declaration
reaches below it. -/
theorem apply_contained {e : Event α} {es : List (Event α)} {above inner : List (Frame α)}
    {globals : Frame α} {u : Scope α} {n : Nat} (own : above.length = n + 1)
    (contained : Contained n (e :: es)) (h : e.apply ⟨above ++ inner, globals⟩ = .ok u) :
    ∃ above' m, above'.length = m + 1 ∧ Contained m es ∧
      u = ⟨above' ++ inner, e.global?.toList ++ globals⟩ ∧
      ∀ b ∈ e.global?, globals.lookup b.1 = none := by
  obtain ⟨top, rest, rfl⟩ := List.exists_cons_of_length_eq_add_one own
  rw [List.length_cons, Nat.add_right_cancel_iff] at own
  cases e with
  | opened =>
      cases h
      exact ⟨[] :: top :: rest, n + 1, by simp [own], contained.tail rfl, rfl, by simp [Event.global?]⟩
  | closed =>
      have positive : 1 ≤ n := contained.head
      cases h
      refine ⟨rest, n - 1, by omega, contained.tail ?_, rfl, by simp [Event.global?]⟩
      change n = n - 1 + 1
      omega
  | declared name value =>
      rw [Event.apply] at h
      obtain ⟨-, rfl⟩ := declare_eq_ok.mp h
      exact ⟨((name, value) :: top) :: rest, n, by simp [own], contained.tail rfl, rfl,
        by simp [Event.global?]⟩
  | declaredGlobally name value =>
      obtain ⟨fresh, rfl⟩ := declareGlobal_eq_ok.mp h
      refine ⟨top :: rest, n, by simp [own], contained.tail rfl, rfl, ?_⟩
      rintro b ⟨⟩
      exact fresh

/-- Contained changes never touch the frames below, and what they add to the globals is new there. -/
theorem replay_contained {es : List (Event α)} {above inner : List (Frame α)} {globals : Frame α}
    {t : Scope α} {n : Nat} (own : above.length = n + 1) (contained : Contained n es)
    (h : replay es ⟨above ++ inner, globals⟩ = .ok t) :
    (∃ above', t = ⟨above' ++ inner, (es.filterMap Event.global?).reverse ++ globals⟩) ∧
      ∀ b ∈ es.filterMap Event.global?, globals.lookup b.1 = none := by
  induction es generalizing above globals n with
  | nil =>
      cases h
      exact ⟨⟨above, rfl⟩, by simp⟩
  | cons e es ih =>
      obtain ⟨u, first, rest⟩ := replay_cons_eq_ok.mp h
      obtain ⟨above', m, own', contained', rfl, fresh⟩ := apply_contained own contained first
      obtain ⟨⟨above'', rfl⟩, later⟩ := ih own' contained' rest
      have unbound : ∀ b ∈ es.filterMap Event.global?, globals.lookup b.1 = none := by
        intro b hb
        rw [List.lookup_eq_none_iff]
        intro c hc
        exact List.lookup_eq_none_iff.mp (later b hb) c (List.mem_append_right _ hc)
      cases hg : e.global? with
      | none =>
          rw [List.filterMap_cons_none hg]
          exact ⟨⟨above'', rfl⟩, unbound⟩
      | some b =>
          rw [List.filterMap_cons_some hg]
          exact ⟨⟨above'', by simp⟩, List.forall_mem_cons.mpr ⟨fresh b hg, unbound⟩⟩

/-! ## Closing what was left open -/

theorem lookup_eq_or (s : Scope α) (name : String) :
    s.lookup name = (s.inner.findSome? (List.lookup name)).or (s.globals.lookup name) := by
  rw [lookup, List.findSome?_append]
  simp

theorem mem_of_global? {es : List (Event α)} {name : String} {value : α}
    (h : (name, value) ∈ es.filterMap Event.global?) : .declaredGlobally name value ∈ es := by
  obtain ⟨e, member, adds⟩ := List.mem_filterMap.mp h
  cases e <;> cases adds
  exact member

/-- Gaining fresh names in the global frame is all that shows. -/
theorem restored_of_fresh {s : Scope α} {es : List (Event α)}
    (fresh : ∀ b ∈ es.filterMap Event.global?, s.globals.lookup b.1 = none) :
    Restored s es { s with globals := (es.filterMap Event.global?).reverse ++ s.globals } := by
  have kept : ∀ name value, s.globals.lookup name = some value →
      ((es.filterMap Event.global?).reverse ++ s.globals).lookup name = some value := by
    intro name value bound
    have absent : (es.filterMap Event.global?).reverse.lookup name = none := by
      rw [List.lookup_eq_none_iff]
      intro b hb
      rw [bne_iff_ne]
      rintro rfl
      rw [fresh b (List.mem_reverse.mp hb)] at bound
      cases bound
    rw [List.lookup_append, absent, bound]
    rfl
  refine ⟨rfl, rfl, rfl, kept, ?_⟩
  intro name differs
  rw [lookup_eq_or, lookup_eq_or] at differs
  rw [lookup_eq_or]
  cases hi : s.inner.findSome? (List.lookup name) with
  | some value => simp [hi] at differs
  | none =>
      cases hg : s.globals.lookup name with
      | some value => simp [hi, hg, kept name value hg] at differs
      | none =>
          have unbound : ∀ frame ∈ s.frames, frame.lookup name = none := by
            intro frame member
            rcases List.mem_append.mp member with inside | last
            · exact List.findSome?_eq_none_iff.mp hi frame inside
            · rw [List.mem_singleton.mp last]
              exact hg
          refine ⟨unbound, ?_⟩
          simp only [hi, hg, Option.none_or, List.lookup_append, Option.or_none] at differs ⊢
          obtain ⟨value, found⟩ := Option.ne_none_iff_exists'.mp differs
          refine ⟨value, ?_, found⟩
          obtain ⟨later, earlier, split, -⟩ := List.lookup_eq_some_iff.mp found
          have member : (name, value) ∈ es.filterMap Event.global? := by
            rw [← List.mem_reverse, split]
            simp
          exact mem_of_global? member

/-- Work that keeps its changes contained leaves only global declarations behind, however it ends. -/
theorem sheltered_of_contained {ε β : Type} {s : Scope α} {body : Stateful ε (Scope α) β}
    {es : List (Event α)} (changes : replay es s.enter = .ok (body.exec s.enter).2)
    (contained : Contained 0 es) : Sheltered s body es := by
  have own : ([[]] : List (Frame α)).length = 0 + 1 := rfl
  obtain ⟨⟨above, inside⟩, fresh⟩ := replay_contained own contained changes
  have left : ((withFrame body).exec s).2 =
      { s with globals := (es.filterMap Event.global?).reverse ++ s.globals } := by
    change (body.exec s.enter).2.unwind s.depth = _
    rw [inside]
    simp [unwind, Scope.depth]
  refine ⟨rfl, exitTo_withFrame body s, ?_⟩
  rw [left]
  exact restored_of_fresh fresh

/-! ## Contained sequences of commands -/

mutual

/-- The number of frames entered and not exited after a command, with `n` of them before it; none
if the command exits a frame that was not entered. A nested sequence enters a frame, and exits those
that its body leaves open. -/
def Command.height : Command α → Nat → Option Nat
  | .enter, n => some (n + 1)
  | .exit, 0 => none
  | .exit, n + 1 => some n
  | .declare _ _, n => some n
  | .declareGlobal _ _, n => some n
  | .lookup _, n => some n
  | .current _, n => some n
  | .nested body, n => (bodyHeight body (n + 1)).map (min n)

/-- The number of frames entered and not exited after a sequence of commands. -/
def bodyHeight : List (Command α) → Nat → Option Nat
  | [], n => some n
  | c :: rest, n => (c.height n).bind (bodyHeight rest)

end

theorem effect_contained {e : Event α} {n m : Nat}
    (count : n + [e].countP Event.opens = m + [e].countP Event.closes) (s : Scope α) :
    Contained n (e.effect s) ∧ ((changed s (e.apply s)).1.error? = none →
      n + (e.effect s).countP Event.opens = m + (e.effect s).countP Event.closes) := by
  unfold Event.effect
  cases e.apply s with
  | error error =>
      refine ⟨.nil n, ?_⟩
      intro ok
      cases ok
  | ok t => exact ⟨.single (by omega), fun _ => count⟩

theorem bodyEvents_contained_of_forall {body : List (Command α)}
    (each : ∀ c ∈ body, ∀ n m s, c.height n = some m → Contained n (c.events s) ∧
      ((c.exec s).1.error? = none →
        n + (c.events s).countP Event.opens = m + (c.events s).countP Event.closes))
    {n m : Nat} (h : bodyHeight body n = some m) (s : Scope α) :
    Contained n (bodyEvents body s) ∧ ((execBody body s).1.isOk = true →
      n + (bodyEvents body s).countP Event.opens = m + (bodyEvents body s).countP Event.closes) := by
  induction body generalizing n s with
  | nil =>
      cases h
      exact ⟨.nil _, fun _ => rfl⟩
  | cons c rest ih =>
      obtain ⟨head, tail⟩ := List.forall_mem_cons.mp each
      obtain ⟨k, hk, hm⟩ := Option.bind_eq_some_iff.mp h
      obtain ⟨contained, count⟩ := head n k s hk
      cases failed : (c.exec s).1.error? with
      | some e =>
          simp only [bodyEvents, failed, List.append_nil, execBody_cons_of_error failed]
          refine ⟨contained, ?_⟩
          intro ok
          cases ok
      | none =>
          obtain ⟨contained', count'⟩ := ih tail hm (c.exec s).2
          have balance := count failed
          simp only [bodyEvents, failed, (execBody_cons_of_ok failed).2]
          refine ⟨contained.append balance contained', ?_⟩
          intro ok
          have balance' := count' ok
          rw [List.countP_append, List.countP_append]
          omega

/-- A command whose height is known keeps its changes contained, and succeeds at that height. -/
theorem Command.contained_events (c : Command α) : ∀ n m s, c.height n = some m →
    Contained n (c.events s) ∧ ((c.exec s).1.error? = none →
      n + (c.events s).countP Event.opens = m + (c.events s).countP Event.closes) := by
  induction c using Command.treeInduction with
  | enter =>
      rintro n _ s ⟨⟩
      exact effect_contained (e := .opened) rfl s
  | exit =>
      rintro (_ | n) _ s ⟨⟩
      exact effect_contained (e := .closed) rfl s
  | declare name value =>
      rintro n _ s ⟨⟩
      exact effect_contained (e := .declared name value) rfl s
  | declareGlobal name value =>
      rintro n _ s ⟨⟩
      exact effect_contained (e := .declaredGlobally name value) rfl s
  | lookup name =>
      rintro n _ s ⟨⟩
      exact ⟨.nil n, fun _ => rfl⟩
  | current name =>
      rintro n _ s ⟨⟩
      exact ⟨.nil n, fun _ => rfl⟩
  | nested body each =>
      intro n m s h
      obtain ⟨k, hk, rfl⟩ := Option.map_eq_some_iff.mp h
      obtain ⟨contained, count⟩ := bodyEvents_contained_of_forall each hk s.enter
      have depths := depth_of_replay (replay_bodyEvents body s.enter)
      have whole := contained _ List.prefix_rfl
      rw [depth_enter] at depths
      -- The frames that are still to be closed are among those that the sequence itself has entered.
      obtain ⟨left, hl⟩ := Nat.exists_eq_add_of_le whole
      have closing : Contained left
          (List.replicate ((execBody body s.enter).2.depth - s.depth) (.closed : Event α)) :=
        .replicate (by omega)
      have first : Contained n [(.opened : Event α)] := .single (Nat.zero_le _)
      refine ⟨first.append (m := n + 1) rfl (contained.append (by omega) closing), ?_⟩
      intro ok
      rw [← Option.isNone_iff_eq_none, (exec_nested body s).2] at ok
      have balance := count ok
      simp only [Command.events, List.countP_cons, List.countP_append, List.countP_replicate,
        Event.opens, Event.closes]
      simp only [Bool.false_eq_true, if_false, if_true]
      omega

end ImpLower.Scope
