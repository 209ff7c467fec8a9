import ImpLower.Proofs.Code.Drafting
import ImpLower.Proofs.Code.Labels
import ImpLower.Proofs.Lower.Growth

/-!
# What stays of a draft

A draft only grows. Whatever is asked of it, in any order and with handles that need not refer to
anything, its functions, blocks and globals stay where they are, closed blocks stay as they are, and
the functions have distinct names and numbered registers and slots.
-/

namespace ImpLower.Code

/-- The second module is the first one with additions: globals and functions at the end, blocks at the
end of functions, and in open blocks instructions at the end and a terminator. -/
structure Module.Grows (m m' : Module) : Prop where
  name : m'.name = m.name
  globals : m.globals.toList <+: m'.globals.toList
  functions : ∀ {f : Nat} {F : Function}, m.functions[f]? = some F →
    ∃ F' : Function, m'.functions[f]? = some F' ∧ F.Grows [] F' ∧ F.labels <+: F'.labels

/-- Calls are to functions of the module. -/
def Function.CallsBelow (F : Function) (count : Nat) : Prop :=
  ∀ {p i g}, F.instructionAt? p = some i → i.callee? = some g → g < count

/-- Names of functions are distinct, registers and slots are numbered, and calls are to functions of
the module. -/
structure Module.Orderly (m : Module) : Prop where
  names : (m.functions.toList.map Function.name).Nodup
  numbered : ∀ F ∈ m.functions.toList, F.Numbered
  calls : ∀ F ∈ m.functions.toList, F.CallsBelow m.functions.size

namespace Module

def withFunctionAt (m : Module) (f : Nat) (F : Function) : Module :=
  { m with functions := m.functions.setIfInBounds f F }

/-! ## Growth -/

namespace Grows

theorem refl (m : Module) : m.Grows m where
  name := rfl
  globals := List.prefix_rfl
  functions hF := ⟨_, hF, .refl [] _, List.prefix_rfl⟩

theorem trans {m m₁ m' : Module} (h : m.Grows m₁) (h' : m₁.Grows m') : m.Grows m' where
  name := h'.name.trans h.name
  globals := h.globals.trans h'.globals
  functions := by
    intro f F hF
    obtain ⟨F₁, hF₁, grows, labels⟩ := h.functions hF
    obtain ⟨F', hF', grows', labels'⟩ := h'.functions hF₁
    exact ⟨F', hF', grows.trans grows', labels.trans labels'⟩

/-- A module grows with any one of its functions. -/
theorem withFunctionAt {m : Module} {f : Nat} {F F' : Function} (found : m.functions[f]? = some F)
    (grows : F.Grows [] F') (labels : F.labels <+: F'.labels) : m.Grows (m.withFunctionAt f F') where
  name := rfl
  globals := List.prefix_rfl
  functions := by
    intro g G hG
    have lt := (Array.getElem?_eq_some_iff.mp found).1
    by_cases same : f = g
    · subst same
      cases found.symm.trans hG
      exact ⟨F', Array.getElem?_setIfInBounds_self_of_lt lt, grows, labels⟩
    · exact ⟨G, (Array.getElem?_setIfInBounds_ne same).trans hG, .refl [] G, List.prefix_rfl⟩

theorem pushFunction (m : Module) (F : Function) :
    m.Grows { m with functions := m.functions.push F } where
  name := rfl
  globals := List.prefix_rfl
  functions := by
    intro g G hG
    have lt := (Array.getElem?_eq_some_iff.mp hG).1
    refine ⟨G, ?_, .refl [] G, List.prefix_rfl⟩
    rw [Array.getElem?_push, if_neg (by omega), hG]

theorem pushGlobal (m : Module) (g : Global) : m.Grows { m with globals := m.globals.push g } where
  name := rfl
  globals := by simp
  functions hF := ⟨_, hF, .refl [] _, List.prefix_rfl⟩

end Grows

theorem grows_of_emission {d d' : Draft} (h : d.Emission d') : d.module.Grows d'.module := by
  cases h with
  | instruction points _ _ =>
      exact .withFunctionAt points.function (.emit points.isOpen (by simp) _ _) (by simp)
  | terminator points t =>
      exact .withFunctionAt points.function (.close points.isOpen (by simp) t) (by simp)

theorem grows_of_change {d d' : Draft} (h : d.Change d') : d.module.Grows d'.module := by
  cases h with
  | none => exact .refl _
  | move place => exact .refl _
  | function new result parameters => exact .pushFunction _ _
  | global g => exact .pushGlobal _ g
  | block found label => exact .withFunctionAt found (.grow [] _ label) (by simp)
  | emission emission => exact grows_of_emission emission

/-! ## Order -/

namespace Orderly

variable {m : Module}

theorem new (name : String) : Orderly { name } where
  names := by simp
  numbered := by simp
  calls := by simp

theorem withFunctionAt (h : m.Orderly) {f : Nat} {F : Function} (found : m.functions[f]? = some F)
    (F' : Function) (header : F.SameHeader F') (numbered : F'.Numbered) (calls : F'.CallsBelow m.functions.size) :
    (m.withFunctionAt f F').Orderly where
  names := by
    have same : (m.functions.setIfInBounds f F').toList.map Function.name =
        m.functions.toList.map Function.name := by
      apply List.ext_getElem?
      intro g
      simp only [List.getElem?_map, Array.getElem?_toList]
      by_cases here : f = g
      · subst here
        have lt := (Array.getElem?_eq_some_iff.mp found).1
        rw [Array.getElem?_setIfInBounds_self_of_lt lt, found, Option.map_some, Option.map_some,
          header.1]
      · rw [Array.getElem?_setIfInBounds_ne here]
    unfold Module.withFunctionAt
    rw [same]
    exact h.names
  numbered := by
    intro G hG
    rcases Array.mem_or_eq_of_mem_setIfInBounds (Array.mem_toList_iff.mp hG) with old | rfl
    · exact h.numbered G (Array.mem_toList_iff.mpr old)
    · exact numbered
  calls := by
    intro G hG
    unfold Module.withFunctionAt at hG ⊢
    rw [Array.size_setIfInBounds]
    rcases Array.mem_or_eq_of_mem_setIfInBounds (Array.mem_toList_iff.mp hG) with old | rfl
    · exact h.calls G (Array.mem_toList_iff.mpr old)
    · exact calls

theorem pushFunction (h : m.Orderly) {F : Function} (new : m.functionIndex? F.name = none)
    (numbered : F.Numbered) (calls : F.CallsBelow m.functions.size) :
    Orderly { m with functions := m.functions.push F } where
  names := by
    have apart : F.name ∉ m.functions.toList.map Function.name := by
      intro taken
      obtain ⟨G, hG, same⟩ := List.mem_map.mp taken
      have differs := Array.findIdx?_eq_none_iff.mp new G (Array.mem_toList_iff.mp hG)
      simp [same] at differs
    simp only [Array.toList_push, List.map_append, List.map_cons, List.map_nil]
    exact List.nodup_append.mpr ⟨h.names, by simp, by simpa using apart⟩
  numbered := by
    intro G hG
    simp only [Array.toList_push, List.mem_append, List.mem_singleton] at hG
    rcases hG with old | rfl
    · exact h.numbered G old
    · exact numbered
  calls := by
    intro G hG p i g hi called
    simp only [Array.toList_push, List.mem_append, List.mem_singleton] at hG
    simp only [Array.size_push]
    have below : g < m.functions.size := by
      rcases hG with old | rfl
      · exact h.calls G old hi called
      · exact calls hi called
    omega

theorem emission {d d' : Draft} (h : d.module.Orderly) (e : d.Emission d') : d'.module.Orderly := by
  cases e with
  | @instruction place F i k points takes known =>
      have mem : F ∈ d.module.functions.toList :=
        Array.mem_toList_iff.mpr (Array.mem_of_getElem? points.function)
      apply h.withFunctionAt points.function (F.emit place.block [i] k) ⟨rfl, rfl, rfl⟩
      · exact (h.numbered F mem).emit points.isOpen takes
      · intro p j g hj called
        rw [Function.instructionAt?_emit points.isOpen] at hj
        split at hj
        · cases hj
          exact known g called
        · exact h.calls F mem hj called
  | @terminator place F points t =>
      have mem : F ∈ d.module.functions.toList :=
        Array.mem_toList_iff.mpr (Array.mem_of_getElem? points.function)
      apply h.withFunctionAt points.function (F.close place.block t) ⟨rfl, rfl, rfl⟩
      · exact (h.numbered F mem).of_same (by simp) (by simp)
      · intro p j g hj called
        rw [Function.instructionAt?_close] at hj
        exact h.calls F mem hj called

theorem change {d d' : Draft} (h : d.module.Orderly) (c : d.Change d') : d'.module.Orderly := by
  cases c with
  | none => exact h
  | move place => exact h
  | @function name new result parameters =>
      have empty : ∀ p, ({ name, result, parameters } : Function).instructionAt? p = none := by
        intro p
        simp [Function.instructionAt?]
      apply h.pushFunction new
      · refine ⟨fun hp => ?_, fun hp => ?_, fun {x} hx => ?_⟩
        · obtain ⟨i, hi, -⟩ := hp
          cases (empty _).symm.trans hi
        · obtain ⟨i, hi, -⟩ := hp
          cases (empty _).symm.trans hi
        · cases x with
          | register r => exact absurd hx (Nat.not_lt_zero r)
          | slot n => exact absurd hx (Nat.not_lt_zero n)
      · intro p i g hi
        cases (empty p).symm.trans hi
  | global g => exact ⟨h.names, h.numbered, h.calls⟩
  | @block f F found label =>
      have mem : F ∈ d.module.functions.toList :=
        Array.mem_toList_iff.mpr (Array.mem_of_getElem? found)
      apply h.withFunctionAt found (F.grow label) ⟨rfl, rfl, rfl⟩
      · exact (h.numbered F mem).of_same (by simp) (by simp)
      · intro p j g hj called
        rw [Function.instructionAt?_grow] at hj
        exact h.calls F mem hj called
  | emission e => exact h.emission e

end Orderly

end Module

namespace Draft

theorem grows_replay (d : Draft) (events : List (Event Operand Slot BlockId Nat)) :
    d.module.Grows (replay d events).module :=
  replay_keeps (P := fun d' : Draft => d.module.Grows d'.module)
    (fun _ e grows => grows.trans (Module.grows_of_change (change_apply e))) (.refl d.module) events

theorem orderly_replay (name : String) (events : List (Event Operand Slot BlockId Nat)) :
    (replay (Draft.new name) events).module.Orderly :=
  replay_keeps (P := fun d : Draft => d.module.Orderly) (fun _ e h => h.change (change_apply e)) (.new name)
    events

/-- Whatever was asked of a draft: a refused request leaves it as it is, and a request for code that is
granted emits one instruction or one terminator into an open block. Nothing that was built is taken
back or built twice afterwards. -/
theorem edits_atomic_and_permanent (name : String) (events : List (Event Operand Slot BlockId Nat)) :
    let d : Draft := replay (Draft.new name) events
    (∀ r e d', (Emitter.perform r).exec d = (.error e, d') → d' = d) ∧
    (∀ r v d', emitsCode r = true → (Emitter.perform r).exec d = (.ok v, d') → d.Emission d') ∧
    (∀ later, d.module.Grows (replay d later).module) ∧
    (d.module.functions.toList.map Function.name).Nodup ∧
    ∀ F ∈ d.module.functions.toList, F.Numbered := by
  intro d
  have orderly := orderly_replay name events
  refine ⟨fun r e d' run => ?_, fun r v d' emits run => ?_, grows_replay d, orderly.names,
    orderly.numbered⟩
  · exact (atomic_perform r).of_error run
  · exact (atomic_perform_of_emitsCode emits).holds_of_ok run

/-- An entry block with an allocation, and a second block that nothing leads to. -/
def entryEvents : List (Event Operand Slot BlockId Nat) :=
  [.request (.addFunction "main" .void []), .addBlock 0 "entry", .addBlock 0 "entry",
    .moveTo ⟨0, 0⟩, .request (.alloca .int none "x")]

/-- The entry block is closed once. A second terminator is refused, and so is a branch into a function
that is not there; the first one stays. -/
theorem entry_closed_once :
    let opened : Draft := replay (Draft.new "main") entryEvents
    let closed : Draft := replay (Draft.new "main") (entryEvents ++ [.request (.ret none)])
    opened.Emission closed ∧
    ((Emitter.perform (.branch ⟨7, 0⟩)).exec opened).2 = opened ∧
    ((Emitter.perform .unreachable).exec closed).2 = closed ∧
    closed.module.Grows (replay closed entryEvents).module := by
  obtain ⟨refused, granted, -, -, -⟩ := edits_atomic_and_permanent "main" entryEvents
  obtain ⟨refusedToo, -, grows, -, -⟩ :=
    edits_atomic_and_permanent "main" (entryEvents ++ [.request (.ret none)])
  exact ⟨granted (.ret none) () _ rfl (by decide +kernel),
    refused (.branch ⟨7, 0⟩) (.backend "branch target belongs to another function") _
      (by decide +kernel),
    refusedToo .unreachable (.afterTerminator "entry") _ (by decide +kernel), grows entryEvents⟩

end Draft

end ImpLower.Code
