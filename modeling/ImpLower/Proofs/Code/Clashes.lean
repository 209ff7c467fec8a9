import ImpLower.Proofs.Code.Permanence

/-!
# Labels that clash

A block gets the label it asks for, numbered by the blocks whose labels count as uses of it. The number
is fresh among the labels that were numbered, but not among all: a block may ask for a label that is
spelled out with a number, and be given it as it is. This is the only way for two blocks of a function to
have the same label.
-/

namespace ImpLower.Code

/-- Blocks asked for these labels, in this order, and were given those: what they asked for, numbered by
the uses of it before. -/
structure Answered (asked labels : List String) : Prop where
  length : asked.length = labels.length
  label : ∀ {i wanted}, asked[i]? = some wanted →
    labels[i]? = some (numbered wanted ((labels.take i).countP (usesLabel wanted)))

/-- The earlier block was given the very label it asked for, and the later one is given it again, in place
of the label it asks for, by the number of uses. -/
def SpelledOut (asked labels : List String) (i j : Nat) : Prop :=
  ∃ wanted n, asked[j]? = some wanted ∧ (labels.take j).countP (usesLabel wanted) = n + 1 ∧
    asked[i]? = some (numbered wanted (n + 1)) ∧ labels[i]? = asked[i]?

namespace Answered

variable {asked labels : List String} {i j : Nat} {label : String}

theorem nil : Answered [] [] :=
  ⟨rfl, by simp⟩

theorem grow {F : Function} (h : Answered asked F.labels) (wanted : String) :
    Answered (asked ++ [wanted]) (F.grow wanted).labels where
  length := by simp [h.length]
  label := by
    intro i other hi
    rw [Function.labels_grow]
    have lt := (List.getElem?_eq_some_iff.mp hi).1
    rw [List.length_append, List.length_singleton] at lt
    by_cases old : i < asked.length
    · have before : i < F.labels.length := h.length ▸ old
      rw [List.getElem?_append_left old] at hi
      rw [List.getElem?_append_left before, List.take_append_of_le_length (Nat.le_of_lt before)]
      exact h.label hi
    · have last : i = asked.length := by omega
      subst last
      have same : wanted = other := by simpa using hi
      subst same
      rw [h.length, List.take_left, freshLabel_eq_numbered]
      simp

theorem exists_asked (h : Answered asked labels) (found : labels[i]? = some label) :
    ∃ wanted, asked[i]? = some wanted ∧
      label = numbered wanted ((labels.take i).countP (usesLabel wanted)) := by
  have lt := (List.getElem?_eq_some_iff.mp found).1
  have given := List.getElem?_eq_getElem (l := asked) (h.length ▸ lt)
  exact ⟨_, given, Option.some.inj (found.symm.trans (h.label given))⟩

/-- A label that counts as a use is counted for all blocks after it. -/
theorem countP_lt {wanted : String} (lt : i < j) (found : labels[i]? = some label)
    (uses : usesLabel wanted label = true) :
    (labels.take i).countP (usesLabel wanted) < (labels.take j).countP (usesLabel wanted) := by
  have more : (labels.take (i + 1)).countP (usesLabel wanted) =
      (labels.take i).countP (usesLabel wanted) + 1 := by
    simp [List.take_add_one, found, uses]
  have le : (labels.take (i + 1)).countP (usesLabel wanted) ≤
      (labels.take j).countP (usesLabel wanted) :=
    (List.take_prefix_take_left (by omega)).sublist.countP_le
  omega

/-- The same number is not given twice to the same label. -/
theorem not_numbered_twice {wanted : String} {n : Nat} (word : n < 2 ^ 64) (lt : i < j)
    (found : labels[i]? = some (numbered wanted n))
    (earlier : (labels.take i).countP (usesLabel wanted) = n) :
    (labels.take j).countP (usesLabel wanted) ≠ n := by
  have more := countP_lt lt found (usesLabel_numbered_self wanted word)
  omega

/-- Two blocks have the same label exactly if the earlier one spelled it out. -/
theorem same_iff (h : Answered asked labels) (lt : i < j) (word : j < 2 ^ 64)
    (there : j < labels.length) : labels[i]? = labels[j]? ↔ SpelledOut asked labels i j := by
  constructor
  · intro same
    obtain ⟨wanted, askedLater, later⟩ := h.exists_asked (List.getElem?_eq_getElem there)
    have found : labels[i]? = some (numbered wanted ((labels.take j).countP (usesLabel wanted))) := by
      rw [same, List.getElem?_eq_getElem there, later]
    obtain ⟨spelled, askedEarlier, earlier⟩ := h.exists_asked found
    have few : (labels.take i).countP (usesLabel spelled) < 2 ^ 64 := by
      have le := List.countP_le_length (p := usesLabel spelled) (l := labels.take i)
      rw [List.length_take] at le
      omega
    cases uses : (labels.take j).countP (usesLabel wanted) with
    | zero =>
        -- a block that keeps the label it asks for would have counted the earlier one
        rw [uses] at found
        have more := countP_lt lt found (usesLabel_numbered_self wanted (by decide))
        omega
    | succ n =>
        rw [uses] at found earlier
        cases number : (labels.take i).countP (usesLabel spelled) with
        | zero =>
            rw [number] at earlier
            have kept : spelled = numbered wanted (n + 1) := earlier.symm
            exact ⟨wanted, n, askedLater, uses, kept ▸ askedEarlier, by
              rw [found, askedEarlier, kept]⟩
        | succ k =>
            -- both were numbered, hence for the same label, and the later one by more uses
            rw [number] at earlier
            obtain ⟨rfl, rfl⟩ := numbered_succ_inj earlier
            exact absurd uses (not_numbered_twice (number ▸ few) lt found number)
  · rintro ⟨wanted, n, askedLater, uses, askedEarlier, given⟩
    rw [given, askedEarlier, h.label askedLater, uses]

theorem nodup_take (h : Answered asked labels)
    (plain : ∀ i j, i < j → ¬ SpelledOut asked labels i j) : (labels.take (2 ^ 64)).Nodup := by
  rw [List.nodup_iff_getElem?_ne_getElem?]
  intro i j lt bound same
  rw [List.length_take] at bound
  rw [List.getElem?_take_of_lt (by omega), List.getElem?_take_of_lt (by omega)] at same
  exact plain i j lt ((h.same_iff lt (by omega) (by omega)).mp same)

end Answered

/-! ## What a draft was asked for -/

namespace Draft

/-- The label that an event asks for, of a block of the function at a position, if there is one. -/
def asks (f : Nat) (d : Draft) : Event Operand Slot BlockId Nat → List String
  | .addBlock g label => if g = f ∧ f < d.module.functions.size then [label] else []
  | .request _ => []
  | .moveTo _ => []
  | .isClosed => []
  | .parameters _ => []

/-- The labels that events ask for, one after the other. -/
def asked (f : Nat) (d : Draft) : List (Event Operand Slot BlockId Nat) → List String
  | [] => []
  | e :: rest => asks f d e ++ asked f (e.apply d) rest

def labelsAt (d : Draft) (f : Nat) : Option (List String) :=
  d.module.functions[f]?.map Function.labels

/-- The blocks of the function at a position asked for these labels. -/
def Traces (f : Nat) (wanted : List String) (d : Draft) : Prop :=
  match d.labelsAt f with
  | some labels => Answered wanted labels
  | none => wanted = []

variable {d d' : Draft} {f : Nat} {wanted : List String}

theorem labels_setIfInBounds {functions : Array Function} {g : Nat} {F : Function}
    (found : functions[g]? = some F) (F' : Function) (f : Nat) :
    (functions.setIfInBounds g F')[f]?.map Function.labels =
      if g = f then some F'.labels else functions[f]?.map Function.labels := by
  by_cases same : g = f
  · subst same
    have lt := (Array.getElem?_eq_some_iff.mp found).1
    rw [Array.getElem?_setIfInBounds_self_of_lt lt, if_pos rfl, Option.map_some]
  · rw [Array.getElem?_setIfInBounds_ne same, if_neg same]

/-- Code leaves all labels as they are. -/
theorem labelsAt_of_emission (h : d.Emission d') (f : Nat) : d'.labelsAt f = d.labelsAt f := by
  have kept : ∀ {place : BlockId} {F F' : Function}, d.PointsInto place F → F'.labels = F.labels →
      (d.focus place.function F' place.block).labelsAt f = d.labelsAt f := by
    intro place F F' points labels
    rw [labelsAt, focus, labels_setIfInBounds points.function, labels]
    split
    · next same =>
        subst same
        rw [labelsAt, points.function, Option.map_some]
    · rfl
  cases h with
  | instruction points takes known => exact kept points (Function.labels_emit _ _ _ _)
  | terminator points t => exact kept points (Function.labels_close _ _ _)

theorem Traces.of_same (h : Traces f wanted d) (same : d'.labelsAt f = d.labelsAt f) :
    Traces f wanted d' := by
  rwa [Traces, same]

/-- A new function has no blocks, and nothing was asked for before it was there. -/
theorem Traces.pushFunction (h : Traces f wanted d) (name : String) (result : Ty)
    (parameters : List Ty) :
    Traces f wanted { d with module := { d.module with
      functions := d.module.functions.push { name, result, parameters } } } := by
  by_cases new : f = d.module.functions.size
  · subst new
    have absent : d.labelsAt d.module.functions.size = none := by simp [labelsAt]
    rw [Traces, absent] at h
    subst h
    simpa [Traces, labelsAt, Function.labels] using Answered.nil
  · refine h.of_same ?_
    simp only [labelsAt, Array.getElem?_push, if_neg new]

theorem Traces.request (h : Traces f wanted d) (r : DraftRequest) :
    Traces f wanted ((perform r).exec d).2 := by
  refine Atomic.final (P := Traces f wanted) ?_ h
  by_cases emits : emitsCode r = true
  · exact (atomic_perform_of_emitsCode emits).imp fun d' e => h.of_same (labelsAt_of_emission e f)
  · cases r with
    | addFunction name result parameters =>
        cases taken : d.module.functionIndex? name with
        | none => exact .of_ok (addFunction_of_new taken result parameters) (h.pushFunction _ _ _)
        | some i => exact .inl (addFunction_of_taken taken result parameters)
    | global ty length initializer name => exact .of_ok (addGlobal_exec d _) (h.of_same rfl)
    | constant value => exact .of_ok rfl h
    | finish => exact .looking h
    | _ => exact absurd rfl emits

theorem Traces.addBlock (h : Traces f wanted d) (g : Nat) (label : String) :
    Traces f (wanted ++ asks f d (.addBlock g label)) (d.addBlock g label).2 := by
  unfold Draft.addBlock
  cases found : d.module.functions[g]? with
  | none =>
      have absent : ¬ (g = f ∧ f < d.module.functions.size) := by
        rintro ⟨rfl, lt⟩
        rw [Array.getElem?_eq_getElem lt] at found
        cases found
      rw [asks, if_neg absent, List.append_nil]
      exact h
  | some F =>
      have labels : ∀ F', (d.setFunction g F').labelsAt f =
          if g = f then some F'.labels else d.labelsAt f :=
        fun F' => labels_setIfInBounds found F' f
      by_cases here : g = f
      · subst here
        have lt := (Array.getElem?_eq_some_iff.mp found).1
        rw [asks, if_pos ⟨rfl, lt⟩, Traces, labels, if_pos rfl]
        rw [Traces, labelsAt, found] at h
        exact h.grow label
      · rw [asks, if_neg (fun both => here both.1), List.append_nil]
        exact h.of_same ((labels _).trans (if_neg here))

theorem Traces.apply (h : Traces f wanted d) (e : Event Operand Slot BlockId Nat) :
    Traces f (wanted ++ asks f d e) (e.apply d) := by
  cases e with
  | request r =>
      rw [asks, List.append_nil]
      exact h.request r
  | addBlock g label => exact h.addBlock g label
  | moveTo place =>
      rw [asks, List.append_nil]
      exact h.of_same rfl
  | isClosed =>
      rw [asks, List.append_nil]
      exact h
  | parameters g =>
      rw [asks, List.append_nil]
      exact h

theorem Traces.replay (h : Traces f wanted d) (events : List (Event Operand Slot BlockId Nat)) :
    Traces f (wanted ++ asked f d events) (ImpLower.replay d events) := by
  induction events generalizing d wanted with
  | nil =>
      rw [asked, List.append_nil]
      exact h
  | cons e rest ih =>
      rw [asked, ← List.append_assoc]
      exact ih (h.apply e)

/-- The labels of a function answer what its blocks asked for, whatever else was asked of the draft. Two
blocks have the same label exactly if the earlier one spelled it out. So as long as no block asks for a
label that is a later one with a number added, all labels differ. Both are said of the blocks whose
position is a machine word, since a longer number at the end of a label is not read as one. -/
theorem labels_clash_only_when_spelled_out (name : String)
    (events : List (Event Operand Slot BlockId Nat)) {f : Nat} {F : Function}
    (found : (replay (Draft.new name) events).module.functions[f]? = some F) :
    let wanted := asked f (Draft.new name) events
    Answered wanted F.labels ∧
    (∀ i j : Nat, i < j → j < 2 ^ 64 → j < F.labels.length →
      (F.labels[i]? = F.labels[j]? ↔ SpelledOut wanted F.labels i j)) ∧
    ((∀ (i j : Nat) later n, i < j → wanted[j]? = some later →
        wanted[i]? ≠ some (numbered later (n + 1))) →
      (F.labels.take (2 ^ 64)).Nodup) := by
  intro wanted
  have start : Traces f [] (Draft.new name) := by simp [Traces, labelsAt, Draft.new]
  have answered : Answered wanted F.labels := by
    have traces := start.replay events
    rwa [Traces, labelsAt, found] at traces
  refine ⟨answered, fun i j lt word there => answered.same_iff lt word there, fun plain => ?_⟩
  apply answered.nodup_take
  rintro i j lt ⟨later, n, askedLater, -, askedEarlier, -⟩
  exact plain i j later n lt askedLater askedEarlier

/-- A function and blocks of it that ask for the labels. -/
def blockEvents (wanted : List String) : List (Event Operand Slot BlockId Nat) :=
  .request (.addFunction "main" .void []) :: wanted.map (.addBlock 0)

def givenLabels (wanted : List String) : List String :=
  ((replay (Draft.new "main") (blockEvents wanted)).labelsAt 0).getD []

theorem ne_numbered_of_length_le {a b : String} (le : a.length ≤ b.length) (n : Nat) :
    a ≠ numbered b (n + 1) := by
  intro same
  have longer := congrArg List.length (toList_numbered_succ b n)
  rw [← same, List.length_append, List.length_cons] at longer
  simp only [String.length] at le
  omega

theorem exists_function (wanted : List String)
    (there : ((replay (Draft.new "main") (blockEvents wanted)).labelsAt 0).isSome = true) :
    ∃ F, (replay (Draft.new "main") (blockEvents wanted)).module.functions[0]? = some F ∧
      F.labels = givenLabels wanted := by
  rw [labelsAt, Option.isSome_map] at there
  obtain ⟨F, found⟩ := Option.isSome_iff_exists.mp there
  exact ⟨F, found, by rw [givenLabels, labelsAt, found]; rfl⟩

/-- The third block asks for the label of the second one and is given another. The other way round, the
second block shares the label that the first one spelled out. -/
theorem end_labels_kept_apart :
    (givenLabels ["end", "end", "end.1"]).Nodup ∧
    SpelledOut ["end.1", "end"] (givenLabels ["end.1", "end"]) 0 1 := by
  obtain ⟨F, found, labels⟩ := exists_function ["end", "end", "end.1"] (by decide +kernel)
  obtain ⟨G, found', labels'⟩ := exists_function ["end.1", "end"] (by decide +kernel)
  obtain ⟨-, -, nodup⟩ := labels_clash_only_when_spelled_out "main" _ found
  obtain ⟨-, same_iff, -⟩ := labels_clash_only_when_spelled_out "main" _ found'
  have asks : asked 0 (Draft.new "main") (blockEvents ["end", "end", "end.1"]) =
      ["end", "end", "end.1"] := by
    decide +kernel
  have asks' : asked 0 (Draft.new "main") (blockEvents ["end.1", "end"]) = ["end.1", "end"] := by
    decide +kernel
  rw [labels, asks] at nodup
  rw [labels', asks'] at same_iff
  have three : (givenLabels ["end", "end", "end.1"]).length ≤ 2 ^ 64 := by decide +kernel
  constructor
  · rw [← List.take_of_length_le three]
    apply nodup
    intro i j later n lt askedLater
    have inside : j < 3 := (List.getElem?_eq_some_iff.mp askedLater).1
    have first : ∀ i < 2, ["end", "end", "end.1"][i]? = some "end" := by decide
    have long : ∀ w ∈ ["end", "end", "end.1"], "end".length ≤ w.length := by decide
    rw [first i (by omega)]
    intro same
    exact ne_numbered_of_length_le (long later (List.mem_of_getElem? askedLater)) n
      (Option.some.inj same)
  · exact (same_iff 0 1 (by decide) (by decide) (by decide +kernel)).mp (by decide +kernel)

/-- A block that asks for a label with a number shares it with the next one that asks for the label. -/
theorem end_label_given_twice : ¬ ∀ wanted, (givenLabels wanted).Nodup := by
  intro distinct
  have labels : givenLabels ["end.1", "end"] = ["end.1", "end.1"] := by decide +kernel
  have apart := distinct ["end.1", "end"]
  rw [labels] at apart
  simp at apart

end Draft

end ImpLower.Code
