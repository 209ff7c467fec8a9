import ImpLower.Proofs.Machine.Residue

/-!
# The step limit

A limit says how far a run may go and nothing else. Under any limit a machine goes the same way, step
by step and call by call; a run that ends within the limit ends the same way under every limit it stays
within, and any other is cut off at the step after the limit, whatever would have come next.
-/

namespace ImpLower.Machine

open Code

variable {m : Code.Module} {n left : Nat} {s s' : State} {result : Except Trap (Option Literal)}
  {globals : Array Cell}

/-! ## Runs without a limit -/

/-- Left alone, the run counts `n` steps and ends: with a step that ends it, or in a block that does not
exist. -/
inductive Concludes (m : Code.Module) (s : State) :
    Nat → Except Trap (Option Literal) → Array Cell → Prop
  | halts {n : Nat} {result : Except Trap (Option Literal)} {globals : Array Cell}
      (halts : Halts m (fun _ => True) n s result globals) : Concludes m s (n + 1) result globals
  | strays {n : Nat} {s' : State} (moves : Steps m (fun _ => True) n s s')
      (gone : s'.top.currentBlock? = none) :
      Concludes m s n (.error (missingBlock s'.top)) s'.globals

/-- Left alone, the run makes `n` steps and has another one to make. -/
def GoesOn (m : Code.Module) (n : Nat) (s : State) : Prop :=
  ∃ s', Steps m (fun _ => True) n s s' ∧ s'.top.currentBlock?.isSome = true

theorem Concludes.cons {s₁ : State} (moves : next m s = .running s₁)
    (rest : Concludes m s₁ n result globals) : Concludes m s (n + 1) result globals := by
  have first : Steps m (fun _ => True) 1 s s₁ := .one trivial moves
  cases rest with
  | @halts n result globals halts =>
      rw [Nat.add_comm n 1]
      exact .halts (first.halts halts)
  | strays moved gone =>
      rw [Nat.add_comm n 1]
      exact .strays (first.trans moved) gone

theorem GoesOn.cons {s₁ : State} (moves : next m s = .running s₁) (rest : GoesOn m n s₁) :
    GoesOn m (n + 1) s := by
  obtain ⟨s', moved, inBlock⟩ := rest
  exact ⟨s', .step trivial moves moved, inBlock⟩

/-- Within any number of steps a run concludes, or it goes on after them. -/
theorem concludes_or_goesOn (m : Code.Module) (left : Nat) (s : State) :
    (∃ n result globals, n ≤ left ∧ Concludes m s n result globals) ∨ GoesOn m left s := by
  induction left generalizing s with
  | zero =>
      cases here : s.top.currentBlock? with
      | none => exact .inl ⟨0, _, _, Nat.le_refl 0, .strays .refl here⟩
      | some B => exact .inr ⟨s, .refl, by rw [here]; rfl⟩
  | succ left ih =>
      cases here : s.top.currentBlock? with
      | none => exact .inl ⟨0, _, _, Nat.zero_le _, .strays .refl here⟩
      | some B =>
          have inBlock : s.top.currentBlock?.isSome = true := by rw [here]; rfl
          cases moved : next m s with
          | running s₁ =>
              rcases ih s₁ with ⟨n, result, globals, within, concludes⟩ | goesOn
              · exact .inl ⟨n + 1, result, globals, Nat.succ_le_succ within, concludes.cons moved⟩
              · exact .inr (goesOn.cons moved)
          | returned value globals =>
              have ends : (next m s).ending? = some (.ok value, globals) := by rw [moved]; rfl
              exact .inl ⟨1, _, _, by omega, .halts ⟨s, .refl, trivial, inBlock, ends⟩⟩
          | trapped trap globals =>
              have ends : (next m s).ending? = some (.error trap, globals) := by rw [moved]; rfl
              exact .inl ⟨1, _, _, by omega, .halts ⟨s, .refl, trivial, inBlock, ends⟩⟩

/-! ## What a limit does to them -/

/-- A run that concludes within the steps that are left ends as it would without a limit. -/
theorem Concludes.run_of_le (h : Concludes m s n result globals) (within : n ≤ left)
    (limit steps : Nat) : run m limit left steps s = ⟨result, steps + n, globals⟩ := by
  cases h with
  | halts halts => exact halts.run_of_lt within limit steps
  | strays moves gone =>
      obtain ⟨more, rfl⟩ := Nat.exists_eq_add_of_le within
      rw [moves.run, run_of_missing gone]

/-- A run that goes on is cut off after any of its steps. -/
theorem GoesOn.run_of_le (h : GoesOn m n s) (cut : left ≤ n) (limit steps : Nat) :
    ∃ globals, run m limit left steps s = ⟨.error (.stepLimit limit), steps + left + 1, globals⟩ := by
  obtain ⟨s', moves, inBlock⟩ := h
  rcases Nat.lt_or_eq_of_le cut with lt | rfl
  · obtain ⟨globals, -, ended⟩ := moves.run_of_lt lt limit steps
    exact ⟨globals, ended⟩
  · obtain ⟨B, here⟩ := Option.isSome_iff_exists.mp inBlock
    have whole := moves.run limit 0 steps
    rw [Nat.add_zero] at whole
    refine ⟨s'.globals, ?_⟩
    rw [whole]
    simp only [run, here]

/-- A run with fewer steps left than it takes to conclude is cut off. -/
theorem Concludes.run_of_lt (h : Concludes m s n result globals) (cut : left < n)
    (limit steps : Nat) :
    ∃ globals, run m limit left steps s = ⟨.error (.stepLimit limit), steps + left + 1, globals⟩ := by
  cases h with
  | halts halts =>
      obtain ⟨globals, -, ended⟩ := halts.run_of_le (Nat.le_of_lt_succ cut) limit steps
      exact ⟨globals, ended⟩
  | strays moves gone =>
      obtain ⟨globals, -, ended⟩ := moves.run_of_lt cut limit steps
      exact ⟨globals, ended⟩

/-! ## Only the limit cuts off -/

theorem isCutOff_of_activate {callee depth : Nat} {arguments : List Literal} {trap : Trap}
    (refused : activate m callee arguments depth = .error trap) :
    isCutOff (.error trap) = false := by
  unfold activate at refused
  split at refused
  · cases refused
    rfl
  · split at refused
    · cases refused
      rfl
    · split at refused
      · cases refused
        rfl
      · cases refused

theorem isCutOff_of_entry {name : String} {arguments : List Literal} {trap : Trap}
    (refused : entry m name arguments = .error trap) : isCutOff (.error trap) = false := by
  unfold entry at refused
  split at refused
  · cases refused
    rfl
  · exact isCutOff_of_activate refused

/-- Whatever a step traps with, it is not the limit. -/
theorem isCutOff_of_step {B : Block} {trap : Trap} (traps : step m B s = .trapped trap globals) :
    isCutOff (.error trap) = false := by
  have leads := leads_step m B s
  rw [traps] at leads
  generalize outcome : Outcome.trapped trap globals = o at leads
  cases leads with
  | stays stays => cases outcome
  | enters called activated => cases outcome
  | jumps ends leads => cases outcome
  | pops value =>
      unfold State.pop at outcome
      split at outcome
      · cases outcome
      · cases outcome
  | trapsOnData data =>
      cases outcome
      cases trap with
      | stepLimit limit => cases data
      | _ => rfl
  | trapsAtCall called refused =>
      cases outcome
      exact isCutOff_of_activate refused
  | trapsAtEnd isOpen =>
      cases outcome
      rfl

theorem Concludes.isCutOff (h : Concludes m s n result globals) : isCutOff result = false := by
  cases h with
  | strays moves gone => rfl
  | halts halts =>
      obtain ⟨s', -, -, inBlock, ends⟩ := halts
      obtain ⟨B, here⟩ := Option.isSome_iff_exists.mp inBlock
      simp only [next, here] at ends
      cases moved : step m B s' with
      | running s₁ => simp [moved, Outcome.ending?] at ends
      | returned value globals =>
          simp only [moved, Outcome.ending?, Option.some.injEq, Prod.mk.injEq] at ends
          obtain ⟨rfl, rfl⟩ := ends
          rfl
      | trapped trap globals =>
          simp only [moved, Outcome.ending?, Option.some.injEq, Prod.mk.injEq] at ends
          obtain ⟨rfl, rfl⟩ := ends
          exact isCutOff_of_step moved

/-! ## Calls under different limits -/

def withLimit (M : Machine) (limit : Nat) : Machine :=
  { M with limit }

/-- The limit cuts off the call at the first step beyond it. -/
def CutsOff (M : Machine) (c : Invocation) : Prop :=
  M.answer c = .error (.stepLimit M.limit) ∧ (M.following c).steps = M.limit + 1

/-- The call takes `n` steps to its end: under a limit that allows them it ends so, and any lower limit
cuts it off. -/
structure Settles (M : Machine) (c : Invocation) (n : Nat) (result : Except Trap (Option Literal))
    (globals : Array Cell) : Prop where
  ends : ∀ limit, M.steps + n ≤ limit → (M.withLimit limit).call c.name c.arguments =
    (result, { M.withLimit limit with globals, steps := M.steps + n })
  cut : ∀ limit, M.steps ≤ limit → limit < M.steps + n → (M.withLimit limit).CutsOff c
  kept : isCutOff result = false

variable {M : Machine} {c : Invocation} {a : Activation}

def firstState (M : Machine) (a : Activation) : State :=
  { globals := M.globals, top := a }

theorem call_of_run {ending : Ending} (entered : entry M.module c.name c.arguments = .ok a)
    (ended : run M.module M.limit (M.limit - M.steps) M.steps (M.firstState a) = ending) :
    M.call c.name c.arguments =
      (ending.result, { M with globals := ending.globals, steps := ending.steps }) := by
  rw [firstState] at ended
  simp only [call, entered, ended]

theorem cutsOff_of_run (entered : entry M.module c.name c.arguments = .ok a)
    (room : M.steps ≤ M.limit)
    (ended : ∃ globals, run M.module M.limit (M.limit - M.steps) M.steps (M.firstState a) =
      ⟨.error (.stepLimit M.limit), M.steps + (M.limit - M.steps) + 1, globals⟩) :
    M.CutsOff c := by
  obtain ⟨globals, ended⟩ := ended
  have called := call_of_run entered ended
  have total : M.steps + (M.limit - M.steps) + 1 = M.limit + 1 := by omega
  exact ⟨by rw [answer, called], by rw [following, called]; exact total⟩

theorem settles_of_refused {trap : Trap}
    (refused : entry M.module c.name c.arguments = .error trap) :
    M.Settles c 0 (.error trap) M.globals where
  ends := by
    intro limit _
    have same : entry (M.withLimit limit).module c.name c.arguments = .error trap := refused
    simp only [call, same]
    rfl
  cut := by
    intro limit lower upper
    omega
  kept := isCutOff_of_entry refused

theorem settles_of_concludes (entered : entry M.module c.name c.arguments = .ok a)
    (concludes : Concludes M.module (M.firstState a) n result globals) :
    M.Settles c n result globals where
  ends := by
    intro limit enough
    have within : n ≤ limit - M.steps := by omega
    exact call_of_run (M := M.withLimit limit) entered (concludes.run_of_le within limit M.steps)
  cut := by
    intro limit lower upper
    have short : limit - M.steps < n := by omega
    exact cutsOff_of_run (M := M.withLimit limit) entered lower
      (concludes.run_of_lt short limit M.steps)
  kept := concludes.isCutOff

/-- A call settles within the limit, or every limit up to this one cuts it off. -/
theorem settles_or_cutsOff (M : Machine) (c : Invocation) {limit : Nat} (room : M.steps ≤ limit) :
    (∃ n result globals, M.steps + n ≤ limit ∧ M.Settles c n result globals) ∨
      ∀ limit', M.steps ≤ limit' → limit' ≤ limit → (M.withLimit limit').CutsOff c := by
  cases entered : entry M.module c.name c.arguments with
  | error trap => exact .inl ⟨0, _, _, room, settles_of_refused entered⟩
  | ok a =>
      rcases concludes_or_goesOn M.module (limit - M.steps) (M.firstState a) with
        ⟨n, result, globals, within, concludes⟩ | goesOn
      · exact .inl ⟨n, result, globals, by omega, settles_of_concludes entered concludes⟩
      · right
        intro limit' lower upper
        have short : limit' - M.steps ≤ limit - M.steps := by omega
        exact cutsOff_of_run (M := M.withLimit limit') entered lower
          (goesOn.run_of_le short limit' M.steps)

/-- A call shows its limit only by being cut off. If it ends in any other way, it ends so under every
limit that allows the steps it took, with the same result, steps and globals, and every lower limit cuts
it off. If it is cut off, every lower limit does the same. -/
theorem limit_shows_only_when_cut_off (M : Machine) (c : Invocation) (limit : Nat)
    (room : M.steps ≤ limit) :
    let result := (M.withLimit limit).answer c
    let after := (M.withLimit limit).following c
    (isCutOff result = false →
      (∀ limit', after.steps ≤ limit' →
        (M.withLimit limit').answer c = result ∧
          (M.withLimit limit').following c = after.withLimit limit') ∧
      ∀ limit', M.steps ≤ limit' → limit' < after.steps → (M.withLimit limit').CutsOff c) ∧
    (isCutOff result = true →
      ∀ limit', M.steps ≤ limit' → limit' ≤ limit → (M.withLimit limit').CutsOff c) := by
  intro result after
  rcases settles_or_cutsOff M c room with ⟨n, r, globals, within, settles⟩ | cutOff
  · have here := settles.ends limit within
    have settled : result = r := by simp only [result, answer, here]
    have final : after = { M.withLimit limit with globals, steps := M.steps + n } := by
      simp only [after, following, here]
    have count : after.steps = M.steps + n := by rw [final]
    refine ⟨fun _ => ⟨fun limit' enough => ?_, fun limit' lower upper => ?_⟩, fun cut => ?_⟩
    · rw [answer, following, settles.ends limit' (count ▸ enough), settled, final]
      exact ⟨rfl, rfl⟩
    · exact settles.cut limit' lower (count ▸ upper)
    · rw [settled, settles.kept] at cut
      cases cut
  · refine ⟨fun ended => ?_, fun _ => cutOff⟩
    have cut := (cutOff limit room (Nat.le_refl limit)).1
    simp only [result, cut, isCutOff] at ended
    cases ended

/-- A function that calls another one, which divides by its parameter. -/
def relayModule : Code.Module where
  name := "unit"
  functions := #[
    { name := "divide"
      result := .int
      parameters := [.int]
      blocks := #[{
        label := "entry"
        instructions := #[.binary 0 (.int .div) (.constant (.int 6)) (.parameter 0)]
        terminator := some (.ret (some (.register 0))) }] },
    { name := "relay"
      result := .int
      parameters := [.int]
      blocks := #[{
        label := "entry"
        instructions := #[.call (some 0) 0 [.parameter 0]]
        terminator := some (.ret (some (.register 0))) }] }]

/-- The division by zero in the second call is the sixth step of this machine. Every limit from six on
shows it; a limit of five cuts the call off before, and so does a limit of four. -/
theorem relay_fails_at_six :
    let c : Invocation := ⟨"relay", [.int 0]⟩
    let M := (Machine.new relayModule 100).after [⟨"relay", [.int 2]⟩]
    (∀ limit, 6 ≤ limit → (M.withLimit limit).answer c = .error (.arithmetic (.int .div))) ∧
    (M.withLimit 5).CutsOff c ∧ (M.withLimit 4).CutsOff c := by
  intro c M
  have four : M.steps = 4 := by decide +kernel
  have answered : (M.withLimit 100).answer c = .error (.arithmetic (.int .div)) := by
    decide +kernel
  have six : ((M.withLimit 100).following c).steps = 6 := by decide +kernel
  have notCut : isCutOff ((M.withLimit 100).answer c) = false := by
    rw [answered]
    rfl
  obtain ⟨same, lower⟩ := (limit_shows_only_when_cut_off M c 100 (by omega)).1 notCut
  have five : (M.withLimit 5).CutsOff c := lower 5 (by omega) (by omega)
  have cut : isCutOff ((M.withLimit 5).answer c) = true := by
    rw [five.1]
    rfl
  refine ⟨fun limit enough => ?_, five, ?_⟩
  · rw [(same limit (by omega)).1]
    exact answered
  · exact (limit_shows_only_when_cut_off M c 5 (by omega)).2 cut 4 (by omega) (by omega)

end ImpLower.Machine
