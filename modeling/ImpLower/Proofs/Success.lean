import Mathlib.Data.List.Forall2
import ImpLower.Scope

/-!
# Successful computations

A sequence succeeds exactly when each of its steps does. The lemmas below take a successful run of a
sequence apart into successful runs of its steps, for computations with and without a state, and put
such runs together again.
-/

namespace ImpLower

variable {ε σ α β γ : Type}

theorem except_bind_eq_ok {x : Except ε β} {f : β → Except ε γ} {c : γ} :
    (x >>= f) = .ok c ↔ ∃ b, x = .ok b ∧ f b = .ok c := by
  cases x with
  | error e => simp [bind, Except.bind]
  | ok b => simp [bind, Except.bind]

@[simp] theorem except_pure_eq_ok {b c : β} : (pure b : Except ε β) = .ok c ↔ b = c := by
  simp [pure, Except.pure]

@[simp] theorem except_throw_eq_ok {e : ε} {c : β} : ¬ (throw e : Except ε β) = .ok c := by
  simp [throw, throwThe, MonadExceptOf.throw]

/-- A guard that would fail has let the computation pass. -/
theorem except_guard_eq_ok {p : Prop} [Decidable p] {e : ε} {k : β → Except ε γ}
    {m : Except ε γ} {c : γ} :
    (if p then throw e >>= k else m) = .ok c ↔ ¬ p ∧ m = .ok c := by
  by_cases h : p
  · simp [h, except_bind_eq_ok]
  · simp [h]

theorem except_mapM_eq_ok {f : β → Except ε γ} {bs : List β} {cs : List γ} :
    bs.mapM f = .ok cs ↔ List.Forall₂ (fun b c => f b = .ok c) bs cs := by
  induction bs generalizing cs with
  | nil => cases cs <;> simp
  | cons b rest ih =>
      simp only [List.mapM_cons, except_bind_eq_ok, except_pure_eq_ok, ih]
      constructor
      · rintro ⟨c, hc, rest', hr, rfl⟩
        exact .cons hc hr
      · rintro (_ | ⟨hc, hr⟩)
        exact ⟨_, hc, _, hr, rfl⟩

theorem except_forM_eq_ok {f : β → Except ε Unit} {bs : List β} :
    forM bs f = .ok () ↔ ∀ b ∈ bs, f b = .ok () := by
  induction bs with
  | nil => simp
  | cons b rest ih =>
      rw [List.forM_cons, except_bind_eq_ok, List.forall_mem_cons, ← ih]
      constructor
      · rintro ⟨_, head, tail⟩
        exact ⟨head, tail⟩
      · rintro ⟨head, tail⟩
        exact ⟨(), head, tail⟩

namespace Stateful

theorem exec_bind_eq_ok {m : Stateful ε σ β} {f : β → Stateful ε σ γ} {s t : σ} {c : γ} :
    (m >>= f).exec s = (.ok c, t) ↔ ∃ b u, m.exec s = (.ok b, u) ∧ (f b).exec u = (.ok c, t) := by
  rw [exec_bind]
  rcases m.exec s with ⟨_ | b, u⟩
  · simp
  · simp [and_assoc]

theorem exec_bind_of_ok {m : Stateful ε σ β} {f : β → Stateful ε σ γ} {s t : σ} {b : β}
    (h : m.exec s = (.ok b, t)) : (m >>= f).exec s = (f b).exec t := by
  rw [exec_bind, h]

theorem exec_seq {m : Stateful ε σ β} {f : β → Stateful ε σ γ} {s t : σ} {b : β}
    {r : Except ε γ × σ} (h : m.exec s = (.ok b, t)) (h' : (f b).exec t = r) :
    (m >>= f).exec s = r :=
  (exec_bind_of_ok h).trans h'

theorem exec_bind_of_error {m : Stateful ε σ β} {f : β → Stateful ε σ γ} {s t : σ} {e : ε}
    (h : m.exec s = (.error e, t)) : (m >>= f).exec s = (.error e, t) := by
  rw [exec_bind, h]

@[simp] theorem exec_get (s : σ) : (get : Stateful ε σ σ).exec s = (.ok s, s) := rfl

@[simp] theorem exec_modify (f : σ → σ) (s : σ) :
    (modify f : Stateful ε σ Unit).exec s = (.ok (), f s) := rfl

theorem exec_guard_eq_ok {p : Prop} [Decidable p] {e : ε} {k : β → Stateful ε σ γ}
    {m : Stateful ε σ γ} {s t : σ} {c : γ} :
    (if p then throw e >>= k else m).exec s = (.ok c, t) ↔ ¬ p ∧ m.exec s = (.ok c, t) := by
  by_cases h : p
  · simp [h]
  · simp [h]

end Stateful

/-- Work in a fresh frame succeeds when the work does; the frames it opened are gone afterwards. -/
theorem withFrame_eq_ok [HasScope σ α] {body : Stateful ε σ β} {s t : σ} {b : β} :
    (withFrame body).exec s = (.ok b, t) ↔
      ∃ u, body.exec (HasScope.setScope s (HasScope.scope s).enter) = (.ok b, u) ∧
        HasScope.setScope u ((HasScope.scope u).unwind (HasScope.scope s).depth) = t := by
  rw [withFrame_exec]
  rcases body.exec (HasScope.setScope s (HasScope.scope s).enter) with ⟨r, u⟩
  simp [and_assoc]

end ImpLower
