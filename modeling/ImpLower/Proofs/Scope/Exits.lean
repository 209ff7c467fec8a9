import ImpLower.Proofs.Scope.Frames

/-!
# Scopes on every path out

What a phrase may leave of a scope: the same frames, with at most one more binding in the innermost
one. Frames that work left open are closed one after the other, and none of these exits can fail. A
relation between the states before and after some work is carried through sequences here, whether the
work succeeds or stops at a failure.
-/

namespace ImpLower

namespace Scope

variable {α : Type}

def frames (s : Scope α) : List (Frame α) :=
  s.inner ++ [s.globals]

/-- The scope is as it was, but that its innermost frame may have gained a binding of the declared
name. -/
structure Gains (declared : Option String) (s t : Scope α) : Prop where
  depth : t.depth = s.depth
  below : t.frames.tail = s.frames.tail
  current : t.current = s.current ∨ ∃ name value, declared = some name ∧
    s.current.lookup name = none ∧ t.current = (name, value) :: s.current

theorem Gains.refl (declared : Option String) (s : Scope α) : Gains declared s s :=
  ⟨rfl, rfl, .inl rfl⟩

theorem Gains.push {s : Scope α} {name : String} (fresh : s.declaresInCurrent name = false)
    (value : α) : Gains (some name) s (s.push name value) := by
  have unbound : s.current.lookup name = none := by
    simpa [declaresInCurrent] using fresh
  rcases s with ⟨_ | ⟨top, rest⟩, globals⟩
  · exact ⟨rfl, rfl, .inr ⟨name, value, rfl, unbound, rfl⟩⟩
  · exact ⟨rfl, rfl, .inr ⟨name, value, rfl, unbound, rfl⟩⟩

theorem Gains.trans {declared : Option String} {s t u : Scope α} (h : Gains declared s t)
    (h' : Gains declared t u) : Gains declared s u where
  depth := h'.depth.trans h.depth
  below := h'.below.trans h.below
  current := by
    rcases h.current with same | ⟨name, value, rfl, fresh, more⟩
    · rw [← same]
      exact h'.current
    · rcases h'.current with same' | ⟨_, _, again, unbound, -⟩
      · exact .inr ⟨name, value, rfl, fresh, same'.trans more⟩
      · -- the name is bound by now, so it is not declared a second time
        cases again
        rw [more, List.lookup_cons_self] at unbound
        cases unbound

/-- What a frame gains one by one, it gains altogether. -/
theorem Gains.exists_gain {declared : Option String} {s t : Scope α} (h : Gains declared s t) :
    ∃ new, t = s.gain new := by
  obtain ⟨depth, below, current⟩ := h
  have split : ∃ new, t.current = new ++ s.current := by
    rcases current with same | ⟨name, value, -, -, more⟩
    · exact ⟨[], same⟩
    · exact ⟨[(name, value)], more⟩
  obtain ⟨new, hnew⟩ := split
  refine ⟨new, ?_⟩
  rcases s with ⟨_ | ⟨top, rest⟩, globals⟩ <;> rcases t with ⟨_ | ⟨top', rest'⟩, globals'⟩
  · simp_all [Scope.current, gain]
  · simp [Scope.depth] at depth
  · simp [Scope.depth] at depth
  · have tails : rest' ++ [globals'] = rest ++ [globals] := below
    obtain ⟨rfl, same⟩ := List.append_inj' tails rfl
    cases same
    simp_all [Scope.current, gain]

theorem Gains.eq_of_none {s t : Scope α} (h : Gains none s t) : t = s := by
  obtain ⟨new, rfl⟩ := h.exists_gain
  rcases h.current with same | ⟨_, _, declared, -, -⟩
  · rcases s with ⟨_ | ⟨top, rest⟩, globals⟩ <;> simp_all [Scope.current, gain]
  · cases declared

/-- Declaring a name in the innermost frame, whether or not it is refused. -/
theorem gains_of_declare {s t : Scope α} {name : String} {value : α}
    (h : s.declare name value = .ok t) : Gains (some name) s t := by
  obtain ⟨fresh, rfl⟩ := declare_eq_ok.mp h
  exact .push fresh value

theorem Gains.inner_eq_nil {declared : Option String} {s t : Scope α} (h : Gains declared s t)
    (top : s.inner = []) : t.inner = [] := by
  have depth := h.depth
  simpa [Scope.depth, top] using depth

/-! ## What may become of a scope -/

/-- A kind of change to a scope. It includes no change at all, and one change after another. -/
structure Allowance (α : Type) where
  Permits : Scope α → Scope α → Prop
  refl : ∀ s, Permits s s
  trans : ∀ {s t u}, Permits s t → Permits t u → Permits s u

namespace Allowance

instance : LE (Allowance α) where
  le A A' := ∀ s t, A.Permits s t → A'.Permits s t

/-- The innermost frame may gain a binding of the declared name. -/
def naming (declared : Option String) : Allowance α where
  Permits := Gains declared
  refl := .refl declared
  trans := .trans

def growing : Allowance α where
  Permits s t := ∃ new, t = s.gain new
  refl s := ⟨[], (gain_nil s).symm⟩
  trans := by
    rintro s _ _ ⟨new, rfl⟩ ⟨more, rfl⟩
    exact ⟨more ++ new, gain_gain s new more⟩

/-- With no frame open but the global one, that frame may gain a binding of the name. -/
def namingAtTop (name : String) : Allowance α where
  Permits s t := s.inner = [] → Gains (some name) s t
  refl s _ := .refl _ s
  trans h h' top := (h top).trans (h' ((h top).inner_eq_nil top))

def all : Allowance α where
  Permits _ _ := True
  refl _ := trivial
  trans _ _ := trivial

theorem naming_le_growing (declared : Option String) : (naming declared : Allowance α) ≤ growing :=
  fun _ _ h => h.exists_gain

theorem naming_le_namingAtTop (name : String) :
    (naming (some name) : Allowance α) ≤ namingAtTop name :=
  fun _ _ h _ => h

end Allowance

/-! ## Closing frames one by one -/

theorem depth_of_exit {s t : Scope α} (h : s.exit = .ok t) : t.depth + 1 = s.depth := by
  rcases s with ⟨_ | ⟨top, rest⟩, globals⟩
  · cases h
  · cases h
    rfl

/-- Closes the innermost frame while more than `depth` frames are open. -/
def exitTo (depth : Nat) (s : Scope α) : Except Error (Scope α) :=
  if depth < s.depth then
    match _h : s.exit with
    | .ok t => exitTo depth t
    | .error e => .error e
  else .ok s
termination_by s.depth
decreasing_by
  have := depth_of_exit _h
  omega

/-- No exit fails on the way down to a depth that a scope can have, and together they unwind it. -/
theorem exitTo_eq_unwind {depth : Nat} (pos : 1 ≤ depth) (s : Scope α) :
    s.exitTo depth = .ok (s.unwind depth) := by
  rcases s with ⟨inner, globals⟩
  induction inner with
  | nil =>
      have shallow : ¬ depth < (⟨[], globals⟩ : Scope α).depth := by simp [Scope.depth]; omega
      rw [exitTo, if_neg shallow]
      simp [unwind]
  | cons top rest ih =>
      by_cases deeper : depth < (⟨top :: rest, globals⟩ : Scope α).depth
      · have step : (⟨top :: rest, globals⟩ : Scope α).exitTo depth =
            (⟨rest, globals⟩ : Scope α).exitTo depth := by
          rw [exitTo, if_pos deeper]
          rfl
        simp only [Scope.depth, List.length_cons] at deeper
        have more : rest.length + 1 + 1 - depth = rest.length + 1 - depth + 1 := by omega
        rw [step, ih]
        simp [unwind, Scope.depth, more]
      · rw [exitTo, if_neg deeper]
        simp only [Scope.depth, List.length_cons] at deeper
        have none : rest.length + 1 + 1 - depth = 0 := by omega
        simp [unwind, Scope.depth, none]

end Scope

variable {ε σ α β γ : Type}

/-- The exits after work in a fresh frame all succeed, and leave the scope that the work in a frame
leaves. -/
theorem exitTo_withFrame [HasScope σ α] (body : Stateful ε σ β) (s : σ) :
    (HasScope.scope (body.exec (HasScope.setScope s (HasScope.scope s).enter)).2).exitTo
        (HasScope.scope s).depth =
      .ok (HasScope.scope ((withFrame body).exec s).2) := by
  rw [Scope.exitTo_eq_unwind (Scope.one_le_depth _), withFrame_exec, HasScope.scope_setScope]

/-! ## Relations between the states before and after -/

/-- Whatever comes of it, the work leads to a state that is related to the one before. -/
def Moves (R : σ → σ → Prop) (m : Stateful ε σ β) : Prop :=
  ∀ s, R s (m.exec s).2

namespace Moves

variable {R : σ → σ → Prop} {m : Stateful ε σ β} {f : β → Stateful ε σ γ}

theorem of_keeps (refl : ∀ s, R s s) (h : Keeps m) : Moves R m := by
  intro s
  rw [h s]
  exact refl s

/-- A sequence may stop after its first part. -/
theorem bind (trans : ∀ {s t u}, R s t → R t u → R s u) (hm : Moves R m)
    (hf : ∀ b, Moves R (f b)) : Moves R (m >>= f) := by
  intro s
  have first := hm s
  rw [Stateful.exec_bind]
  rcases hr : m.exec s with ⟨_ | b, t⟩
  · rw [hr] at first
    exact first
  · rw [hr] at first
    exact trans first (hf b t)

end Moves

end ImpLower
