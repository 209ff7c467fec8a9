import ImpLower.Typed.Constant
import ImpLower.Proofs.Typed.Annotation
import ImpLower.Proofs.Semantics.Evaluator

/-!
# Well-typed operations on values

An annotation that is right for the types of its operands never leaves an operation without a result,
a division by zero or past the largest word apart. The offsets and lengths that code computes step by
step are the row-major ones.
-/

namespace ImpLower

namespace Literal

theorem eq_long_of_type {l : Literal} (h : l.type = .long) : ∃ n, l = .long n := by
  cases l with
  | long n => exact ⟨n, rfl⟩
  | _ => cases h

theorem eq_boolean_of_type {l : Literal} (h : l.type = .boolean) : ∃ b, l = .boolean b := by
  cases l with
  | boolean b => exact ⟨b, rfl⟩
  | _ => cases h

theorem type_ne_void (l : Literal) : l.type ≠ .void := by
  cases l <;> simp [type]

/-- Where a conversion exists, every value of the source type can be moved. -/
theorem convert_of_into {l : Literal} {target : Ty} {c : Conversion}
    (h : Conversion.into target l.type = .ok c) : ∃ w, l.convert target = some w := by
  unfold convert
  rw [h]
  cases l <;> cases target <;> cases h <;> exact ⟨_, rfl⟩

theorem word_of_integer {l : Literal} (h : l.type.isInteger = true) : ∃ n, l.word = .ok n := by
  cases l <;> first | exact ⟨_, rfl⟩ | simp [type, Ty.isInteger] at h

end Literal

/-- At the type an operation was selected for, only integer division can be undefined. -/
theorem Operation.eval_of_selected {op : Operation} {ty : Ty} {l r : Literal}
    (selected : op.surface.operationAt ty = .ok op) (left : l.type = ty) (right : r.type = ty) :
    (∃ v, op.eval l r ty = some v) ∨
      op.eval l r ty = none ∧ (op = .int .div ∨ op = .int .rem) := by
  subst left
  by_cases division : op = .int .div ∨ op = .int .rem
  · cases h : op.eval l r l.type with
    | none => exact .inr ⟨rfl, division⟩
    | some v => exact .inl ⟨v, rfl⟩
  · left
    rcases op with op | op | op <;> cases l <;> cases selected <;> cases r <;> cases right <;>
      cases op <;> first | exact ⟨_, rfl⟩ | simp at division

theorem Predicate.holds_of_selected {op : BinOp} {test : Predicate} {ty : Ty} {l r : Literal}
    (selected : op.predicateAt ty = .ok test) (left : l.type = ty) (right : r.type = ty) :
    ∃ b, test.holds l r = .ok b := by
  subst left
  cases op <;> cases l <;> cases selected <;> cases r <;> cases right <;> exact ⟨_, rfl⟩

@[simp] theorem Operation.eval_add_long (a b : Int64) :
    (Operation.int .add).eval (.long a) (.long b) .long = some (.long (a + b)) := rfl

@[simp] theorem Operation.eval_mul_long (a b : Int64) :
    (Operation.int .mul).eval (.long a) (.long b) .long = some (.long (a * b)) := rfl

namespace Semantics

@[simp] theorem flatten_nil (sizes : List Int64) : flatten sizes [] = 0 := by
  cases sizes <;> rfl

theorem flatten_cons (n i : Int64) (sizes indices : List Int64) :
    flatten (n :: sizes) (i :: indices) = i * elements sizes + flatten sizes indices := rfl

/-- One more dimension: the offset so far is scaled by its size before the index is added. -/
theorem flatten_step (o n i : Int64) (sizes indices : List Int64) :
    o * elements (n :: sizes) + flatten (n :: sizes) (i :: indices) =
      (o * n + i) * elements sizes + flatten sizes indices := by
  rw [flatten_cons, elements]
  grind

theorem elements_scale (o n : Int64) (sizes : List Int64) :
    o * elements (n :: sizes) = o * n * elements sizes := by
  rw [elements]
  grind

end Semantics

end ImpLower
