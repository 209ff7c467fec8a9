import ImpLower.Literal.Fold
import ImpLower.Typed.Tree

/-!
# Constant expressions

Literals, negation and arithmetic over constants have a value before the program runs, unless some
step of them is undefined.
-/

namespace ImpLower.Typed

mutual

/-- The value of an expression made of constants only. -/
def Expr.constant? : Expr → Option Literal
  | .literal value => some value
  | .negate op zero operand => do
      op.eval zero (← operand.constant?) operand.ty
  | .arith op left right => do
      op.eval (← left.constant?) (← right.constant?) left.target
  | _ => none

def Converted.constant? : Converted → Option Literal
  | .mk value _ target => do (← value.constant?).convert target

end

end ImpLower.Typed
