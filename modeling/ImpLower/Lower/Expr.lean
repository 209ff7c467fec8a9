import ImpLower.Lower.State
import ImpLower.Typed.Tree

/-!
# Lowering expressions

Operands are lowered from left to right, an assigned value before the indices of its target. An
indexed access becomes one offset in row-major order; indices left out at the end count as zero.
-/

namespace ImpLower.Lower

open Typed (Converted)

variable {σ V S B F M : Type} [Emitter σ V S B F M]

/-- The value of an expression that is used; a call without a result has none. -/
def required (site : Construct) : Option V → Lower σ V S F V
  | some value => return value
  | none => throw ⟨.backend "void value used as an operand", site⟩

/-- Multiplies an offset by the remaining sizes. -/
def scaleBy (site : Construct) : V → List V → Lower σ V S F V
  | offset, [] => return offset
  | offset, size :: sizes => do
      let scaled : V ← request site (.binary (.int .mul) offset size "scaled")
      scaleBy site scaled sizes

/-- Adds one index to the offset of the dimensions before it. -/
def addIndex (site : Construct) (size index : V) : Option V → Lower σ V S F V
  | none => return index
  | some offset => do
      let scaled : V ← request site (.binary (.int .mul) offset size "scaled")
      request site (.binary (.int .add) scaled index "offset")

mutual

def lowerExpr : Typed.Expr → Lower σ V S F (Option V)
  | .literal value => do
      let result : V ← request .literal (.constant value)
      return some result
  | .var name _ indices => do
      let (slot, ty, sizes) ← lookupVar name .varUse
      let offset ← lowerOffset .varUse indices sizes none
      let result : V ← request .varUse (.load slot ty offset name)
      return some result
  | .assign name _ indices value => do
      let value ← lowerConverted .assignment value
      let (slot, ty, sizes) ← lookupVar name .assignment
      let offset ← lowerOffset .assignment indices sizes none
      let _ : Unit ← request .assignment (.store slot ty offset value)
      return some value
  | .negate op zero operand => do
      let zero : V ← request .unary (.constant zero)
      let operand ← required .unary (← lowerExpr operand)
      let result : V ← request .unary (.binary op zero operand "neg")
      return some result
  | .arith op left right => do
      let left ← lowerConverted .binary left
      let right ← lowerConverted .binary right
      let result : V ← request .binary (.binary op left right "binop")
      return some result
  | .compare test left right => do
      let left ← lowerConverted .binary left
      let right ← lowerConverted .binary right
      let result : V ← request .binary (.compare test left right "cmp")
      return some result
  | .call callee _ arguments => do
      let f ← lookupFn callee .call
      let arguments ← lowerArguments .call arguments
      request .call (.call f arguments callee)

/-- Lowers an expression that is used and applies its conversion. -/
def lowerConverted (site : Construct) : Converted → Lower σ V S F V
  | .mk value conversion target => do
      let value ← required site (← lowerExpr value)
      if conversion = .identity then return value
      request site (.convert conversion value target "conv")

def lowerArguments (site : Construct) : List Converted → Lower σ V S F (List V)
  | [] => return []
  | a :: rest => do
      let a ← lowerConverted site a
      return a :: (← lowerArguments site rest)

/-- Row-major offset of an access, given the offset of the dimensions already passed. -/
def lowerOffset (site : Construct) : List Converted → List V → Option V → Lower σ V S F (Option V)
  | [], _, none => return none
  | [], sizes, some offset => return some (← scaleBy site offset sizes)
  | _ :: _, [], offset => return offset
  | i :: indices, size :: sizes, offset => do
      let index ← lowerConverted site i
      let offset ← addIndex site size index offset
      lowerOffset site indices sizes (some offset)

end

def lowerValue (site : Construct) (e : Typed.Expr) : Lower σ V S F V := do
  required site (← lowerExpr e)

end ImpLower.Lower
