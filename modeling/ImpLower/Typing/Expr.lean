import ImpLower.Diagnostic
import ImpLower.Source
import ImpLower.Typed.Constant

/-!
# Checking expressions

An expression is checked against the names in scope and comes back typed, with its conversions and
operations chosen, or with the first fault met from left to right. Checking reads the scope and never
changes it.
-/

namespace ImpLower

/-- What a name stands for while a program is checked. -/
inductive Symbol where
  | var (ty : Ty) (rank : Nat)
  | fn (result : Ty) (parameters : List Ty)
  deriving DecidableEq, Repr

namespace Typing

open Typed (Converted)

def mismatch (expected received : Ty) (site : Construct) : Diagnostic :=
  ⟨.typeMismatch expected received, site⟩

/-- Attaches a construct to a clash of types. -/
def atSite {α : Type} (site : Construct) : Except Clash α → Except Diagnostic α
  | .ok a => .ok a
  | .error clash => .error ⟨.ofClash clash, site⟩

def convertTo (value : Typed.Expr) (target : Ty) (site : Construct) : Except Diagnostic Converted :=
  match Conversion.into target value.ty with
  | .ok c => .ok (.mk value c target)
  | .error _ => .error (mismatch target value.ty site)

/-- Sizes and indices are integers and are used as `long`. -/
def asIndex (value : Typed.Expr) (site : Construct) : Except Diagnostic Converted :=
  if value.ty.isInteger then convertTo value .long site
  else .error (mismatch .int value.ty site)

def lookupVar (scope : Scope Symbol) (name : String) : Except Diagnostic (Ty × Nat) :=
  match scope.lookup name with
  | some (.var ty rank) => .ok (ty, rank)
  | some (.fn ..) => .error ⟨.notAVariable name, .varUse⟩
  | none => .error ⟨.undeclared name, .varUse⟩

/-- The type of a variable that is accessed with `accessed` indices; it may have more dimensions than
that, but not fewer. -/
def access (scope : Scope Symbol) (name : String) (accessed : Nat) : Except Diagnostic Ty := do
  let (ty, rank) ← lookupVar scope name
  if rank < accessed then throw ⟨.dimensionMismatch name rank accessed, .varUse⟩
  return ty

def lookupFn (scope : Scope Symbol) (name : String) : Except Diagnostic (Ty × List Ty) :=
  match scope.lookup name with
  | some (.fn result parameters) => .ok (result, parameters)
  | some (.var ..) => .error ⟨.notAFunction name, .call⟩
  | none => .error ⟨.undeclared name, .call⟩

def negate (operand : Typed.Expr) : Except Diagnostic Typed.Expr := do
  match Literal.zero operand.ty with
  | none => throw (mismatch .int operand.ty .unary)
  | some zero =>
      let op ← atSite .unary ((BinOp.arith .sub).operationAt operand.ty)
      return .negate op zero operand

def operandType (left right : Ty) : Except Diagnostic Ty :=
  match commonType left right with
  | .ok ty => .ok ty
  | .error _ => .error (mismatch left right .binary)

/-- A comparison; both sides must be numeric. -/
def relate (op : BinOp) (left right : Typed.Expr) : Except Diagnostic Typed.Expr := do
  if !left.ty.isNumeric then
    throw (mismatch (if right.ty.isNumeric then right.ty else .int) left.ty .binary)
  if !right.ty.isNumeric then
    throw (mismatch left.ty right.ty .binary)
  let common ← operandType left.ty right.ty
  let test ← atSite .binary (op.predicateAt common)
  return .compare test (← convertTo left common .binary) (← convertTo right common .binary)

/-- An arithmetic or bitwise operation; a call without a result has no value to combine. -/
def combine (op : BinOp) (left right : Typed.Expr) : Except Diagnostic Typed.Expr := do
  if left.ty = .void ∨ right.ty = .void then
    let other := if left.ty = .void then right.ty else left.ty
    throw (mismatch (if other = .void then .int else other) .void .binary)
  let common ← operandType left.ty right.ty
  let op ← atSite .binary (op.operationAt common)
  return .arith op (← convertTo left common .binary) (← convertTo right common .binary)

def binary (op : BinOp) (left right : Typed.Expr) : Except Diagnostic Typed.Expr :=
  if op.isRelational then relate op left right else combine op left right

mutual

def checkExpr (scope : Scope Symbol) : Source.Expr → Except Diagnostic Typed.Expr
  | .literal value => return .literal value
  | .var name indices => do
      let ty ← access scope name indices.length
      return .var name ty (← checkIndices scope .varUse indices)
  | .assign name indices value => do
      let ty ← access scope name indices.length
      let indices ← checkIndices scope .varUse indices
      return .assign name ty indices (← convertTo (← checkExpr scope value) ty .assignment)
  | .negate operand => do negate (← checkExpr scope operand)
  | .binary op left right => do
      let left ← checkExpr scope left
      binary op left (← checkExpr scope right)
  | .call callee arguments => do
      let (result, parameters) ← lookupFn scope callee
      if arguments.length ≠ parameters.length then
        throw ⟨.arityMismatch callee parameters.length arguments.length, .call⟩
      return .call callee result (← checkArguments scope arguments parameters)

def checkIndices (scope : Scope Symbol) (site : Construct) :
    List Source.Expr → Except Diagnostic (List Converted)
  | [] => return []
  | e :: rest => do
      let index ← asIndex (← checkExpr scope e) site
      return index :: (← checkIndices scope site rest)

def checkArguments (scope : Scope Symbol) :
    List Source.Expr → List Ty → Except Diagnostic (List Converted)
  | e :: rest, ty :: parameters => do
      let argument ← convertTo (← checkExpr scope e) ty .call
      return argument :: (← checkArguments scope rest parameters)
  | _, _ => return []

end

end Typing

end ImpLower
