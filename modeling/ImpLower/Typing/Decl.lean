import ImpLower.Typing.Stmt

/-!
# Checking declarations and programs

Globals have constant sizes and initial values. A function is in scope in its own body, and its
parameters share one frame with the body.
-/

namespace ImpLower.Typing

open Typed (Converted)

/-- Element counts are kept below this bound. -/
def maxElements : Nat := UInt64.size

/-- A constant size of a global array; it must be positive. -/
def constantSize (name : String) (size : Converted) : Except Diagnostic Nat :=
  match size.constant?.bind Literal.toInt64? with
  | some n => if 0 < n then .ok n.toInt.toNat else .error ⟨.nonConstantGlobal name, .varDecl⟩
  | none => .error ⟨.nonConstantGlobal name, .varDecl⟩

/-- Checks the sizes of a global array from left to right and multiplies them onto `length`. -/
def checkSizes (scope : Scope Symbol) (name : String) :
    Nat → List Source.Expr → Except Diagnostic (Nat × List Nat)
  | length, [] => return (length, [])
  | length, e :: rest => do
      let size ← constantSize name (← asIndex (← checkExpr scope e) .varDecl)
      if maxElements ≤ length * size then throw ⟨.arrayTooLarge name, .varDecl⟩
      let (length, sizes) ← checkSizes scope name (length * size) rest
      return (length, size :: sizes)

def constantInitializer (name : String) (ty : Ty) (value : Typed.Expr) :
    Except Diagnostic Literal := do
  let value ← convertTo value ty .varDecl
  match value.constant? with
  | some constant => return constant
  | none => throw ⟨.nonConstantGlobal name, .varDecl⟩

/-- Checks a global. It stays declared if its initializer is at fault. -/
def checkGlobal (decl : Source.VarDecl) : Check Typed.Global := do
  requireStorable decl.ty
  let (length, dimensions) ← reading fun scope => checkSizes scope decl.name 1 decl.dimensions
  declare decl.name (.var decl.ty dimensions.length) .varDecl
  match decl.initializer with
  | none => return { name := decl.name, ty := decl.ty, dimensions, length, initializer := none }
  | some initializer =>
      if !dimensions.isEmpty then throw ⟨.arrayInitializer decl.name, .varDecl⟩
      let value ← reading fun scope => checkExpr scope initializer
      let value ← Stateful.ofExcept (constantInitializer decl.name decl.ty value)
      return { name := decl.name, ty := decl.ty, dimensions, length, initializer := some value }

/-- Parameters are scalars without a default. -/
def plainParameter (decl : Source.VarDecl) : Bool :=
  decl.dimensions.isEmpty && decl.initializer.isNone

def checkParameters : List Source.VarDecl → Check (List Typed.VarDecl)
  | [] => return []
  | p :: rest => do
      let p ← checkVarDecl p
      return p :: (← checkParameters rest)

/-- Runs a step inside a function, then puts back the function around. The answer comes with the
function that the step left behind. -/
def inFunction {α : Type} (function : EnclosingFunction) (body : Check α) :
    Check (Option EnclosingFunction × α) :=
  Stateful.ofFn fun s =>
    let (r, t) := body.exec { s with function := some function }
    (r.map fun a => (t.function, a), { t with function := s.function })

def checkFunction (decl : Source.FnDecl) : Check Typed.FnDecl := do
  if let some p := decl.parameters.find? fun p => !plainParameter p then
    throw ⟨.invalidParameter decl.name p.name, .fnDecl⟩
  declareGlobal decl.name (.fn decl.result (decl.parameters.map Source.VarDecl.ty)) .fnDecl
  let (function, parameters, body) ← inFunction ⟨decl.name, decl.result⟩ <| withFrame do
    let parameters ← checkParameters decl.parameters
    return (parameters, ← checkBlock decl.body)
  if decl.result ≠ .void ∧ !Typed.mustReturn body then
    throw ⟨.missingReturn ((function.map EnclosingFunction.name).getD decl.name), .fnDecl⟩
  return { name := decl.name, result := decl.result, parameters, body }

def checkDecl : Source.Decl → Check Typed.Decl
  | .global decl => return .global (← checkGlobal decl)
  | .function decl => return .function (← checkFunction decl)

def checkDecls : List Source.Decl → Check (List Typed.Decl)
  | [] => return []
  | d :: rest => do
      let d ← checkDecl d
      return d :: (← checkDecls rest)

def checkProgram (decls : List Source.Decl) : Except Diagnostic (List Typed.Decl) :=
  ((checkDecls decls).exec {}).1

end ImpLower.Typing
