import ImpLower.Typing.Expr

/-!
# Checking statements

Statements are checked in order in a state that holds the scope and the function around them. A name
is in scope from its declaration on, its own initializer included.
-/

namespace ImpLower

/-- The function around a statement. -/
structure EnclosingFunction where
  name : String
  result : Ty
  deriving DecidableEq, Repr

/-- What checking carries from one statement to the next. -/
structure Checker where
  scope : Scope Symbol := {}
  function : Option EnclosingFunction := none

instance : HasScope Checker Symbol where
  scope := Checker.scope
  setScope s t := { s with scope := t }

abbrev Check (α : Type) := Stateful Diagnostic Checker α

namespace Typing

open Typed (Converted)

/-- A step that only reads the scope. -/
def reading {α : Type} (f : Scope Symbol → Except Diagnostic α) : Check α :=
  Stateful.ofFn fun s => (f s.scope, s)

def declare (name : String) (symbol : Symbol) (site : Construct) : Check Unit :=
  Stateful.ofFn fun s =>
    match s.scope.declare name symbol with
    | .ok scope => (.ok (), { s with scope })
    | .error e => (.error (e.diagnose site), s)

def declareGlobal (name : String) (symbol : Symbol) (site : Construct) : Check Unit :=
  Stateful.ofFn fun s =>
    match s.scope.declareGlobal name symbol with
    | .ok scope => (.ok (), { s with scope })
    | .error e => (.error (e.diagnose site), s)

/-- No variable holds `void`. -/
def requireStorable (ty : Ty) : Check Unit :=
  if ty = .void then throw (mismatch .int .void .varDecl) else pure ()

/-- Checks a local variable. It is declared before its initializer is checked, and stays declared if
that fails. -/
def checkVarDecl (decl : Source.VarDecl) : Check Typed.VarDecl := do
  requireStorable decl.ty
  if (← get).scope.declaresInCurrent decl.name then
    throw ⟨.redeclaration decl.name, .varDecl⟩
  let dimensions ← reading fun scope => checkIndices scope .varDecl decl.dimensions
  declare decl.name (.var decl.ty dimensions.length) .varDecl
  match decl.initializer with
  | none => return { name := decl.name, ty := decl.ty, dimensions, initializer := none }
  | some initializer =>
      if !dimensions.isEmpty then throw ⟨.arrayInitializer decl.name, .varDecl⟩
      let value ← reading fun scope => checkExpr scope initializer
      let value ← Stateful.ofExcept (convertTo value decl.ty .varDecl)
      return { name := decl.name, ty := decl.ty, dimensions, initializer := some value }

def checkCondition (condition : Source.Expr) (site : Construct) : Check Typed.Expr := do
  let condition ← reading fun scope => checkExpr scope condition
  if condition.ty ≠ .boolean then throw ⟨.nonBooleanCondition condition.ty, site⟩
  return condition

def checkReturn (value : Option Source.Expr) : Check (Option Converted) := do
  match (← get).function.map EnclosingFunction.result, value with
  | none, _ => throw ⟨.returnOutsideFunction, .returnStmt⟩
  | some .void, none => return none
  | some expected, none => throw (mismatch expected .void .returnStmt)
  | some .void, some value =>
      let value ← reading fun scope => checkExpr scope value
      throw (mismatch .void value.ty .returnStmt)
  | some expected, some value =>
      let value ← reading fun scope => checkExpr scope value
      return some (← Stateful.ofExcept (convertTo value expected .returnStmt))

/-- The type at which a switch compares after one more case. -/
def widenCase (scrutinee compared value : Ty) : Check Ty :=
  match commonType compared value with
  | .ok ty => pure ty
  | .error _ => throw (mismatch scrutinee value .switchCase)

/-- A case whose value is moved to the type of the comparison. -/
def finishCase (test : Predicate) (compared : Ty) (value : Typed.Expr) (body : List Typed.Stmt) :
    Except Diagnostic Typed.Case := do
  let constant := value.constant?.bind (·.convert compared)
  return .mk (← convertTo value compared .switchCase) test constant body

/-- A switch over checked cases. It becomes a jump table when it compares integers and every case is a
constant. -/
def finishSwitch (scrutinee : Typed.Expr) (compared : Ty)
    (cases : List (Typed.Expr × List Typed.Stmt)) : Except Diagnostic Typed.Stmt := do
  let test ← atSite .switchStmt ((BinOp.relation .eq).predicateAt compared)
  let cases ← cases.mapM fun (value, body) => finishCase test compared value body
  let table := compared.isInteger && !cases.isEmpty && cases.all fun c => c.constant.isSome
  return .switch (← convertTo scrutinee compared .switchStmt) cases table

def switchable (ty : Ty) : Bool :=
  ty.isNumeric || ty = .boolean || ty = .char

mutual

def checkStmt : Source.Stmt → Check Typed.Stmt
  | .block body => return .block (← withFrame (checkBlock body))
  | .declare decl => return .declare (← checkVarDecl decl)
  | .eval e => return .eval (← reading fun scope => checkExpr scope e)
  | .ifThen condition body => do
      let condition ← checkCondition condition .ifStmt
      return .ifThen condition (← withFrame (checkBlock body))
  | .ifElse condition body other => do
      let condition ← checkCondition condition .ifStmt
      let body ← withFrame (checkBlock body)
      return .ifElse condition body (← withFrame (checkBlock other))
  | .forLoop decl condition step body => withFrame do
      let decl ← checkVarDecl decl
      let condition ← checkCondition condition .forStmt
      let step ← reading fun scope => checkExpr scope step
      return .forLoop decl condition step (← withFrame (checkBlock body))
  | .whileLoop condition body => do
      let condition ← checkCondition condition .whileStmt
      return .whileLoop condition (← withFrame (checkBlock body))
  | .switch scrutinee cases => do
      let scrutinee ← reading fun scope => checkExpr scope scrutinee
      if !switchable scrutinee.ty then throw (mismatch .int scrutinee.ty .switchStmt)
      let (compared, cases) ← checkCases scrutinee.ty scrutinee.ty cases
      Stateful.ofExcept (finishSwitch scrutinee compared cases)
  | .ret value => return .ret (← checkReturn value)

def checkBlock : List Source.Stmt → Check (List Typed.Stmt)
  | [] => return []
  | s :: rest => do
      let s ← checkStmt s
      return s :: (← checkBlock rest)

/-- Checks the values and bodies of cases, widening the type of the comparison case by case. -/
def checkCases (scrutinee compared : Ty) :
    List Source.Case → Check (Ty × List (Typed.Expr × List Typed.Stmt))
  | [] => return (compared, [])
  | .mk value body :: rest => do
      let value ← reading fun scope => checkExpr scope value
      let compared ← widenCase scrutinee compared value.ty
      let body ← withFrame (checkBlock body)
      let (compared, rest) ← checkCases scrutinee compared rest
      return (compared, (value, body) :: rest)

end

end Typing

end ImpLower
