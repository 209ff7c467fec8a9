import ImpLower.Literal.Basic

/-!
# Typed programs

A checked program: every operator is resolved to an operation of a family, every value that moves
between types carries its conversion, and the type of an expression can be read off its head.
-/

namespace ImpLower.Typed

mutual

/-- Checked expressions. Negation is kept as the subtraction `zero - operand`. -/
inductive Expr where
  | literal (value : Literal)
  | var (name : String) (ty : Ty) (indices : List Converted)
  | assign (name : String) (ty : Ty) (indices : List Converted) (value : Converted)
  | negate (op : Operation) (zero : Literal) (operand : Expr)
  | arith (op : Operation) (left right : Converted)
  | compare (test : Predicate) (left right : Converted)
  | call (callee : String) (result : Ty) (arguments : List Converted)

/-- An expression and its conversion into `target`. -/
inductive Converted where
  | mk (value : Expr) (conversion : Conversion) (target : Ty)

end

namespace Converted

def value : Converted → Expr
  | mk value _ _ => value

def conversion : Converted → Conversion
  | mk _ conversion _ => conversion

def target : Converted → Ty
  | mk _ _ target => target

end Converted

/-- The type of an expression. Both operands of an operation are converted to the type of its
result. -/
def Expr.ty : Expr → Ty
  | literal value => value.type
  | var _ ty _ => ty
  | assign _ ty _ _ => ty
  | negate _ _ operand => operand.ty
  | arith _ left _ => left.target
  | compare .. => .boolean
  | call _ result _ => result

structure VarDecl where
  name : String
  ty : Ty
  dimensions : List Converted
  initializer : Option Converted

mutual

inductive Stmt where
  | block (body : List Stmt)
  | declare (decl : VarDecl)
  | eval (expr : Expr)
  | ifThen (condition : Expr) (body : List Stmt)
  | ifElse (condition : Expr) (body other : List Stmt)
  | forLoop (decl : VarDecl) (condition step : Expr) (body : List Stmt)
  | whileLoop (condition : Expr) (body : List Stmt)
  | switch (scrutinee : Converted) (cases : List Case) (table : Bool)
  | ret (value : Option Converted)

/-- A checked case: its value at the type of the comparison, the test that selects it, and the
constant it folds to, if it does. -/
inductive Case where
  | mk (value : Converted) (test : Predicate) (constant : Option Literal) (body : List Stmt)

end

namespace Case

def value : Case → Converted
  | mk value _ _ _ => value

def test : Case → Predicate
  | mk _ test _ _ => test

def constant : Case → Option Literal
  | mk _ _ constant _ => constant

def body : Case → List Stmt
  | mk _ _ _ body => body

end Case

structure FnDecl where
  name : String
  result : Ty
  parameters : List VarDecl
  body : List Stmt

/-- A checked global: constant sizes, their product, and a constant initial value. -/
structure Global where
  name : String
  ty : Ty
  dimensions : List Nat
  length : Nat
  initializer : Option Literal

inductive Decl where
  | global (decl : Global)
  | function (decl : FnDecl)

mutual

/-- Whether control can never run past the statement. Loops may run zero times and a switch has no
default, so neither counts. -/
def Stmt.mustReturn : Stmt → Bool
  | .ret _ => true
  | .block body => mustReturn body
  | .ifElse _ body other => mustReturn body && mustReturn other
  | _ => false

def mustReturn : List Stmt → Bool
  | [] => false
  | s :: rest => s.mustReturn || mustReturn rest

end

end ImpLower.Typed
