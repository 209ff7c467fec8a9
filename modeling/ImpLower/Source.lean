import ImpLower.Construct
import ImpLower.Literal.Basic

/-!
# Source programs

The tree a parser would hand over: names are strings, nothing is resolved and nothing is typed.
-/

namespace ImpLower.Source

/-- Expressions. A variable may be indexed, and an assignment is an expression. -/
inductive Expr where
  | literal (value : Literal)
  | var (name : String) (indices : List Expr)
  | assign (name : String) (indices : List Expr) (value : Expr)
  | negate (operand : Expr)
  | binary (op : BinOp) (left right : Expr)
  | call (callee : String) (arguments : List Expr)

/-- A variable with one size expression per dimension; scalars have none. -/
structure VarDecl where
  ty : Ty
  name : String
  initializer : Option Expr := none
  dimensions : List Expr := []

mutual

/-- Statements. The construct that owns a list of statements decides whether it opens a frame. -/
inductive Stmt where
  | block (body : List Stmt)
  | declare (decl : VarDecl)
  | eval (expr : Expr)
  | ifThen (condition : Expr) (body : List Stmt)
  | ifElse (condition : Expr) (body other : List Stmt)
  | forLoop (decl : VarDecl) (condition step : Expr) (body : List Stmt)
  | whileLoop (condition : Expr) (body : List Stmt)
  | switch (scrutinee : Expr) (cases : List Case)
  | ret (value : Option Expr)

inductive Case where
  | mk (value : Expr) (body : List Stmt)

end

structure FnDecl where
  result : Ty
  name : String
  parameters : List VarDecl
  body : List Stmt

inductive Decl where
  | global (decl : VarDecl)
  | function (decl : FnDecl)

def Expr.construct : Expr → Construct
  | literal _ => .literal
  | var .. => .varUse
  | assign .. => .assignment
  | negate _ => .unary
  | binary .. => .binary
  | call .. => .call

def Stmt.construct : Stmt → Construct
  | block _ => .block
  | declare _ => .varDecl
  | eval _ => .exprStmt
  | ifThen .. => .ifStmt
  | ifElse .. => .ifStmt
  | forLoop .. => .forStmt
  | whileLoop .. => .whileStmt
  | switch .. => .switchStmt
  | ret _ => .returnStmt

def Decl.construct : Decl → Construct
  | global _ => .varDecl
  | function _ => .fnDecl

def Decl.name : Decl → String
  | global decl => decl.name
  | function decl => decl.name

end ImpLower.Source
