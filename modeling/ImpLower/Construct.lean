/-!
# Constructs

The kinds of phrase a diagnostic can point at.
-/

namespace ImpLower

/-- A kind of phrase of the language. -/
inductive Construct where
  | program
  | varDecl
  | fnDecl
  | block
  | exprStmt
  | ifStmt
  | forStmt
  | whileStmt
  | switchStmt
  | switchCase
  | returnStmt
  | literal
  | varUse
  | assignment
  | unary
  | binary
  | call
  deriving DecidableEq, Repr

def Construct.describe : Construct → String
  | program => "program"
  | varDecl => "variable declaration"
  | fnDecl => "function declaration"
  | block => "block"
  | exprStmt => "expression statement"
  | ifStmt => "if statement"
  | forStmt => "for statement"
  | whileStmt => "while statement"
  | switchStmt => "switch statement"
  | switchCase => "case"
  | returnStmt => "return statement"
  | literal => "literal"
  | varUse => "variable"
  | assignment => "assignment"
  | unary => "unary expression"
  | binary => "binary expression"
  | call => "call"

end ImpLower
