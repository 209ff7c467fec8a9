import ImpLower.Lower.Expr

/-!
# Lowering statements

Statements that follow a closed block are dropped. Every branching statement leaves the insertion
point at its own `end` block, which is closed as unreachable when no path leads there.
-/

namespace ImpLower.Lower

open Typed (Converted)

variable {σ V S B F M : Type} [Emitter σ V S B F M]

/-- Branches to `target` unless the current block is closed; tells whether it did. -/
def fallInto (target : B) (site : Construct) : Lower σ V S F Bool := do
  if ← isClosed then return false
  let _ : Unit ← request site (.branch target)
  return true

/-- Product of the sizes of an array, which is its element count. -/
def product : List V → Lower σ V S F (Option V)
  | [] => return none
  | size :: sizes => return some (← go size sizes)
where
  go : V → List V → Lower σ V S F V
    | length, [] => return length
    | length, size :: sizes => do
        let length : V ← request .varDecl (.binary (.int .mul) length size "length")
        go length sizes

def lowerVarDecl (decl : Typed.VarDecl) : Lower σ V S F Unit := do
  let sizes ← lowerArguments .varDecl decl.dimensions
  let length ← product sizes
  let slot : S ← request .varDecl (.alloca decl.ty length decl.name)
  declare decl.name (.var slot decl.ty sizes) .varDecl
  match decl.initializer with
  | none => return ()
  | some initializer =>
      let value ← lowerConverted .varDecl initializer
      request .varDecl (.store slot decl.ty none value)

/-- Table entries in order. A constant that repeats an earlier one can never be reached and is left
out, as is a case without a constant. -/
def tableEntries (table : List (Literal × B)) : List (Option Literal × B) → List (Literal × B)
  | [] => table
  | (none, _) :: rest => tableEntries table rest
  | (some constant, block) :: rest =>
      if table.any fun seen => seen.1.same constant then tableEntries table rest
      else tableEntries (table ++ [(constant, block)]) rest

mutual

def lowerStmt : Typed.Stmt → Lower σ V S F Unit
  | .block body => withFrame (lowerBlock body)
  | .declare decl => lowerVarDecl decl
  | .eval e => do
      let _ ← lowerExpr e
      return ()
  | .ifThen condition body => do
      let f ← enclosingFunction .ifStmt
      let condition ← lowerValue .ifStmt condition
      let thenBlock ← addBlock f "then"
      let endBlock ← addBlock f "end"
      let _ : Unit ← request .ifStmt (.condBranch condition thenBlock endBlock)
      moveTo thenBlock
      withFrame (lowerBlock body)
      let _ ← fallInto endBlock .ifStmt
      moveTo endBlock
  | .ifElse condition body other => do
      let f ← enclosingFunction .ifStmt
      let condition ← lowerValue .ifStmt condition
      let thenBlock ← addBlock f "then"
      let elseBlock ← addBlock f "else"
      let endBlock ← addBlock f "end"
      let _ : Unit ← request .ifStmt (.condBranch condition thenBlock elseBlock)
      moveTo thenBlock
      withFrame (lowerBlock body)
      let reached ← fallInto endBlock .ifStmt
      moveTo elseBlock
      withFrame (lowerBlock other)
      let reachedToo ← fallInto endBlock .ifStmt
      moveTo endBlock
      if reached || reachedToo then return ()
      request .ifStmt .unreachable
  | .forLoop decl condition step body => withFrame do
      let f ← enclosingFunction .forStmt
      lowerVarDecl decl
      let condBlock ← addBlock f "cond"
      let bodyBlock ← addBlock f "body"
      let stepBlock ← addBlock f "step"
      let endBlock ← addBlock f "end"
      let _ : Unit ← request .forStmt (.branch condBlock)
      moveTo condBlock
      let condition ← lowerValue .forStmt condition
      let _ : Unit ← request .forStmt (.condBranch condition bodyBlock endBlock)
      moveTo bodyBlock
      withFrame (lowerBlock body)
      let _ ← fallInto stepBlock .forStmt
      moveTo stepBlock
      let _ ← lowerExpr step
      let _ : Unit ← request .forStmt (.branch condBlock)
      moveTo endBlock
  | .whileLoop condition body => do
      let f ← enclosingFunction .whileStmt
      let condBlock ← addBlock f "cond"
      let bodyBlock ← addBlock f "body"
      let endBlock ← addBlock f "end"
      let _ : Unit ← request .whileStmt (.branch condBlock)
      moveTo condBlock
      let condition ← lowerValue .whileStmt condition
      let _ : Unit ← request .whileStmt (.condBranch condition bodyBlock endBlock)
      moveTo bodyBlock
      withFrame (lowerBlock body)
      let _ ← fallInto condBlock .whileStmt
      moveTo endBlock
  | .switch scrutinee cases true => do
      let f ← enclosingFunction .switchStmt
      let scrutinee ← lowerConverted .switchStmt scrutinee
      let blocks ← addBlocks f "case" cases.length
      let endBlock ← addBlock f "end"
      let table := tableEntries [] ((cases.map Typed.Case.constant).zip blocks)
      let _ : Unit ← request .switchStmt (.switch scrutinee endBlock table)
      lowerTable endBlock cases blocks
      moveTo endBlock
  | .switch scrutinee cases false => do
      let f ← enclosingFunction .switchStmt
      let scrutinee ← lowerConverted .switchStmt scrutinee
      let endBlock ← addBlock f "end"
      lowerChain f scrutinee endBlock cases
      let _ : Unit ← request .switchStmt (.branch endBlock)
      moveTo endBlock
  | .ret none => request .returnStmt (.ret none)
  | .ret (some value) => do
      let value ← lowerConverted .returnStmt value
      request .returnStmt (.ret (some value))

/-- Lowers statements in the current frame, up to the first one that closes the block. -/
def lowerBlock : List Typed.Stmt → Lower σ V S F Unit
  | [] => return ()
  | s :: rest => do
      if ← isClosed then return ()
      lowerStmt s
      lowerBlock rest

/-- Lowers the bodies of a jump table, each into its own block. -/
def lowerTable (endBlock : B) : List Typed.Case → List B → Lower σ V S F Unit
  | .mk _ _ _ body :: cases, block :: blocks => do
      moveTo block
      withFrame (lowerBlock body)
      let _ ← fallInto endBlock .switchCase
      lowerTable endBlock cases blocks
  | _, _ => return ()

/-- Lowers cases as a chain of comparisons, leaving the insertion point after the last one. -/
def lowerChain (f : F) (scrutinee : V) (endBlock : B) : List Typed.Case → Lower σ V S F Unit
  | [] => return ()
  | .mk value test _ body :: cases => do
      let value ← lowerConverted .switchCase value
      let matched : V ← request .switchCase (.compare test scrutinee value "case_match")
      let caseBlock ← addBlock f "case"
      let nextBlock ← addBlock f "next"
      let _ : Unit ← request .switchCase (.condBranch matched caseBlock nextBlock)
      moveTo caseBlock
      withFrame (lowerBlock body)
      let _ ← fallInto endBlock .switchCase
      moveTo nextBlock
      lowerChain f scrutinee endBlock cases

end

end ImpLower.Lower
