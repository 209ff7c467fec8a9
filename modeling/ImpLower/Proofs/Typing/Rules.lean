import Mathlib.Algebra.BigOperators.Group.List.Basic
import Mathlib.Algebra.Group.Nat.Defs
import ImpLower.Typing.Decl
import ImpLower.Proofs.Scope.Frames

/-!
# Typing rules

The rules of the language as judgements over source trees. They are stated without the checker and
without the typed tree: an expression has a type in a scope, a statement turns a scope into the scope
of what follows it, and a program is well typed when each of its declarations is, in the scope of the
declarations before it.
-/

namespace ImpLower.Typing

/-- Two types have a common type: they agree, or both are numeric. -/
def Compatible (a b : Ty) : Prop :=
  a = b ∨ a.isNumeric = true ∧ b.isNumeric = true

/-- A value of one type may be used where the other is wanted. A call without a result leaves no
value to use. -/
def Converts (source target : Ty) : Prop :=
  source ≠ .void ∧ Compatible source target

mutual

/-- `HasType Γ e ty`: in the scope `Γ` the expression `e` has type `ty`. -/
inductive HasType (Γ : Scope Symbol) : Source.Expr → Ty → Prop
  | literal (value : Literal) : HasType Γ (.literal value) value.type
  | var {name : String} {ty : Ty} {rank : Nat} {indices : List Source.Expr}
      (bound : Γ.lookup name = some (.var ty rank)) (deep : indices.length ≤ rank)
      (integers : AreIndices Γ indices) : HasType Γ (.var name indices) ty
  | assign {name : String} {ty source : Ty} {rank : Nat} {indices : List Source.Expr}
      {value : Source.Expr} (bound : Γ.lookup name = some (.var ty rank))
      (deep : indices.length ≤ rank) (integers : AreIndices Γ indices)
      (typed : HasType Γ value source) (converts : Converts source ty) :
      HasType Γ (.assign name indices value) ty
  | negate {operand : Source.Expr} {ty : Ty} (typed : HasType Γ operand ty)
      (numeric : ty.isNumeric = true) : HasType Γ (.negate operand) ty
  | arith {op : Arith} {left right : Source.Expr} {l r ty : Ty} (typedLeft : HasType Γ left l)
      (typedRight : HasType Γ right r) (common : l.join r = some ty)
      (numeric : ty.isNumeric = true) : HasType Γ (.binary (.arith op) left right) ty
  | bitwise {op : Bitwise} {left right : Source.Expr} {l r ty : Ty} (typedLeft : HasType Γ left l)
      (typedRight : HasType Γ right r) (common : l.join r = some ty)
      (integer : ty.isInteger = true) : HasType Γ (.binary (.bitwise op) left right) ty
  | relation {op : Relation} {left right : Source.Expr} {l r : Ty} (typedLeft : HasType Γ left l)
      (typedRight : HasType Γ right r) (numericLeft : l.isNumeric = true)
      (numericRight : r.isNumeric = true) : HasType Γ (.binary (.relation op) left right) .boolean
  | call {callee : String} {result : Ty} {parameters : List Ty} {arguments : List Source.Expr}
      (bound : Γ.lookup callee = some (.fn result parameters))
      (fits : AreArguments Γ arguments parameters) : HasType Γ (.call callee arguments) result

inductive AreIndices (Γ : Scope Symbol) : List Source.Expr → Prop
  | nil : AreIndices Γ []
  | cons {e : Source.Expr} {ty : Ty} {rest : List Source.Expr} (typed : HasType Γ e ty)
      (integer : ty.isInteger = true) (tail : AreIndices Γ rest) : AreIndices Γ (e :: rest)

/-- As many arguments as parameters, each convertible to its own. -/
inductive AreArguments (Γ : Scope Symbol) : List Source.Expr → List Ty → Prop
  | nil : AreArguments Γ [] []
  | cons {e : Source.Expr} {source ty : Ty} {rest : List Source.Expr} {parameters : List Ty}
      (typed : HasType Γ e source) (converts : Converts source ty)
      (tail : AreArguments Γ rest parameters) : AreArguments Γ (e :: rest) (ty :: parameters)

end

/-- The scope after a variable: its name is bound in the innermost frame. -/
def withVar (Γ : Scope Symbol) (decl : Source.VarDecl) : Scope Symbol :=
  Γ.push decl.name (.var decl.ty decl.dimensions.length)

/-- A local variable or parameter may be declared in `Γ`. Its initializer already sees it. -/
structure VarTyped (Γ : Scope Symbol) (decl : Source.VarDecl) : Prop where
  storable : decl.ty ≠ .void
  fresh : Γ.declaresInCurrent decl.name = false
  sizes : AreIndices Γ decl.dimensions
  initial : ∀ e, decl.initializer = some e → decl.dimensions = [] ∧
    ∃ source, HasType (withVar Γ decl) e source ∧ Converts source decl.ty

/-- Types whose values a switch can tell apart. -/
def Switchable (ty : Ty) : Prop :=
  ty.isNumeric = true ∨ ty = .boolean ∨ ty = .char

mutual

/-- `StmtTyped result Γ s Γ'`: in a function with the given result, `s` may stand where the names of
`Γ` are visible, and `Γ'` is visible after it. -/
inductive StmtTyped (result : Ty) : Scope Symbol → Source.Stmt → Scope Symbol → Prop
  | block {Γ Γ' : Scope Symbol} {body : List Source.Stmt}
      (inside : BlockTyped result Γ.enter body Γ') : StmtTyped result Γ (.block body) Γ
  | declare {Γ : Scope Symbol} {decl : Source.VarDecl} (typed : VarTyped Γ decl) :
      StmtTyped result Γ (.declare decl) (withVar Γ decl)
  | eval {Γ : Scope Symbol} {e : Source.Expr} {ty : Ty} (typed : HasType Γ e ty) :
      StmtTyped result Γ (.eval e) Γ
  | ifThen {Γ Γ' : Scope Symbol} {condition : Source.Expr} {body : List Source.Stmt}
      (test : HasType Γ condition .boolean) (inside : BlockTyped result Γ.enter body Γ') :
      StmtTyped result Γ (.ifThen condition body) Γ
  | ifElse {Γ Γ₁ Γ₂ : Scope Symbol} {condition : Source.Expr} {body other : List Source.Stmt}
      (test : HasType Γ condition .boolean) (inside : BlockTyped result Γ.enter body Γ₁)
      (otherwise : BlockTyped result Γ.enter other Γ₂) :
      StmtTyped result Γ (.ifElse condition body other) Γ
  | forLoop {Γ Γ' : Scope Symbol} {decl : Source.VarDecl} {condition step : Source.Expr} {ty : Ty}
      {body : List Source.Stmt} (typed : VarTyped Γ.enter decl)
      (test : HasType (withVar Γ.enter decl) condition .boolean)
      (next : HasType (withVar Γ.enter decl) step ty)
      (inside : BlockTyped result (withVar Γ.enter decl).enter body Γ') :
      StmtTyped result Γ (.forLoop decl condition step body) Γ
  | whileLoop {Γ Γ' : Scope Symbol} {condition : Source.Expr} {body : List Source.Stmt}
      (test : HasType Γ condition .boolean) (inside : BlockTyped result Γ.enter body Γ') :
      StmtTyped result Γ (.whileLoop condition body) Γ
  | switch {Γ : Scope Symbol} {scrutinee : Source.Expr} {ty : Ty} {cases : List Source.Case}
      (typed : HasType Γ scrutinee ty) (comparable : Switchable ty)
      (branches : CasesTyped result Γ ty cases) : StmtTyped result Γ (.switch scrutinee cases) Γ
  | ret {Γ : Scope Symbol} {value : Source.Expr} {source : Ty} (returns : result ≠ .void)
      (typed : HasType Γ value source) (converts : Converts source result) :
      StmtTyped result Γ (.ret (some value)) Γ
  | retVoid {Γ : Scope Symbol} (void : result = .void) : StmtTyped result Γ (.ret none) Γ

/-- Statements in sequence, each in the scope the one before it left. -/
inductive BlockTyped (result : Ty) : Scope Symbol → List Source.Stmt → Scope Symbol → Prop
  | nil {Γ : Scope Symbol} : BlockTyped result Γ [] Γ
  | cons {Γ Γ₁ Γ₂ : Scope Symbol} {s : Source.Stmt} {rest : List Source.Stmt}
      (head : StmtTyped result Γ s Γ₁) (tail : BlockTyped result Γ₁ rest Γ₂) :
      BlockTyped result Γ (s :: rest) Γ₂

/-- Each case value has a common type with the scrutinee; the other cases do not matter to it. -/
inductive CasesTyped (result : Ty) : Scope Symbol → Ty → List Source.Case → Prop
  | nil {Γ : Scope Symbol} {scrutinee : Ty} : CasesTyped result Γ scrutinee []
  | cons {Γ Γ' : Scope Symbol} {scrutinee ty : Ty} {value : Source.Expr} {body : List Source.Stmt}
      {rest : List Source.Case} (typed : HasType Γ value ty)
      (compatible : Compatible scrutinee ty)
      (inside : BlockTyped result Γ.enter body Γ') (tail : CasesTyped result Γ scrutinee rest) :
      CasesTyped result Γ scrutinee (.mk value body :: rest)

end

mutual

/-- Control never runs past the statement. Loops may run zero times and no case need match. -/
inductive Returns : Source.Stmt → Prop
  | ret (value : Option Source.Expr) : Returns (.ret value)
  | block {body : List Source.Stmt} (inside : SomeReturns body) : Returns (.block body)
  | ifElse {condition : Source.Expr} {body other : List Source.Stmt} (inside : SomeReturns body)
      (otherwise : SomeReturns other) : Returns (.ifElse condition body other)

inductive SomeReturns : List Source.Stmt → Prop
  | head {s : Source.Stmt} {rest : List Source.Stmt} (here : Returns s) : SomeReturns (s :: rest)
  | tail {s : Source.Stmt} {rest : List Source.Stmt} (later : SomeReturns rest) :
      SomeReturns (s :: rest)

end

/-- The value of an expression made of constants only: literals, negations and operations at the
common type of their operands, where they are defined. -/
def foldedValue? : Source.Expr → Option Literal
  | .literal value => some value
  | .negate operand => do
      let value ← foldedValue? operand
      let zero ← Literal.zero value.type
      let op ← ((BinOp.arith .sub).operationAt value.type).toOption
      op.eval zero value value.type
  | .binary op left right => do
      let l ← foldedValue? left
      let r ← foldedValue? right
      let ty ← l.type.join r.type
      let op ← (op.operationAt ty).toOption
      op.eval (← l.convert ty) (← r.convert ty) ty
  | _ => none

/-- The sizes of a global array: positive constants of the integer family. -/
inductive SizesTyped (Γ : Scope Symbol) : List Source.Expr → List Nat → Prop
  | nil : SizesTyped Γ [] []
  | cons {e : Source.Expr} {ty : Ty} {value : Literal} {size : Int64} {rest : List Source.Expr}
      {sizes : List Nat} (typed : HasType Γ e ty) (integer : ty.isInteger = true)
      (constant : foldedValue? e = some value) (word : value.toInt64? = some size)
      (positive : 0 < size) (tail : SizesTyped Γ rest sizes) :
      SizesTyped Γ (e :: rest) (size.toInt.toNat :: sizes)

structure GlobalTyped (Γ : Scope Symbol) (decl : Source.VarDecl) : Prop where
  storable : decl.ty ≠ .void
  fresh : Γ.declaresInCurrent decl.name = false
  sizes : ∃ sizes, SizesTyped Γ decl.dimensions sizes ∧ sizes.prod < 2 ^ 64
  initial : ∀ e, decl.initializer = some e → decl.dimensions = [] ∧
    (∃ source, HasType (withVar Γ decl) e source ∧ Converts source decl.ty) ∧
    (foldedValue? e).isSome = true

inductive ParametersTyped : Scope Symbol → List Source.VarDecl → Scope Symbol → Prop
  | nil {Γ : Scope Symbol} : ParametersTyped Γ [] Γ
  | cons {Γ Γ' : Scope Symbol} {p : Source.VarDecl} {rest : List Source.VarDecl}
      (typed : VarTyped Γ p) (scalar : p.dimensions = []) (plain : p.initializer = none)
      (tail : ParametersTyped (withVar Γ p) rest Γ') : ParametersTyped Γ (p :: rest) Γ'

/-- The scope after a function: its name is bound to its result and parameter types. -/
def withFn (Γ : Scope Symbol) (decl : Source.FnDecl) : Scope Symbol :=
  Γ.push decl.name (.fn decl.result (decl.parameters.map Source.VarDecl.ty))

/-- A function may be declared in `Γ`. It sees itself, and its parameters share a frame with its
body. -/
structure FunctionTyped (Γ : Scope Symbol) (decl : Source.FnDecl) : Prop where
  fresh : Γ.declaresInCurrent decl.name = false
  body : ∃ Γ₁ Γ₂, ParametersTyped (withFn Γ decl).enter decl.parameters Γ₁ ∧
    BlockTyped decl.result Γ₁ decl.body Γ₂
  returns : decl.result ≠ .void → SomeReturns decl.body

/-- Declarations in order, each in the scope of the ones before it. -/
inductive DeclsTyped : Scope Symbol → List Source.Decl → Prop
  | nil {Γ : Scope Symbol} : DeclsTyped Γ []
  | global {Γ : Scope Symbol} {decl : Source.VarDecl} {rest : List Source.Decl}
      (typed : GlobalTyped Γ decl) (tail : DeclsTyped (withVar Γ decl) rest) :
      DeclsTyped Γ (.global decl :: rest)
  | function {Γ : Scope Symbol} {decl : Source.FnDecl} {rest : List Source.Decl}
      (typed : FunctionTyped Γ decl) (tail : DeclsTyped (withFn Γ decl) rest) :
      DeclsTyped Γ (.function decl :: rest)

def WellTyped (decls : List Source.Decl) : Prop :=
  DeclsTyped {} decls

end ImpLower.Typing
