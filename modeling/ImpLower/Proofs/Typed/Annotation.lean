import Mathlib.Algebra.BigOperators.Group.List.Basic
import ImpLower.Typing.Decl
import ImpLower.Proofs.Scope.Frames

/-!
# Well-annotated trees

What the annotations of a typed tree promise: every operation and predicate is the one its operator
means at the type it works at, every conversion is the one between its two types, every name is bound
to what the tree says it is, and no value is asked of a call without a result. Dropping the
annotations gives back a source tree.
-/

namespace ImpLower

/-- The operator an operation comes from. -/
def Operation.surface : Operation → BinOp
  | .int op => .arith op
  | .float op => .arith op
  | .bitwise op => .bitwise op

/-- The operator a comparison comes from. -/
def Predicate.surface : Predicate → BinOp
  | .int op => .relation op
  | .float op => .relation op

theorem Operation.surface_of_operationAt {op : BinOp} {ty : Ty} {o : Operation}
    (h : op.operationAt ty = .ok o) : o.surface = op := by
  cases op <;> cases ty <;> cases h <;> rfl

theorem Predicate.surface_of_predicateAt {op : BinOp} {ty : Ty} {p : Predicate}
    (h : op.predicateAt ty = .ok p) : p.surface = op := by
  cases op <;> cases ty <;> cases h <;> rfl

namespace Typed

/-! ## Dropping annotations -/

mutual

def Expr.erase : Expr → Source.Expr
  | .literal value => .literal value
  | .var name _ indices => .var name (eraseAll indices)
  | .assign name _ indices value => .assign name (eraseAll indices) value.erase
  | .negate _ _ operand => .negate operand.erase
  | .arith op left right => .binary op.surface left.erase right.erase
  | .compare test left right => .binary test.surface left.erase right.erase
  | .call callee _ arguments => .call callee (eraseAll arguments)

def Converted.erase : Converted → Source.Expr
  | .mk value _ _ => value.erase

def eraseAll : List Converted → List Source.Expr
  | [] => []
  | c :: rest => c.erase :: eraseAll rest

end

theorem eraseAll_eq_map (cs : List Converted) : eraseAll cs = cs.map Converted.erase := by
  induction cs with
  | nil => rfl
  | cons c rest ih => rw [eraseAll, ih, List.map_cons]

@[simp] theorem Converted.erase_eq (c : Converted) : c.erase = c.value.erase := by
  cases c
  rfl

def VarDecl.erase (v : VarDecl) : Source.VarDecl where
  ty := v.ty
  name := v.name
  initializer := v.initializer.map Converted.erase
  dimensions := v.dimensions.map Converted.erase

mutual

def Stmt.erase : Stmt → Source.Stmt
  | .block body => .block (eraseBlock body)
  | .declare decl => .declare decl.erase
  | .eval e => .eval e.erase
  | .ifThen condition body => .ifThen condition.erase (eraseBlock body)
  | .ifElse condition body other => .ifElse condition.erase (eraseBlock body) (eraseBlock other)
  | .forLoop decl condition step body =>
      .forLoop decl.erase condition.erase step.erase (eraseBlock body)
  | .whileLoop condition body => .whileLoop condition.erase (eraseBlock body)
  | .switch scrutinee cases _ => .switch scrutinee.erase (eraseCases cases)
  | .ret value => .ret (value.map Converted.erase)

def eraseBlock : List Stmt → List Source.Stmt
  | [] => []
  | s :: rest => s.erase :: eraseBlock rest

def eraseCases : List Case → List Source.Case
  | [] => []
  | .mk value _ _ body :: rest => .mk value.erase (eraseBlock body) :: eraseCases rest

end

def FnDecl.erase (f : FnDecl) : Source.FnDecl where
  result := f.result
  name := f.name
  parameters := f.parameters.map VarDecl.erase
  body := eraseBlock f.body

/-! ## What annotations promise -/

/-- The value exists, and its conversion is the one between its types. -/
def Converted.Fits (c : Converted) : Prop :=
  c.value.ty ≠ .void ∧ Conversion.into c.target c.value.ty = .ok c.conversion

/-- A size or index: an integer used as `long`. -/
def Converted.IsIndex (c : Converted) : Prop :=
  c.Fits ∧ c.value.ty.isInteger = true ∧ c.target = .long

/-- The annotations of an expression are right where the names of `Γ` are visible. -/
inductive ExprOk (Γ : Scope Symbol) : Expr → Prop
  | literal (value : Literal) : ExprOk Γ (.literal value)
  | var {name : String} {ty : Ty} {rank : Nat} {indices : List Converted}
      (bound : Γ.lookup name = some (.var ty rank)) (deep : indices.length ≤ rank)
      (integers : ∀ c ∈ indices, c.IsIndex) (inside : ∀ c ∈ indices, ExprOk Γ c.value) :
      ExprOk Γ (.var name ty indices)
  | assign {name : String} {ty : Ty} {rank : Nat} {indices : List Converted} {value : Converted}
      (bound : Γ.lookup name = some (.var ty rank)) (deep : indices.length ≤ rank)
      (integers : ∀ c ∈ indices, c.IsIndex) (inside : ∀ c ∈ indices, ExprOk Γ c.value)
      (fits : value.Fits) (target : value.target = ty) (assigned : ExprOk Γ value.value) :
      ExprOk Γ (.assign name ty indices value)
  | negate {op : Operation} {zero : Literal} {operand : Expr}
      (start : Literal.zero operand.ty = some zero)
      (selected : (BinOp.arith .sub).operationAt operand.ty = .ok op) (inside : ExprOk Γ operand) :
      ExprOk Γ (.negate op zero operand)
  | arith {op : Operation} {left right : Converted}
      (common : left.value.ty.join right.value.ty = some left.target)
      (same : right.target = left.target)
      (selected : op.surface.operationAt left.target = .ok op)
      (fitsLeft : left.Fits) (fitsRight : right.Fits)
      (insideLeft : ExprOk Γ left.value) (insideRight : ExprOk Γ right.value) :
      ExprOk Γ (.arith op left right)
  | compare {test : Predicate} {left right : Converted}
      (numericLeft : left.value.ty.isNumeric = true)
      (numericRight : right.value.ty.isNumeric = true)
      (common : left.value.ty.join right.value.ty = some left.target)
      (same : right.target = left.target)
      (selected : test.surface.predicateAt left.target = .ok test)
      (fitsLeft : left.Fits) (fitsRight : right.Fits)
      (insideLeft : ExprOk Γ left.value) (insideRight : ExprOk Γ right.value) :
      ExprOk Γ (.compare test left right)
  | call {callee : String} {result : Ty} {arguments : List Converted}
      (bound : Γ.lookup callee = some (.fn result (arguments.map Converted.target)))
      (fits : ∀ c ∈ arguments, c.Fits) (inside : ∀ c ∈ arguments, ExprOk Γ c.value) :
      ExprOk Γ (.call callee result arguments)

def bindVar (Γ : Scope Symbol) (v : VarDecl) : Scope Symbol :=
  Γ.push v.name (.var v.ty v.dimensions.length)

structure VarOk (Γ : Scope Symbol) (v : VarDecl) : Prop where
  storable : v.ty ≠ .void
  fresh : Γ.declaresInCurrent v.name = false
  sizes : ∀ c ∈ v.dimensions, c.IsIndex ∧ ExprOk Γ c.value
  initial : ∀ c, v.initializer = some c →
    v.dimensions = [] ∧ c.target = v.ty ∧ c.Fits ∧ ExprOk (bindVar Γ v) c.value

mutual

/-- The annotations of a statement are right in a function with the given result: `Γ` is visible
before it and `Γ'` after it. -/
inductive StmtOk (result : Ty) : Scope Symbol → Stmt → Scope Symbol → Prop
  | block {Γ Γ' : Scope Symbol} {body : List Stmt} (inside : BlockOk result Γ.enter body Γ') :
      StmtOk result Γ (.block body) Γ
  | declare {Γ : Scope Symbol} {v : VarDecl} (ok : VarOk Γ v) :
      StmtOk result Γ (.declare v) (bindVar Γ v)
  | eval {Γ : Scope Symbol} {e : Expr} (ok : ExprOk Γ e) : StmtOk result Γ (.eval e) Γ
  | ifThen {Γ Γ' : Scope Symbol} {condition : Expr} {body : List Stmt} (test : ExprOk Γ condition)
      (boolean : condition.ty = .boolean) (inside : BlockOk result Γ.enter body Γ') :
      StmtOk result Γ (.ifThen condition body) Γ
  | ifElse {Γ Γ₁ Γ₂ : Scope Symbol} {condition : Expr} {body other : List Stmt}
      (test : ExprOk Γ condition) (boolean : condition.ty = .boolean)
      (inside : BlockOk result Γ.enter body Γ₁) (otherwise : BlockOk result Γ.enter other Γ₂) :
      StmtOk result Γ (.ifElse condition body other) Γ
  | forLoop {Γ Γ' : Scope Symbol} {v : VarDecl} {condition step : Expr} {body : List Stmt}
      (ok : VarOk Γ.enter v) (test : ExprOk (bindVar Γ.enter v) condition)
      (boolean : condition.ty = .boolean) (next : ExprOk (bindVar Γ.enter v) step)
      (inside : BlockOk result (bindVar Γ.enter v).enter body Γ') :
      StmtOk result Γ (.forLoop v condition step body) Γ
  | whileLoop {Γ Γ' : Scope Symbol} {condition : Expr} {body : List Stmt}
      (test : ExprOk Γ condition) (boolean : condition.ty = .boolean)
      (inside : BlockOk result Γ.enter body Γ') : StmtOk result Γ (.whileLoop condition body) Γ
  | switch {Γ : Scope Symbol} {scrutinee : Converted} {cases : List Case} {test : Predicate}
      {table : Bool} (ok : ExprOk Γ scrutinee.value) (fits : scrutinee.Fits)
      (comparable : Typing.switchable scrutinee.value.ty = true)
      (selected : (BinOp.relation .eq).predicateAt scrutinee.target = .ok test)
      (branches : CasesOk result Γ scrutinee.target test cases)
      (tabled : table = true → scrutinee.target.isInteger = true ∧
        ∀ c ∈ cases, c.constant.isSome = true) :
      StmtOk result Γ (.switch scrutinee cases table) Γ
  | ret {Γ : Scope Symbol} {value : Converted} (returns : result ≠ .void)
      (ok : ExprOk Γ value.value) (fits : value.Fits) (target : value.target = result) :
      StmtOk result Γ (.ret (some value)) Γ
  | retVoid {Γ : Scope Symbol} (void : result = .void) : StmtOk result Γ (.ret none) Γ

inductive BlockOk (result : Ty) : Scope Symbol → List Stmt → Scope Symbol → Prop
  | nil {Γ : Scope Symbol} : BlockOk result Γ [] Γ
  | cons {Γ Γ₁ Γ₂ : Scope Symbol} {s : Stmt} {rest : List Stmt} (head : StmtOk result Γ s Γ₁)
      (tail : BlockOk result Γ₁ rest Γ₂) : BlockOk result Γ (s :: rest) Γ₂

/-- Cases compared at one type by one test. -/
inductive CasesOk (result : Ty) : Scope Symbol → Ty → Predicate → List Case → Prop
  | nil {Γ : Scope Symbol} {compared : Ty} {test : Predicate} : CasesOk result Γ compared test []
  | cons {Γ Γ' : Scope Symbol} {compared : Ty} {test : Predicate} {value : Converted}
      {body : List Stmt} {rest : List Case} (ok : ExprOk Γ value.value) (fits : value.Fits)
      (target : value.target = compared) (inside : BlockOk result Γ.enter body Γ')
      (tail : CasesOk result Γ compared test rest) :
      CasesOk result Γ compared test (.mk value test value.constant? body :: rest)

end

/-- Parameters share one frame; they are scalars and have no initial value of their own. -/
inductive ParametersOk : Scope Symbol → List VarDecl → Scope Symbol → Prop
  | nil {Γ : Scope Symbol} : ParametersOk Γ [] Γ
  | cons {Γ Γ' : Scope Symbol} {v : VarDecl} {rest : List VarDecl} (ok : VarOk Γ v)
      (scalar : v.dimensions = []) (plain : v.initializer = none)
      (tail : ParametersOk (bindVar Γ v) rest Γ') : ParametersOk Γ (v :: rest) Γ'

def bindFn (Γ : Scope Symbol) (f : FnDecl) : Scope Symbol :=
  Γ.push f.name (.fn f.result (f.parameters.map VarDecl.ty))

def bindGlobal (Γ : Scope Symbol) (g : Global) : Scope Symbol :=
  Γ.push g.name (.var g.ty g.dimensions.length)

structure FnOk (Γ : Scope Symbol) (f : FnDecl) : Prop where
  fresh : Γ.declaresInCurrent f.name = false
  body : ∃ Γ₁ Γ₂, ParametersOk (bindFn Γ f).enter f.parameters Γ₁ ∧
    BlockOk f.result Γ₁ f.body Γ₂
  returns : f.result ≠ .void → mustReturn f.body = true

/-- A global may be declared in `Γ`: it has one element per combination of its sizes, and an initial
value of its own type. -/
structure GlobalOk (Γ : Scope Symbol) (g : Global) : Prop where
  storable : g.ty ≠ .void
  fresh : Γ.declaresInCurrent g.name = false
  sizes : ∀ n ∈ g.dimensions, 0 < n
  length : g.length = g.dimensions.prod
  addressable : g.length < Typing.maxElements
  initial : ∀ l, g.initializer = some l → g.dimensions = [] ∧ l.type = g.ty

/-- Declarations in order, each in the scope of the ones before it. -/
inductive DeclsOk : Scope Symbol → List Decl → Prop
  | nil {Γ : Scope Symbol} : DeclsOk Γ []
  | global {Γ : Scope Symbol} {g : Global} {rest : List Decl} (ok : GlobalOk Γ g)
      (tail : DeclsOk (bindGlobal Γ g) rest) : DeclsOk Γ (.global g :: rest)
  | function {Γ : Scope Symbol} {f : FnDecl} {rest : List Decl} (ok : FnOk Γ f)
      (tail : DeclsOk (bindFn Γ f) rest) : DeclsOk Γ (.function f :: rest)

def ProgramOk (decls : List Decl) : Prop :=
  DeclsOk {} decls

end Typed

end ImpLower
