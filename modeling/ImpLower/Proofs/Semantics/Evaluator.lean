import ImpLower.Machine.Run
import ImpLower.Typed.Tree
import ImpLower.Proofs.Scope.Frames

/-!
# A structural evaluator of typed programs

The meaning of a typed program, by recursion on its trees and without any code. Operands are
evaluated from left to right, and an assigned value before the indices of its target. A variable is
an array that lives in the frame of its declaration; executing the declaration makes a fresh one,
filled with zeros. Calls recurse on the levels of depth that are left, and loops on a fuel that bounds
the iterations of each loop, so the evaluator is total: a run that needs more fuel says so.
-/

namespace ImpLower

namespace Scope

variable {α : Type}

/-- Changes what a name stands for in a frame. -/
def adjustFrame (name : String) (f : α → α) : Frame α → Frame α
  | [] => []
  | (n, a) :: rest => if n = name then (n, f a) :: rest else (n, a) :: adjustFrame name f rest

/-- Changes what a name stands for in the innermost of the frames that binds it. -/
def adjustFrames (name : String) (f : α → α) (globals : Frame α) : List (Frame α) → Scope α
  | [] => { globals := adjustFrame name f globals }
  | top :: rest =>
      if (top.lookup name).isSome then ⟨adjustFrame name f top :: rest, globals⟩
      else
        let below := adjustFrames name f globals rest
        ⟨top :: below.inner, below.globals⟩

/-- Changes what a name stands for where it is visible. -/
def adjust (s : Scope α) (name : String) (f : α → α) : Scope α :=
  adjustFrames name f s.globals s.inner

end Scope

namespace Semantics

open Typed

inductive Fault where
  | arithmetic (op : Operation)
  | indexOutOfBounds (index : Int) (length : Nat)
  | invalidLength (length : Int)
  | callDepth (depth : Nat)

def Fault.trap : Fault → Trap
  | arithmetic op => .arithmetic op
  | indexOutOfBounds index length => .indexOutOfBounds index length
  | invalidLength length => .invalidLength length
  | callDepth depth => .callDepth depth

/-- Why an evaluation stops early: the program is at fault, the tree has no meaning, or a loop used up
its fuel. -/
inductive Stop where
  | fault (f : Fault)
  | stuck
  | outOfFuel

/-- A variable: the sizes of its dimensions and its elements. A scalar has one element. -/
structure Variable where
  sizes : List Int64
  cell : Machine.Cell

abbrev Env := Scope Variable

/-- An evaluation. What it did before it stopped stays visible. -/
abbrev Eval (β : Type) := Stateful Stop Env β

inductive Completion where
  | next
  | returned (value : Option Literal)

/-- What a function returns when its body ends this way. -/
def Completion.value : Completion → Option Literal
  | next => none
  | returned value => value

/-! ## Values and variables -/

/-- A value that has to be there. -/
def required : Option Literal → Except Stop Literal
  | some value => .ok value
  | none => .error .stuck

def truth : Literal → Except Stop Bool
  | .boolean b => .ok b
  | _ => .error .stuck

def index : Literal → Except Stop Int64
  | .long n => .ok n
  | _ => .error .stuck

def operate (op : Operation) (left right : Literal) (ty : Ty) : Except Stop Literal :=
  match op.eval left right ty with
  | some value => .ok value
  | none => .error (.fault (.arithmetic op))

def compare (test : Predicate) (left right : Literal) : Except Stop Bool :=
  match test.holds left right with
  | .ok answer => .ok answer
  | .error _ => .error .stuck

def moveTo (value : Literal) (target : Ty) : Except Stop Literal :=
  required (value.convert target)

/-- The number of elements of an array with the given sizes, as a word that wraps. -/
def elements : List Int64 → Int64
  | [] => 1
  | n :: sizes => n * elements sizes

/-- The row-major position of an element, as a word that wraps. Missing indices are zero. -/
def flatten : List Int64 → List Int64 → Int64
  | _ :: sizes, i :: indices => i * elements sizes + flatten sizes indices
  | _, _ => 0

/-- The position of an element that exists. -/
def Variable.position (x : Variable) (indices : List Int64) : Except Stop Nat :=
  let offset := (flatten x.sizes indices).toInt
  if 0 ≤ offset ∧ offset < x.cell.size then .ok offset.toNat
  else .error (.fault (.indexOutOfBounds offset x.cell.size))

def Variable.set (x : Variable) (position : Nat) (value : Literal) : Variable :=
  { x with cell := x.cell.setIfInBounds position value }

def resolve (name : String) : Eval Variable :=
  Stateful.ofFn fun env =>
    match env.lookup name with
    | some x => (.ok x, env)
    | none => (.error .stuck, env)

def read (name : String) (indices : List Int64) : Eval Literal := do
  let x ← resolve name
  let position ← Stateful.ofExcept (x.position indices)
  Stateful.ofExcept (required x.cell[position]?)

def write (name : String) (indices : List Int64) (value : Literal) : Eval Unit := do
  let x ← resolve name
  let position ← Stateful.ofExcept (x.position indices)
  modify fun env => env.adjust name (·.set position value)

/-- Makes a variable in the innermost frame, filled with zeros. -/
def allocate (name : String) (ty : Ty) (sizes : List Int64) : Eval Unit := do
  let n := elements sizes
  if n < 0 then throw (.fault (.invalidLength n.toInt))
  modify fun env => env.push name ⟨sizes, Array.replicate n.toInt.toNat (Literal.initial ty)⟩

/-! ## Expressions -/

section

variable (call : String → List Literal → Eval (Option Literal))

mutual

/-- The value of an expression; only a call of a function without a result has none. -/
def evalExpr : Expr → Eval (Option Literal)
  | .literal value => return some value
  | .var name _ indices => do
      let values ← evalArguments indices
      let indices ← Stateful.ofExcept (values.mapM index)
      return some (← read name indices)
  | .assign name _ indices value => do
      let assigned ← evalConverted value
      let values ← evalArguments indices
      let indices ← Stateful.ofExcept (values.mapM index)
      write name indices assigned
      return some assigned
  | .negate op zero operand => do
      let value ← Stateful.ofExcept (required (← evalExpr operand))
      return some (← Stateful.ofExcept (operate op zero value operand.ty))
  | .arith op left right => do
      let l ← evalConverted left
      let r ← evalConverted right
      return some (← Stateful.ofExcept (operate op l r left.target))
  | .compare test left right => do
      let l ← evalConverted left
      let r ← evalConverted right
      return some (.boolean (← Stateful.ofExcept (compare test l r)))
  | .call callee _ arguments => do
      call callee (← evalArguments arguments)

def evalConverted : Converted → Eval Literal
  | .mk value _ target => do
      let value ← Stateful.ofExcept (required (← evalExpr value))
      Stateful.ofExcept (moveTo value target)

def evalArguments : List Converted → Eval (List Literal)
  | [] => return []
  | c :: rest => do
      let value ← evalConverted c
      return value :: (← evalArguments rest)

end

/-! ## Statements -/

def evalCondition (condition : Expr) : Eval Bool := do
  let value ← Stateful.ofExcept (required (← evalExpr call condition))
  Stateful.ofExcept (truth value)

/-- A local variable comes to be, with its sizes evaluated first and its initial value, if it has one,
when the variable itself is visible. -/
def evalVarDecl (v : VarDecl) : Eval Unit := do
  let sizes ← Stateful.ofExcept ((← evalArguments call v.dimensions).mapM index)
  allocate v.name v.ty sizes
  match v.initializer with
  | none => return
  | some initial => write v.name [] (← evalConverted call initial)

/-- Test, body, step, and again; a body that returns ends the loop. -/
def loop (test : Eval Bool) (body : Eval Completion) (step : Eval Unit) : Nat → Eval Completion
  | 0 => throw .outOfFuel
  | fuel + 1 => do
      if ← test then
        match ← body with
        | .returned value => return .returned value
        | .next =>
            step
            loop test body step fuel
      else return .next

variable (fuel : Nat)

mutual

def evalStmt : Stmt → Eval Completion
  | .block body => withFrame (evalBlock body)
  | .declare v => do
      evalVarDecl call v
      return .next
  | .eval e => do
      let _ ← evalExpr call e
      return .next
  | .ifThen condition body => do
      if ← evalCondition call condition then withFrame (evalBlock body) else return .next
  | .ifElse condition body other => do
      if ← evalCondition call condition then withFrame (evalBlock body)
      else withFrame (evalBlock other)
  | .whileLoop condition body =>
      loop (evalCondition call condition) (withFrame (evalBlock body)) (return) fuel
  | .forLoop v condition step body =>
      withFrame do
        evalVarDecl call v
        loop (evalCondition call condition) (withFrame (evalBlock body))
          (do let _ ← evalExpr call step) fuel
  | .switch scrutinee cases _ => do
      let value ← evalConverted call scrutinee
      evalCases value cases
  | .ret none => return .returned none
  | .ret (some value) => return .returned (some (← evalConverted call value))

def evalBlock : List Stmt → Eval Completion
  | [] => return .next
  | s :: rest => do
      match ← evalStmt s with
      | .returned value => return .returned value
      | .next => evalBlock rest

def evalCases (scrutinee : Literal) : List Case → Eval Completion
  | [] => return .next
  | .mk value test _ body :: rest => do
      let w ← evalConverted call value
      if ← Stateful.ofExcept (compare test scrutinee w) then withFrame (evalBlock body)
      else evalCases scrutinee rest

end

end

/-! ## Calls -/

def bindParameters (frame : Frame Variable) : List VarDecl → List Literal → Frame Variable
  | v :: parameters, a :: arguments =>
      bindParameters ((v.name, ⟨[], #[a]⟩) :: frame) parameters arguments
  | _, _ => frame

/-- Runs the body of a function. It sees its own frame and the globals; the caller's locals wait. -/
def inFunction (parameters : Frame Variable) (body : Eval Completion) : Eval (Option Literal) :=
  Stateful.ofFn fun env =>
    let (result, t) := body.exec ⟨[parameters], env.globals⟩
    (result.map Completion.value, { env with globals := t.globals })

def function? (ds : List Decl) (name : String) : Option FnDecl :=
  ds.findSome? fun
    | .function f => if f.name = name then some f else none
    | .global _ => none

/-- Calls a function by name, with so many levels of depth left. -/
def evalCall (ds : List Decl) (fuel : Nat) : Nat → String → List Literal → Eval (Option Literal)
  | 0, _, _ => throw (.fault (.callDepth Machine.maxDepth))
  | levels + 1, name, arguments =>
      match function? ds name with
      | none => throw .stuck
      | some f =>
          if arguments.length = f.parameters.length then
            inFunction (bindParameters [] f.parameters arguments)
              (evalBlock (evalCall ds fuel levels) fuel f.body)
          else throw .stuck

/-- A global holds its initial value in every element, or zeros. -/
def initialVariable (g : Global) : Variable where
  sizes := g.dimensions.map Int64.ofNat
  cell := Array.replicate g.length (g.initializer.getD (Literal.initial g.ty))

/-- The globals before the first call, in the order of their declarations. -/
def initialGlobals (ds : List Decl) : Frame Variable :=
  ds.filterMap fun
    | .global g => some (g.name, initialVariable g)
    | .function _ => none

end Semantics

end ImpLower
