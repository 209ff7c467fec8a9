import ImpLower.Construct
import ImpLower.Operator
import ImpLower.Scope

/-!
# Diagnostics

A diagnostic is a cause and the construct it was found in. Each cause has a name, a wording and, where
the reader can do something about it, a tip.
-/

namespace ImpLower

/-- What is wrong with a program, or with the emitter it is lowered through. -/
inductive Cause where
  | redeclaration (name : String)
  | undeclared (name : String)
  | typeMismatch (expected received : Ty)
  | arityMismatch (function : String) (expected received : Nat)
  | dimensionMismatch (name : String) (declared accessed : Nat)
  | nonBooleanCondition (received : Ty)
  | notAVariable (name : String)
  | notAFunction (name : String)
  | nonConstantGlobal (name : String)
  | arrayInitializer (name : String)
  | arrayTooLarge (name : String)
  | invalidParameter (function parameter : String)
  | missingReturn (function : String)
  | returnOutsideFunction
  | notChecked
  | scopeUnderflow
  | backend (message : String)
  deriving DecidableEq, Repr

structure Diagnostic where
  cause : Cause
  site : Construct
  deriving DecidableEq, Repr

namespace Cause

def name : Cause → String
  | redeclaration .. => "Redeclaration"
  | undeclared .. => "Undeclared"
  | typeMismatch .. => "TypeMismatch"
  | arityMismatch .. => "ArityMismatch"
  | dimensionMismatch .. => "DimensionMismatch"
  | nonBooleanCondition .. => "NonBooleanCondition"
  | notAVariable .. => "NotAVariable"
  | notAFunction .. => "NotAFunction"
  | nonConstantGlobal .. => "NonConstantGlobal"
  | arrayInitializer .. => "ArrayInitializer"
  | arrayTooLarge .. => "ArrayTooLarge"
  | invalidParameter .. => "InvalidParameter"
  | missingReturn .. => "MissingReturn"
  | returnOutsideFunction => "ReturnOutsideFunction"
  | notChecked => "NotValidated"
  | scopeUnderflow => "ScopeUnderflow"
  | backend .. => "Backend"

/-- Wording of a cause; names in it are quoted. -/
def text : Cause → String
  | redeclaration name => Text.quoted name ++ " already declared in this scope"
  | undeclared name => Text.quoted name ++ " not declared"
  | typeMismatch expected received =>
      s!"types do not match: expected {expected.name}, received {received.name}"
  | arityMismatch function expected received =>
      Text.quoted function ++ s!" expects {expected} arguments, received {received}"
  | dimensionMismatch name declared accessed =>
      Text.quoted name ++ s!" has {declared} dimensions, accessed with {accessed}"
  | nonBooleanCondition received => s!"condition must be boolean, received {received.name}"
  | notAVariable name => Text.quoted name ++ " is not a variable"
  | notAFunction name => Text.quoted name ++ " is not a function"
  | nonConstantGlobal name => "global " ++ Text.quoted name ++ " has a non-constant initializer"
  | arrayInitializer name => "array " ++ Text.quoted name ++ " cannot have an initializer"
  | arrayTooLarge name => "array " ++ Text.quoted name ++ " has too many elements"
  | invalidParameter function parameter =>
      "parameter " ++ Text.quoted parameter ++ " of " ++ Text.quoted function ++
        " must be a plain scalar"
  | missingReturn function =>
      "function " ++ Text.quoted function ++ " does not return on every path"
  | returnOutsideFunction => "return outside of a function"
  | notChecked => "program generated before it was validated"
  | scopeUnderflow => "attempted to leave the global scope"
  | backend message => "backend error: " ++ message

/-- What the reader may do about a cause; names in it stand as they are. -/
def tip : Cause → Option String
  | redeclaration name =>
      some s!"`{name}` is already declared in this block, pick another name or remove one declaration"
  | undeclared name => some s!"`{name}` must be declared before it is used"
  | typeMismatch expected received =>
      some s!"Expected type `{expected.name}`, received `{received.name}`"
  | arityMismatch function expected received =>
      some s!"`{function}` takes {expected} arguments, received {received}"
  | dimensionMismatch name declared accessed =>
      some s!"`{name}` has {declared} dimensions but is indexed {accessed} times"
  | nonBooleanCondition received =>
      some s!"Conditions must be `boolean`, received `{received.name}`; compare the value instead"
  | notAVariable name => some s!"`{name}` is a function, call it instead"
  | notAFunction name => some s!"`{name}` is a variable and cannot be called"
  | nonConstantGlobal name => some s!"Global `{name}` can only be initialized with constant values"
  | arrayInitializer name => some s!"Assign the elements of `{name}` one by one after declaring it"
  | arrayTooLarge name =>
      some s!"The dimensions of `{name}` multiply to more elements than can be addressed"
  | invalidParameter _ parameter =>
      some s!"Parameter `{parameter}` must be a scalar without a default value"
  | missingReturn function => some s!"Add a `return` at the end of `{function}`"
  | returnOutsideFunction | notChecked | scopeUnderflow | backend _ => none

/-- A clash of types as a mismatch. The first type counts as expected; an operator that does not
apply expects an integer. -/
def ofClash : Clash → Cause
  | .noCommonType left right => typeMismatch left right
  | .noConversion target source => typeMismatch target source
  | .noOperator _ ty => typeMismatch .long ty

def ofScopeError : Scope.Error → Cause
  | .redeclaration name => redeclaration name
  | .underflow => scopeUnderflow

end Cause

namespace Diagnostic

def message (d : Diagnostic) : String :=
  s!"{d.cause.text} (in {d.site.describe})"

/-- Three-line form: the kind with its tip, the place, the wording. -/
def report (d : Diagnostic) : String :=
  let head :=
    match d.cause.tip with
    | some tip => s!"Error: {d.cause.name} ({tip})\n"
    | none => s!"Error: {d.cause.name}\n"
  head ++ s!"-> in {d.site.describe}\n   {d.cause.text}"

/-- A refused change to a scope with no construct of its own is laid to the enclosing block. -/
def ofScopeError (e : Scope.Error) : Diagnostic :=
  ⟨.ofScopeError e, .block⟩

end Diagnostic

/-- Turns a refused change to a scope into a diagnostic at `site`. -/
def Scope.Error.diagnose (site : Construct) (e : Scope.Error) : Diagnostic :=
  ⟨.ofScopeError e, site⟩

end ImpLower
