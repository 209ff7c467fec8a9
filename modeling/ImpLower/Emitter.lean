import ImpLower.Diagnostic
import ImpLower.Literal.Basic

/-!
# Emitters

Code is produced through an emitter: a state that answers requests for instructions at an insertion
point, one basic block at a time. An emitter chooses what its values, slots, blocks, functions and
finished modules are, and may refuse any request. Lowering is written once for all of them.
-/

namespace ImpLower

/-- Why an emitter refuses a request. -/
inductive Refusal where
  | noInsertBlock
  | afterTerminator (block : String)
  | unterminated (function block : String)
  | backend (message : String)
  deriving DecidableEq, Repr

namespace Refusal

def name : Refusal → String
  | noInsertBlock => "NoInsertBlock"
  | afterTerminator _ => "AfterTerminator"
  | unterminated .. => "Unterminated"
  | backend _ => "Backend"

def message : Refusal → String
  | noInsertBlock => "no block to insert into"
  | afterTerminator block => "block " ++ Text.quoted block ++ " already has a terminator"
  | unterminated function block =>
      "block " ++ Text.quoted block ++ " in " ++ Text.quoted function ++ " has no terminator"
  | backend message => message

def cause (r : Refusal) : Cause :=
  .backend r.message

def diagnose (site : Construct) (r : Refusal) : Diagnostic :=
  ⟨r.cause, site⟩

end Refusal

/-- What can be asked of an emitter with values `V`, slots `S`, blocks `B` and functions `F`. Slots are
scalars or flat arrays; an absent offset addresses the first element. The last `name` of a request is
a hint. -/
inductive Request (V S B F : Type) where
  | addFunction (name : String) (result : Ty) (parameters : List Ty)
  | alloca (ty : Ty) (length : Option V) (name : String)
  | global (ty : Ty) (length : Option Nat) (initializer : Option Literal) (name : String)
  | load (slot : S) (ty : Ty) (offset : Option V) (name : String)
  | store (slot : S) (ty : Ty) (offset : Option V) (value : V)
  | constant (value : Literal)
  | binary (op : Operation) (left right : V) (name : String)
  | compare (test : Predicate) (left right : V) (name : String)
  | convert (conversion : Conversion) (value : V) (target : Ty) (name : String)
  | call (callee : F) (arguments : List V) (name : String)
  | branch (target : B)
  | condBranch (condition : V) (onTrue onFalse : B)
  | switch (value : V) (default : B) (cases : List (Literal × B))
  | ret (value : Option V)
  | unreachable
  | finish

/-- What a granted request answers with, for an emitter whose finished modules are `M`. A call answers
with no value when its callee returns none. -/
@[reducible] def Request.Reply {V S B F : Type} (M : Type) : Request V S B F → Type
  | addFunction .. => F
  | alloca .. => S
  | global .. => S
  | load .. => V
  | constant .. => V
  | binary .. => V
  | compare .. => V
  | convert .. => V
  | call .. => Option V
  | finish => M
  | store .. => Unit
  | branch .. => Unit
  | condBranch .. => Unit
  | switch .. => Unit
  | ret .. => Unit
  | unreachable => Unit

/-- An emitter with state `σ`. Requests may be refused, the remaining operations always succeed. Each of
them is a step of the emitter, also the two that only ask it something. -/
class Emitter (σ : Type) (V S B F M : outParam Type) where
  perform : (r : Request V S B F) → Stateful Refusal σ (r.Reply M)
  /-- Adds a block to a function under a label close to the given one. -/
  addBlock : F → String → σ → B × σ
  /-- Moves the insertion point to the end of a block. -/
  moveTo : B → σ → σ
  /-- Whether the block at the insertion point already ends in a terminator. -/
  isClosed : σ → Bool × σ
  /-- The values of the parameters of a function. -/
  parameters : F → σ → List V × σ

end ImpLower
