import ImpLower.Code.Module
import ImpLower.Emitter

/-!
# Drafts

A draft is a module under construction with an insertion point. It answers every request of an
emitter by changes made in place, one after the other; a refused request changes nothing. Closed blocks
take no further instructions, labels are made distinct from the ones they were asked for before, and
finishing checks that every block is closed and branches inside its own function.
-/

namespace ImpLower.Code

abbrev DraftRequest := Request Operand Slot BlockId Nat

/-- A module under construction. -/
structure Draft where
  module : Module
  /-- The block that instructions are added to. -/
  cursor : Option BlockId := none
  deriving DecidableEq

/-- The block position that stands for "no such function". It is the largest word, which no function
reaches. -/
def noBlock : Nat := UInt64.size - 1

/-- Whether a text reads as an unsigned word: digits, perhaps after a plus sign. -/
def isWord (text : List Char) : Bool :=
  let digits :=
    match text with
    | '+' :: rest => rest
    | other => other
  !digits.isEmpty && digits.all Char.isDigit &&
    digits.foldl (fun n c => 10 * n + (c.toNat - '0'.toNat)) 0 < UInt64.size

/-- Whether a label counts as a use of `wanted`: it is the same, or it adds a point and a word. -/
def usesLabel (wanted label : String) : Bool :=
  label = wanted ||
    match label.toList.drop wanted.length with
    | '.' :: rest => wanted.toList.isPrefixOf label.toList && isWord rest
    | _ => false

/-- The label of a new block: the wanted one, numbered by how many blocks use it already. -/
def Function.freshLabel (f : Function) (wanted : String) : String :=
  match f.blocks.countP fun b => usesLabel wanted b.label with
  | 0 => wanted
  | taken => s!"{wanted}.{taken}"

namespace Draft

def new (name : String) : Draft :=
  { module := { name } }

def function (d : Draft) (index : Nat) : Except Refusal Function :=
  match d.module.functions[index]? with
  | some f => .ok f
  | none => .error (.backend s!"unknown function #{index}")

/-- The function and the open block at the insertion point. -/
def insertionPoint (d : Draft) : Except Refusal (BlockId × Function × Block) := do
  let some cursor := d.cursor | throw .noInsertBlock
  let f ← d.function cursor.function
  let some block := f.blocks[cursor.block]? | throw .noInsertBlock
  if block.terminator.isSome then throw (.afterTerminator block.label)
  return (cursor, f, block)

/-- Work on a draft. A refusal ends it, and what was changed before stays changed. -/
abbrev Edit := Stateful Refusal Draft

def consult {α : Type} (look : Draft → Except Refusal α) : Edit α :=
  Stateful.ofFn fun d => (look d, d)

def editFunction (index : Nat) (change : Function → Function) : Edit Unit :=
  modify fun d =>
    { d with module := { d.module with functions := d.module.functions.modify index change } }

def editBlock (place : BlockId) (change : Block → Block) : Edit Unit :=
  editFunction place.function fun f => { f with blocks := f.blocks.modify place.block change }

def addInstruction (place : BlockId) (i : Instruction) : Edit Unit :=
  editBlock place fun block => { block with instructions := block.instructions.push i }

def append (i : Instruction) : Edit Unit := do
  let (cursor, _, _) ← consult insertionPoint
  addInstruction cursor i

/-- Appends an instruction that writes a fresh register. -/
def appendDef (i : Nat → Instruction) : Edit Operand := do
  let (cursor, f, _) ← consult insertionPoint
  let dest := f.registers
  editFunction cursor.function fun f => { f with registers := f.registers + 1 }
  addInstruction cursor (i dest)
  return .register dest

def appendAlloca (ty : Ty) (length : Option Operand) (name : String) : Edit Slot := do
  let (cursor, f, _) ← consult insertionPoint
  let slot := f.slots
  editFunction cursor.function fun f => { f with slots := f.slots + 1 }
  addInstruction cursor (.alloca slot ty length name)
  return .stack slot

def close (t : Terminator) : Edit Unit := do
  let (cursor, _, _) ← consult insertionPoint
  editBlock cursor fun block => { block with terminator := some t }

/-- Position of a branch target, which must lie in the function at the insertion point. -/
def branchTarget (d : Draft) (target : BlockId) : Except Refusal Nat :=
  match d.cursor with
  | none => .error .noInsertBlock
  | some cursor =>
      if cursor.function = target.function then .ok target.block
      else .error (.backend "branch target belongs to another function")

def addFunction (name : String) (result : Ty) (parameters : List Ty) : Edit Nat := do
  if ((← get).module.functionIndex? name).isSome then
    throw (.backend ("function " ++ Text.quoted name ++ " defined twice"))
  modify fun d =>
    let functions := d.module.functions.push { name, result, parameters }
    { d with module := { d.module with functions } }
  return (← get).module.functions.size - 1

def addGlobal (g : Global) : Edit Slot := do
  modify fun d => { d with module := { d.module with globals := d.module.globals.push g } }
  return .global ((← get).module.globals.size - 1)

/-- Appends a call; it has a result unless the callee returns none. -/
def appendCall (callee : Nat) (arguments : List Operand) : Edit (Option Operand) := do
  let f ← consult (·.function callee)
  if f.result = .void then
    append (.call none callee arguments)
    return none
  else
    return some (← appendDef fun dest => .call (some dest) callee arguments)

def verifyBlock (f : Function) (block : Block) : Except Refusal Unit :=
  match block.terminator with
  | none => .error (.unterminated f.name block.label)
  | some t =>
      match t.successors.find? (f.blocks.size ≤ ·) with
      | none => .ok ()
      | some target =>
          .error (.backend (Text.quoted block.label ++ " in " ++ Text.quoted f.name ++
            s!" branches to missing block #{target}"))

/-- The module, if every block is closed and branches to blocks of its own function. -/
def complete (d : Draft) : Except Refusal Module := do
  d.module.functions.toList.forM fun f => f.blocks.toList.forM (verifyBlock f)
  return d.module

def perform : (r : DraftRequest) → Edit (r.Reply Module)
  | .addFunction name result parameters => addFunction name result parameters
  | .alloca ty length name => appendAlloca ty length name
  | .global ty length initializer name => addGlobal { name, ty, length, initializer }
  | .load slot ty offset _ => appendDef (.load · slot ty offset)
  | .store slot ty offset value => append (.store slot ty offset value)
  | .constant value => pure (.constant value)
  | .binary op left right _ => appendDef (.binary · op left right)
  | .compare test left right _ => appendDef (.compare · test left right)
  | .convert conversion value target _ => appendDef (.convert · conversion value target)
  | .call callee arguments _ => appendCall callee arguments
  | .branch target => do
      let target ← consult (·.branchTarget target)
      close (.branch target)
  | .condBranch condition onTrue onFalse => do
      let onTrue ← consult (·.branchTarget onTrue)
      let onFalse ← consult (·.branchTarget onFalse)
      close (.condBranch condition onTrue onFalse)
  | .switch value default cases => do
      let default ← consult (·.branchTarget default)
      let cases ← consult fun d => cases.mapM fun (literal, block) =>
        return (literal, ← d.branchTarget block)
      close (.switch value default cases)
  | .ret value => close (.ret value)
  | .unreachable => close .unreachable
  | .finish => consult complete

def setFunction (d : Draft) (index : Nat) (f : Function) : Draft :=
  { d with module := { d.module with functions := d.module.functions.setIfInBounds index f } }

def addBlock (d : Draft) (index : Nat) (label : String) : BlockId × Draft :=
  match d.module.functions[index]? with
  | none => (⟨index, noBlock⟩, d)
  | some f =>
      let blocks := f.blocks.push { label := f.freshLabel label }
      (⟨index, blocks.size - 1⟩, d.setFunction index { f with blocks })

def isClosed (d : Draft) : Bool :=
  match d.cursor with
  | none => false
  | some cursor =>
      match d.module.functions[cursor.function]? with
      | none => false
      | some f =>
          match f.blocks[cursor.block]? with
          | none => false
          | some block => block.terminator.isSome

def parameters (d : Draft) (index : Nat) : List Operand :=
  match d.module.functions[index]? with
  | none => []
  | some f => (List.range f.parameters.length).map Operand.parameter

instance : Emitter Draft Operand Slot BlockId Nat Module where
  perform := perform
  addBlock index label d := d.addBlock index label
  moveTo block d := { d with cursor := some block }
  isClosed d := (d.isClosed, d)
  parameters index d := (d.parameters index, d)

end Draft

end ImpLower.Code
