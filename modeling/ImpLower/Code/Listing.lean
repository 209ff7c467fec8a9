import ImpLower.Code.Module
import ImpLower.Literal.Text

/-!
# Listings

The text of a module: globals first, then each function with its blocks. Branch targets are shown by
label, names as they are.
-/

namespace ImpLower.Code

/-- An operand; constants are shown with their type. -/
def Operand.text : Operand → String
  | register index => s!"%{index}"
  | constant value => value.type.name ++ " " ++ value.text
  | parameter index => s!"%arg{index}"

def Slot.text : Slot → String
  | stack index => s!"%slot{index}"
  | global index => s!"@g{index}"

def offsetText : Option Operand → String
  | some offset => s!"[{offset.text}]"
  | none => ""

def Instruction.text : Instruction → String
  | alloca slot ty length name =>
      let length :=
        match length with
        | some length => ", " ++ length.text
        | none => ""
      s!"%slot{slot} = alloca {ty.name}" ++ length ++ " ; " ++ name
  | load dest slot ty offset =>
      s!"%{dest} = load {ty.name}, {slot.text}" ++ offsetText offset
  | store slot ty offset value =>
      s!"store {ty.name} {value.text}, {slot.text}" ++ offsetText offset
  | binary dest op left right => s!"%{dest} = {op.name} {left.text}, {right.text}"
  | compare dest test left right => s!"%{dest} = cmp {test.name} {left.text}, {right.text}"
  | convert dest conversion value target =>
      s!"%{dest} = {conversion.name} {value.text} to {target.name}"
  | call dest callee arguments =>
      let dest :=
        match dest with
        | some dest => s!"%{dest} = "
        | none => ""
      let arguments := ", ".intercalate (arguments.map Operand.text)
      dest ++ s!"call @f{callee}({arguments})"

/-- Label of a block by position; a position without a block shows as a question mark. -/
def Function.labelAt (f : Function) (index : Nat) : String :=
  match f.blocks[index]? with
  | some block => block.label
  | none => "?"

def Terminator.text (f : Function) : Terminator → String
  | branch target => "br " ++ f.labelAt target
  | condBranch condition onTrue onFalse =>
      "br " ++ condition.text ++ ", " ++ f.labelAt onTrue ++ ", " ++ f.labelAt onFalse
  | switch value default cases =>
      let cases := cases.map fun (literal, block) => literal.text ++ " -> " ++ f.labelAt block
      "switch " ++ value.text ++ ", " ++ f.labelAt default ++
        " [" ++ ", ".intercalate cases ++ "]"
  | ret (some value) => "ret " ++ value.text
  | ret none => "ret void"
  | unreachable => "unreachable"

/-- A block: its label, then one indented line per instruction and one for the end. -/
def Block.text (f : Function) (b : Block) : String :=
  let last :=
    match b.terminator with
    | some terminator => terminator.text f
    | none => "; <no terminator>"
  b.label ++ ":\n" ++
    String.join (b.instructions.toList.map fun i => "  " ++ i.text ++ "\n") ++
    "  " ++ last ++ "\n"

def Function.text (f : Function) : String :=
  let parameters := ", ".intercalate (f.parameters.map Ty.name)
  "\ndefine " ++ f.result.name ++ " @" ++ f.name ++ "(" ++ parameters ++ ") \x7b\n" ++
    String.join (f.blocks.toList.map (Block.text f)) ++ "\x7d\n"

/-- A global on one line, with its length and initial value if it has them. -/
def Global.text (g : Global) (index : Nat) : String :=
  let length :=
    match g.length with
    | some length => s!" x {length}"
    | none => ""
  let initializer :=
    match g.initializer with
    | some value => " " ++ value.text
    | none => ""
  s!"@g{index} = global {g.ty.name}" ++ length ++ initializer ++ " ; " ++ g.name ++ "\n"

def Module.text (m : Module) : String :=
  "; module " ++ m.name ++ "\n" ++
    String.join (m.globals.toList.mapIdx fun index g => g.text index) ++
    String.join (m.functions.toList.map Function.text)

end ImpLower.Code
