import ImpLower.Ty

/-!
# Operators and what they mean at a type

A surface operator is arithmetic, bitwise or a relation. At a given type it selects an operation or
a predicate of the integer or the floating-point family, and a value moves between two types by one
of seven conversions. Each selection either succeeds or names the types that clash.
-/

namespace ImpLower

inductive Arith where
  | add
  | sub
  | mul
  | div
  | rem
  deriving DecidableEq, Repr

inductive Bitwise where
  | and
  | or
  | xor
  deriving DecidableEq, Repr

inductive Relation where
  | lt
  | gt
  | le
  | ge
  | eq
  | ne
  deriving DecidableEq, Repr

/-- Binary operators of the surface language. -/
inductive BinOp where
  | arith (op : Arith)
  | bitwise (op : Bitwise)
  | relation (op : Relation)
  deriving DecidableEq, Repr

/-- A value-producing operation, fixed to a family of types. -/
inductive Operation where
  | int (op : Arith)
  | float (op : Arith)
  | bitwise (op : Bitwise)
  deriving DecidableEq, Repr

/-- A comparison: signed on integers, ordered on floats (false as soon as one side is NaN). -/
inductive Predicate where
  | int (op : Relation)
  | float (op : Relation)
  deriving DecidableEq, Repr

/-- How a value moves into a slot of another type. -/
inductive Conversion where
  | identity
  | floatTruncate
  | floatExtend
  | intTruncate
  | intSignExtend
  | signedIntToFloat
  | floatToSignedInt
  deriving DecidableEq, Repr

/-- Why a selection at some types fails. -/
inductive Clash where
  | noCommonType (left right : Ty)
  | noConversion (target source : Ty)
  | noOperator (op : BinOp) (ty : Ty)
  deriving DecidableEq, Repr

namespace Arith

def all : List Arith := [add, sub, mul, div, rem]

def symbol : Arith → String
  | add => "+"
  | sub => "-"
  | mul => "*"
  | div => "/"
  | rem => "%"

end Arith

namespace Bitwise

def all : List Bitwise := [and, or, xor]

def symbol : Bitwise → String
  | and => "&"
  | or => "|"
  | xor => "^"

end Bitwise

namespace Relation

def all : List Relation := [lt, gt, le, ge, eq, ne]

def symbol : Relation → String
  | lt => "<"
  | gt => ">"
  | le => "<="
  | ge => ">="
  | eq => "=="
  | ne => "!="

end Relation

namespace BinOp

def symbol : BinOp → String
  | arith op => op.symbol
  | bitwise op => op.symbol
  | relation op => op.symbol

def all : List BinOp :=
  Arith.all.map arith ++ Bitwise.all.map bitwise ++ Relation.all.map relation

def ofSymbol? (s : String) : Option BinOp :=
  all.find? (·.symbol = s)

def isRelational : BinOp → Bool
  | relation _ => true
  | _ => false

def isBitwise : BinOp → Bool
  | bitwise _ => true
  | _ => false

end BinOp

namespace Operation

/-- Mnemonic in listings and messages. -/
def name : Operation → String
  | int .add => "IntAdd"
  | int .sub => "IntSub"
  | int .mul => "IntMul"
  | int .div => "IntSignedDiv"
  | int .rem => "IntSignedRem"
  | float .add => "FloatAdd"
  | float .sub => "FloatSub"
  | float .mul => "FloatMul"
  | float .div => "FloatDiv"
  | float .rem => "FloatRem"
  | bitwise .and => "And"
  | bitwise .or => "Or"
  | bitwise .xor => "Xor"

def all : List Operation :=
  Arith.all.map int ++ Arith.all.map float ++ Bitwise.all.map bitwise

def ofName? (s : String) : Option Operation :=
  all.find? (·.name = s)

end Operation

namespace Predicate

def name : Predicate → String
  | int .eq => "IntEq"
  | int .ne => "IntNe"
  | int .lt => "IntSlt"
  | int .le => "IntSle"
  | int .gt => "IntSgt"
  | int .ge => "IntSge"
  | float .eq => "FloatOeq"
  | float .ne => "FloatOne"
  | float .lt => "FloatOlt"
  | float .le => "FloatOle"
  | float .gt => "FloatOgt"
  | float .ge => "FloatOge"

def all : List Predicate :=
  Relation.all.map int ++ Relation.all.map float

def ofName? (s : String) : Option Predicate :=
  all.find? (·.name = s)

end Predicate

namespace Conversion

def name : Conversion → String
  | identity => "Identity"
  | floatTruncate => "FloatTruncate"
  | floatExtend => "FloatExtend"
  | intTruncate => "IntTruncate"
  | intSignExtend => "IntSignExtend"
  | signedIntToFloat => "SignedIntToFloat"
  | floatToSignedInt => "FloatToSignedInt"

def all : List Conversion :=
  [identity, floatTruncate, floatExtend, intTruncate, intSignExtend, signedIntToFloat,
    floatToSignedInt]

def ofName? (s : String) : Option Conversion :=
  all.find? (·.name = s)

end Conversion

namespace Clash

def name : Clash → String
  | noCommonType .. => "TypeMismatch"
  | noConversion .. => "UnsupportedConversion"
  | noOperator .. => "UnsupportedOperator"

def message : Clash → String
  | noCommonType left right => s!"incompatible types {left.name} and {right.name}"
  | noConversion target source => s!"cannot convert {source.name} to {target.name}"
  | noOperator op ty => s!"operator {op.symbol} is not defined for {ty.name}"

end Clash

/-- The common type of two operands, or the pair that has none. -/
def commonType (left right : Ty) : Except Clash Ty :=
  match left.join right with
  | some ty => .ok ty
  | none => .error (.noCommonType left right)

/-- The conversion from a `source`-typed value into a `target`-typed slot. Within a family it extends
when the target is the common type and truncates otherwise; across families only integers and floats
convert. -/
def Conversion.into (target source : Ty) : Except Clash Conversion :=
  if target = source then .ok .identity
  else if target.isFloat && source.isFloat then
    .ok (if target.join source = some target then .floatExtend else .floatTruncate)
  else if target.isInteger && source.isInteger then
    .ok (if target.join source = some target then .intSignExtend else .intTruncate)
  else if target.isFloat && source.isInteger then .ok .signedIntToFloat
  else if target.isInteger && source.isFloat then .ok .floatToSignedInt
  else .error (.noConversion target source)

/-- The operation an operator means at `ty`: arithmetic at numeric types, bitwise operators at
integers only, relations nowhere. -/
def BinOp.operationAt (op : BinOp) (ty : Ty) : Except Clash Operation :=
  match op with
  | .arith a =>
      if ty.isFloat then .ok (.float a)
      else if ty.isInteger then .ok (.int a)
      else .error (.noOperator op ty)
  | .bitwise b => if ty.isInteger then .ok (.bitwise b) else .error (.noOperator op ty)
  | .relation _ => .error (.noOperator op ty)

/-- The comparison a relation means at `ty`. Booleans and characters compare as integers. -/
def BinOp.predicateAt (op : BinOp) (ty : Ty) : Except Clash Predicate :=
  match op with
  | .relation r =>
      if ty.isFloat then .ok (.float r)
      else if ty.isInteger || ty = .boolean || ty = .char then .ok (.int r)
      else .error (.noOperator op ty)
  | _ => .error (.noOperator op ty)

theorem Conversion.into_self (ty : Ty) : Conversion.into ty ty = .ok .identity := by
  simp [Conversion.into]

theorem Conversion.eq_of_into_eq_identity {target source : Ty}
    (h : Conversion.into target source = .ok .identity) : target = source := by
  unfold Conversion.into at h
  repeat' split at h
  all_goals simp_all

end ImpLower
