/-!
# Primitive types

The nine types of the language. The numeric ones are totally ordered by `rank`, and two of them
always have a common type: the one of higher rank. Every other type is comparable with itself only.
-/

namespace ImpLower

inductive Ty where
  | void
  | short
  | int
  | long
  | float
  | double
  | boolean
  | char
  | string
  deriving DecidableEq, Repr, Inhabited

namespace Ty

/-- Spelling of a type in messages and listings. -/
def name : Ty → String
  | void => "void"
  | short => "short"
  | int => "int"
  | long => "long"
  | float => "float"
  | double => "double"
  | boolean => "boolean"
  | char => "char"
  | string => "string"

def all : List Ty := [void, short, int, long, float, double, boolean, char, string]

def ofName? (s : String) : Option Ty :=
  all.find? (·.name = s)

/-- The signed integer family. Booleans and characters are stored as integers but take no part
in integer conversions. -/
def isInteger : Ty → Bool
  | short | int | long => true
  | _ => false

def isFloat : Ty → Bool
  | float | double => true
  | _ => false

/-- Types that arithmetic accepts. -/
def isNumeric (ty : Ty) : Bool :=
  ty.isInteger || ty.isFloat

/-- The numeric types in ascending rank. -/
def numeric : List Ty := [short, int, long, float, double]

/-- Place in the widening order; only numeric types have one. -/
def rank : Ty → Option Nat
  | short => some 0
  | int => some 1
  | long => some 2
  | float => some 3
  | double => some 4
  | _ => none

/-- Width in bits of the stored value; `void` and `string` have none. -/
def bitWidth : Ty → Option Nat
  | boolean => some 1
  | char => some 8
  | short => some 16
  | int | float => some 32
  | long | double => some 64
  | void | string => none

/-- The common type of two types: either of them if they agree, else the numeric one of higher
rank. -/
def join (a b : Ty) : Option Ty :=
  if a = b then some a
  else
    match a.rank, b.rank with
    | some i, some j => some (if j ≤ i then a else b)
    | _, _ => none

theorem mem_all (ty : Ty) : ty ∈ all := by
  cases ty <;> decide

theorem isNumeric_eq_isSome_rank (ty : Ty) : ty.isNumeric = ty.rank.isSome := by
  cases ty <;> rfl

theorem mem_numeric_iff (ty : Ty) : ty ∈ numeric ↔ ty.isNumeric = true := by
  cases ty <;> decide

theorem join_self (ty : Ty) : ty.join ty = some ty := by
  simp [join]

theorem join_comm (a b : Ty) : a.join b = b.join a := by
  cases a <;> cases b <;> rfl

end Ty

end ImpLower
