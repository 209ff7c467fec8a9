import ImpLower.Code.Module
import ImpLower.Lower.Stmt
import ImpLower.Proofs.Induction
import ImpLower.Proofs.Typed.Annotation

/-!
# The layout of lowered code

Which code a typed phrase has in a function, said without the lowering that puts it there. An
expression has a list of instructions over consecutive registers. A statement has a place where it
starts and, unless it always returns, a place where control comes out; in between it owns whole
blocks. The phrases are well annotated throughout.
-/

namespace ImpLower.Code

open Typed

/-- What names stand for while code for a module is laid out. -/
abbrev Names := Scope (Storage Operand Slot Nat)

/-- Result and parameter types of the functions of a module, by position. -/
abbrev Signatures := Nat → Option (Ty × List Ty)

/-- What the checker knows a name as. -/
def symbolOf (sig : Signatures) : Storage Operand Slot Nat → Symbol
  | .var _ ty sizes => .var ty sizes.length
  | .fn g =>
      match sig g with
      | some (result, parameters) => .fn result parameters
      | none => .fn .void []

/-! ## Expressions -/

/-- Multiplies an offset by sizes, from register `r` on. -/
inductive ScaleCode : Operand → List Operand → Nat → List Instruction → Operand → Nat → Prop
  | nil {o : Operand} {r : Nat} : ScaleCode o [] r [] o r
  | cons {o n o' : Operand} {ns : List Operand} {r r' : Nat} {is : List Instruction}
      (tail : ScaleCode (.register r) ns (r + 1) is o' r') :
      ScaleCode o (n :: ns) r (.binary r (.int .mul) o n :: is) o' r'

/-- The number of elements of an array with the given sizes. -/
inductive LengthCode : List Operand → Nat → List Instruction → Option Operand → Nat → Prop
  | scalar {r : Nat} : LengthCode [] r [] none r
  | array {n o : Operand} {ns : List Operand} {r r' : Nat} {is : List Instruction}
      (scale : ScaleCode n ns r is o r') : LengthCode (n :: ns) r is (some o) r'

/-- Adds an index to the offset of the dimensions before it. -/
inductive IndexCode (n i : Operand) :
    Option Operand → Nat → List Instruction → Operand → Nat → Prop
  | first {r : Nat} : IndexCode n i none r [] i r
  | next {o : Operand} {r : Nat} :
      IndexCode n i (some o) r
        [.binary r (.int .mul) o n, .binary (r + 1) (.int .add) (.register r) i]
        (.register (r + 1)) (r + 2)

mutual

/-- `ExprCode sig sc e r is v r'`: with `r` the next free register, the expression has the
instructions `is`, leaves its value in `v` and the next free register is `r'`. -/
inductive ExprCode (sig : Signatures) (sc : Names) :
    Expr → Nat → List Instruction → Option Operand → Nat → Prop
  | literal {value : Literal} {r : Nat} :
      ExprCode sig sc (.literal value) r [] (some (.constant value)) r
  | var {name : String} {ty : Ty} {indices : List Converted} {slot : Slot} {sizes : List Operand}
      {r r' : Nat} {is : List Instruction} {o : Option Operand}
      (bound : sc.lookup name = some (.var slot ty sizes))
      (offset : OffsetCode sig sc indices sizes none r is o r') :
      ExprCode sig sc (.var name ty indices) r (is ++ [.load r' slot ty o])
        (some (.register r')) (r' + 1)
  | assign {name : String} {ty : Ty} {indices : List Converted} {value : Converted} {slot : Slot}
      {sizes : List Operand} {r r₁ r' : Nat} {is js : List Instruction} {v : Operand}
      {o : Option Operand} (assigned : ConvertedCode sig sc value r is v r₁)
      (target : value.target = ty) (bound : sc.lookup name = some (.var slot ty sizes))
      (offset : OffsetCode sig sc indices sizes none r₁ js o r') :
      ExprCode sig sc (.assign name ty indices value) r (is ++ js ++ [.store slot ty o v])
        (some v) r'
  | negate {op : Operation} {zero : Literal} {operand : Expr} {r r' : Nat}
      {is : List Instruction} {v : Operand} (start : Literal.zero operand.ty = some zero)
      (selected : (BinOp.arith .sub).operationAt operand.ty = .ok op)
      (code : ExprCode sig sc operand r is (some v) r') :
      ExprCode sig sc (.negate op zero operand) r (is ++ [.binary r' op (.constant zero) v])
        (some (.register r')) (r' + 1)
  | arith {op : Operation} {left right : Converted} {r r₁ r' : Nat} {is js : List Instruction}
      {v w : Operand} (same : right.target = left.target)
      (selected : op.surface.operationAt left.target = .ok op)
      (codeLeft : ConvertedCode sig sc left r is v r₁)
      (codeRight : ConvertedCode sig sc right r₁ js w r') :
      ExprCode sig sc (.arith op left right) r (is ++ js ++ [.binary r' op v w])
        (some (.register r')) (r' + 1)
  | compare {test : Predicate} {left right : Converted} {r r₁ r' : Nat}
      {is js : List Instruction} {v w : Operand} (same : right.target = left.target)
      (selected : test.surface.predicateAt left.target = .ok test)
      (codeLeft : ConvertedCode sig sc left r is v r₁)
      (codeRight : ConvertedCode sig sc right r₁ js w r') :
      ExprCode sig sc (.compare test left right) r (is ++ js ++ [.compare r' test v w])
        (some (.register r')) (r' + 1)
  | call {callee : String} {result : Ty} {arguments : List Converted} {g r r' : Nat}
      {is : List Instruction} {vs : List Operand} (bound : sc.lookup callee = some (.fn g))
      (known : sig g = some (result, arguments.map Converted.target)) (valued : result ≠ .void)
      (code : ArgumentsCode sig sc arguments r is vs r') :
      ExprCode sig sc (.call callee result arguments) r (is ++ [.call (some r') g vs])
        (some (.register r')) (r' + 1)
  | callVoid {callee : String} {arguments : List Converted} {g r r' : Nat}
      {is : List Instruction} {vs : List Operand} (bound : sc.lookup callee = some (.fn g))
      (known : sig g = some (.void, arguments.map Converted.target))
      (code : ArgumentsCode sig sc arguments r is vs r') :
      ExprCode sig sc (.call callee .void arguments) r (is ++ [.call none g vs]) none r'

/-- A value and its conversion. -/
inductive ConvertedCode (sig : Signatures) (sc : Names) :
    Converted → Nat → List Instruction → Operand → Nat → Prop
  | kept {c : Converted} {r r' : Nat} {is : List Instruction} {v : Operand} (fits : c.Fits)
      (same : c.conversion = .identity) (code : ExprCode sig sc c.value r is (some v) r') :
      ConvertedCode sig sc c r is v r'
  | moved {c : Converted} {r r' : Nat} {is : List Instruction} {v : Operand} (fits : c.Fits)
      (moves : c.conversion ≠ .identity) (code : ExprCode sig sc c.value r is (some v) r') :
      ConvertedCode sig sc c r (is ++ [.convert r' c.conversion v c.target]) (.register r')
        (r' + 1)

inductive ArgumentsCode (sig : Signatures) (sc : Names) :
    List Converted → Nat → List Instruction → List Operand → Nat → Prop
  | nil {r : Nat} : ArgumentsCode sig sc [] r [] [] r
  | cons {c : Converted} {rest : List Converted} {r r₁ r' : Nat} {is js : List Instruction}
      {v : Operand} {vs : List Operand} (head : ConvertedCode sig sc c r is v r₁)
      (tail : ArgumentsCode sig sc rest r₁ js vs r') :
      ArgumentsCode sig sc (c :: rest) r (is ++ js) (v :: vs) r'

/-- The row-major offset of an access, given the offset of the dimensions already passed. -/
inductive OffsetCode (sig : Signatures) (sc : Names) : List Converted → List Operand →
    Option Operand → Nat → List Instruction → Option Operand → Nat → Prop
  | whole {sizes : List Operand} {r : Nat} : OffsetCode sig sc [] sizes none r [] none r
  | scaled {sizes : List Operand} {o o' : Operand} {r r' : Nat} {is : List Instruction}
      (scale : ScaleCode o sizes r is o' r') :
      OffsetCode sig sc [] sizes (some o) r is (some o') r'
  | cons {c : Converted} {rest : List Converted} {n v o : Operand} {sizes : List Operand}
      {before after : Option Operand} {r r₁ r₂ r' : Nat} {is js ks : List Instruction}
      (integer : c.IsIndex) (head : ConvertedCode sig sc c r is v r₁)
      (step : IndexCode n v before r₁ js o r₂)
      (tail : OffsetCode sig sc rest sizes (some o) r₂ ks after r') :
      OffsetCode sig sc (c :: rest) (n :: sizes) before r (is ++ js ++ ks) after r'

end

/-! ## Variables -/

/-- What a declared variable is known as: its slot and the values of its sizes. -/
def bindStack (sc : Names) (v : VarDecl) (slot : Nat) (sizes : List Operand) : Names :=
  sc.push v.name (.var (.stack slot) v.ty sizes)

/-- Allocation of a local variable in slot `c`, with its initial value if it has one. -/
inductive VarCode (sig : Signatures) (sc : Names) (v : VarDecl) (c r : Nat) :
    List Instruction → List Operand → Nat → Prop
  | plain {r₁ r' : Nat} {is js : List Instruction} {sizes : List Operand}
      {length : Option Operand} (storable : v.ty ≠ .void) (bare : v.initializer = none)
      (indices : ∀ c ∈ v.dimensions, c.IsIndex)
      (dims : ArgumentsCode sig sc v.dimensions r is sizes r₁)
      (count : LengthCode sizes r₁ js length r') :
      VarCode sig sc v c r (is ++ js ++ [.alloca c v.ty length v.name]) sizes r'
  | initialized {r' : Nat} {initial : Converted} {is : List Instruction} {value : Operand}
      (storable : v.ty ≠ .void) (given : v.initializer = some initial)
      (scalar : v.dimensions = []) (target : initial.target = v.ty)
      (code : ConvertedCode sig (bindStack sc v c []) initial r is value r') :
      VarCode sig sc v c r
        (.alloca c v.ty none v.name :: is ++ [.store (.stack c) v.ty none value]) [] r'

/-! ## Places -/

/-- A position in a function: a block and an index into its instructions. -/
structure Place where
  block : Nat
  index : Nat
  deriving DecidableEq

def Place.skip (p : Place) (n : Nat) : Place :=
  { p with index := p.index + n }

/-- The function holds the instructions at the place. -/
def HostedAt (F : Function) (p : Place) (is : List Instruction) : Prop :=
  ∃ B, F.blocks[p.block]? = some B ∧ ∀ k i, is[k]? = some i → B.instructions[p.index + k]? = some i

def EndsAt (F : Function) (p : Place) (t : Terminator) : Prop :=
  ∃ B, F.blocks[p.block]? = some B ∧ B.instructions.size = p.index ∧ B.terminator = some t

/-- The next free register and the next free slot. -/
structure Counters where
  registers : Nat
  slots : Nat
  deriving DecidableEq

/-- Control that comes out of a phrase goes on to the block. -/
def Joins (F : Function) (exit : Option Place) (target : Nat) : Prop :=
  ∀ p, exit = some p → EndsAt F p (.branch target)

/-! ## Statements -/

mutual

/-- `StmtCode sig F result sc s p k sc' exit k'`: in a function `F` with the given result, the code
of `s` starts at `p`, with `k` the next free register and slot, and leaves through `exit`, with `k'`
free from there on. The names are `sc` before the statement and `sc'` after it. -/
inductive StmtCode (sig : Signatures) (F : Function) (result : Ty) :
    Names → Stmt → Place → Counters → Names → Option Place → Counters → Prop
  | block {sc : Names} {body : List Stmt} {p : Place} {k k' : Counters} {exit : Option Place}
      (inside : BlockCode sig F result sc.enter body p k exit k') :
      StmtCode sig F result sc (.block body) p k sc exit k'
  | declare {sc : Names} {v : VarDecl} {p : Place} {r c r' : Nat} {is : List Instruction}
      {sizes : List Operand} (code : VarCode sig sc v c r is sizes r') (hosted : HostedAt F p is) :
      StmtCode sig F result sc (.declare v) p ⟨r, c⟩ (bindStack sc v c sizes)
        (some (p.skip is.length)) ⟨r', c + 1⟩
  | eval {sc : Names} {e : Expr} {p : Place} {r c r' : Nat} {is : List Instruction}
      {v : Option Operand} (code : ExprCode sig sc e r is v r') (hosted : HostedAt F p is) :
      StmtCode sig F result sc (.eval e) p ⟨r, c⟩ sc (some (p.skip is.length)) ⟨r', c⟩
  | ifThen {sc : Names} {condition : Expr} {body : List Stmt} {p : Place} {r c r₁ t e : Nat}
      {k' : Counters} {is : List Instruction} {v : Operand} {exit : Option Place}
      (boolean : condition.ty = .boolean) (code : ExprCode sig sc condition r is (some v) r₁)
      (hosted : HostedAt F p is) (test : EndsAt F (p.skip is.length) (.condBranch v t e))
      (inside : BlockCode sig F result sc.enter body ⟨t, 0⟩ ⟨r₁, c⟩ exit k')
      (joins : Joins F exit e) :
      StmtCode sig F result sc (.ifThen condition body) p ⟨r, c⟩ sc (some ⟨e, 0⟩) k'
  | ifElse {sc : Names} {condition : Expr} {body other : List Stmt} {p : Place}
      {r c r₁ t f e : Nat} {k₁ k' : Counters} {is : List Instruction} {v : Operand}
      {exit₁ exit₂ : Option Place} (boolean : condition.ty = .boolean)
      (code : ExprCode sig sc condition r is (some v) r₁) (hosted : HostedAt F p is)
      (test : EndsAt F (p.skip is.length) (.condBranch v t f))
      (inside : BlockCode sig F result sc.enter body ⟨t, 0⟩ ⟨r₁, c⟩ exit₁ k₁)
      (joins : Joins F exit₁ e)
      (otherwise : BlockCode sig F result sc.enter other ⟨f, 0⟩ k₁ exit₂ k')
      (joinsToo : Joins F exit₂ e) :
      StmtCode sig F result sc (.ifElse condition body other) p ⟨r, c⟩ sc
        (if exit₁.isSome || exit₂.isSome then some ⟨e, 0⟩ else none) k'
  | forLoop {sc : Names} {v : VarDecl} {condition step : Expr} {body : List Stmt} {p : Place}
      {r c r₁ r₂ r₃ h b n e : Nat} {k₁ : Counters} {is js ks : List Instruction}
      {sizes : List Operand} {w : Operand} {x : Option Operand} {exit : Option Place}
      (declared : VarCode sig sc.enter v c r is sizes r₁) (hosted : HostedAt F p is)
      (enters : EndsAt F (p.skip is.length) (.branch h)) (boolean : condition.ty = .boolean)
      (code : ExprCode sig (bindStack sc.enter v c sizes) condition r₁ js (some w) r₂)
      (hostedTest : HostedAt F ⟨h, 0⟩ js)
      (test : EndsAt F ⟨h, js.length⟩ (.condBranch w b e))
      (inside : BlockCode sig F result (bindStack sc.enter v c sizes).enter body ⟨b, 0⟩
        ⟨r₂, c + 1⟩ exit k₁)
      (joins : Joins F exit n)
      (next : ExprCode sig (bindStack sc.enter v c sizes) step k₁.registers ks x r₃)
      (hostedStep : HostedAt F ⟨n, 0⟩ ks) (again : EndsAt F ⟨n, ks.length⟩ (.branch h)) :
      StmtCode sig F result sc (.forLoop v condition step body) p ⟨r, c⟩ sc (some ⟨e, 0⟩)
        ⟨r₃, k₁.slots⟩
  | whileLoop {sc : Names} {condition : Expr} {body : List Stmt} {p : Place}
      {r c r₁ h b e : Nat} {k' : Counters} {is : List Instruction} {v : Operand}
      {exit : Option Place} (enters : EndsAt F p (.branch h)) (boolean : condition.ty = .boolean)
      (code : ExprCode sig sc condition r is (some v) r₁) (hosted : HostedAt F ⟨h, 0⟩ is)
      (test : EndsAt F ⟨h, is.length⟩ (.condBranch v b e))
      (inside : BlockCode sig F result sc.enter body ⟨b, 0⟩ ⟨r₁, c⟩ exit k')
      (joins : Joins F exit h) :
      StmtCode sig F result sc (.whileLoop condition body) p ⟨r, c⟩ sc (some ⟨e, 0⟩) k'
  | table {sc : Names} {scrutinee : Converted} {cases : List Case} {test : Predicate}
      {p : Place} {r c r₁ e : Nat} {k' : Counters} {is : List Instruction} {v : Operand}
      {blocks : List Nat} (code : ConvertedCode sig sc scrutinee r is v r₁)
      (hosted : HostedAt F p is) (integer : scrutinee.target.isInteger = true)
      (selected : (BinOp.relation .eq).predicateAt scrutinee.target = .ok test)
      (constants : ∀ c ∈ cases, c.constant.isSome = true)
      (jump : EndsAt F (p.skip is.length)
        (.switch v e (Lower.tableEntries [] ((cases.map Case.constant).zip blocks))))
      (branches : TableCode sig F result sc scrutinee.target test e cases blocks ⟨r₁, c⟩ k') :
      StmtCode sig F result sc (.switch scrutinee cases true) p ⟨r, c⟩ sc (some ⟨e, 0⟩) k'
  | chain {sc : Names} {scrutinee : Converted} {cases : List Case} {test : Predicate}
      {p q : Place} {r c r₁ e : Nat} {k' : Counters} {is : List Instruction} {v : Operand}
      (code : ConvertedCode sig sc scrutinee r is v r₁) (hosted : HostedAt F p is)
      (selected : (BinOp.relation .eq).predicateAt scrutinee.target = .ok test)
      (branches : ChainCode sig F result sc scrutinee.target test v e cases (p.skip is.length)
        ⟨r₁, c⟩ q k')
      (leaves : EndsAt F q (.branch e)) :
      StmtCode sig F result sc (.switch scrutinee cases false) p ⟨r, c⟩ sc (some ⟨e, 0⟩) k'
  | ret {sc : Names} {value : Converted} {p : Place} {r c r' : Nat} {is : List Instruction}
      {v : Operand} (target : value.target = result)
      (code : ConvertedCode sig sc value r is v r') (hosted : HostedAt F p is)
      (leaves : EndsAt F (p.skip is.length) (.ret (some v))) :
      StmtCode sig F result sc (.ret (some value)) p ⟨r, c⟩ sc none ⟨r', c⟩
  | retVoid {sc : Names} {p : Place} {k : Counters} (void : result = .void)
      (leaves : EndsAt F p (.ret none)) :
      StmtCode sig F result sc (.ret none) p k sc none k

/-- Statements in sequence; what follows a statement that always returns has no code. -/
inductive BlockCode (sig : Signatures) (F : Function) (result : Ty) :
    Names → List Stmt → Place → Counters → Option Place → Counters → Prop
  | nil {sc : Names} {p : Place} {k : Counters} : BlockCode sig F result sc [] p k (some p) k
  | cons {sc sc₁ : Names} {s : Stmt} {rest : List Stmt} {p p₁ : Place} {k k₁ k' : Counters}
      {exit : Option Place} (head : StmtCode sig F result sc s p k sc₁ (some p₁) k₁)
      (tail : BlockCode sig F result sc₁ rest p₁ k₁ exit k') :
      BlockCode sig F result sc (s :: rest) p k exit k'
  | cut {sc sc₁ : Names} {s : Stmt} {rest : List Stmt} {p : Place} {k k' : Counters}
      (head : StmtCode sig F result sc s p k sc₁ none k') :
      BlockCode sig F result sc (s :: rest) p k none k'

/-- The bodies of a jump table, each in a block of its own. -/
inductive TableCode (sig : Signatures) (F : Function) (result : Ty) :
    Names → Ty → Predicate → Nat → List Case → List Nat → Counters → Counters → Prop
  | nil {sc : Names} {compared : Ty} {test : Predicate} {e : Nat} {k : Counters} :
      TableCode sig F result sc compared test e [] [] k k
  | cons {sc : Names} {compared : Ty} {test : Predicate} {e b : Nat} {value : Converted}
      {body : List Stmt} {cases : List Case} {blocks : List Nat} {k k₁ k' : Counters}
      {exit : Option Place} (ok : ExprOk (sc.map (symbolOf sig)) value.value) (fits : value.Fits)
      (target : value.target = compared)
      (inside : BlockCode sig F result sc.enter body ⟨b, 0⟩ k exit k₁) (joins : Joins F exit e)
      (tail : TableCode sig F result sc compared test e cases blocks k₁ k') :
      TableCode sig F result sc compared test e
        (.mk value test value.constant? body :: cases) (b :: blocks) k k'

/-- Cases as a chain of comparisons with the operand `x`, from one place to another. -/
inductive ChainCode (sig : Signatures) (F : Function) (result : Ty) :
    Names → Ty → Predicate → Operand → Nat → List Case → Place → Counters → Place → Counters → Prop
  | nil {sc : Names} {compared : Ty} {test : Predicate} {x : Operand} {e : Nat} {p : Place}
      {k : Counters} : ChainCode sig F result sc compared test x e [] p k p k
  | cons {sc : Names} {compared : Ty} {test : Predicate} {x v : Operand} {e b n r c r₁ : Nat}
      {value : Converted} {body : List Stmt} {cases : List Case} {p q : Place}
      {k₁ k' : Counters} {is : List Instruction} {exit : Option Place}
      (target : value.target = compared) (code : ConvertedCode sig sc value r is v r₁)
      (hosted : HostedAt F p (is ++ [.compare r₁ test x v]))
      (branch : EndsAt F (p.skip (is.length + 1)) (.condBranch (.register r₁) b n))
      (inside : BlockCode sig F result sc.enter body ⟨b, 0⟩ ⟨r₁ + 1, c⟩ exit k₁)
      (joins : Joins F exit e)
      (tail : ChainCode sig F result sc compared test x e cases ⟨n, 0⟩ k₁ q k') :
      ChainCode sig F result sc compared test x e
        (.mk value test value.constant? body :: cases) p ⟨r, c⟩ q k'

end

/-! ## Functions -/

/-- Parameters are spilled into the first slots, from left to right. -/
inductive ParametersCode : Names → List VarDecl → Nat → List Instruction → Names → Prop
  | nil {sc : Names} {i : Nat} : ParametersCode sc [] i [] sc
  | cons {sc sc' : Names} {v : VarDecl} {rest : List VarDecl} {i : Nat} {is : List Instruction}
      (storable : v.ty ≠ .void) (tail : ParametersCode (bindStack sc v i []) rest (i + 1) is sc') :
      ParametersCode sc (v :: rest) i
        (.alloca i v.ty none v.name :: .store (.stack i) v.ty none (.parameter i) :: is) sc'

/-- The code of a function, given what the names outside of it stand for. Only a function without a
result can be left by running off its end. -/
structure FnCode (sig : Signatures) (sc : Names) (f : FnDecl) (F : Function) : Prop where
  name : F.name = f.name
  result : F.result = f.result
  parameters : F.parameters = f.parameters.map VarDecl.ty
  body : ∃ is sc₁ exit, ParametersCode sc.enter f.parameters 0 is sc₁ ∧ HostedAt F ⟨0, 0⟩ is ∧
    BlockCode sig F f.result sc₁ f.body ⟨0, is.length⟩ ⟨0, f.parameters.length⟩ exit
      ⟨F.registers, F.slots⟩ ∧
    ∀ p, exit = some p → f.result = .void ∧ EndsAt F p (.ret none)

/-! ## Programs -/

def functionsOf : List Decl → List FnDecl
  | [] => []
  | .function f :: rest => f :: functionsOf rest
  | .global _ :: rest => functionsOf rest

def globalsOf : List Decl → List Typed.Global
  | [] => []
  | .function _ :: rest => globalsOf rest
  | .global g :: rest => g :: globalsOf rest

/-- A function has the position of its declaration among the functions. -/
def signaturesOf (ds : List Decl) : Signatures := fun g =>
  (functionsOf ds)[g]?.map fun f => (f.result, f.parameters.map VarDecl.ty)

/-- The sizes of a global array as operands. -/
def sizeOperands (sizes : List Nat) : List Operand :=
  sizes.map fun n => .constant (.long (Int64.ofNat n))

def globalOf (g : Typed.Global) : Global where
  name := g.name
  ty := g.ty
  length := if g.dimensions.isEmpty then none else some g.length
  initializer := g.initializer

/-- At top level, names stand for declarations of the program. -/
structure Visible (ds : List Decl) (sc : Names) : Prop where
  top : sc.inner = []
  var : ∀ {name slot ty sizes}, sc.lookup name = some (.var slot ty sizes) →
    ∃ i g, slot = .global i ∧ (globalsOf ds)[i]? = some g ∧ g.name = name ∧ g.ty = ty ∧
      sizes = sizeOperands g.dimensions
  fn : ∀ {name g}, sc.lookup name = some (.fn g) → ∃ f, (functionsOf ds)[g]? = some f ∧ f.name = name

/-- The module has the globals of the program and code for each of its functions. -/
structure Linked (ds : List Decl) (m : Module) : Prop where
  globals : m.globals.toList = (globalsOf ds).map globalOf
  functions : List.Forall₂ (fun f F => ∃ sc, Visible ds sc ∧ FnCode (signaturesOf ds) sc f F)
    (functionsOf ds) m.functions.toList

/-- The second module has the globals and functions of the first at the same positions, and maybe more
after them. -/
structure Module.Extends (m m' : Module) : Prop where
  globals : m.globals.toList <+: m'.globals.toList
  functions : m.functions.toList <+: m'.functions.toList

theorem Module.Extends.refl (m : Module) : m.Extends m :=
  ⟨List.prefix_rfl, List.prefix_rfl⟩

theorem Module.Extends.trans {m m₁ m' : Module} (h : m.Extends m₁) (h' : m₁.Extends m') :
    m.Extends m' :=
  ⟨h.globals.trans h'.globals, h.functions.trans h'.functions⟩

theorem forall₂_getElem? {α β : Type} {R : α → β → Prop} {xs : List α} {ys : List β}
    (h : List.Forall₂ R xs ys) {i : Nat} {a : α} (ha : xs[i]? = some a) :
    ∃ b, ys[i]? = some b ∧ R a b := by
  induction h generalizing i with
  | nil => simp at ha
  | cons head tail ih =>
      cases i with
      | zero =>
          cases ha
          exact ⟨_, rfl, head⟩
      | succ i => exact ih ha

theorem functionsOf_append (ds es : List Decl) :
    functionsOf (ds ++ es) = functionsOf ds ++ functionsOf es := by
  induction ds with
  | nil => rfl
  | cons d rest ih => cases d <;> simp [functionsOf, ih]

theorem globalsOf_append (ds es : List Decl) :
    globalsOf (ds ++ es) = globalsOf ds ++ globalsOf es := by
  induction ds with
  | nil => rfl
  | cons d rest ih => cases d <;> simp [globalsOf, ih]

theorem Visible.append {ds : List Decl} {sc : Names} (h : Visible ds sc) (more : List Decl) :
    Visible (ds ++ more) sc where
  top := h.top
  var hl := by
    obtain ⟨i, g, slot, found, rest⟩ := h.var hl
    refine ⟨i, g, slot, ?_, rest⟩
    rw [globalsOf_append, List.getElem?_append_left (List.getElem?_eq_some_iff.mp found).1]
    exact found
  fn hl := by
    obtain ⟨f, found, name⟩ := h.fn hl
    refine ⟨f, ?_, name⟩
    rw [functionsOf_append, List.getElem?_append_left (List.getElem?_eq_some_iff.mp found).1]
    exact found

theorem Visible.function {ds : List Decl} {sc : Names} (h : Visible ds sc) (f : FnDecl) :
    Visible (ds ++ [.function f]) (sc.push f.name (.fn (functionsOf ds).length)) where
  top := Scope.inner_push h.top _ _
  var := by
    intro name slot ty sizes hl
    by_cases hn : name = f.name
    · subst hn
      rw [Scope.lookup_push_self] at hl
      cases hl
    · rw [Scope.lookup_push_of_ne _ _ hn] at hl
      exact (h.append _).var hl
  fn := by
    intro name g hl
    by_cases hn : name = f.name
    · subst hn
      rw [Scope.lookup_push_self] at hl
      cases hl
      exact ⟨f, by simp [functionsOf_append, functionsOf], rfl⟩
    · rw [Scope.lookup_push_of_ne _ _ hn] at hl
      exact (h.append _).fn hl

theorem Visible.global {ds : List Decl} {sc : Names} (h : Visible ds sc) (g : Typed.Global) :
    Visible (ds ++ [.global g]) (sc.push g.name
      (.var (.global (globalsOf ds).length) g.ty (sizeOperands g.dimensions))) where
  top := Scope.inner_push h.top _ _
  var := by
    intro name slot ty sizes hl
    by_cases hn : name = g.name
    · subst hn
      rw [Scope.lookup_push_self] at hl
      cases hl
      exact ⟨_, g, rfl, by simp [globalsOf_append, globalsOf], rfl, rfl, rfl⟩
    · rw [Scope.lookup_push_of_ne _ _ hn] at hl
      exact (h.append _).var hl
  fn := by
    intro name f hl
    by_cases hn : name = g.name
    · subst hn
      rw [Scope.lookup_push_self] at hl
      cases hl
    · rw [Scope.lookup_push_of_ne _ _ hn] at hl
      exact (h.append _).fn hl

/-! ## Code that always returns -/

theorem blockCode_exit_of_forall {sig : Signatures} {F : Function} {result : Ty} {body : List Stmt}
    (stops : ∀ st ∈ body, ∀ {sc sc' p k k' exit}, StmtCode sig F result sc st p k sc' exit k' →
      st.mustReturn = true → exit = none) {sc : Names} {p : Place} {k k' : Counters}
    {exit : Option Place} (h : BlockCode sig F result sc body p k exit k')
    (must : mustReturn body = true) : exit = none := by
  induction body generalizing sc p k with
  | nil => simp [mustReturn] at must
  | cons st rest ih =>
      obtain ⟨stop, stops⟩ := List.forall_mem_cons.mp stops
      simp only [mustReturn, Bool.or_eq_true] at must
      cases h with
      | cons head tail =>
          rcases must with must | must
          · exact nomatch stop head must
          · exact ih stops tail must
      | cut head => rfl

theorem StmtCode.exit_eq_none {sig : Signatures} {F : Function} {result : Ty} {st : Stmt}
    {sc sc' : Names} {p : Place} {k k' : Counters} {exit : Option Place}
    (h : StmtCode sig F result sc st p k sc' exit k') (must : st.mustReturn = true) :
    exit = none := by
  induction st using Stmt.treeInduction generalizing sc sc' p k k' exit with
  | block body ih =>
      simp only [Stmt.mustReturn] at must
      cases h with
      | block inside => exact blockCode_exit_of_forall ih inside must
  | ifElse condition body other ih ihOther =>
      simp only [Stmt.mustReturn, Bool.and_eq_true] at must
      cases h with
      | ifElse boolean code hosted test inside joins otherwise joinsToo =>
          rw [blockCode_exit_of_forall ih inside must.1,
            blockCode_exit_of_forall ihOther otherwise must.2]
          rfl
  | ret value => cases h <;> rfl
  | declare v => simp [Stmt.mustReturn] at must
  | eval e => simp [Stmt.mustReturn] at must
  | ifThen condition body ih => simp [Stmt.mustReturn] at must
  | forLoop v condition step body ih => simp [Stmt.mustReturn] at must
  | whileLoop condition body ih => simp [Stmt.mustReturn] at must
  | switch scrutinee cases table ih => simp [Stmt.mustReturn] at must

theorem BlockCode.exit_eq_none {sig : Signatures} {F : Function} {result : Ty} {body : List Stmt}
    {sc : Names} {p : Place} {k k' : Counters} {exit : Option Place}
    (h : BlockCode sig F result sc body p k exit k') (must : mustReturn body = true) :
    exit = none :=
  blockCode_exit_of_forall (fun _ _ _ _ _ _ _ _ code => code.exit_eq_none) h must

/-! ## Places and registers -/

/-- Only a call without a result leaves no value. -/
theorem ExprCode.ty_eq_void {sig : Signatures} {sc : Names} {e : Expr} {r r' : Nat}
    {is : List Instruction} (h : ExprCode sig sc e r is none r') : e.ty = .void := by
  cases h
  rfl

theorem ArgumentsCode.length_eq {sig : Signatures} {sc : Names} {cs : List Converted} {r r' : Nat}
    {is : List Instruction} {vs : List Operand} (h : ArgumentsCode sig sc cs r is vs r') :
    vs.length = cs.length := by
  induction cs generalizing r is vs with
  | nil =>
      cases h
      rfl
  | cons c rest ih =>
      cases h with
      | cons head tail => simp [ih tail]

@[simp] theorem Place.skip_zero (p : Place) : p.skip 0 = p := rfl

theorem Place.skip_start (b n : Nat) : (⟨b, 0⟩ : Place).skip n = ⟨b, n⟩ := by
  simp [Place.skip]

theorem Place.skip_skip (p : Place) (m n : Nat) : (p.skip m).skip n = p.skip (m + n) := by
  simp [Place.skip, Nat.add_assoc]

theorem hostedAt_append {F : Function} {p : Place} {is js : List Instruction} :
    HostedAt F p (is ++ js) ↔ HostedAt F p is ∧ HostedAt F (p.skip is.length) js := by
  constructor
  · rintro ⟨B, hB, h⟩
    refine ⟨⟨B, hB, fun k i hk => h k i ?_⟩, ⟨B, hB, fun k i hk => ?_⟩⟩
    · have hlt : k < is.length := by
        by_contra hge
        rw [List.getElem?_eq_none (by omega)] at hk
        cases hk
      rw [List.getElem?_append_left hlt]
      exact hk
    · have := h (is.length + k) i (by rw [List.getElem?_append_right (by omega)]; simpa using hk)
      simpa [Place.skip, Nat.add_assoc] using this
  · rintro ⟨⟨B, hB, h⟩, B', hB', h'⟩
    have same : B' = B := Option.some.inj (hB'.symm.trans hB)
    subst same
    refine ⟨B', hB, fun k i hk => ?_⟩
    by_cases hlt : k < is.length
    · rw [List.getElem?_append_left hlt] at hk
      exact h k i hk
    · rw [List.getElem?_append_right (by omega)] at hk
      have := h' (k - is.length) i hk
      have sum : p.index + is.length + (k - is.length) = p.index + k := by omega
      simpa [Place.skip, sum] using this

/-- The operand can be read whatever happens to the registers from `r` on. -/
def Operand.Below (r : Nat) : Operand → Prop
  | .register k => k < r
  | .constant _ => True
  | .parameter _ => False

theorem Operand.Below.mono {r r' : Nat} {v : Operand} (h : v.Below r) (hr : r ≤ r') :
    v.Below r' := by
  cases v with
  | register k => exact Nat.lt_of_lt_of_le h hr
  | constant value => trivial
  | parameter k => exact h

theorem ScaleCode.grows {o o' : Operand} {ns : List Operand} {r r' : Nat} {is : List Instruction}
    (h : ScaleCode o ns r is o' r') (ho : o.Below r) : r ≤ r' ∧ o'.Below r' := by
  induction h with
  | nil => exact ⟨Nat.le_refl _, ho⟩
  | @cons o n o' ns r r' is tail ih =>
      obtain ⟨hr, hb⟩ := ih (Nat.lt_succ_self r)
      exact ⟨by omega, hb⟩

theorem LengthCode.grows {ns : List Operand} {o : Option Operand} {r r' : Nat}
    {is : List Instruction} (h : LengthCode ns r is o r') (hn : ∀ n ∈ ns, n.Below r) :
    r ≤ r' := by
  cases h with
  | scalar => exact Nat.le_refl _
  | array scale => exact (scale.grows (hn _ List.mem_cons_self)).1

theorem IndexCode.grows {n i o : Operand} {before : Option Operand} {r r' : Nat}
    {is : List Instruction} (h : IndexCode n i before r is o r') (hi : i.Below r) :
    r ≤ r' ∧ o.Below r' := by
  cases h with
  | first => exact ⟨Nat.le_refl _, hi⟩
  | next => exact ⟨by omega, by show r + 1 < r + 2; omega⟩

/-- Registers are handed out upwards, and the value of an expression is among those handed out. -/
def ExprGrows (sig : Signatures) (e : Expr) : Prop :=
  ∀ {sc : Names} {r r' : Nat} {is : List Instruction} {v : Option Operand},
    ExprCode sig sc e r is v r' → r ≤ r' ∧ ∀ w, v = some w → w.Below r'

theorem convertedCode_grows {sig : Signatures} {sc : Names} {c : Converted} {r r' : Nat}
    {is : List Instruction} {v : Operand} (grows : ExprGrows sig c.value)
    (h : ConvertedCode sig sc c r is v r') : r ≤ r' ∧ v.Below r' := by
  cases h with
  | kept fits same code =>
      obtain ⟨hr, hv⟩ := grows code
      exact ⟨hr, hv v rfl⟩
  | moved fits moves code =>
      obtain ⟨hr, -⟩ := grows code
      exact ⟨by omega, Nat.lt_succ_self _⟩

theorem argumentsCode_grows {sig : Signatures} {sc : Names} {cs : List Converted} {r r' : Nat}
    {is : List Instruction} {vs : List Operand} (grows : ∀ c ∈ cs, ExprGrows sig c.value)
    (h : ArgumentsCode sig sc cs r is vs r') : r ≤ r' ∧ ∀ v ∈ vs, v.Below r' := by
  induction cs generalizing r is vs with
  | nil =>
      cases h
      exact ⟨Nat.le_refl _, by simp⟩
  | cons c rest ih =>
      cases h with
      | cons head tail =>
          obtain ⟨grow, grows⟩ := List.forall_mem_cons.mp grows
          obtain ⟨hr, hv⟩ := convertedCode_grows grow head
          obtain ⟨hr', hvs⟩ := ih grows tail
          exact ⟨by omega, List.forall_mem_cons.mpr ⟨hv.mono hr', hvs⟩⟩

theorem offsetCode_grows {sig : Signatures} {sc : Names} {cs : List Converted}
    {sizes : List Operand} {before after : Option Operand} {r r' : Nat} {is : List Instruction}
    (grows : ∀ c ∈ cs, ExprGrows sig c.value) (hb : ∀ o, before = some o → o.Below r)
    (h : OffsetCode sig sc cs sizes before r is after r') :
    r ≤ r' ∧ ∀ o, after = some o → o.Below r' := by
  induction cs generalizing sizes before r is with
  | nil =>
      cases h with
      | whole => exact ⟨Nat.le_refl _, hb⟩
      | scaled scale =>
          obtain ⟨hr, ho⟩ := scale.grows (hb _ rfl)
          exact ⟨hr, fun o h => by cases h; exact ho⟩
  | cons c rest ih =>
      cases h with
      | cons integer head step tail =>
          obtain ⟨grow, grows⟩ := List.forall_mem_cons.mp grows
          obtain ⟨hr, hv⟩ := convertedCode_grows grow head
          obtain ⟨hr₁, ho⟩ := step.grows hv
          obtain ⟨hr₂, after⟩ := ih grows (fun o h => by cases h; exact ho) tail
          exact ⟨by omega, after⟩

theorem exprGrows (sig : Signatures) (e : Expr) : ExprGrows sig e := by
  induction e using Expr.treeInduction with
  | literal value =>
      intro sc r r' is v h
      cases h
      exact ⟨Nat.le_refl _, fun w hw => by cases hw; trivial⟩
  | var name ty indices ih =>
      intro sc r r' is v h
      cases h with
      | @var _ _ _ _ _ _ r₁ _ _ bound offset =>
          obtain ⟨hr, -⟩ := offsetCode_grows ih (by simp) offset
          exact ⟨by omega, fun w hw => by cases hw; exact Nat.lt_succ_self r₁⟩
  | assign name ty indices value ihs ih =>
      intro sc r r' is v h
      cases h with
      | assign assigned target bound offset =>
          obtain ⟨hr, hv⟩ := convertedCode_grows ih assigned
          obtain ⟨hr', -⟩ := offsetCode_grows ihs (by simp) offset
          exact ⟨by omega, fun w hw => by cases hw; exact hv.mono hr'⟩
  | negate op zero operand ih =>
      intro sc r r' is v h
      cases h with
      | @negate _ _ _ _ r₁ _ _ start selected code =>
          obtain ⟨hr, -⟩ := ih code
          exact ⟨by omega, fun w hw => by cases hw; exact Nat.lt_succ_self r₁⟩
  | arith op left right ihl ihr =>
      intro sc r r' is v h
      cases h with
      | @arith _ _ _ _ _ r₁ _ _ _ _ same selected codeLeft codeRight =>
          obtain ⟨hl, -⟩ := convertedCode_grows ihl codeLeft
          obtain ⟨hr, -⟩ := convertedCode_grows ihr codeRight
          exact ⟨by omega, fun w hw => by cases hw; exact Nat.lt_succ_self r₁⟩
  | compare test left right ihl ihr =>
      intro sc r r' is v h
      cases h with
      | @compare _ _ _ _ _ r₁ _ _ _ _ same selected codeLeft codeRight =>
          obtain ⟨hl, -⟩ := convertedCode_grows ihl codeLeft
          obtain ⟨hr, -⟩ := convertedCode_grows ihr codeRight
          exact ⟨by omega, fun w hw => by cases hw; exact Nat.lt_succ_self r₁⟩
  | call callee result arguments ih =>
      intro sc r r' is v h
      cases h with
      | @call _ _ _ _ _ r₁ _ _ bound known valued code =>
          obtain ⟨hr, -⟩ := argumentsCode_grows ih code
          exact ⟨by omega, fun w hw => by cases hw; exact Nat.lt_succ_self r₁⟩
      | callVoid bound known code =>
          obtain ⟨hr, -⟩ := argumentsCode_grows ih code
          exact ⟨hr, fun w hw => nomatch hw⟩

end ImpLower.Code
