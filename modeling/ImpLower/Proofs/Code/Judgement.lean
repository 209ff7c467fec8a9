import ImpLower.Proofs.Code.Numbering

/-!
# Typing rules of instructions

When an instruction or a terminator is well typed, given the types of registers and stack slots, of
the globals, and of the functions that can be called. The rules cover the annotations that execution
does not look at: the type of an access and the conversion of a value.
-/

namespace ImpLower

/-- The types an operation works at: those of its family. -/
def Operation.WorksAt : Operation → Ty → Prop
  | .int _, ty => ty.isInteger = true
  | .float _, ty => ty.isFloat = true
  | .bitwise _, ty => ty.isInteger = true

/-- The types a comparison works at. Booleans and characters compare as integers. -/
def Predicate.WorksAt : Predicate → Ty → Prop
  | .int _, ty => ty.isInteger = true ∨ ty = .boolean ∨ ty = .char
  | .float _, ty => ty.isFloat = true

theorem Operation.worksAt_of_operationAt {op : BinOp} {ty : Ty} {o : Operation}
    (h : op.operationAt ty = .ok o) : o.WorksAt ty := by
  cases op <;> cases ty <;> cases h <;> rfl

theorem Predicate.worksAt_of_predicateAt {op : BinOp} {ty : Ty} {p : Predicate}
    (h : op.predicateAt ty = .ok p) : p.WorksAt ty := by
  cases op <;> cases ty <;> cases h <;> simp [Predicate.WorksAt, Ty.isInteger, Ty.isFloat]

namespace Code

/-- What the code of a function is typed against. -/
structure Env where
  signatures : Nat → Option (Ty × List Ty)
  globals : Nat → Option Ty
  parameters : List Ty
  result : Ty
  registers : Nat → Option Ty
  slots : Nat → Option Ty

namespace Env

def operand? (E : Env) : Operand → Option Ty
  | .register r => E.registers r
  | .constant value => some value.type
  | .parameter i => E.parameters[i]?

def storage? (E : Env) : Slot → Option Ty
  | .stack n => E.slots n
  | .global i => E.globals i

/-- A size or an offset, where there is one, is a `long`. -/
def Index (E : Env) (o : Option Operand) : Prop :=
  ∀ v, o = some v → E.operand? v = some .long

end Env

inductive InstructionOk (E : Env) : Instruction → Prop
  | alloca {slot : Nat} {ty : Ty} {length : Option Operand} {name : String}
      (allocated : E.slots slot = some ty) (count : E.Index length) :
      InstructionOk E (.alloca slot ty length name)
  | load {dest : Nat} {slot : Slot} {ty : Ty} {offset : Option Operand}
      (stored : E.storage? slot = some ty) (index : E.Index offset)
      (written : E.registers dest = some ty) : InstructionOk E (.load dest slot ty offset)
  | store {slot : Slot} {ty : Ty} {offset : Option Operand} {value : Operand}
      (stored : E.storage? slot = some ty) (index : E.Index offset)
      (read : E.operand? value = some ty) : InstructionOk E (.store slot ty offset value)
  | binary {dest : Nat} {op : Operation} {left right : Operand} {ty : Ty} (family : op.WorksAt ty)
      (readLeft : E.operand? left = some ty) (readRight : E.operand? right = some ty)
      (written : E.registers dest = some ty) : InstructionOk E (.binary dest op left right)
  | compare {dest : Nat} {test : Predicate} {left right : Operand} {ty : Ty}
      (family : test.WorksAt ty) (readLeft : E.operand? left = some ty)
      (readRight : E.operand? right = some ty) (written : E.registers dest = some .boolean) :
      InstructionOk E (.compare dest test left right)
  | convert {dest : Nat} {conversion : Conversion} {value : Operand} {source target : Ty}
      (read : E.operand? value = some source)
      (selected : Conversion.into target source = .ok conversion)
      (moves : conversion ≠ .identity) (written : E.registers dest = some target) :
      InstructionOk E (.convert dest conversion value target)
  | call {dest callee : Nat} {arguments : List Operand} {result : Ty} {parameters : List Ty}
      (known : E.signatures callee = some (result, parameters))
      (read : arguments.map E.operand? = parameters.map some) (valued : result ≠ .void)
      (written : E.registers dest = some result) :
      InstructionOk E (.call (some dest) callee arguments)
  | callVoid {callee : Nat} {arguments : List Operand} {parameters : List Ty}
      (known : E.signatures callee = some (.void, parameters))
      (read : arguments.map E.operand? = parameters.map some) :
      InstructionOk E (.call none callee arguments)

inductive TerminatorOk (E : Env) : Terminator → Prop
  | branch {target : Nat} : TerminatorOk E (.branch target)
  | condBranch {condition : Operand} {onTrue onFalse : Nat}
      (read : E.operand? condition = some .boolean) :
      TerminatorOk E (.condBranch condition onTrue onFalse)
  | switch {value : Operand} {default : Nat} {cases : List (Literal × Nat)} {ty : Ty}
      (integer : ty.isInteger = true) (read : E.operand? value = some ty)
      (literals : ∀ c ∈ cases, c.1.type = ty) (distinct : (cases.map Prod.fst).Nodup) :
      TerminatorOk E (.switch value default cases)
  | ret {value : Operand} (valued : E.result ≠ .void) (read : E.operand? value = some E.result) :
      TerminatorOk E (.ret (some value))
  | retVoid (void : E.result = .void) : TerminatorOk E (.ret none)
  | unreachable : TerminatorOk E .unreachable

/-! ## More registers and slots -/

structure Env.Le (E E' : Env) : Prop where
  signatures : ∀ {g s}, E.signatures g = some s → E'.signatures g = some s
  globals : ∀ {i ty}, E.globals i = some ty → E'.globals i = some ty
  parameters : E'.parameters = E.parameters
  result : E'.result = E.result
  registers : ∀ {r ty}, E.registers r = some ty → E'.registers r = some ty
  slots : ∀ {n ty}, E.slots n = some ty → E'.slots n = some ty

namespace Env.Le

variable {E E' : Env}

theorem operand? (le : E.Le E') {o : Operand} {ty : Ty} (h : E.operand? o = some ty) :
    E'.operand? o = some ty := by
  cases o with
  | register r => exact le.registers h
  | constant value => exact h
  | parameter i =>
      show E'.parameters[i]? = some ty
      rw [le.parameters]
      exact h

theorem storage? (le : E.Le E') {slot : Slot} {ty : Ty} (h : E.storage? slot = some ty) :
    E'.storage? slot = some ty := by
  cases slot with
  | stack n => exact le.slots h
  | global i => exact le.globals h

theorem index (le : E.Le E') {o : Option Operand} (h : E.Index o) : E'.Index o :=
  fun v hv => le.operand? (h v hv)

theorem operands? (le : E.Le E') {os : List Operand} {tys : List Ty}
    (h : os.map E.operand? = tys.map some) : os.map E'.operand? = tys.map some := by
  induction os generalizing tys with
  | nil => simpa using h
  | cons o os ih =>
      cases tys with
      | nil => simp at h
      | cons ty tys =>
          obtain ⟨head, tail⟩ := List.cons.inj h
          simp only [List.map_cons, le.operand? head, ih tail]

/-- What is well typed stays so. -/
theorem instructionOk (le : E.Le E') {i : Instruction} (h : InstructionOk E i) :
    InstructionOk E' i := by
  cases h with
  | alloca allocated count => exact .alloca (le.slots allocated) (le.index count)
  | load stored index written =>
      exact .load (le.storage? stored) (le.index index) (le.registers written)
  | store stored index read => exact .store (le.storage? stored) (le.index index) (le.operand? read)
  | binary family left right written =>
      exact .binary family (le.operand? left) (le.operand? right) (le.registers written)
  | compare family left right written =>
      exact .compare family (le.operand? left) (le.operand? right) (le.registers written)
  | convert read selected moves written =>
      exact .convert (le.operand? read) selected moves (le.registers written)
  | call known read valued written =>
      exact .call (le.signatures known) (le.operands? read) valued (le.registers written)
  | callVoid known read => exact .callVoid (le.signatures known) (le.operands? read)

theorem terminatorOk (le : E.Le E') {t : Terminator} (h : TerminatorOk E t) :
    TerminatorOk E' t := by
  cases h with
  | branch => exact .branch
  | condBranch read => exact .condBranch (le.operand? read)
  | switch integer read literals distinct =>
      exact .switch integer (le.operand? read) literals distinct
  | ret valued read =>
      rw [← le.result] at valued
      exact .ret valued (le.result.symm ▸ le.operand? read)
  | retVoid void => exact .retVoid (le.result.trans void)
  | unreachable => exact .unreachable

end Env.Le

end Code

end ImpLower
