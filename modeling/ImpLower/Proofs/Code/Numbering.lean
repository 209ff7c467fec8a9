import ImpLower.Proofs.Lower.Focus

/-!
# Definitions and uses

Registers and stack slots are brought forth by instructions: a register by the instruction that writes
it, a slot by its allocation. A function is numbered when each register and each slot below its
counters is brought forth at exactly one place. Appending one instruction at a time keeps that.
-/

namespace ImpLower.Code

/-- What an instruction of a function can bring forth: a register or a stack slot. -/
inductive Local where
  | register (index : Nat)
  | slot (index : Nat)
  deriving DecidableEq

def Operand.locals : Operand → List Local
  | .register r => [.register r]
  | .constant _ => []
  | .parameter _ => []

def Slot.locals : Slot → List Local
  | .stack n => [.slot n]
  | .global _ => []

namespace Instruction

/-- What the instruction brings forth. -/
def defines : Instruction → Option Local
  | .alloca slot .. => some (.slot slot)
  | .load dest .. => some (.register dest)
  | .store .. => none
  | .binary dest .. => some (.register dest)
  | .compare dest .. => some (.register dest)
  | .convert dest .. => some (.register dest)
  | .call dest .. => dest.map .register

def operands : Instruction → List Operand
  | .alloca _ _ length _ => length.toList
  | .load _ _ _ offset => offset.toList
  | .store _ _ offset value => offset.toList ++ [value]
  | .binary _ _ left right => [left, right]
  | .compare _ _ left right => [left, right]
  | .convert _ _ value _ => [value]
  | .call _ _ arguments => arguments

def storage : Instruction → List Slot
  | .load _ slot .. => [slot]
  | .store slot .. => [slot]
  | _ => []

def callee? : Instruction → Option Nat
  | .call _ callee _ => some callee
  | _ => none

/-- The registers and slots that must have been brought forth before. -/
def uses (i : Instruction) : List Local :=
  i.operands.flatMap Operand.locals ++ i.storage.flatMap Slot.locals

end Instruction

namespace Terminator

def operands : Terminator → List Operand
  | .condBranch condition .. => [condition]
  | .switch value .. => [value]
  | .ret value => value.toList
  | .branch _ => []
  | .unreachable => []

/-- The registers that must have been brought forth before. -/
def uses (t : Terminator) : List Local :=
  t.operands.flatMap Operand.locals

end Terminator

namespace Function

def instructionAt? (F : Function) (p : Place) : Option Instruction :=
  F.blocks[p.block]?.bind fun B => B.instructions[p.index]?

def terminatorOf? (F : Function) (b : Nat) : Option Terminator :=
  F.blocks[b]?.bind Block.terminator

/-- The instruction at the place brings forth the register or slot. -/
def DefinesAt (F : Function) (p : Place) (x : Local) : Prop :=
  ∃ i, F.instructionAt? p = some i ∧ i.defines = some x

/-- The number is below the counter of its kind. -/
def Counts (F : Function) : Local → Prop
  | .register r => r < F.registers
  | .slot n => n < F.slots

/-! ## One step of construction -/

theorem instructionAt?_emit {F : Function} {b : Nat} (isOpen : F.IsOpen b) (i : Instruction)
    (k : Counters) (p : Place) :
    (F.emit b [i] k).instructionAt? p = if p = F.endOf b then some i else F.instructionAt? p := by
  obtain ⟨B, hB, -⟩ := isOpen
  obtain ⟨c, j⟩ := p
  by_cases hc : c = b
  · subst hc
    simp only [instructionAt?, getElem?_emit_self hB, endOf, hB, Option.bind_some,
      Option.map_some, Option.getD_some, Place.mk.injEq, true_and]
    rw [← Array.push_eq_append, Array.getElem?_push]
  · have ne : ¬ (⟨c, j⟩ : Place) = F.endOf b := fun h => hc (congrArg Place.block h)
    simp only [instructionAt?, getElem?_emit_of_ne hc, ne, if_false]

@[simp] theorem terminatorOf?_emit (F : Function) (b : Nat) (is : List Instruction) (k : Counters)
    (c : Nat) : (F.emit b is k).terminatorOf? c = F.terminatorOf? c := by
  simp only [terminatorOf?, emit, Array.getElem?_modify]
  split
  · cases F.blocks[c]? <;> rfl
  · rfl

@[simp] theorem instructionAt?_close (F : Function) (b : Nat) (t : Terminator) (p : Place) :
    (F.close b t).instructionAt? p = F.instructionAt? p := by
  simp only [instructionAt?, close, Array.getElem?_modify]
  split
  · cases F.blocks[p.block]? <;> rfl
  · rfl

theorem terminatorOf?_close {F : Function} {b : Nat} (isOpen : F.IsOpen b) (t : Terminator)
    (c : Nat) :
    (F.close b t).terminatorOf? c = if c = b then some t else F.terminatorOf? c := by
  obtain ⟨B, hB, -⟩ := isOpen
  by_cases hc : c = b
  · subst hc
    simp [terminatorOf?, getElem?_close_self hB]
  · simp [terminatorOf?, getElem?_close_of_ne hc, hc]

@[simp] theorem instructionAt?_grow (F : Function) (label : String) (p : Place) :
    (F.grow label).instructionAt? p = F.instructionAt? p := by
  simp only [instructionAt?, grow, Array.getElem?_push]
  by_cases new : p.block = F.blocks.size
  · simp [new]
  · simp [new]

@[simp] theorem terminatorOf?_grow (F : Function) (label : String) (b : Nat) :
    (F.grow label).terminatorOf? b = F.terminatorOf? b := by
  simp only [terminatorOf?, grow, Array.getElem?_push]
  by_cases new : b = F.blocks.size
  · simp [new]
  · simp [new]

/-- The end of a block holds no instruction. -/
theorem instructionAt?_endOf (F : Function) (b : Nat) : F.instructionAt? (F.endOf b) = none := by
  cases hB : F.blocks[b]? <;> simp [instructionAt?, endOf, hB]

theorem definesAt_emit {F : Function} {b : Nat} (isOpen : F.IsOpen b) (i : Instruction)
    (k : Counters) (p : Place) (x : Local) :
    (F.emit b [i] k).DefinesAt p x ↔
      F.DefinesAt p x ∨ p = F.endOf b ∧ i.defines = some x := by
  simp only [DefinesAt, instructionAt?_emit isOpen]
  by_cases hp : p = F.endOf b
  · subst hp
    simp [instructionAt?_endOf]
  · simp [hp]

@[simp] theorem definesAt_close (F : Function) (b : Nat) (t : Terminator) (p : Place) (x : Local) :
    (F.close b t).DefinesAt p x ↔ F.DefinesAt p x := by
  simp [DefinesAt]

@[simp] theorem definesAt_grow (F : Function) (label : String) (p : Place) (x : Local) :
    (F.grow label).DefinesAt p x ↔ F.DefinesAt p x := by
  simp [DefinesAt]

/-! ## Numbering -/

/-- Registers and slots below the counters are brought forth once each, and no others. -/
structure Numbered (F : Function) : Prop where
  counts : ∀ {p x}, F.DefinesAt p x → F.Counts x
  once : ∀ {p q x}, F.DefinesAt p x → F.DefinesAt q x → p = q
  all : ∀ {x}, F.Counts x → ∃ p, F.DefinesAt p x

/-- What an instruction brings forth next leaves the counters. -/
inductive Takes (F : Function) (i : Instruction) : Counters → Prop
  | nothing (h : i.defines = none) : Takes F i F.counters
  | register (h : i.defines = some (.register F.registers)) :
      Takes F i ⟨F.registers + 1, F.slots⟩
  | slot (h : i.defines = some (.slot F.slots)) : Takes F i ⟨F.registers, F.slots + 1⟩

theorem Takes.counts {F : Function} {b : Nat} {i : Instruction} {k : Counters} (h : Takes F i k)
    (x : Local) : (F.emit b [i] k).Counts x ↔ F.Counts x ∨ i.defines = some x := by
  cases h with
  | nothing h => cases x <;> simp [Counts, emit, counters, h]
  | register h =>
      cases x with
      | register r =>
          simp only [Counts, emit, h, Option.some.injEq, Local.register.injEq]
          omega
      | slot n => simp [Counts, emit, h]
  | slot h =>
      cases x with
      | register r => simp [Counts, emit, h]
      | slot n =>
          simp only [Counts, emit, h, Option.some.injEq, Local.slot.injEq]
          omega

theorem Takes.fresh {F : Function} {i : Instruction} {k : Counters} (h : Takes F i k) {x : Local}
    (hx : i.defines = some x) : ¬ F.Counts x := by
  cases h with
  | nothing h => simp [h] at hx
  | register h =>
      cases h.symm.trans hx
      exact Nat.lt_irrefl _
  | slot h =>
      cases h.symm.trans hx
      exact Nat.lt_irrefl _

theorem Numbered.emit {F : Function} (h : F.Numbered) {b : Nat} (isOpen : F.IsOpen b)
    {i : Instruction} {k : Counters} (takes : F.Takes i k) : (F.emit b [i] k).Numbered where
  counts := by
    intro p x hp
    rw [takes.counts]
    rcases (definesAt_emit isOpen i k p x).mp hp with old | ⟨-, new⟩
    · exact .inl (h.counts old)
    · exact .inr new
  once := by
    intro p q x hp hq
    rcases (definesAt_emit isOpen i k p x).mp hp with old | ⟨rfl, new⟩ <;>
      rcases (definesAt_emit isOpen i k q x).mp hq with old' | ⟨rfl, new'⟩
    · exact h.once old old'
    · exact absurd (h.counts old) (takes.fresh new')
    · exact absurd (h.counts old') (takes.fresh new)
    · rfl
  all := by
    intro x hx
    rcases (takes.counts x).mp hx with old | new
    · obtain ⟨p, hp⟩ := h.all old
      exact ⟨p, (definesAt_emit isOpen i k p x).mpr (.inl hp)⟩
    · exact ⟨_, (definesAt_emit isOpen i k _ x).mpr (.inr ⟨rfl, new⟩)⟩

/-- Numbering is about instructions and counters alone. -/
theorem Numbered.of_same {F G : Function} (h : F.Numbered)
    (same : ∀ p, G.instructionAt? p = F.instructionAt? p) (counters : G.counters = F.counters) :
    G.Numbered := by
  have defines : ∀ p x, G.DefinesAt p x ↔ F.DefinesAt p x := by
    intro p x
    simp [DefinesAt, same]
  have counts : ∀ x, G.Counts x ↔ F.Counts x := by
    obtain ⟨registers, slots⟩ := Counters.mk.inj counters
    rintro (r | n)
    · simp [Counts, registers]
    · simp [Counts, slots]
  refine ⟨fun hp => (counts _).mpr (h.counts ((defines _ _).mp hp)),
    fun hp hq => h.once ((defines _ _).mp hp) ((defines _ _).mp hq), fun hx => ?_⟩
  obtain ⟨p, hp⟩ := h.all ((counts _).mp hx)
  exact ⟨p, (defines _ _).mpr hp⟩

end Function

end ImpLower.Code
