import ImpLower.Proofs.Code.Certificate

/-!
# Valid functions

What a function of a module must satisfy for other backends to make sense of it: registers and slots
are brought forth once and, on every path, before they are used; everything it refers to exists; and
its instructions are well typed against the headers of the module. A certified function of the module
satisfies all of it.
-/

namespace ImpLower.Code

/-! ## Paths -/

/-- A path along branches from the first block to the block `b`, with the blocks it has run through
before. -/
inductive Path (F : Function) : List Nat → Nat → Prop
  | start : Path F [] 0
  | step {passed : List Nat} {b c : Nat} {t : Terminator} (before : Path F passed b)
      (closed : F.terminatorOf? b = some t) (leads : c ∈ t.successors) : Path F (passed ++ [b]) c

/-- The register or slot is brought forth in one of the blocks. -/
def Function.DefinesIn (F : Function) (blocks : List Nat) (x : Local) : Prop :=
  ∃ b ∈ blocks, ∃ i, F.DefinesAt ⟨b, i⟩ x

/-! ## References -/

/-- The instruction refers to registers, slots and parameters of the function, and to globals and
functions of the module. -/
structure Instruction.RefersIn (m : Module) (F : Function) (i : Instruction) : Prop where
  defines : ∀ x, i.defines = some x → F.Counts x
  uses : ∀ x ∈ i.uses, F.Counts x
  parameters : ∀ n, .parameter n ∈ i.operands → n < F.parameters.length
  globals : ∀ g, .global g ∈ i.storage → g < m.globals.size
  callee : ∀ g, i.callee? = some g → g < m.functions.size

/-- The terminator refers to registers and parameters of the function. -/
structure Terminator.RefersIn (F : Function) (t : Terminator) : Prop where
  uses : ∀ x ∈ t.uses, F.Counts x
  parameters : ∀ n, .parameter n ∈ t.operands → n < F.parameters.length

/-- A function in static single assignment form, with its storage allocated before use. The position
of a block is a machine word, so the labels in question are those of all blocks. -/
structure Function.Valid (m : Module) (F : Function) : Prop where
  registers : ∀ r < F.registers, ∃! p, F.DefinesAt p (.register r)
  slots : ∀ n < F.slots, ∃! p, F.DefinesAt p (.slot n)
  instructions : ∀ {p i}, F.instructionAt? p = some i → i.RefersIn m F
  terminators : ∀ {b t}, F.terminatorOf? b = some t → t.RefersIn F
  labels : (F.labels.take (2 ^ 64)).Nodup
  instructionsAfter : ∀ {passed b j i}, Path F passed b → F.instructionAt? ⟨b, j⟩ = some i →
    ∀ x ∈ i.uses, F.DefinesIn passed x ∨ ∃ k < j, F.DefinesAt ⟨b, k⟩ x
  terminatorsAfter : ∀ {passed b t}, Path F passed b → F.terminatorOf? b = some t →
    ∀ x ∈ t.uses, F.DefinesIn (passed ++ [b]) x

/-! ## Types -/

namespace Module

def signatures (m : Module) : Signatures :=
  fun g => m.functions[g]?.map fun G => (G.result, G.parameters)

def globalTypes (m : Module) : Nat → Option Ty :=
  fun i => m.globals[i]?.map Global.ty

end Module

/-- The type that the instruction allocates a slot at, if it does. -/
def Instruction.allocates? (n : Nat) : Instruction → Option Ty
  | .alloca slot ty _ _ => if slot = n then some ty else none
  | _ => none

def Function.slotType? (F : Function) (n : Nat) : Option Ty :=
  F.blocks.toList.findSome? fun B => B.instructions.toList.findSome? (Instruction.allocates? n)

/-- What the code of a function is typed against, with the given types of its registers. -/
def Module.env (m : Module) (F : Function) (registers : List Ty) : Env where
  signatures := m.signatures
  globals := m.globalTypes
  parameters := F.parameters
  result := F.result
  registers := fun r => registers[r]?
  slots := F.slotType?

/-- The registers have types that make all code of the function well typed. -/
def Function.WellTyped (m : Module) (F : Function) : Prop :=
  ∃ registers : List Ty, registers.length = F.registers ∧ ∀ B ∈ F.blocks.toList,
    (∀ i ∈ B.instructions.toList, InstructionOk (m.env F registers) i) ∧
      ∀ t, B.terminator = some t → TerminatorOk (m.env F registers) t

/-! ## What well-typed code refers to -/

section

variable {E : Env}

theorem operands_of_map {os : List Operand} {tys : List Ty} (h : os.map E.operand? = tys.map some) :
    ∀ o ∈ os, ∃ ty, E.operand? o = some ty := by
  intro o ho
  have mem : E.operand? o ∈ tys.map some := h ▸ List.mem_map_of_mem ho
  obtain ⟨ty, -, same⟩ := List.mem_map.mp mem
  exact ⟨ty, same.symm⟩

theorem InstructionOk.operand {i : Instruction} (h : InstructionOk E i) :
    ∀ o ∈ i.operands, ∃ ty, E.operand? o = some ty := by
  have index : ∀ {o : Option Operand}, E.Index o → ∀ v ∈ o.toList, ∃ ty, E.operand? v = some ty :=
    fun h v hv => ⟨_, h v (Option.mem_toList.mp hv)⟩
  cases h with
  | alloca _ count => exact index count
  | load _ offset _ => exact index offset
  | store _ offset read =>
      exact List.forall_mem_append.mpr ⟨index offset, List.forall_mem_singleton.mpr ⟨_, read⟩⟩
  | binary _ left right _ => simp [Instruction.operands, left, right]
  | compare _ left right _ => simp [Instruction.operands, left, right]
  | convert read _ _ _ => simp [Instruction.operands, read]
  | call _ read _ _ => exact operands_of_map read
  | callVoid _ read => exact operands_of_map read

theorem InstructionOk.stored {i : Instruction} (h : InstructionOk E i) :
    ∀ s ∈ i.storage, ∃ ty, E.storage? s = some ty := by
  cases h with
  | load stored _ _ => simp [Instruction.storage, stored]
  | store stored _ _ => simp [Instruction.storage, stored]
  | _ => simp [Instruction.storage]

theorem InstructionOk.callee {i : Instruction} (h : InstructionOk E i) {g : Nat}
    (called : i.callee? = some g) : ∃ s, E.signatures g = some s := by
  cases h with
  | call known _ _ _ =>
      cases called
      exact ⟨_, known⟩
  | callVoid known _ =>
      cases called
      exact ⟨_, known⟩
  | _ => cases called

theorem TerminatorOk.operand {t : Terminator} (h : TerminatorOk E t) :
    ∀ o ∈ t.operands, ∃ ty, E.operand? o = some ty := by
  cases h with
  | condBranch read => simp [Terminator.operands, read]
  | switch _ read _ _ => simp [Terminator.operands, read]
  | ret _ read => simp [Terminator.operands, read]
  | _ => simp [Terminator.operands]

end

/-! ## Certified functions are valid -/

theorem Instruction.allocates?_ne_none {i : Instruction} {n : Nat} (h : i.defines = some (.slot n)) :
    i.allocates? n ≠ none := by
  cases i with
  | alloca slot ty length name =>
      cases h
      simp [allocates?]
  | call dest callee arguments => cases dest <;> cases h
  | _ => cases h

theorem Function.exists_instructionAt? (F : Function) {B : Block} (hB : B ∈ F.blocks.toList)
    {i : Instruction} (hi : i ∈ B.instructions.toList) : ∃ p, F.instructionAt? p = some i := by
  obtain ⟨b, hb⟩ := List.getElem?_of_mem hB
  obtain ⟨j, hj⟩ := List.getElem?_of_mem hi
  rw [Array.getElem?_toList] at hb hj
  exact ⟨⟨b, j⟩, by simp [instructionAt?, hb, hj]⟩

namespace Certified

variable {sig : Signatures} {globals : Nat → Option Ty} {L : Ledger}

theorem counts_operand (h : Certified sig globals L) {o : Operand} {ty : Ty}
    (typed : (L.env sig globals).operand? o = some ty) :
    ∀ x ∈ o.locals, L.function.Counts x := by
  cases o with
  | register r =>
      have lt : r < L.registers.length := (List.getElem?_eq_some_iff.mp typed).1
      simpa [Operand.locals, Function.Counts, h.registers] using lt
  | _ => simp [Operand.locals]

theorem counts_storage (h : Certified sig globals L) {s : Slot} {ty : Ty}
    (typed : (L.env sig globals).storage? s = some ty) : ∀ x ∈ s.locals, L.function.Counts x := by
  cases s with
  | stack n =>
      have lt : n < L.slots.length := (List.getElem?_eq_some_iff.mp typed).1
      simpa [Slot.locals, Function.Counts, h.slots] using lt
  | global i => simp [Slot.locals]

theorem refersIn {m : Module} (h : Certified m.signatures m.globalTypes L) {p : Place}
    {i : Instruction} (hi : L.function.instructionAt? p = some i) : i.RefersIn m L.function := by
  have ok := (h.instructions hi).1
  refine ⟨fun x hx => h.numbered.counts ⟨i, hi, hx⟩, ?_, ?_, ?_, ?_⟩
  · intro x hx
    rcases List.mem_append.mp hx with hx | hx
    · obtain ⟨o, ho, hx⟩ := List.mem_flatMap.mp hx
      obtain ⟨ty, typed⟩ := ok.operand o ho
      exact h.counts_operand typed x hx
    · obtain ⟨s, hs, hx⟩ := List.mem_flatMap.mp hx
      obtain ⟨ty, typed⟩ := ok.stored s hs
      exact h.counts_storage typed x hx
  · intro n hn
    obtain ⟨ty, typed⟩ := ok.operand _ hn
    exact (List.getElem?_eq_some_iff.mp typed).1
  · intro g hg
    obtain ⟨ty, typed⟩ := ok.stored _ hg
    obtain ⟨G, found, -⟩ := Option.map_eq_some_iff.mp typed
    exact (Array.getElem?_eq_some_iff.mp found).1
  · intro g called
    obtain ⟨s, known⟩ := ok.callee called
    obtain ⟨G, found, -⟩ := Option.map_eq_some_iff.mp known
    exact (Array.getElem?_eq_some_iff.mp found).1

theorem terminator_refersIn (h : Certified sig globals L) {b : Nat} {t : Terminator}
    (ht : L.function.terminatorOf? b = some t) : t.RefersIn L.function := by
  have ok := (h.terminators ht).1
  refine ⟨?_, ?_⟩
  · intro x hx
    obtain ⟨o, ho, hx⟩ := List.mem_flatMap.mp hx
    obtain ⟨ty, typed⟩ := ok.operand o ho
    exact h.counts_operand typed x hx
  · intro n hn
    obtain ⟨ty, typed⟩ := ok.operand _ hn
    exact (List.getElem?_eq_some_iff.mp typed).1

/-- What is there on entry to a block was brought forth on the way, whichever way that was. -/
theorem definesIn_of_entry (h : Certified sig globals L) {passed : List Nat} {b : Nat}
    (path : Path L.function passed b) : ∀ x ∈ L.entry b, L.function.DefinesIn passed x := by
  induction path with
  | start =>
      intro x hx
      rw [h.start.entry_eq] at hx
      cases hx
  | @step passed b c t before closed leads ih =>
      intro x hx
      obtain ⟨A, opens, sub⟩ := (h.terminators closed).2.2 c leads
      rw [opens.entry_eq] at hx
      rcases sub hx with earlier | ⟨i, here⟩
      · obtain ⟨b', mem, defined⟩ := ih x earlier
        exact ⟨b', List.mem_append_left _ mem, defined⟩
      · exact ⟨b, List.mem_append_right _ List.mem_cons_self, i, here⟩

theorem existsUnique_of_counts (h : Certified sig globals L) {x : Local}
    (counts : L.function.Counts x) : ∃! p, L.function.DefinesAt p x := by
  obtain ⟨p, hp⟩ := h.numbered.all counts
  exact ⟨p, hp, fun q hq => h.numbered.once hq hp⟩

theorem valid {m : Module} (h : Certified m.signatures m.globalTypes L) :
    L.function.Valid m where
  registers r hr := h.existsUnique_of_counts hr
  slots n hn := h.existsUnique_of_counts hn
  instructions := h.refersIn
  terminators := h.terminator_refersIn
  labels := by
    obtain ⟨bases, labelled⟩ := h.labelled
    exact labelled.nodup_take
  instructionsAfter := by
    intro passed b j i path hi x hx
    rcases (h.instructions hi).2 x hx with earlier | here
    · exact .inl (h.definesIn_of_entry path x earlier)
    · exact .inr here
  terminatorsAfter := by
    intro passed b t path ht x hx
    rcases (h.terminators ht).2.1 x hx with earlier | ⟨i, here⟩
    · obtain ⟨b', mem, defined⟩ := h.definesIn_of_entry path x earlier
      exact ⟨b', List.mem_append_left _ mem, defined⟩
    · exact ⟨b, List.mem_append_right _ List.mem_cons_self, i, here⟩

/-- The ledger knows a slot at the type it is allocated at. -/
theorem slotType?_eq (h : Certified sig globals L) (n : Nat) :
    L.function.slotType? n = L.slots[n]? := by
  cases found : L.function.slotType? n with
  | some ty =>
      obtain ⟨B, hB, inside⟩ := List.exists_of_findSome?_eq_some found
      obtain ⟨i, hi, here⟩ := List.exists_of_findSome?_eq_some inside
      obtain ⟨p, hp⟩ := L.function.exists_instructionAt? hB hi
      have ok := (h.instructions hp).1
      cases ok with
      | alloca allocated count =>
          simp only [Instruction.allocates?] at here
          split at here
          · next same =>
              cases here
              exact same ▸ allocated.symm
          · cases here
      | _ => cases here
  | none =>
      cases known : L.slots[n]? with
      | none => rfl
      | some ty =>
          have counts : L.function.Counts (.slot n) := by
            rw [Function.Counts, h.slots]
            exact (List.getElem?_eq_some_iff.mp known).1
          obtain ⟨p, i, hp, defines⟩ := h.numbered.all counts
          obtain ⟨B, hB, hi⟩ := Option.bind_eq_some_iff.mp hp
          have nowhere := List.findSome?_eq_none_iff.mp (List.findSome?_eq_none_iff.mp found B
            (List.mem_of_getElem? (Array.getElem?_toList ▸ hB))) i
            (List.mem_of_getElem? (Array.getElem?_toList ▸ hi))
          exact absurd nowhere (Instruction.allocates?_ne_none defines)

theorem wellTyped {m : Module} (h : Certified m.signatures m.globalTypes L) :
    L.function.WellTyped m := by
  have same : L.env m.signatures m.globalTypes = m.env L.function L.registers := by
    simp only [Ledger.env, Module.env, Env.mk.injEq, true_and]
    exact (funext h.slotType?_eq).symm
  refine ⟨L.registers, h.registers.symm, fun B hB => ⟨fun i hi => ?_, fun t ht => ?_⟩⟩
  · obtain ⟨p, hp⟩ := L.function.exists_instructionAt? hB hi
    exact same ▸ (h.instructions hp).1
  · obtain ⟨b, hb⟩ := List.getElem?_of_mem hB
    rw [Array.getElem?_toList] at hb
    have here : L.function.terminatorOf? b = some t := by
      simp [Function.terminatorOf?, hb, ht]
    exact same ▸ (h.terminators here).1

end Certified

end ImpLower.Code
