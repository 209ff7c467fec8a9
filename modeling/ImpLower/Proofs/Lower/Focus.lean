import ImpLower.Code.Draft
import ImpLower.Lower.Decl
import ImpLower.Proofs.Code.Layout

/-!
# Requests at an insertion point

While one function is lowered, a draft differs from the draft at its start in that function and in the
insertion point only. A draft is therefore written as the one at the start with a function put in its
place, and each request as what it does to that function.
-/

namespace ImpLower.Code

namespace Function

/-- The function with instructions appended to a block and new counters. -/
def emit (F : Function) (b : Nat) (is : List Instruction) (k : Counters) : Function :=
  { F with
    blocks := F.blocks.modify b fun B => { B with instructions := B.instructions ++ is.toArray }
    registers := k.registers
    slots := k.slots }

def close (F : Function) (b : Nat) (t : Terminator) : Function :=
  { F with blocks := F.blocks.modify b fun B => { B with terminator := some t } }

def grow (F : Function) (label : String) : Function :=
  { F with blocks := F.blocks.push { label := F.freshLabel label } }

def IsOpen (F : Function) (b : Nat) : Prop :=
  ∃ B, F.blocks[b]? = some B ∧ B.terminator = none

/-- Every block has a terminator and branches to blocks of the function. -/
def Closed (F : Function) : Prop :=
  ∀ B ∈ F.blocks.toList, ∃ t, B.terminator = some t ∧ ∀ b ∈ t.successors, b < F.blocks.size

/-- What callers see of a function. -/
def SameHeader (F G : Function) : Prop :=
  F.name = G.name ∧ F.result = G.result ∧ F.parameters = G.parameters

def counters (F : Function) : Counters :=
  ⟨F.registers, F.slots⟩

def endOf (F : Function) (b : Nat) : Place :=
  ⟨b, (F.blocks[b]?.map fun B => B.instructions.size).getD 0⟩

@[simp] theorem counters_emit (F : Function) (b : Nat) (is : List Instruction) (k : Counters) :
    (F.emit b is k).counters = k := rfl

@[simp] theorem counters_close (F : Function) (b : Nat) (t : Terminator) :
    (F.close b t).counters = F.counters := rfl

@[simp] theorem counters_grow (F : Function) (label : String) :
    (F.grow label).counters = F.counters := rfl

theorem getElem?_emit_self {F : Function} {b : Nat} {B : Block} (hB : F.blocks[b]? = some B)
    (is : List Instruction) (k : Counters) :
    (F.emit b is k).blocks[b]? = some { B with instructions := B.instructions ++ is.toArray } := by
  simp [emit, Array.getElem?_modify, hB]

theorem getElem?_emit_of_ne {F : Function} {b i : Nat} (h : i ≠ b) (is : List Instruction)
    (k : Counters) : (F.emit b is k).blocks[i]? = F.blocks[i]? := by
  simp [emit, Array.getElem?_modify, Ne.symm h]

theorem getElem?_close_self {F : Function} {b : Nat} {B : Block} (hB : F.blocks[b]? = some B)
    (t : Terminator) : (F.close b t).blocks[b]? = some { B with terminator := some t } := by
  simp [close, Array.getElem?_modify, hB]

theorem getElem?_close_of_ne {F : Function} {b i : Nat} (h : i ≠ b) (t : Terminator) :
    (F.close b t).blocks[i]? = F.blocks[i]? := by
  simp [close, Array.getElem?_modify, Ne.symm h]

theorem getElem?_grow_of_lt {F : Function} {i : Nat} (h : i < F.blocks.size) (label : String) :
    (F.grow label).blocks[i]? = F.blocks[i]? := by
  simp [grow, Array.getElem?_push, Nat.ne_of_lt h]

theorem getElem?_grow_self (F : Function) (label : String) :
    (F.grow label).blocks[F.blocks.size]? = some { label := F.freshLabel label } := by
  simp [grow]

@[simp] theorem size_emit (F : Function) (b : Nat) (is : List Instruction) (k : Counters) :
    (F.emit b is k).blocks.size = F.blocks.size := by
  simp [emit]

@[simp] theorem size_close (F : Function) (b : Nat) (t : Terminator) :
    (F.close b t).blocks.size = F.blocks.size := by
  simp [close]

@[simp] theorem size_grow (F : Function) (label : String) :
    (F.grow label).blocks.size = F.blocks.size + 1 := by
  simp [grow]

theorem emit_emit (F : Function) (b : Nat) (is js : List Instruction) (k k' : Counters) :
    (F.emit b is k).emit b js k' = F.emit b (is ++ js) k' := by
  have blocks : ((F.emit b is k).emit b js k').blocks = (F.emit b (is ++ js) k').blocks := by
    apply Array.ext_getElem?
    intro i
    by_cases hi : i = b
    · subst hi
      cases hB : F.blocks[i]? with
      | none => simp [emit, Array.getElem?_modify, hB]
      | some B =>
          rw [getElem?_emit_self (getElem?_emit_self hB is k), getElem?_emit_self hB]
          simp [Array.append_assoc]
    · rw [getElem?_emit_of_ne hi, getElem?_emit_of_ne hi, getElem?_emit_of_ne hi]
  unfold emit at blocks ⊢
  simp only at blocks ⊢
  rw [blocks]

theorem emit_nil (F : Function) (b : Nat) : F.emit b [] F.counters = F := by
  have blocks : (F.emit b [] F.counters).blocks = F.blocks := by
    apply Array.ext_getElem?
    intro i
    by_cases hi : i = b
    · subst hi
      cases hB : F.blocks[i]? with
      | none => simp [emit, Array.getElem?_modify, hB]
      | some B =>
          rw [getElem?_emit_self hB]
          simp
    · rw [getElem?_emit_of_ne hi]
  have rest : F.emit b [] F.counters = { F with blocks := (F.emit b [] F.counters).blocks } := rfl
  rw [rest, blocks]

theorem isOpen_emit {F : Function} {b : Nat} {is : List Instruction} {k : Counters}
    (h : F.IsOpen b) : (F.emit b is k).IsOpen b := by
  obtain ⟨B, hB, ht⟩ := h
  exact ⟨_, getElem?_emit_self hB is k, ht⟩

end Function

namespace Draft

/-- The draft with function `f` replaced and the insertion point in one of its blocks. -/
def focus (d : Draft) (f : Nat) (F : Function) (b : Nat) : Draft where
  module := { d.module with functions := d.module.functions.setIfInBounds f F }
  cursor := some ⟨f, b⟩

/-- The function stands for the one at position `f`: only its body differs. -/
def Hosts (d : Draft) (f : Nat) (F : Function) : Prop :=
  ∃ F₀, d.module.functions[f]? = some F₀ ∧ F₀.SameHeader F

theorem Hosts.lt {d : Draft} {f : Nat} {F : Function} (h : d.Hosts f F) :
    f < d.module.functions.size := by
  obtain ⟨F₀, hF, -⟩ := h
  exact (Array.getElem?_eq_some_iff.mp hF).1

theorem function_focus_self {d : Draft} {f : Nat} {F : Function} (h : d.Hosts f F) (b : Nat) :
    (d.focus f F b).function f = .ok F := by
  simp [function, focus, h.lt]

theorem function_focus {d : Draft} {f g : Nat} {F G : Function} (h : d.Hosts f F)
    (hg : d.module.functions[g]? = some G) (b : Nat) :
    ∃ G', (d.focus f F b).function g = .ok G' ∧ G'.result = G.result := by
  by_cases hfg : f = g
  · subst hfg
    have hosts := h
    obtain ⟨F₀, hF, -, result, -⟩ := h
    have same : F₀ = G := Option.some.inj (hF.symm.trans hg)
    exact ⟨F, function_focus_self hosts b, same ▸ result.symm⟩
  · refine ⟨G, ?_, rfl⟩
    simp [function, focus, hfg, hg]

theorem function_eq_ok {d : Draft} {f : Nat} {F : Function} :
    d.function f = .ok F ↔ d.module.functions[f]? = some F := by
  unfold function
  cases d.module.functions[f]? with
  | none => simp
  | some G => simp

/-- Instructions go into a block that exists and is open. -/
theorem insertionPoint_eq_ok {d : Draft} {place : BlockId} {F : Function} {B : Block} :
    d.insertionPoint = .ok (place, F, B) ↔
      d.cursor = some place ∧ d.module.functions[place.function]? = some F ∧
        F.blocks[place.block]? = some B ∧ B.terminator = none := by
  unfold insertionPoint
  cases d.cursor with
  | none => simp
  | some c =>
      simp only [except_bind_eq_ok, function_eq_ok, Option.some.injEq]
      constructor
      · rintro ⟨G, hG, ok⟩
        cases hB : G.blocks[c.block]? with
        | none => simp [hB] at ok
        | some A =>
            simp only [hB, except_guard_eq_ok, Option.not_isSome_iff_eq_none] at ok
            obtain ⟨isOpen, same⟩ := ok
            cases same
            exact ⟨rfl, hG, hB, isOpen⟩
      · rintro ⟨rfl, hF, hB, isOpen⟩
        refine ⟨F, hF, ?_⟩
        simp [hB, isOpen]

theorem insertionPoint_focus {d : Draft} {f b : Nat} {F : Function} {B : Block} (h : d.Hosts f F)
    (hB : F.blocks[b]? = some B) (ht : B.terminator = none) :
    (d.focus f F b).insertionPoint = .ok (⟨f, b⟩, F, B) :=
  insertionPoint_eq_ok.mpr ⟨rfl, function_eq_ok.mp (function_focus_self h b), hB, ht⟩

theorem setFunction_focus (d : Draft) (f : Nat) (F G : Function) (b : Nat) :
    (d.focus f F b).setFunction f G = d.focus f G b := by
  simp [setFunction, focus]

theorem consult_eq_ok {α : Type} {look : Draft → Except Refusal α} {d d' : Draft} {a : α} :
    (consult look).exec d = (.ok a, d') ↔ look d = .ok a ∧ d' = d := by
  simp [consult, eq_comm]

theorem addFunction_of_new {d : Draft} {name : String} (new : d.module.functionIndex? name = none)
    (result : Ty) (parameters : List Ty) :
    (addFunction name result parameters).exec d = (.ok d.module.functions.size,
      { d with module := { d.module with
        functions := d.module.functions.push { name, result, parameters } } }) := by
  rw [addFunction, Stateful.exec_bind_of_ok (Stateful.exec_get d), new]
  exact congrArg (fun n => (Except.ok n, _)) (by simp)

theorem addGlobal_exec (d : Draft) (g : Global) :
    (addGlobal g).exec d = (.ok (.global d.module.globals.size),
      { d with module := { d.module with globals := d.module.globals.push g } }) :=
  congrArg (fun n => (Except.ok (Slot.global n), _)) (by simp)

theorem editFunction_focus {d : Draft} {f : Nat} {F : Function} (h : d.Hosts f F)
    (change : Function → Function) (b : Nat) :
    (editFunction f change).exec (d.focus f F b) = (.ok (), d.focus f (change F) b) := by
  have lt := h.lt
  have changed : (d.module.functions.setIfInBounds f F).modify f change =
      d.module.functions.setIfInBounds f (change F) := by
    apply Array.ext_getElem?
    intro j
    by_cases hj : f = j
    · subst hj
      rw [Array.getElem?_modify]
      simp [lt]
    · simp [Array.getElem?_modify, hj]
  simp only [editFunction, Stateful.exec_modify, focus, changed]

theorem addInstruction_focus {d : Draft} {f b : Nat} {F : Function} (h : d.Hosts f F)
    (i : Instruction) :
    (addInstruction ⟨f, b⟩ i).exec (d.focus f F b) =
      (.ok (), d.focus f (F.emit b [i] F.counters) b) := by
  rw [addInstruction, editBlock, editFunction_focus h]
  simp [Function.emit, Function.counters]

theorem append_focus {d : Draft} {f b : Nat} {F : Function} (h : d.Hosts f F) (ho : F.IsOpen b)
    (i : Instruction) :
    (append i).exec (d.focus f F b) = (.ok (), d.focus f (F.emit b [i] F.counters) b) := by
  obtain ⟨B, hB, ht⟩ := ho
  have found := consult_eq_ok.mpr ⟨insertionPoint_focus h hB ht, rfl⟩
  exact Stateful.exec_seq found (addInstruction_focus h i)

theorem appendDef_focus {d : Draft} {f b : Nat} {F : Function} (h : d.Hosts f F)
    (ho : F.IsOpen b) (i : Nat → Instruction) :
    (appendDef i).exec (d.focus f F b) = (.ok (.register F.registers),
      d.focus f (F.emit b [i F.registers] ⟨F.registers + 1, F.slots⟩) b) := by
  obtain ⟨B, hB, ht⟩ := ho
  have found := consult_eq_ok.mpr ⟨insertionPoint_focus h hB ht, rfl⟩
  have counted := editFunction_focus h (fun F => { F with registers := F.registers + 1 }) b
  have host : d.Hosts f { F with registers := F.registers + 1 } := h
  exact Stateful.exec_seq found <| Stateful.exec_seq counted <|
    Stateful.exec_seq (addInstruction_focus host (i F.registers)) rfl

theorem appendAlloca_focus {d : Draft} {f b : Nat} {F : Function} (h : d.Hosts f F)
    (ho : F.IsOpen b) (ty : Ty) (length : Option Operand) (name : String) :
    (appendAlloca ty length name).exec (d.focus f F b) = (.ok (.stack F.slots),
      d.focus f (F.emit b [.alloca F.slots ty length name] ⟨F.registers, F.slots + 1⟩) b) := by
  obtain ⟨B, hB, ht⟩ := ho
  have found := consult_eq_ok.mpr ⟨insertionPoint_focus h hB ht, rfl⟩
  have counted := editFunction_focus h (fun F => { F with slots := F.slots + 1 }) b
  have host : d.Hosts f { F with slots := F.slots + 1 } := h
  exact Stateful.exec_seq found <| Stateful.exec_seq counted <|
    Stateful.exec_seq (addInstruction_focus host (.alloca F.slots ty length name)) rfl

theorem close_focus {d : Draft} {f b : Nat} {F : Function} (h : d.Hosts f F) (ho : F.IsOpen b)
    (t : Terminator) : (close t).exec (d.focus f F b) = (.ok (), d.focus f (F.close b t) b) := by
  obtain ⟨B, hB, ht⟩ := ho
  have found := consult_eq_ok.mpr ⟨insertionPoint_focus h hB ht, rfl⟩
  exact Stateful.exec_seq found (editFunction_focus h (Function.close · b t) b)

theorem verifyBlock_eq_ok {F : Function} {B : Block} :
    verifyBlock F B = .ok () ↔
      ∃ t, B.terminator = some t ∧ ∀ b ∈ t.successors, b < F.blocks.size := by
  unfold verifyBlock
  cases B.terminator with
  | none => simp
  | some t =>
      have inside : t.successors.find? (F.blocks.size ≤ ·) = none ↔
          ∀ b ∈ t.successors, b < F.blocks.size := by
        simp [List.find?_eq_none]
      cases found : t.successors.find? (F.blocks.size ≤ ·) with
      | none => simpa [found] using inside
      | some b => simpa [found] using inside

/-- A draft is finished when all its functions are closed, and it is returned as it is. -/
theorem complete_eq_ok {d : Draft} {m : Module} :
    d.complete = .ok m ↔ (∀ F ∈ d.module.functions.toList, F.Closed) ∧ m = d.module := by
  unfold complete
  simp only [except_bind_eq_ok, except_pure_eq_ok, Function.Closed]
  constructor
  · rintro ⟨_, checked, rfl⟩
    refine ⟨fun F hF B hB => ?_, rfl⟩
    exact verifyBlock_eq_ok.mp (except_forM_eq_ok.mp (except_forM_eq_ok.mp checked F hF) B hB)
  · rintro ⟨closed, rfl⟩
    refine ⟨(), except_forM_eq_ok.mpr fun F hF => except_forM_eq_ok.mpr fun B hB => ?_, rfl⟩
    exact verifyBlock_eq_ok.mpr (closed F hF B hB)

theorem branchTarget_focus (d : Draft) (f : Nat) (F : Function) (b target : Nat) :
    (d.focus f F b).branchTarget ⟨f, target⟩ = .ok target := by
  simp [branchTarget, focus]

theorem consult_branchTarget_focus (d : Draft) (f : Nat) (F : Function) (b target : Nat) :
    (consult (·.branchTarget ⟨f, target⟩)).exec (d.focus f F b) =
      (.ok target, d.focus f F b) :=
  consult_eq_ok.mpr ⟨branchTarget_focus d f F b target, rfl⟩

/-! Branches inside the function close the block, and are refused only where that is. -/

theorem perform_branch_focus (d : Draft) (f : Nat) (F : Function) (b target : Nat) :
    (perform (.branch ⟨f, target⟩)).exec (d.focus f F b) =
      (close (.branch target)).exec (d.focus f F b) :=
  Stateful.exec_bind_of_ok (consult_branchTarget_focus d f F b target)

theorem perform_condBranch_focus (d : Draft) (f : Nat) (F : Function) (b : Nat) (v : Operand)
    (onTrue onFalse : Nat) :
    (perform (.condBranch v ⟨f, onTrue⟩ ⟨f, onFalse⟩)).exec (d.focus f F b) =
      (close (.condBranch v onTrue onFalse)).exec (d.focus f F b) :=
  Stateful.exec_seq (consult_branchTarget_focus d f F b onTrue) <|
    Stateful.exec_bind_of_ok (consult_branchTarget_focus d f F b onFalse)

theorem perform_switch_focus (d : Draft) (f : Nat) (F : Function) (b : Nat) (v : Operand)
    (default : Nat) (cases : List (Literal × Nat)) :
    (perform (.switch v ⟨f, default⟩ (cases.map fun c => (c.1, BlockId.mk f c.2)))).exec
      (d.focus f F b) = (close (.switch v default cases)).exec (d.focus f F b) := by
  have targets : (cases.map fun c => (c.1, BlockId.mk f c.2)).mapM
      (fun c => return (c.1, ← (d.focus f F b).branchTarget c.2)) = .ok cases := by
    rw [except_mapM_eq_ok, List.forall₂_map_left_iff]
    refine List.forall₂_same.mpr fun c _ => ?_
    simp [branchTarget_focus, bind, Except.bind, Pure.pure, Except.pure]
  exact Stateful.exec_seq (consult_branchTarget_focus d f F b default) <|
    Stateful.exec_bind_of_ok (consult_eq_ok.mpr ⟨targets, rfl⟩)

theorem addBlock_focus {d : Draft} {f b : Nat} {F : Function} (h : d.Hosts f F) (label : String) :
    (d.focus f F b).addBlock f label =
      (⟨f, F.blocks.size⟩, d.focus f (F.grow label) b) := by
  have hf : (d.focus f F b).module.functions[f]? = some F := by
    simp [focus, h.lt]
  simp [addBlock, hf, setFunction_focus, Function.grow]

theorem isClosed_focus {d : Draft} {f b : Nat} {F : Function} {B : Block} (h : d.Hosts f F)
    (hB : F.blocks[b]? = some B) : (d.focus f F b).isClosed = B.terminator.isSome := by
  have hf : (d.focus f F b).module.functions[f]? = some F := by
    simp [focus, h.lt]
  simp [isClosed, show (d.focus f F b).cursor = some ⟨f, b⟩ from rfl, hf, hB]

end Draft

end ImpLower.Code

namespace ImpLower.Lower

open Code

/-! ## Spots -/

/-- Lowering at the end of block `b` of function `f`. -/
def atEnd (d : Draft) (f : Nat) (F : Function) (b : Nat) (sc : Names) :
    Lowering Draft Operand Slot Nat where
  emitter := d.focus f F b
  scope := sc
  function := some f

/-- An insertion point that takes instructions: an open block of a function that is being lowered. -/
structure Spot where
  draft : Draft
  index : Nat
  function : Function
  block : Nat
  hosts : draft.Hosts index function
  isOpen : function.IsOpen block

namespace Spot

def state (s : Spot) (sc : Names) : Lowering Draft Operand Slot Nat :=
  atEnd s.draft s.index s.function s.block sc

def registers (s : Spot) : Nat :=
  s.function.registers

def slots (s : Spot) : Nat :=
  s.function.slots

/-- The spot behind some instructions. -/
def emit (s : Spot) (is : List Instruction) (k : Counters) : Spot :=
  { s with
    function := s.function.emit s.block is k
    hosts := s.hosts
    isOpen := Function.isOpen_emit s.isOpen }

theorem emit_emit (s : Spot) (is js : List Instruction) (k k' : Counters) :
    (s.emit is k).emit js k' = s.emit (is ++ js) k' := by
  simp [emit, Function.emit_emit]

theorem emit_nil (s : Spot) : s.emit [] ⟨s.registers, s.slots⟩ = s := by
  have h := Function.emit_nil s.function s.block
  rcases s with ⟨d, f, F, b, hosts, isOpen⟩
  simp only [emit, registers, slots, mk.injEq, true_and, and_true]
  exact h

end Spot

/-- The step succeeds and appends instructions at the spot; names change from `sc` to `sc'`. -/
def EmitsInto {α : Type} (s : Spot) (sc : Names) (m : Lower Draft Operand Slot Nat α)
    (is : List Instruction) (a : α) (k : Counters) (sc' : Names) : Prop :=
  m.exec (s.state sc) = (.ok a, (s.emit is k).state sc')

/-- The step succeeds and does nothing but append instructions at the spot. -/
abbrev Emits {α : Type} (s : Spot) (sc : Names) (m : Lower Draft Operand Slot Nat α)
    (is : List Instruction) (a : α) (k : Counters) : Prop :=
  EmitsInto s sc m is a k sc

section

variable {s : Spot} {sc : Names} {site : Construct}

namespace EmitsInto

variable {α β : Type} {m : Lower Draft Operand Slot Nat α} {g : α → Lower Draft Operand Slot Nat β}
  {is js : List Instruction} {a : α} {c : β} {k k' : Counters} {sc₁ sc' : Names}

theorem pure : EmitsInto s sc (Pure.pure a) [] a ⟨s.registers, s.slots⟩ sc := by
  unfold EmitsInto
  rw [s.emit_nil]
  rfl

theorem bind (h : EmitsInto s sc m is a k sc₁)
    (h' : EmitsInto (s.emit is k) sc₁ (g a) js c k' sc') :
    EmitsInto s sc (m >>= g) (is ++ js) c k' sc' := by
  unfold EmitsInto at *
  rw [Stateful.exec_bind_of_ok h, h', Spot.emit_emit]

/-- Steps that emit nothing may come first. -/
theorem after (h : m.exec (s.state sc) = (.ok a, s.state sc₁))
    (h' : EmitsInto s sc₁ (g a) is c k sc') : EmitsInto s sc (m >>= g) is c k sc' := by
  unfold EmitsInto at *
  rw [Stateful.exec_bind_of_ok h, h']

/-- So may steps that come last. -/
theorem before (h : EmitsInto s sc m is a k sc₁)
    (h' : (g a).exec ((s.emit is k).state sc₁) = (.ok c, (s.emit is k).state sc')) :
    EmitsInto s sc (m >>= g) is c k sc' := by
  unfold EmitsInto at *
  rw [Stateful.exec_bind_of_ok h, h']

end EmitsInto

/-! ## Lowering steps -/

theorem exec_request {r : DraftRequest} {reply : r.Reply Module} {d d' : Draft} {fn : Option Nat}
    (h : (Draft.perform r).exec d = (.ok reply, d')) :
    (request site r).exec (⟨d, sc, fn⟩ : Lowering Draft Operand Slot Nat) =
      (.ok reply, ⟨d', sc, fn⟩) := by
  simp [request, Emitter.perform, h]

theorem exec_constant (value : Literal) :
    (request site (.constant value) : Lower Draft Operand Slot Nat Operand).exec (s.state sc) =
      (.ok (.constant value), s.state sc) :=
  exec_request rfl

theorem emits_load (slot : Slot) (ty : Ty) (o : Option Operand) (name : String) :
    Emits s sc (request site (.load slot ty o name)) [.load s.registers slot ty o]
      (.register s.registers) ⟨s.registers + 1, s.slots⟩ :=
  exec_request (Draft.appendDef_focus s.hosts s.isOpen (.load · slot ty o))

theorem emits_binary (op : Operation) (v w : Operand) (name : String) :
    Emits s sc (request site (.binary op v w name)) [.binary s.registers op v w]
      (.register s.registers) ⟨s.registers + 1, s.slots⟩ :=
  exec_request (Draft.appendDef_focus s.hosts s.isOpen (.binary · op v w))

theorem emits_compare (test : Predicate) (v w : Operand) (name : String) :
    Emits s sc (request site (.compare test v w name)) [.compare s.registers test v w]
      (.register s.registers) ⟨s.registers + 1, s.slots⟩ :=
  exec_request (Draft.appendDef_focus s.hosts s.isOpen (.compare · test v w))

theorem emits_convert (c : Conversion) (v : Operand) (ty : Ty) (name : String) :
    Emits s sc (request site (.convert c v ty name)) [.convert s.registers c v ty]
      (.register s.registers) ⟨s.registers + 1, s.slots⟩ :=
  exec_request (Draft.appendDef_focus s.hosts s.isOpen (.convert · c v ty))

theorem emits_store (slot : Slot) (ty : Ty) (o : Option Operand) (v : Operand) :
    Emits s sc (request site (.store slot ty o v)) [.store slot ty o v] ()
      ⟨s.registers, s.slots⟩ :=
  exec_request (Draft.append_focus s.hosts s.isOpen (.store slot ty o v))

theorem emits_alloca (ty : Ty) (length : Option Operand) (name : String) :
    Emits s sc (request site (.alloca ty length name)) [.alloca s.slots ty length name]
      (.stack s.slots) ⟨s.registers, s.slots + 1⟩ :=
  exec_request (Draft.appendAlloca_focus s.hosts s.isOpen _ _ _)

theorem emits_call {g : Nat} {G : Function} (hg : s.draft.module.functions[g]? = some G)
    (valued : G.result ≠ .void) (vs : List Operand) (name : String) :
    Emits s sc (request site (.call g vs name)) [.call (some s.registers) g vs]
      (some (.register s.registers)) ⟨s.registers + 1, s.slots⟩ := by
  obtain ⟨G', hG, result⟩ := Draft.function_focus s.hosts hg s.block
  refine exec_request (Stateful.exec_seq (Draft.consult_eq_ok.mpr ⟨hG, rfl⟩) ?_)
  rw [if_neg (result ▸ valued)]
  exact Stateful.exec_seq
    (Draft.appendDef_focus s.hosts s.isOpen fun dest => .call (some dest) g vs) rfl

theorem emits_callVoid {g : Nat} {G : Function} (hg : s.draft.module.functions[g]? = some G)
    (void : G.result = .void) (vs : List Operand) (name : String) :
    Emits s sc (request site (.call g vs name)) [.call none g vs] none
      ⟨s.registers, s.slots⟩ := by
  obtain ⟨G', hG, result⟩ := Draft.function_focus s.hosts hg s.block
  refine exec_request (Stateful.exec_seq (Draft.consult_eq_ok.mpr ⟨hG, rfl⟩) ?_)
  rw [if_pos (result.trans void)]
  exact Stateful.exec_seq (Draft.append_focus s.hosts s.isOpen (.call none g vs)) rfl

theorem exec_lookupVar {name : String} {slot : Slot} {ty : Ty} {sizes : List Operand}
    (h : sc.lookup name = some (.var slot ty sizes)) :
    (lookupVar name site : Lower Draft Operand Slot Nat _).exec (s.state sc) =
      (.ok (slot, ty, sizes), s.state sc) := by
  simp [lookupVar, Spot.state, atEnd, h]

theorem exec_lookupFn {name : String} {g : Nat} (h : sc.lookup name = some (.fn g)) :
    (lookupFn name site : Lower Draft Operand Slot Nat Nat).exec (s.state sc) =
      (.ok g, s.state sc) := by
  simp [lookupFn, Spot.state, atEnd, h]

/-! ## Blocks and terminators -/

theorem exec_isClosed {d : Draft} {f b : Nat} {F : Function} {B : Block} (h : d.Hosts f F)
    (hB : F.blocks[b]? = some B) :
    (isClosed : Lower Draft Operand Slot Nat Bool).exec (atEnd d f F b sc) =
      (.ok B.terminator.isSome, atEnd d f F b sc) := by
  simp [isClosed, Emitter.isClosed, atEnd, Draft.isClosed_focus h hB]

/-- The state after the block at the spot was closed. -/
def Spot.close (s : Spot) (sc : Names) (t : Terminator) : Lowering Draft Operand Slot Nat :=
  atEnd s.draft s.index (s.function.close s.block t) s.block sc

theorem exec_branch (target : Nat) :
    (request site (.branch ⟨s.index, target⟩) : Lower Draft Operand Slot Nat Unit).exec
      (s.state sc) = (.ok (), s.close sc (.branch target)) :=
  exec_request <| (Draft.perform_branch_focus _ _ _ _ _).trans <|
    Draft.close_focus s.hosts s.isOpen (.branch target)

theorem exec_condBranch (v : Operand) (onTrue onFalse : Nat) :
    (request site (.condBranch v ⟨s.index, onTrue⟩ ⟨s.index, onFalse⟩) :
      Lower Draft Operand Slot Nat Unit).exec (s.state sc) =
        (.ok (), s.close sc (.condBranch v onTrue onFalse)) :=
  exec_request <| (Draft.perform_condBranch_focus _ _ _ _ _ _ _).trans <|
    Draft.close_focus s.hosts s.isOpen (.condBranch v onTrue onFalse)

theorem exec_switch (v : Operand) (default : Nat) (cases : List (Literal × Nat)) :
    (request site (.switch v ⟨s.index, default⟩
      (cases.map fun c => (c.1, BlockId.mk s.index c.2))) : Lower Draft Operand Slot Nat Unit).exec
        (s.state sc) = (.ok (), s.close sc (.switch v default cases)) :=
  exec_request <| (Draft.perform_switch_focus _ _ _ _ _ _ _).trans <|
    Draft.close_focus s.hosts s.isOpen (.switch v default cases)

theorem exec_ret (v : Option Operand) :
    (request site (.ret v) : Lower Draft Operand Slot Nat Unit).exec (s.state sc) =
      (.ok (), s.close sc (.ret v)) :=
  exec_request (Draft.close_focus s.hosts s.isOpen (.ret v))

theorem exec_unreachable :
    (request site .unreachable : Lower Draft Operand Slot Nat Unit).exec (s.state sc) =
      (.ok (), s.close sc .unreachable) :=
  exec_request (Draft.close_focus s.hosts s.isOpen .unreachable)

theorem exec_declare {name : String} {storage : Storage Operand Slot Nat}
    (h : sc.declaresInCurrent name = false) :
    (declare name storage site : Lower Draft Operand Slot Nat Unit).exec (s.state sc) =
      (.ok (), s.state (sc.push name storage)) := by
  simp [declare, Spot.state, atEnd, Scope.declare_eq_ok.mpr ⟨h, rfl⟩]

end

end ImpLower.Lower
