import ImpLower.Machine.Run
import ImpLower.Proofs.Code.Validity

/-!
# Runs in a larger module

A module may be extended by globals and functions after its own. Code that refers only to the module
runs there as it does in the module itself: each step does the same, and the additional globals stay
as they are.
-/

namespace ImpLower.Machine

open Code

def State.extend (s : State) (extra : Array Cell) : State :=
  { s with globals := s.globals ++ extra }

def Outcome.extend (extra : Array Cell) : Outcome → Outcome
  | running s => running (s.extend extra)
  | returned value globals => returned value (globals ++ extra)
  | trapped trap globals => trapped trap (globals ++ extra)

def Ending.extend (e : Ending) (extra : Array Cell) : Ending :=
  { e with globals := e.globals ++ extra }

variable {m m' : Code.Module} {s : State} {extra : Array Cell}

@[simp] theorem top_extend (s : State) (extra : Array Cell) : (s.extend extra).top = s.top := rfl

@[simp] theorem depth_extend (s : State) (extra : Array Cell) :
    (s.extend extra).depth = s.depth := rfl

/-! ## One step does the same -/

theorem attempt_extend {α : Type} (r : Except Trap α) {k : α → State → Outcome}
    (h : ∀ a, k a (s.extend extra) = (k a s).extend extra) :
    (s.extend extra).attempt r k = (s.attempt r k).extend extra := by
  cases r with
  | error trap => rfl
  | ok a => exact h a

theorem cell_extend {slot : Slot} (there : ∀ g, slot = .global g → g < s.globals.size) :
    (s.extend extra).cell slot = s.cell slot := by
  cases slot with
  | stack n => rfl
  | global g =>
      have lt := there g rfl
      simp [State.cell, State.extend, Array.getElem?_append_left lt]

theorem element_extend {slot : Slot} (there : ∀ g, slot = .global g → g < s.globals.size)
    (index : Int64) : (s.extend extra).element slot index = s.element slot index := by
  rw [State.element, State.element, cell_extend there]

theorem modify_append {α : Type} (xs ys : Array α) {i : Nat} (lt : i < xs.size) (f : α → α) :
    (xs ++ ys).modify i f = xs.modify i f ++ ys := by
  apply Array.ext_getElem?
  intro j
  by_cases hj : j < xs.size
  · rw [Array.getElem?_append_left (by simpa using hj), Array.getElem?_modify,
      Array.getElem?_modify, Array.getElem?_append_left hj]
  · have ne : ¬ i = j := by omega
    rw [Array.getElem?_append_right (by simpa using hj), Array.getElem?_modify, if_neg ne,
      Array.getElem?_append_right (by omega), Array.size_modify]

theorem write_extend {slot : Slot} (there : ∀ g, slot = .global g → g < s.globals.size)
    (position : Nat) (value : Literal) :
    (s.extend extra).write slot position value = (s.write slot position value).extend extra := by
  cases slot with
  | stack n => rfl
  | global g => simp [State.write, State.extend, modify_append _ _ (there g rfl)]

theorem activate_extends (more : m.Extends m') {callee : Nat} (known : callee < m.functions.size)
    (arguments : List Literal) (depth : Nat) :
    activate m' callee arguments depth = activate m callee arguments depth := by
  have found : m.functions.toList[callee]? = some m.functions[callee] := by simp
  have same := getElem?_of_prefix more.functions found
  rw [Array.getElem?_toList] at found same
  rw [activate, activate, found, same]

theorem execInstruction_extend (more : m.Extends m') {F : Function} {i : Instruction}
    (refers : i.RefersIn m F) (size : s.globals.size = m.globals.size) :
    execInstruction m' i (s.extend extra) = (execInstruction m i s).extend extra := by
  have there : ∀ {slot : Slot}, slot ∈ i.storage → ∀ g, slot = .global g → g < s.globals.size := by
    rintro slot mem g rfl
    exact size ▸ refers.globals g mem
  cases i with
  | alloca slot ty length name =>
      simp only [execInstruction, top_extend]
      refine attempt_extend _ fun n => ?_
      by_cases fits : slot < s.top.slots.size
      · simp only [top_extend, fits, if_true]
        rfl
      · simp only [top_extend, fits, if_false]
        rfl
  | load dest slot ty offset =>
      simp only [execInstruction, top_extend, element_extend (there List.mem_cons_self)]
      exact attempt_extend _ fun n => rfl
  | store slot ty offset value =>
      simp only [execInstruction, top_extend, element_extend (there List.mem_cons_self)]
      refine attempt_extend _ fun n => ?_
      simp only [write_extend (there List.mem_cons_self)]
      rfl
  | binary dest op left right =>
      simp only [execInstruction, top_extend]
      exact attempt_extend _ fun n => rfl
  | compare dest test left right =>
      simp only [execInstruction, top_extend]
      exact attempt_extend _ fun n => rfl
  | convert dest conversion value target =>
      simp only [execInstruction, top_extend]
      exact attempt_extend _ fun n => rfl
  | call dest callee arguments =>
      simp only [execInstruction, top_extend, depth_extend,
        activate_extends more (refers.callee callee rfl)]
      exact attempt_extend _ fun n => rfl

theorem execTerminator_extend (t : Terminator) :
    execTerminator t (s.extend extra) = (execTerminator t s).extend extra := by
  cases t with
  | branch target => rfl
  | condBranch condition onTrue onFalse =>
      simp only [execTerminator, top_extend]
      exact attempt_extend _ fun n => rfl
  | switch value default cases =>
      simp only [execTerminator, top_extend]
      exact attempt_extend _ fun n => rfl
  | ret value =>
      simp only [execTerminator, top_extend]
      refine attempt_extend _ fun v => ?_
      simp only [State.pop, State.extend]
      split <;> rfl
  | unreachable => rfl

/-! ## Runs stay inside the module -/

/-- All code of the module refers to the module only. -/
def SelfContained (m : Code.Module) : Prop :=
  ∀ F ∈ m.functions.toList, ∀ {p i}, F.instructionAt? p = some i → i.RefersIn m F

/-- The state has the globals of the module and runs functions of the module. -/
structure State.Inside (m : Code.Module) (s : State) : Prop where
  globals : s.globals.size = m.globals.size
  top : s.top.function ∈ m.functions.toList
  callers : ∀ c ∈ s.callers, c.activation.function ∈ m.functions.toList

/-- A step that leads on stays inside the module, and one that ends keeps the globals. -/
def Outcome.Inside (m : Code.Module) : Outcome → Prop
  | running s => s.Inside m
  | returned _ globals => globals.size = m.globals.size
  | trapped _ globals => globals.size = m.globals.size

theorem attempt_inside {α : Type} (inside : s.Inside m) (r : Except Trap α)
    {k : α → State → Outcome} (h : ∀ a, r = .ok a → (k a s).Inside m) :
    (s.attempt r k).Inside m := by
  cases r with
  | error trap => exact inside.globals
  | ok a => exact h a rfl

@[simp] theorem function_setRegister (a : Activation) (index : Nat) (value : Literal) :
    (a.setRegister index value).function = a.function := by
  unfold Activation.setRegister
  split <;> rfl

@[simp] theorem function_receive (a : Activation) (dest : Option Nat) (value : Option Literal) :
    (a.receive dest value).function = a.function := by
  unfold Activation.receive
  split
  · exact function_setRegister _ _ _
  · rfl

theorem setRegister_inside (inside : s.Inside m) (dest : Nat) (value : Literal) :
    (s.setRegister dest value).advance.Inside m :=
  ⟨inside.globals, (function_setRegister s.top dest value).symm ▸ inside.top, inside.callers⟩

theorem write_inside (inside : s.Inside m) (slot : Slot) (position : Nat) (value : Literal) :
    (s.write slot position value).advance.Inside m := by
  cases slot with
  | stack n => exact ⟨inside.globals, inside.top, inside.callers⟩
  | global g =>
      exact ⟨(Array.size_modify ..).trans inside.globals, inside.top, inside.callers⟩

theorem function_of_activate {callee : Nat} {arguments : List Literal} {depth : Nat}
    {a : Activation} (h : activate m callee arguments depth = .ok a) :
    a.function ∈ m.functions.toList := by
  unfold activate at h
  split at h
  · cases h
  · next F found =>
      split at h
      · cases h
      · split at h
        · cases h
        · cases h
          exact List.mem_of_getElem? (Array.getElem?_toList ▸ found)

theorem execInstruction_inside (inside : s.Inside m) (i : Instruction) :
    (execInstruction m i s).Inside m := by
  cases i with
  | alloca slot ty length name =>
      rw [execInstruction]
      refine attempt_inside inside _ fun n _ => ?_
      split
      · exact ⟨inside.globals, inside.top, inside.callers⟩
      · exact inside.globals
  | load dest slot ty offset =>
      rw [execInstruction]
      exact attempt_inside inside _ fun _ _ => setRegister_inside inside _ _
  | store slot ty offset value =>
      rw [execInstruction]
      exact attempt_inside inside _ fun _ _ => write_inside inside _ _ _
  | binary dest op left right =>
      rw [execInstruction]
      exact attempt_inside inside _ fun _ _ => setRegister_inside inside _ _
  | compare dest test left right =>
      rw [execInstruction]
      exact attempt_inside inside _ fun _ _ => setRegister_inside inside _ _
  | convert dest conversion value target =>
      rw [execInstruction]
      exact attempt_inside inside _ fun _ _ => setRegister_inside inside _ _
  | call dest callee arguments =>
      rw [execInstruction]
      refine attempt_inside inside _ fun a activated => ⟨inside.globals, ?_, ?_⟩
      · obtain ⟨values, -, activated⟩ := except_bind_eq_ok.mp activated
        exact function_of_activate activated
      · exact List.forall_mem_cons.mpr ⟨inside.top, inside.callers⟩

theorem execTerminator_inside (inside : s.Inside m) (t : Terminator) :
    (execTerminator t s).Inside m := by
  have jump : ∀ target, (s.jump target).Inside m := fun target =>
    ⟨inside.globals, inside.top, inside.callers⟩
  cases t with
  | branch target => exact jump target
  | condBranch condition onTrue onFalse =>
      rw [execTerminator]
      exact attempt_inside inside _ fun target _ => jump target
  | switch value default cases =>
      rw [execTerminator]
      exact attempt_inside inside _ fun target _ => jump target
  | ret value =>
      rw [execTerminator]
      refine attempt_inside inside _ fun v _ => ?_
      unfold State.pop
      split
      · exact inside.globals
      · next caller callers same =>
          obtain ⟨first, others⟩ := List.forall_mem_cons.mp (same ▸ inside.callers)
          exact ⟨inside.globals, (function_receive caller.activation _ _).symm ▸ first, others⟩
  | unreachable => exact inside.globals

theorem step_inside (inside : s.Inside m) (block : Block) : (step m block s).Inside m := by
  unfold step
  split
  · exact execInstruction_inside inside _
  · split
    · exact execTerminator_inside inside _
    · exact inside.globals

theorem step_extend (contained : SelfContained m) (more : m.Extends m') (inside : s.Inside m)
    {block : Block} (here : s.top.currentBlock? = some block) :
    step m' block (s.extend extra) = (step m block s).extend extra := by
  simp only [step, top_extend]
  cases next : block.instructions[s.top.next]? with
  | some i =>
      have placed : s.top.function.instructionAt? ⟨s.top.block, s.top.next⟩ = some i := by
        rw [Activation.currentBlock?] at here
        simp [Function.instructionAt?, here, next]
      exact execInstruction_extend more (contained _ inside.top placed) inside.globals
  | none =>
      cases block.terminator with
      | some t => exact execTerminator_extend t
      | none => rfl

/-- A whole run does the same, and the additional globals stay as they are. -/
theorem run_extend (contained : SelfContained m) (more : m.Extends m') (extra : Array Cell)
    (inside : s.Inside m) (limit left steps : Nat) :
    run m' limit left steps (s.extend extra) = (run m limit left steps s).extend extra ∧
      (run m limit left steps s).globals.size = m.globals.size := by
  induction left generalizing steps s with
  | zero =>
      simp only [run, top_extend]
      split <;> exact ⟨rfl, inside.globals⟩
  | succ left ih =>
      simp only [run, top_extend]
      cases here : s.top.currentBlock? with
      | none => exact ⟨rfl, inside.globals⟩
      | some block =>
          have after := step_inside inside block
          simp only [step_extend contained more inside here]
          cases moved : step m block s with
          | running s' =>
              rw [moved] at after
              exact ih after (steps + 1)
          | returned value globals =>
              rw [moved] at after
              exact ⟨rfl, after⟩
          | trapped trap globals =>
              rw [moved] at after
              exact ⟨rfl, after⟩

/-! ## Calls from outside -/

theorem eq_append_of_prefix {α : Type} {xs ys : Array α} (h : xs.toList <+: ys.toList) :
    ∃ more : Array α, ys = xs ++ more := by
  obtain ⟨more, eq⟩ := h
  exact ⟨more.toArray, Array.toList_inj.mp (by simp [eq])⟩

theorem findIdx?_of_prefix {α : Type} {xs ys : Array α} (h : xs.toList <+: ys.toList)
    {p : α → Bool} {i : Nat} (found : xs.findIdx? p = some i) : ys.findIdx? p = some i := by
  obtain ⟨more, rfl⟩ := eq_append_of_prefix h
  rw [Array.findIdx?_append, found]
  rfl

theorem entry_extends (more : m.Extends m') {name : String} {g : Nat}
    (found : m.functionIndex? name = some g) (arguments : List Literal) :
    entry m' name arguments = entry m name arguments := by
  have known : g < m.functions.size := (Array.findIdx?_eq_some_iff_getElem.mp found).1
  rw [entry, entry, found, Module.functionIndex?, findIdx?_of_prefix more.functions found]
  exact activate_extends more known arguments 0

theorem function_of_entry {name : String} {arguments : List Literal} {a : Activation}
    (h : entry m name arguments = .ok a) : a.function ∈ m.functions.toList := by
  unfold entry at h
  split at h
  · cases h
  · exact function_of_activate h

def extend (M : Machine) (m' : Code.Module) (extra : Array Cell) : Machine :=
  { M with
    module := m'
    globals := M.globals ++ extra }

theorem new_extends (more : m.Extends m') (limit : Nat) :
    ∃ extra, Machine.new m' limit = (Machine.new m limit).extend m' extra := by
  obtain ⟨globals, eq⟩ := eq_append_of_prefix more.globals
  exact ⟨globals.map initialCell, by simp [Machine.new, extend, eq]⟩

/-- A call of a function of the module does the same in the larger one. -/
theorem call_extend {M : Machine} (contained : SelfContained M.module)
    (more : M.module.Extends m') (extra : Array Cell)
    (size : M.globals.size = M.module.globals.size) {name : String} {g : Nat}
    (found : M.module.functionIndex? name = some g) (arguments : List Literal) :
    (M.extend m' extra).call name arguments =
        ((M.call name arguments).1, (M.call name arguments).2.extend m' extra) ∧
      (M.call name arguments).2.module = M.module ∧
      (M.call name arguments).2.globals.size = M.module.globals.size := by
  simp only [call, extend, entry_extends more found]
  cases entered : entry M.module name arguments with
  | error trap => exact ⟨rfl, rfl, size⟩
  | ok top =>
      have inside : State.Inside M.module { globals := M.globals, top } :=
        ⟨size, function_of_entry entered, fun c hc => nomatch hc⟩
      obtain ⟨same, kept⟩ :=
        run_extend contained more extra inside M.limit (M.limit - M.steps) M.steps
      rw [State.extend] at same
      refine ⟨?_, rfl, kept⟩
      simp only [same]
      rfl

theorem globalArray?_extend {M : Machine} (more : M.module.Extends m')
    (size : M.globals.size = M.module.globals.size) {name : String} {i : Nat}
    (found : M.module.globalIndex? name = some i) :
    (M.extend m' extra).globalArray? name = M.globalArray? name := by
  have known : i < M.globals.size := size ▸ (Array.findIdx?_eq_some_iff_getElem.mp found).1
  have same : m'.globalIndex? name = some i := findIdx?_of_prefix more.globals found
  simp [globalArray?, extend, found, same, Array.getElem?_append_left known]

end ImpLower.Machine
