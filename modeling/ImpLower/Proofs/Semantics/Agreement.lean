import ImpLower.Proofs.Machine.Execution
import ImpLower.Proofs.Semantics.Values

/-!
# Environments and machine states

When a machine state holds what an environment says: every visible local variable sits in the slot its
name stands for, with the values of its sizes in operands that can still be read, and the globals hold
the same elements in the same order. All elements have the declared types. Slots of different variables
differ, so writing one variable leaves the others alone.
-/

namespace ImpLower.Semantics

open Code Machine Typed

/-! ## Lists that go together -/

section

variable {α β γ : Type}

theorem forall₂_imp_of_mem {R S : α → β → Prop} {xs : List α} {ys : List β}
    (h : List.Forall₂ R xs ys) (imp : ∀ a ∈ xs, ∀ b, R a b → S a b) : List.Forall₂ S xs ys := by
  induction h with
  | nil => exact .nil
  | cons head tail ih =>
      obtain ⟨here, rest⟩ := List.forall_mem_cons.mp imp
      exact .cons (here _ head) (ih rest)

theorem forall₂_modify {R : α → β → Prop} {f : β → β} {xs : List α} {ys : List β} {i : Nat}
    (h : List.Forall₂ R xs ys) (keep : ∀ a b, xs[i]? = some a → R a b → R a (f b)) :
    List.Forall₂ R xs (ys.modify i f) := by
  induction h generalizing i with
  | nil => simp
  | cons head tail ih =>
      cases i with
      | zero => exact .cons (keep _ _ rfl head) tail
      | succ i => exact .cons head (ih fun a b ha => keep a b (by simpa using ha))

theorem map_modify_of_comm {f : α → α} {g : β → β} {p : α → β} (comm : ∀ a, p (f a) = g (p a))
    (xs : List α) (i : Nat) : (xs.modify i f).map p = (xs.map p).modify i g := by
  induction xs generalizing i with
  | nil => simp
  | cons a rest ih => cases i <;> simp [comm, ih]

theorem lookup_of_getElem? {frame : Frame α} {name : String} {a : α} {i : Nat}
    (distinct : (frame.map Prod.fst).Nodup) (h : frame[i]? = some (name, a)) :
    frame.lookup name = some a := by
  induction frame generalizing i with
  | nil => simp at h
  | cons b rest ih =>
      rw [List.map_cons, List.nodup_cons] at distinct
      cases i with
      | zero =>
          cases h
          simp
      | succ i =>
          have here : name ∈ rest.map Prod.fst := List.mem_map.mpr ⟨_, List.mem_of_getElem? h, rfl⟩
          have ne : (name == b.1) = false := by
            rw [beq_eq_false_iff_ne]
            rintro rfl
            exact distinct.1 here
          rw [List.lookup_cons, ne]
          exact ih distinct.2 h

theorem adjustFrame_eq_modify {frame : Frame α} {name : String} {a : α} {i : Nat} (f : α → α)
    (distinct : (frame.map Prod.fst).Nodup) (h : frame[i]? = some (name, a)) :
    Scope.adjustFrame name f frame = frame.modify i fun b => (b.1, f b.2) := by
  induction frame generalizing i with
  | nil => simp at h
  | cons b rest ih =>
      rw [List.map_cons, List.nodup_cons] at distinct
      cases i with
      | zero =>
          cases h
          simp [Scope.adjustFrame]
      | succ i =>
          have here : name ∈ rest.map Prod.fst := List.mem_map.mpr ⟨_, List.mem_of_getElem? h, rfl⟩
          have ne : b.1 ≠ name := by
            rintro rfl
            exact distinct.1 here
          simp [Scope.adjustFrame, ne, ih distinct.2 h]

theorem mem_of_lookup {frame : Frame α} {name : String} {a : α} (h : frame.lookup name = some a) :
    (name, a) ∈ frame := by
  obtain ⟨before, after, rfl, -⟩ := List.lookup_eq_some_iff.mp h
  simp

end

/-! ## Globals -/

/-- The variable is the global, with elements of its type. -/
structure GlobalAgrees (g : Typed.Global) (b : String × Variable) : Prop where
  name : b.1 = g.name
  sizes : b.2.sizes = g.dimensions.map Int64.ofNat
  size : b.2.cell.size = g.length
  typed : ∀ l ∈ b.2.cell, l.type = g.ty

/-- The cells of a machine hold the globals of the program. -/
structure GlobalsAgree (ds : List Decl) (frame : Frame Variable) (globals : Array Cell) : Prop where
  distinct : (frame.map Prod.fst).Nodup
  declared : List.Forall₂ GlobalAgrees (globalsOf ds) frame
  cells : globals.toList = frame.map fun b => b.2.cell

/-- Every global has its number of elements, all of its type. -/
def GlobalsTyped (ds : List Decl) (globals : Array Cell) : Prop :=
  ∃ frame, GlobalsAgree ds frame globals

theorem Variable.typed_set {x : Variable} {ty : Ty} {value : Literal}
    (h : ∀ l ∈ x.cell, l.type = ty) (typed : value.type = ty) (position : Nat) :
    ∀ l ∈ (x.set position value).cell, l.type = ty := by
  intro l hl
  rcases Array.mem_or_eq_of_mem_setIfInBounds hl with old | rfl
  · exact h l old
  · exact typed

namespace GlobalsAgree

variable {ds : List Decl} {frame : Frame Variable} {globals : Array Cell} {i : Nat}
  {g : Typed.Global}

theorem getElem? (h : GlobalsAgree ds frame globals) (found : (globalsOf ds)[i]? = some g) :
    ∃ x, frame[i]? = some (g.name, x) ∧ GlobalAgrees g (g.name, x) := by
  obtain ⟨⟨name, x⟩, hx, agrees⟩ := forall₂_getElem? h.declared found
  cases agrees.name
  exact ⟨x, hx, agrees⟩

theorem lookup (h : GlobalsAgree ds frame globals) (found : (globalsOf ds)[i]? = some g) :
    ∃ x, frame.lookup g.name = some x ∧ globals[i]? = some x.cell ∧ GlobalAgrees g (g.name, x) := by
  obtain ⟨x, hx, agrees⟩ := h.getElem? found
  refine ⟨x, lookup_of_getElem? h.distinct hx, ?_, agrees⟩
  rw [← Array.getElem?_toList, h.cells, List.getElem?_map, hx]
  rfl

theorem write (h : GlobalsAgree ds frame globals) (found : (globalsOf ds)[i]? = some g)
    {value : Literal} (typed : value.type = g.ty) (position : Nat) :
    GlobalsAgree ds (Scope.adjustFrame g.name (·.set position value) frame)
      (globals.modify i fun cell => cell.setIfInBounds position value) := by
  obtain ⟨x, hx, -⟩ := h.getElem? found
  rw [adjustFrame_eq_modify _ h.distinct hx]
  constructor
  · have names := map_modify_of_comm (f := fun b : String × Variable => (b.1, b.2.set position value))
      (g := id) (p := Prod.fst) (fun _ => rfl) frame i
    rw [names, List.modify_id]
    exact h.distinct
  · refine forall₂_modify h.declared fun g' b here agrees => ?_
    cases found.symm.trans here
    exact ⟨agrees.name, agrees.sizes, by simpa [Variable.set] using agrees.size,
      Variable.typed_set agrees.typed typed position⟩
  · have cells := map_modify_of_comm (f := fun b : String × Variable => (b.1, b.2.set position value))
      (g := fun cell : Cell => cell.setIfInBounds position value) (p := fun b => b.2.cell)
      (fun _ => rfl) frame i
    rw [cells, ← h.cells, Array.toList_modify]

end GlobalsAgree

/-! ## Locals -/

/-- The operands hold the sizes. -/
def Counted (a : Activation) (sizes : List Operand) (counts : List Int64) : Prop :=
  List.Forall₂ (fun o n => a.operand o = .ok (.long n)) sizes counts

/-- The slot a name stands for holds the variable. -/
inductive LocalAgrees (a : Activation) :
    String × Storage Operand Slot Nat → String × Variable → Prop
  | mk {name : String} {i : Nat} {ty : Ty} {sizes : List Operand} {x : Variable}
      (stored : a.slots[i]? = some (some x.cell)) (counted : Counted a sizes x.sizes)
      (typed : ∀ l ∈ x.cell, l.type = ty) :
      LocalAgrees a (name, .var (.stack i) ty sizes) (name, x)

/-- Frame by frame, the slots hold the local variables. -/
abbrev LocalsAgree (a : Activation) :
    List (Frame (Storage Operand Slot Nat)) → List (Frame Variable) → Prop :=
  List.Forall₂ (List.Forall₂ (LocalAgrees a))

def slotOf : String × Storage Operand Slot Nat → Option Slot
  | (_, .var slot _ _) => some slot
  | (_, .fn _) => none

/-- The binding uses slots and registers below the counters only. -/
def Reserved (k : Counters) : String × Storage Operand Slot Nat → Prop
  | (_, .var (.stack i) _ sizes) => i < k.slots ∧ ∀ o ∈ sizes, o.Below k.registers
  | _ => False

/-- The local names are bound below the counters, each to a slot of its own. -/
structure Placed (sc : Names) (k : Counters) : Prop where
  inside : sc.inner ≠ []
  reserved : ∀ b ∈ sc.inner.flatten, Reserved k b
  distinct : (sc.inner.flatten.map slotOf).Nodup

theorem Counted.imp {a a' : Activation} {sizes : List Operand} {counts : List Int64}
    (h : Counted a sizes counts)
    (keep : ∀ o ∈ sizes, ∀ l, a.operand o = .ok l → a'.operand o = .ok l) :
    Counted a' sizes counts :=
  forall₂_imp_of_mem h fun o ho _ => keep o ho _

theorem Reserved.mono {k k' : Counters} {b : String × Storage Operand Slot Nat}
    (h : Reserved k b) (registers : k.registers ≤ k'.registers) (slots : k.slots ≤ k'.slots) :
    Reserved k' b := by
  obtain ⟨name, (⟨_ | _, ty, sizes⟩ | g)⟩ := b
  · exact ⟨Nat.lt_of_lt_of_le h.1 slots, fun o ho => (h.2 o ho).mono registers⟩
  · exact h
  · exact h

theorem Placed.mono {sc : Names} {k k' : Counters} (h : Placed sc k)
    (registers : k.registers ≤ k'.registers) (slots : k.slots ≤ k'.slots) : Placed sc k' where
  inside := h.inside
  reserved b hb := (h.reserved b hb).mono registers slots
  distinct := h.distinct

theorem Placed.grow {sc : Names} {r r' c : Nat} (h : Placed sc ⟨r, c⟩) (le : r ≤ r') :
    Placed sc ⟨r', c⟩ :=
  h.mono le (Nat.le_refl c)

theorem Placed.enter {sc : Names} {k : Counters} (h : Placed sc k) : Placed sc.enter k where
  inside := List.cons_ne_nil _ _
  reserved := h.reserved
  distinct := h.distinct

theorem Placed.bind {sc : Names} {r c r' : Nat} {v : VarDecl} {sizes : List Operand}
    (h : Placed sc ⟨r, c⟩) (le : r ≤ r') (below : ∀ o ∈ sizes, o.Below r') :
    Placed (bindStack sc v c sizes) ⟨r', c + 1⟩ := by
  have old : ∀ b ∈ sc.inner.flatten, Reserved ⟨r', c + 1⟩ b :=
    fun b hb => (h.reserved b hb).mono le (Nat.le_succ c)
  have fresh : ∀ b ∈ sc.inner.flatten, slotOf b ≠ some (.stack c) := by
    intro b hb
    have reserved := h.reserved b hb
    obtain ⟨name, (⟨i | _, ty, sizes⟩ | g)⟩ := b
    · intro same
      cases same
      exact Nat.lt_irrefl _ reserved.1
    · exact reserved.elim
    · exact reserved.elim
  rcases sc with ⟨_ | ⟨top, rest⟩, globals⟩
  · exact absurd rfl h.inside
  · constructor
    · exact List.cons_ne_nil _ _
    · simp only [bindStack, Scope.push, List.flatten_cons, List.cons_append]
      exact List.forall_mem_cons.mpr ⟨⟨Nat.lt_succ_self c, below⟩, old⟩
    · simp only [bindStack, Scope.push, List.flatten_cons, List.cons_append, List.map_cons,
        List.nodup_cons]
      refine ⟨?_, h.distinct⟩
      intro here
      obtain ⟨b, hb, same⟩ := List.mem_map.mp here
      exact fresh b hb same

/-! ### Look-up -/

theorem lookup_local {a : Activation} {names : Frame (Storage Operand Slot Nat)}
    {vars : Frame Variable} (h : List.Forall₂ (LocalAgrees a) names vars) (name : String) :
    (names.lookup name = none ∧ vars.lookup name = none) ∨
      ∃ st x, names.lookup name = some st ∧ vars.lookup name = some x ∧
        LocalAgrees a (name, st) (name, x) := by
  induction h with
  | nil => exact .inl ⟨rfl, rfl⟩
  | cons head tail ih =>
      cases head with
      | @mk n i ty sizes x stored counted typed =>
          by_cases same : name = n
          · subst same
            exact .inr ⟨_, x, by simp, by simp, .mk stored counted typed⟩
          · have ne : (name == n) = false := by simpa using same
            simpa only [List.lookup_cons, ne] using ih

theorem adjust_local {a a' : Activation} {names : Frame (Storage Operand Slot Nat)}
    {vars : Frame Variable} {name : String} {st : Storage Operand Slot Nat}
    {f : Variable → Variable} (h : List.Forall₂ (LocalAgrees a) names vars)
    (distinct : (names.map slotOf).Nodup) (found : names.lookup name = some st)
    (here : ∀ x, LocalAgrees a (name, st) (name, x) → LocalAgrees a' (name, st) (name, f x))
    (elsewhere : ∀ b x, slotOf b ≠ slotOf (name, st) → LocalAgrees a b x → LocalAgrees a' b x) :
    List.Forall₂ (LocalAgrees a') names (Scope.adjustFrame name f vars) := by
  induction h with
  | nil => simp at found
  | @cons b x names vars head tail ih =>
      rw [List.map_cons, List.nodup_cons] at distinct
      obtain ⟨n, s⟩ := b
      obtain ⟨n', x⟩ := x
      have same : n' = n := by
        cases head
        rfl
      subst same
      by_cases hn : n' = name
      · subst hn
        have value : s = st := by simpa using found
        subst value
        have rest : List.Forall₂ (LocalAgrees a') names vars :=
          forall₂_imp_of_mem tail fun b hb x =>
            elsewhere b x fun eq => distinct.1 (eq ▸ List.mem_map.mpr ⟨b, hb, rfl⟩)
        simpa [Scope.adjustFrame] using ⟨here x head, rest⟩
      · have ne : (name == n') = false := by simpa using Ne.symm hn
        rw [List.lookup_cons, ne] at found
        have away : slotOf (n', s) ≠ slotOf (name, st) := fun eq =>
          distinct.1 (eq ▸ List.mem_map.mpr ⟨_, mem_of_lookup found, rfl⟩)
        simpa [Scope.adjustFrame, hn] using
          ⟨elsewhere _ _ away head, ih distinct.2 found⟩

/-! ### Frames -/

theorem lookup_eq_or {α : Type} (s : Scope α) (name : String) :
    s.lookup name = (s.inner.flatten.lookup name).or (s.globals.lookup name) := by
  obtain ⟨inner, globals⟩ := s
  induction inner with
  | nil => simp [Scope.lookup_nil]
  | cons top rest ih =>
      rw [Scope.lookup_cons, ih, List.flatten_cons, List.lookup_append, Option.or_assoc]

theorem adjustFrames_of_none {α : Type} {name : String} {inner : List (Frame α)}
    (h : inner.flatten.lookup name = none) (f : α → α) (globals : Frame α) :
    Scope.adjustFrames name f globals inner = ⟨inner, Scope.adjustFrame name f globals⟩ := by
  induction inner with
  | nil => rfl
  | cons top rest ih =>
      rw [List.flatten_cons, List.lookup_append, Option.or_eq_none_iff] at h
      simp [Scope.adjustFrames, h.1, ih h.2]

theorem LocalsAgree.flatten {a : Activation} {inner : List (Frame (Storage Operand Slot Nat))}
    {vars : List (Frame Variable)} (h : LocalsAgree a inner vars) :
    List.Forall₂ (LocalAgrees a) inner.flatten vars.flatten :=
  List.rel_flatten h

theorem LocalsAgree.congr {a a' : Activation} {inner : List (Frame (Storage Operand Slot Nat))}
    {vars : List (Frame Variable)} (h : LocalsAgree a inner vars) (slots : a'.slots = a.slots)
    (operand : a'.operand = a.operand) : LocalsAgree a' inner vars := by
  refine h.imp fun frame vars agree => agree.imp fun b x local_ => ?_
  cases local_ with
  | mk stored counted typed =>
      exact .mk (slots ▸ stored) (counted.imp fun o _ l read => operand ▸ read) typed

theorem adjust_locals {a a' : Activation} {inner : List (Frame (Storage Operand Slot Nat))}
    {vars : List (Frame Variable)} {name : String} {st : Storage Operand Slot Nat}
    {f : Variable → Variable} (h : LocalsAgree a inner vars)
    (distinct : (inner.flatten.map slotOf).Nodup) (found : inner.flatten.lookup name = some st)
    (here : ∀ x, LocalAgrees a (name, st) (name, x) → LocalAgrees a' (name, st) (name, f x))
    (elsewhere : ∀ b x, slotOf b ≠ slotOf (name, st) → LocalAgrees a b x → LocalAgrees a' b x)
    (frame : Frame Variable) :
    ∃ vars', Scope.adjustFrames name f frame vars = ⟨vars', frame⟩ ∧ LocalsAgree a' inner vars' := by
  induction h with
  | nil => simp at found
  | @cons top names inner vars head tail ih =>
      rw [List.flatten_cons, List.map_append] at distinct
      have apart := List.nodup_append.mp distinct
      rw [List.flatten_cons, List.lookup_append] at found
      rcases lookup_local head name with ⟨missing, missing'⟩ | ⟨st', x, bound, bound', -⟩
      · rw [missing, Option.none_or] at found
        obtain ⟨vars', adjusted, agree⟩ := ih apart.2.1 found
        have inRest : slotOf (name, st) ∈ inner.flatten.map slotOf :=
          List.mem_map.mpr ⟨_, mem_of_lookup found, rfl⟩
        have kept : List.Forall₂ (LocalAgrees a') top names :=
          forall₂_imp_of_mem head fun b hb x =>
            elsewhere b x (apart.2.2 _ (List.mem_map.mpr ⟨b, hb, rfl⟩) _ inRest)
        exact ⟨names :: vars', by simp [Scope.adjustFrames, missing', adjusted], .cons kept agree⟩
      · rw [bound, Option.some_or] at found
        cases found
        have inTop : slotOf (name, st) ∈ top.map slotOf :=
          List.mem_map.mpr ⟨_, mem_of_lookup bound, rfl⟩
        have changed := adjust_local head apart.1 bound here elsewhere
        have kept : LocalsAgree a' inner vars := by
          refine forall₂_imp_of_mem tail fun frame hf frame' agree => ?_
          refine forall₂_imp_of_mem agree fun b hb x => elsewhere b x ?_
          refine (apart.2.2 _ inTop _ (List.mem_map.mpr ⟨b, ?_, rfl⟩)).symm
          exact List.mem_flatten.mpr ⟨frame, hf, hb⟩
        exact ⟨Scope.adjustFrame name f names :: vars, by simp [Scope.adjustFrames, bound'],
          .cons changed kept⟩

/-! ## States -/

/-- The state holds what the environment says, for the names in sight. -/
structure Agrees (ds : List Decl) (sc : Names) (env : Env) (s : State) : Prop where
  locals : LocalsAgree s.top sc.inner env.inner
  visible : Visible ds { globals := sc.globals }
  globals : GlobalsAgree ds env.globals s.globals

/-- What a later state of the same call still has of an earlier one: the values of the operands below
`r`. -/
structure Kept (r : Nat) (s s' : State) : Prop where
  callers : s'.callers = s.callers
  size : s'.top.slots.size = s.top.slots.size
  operand : ∀ o l, o.Below r → s.top.operand o = .ok l → s'.top.operand o = .ok l

namespace Kept

variable {r r' : Nat} {s s₁ s' : State}

theorem refl (r : Nat) (s : State) : Kept r s s :=
  ⟨rfl, rfl, fun _ _ _ h => h⟩

theorem trans (h : Kept r s s₁) (h' : Kept r s₁ s') : Kept r s s' where
  callers := h'.callers.trans h.callers
  size := h'.size.trans h.size
  operand o l below read := h'.operand o l below (h.operand o l below read)

theorem mono (h : Kept r' s s') (le : r ≤ r') : Kept r s s' where
  callers := h.callers
  size := h.size
  operand o l below := h.operand o l (below.mono le)

theorem depth (h : Kept r s s') : s'.depth = s.depth := by
  rw [State.depth, h.callers, State.depth]

end Kept

namespace Agrees

variable {ds : List Decl} {sc : Names} {env : Env} {s s' : State} {r c : Nat}

theorem typed (h : Agrees ds sc env s) : GlobalsTyped ds s.globals :=
  ⟨_, h.globals⟩

theorem lookup (h : Agrees ds sc env s) {name : String} {slot : Slot} {ty : Ty}
    {sizes : List Operand} (bound : sc.lookup name = some (.var slot ty sizes)) :
    ∃ x, env.lookup name = some x ∧ s.cell slot = .ok x.cell ∧ Counted s.top sizes x.sizes ∧
      ∀ l ∈ x.cell, l.type = ty := by
  rw [lookup_eq_or] at bound
  rw [lookup_eq_or env]
  rcases lookup_local h.locals.flatten name with ⟨missing, missing'⟩ | ⟨st, x, found, found', local_⟩
  · rw [missing, Option.none_or, ← Scope.lookup_nil] at bound
    obtain ⟨i, g, rfl, declared, rfl, rfl, rfl⟩ := h.visible.var bound
    obtain ⟨x, found, cell, agrees⟩ := h.globals.lookup declared
    refine ⟨x, by simp [missing', found], by simp [State.cell, cell], ?_, agrees.typed⟩
    rw [agrees.sizes, Counted, sizeOperands, List.forall₂_map_left_iff, List.forall₂_map_right_iff,
      List.forall₂_same]
    exact fun n _ => rfl
  · rw [found, Option.some_or] at bound
    cases bound
    cases local_ with
    | mk stored counted typed =>
        exact ⟨x, by simp [found'], by simp [State.cell, stored], counted, typed⟩

theorem lookup_fn (h : Agrees ds sc env s) {name : String} {g : Nat}
    (bound : sc.lookup name = some (.fn g)) :
    ∃ f, (functionsOf ds)[g]? = some f ∧ f.name = name := by
  rw [lookup_eq_or] at bound
  rcases lookup_local h.locals.flatten name with ⟨missing, -⟩ | ⟨st, x, found, -, local_⟩
  · rw [missing, Option.none_or, ← Scope.lookup_nil] at bound
    exact h.visible.fn bound
  · rw [found, Option.some_or] at bound
    cases bound
    cases local_

/-! ### What steps do to the agreement -/

/-- Slots stay, and so do the operands the names depend on. -/
theorem keep {env' : Env} (h : Agrees ds sc env s) (placed : Placed sc ⟨r, c⟩) (kept : Kept r s s')
    (slots : s'.top.slots = s.top.slots) (inner : env'.inner = env.inner)
    (globals : GlobalsAgree ds env'.globals s'.globals) : Agrees ds sc env' s' where
  visible := h.visible
  globals := globals
  locals := by
    rw [inner]
    refine forall₂_imp_of_mem h.locals fun frame hf vars agree => ?_
    refine forall₂_imp_of_mem agree fun b hb x local_ => ?_
    have reserved := placed.reserved b (List.mem_flatten.mpr ⟨frame, hf, hb⟩)
    cases local_ with
    | mk stored counted typed =>
        exact .mk (slots ▸ stored)
          (counted.imp fun o ho l => kept.operand o l (reserved.2 o ho)) typed

theorem advance (h : Agrees ds sc env s) : Agrees ds sc env s.advance :=
  ⟨h.locals.congr rfl rfl, h.visible, h.globals⟩

theorem jump (h : Agrees ds sc env s) (block : Nat) : Agrees ds sc env (s.jump block) :=
  ⟨h.locals.congr rfl rfl, h.visible, h.globals⟩

theorem write (h : Agrees ds sc env s) (distinct : (sc.inner.flatten.map slotOf).Nodup)
    {name : String} {slot : Slot} {ty : Ty} {sizes : List Operand}
    (bound : sc.lookup name = some (.var slot ty sizes)) {value : Literal}
    (typed : value.type = ty) (position : Nat) :
    Agrees ds sc (env.adjust name (·.set position value)) (s.write slot position value) := by
  rw [lookup_eq_or] at bound
  rcases lookup_local h.locals.flatten name with ⟨missing, missing'⟩ | ⟨st, x, found, -, local_⟩
  · rw [missing, Option.none_or, ← Scope.lookup_nil] at bound
    obtain ⟨i, g, rfl, declared, rfl, rfl, rfl⟩ := h.visible.var bound
    rw [Scope.adjust, adjustFrames_of_none missing']
    exact ⟨h.locals, h.visible, h.globals.write declared typed position⟩
  · rw [found, Option.some_or] at bound
    cases bound
    cases local_ with
    | @mk _ i _ _ _ stored counted elements =>
        have here : ∀ x, LocalAgrees s.top (name, .var (.stack i) ty sizes) (name, x) →
            LocalAgrees (s.write (.stack i) position value).top (name, .var (.stack i) ty sizes)
              (name, x.set position value) := by
          intro x local_
          cases local_ with
          | mk stored counted elements =>
              refine .mk ?_ counted (Variable.typed_set elements typed position)
              simp [State.write, Array.getElem?_modify, stored, Variable.set]
        have elsewhere : ∀ b x, slotOf b ≠ some (.stack i) → LocalAgrees s.top b x →
            LocalAgrees (s.write (.stack i) position value).top b x := by
          intro b x away local_
          cases local_ with
          | @mk _ j _ _ _ stored counted elements =>
              refine .mk ?_ counted elements
              have ne : i ≠ j := by
                rintro rfl
                exact away rfl
              simp [State.write, Array.getElem?_modify, ne, stored]
        obtain ⟨vars', adjusted, locals⟩ :=
          adjust_locals h.locals distinct found here elsewhere env.globals
        rw [Scope.adjust, adjusted]
        exact ⟨locals, h.visible, h.globals⟩

theorem allocate (h : Agrees ds sc env s) (placed : Placed sc ⟨r, c⟩) (room : c < s.top.slots.size)
    (v : VarDecl) {sizes : List Operand} {counts : List Int64} (counted : Counted s.top sizes counts)
    {cell : Cell} (typed : ∀ l ∈ cell, l.type = v.ty) :
    Agrees ds (bindStack sc v c sizes) (env.push v.name ⟨counts, cell⟩) (s.allocate c cell) := by
  have new : LocalAgrees (s.allocate c cell).top (v.name, .var (.stack c) v.ty sizes)
      (v.name, ⟨counts, cell⟩) := by
    refine .mk ?_ counted typed
    simp [State.allocate, room]
  have old : LocalsAgree (s.allocate c cell).top sc.inner env.inner := by
    refine forall₂_imp_of_mem h.locals fun frame hf vars agree => ?_
    refine forall₂_imp_of_mem agree fun b hb x local_ => ?_
    have reserved := placed.reserved b (List.mem_flatten.mpr ⟨frame, hf, hb⟩)
    cases local_ with
    | @mk _ i _ _ _ stored counted typed =>
        have ne : c ≠ i := Nat.ne_of_gt reserved.1
        refine .mk ?_ counted typed
        simp [State.allocate, ne, stored]
  obtain ⟨locals, visible, globals⟩ := h
  rcases sc with ⟨_ | ⟨top, rest⟩, outer⟩
  · exact absurd rfl placed.inside
  · rcases env with ⟨_ | ⟨frame, frames⟩, shared⟩
    · cases old
    · cases old with
      | cons head tail => exact ⟨.cons (.cons new head) tail, visible, globals⟩

theorem enter (h : Agrees ds sc env s) : Agrees ds sc.enter env.enter s :=
  ⟨.cons .nil h.locals, h.visible, h.globals⟩

theorem leave {new : Frame (Storage Operand Slot Nat)} {env' : Env}
    (h : Agrees ds (sc.enter.gain new) env' s) (depth : env.depth = sc.depth) :
    Agrees ds sc (env'.unwind env.depth) s := by
  obtain ⟨locals, visible, globals⟩ := h
  refine ⟨?_, visible, globals⟩
  rcases env' with ⟨_ | ⟨frame, frames⟩, shared⟩
  · cases locals
  · cases locals with
    | cons head tail =>
        have length : frames.length = sc.inner.length := tail.length_eq.symm
        have one : frames.length + 1 + 1 - env.depth = 1 := by
          rw [depth, Scope.depth, length]
          omega
        show LocalsAgree s.top sc.inner ((frame :: frames).drop (frames.length + 1 + 1 - env.depth))
        rw [one]
        exact tail

theorem depth_eq (h : Agrees ds sc env s) : env.depth = sc.depth := by
  rw [Scope.depth, Scope.depth, h.locals.length_eq]

end Agrees

end ImpLower.Semantics
