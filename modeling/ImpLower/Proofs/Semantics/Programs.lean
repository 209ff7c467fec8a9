import ImpLower.Proofs.Semantics.Calls
import ImpLower.Proofs.Typing.Acceptance

/-!
# Whole programs

The declarations of an accepted program have different names, so positions in the compiled module and
names lead to the same functions and globals. Before the first call the machine and the evaluator hold
the same globals.
-/

namespace ImpLower.Semantics

open Code Machine Typed

/-! ## Names -/

def declName : Decl → String
  | .global g => g.name
  | .function f => f.name

theorem lookup_of_fresh {α : Type} {Γ : Scope α} {name : String} (top : Γ.inner = [])
    (fresh : Γ.declaresInCurrent name = false) : Γ.lookup name = none := by
  obtain ⟨inner, globals⟩ := Γ
  cases top
  rw [Scope.lookup_nil]
  simpa [Scope.declaresInCurrent, Scope.current] using fresh

theorem distinct_cons {Γ : Scope Symbol} {d : Decl} {rest : List Decl} {symbol : Symbol}
    (top : Γ.inner = []) (fresh : Γ.declaresInCurrent (declName d) = false)
    (distinct : (rest.map declName).Nodup)
    (unbound : ∀ x ∈ rest, (Γ.push (declName d) symbol).lookup (declName x) = none) :
    ((d :: rest).map declName).Nodup ∧ ∀ x ∈ d :: rest, Γ.lookup (declName x) = none := by
  have other : ∀ x ∈ rest, declName x ≠ declName d ∧ Γ.lookup (declName x) = none := by
    intro x hx
    have free := unbound x hx
    have ne : declName x ≠ declName d := by
      intro same
      rw [same, Scope.lookup_push_self] at free
      cases free
    rw [Scope.lookup_push_of_ne _ _ ne] at free
    exact ⟨ne, free⟩
  refine ⟨?_, List.forall_mem_cons.mpr ⟨lookup_of_fresh top fresh, fun x hx => (other x hx).2⟩⟩
  rw [List.map_cons, List.nodup_cons]
  refine ⟨fun mem => ?_, distinct⟩
  obtain ⟨x, hx, same⟩ := List.mem_map.mp mem
  exact (other x hx).1 same

theorem distinct_of_declsOk {Γ : Scope Symbol} {ds : List Decl} (h : DeclsOk Γ ds)
    (top : Γ.inner = []) : (ds.map declName).Nodup ∧ ∀ d ∈ ds, Γ.lookup (declName d) = none := by
  induction ds generalizing Γ with
  | nil => exact ⟨.nil, fun d hd => nomatch hd⟩
  | cons d rest ih =>
      cases h with
      | global ok tail =>
          obtain ⟨distinct, unbound⟩ := ih tail (Scope.inner_push top _ _)
          exact distinct_cons top ok.fresh distinct unbound
      | function ok tail =>
          obtain ⟨distinct, unbound⟩ := ih tail (Scope.inner_push top _ _)
          exact distinct_cons top ok.fresh distinct unbound

theorem functionsOf_sublist (ds : List Decl) :
    ((functionsOf ds).map FnDecl.name).Sublist (ds.map declName) := by
  induction ds with
  | nil => exact .slnil
  | cons d rest ih =>
      cases d with
      | global g => exact ih.cons _
      | function f => exact ih.cons_cons _

theorem globalsOf_sublist (ds : List Decl) :
    ((globalsOf ds).map Typed.Global.name).Sublist (ds.map declName) := by
  induction ds with
  | nil => exact .slnil
  | cons d rest ih =>
      cases d with
      | global g => exact ih.cons_cons _
      | function f => exact ih.cons _

theorem globalOk_of_mem {Γ : Scope Symbol} {ds : List Decl} (h : DeclsOk Γ ds) {g : Typed.Global}
    (mem : g ∈ globalsOf ds) : ∃ Γ', GlobalOk Γ' g := by
  induction ds generalizing Γ with
  | nil => cases mem
  | cons d rest ih =>
      cases h with
      | global ok tail =>
          rcases List.mem_cons.mp mem with rfl | later
          · exact ⟨Γ, ok⟩
          · exact ih tail later
      | function ok tail => exact ih tail mem

/-! ## The first globals -/

theorem initialGlobals_eq_map (ds : List Decl) :
    initialGlobals ds = (globalsOf ds).map fun g => (g.name, initialVariable g) := by
  induction ds with
  | nil => rfl
  | cons d rest ih =>
      cases d with
      | global g =>
          rw [globalsOf, List.map_cons, ← ih]
          rfl
      | function f => exact ih

theorem initialCell_globalOf {Γ : Scope Symbol} {g : Typed.Global} (ok : GlobalOk Γ g) :
    initialCell (globalOf g) = (initialVariable g).cell := by
  have count : (globalOf g).length.getD 1 = g.length := by
    cases dims : g.dimensions with
    | nil => simp [globalOf, dims, ok.length]
    | cons n rest => simp [globalOf, dims]
  rw [initialCell, count]
  rfl

theorem globalAgrees_initial {Γ : Scope Symbol} {g : Typed.Global} (ok : GlobalOk Γ g) :
    GlobalAgrees g (g.name, initialVariable g) where
  name := rfl
  sizes := rfl
  size := by simp [initialVariable]
  typed := by
    intro l hl
    rw [(Array.mem_replicate.mp hl).2]
    cases given : g.initializer with
    | none => exact Literal.type_initial ok.storable
    | some value => exact (ok.initial value given).2

theorem globalsAgree_initial {ds : List Decl} {m : Code.Module} (ok : ProgramOk ds)
    (linked : Linked ds m) : GlobalsAgree ds (initialGlobals ds) (m.globals.map initialCell) := by
  rw [initialGlobals_eq_map]
  constructor
  · rw [List.map_map]
    exact (distinct_of_declsOk ok rfl).1.sublist (globalsOf_sublist ds)
  · rw [List.forall₂_map_right_iff, List.forall₂_same]
    intro g hg
    obtain ⟨Γ, okGlobal⟩ := globalOk_of_mem ok hg
    exact globalAgrees_initial okGlobal
  · rw [Array.toList_map, linked.globals, List.map_map, List.map_map]
    refine List.map_congr_left fun g hg => ?_
    obtain ⟨Γ, okGlobal⟩ := globalOk_of_mem ok hg
    exact initialCell_globalOf okGlobal

theorem executable_of_programOk {ds : List Decl} {m : Code.Module} (ok : ProgramOk ds)
    (linked : Linked ds m) : Executable ds m :=
  ⟨linked, (distinct_of_declsOk ok rfl).1.sublist (functionsOf_sublist ds)⟩

/-! ## Positions -/

theorem findIdx?_toList {α : Type} (xs : Array α) (p : α → Bool) :
    xs.toList.findIdx? p = xs.findIdx? p := by
  rw [← List.findIdx?_toArray, Array.toArray_toList]

theorem findIdx?_of_distinct {α : Type} {name : α → String} {xs : List α} {a : α} {i : Nat}
    (distinct : (xs.map name).Nodup) (found : xs[i]? = some a) :
    (xs.findIdx? fun x => name x = name a) = some i := by
  induction xs generalizing i with
  | nil => simp at found
  | cons x rest ih =>
      rw [List.map_cons, List.nodup_cons] at distinct
      cases i with
      | zero =>
          cases found
          simp [List.findIdx?_cons]
      | succ i =>
          have mem : name a ∈ rest.map name := List.mem_map.mpr ⟨a, List.mem_of_getElem? found, rfl⟩
          have ne : name x ≠ name a := fun same => distinct.1 (same ▸ mem)
          rw [List.findIdx?_cons, decide_eq_false ne, ih distinct.2 found]
          rfl

theorem Executable.functionIndex? {ds : List Decl} {m : Code.Module} (h : Executable ds m) {g : Nat}
    {f : FnDecl} (found : (functionsOf ds)[g]? = some f) : m.functionIndex? f.name = some g := by
  have names : m.functions.toList.map Function.name = (functionsOf ds).map FnDecl.name := by
    have same := h.linked.functions.imp fun f F ⟨_, _, code⟩ => code.name.symm
    exact (List.forall₂_eq_eq_eq ▸ (List.forall₂_map_left_iff.mpr
      (List.forall₂_map_right_iff.mpr same))).symm
  obtain ⟨F, hF, sc, -, code⟩ := forall₂_getElem? h.linked.functions found
  rw [Module.functionIndex?, ← findIdx?_toList, ← code.name]
  exact findIdx?_of_distinct (names ▸ h.distinct) hF

theorem findIdx?_bind_eq_lookup {gs : List Code.Global} {frame : Frame Variable}
    (names : gs.map Code.Global.name = frame.map Prod.fst) (name : String) :
    (gs.findIdx? fun g => g.name = name).bind (fun i => (frame.map fun b => b.2.cell)[i]?) =
      (frame.lookup name).map Variable.cell := by
  induction frame generalizing gs with
  | nil =>
      rw [List.map_nil, List.map_eq_nil_iff] at names
      subst names
      rfl
  | cons b rest ih =>
      cases gs with
      | nil => cases names
      | cons g gs =>
          rw [List.map_cons, List.map_cons, List.cons.injEq] at names
          by_cases same : g.name = name
          · subst same
            obtain ⟨n, x⟩ := b
            obtain ⟨rfl, -⟩ := names
            simp [List.findIdx?_cons]
          · have away : (name == b.1) = false := by
              rw [beq_eq_false_iff_ne, ← names.1]
              exact Ne.symm same
            rw [List.findIdx?_cons, decide_eq_false same, List.lookup_cons, away, ← ih names.2]
            cases gs.findIdx? fun g => g.name = name <;> rfl

theorem globalArray?_eq_lookup {ds : List Decl} {M : Machine} (linked : Linked ds M.module)
    {frame : Frame Variable} (agree : GlobalsAgree ds frame M.globals) (name : String) :
    M.globalArray? name = (frame.lookup name).map Variable.cell := by
  have names : M.module.globals.toList.map Code.Global.name = frame.map Prod.fst := by
    have same := agree.declared.imp fun g b agrees => agrees.name.symm
    rw [linked.globals, List.map_map]
    exact List.forall₂_eq_eq_eq ▸ (List.forall₂_map_left_iff.mpr
      (List.forall₂_map_right_iff.mpr same))
  rw [← findIdx?_bind_eq_lookup names name, ← agree.cells, Machine.globalArray?, Module.globalIndex?,
    findIdx?_toList]
  simp only [Array.getElem?_toList]

end ImpLower.Semantics
