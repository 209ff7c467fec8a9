import ImpLower.Proofs.Code.Certificate
import ImpLower.Proofs.Lower.Expr

/-!
# Lowering under a ledger

A piece of lowering runs under a ledger when, from a certified function, every successful run leads to
a certified function with a larger ledger. Requests are opened here, one by one; what follows combines
them without looking into drafts again.
-/

namespace ImpLower.Code.Draft

/-- Only an open block takes instructions. -/
theorem isOpen_of_insertionPoint {d : Draft} {f b : Nat} {F : Function} (h : d.Hosts f F)
    {p : BlockId × Function × Block} (ok : (d.focus f F b).insertionPoint = .ok p) :
    F.IsOpen b := by
  obtain ⟨place, G, B⟩ := p
  obtain ⟨here, hG, hB, ht⟩ := insertionPoint_eq_ok.mp ok
  cases here
  cases hG.symm.trans (function_eq_ok.mp (function_focus_self h b))
  exact ⟨B, hB, ht⟩

section

variable {d d' : Draft} {f b : Nat} {F : Function} (h : d.Hosts f F)
include h

theorem append_focus_eq_ok {i : Instruction}
    (ok : (append i).exec (d.focus f F b) = (.ok (), d')) :
    F.IsOpen b ∧ d' = d.focus f (F.emit b [i] F.counters) b := by
  obtain ⟨p, u, hp, -⟩ := Stateful.exec_bind_eq_ok.mp ok
  have isOpen := isOpen_of_insertionPoint h (consult_eq_ok.mp hp).1
  rw [append_focus h isOpen] at ok
  cases ok
  exact ⟨isOpen, rfl⟩

theorem appendDef_focus_eq_ok {i : Nat → Instruction} {v : Operand}
    (ok : (appendDef i).exec (d.focus f F b) = (.ok v, d')) :
    F.IsOpen b ∧ v = .register F.registers ∧
      d' = d.focus f (F.emit b [i F.registers] ⟨F.registers + 1, F.slots⟩) b := by
  obtain ⟨p, u, hp, -⟩ := Stateful.exec_bind_eq_ok.mp ok
  have isOpen := isOpen_of_insertionPoint h (consult_eq_ok.mp hp).1
  rw [appendDef_focus h isOpen] at ok
  cases ok
  exact ⟨isOpen, rfl, rfl⟩

theorem appendAlloca_focus_eq_ok {ty : Ty} {length : Option Operand} {name : String} {s : Slot}
    (ok : (appendAlloca ty length name).exec (d.focus f F b) = (.ok s, d')) :
    F.IsOpen b ∧ s = .stack F.slots ∧ d' = d.focus f
      (F.emit b [.alloca F.slots ty length name] ⟨F.registers, F.slots + 1⟩) b := by
  obtain ⟨p, u, hp, -⟩ := Stateful.exec_bind_eq_ok.mp ok
  have isOpen := isOpen_of_insertionPoint h (consult_eq_ok.mp hp).1
  rw [appendAlloca_focus h isOpen] at ok
  cases ok
  exact ⟨isOpen, rfl, rfl⟩

theorem close_focus_eq_ok {t : Terminator}
    (ok : (close t).exec (d.focus f F b) = (.ok (), d')) :
    F.IsOpen b ∧ d' = d.focus f (F.close b t) b := by
  obtain ⟨p, u, hp, -⟩ := Stateful.exec_bind_eq_ok.mp ok
  have isOpen := isOpen_of_insertionPoint h (consult_eq_ok.mp hp).1
  rw [close_focus h isOpen] at ok
  cases ok
  exact ⟨isOpen, rfl⟩

end

end ImpLower.Code.Draft

namespace ImpLower.Lower

open Code Typed Stateful

/-- Where a function is lowered: the draft around it, its position there, its result type, and the
types of the functions and globals of the program. -/
structure Setting where
  draft : Draft
  index : Nat
  result : Ty
  signatures : Signatures
  globals : Nat → Option Ty

namespace Setting

def state (S : Setting) (L : Ledger) (b : Nat) (sc : Names) : Lowering Draft Operand Slot Nat :=
  atEnd S.draft S.index L.function b sc

/-- What the ledger says about types. -/
def env (S : Setting) (L : Ledger) : Env :=
  L.env S.signatures S.globals

/-- The function is certified and stands for the one at its position. -/
structure Certifies (S : Setting) (L : Ledger) : Prop where
  hosts : S.draft.Hosts S.index L.function
  returns : L.function.result = S.result
  certified : Certified S.signatures S.globals L

/-- The operand has the type, and what it stands for is there. -/
structure Holds (S : Setting) (L : Ledger) (A : Set Local) (o : Operand) (ty : Ty) : Prop where
  type : (S.env L).operand? o = some ty
  there : ∀ x ∈ o.locals, x ∈ A

/-- The storage that names stand for has the type they are known with, and is there. -/
structure Sees (S : Setting) (L : Ledger) (A : Set Local) (sc : Names) : Prop where
  known : Known S.draft S.signatures sc
  var : ∀ {name slot ty sizes}, sc.lookup name = some (.var slot ty sizes) →
    (S.env L).storage? slot = some ty ∧ (∀ x ∈ slot.locals, x ∈ A) ∧
      ∀ n ∈ sizes, S.Holds L A n .long

variable {S : Setting} {L L' : Ledger} {A A' : Set Local}

theorem env_le (le : L.Le L') : (S.env L).Le (S.env L') :=
  le.env S.signatures S.globals

theorem Holds.mono {o : Operand} {ty : Ty} (h : S.Holds L A o ty) (le : L.Le L') (sub : A ⊆ A') :
    S.Holds L' A' o ty :=
  ⟨(env_le le).operand? h.type, fun x hx => sub (h.there x hx)⟩

/-- An operand stays what it is where it was. -/
theorem Holds.stays {b : Nat} {o : Operand} {ty : Ty} (h : S.Holds L (L.available b) o ty)
    (le : L.Le L') : S.Holds L' (L'.available b) o ty :=
  h.mono le (le.available b)

theorem Sees.mono {sc : Names} (h : S.Sees L A sc) (le : L.Le L') (sub : A ⊆ A') :
    S.Sees L' A' sc where
  known := h.known
  var hl := by
    obtain ⟨type, there, sizes⟩ := h.var hl
    exact ⟨(env_le le).storage? type, fun x hx => sub (there x hx),
      fun n hn => (sizes n hn).mono le sub⟩

/-- Names still stand for what is in the set when the ledger grows. -/
theorem Sees.later {sc : Names} (h : S.Sees L A sc) (le : L.Le L') : S.Sees L' A sc :=
  h.mono le Set.Subset.rfl

theorem Sees.stays {b : Nat} {sc : Names} (h : S.Sees L (L.available b) sc) (le : L.Le L') :
    S.Sees L' (L'.available b) sc :=
  h.mono le (le.available b)

theorem Sees.enter {sc : Names} (h : S.Sees L A sc) : S.Sees L A sc.enter where
  known := h.known.enter
  var hl := by
    rw [Scope.lookup_enter] at hl
    exact h.var hl

theorem Sees.push {sc : Names} (h : S.Sees L A sc) {slot : Slot} {ty : Ty} {sizes : List Operand}
    (type : (S.env L).storage? slot = some ty) (there : ∀ x ∈ slot.locals, x ∈ A)
    (holds : ∀ n ∈ sizes, S.Holds L A n .long) (name : String) :
    S.Sees L A (sc.push name (.var slot ty sizes)) where
  known := h.known.push _ _ _ _
  var := by
    intro other slot' ty' sizes' hl
    by_cases hn : other = name
    · subst hn
      rw [Scope.lookup_push_self] at hl
      cases hl
      exact ⟨type, there, holds⟩
    · rw [Scope.lookup_push_of_ne _ _ hn] at hl
      exact h.var hl

theorem holds_constant (S : Setting) (L : Ledger) (A : Set Local) (value : Literal) :
    S.Holds L A (.constant value) value.type :=
  ⟨rfl, by simp [Operand.locals]⟩

end Setting

/-- Every successful run of `m` from the end of block `b` of a certified function leads to a certified
function with a larger ledger, and to what `Q` says. -/
def Runs {α : Type} (S : Setting) (m : Lower Draft Operand Slot Nat α) (L : Ledger) (b : Nat)
    (sc : Names) (Q : α → Ledger → Nat → Names → Prop) : Prop :=
  S.Certifies L → ∀ a t, m.exec (S.state L b sc) = (.ok a, t) →
    ∃ L' b' sc', t = S.state L' b' sc' ∧ L.Le L' ∧ S.Certifies L' ∧ Q a L' b' sc'

namespace Runs

variable {α β : Type} {S : Setting} {m : Lower Draft Operand Slot Nat α}
  {f : α → Lower Draft Operand Slot Nat β} {L : Ledger} {b : Nat} {sc : Names}
  {Q : α → Ledger → Nat → Names → Prop} {R : β → Ledger → Nat → Names → Prop}

theorem pure {a : α} (h : Q a L b sc) : Runs S (Pure.pure a) L b sc Q := by
  intro certifies a' t run
  cases run
  exact ⟨L, b, sc, rfl, .refl _, certifies, h⟩

theorem throw {e : Diagnostic} : Runs S (MonadExcept.throw e) L b sc Q := by
  intro certifies a t run
  cases run

theorem bind (hm : Runs S m L b sc Q)
    (hf : ∀ a L' b' sc', L.Le L' → Q a L' b' sc' → Runs S (f a) L' b' sc' R) :
    Runs S (m >>= f) L b sc R := by
  intro certifies c t run
  obtain ⟨a, u, first, second⟩ := exec_bind_eq_ok.mp run
  obtain ⟨L₁, b₁, sc₁, rfl, le, certifies₁, hq⟩ := hm certifies a u first
  obtain ⟨L₂, b₂, sc₂, rfl, le', certifies₂, hr⟩ := hf a L₁ b₁ sc₁ le hq certifies₁ c t second
  exact ⟨L₂, b₂, sc₂, rfl, le.trans le', certifies₂, hr⟩

theorem mono {Q' : α → Ledger → Nat → Names → Prop} (hm : Runs S m L b sc Q)
    (h : ∀ a L' b' sc', L.Le L' → Q a L' b' sc' → Q' a L' b' sc') : Runs S m L b sc Q' := by
  intro certifies a t run
  obtain ⟨L', b', sc', rfl, le, certifies', hq⟩ := hm certifies a t run
  exact ⟨L', b', sc', rfl, le, certifies', h a L' b' sc' le hq⟩

theorem ite {p : Prop} [Decidable p] {n : Lower Draft Operand Slot Nat α} (hm : Runs S m L b sc Q)
    (hn : Runs S n L b sc Q) : Runs S (if p then m else n) L b sc Q := by
  split
  · exact hm
  · exact hn

end Runs

/-! ## Requests -/

/-- The step comes back to the block and the names it started with. -/
def Stays {α : Type} (b : Nat) (sc : Names) (Q : α → Ledger → Prop) (a : α) (L' : Ledger) (b' : Nat)
    (sc' : Names) : Prop :=
  b = b' ∧ sc = sc' ∧ Q a L'

theorem request_eq_ok {site : Construct} {r : DraftRequest} {reply : r.Reply Module} {d : Draft}
    {sc : Names} {fn : Option Nat} {t : Lowering Draft Operand Slot Nat}
    (h : (request site r).exec ⟨d, sc, fn⟩ = (.ok reply, t)) :
    ∃ d', (Draft.perform r).exec d = (.ok reply, d') ∧ t = ⟨d', sc, fn⟩ := by
  cases hr : (Draft.perform r).exec d with
  | mk result d' =>
      cases result with
      | error e => simp [request, Emitter.perform, hr] at h
      | ok p =>
          simp only [request, Emitter.perform, Stateful.exec_ofFn, hr, Prod.mk.injEq,
            Except.ok.injEq] at h
          exact ⟨d', by rw [← h.1], h.2.symm⟩

section

variable {S : Setting} {L : Ledger} {b : Nat} {sc : Names} {site : Construct}

theorem runs_constant (value : Literal) :
    Runs S (request site (.constant value) : Lower Draft Operand Slot Nat Operand) L b sc
      (Stays b sc fun v L' => S.Holds L' (L'.available b) v value.type) := by
  intro certifies v t run
  obtain ⟨d', ok, rfl⟩ := request_eq_ok run
  cases ok
  exact ⟨L, b, sc, rfl, .refl _, certifies, rfl, rfl, S.holds_constant _ _ value⟩

/-- The draft has come to a certified function with a larger ledger, in the same block. -/
def Reaches (S : Setting) (L : Ledger) (b : Nat) (d : Draft) (Q : Ledger → Prop) : Prop :=
  ∃ L', d = S.draft.focus S.index L'.function b ∧ L.Le L' ∧ S.Certifies L' ∧ Q L'

/-- A request is opened by what its reply says about the draft. -/
theorem runs_request {r : DraftRequest} {Q : r.Reply Module → Ledger → Prop}
    (h : S.Certifies L → ∀ {v d'},
      (Draft.perform r).exec (S.draft.focus S.index L.function b) = (.ok v, d') →
        Reaches S L b d' (Q v)) :
    Runs S (request site r) L b sc (Stays b sc Q) := by
  intro certifies v t run
  obtain ⟨d', ok, rfl⟩ := request_eq_ok run
  obtain ⟨L', rfl, le, certifies', hq⟩ := h certifies ok
  exact ⟨L', b, sc, rfl, le, certifies', rfl, rfl, hq⟩

theorem reaches_append {i : Instruction} {d' : Draft} (certifies : S.Certifies L)
    (appended : (Draft.append i).exec (S.draft.focus S.index L.function b) = (.ok (), d'))
    (nothing : i.defines = none) (ok : InstructionOk (S.env L) i) (uses : ∀ x ∈ i.uses, x ∈ L.available b) :
    Reaches S L b d' fun _ => True := by
  obtain ⟨isOpen, rfl⟩ := Draft.append_focus_eq_ok certifies.hosts appended
  let L' := L.emit b i [] []
  have le : L.Le L' := L.le_emit isOpen _ _ _
  have counters : (⟨(L.registers ++ []).length, (L.slots ++ []).length⟩ : Counters) =
      L.function.counters := by
    simp [Function.counters, certifies.certified.registers, certifies.certified.slots]
  have certified : Certified S.signatures S.globals L' := by
    refine certifies.certified.emit isOpen ?_ ((Setting.env_le le).instructionOk ok) uses
    rw [counters]
    exact .nothing nothing
  refine ⟨L', ?_, le, ⟨certifies.hosts, certifies.returns, certified⟩, trivial⟩
  rw [← counters]
  rfl

/-- An instruction that writes the next register, at a type that makes it well typed. -/
theorem reaches_appendDef {i : Nat → Instruction} {ty : Ty} {v : Operand} {d' : Draft}
    (certifies : S.Certifies L)
    (appended : (Draft.appendDef i).exec (S.draft.focus S.index L.function b) = (.ok v, d'))
    (writes : ∀ r, (i r).defines = some (.register r))
    (ok : ∀ {E r}, (S.env L).Le E → E.registers r = some ty → InstructionOk E (i r))
    (uses : ∀ r, ∀ x ∈ (i r).uses, x ∈ L.available b) :
    Reaches S L b d' fun L' => S.Holds L' (L'.available b) v ty := by
  obtain ⟨isOpen, rfl, rfl⟩ := Draft.appendDef_focus_eq_ok certifies.hosts appended
  have registers := certifies.certified.registers
  have slots := certifies.certified.slots
  let L' := L.emit b (i L.function.registers) [ty] []
  have le : L.Le L' := L.le_emit isOpen _ _ _
  have counters : (⟨(L.registers ++ [ty]).length, (L.slots ++ []).length⟩ : Counters) =
      ⟨L.function.registers + 1, L.function.slots⟩ := by
    simp [registers, slots]
  have written : L'.registers[L.function.registers]? = some ty := by
    simp [L', Ledger.emit, registers]
  have certified : Certified S.signatures S.globals L' := by
    refine certifies.certified.emit isOpen ?_ (ok (Setting.env_le le) written) (uses _)
    rw [counters]
    exact .register (writes _)
  refine ⟨L', ?_, le, ⟨certifies.hosts, certifies.returns, certified⟩, written, ?_⟩
  · rw [← counters]
    rfl
  · intro x hx
    cases List.mem_singleton.mp hx
    refine .inr ⟨(L.function.endOf b).index, ?_⟩
    exact (Function.definesAt_emit isOpen _ _ _ _).mpr (.inr ⟨rfl, writes _⟩)

/-- What an instruction uses is there when its operands and its storage are. -/
theorem uses_there {i : Instruction} {A : Set Local}
    (operands : ∀ o ∈ i.operands, ∀ x ∈ o.locals, x ∈ A)
    (storage : ∀ s ∈ i.storage, ∀ x ∈ s.locals, x ∈ A) : ∀ x ∈ i.uses, x ∈ A := by
  intro x hx
  rcases List.mem_append.mp hx with hx | hx
  · obtain ⟨o, ho, hx⟩ := List.mem_flatMap.mp hx
    exact operands o ho x hx
  · obtain ⟨s, hs, hx⟩ := List.mem_flatMap.mp hx
    exact storage s hs x hx

theorem runs_binary {op : Operation} {v w : Operand} {ty : Ty} (family : op.WorksAt ty)
    (left : S.Holds L (L.available b) v ty) (right : S.Holds L (L.available b) w ty)
    (name : String) :
    Runs S (request site (.binary op v w name) : Lower Draft Operand Slot Nat Operand) L b sc
      (Stays b sc fun v L' => S.Holds L' (L'.available b) v ty) :=
  runs_request fun certifies _ _ appended =>
    reaches_appendDef (i := (.binary · op v w)) certifies appended (fun _ => rfl)
      (fun le written => .binary family (le.operand? left.type) (le.operand? right.type) written)
      fun _ => uses_there (by simpa [Instruction.operands] using ⟨left.there, right.there⟩)
        (by simp [Instruction.storage])

theorem runs_compare {test : Predicate} {v w : Operand} {ty : Ty} (family : test.WorksAt ty)
    (left : S.Holds L (L.available b) v ty) (right : S.Holds L (L.available b) w ty)
    (name : String) :
    Runs S (request site (.compare test v w name) : Lower Draft Operand Slot Nat Operand) L b sc
      (Stays b sc fun v L' => S.Holds L' (L'.available b) v .boolean) :=
  runs_request fun certifies _ _ appended =>
    reaches_appendDef (i := (.compare · test v w)) certifies appended (fun _ => rfl)
      (fun le written => .compare family (le.operand? left.type) (le.operand? right.type) written)
      fun _ => uses_there (by simpa [Instruction.operands] using ⟨left.there, right.there⟩)
        (by simp [Instruction.storage])

theorem runs_convert {conversion : Conversion} {v : Operand} {source target : Ty}
    (value : S.Holds L (L.available b) v source)
    (selected : Conversion.into target source = .ok conversion) (moves : conversion ≠ .identity)
    (name : String) :
    Runs S (request site (.convert conversion v target name) : Lower Draft Operand Slot Nat Operand)
      L b sc (Stays b sc fun v L' => S.Holds L' (L'.available b) v target) :=
  runs_request fun certifies _ _ appended =>
    reaches_appendDef (i := (.convert · conversion v target)) certifies appended (fun _ => rfl)
      (fun le written => .convert (le.operand? value.type) selected moves written)
      fun _ => uses_there (by simpa [Instruction.operands] using value.there)
        (by simp [Instruction.storage])

theorem holds_none {A : Set Local} {ty : Ty} : ∀ v, none = some v → S.Holds L A v ty :=
  fun _ h => nomatch h

theorem index_of_holds {A : Set Local} {o : Option Operand}
    (h : ∀ v, o = some v → S.Holds L A v .long) : (S.env L).Index o :=
  fun v hv => (h v hv).type

theorem there_of_holds {A : Set Local} {o : Option Operand} {ty : Ty}
    (h : ∀ v, o = some v → S.Holds L A v ty) : ∀ v ∈ o.toList, ∀ x ∈ v.locals, x ∈ A :=
  fun v hv => (h v (Option.mem_toList.mp hv)).there

theorem runs_load {slot : Slot} {ty : Ty} {o : Option Operand}
    (stored : (S.env L).storage? slot = some ty) (there : ∀ x ∈ slot.locals, x ∈ L.available b)
    (offset : ∀ v, o = some v → S.Holds L (L.available b) v .long) (name : String) :
    Runs S (request site (.load slot ty o name) : Lower Draft Operand Slot Nat Operand) L b sc
      (Stays b sc fun v L' => S.Holds L' (L'.available b) v ty) :=
  runs_request fun certifies _ _ appended =>
    reaches_appendDef (i := (.load · slot ty o)) certifies appended (fun _ => rfl)
      (fun le written => .load (le.storage? stored) (le.index (index_of_holds offset)) written)
      fun _ => uses_there (there_of_holds offset) (by simpa [Instruction.storage] using there)

theorem runs_store {slot : Slot} {ty : Ty} {o : Option Operand} {v : Operand}
    (stored : (S.env L).storage? slot = some ty) (there : ∀ x ∈ slot.locals, x ∈ L.available b)
    (offset : ∀ v, o = some v → S.Holds L (L.available b) v .long)
    (value : S.Holds L (L.available b) v ty) :
    Runs S (request site (.store slot ty o v) : Lower Draft Operand Slot Nat Unit) L b sc
      (Stays b sc fun _ _ => True) := by
  refine runs_request fun certifies _ _ appended => ?_
  refine reaches_append certifies appended rfl (.store stored (index_of_holds offset) value.type)
    (uses_there ?_ (by simpa [Instruction.storage] using there))
  intro o' ho'
  rcases List.mem_append.mp ho' with ho' | ho'
  · exact there_of_holds offset o' ho'
  · exact List.mem_singleton.mp ho' ▸ value.there

theorem runs_alloca {ty : Ty} {length : Option Operand}
    (count : ∀ v, length = some v → S.Holds L (L.available b) v .long) (name : String) :
    Runs S (request site (.alloca ty length name) : Lower Draft Operand Slot Nat Slot) L b sc
      (Stays b sc fun s L' => (S.env L').storage? s = some ty ∧
        ∀ x ∈ s.locals, x ∈ L'.available b) := by
  refine runs_request fun certifies s d' allocated => ?_
  obtain ⟨isOpen, rfl, rfl⟩ := Draft.appendAlloca_focus_eq_ok certifies.hosts allocated
  have registers := certifies.certified.registers
  have slots := certifies.certified.slots
  let L' := L.emit b (.alloca L.function.slots ty length name) [] [ty]
  have le : L.Le L' := L.le_emit isOpen _ _ _
  have counters : (⟨(L.registers ++ []).length, (L.slots ++ [ty]).length⟩ : Counters) =
      ⟨L.function.registers, L.function.slots + 1⟩ := by
    simp [registers, slots]
  have stored : L'.slots[L.function.slots]? = some ty := by
    simp [L', Ledger.emit, slots]
  have certified : Certified S.signatures S.globals L' := by
    refine certifies.certified.emit isOpen ?_
      (.alloca stored ((Setting.env_le le).index (index_of_holds count)))
      (uses_there (there_of_holds count) (by simp [Instruction.storage]))
    rw [counters]
    exact .slot rfl
  refine ⟨L', ?_, le, ⟨certifies.hosts, certifies.returns, certified⟩, stored, ?_⟩
  · rw [← counters]
    rfl
  · intro x hx
    cases List.mem_singleton.mp hx
    refine .inr ⟨(L.function.endOf b).index, ?_⟩
    exact (Function.definesAt_emit isOpen _ _ _ _).mpr (.inr ⟨rfl, rfl⟩)

/-- Operands of given types, from left to right. -/
def HoldsAll (S : Setting) (L : Ledger) (A : Set Local) (vs : List Operand) (tys : List Ty) : Prop :=
  List.Forall₂ (S.Holds L A) vs tys

theorem HoldsAll.types {A : Set Local} {vs : List Operand} {tys : List Ty}
    (h : HoldsAll S L A vs tys) : vs.map (S.env L).operand? = tys.map some := by
  induction h with
  | nil => rfl
  | cons head _ ih => simp only [List.map_cons, head.type, ih]

theorem HoldsAll.there {A : Set Local} {vs : List Operand} {tys : List Ty}
    (h : HoldsAll S L A vs tys) : ∀ v ∈ vs, ∀ x ∈ v.locals, x ∈ A := by
  induction h with
  | nil => simp
  | cons head _ ih => exact List.forall_mem_cons.mpr ⟨head.there, ih⟩

/-- A call leaves a value exactly when its callee has a result. -/
theorem runs_call {g : Nat} {G : Function} {vs : List Operand} {result : Ty} {parameters : List Ty}
    (found : S.draft.module.functions[g]? = some G) (returns : G.result = result)
    (known : S.signatures g = some (result, parameters))
    (arguments : HoldsAll S L (L.available b) vs parameters) (name : String) :
    Runs S (request site (.call g vs name) : Lower Draft Operand Slot Nat (Option Operand)) L b sc
      (Stays b sc fun v L' => ∀ w, v = some w → S.Holds L' (L'.available b) w result) := by
  have uses : ∀ dest, ∀ x ∈ (Instruction.call dest g vs).uses, x ∈ L.available b := fun dest =>
    uses_there arguments.there (by simp [Instruction.storage])
  refine runs_request fun certifies v d' called => ?_
  obtain ⟨G', function, same⟩ := Draft.function_focus certifies.hosts found b
  obtain ⟨H, u, looked, called⟩ := exec_bind_eq_ok.mp called
  obtain ⟨hH, rfl⟩ := Draft.consult_eq_ok.mp looked
  cases hH.symm.trans function
  rw [same.trans returns] at called
  by_cases void : result = .void
  · rw [if_pos void] at called
    obtain ⟨_, d₁, appended, h⟩ := exec_bind_eq_ok.mp called
    cases h
    obtain ⟨L', rfl, le, certifies', -⟩ := reaches_append certifies appended rfl
      (.callVoid (void ▸ known) arguments.types) (uses none)
    exact ⟨L', rfl, le, certifies', fun w hw => nomatch hw⟩
  · rw [if_neg void] at called
    obtain ⟨w, d₁, appended, h⟩ := exec_bind_eq_ok.mp called
    cases h
    obtain ⟨L', rfl, le, certifies', holds⟩ := reaches_appendDef
      (i := fun dest => .call (some dest) g vs) certifies appended (fun _ => rfl)
      (fun le written => .call (le.signatures known) (le.operands? arguments.types) void written)
      fun _ => uses _
    exact ⟨L', rfl, le, certifies', fun w' hw => by cases hw; exact holds⟩

/-! ## Terminators -/

/-- The block is closed by a well-typed terminator that brings along what its targets expect. -/
theorem reaches_close {t : Terminator} {d' : Draft} (certifies : S.Certifies L)
    (closed : (Draft.close t).exec (S.draft.focus S.index L.function b) = (.ok (), d'))
    (ok : TerminatorOk (S.env L) t) (uses : ∀ x ∈ t.uses, x ∈ L.available b)
    (brings : ∀ s ∈ t.successors, ∃ A, L.Opens s A ∧ A ⊆ L.available b) :
    Reaches S L b d' fun _ => True := by
  obtain ⟨isOpen, rfl⟩ := Draft.close_focus_eq_ok certifies.hosts closed
  exact ⟨L.close b t, rfl, L.le_close b t,
    ⟨certifies.hosts, certifies.returns, certifies.certified.close isOpen ok uses brings⟩, trivial⟩

theorem runs_branch {i : Nat} {A : Set Local} (opens : L.Opens i A) (sub : A ⊆ L.available b) :
    Runs S (request site (.branch ⟨S.index, i⟩) : Lower Draft Operand Slot Nat Unit) L b sc
      (Stays b sc fun _ _ => True) := by
  refine runs_request fun certifies _ _ closed => ?_
  rw [Draft.perform_branch_focus] at closed
  refine reaches_close certifies closed .branch (by simp [Terminator.uses, Terminator.operands]) ?_
  intro s hs
  cases List.mem_singleton.mp hs
  exact ⟨A, opens, sub⟩

theorem runs_condBranch {v : Operand} {i j : Nat} {A : Set Local}
    (condition : S.Holds L (L.available b) v .boolean) (opens : L.Opens i A)
    (opensToo : L.Opens j A) (sub : A ⊆ L.available b) :
    Runs S (request site (.condBranch v ⟨S.index, i⟩ ⟨S.index, j⟩) :
      Lower Draft Operand Slot Nat Unit) L b sc (Stays b sc fun _ _ => True) := by
  refine runs_request fun certifies _ _ closed => ?_
  rw [Draft.perform_condBranch_focus] at closed
  refine reaches_close certifies closed (.condBranch condition.type)
    (by simpa [Terminator.uses, Terminator.operands] using condition.there) ?_
  intro s hs
  rcases List.mem_pair.mp hs with rfl | rfl
  · exact ⟨A, opens, sub⟩
  · exact ⟨A, opensToo, sub⟩

theorem runs_ret {v : Operand} (valued : S.result ≠ .void)
    (value : S.Holds L (L.available b) v S.result) :
    Runs S (request site (.ret (some v)) : Lower Draft Operand Slot Nat Unit) L b sc
      (Stays b sc fun _ _ => True) := by
  refine runs_request fun certifies _ _ closed => ?_
  have returns : (S.env L).result = S.result := certifies.returns
  exact reaches_close certifies closed (.ret (returns ▸ valued) (returns ▸ value.type))
    (by simpa [Terminator.uses, Terminator.operands] using value.there)
    (by simp [Terminator.successors])

theorem runs_retVoid (void : S.result = .void) :
    Runs S (request site (.ret none) : Lower Draft Operand Slot Nat Unit) L b sc
      (Stays b sc fun _ _ => True) := by
  refine runs_request fun certifies _ _ closed => ?_
  exact reaches_close certifies closed (.retVoid (certifies.returns.trans void))
    (by simp [Terminator.uses, Terminator.operands]) (by simp [Terminator.successors])

theorem runs_unreachable :
    Runs S (request site .unreachable : Lower Draft Operand Slot Nat Unit) L b sc
      (Stays b sc fun _ _ => True) := by
  refine runs_request fun certifies _ _ closed => ?_
  exact reaches_close certifies closed .unreachable
    (by simp [Terminator.uses, Terminator.operands]) (by simp [Terminator.successors])

theorem runs_switch {v : Operand} {default : Nat} {entries : List (Literal × Nat)} {ty : Ty}
    {A : Set Local} (integer : ty.isInteger = true) (value : S.Holds L (L.available b) v ty)
    (literals : ∀ c ∈ entries, c.1.type = ty) (distinct : (entries.map Prod.fst).Nodup)
    (opens : L.Opens default A) (opensEach : ∀ c ∈ entries, L.Opens c.2 A)
    (sub : A ⊆ L.available b) :
    Runs S (request site (.switch v ⟨S.index, default⟩
      (entries.map fun c => (c.1, BlockId.mk S.index c.2))) : Lower Draft Operand Slot Nat Unit)
      L b sc (Stays b sc fun _ _ => True) := by
  refine runs_request fun certifies _ _ closed => ?_
  rw [Draft.perform_switch_focus] at closed
  refine reaches_close certifies closed (.switch integer value.type literals distinct)
    (by simpa [Terminator.uses, Terminator.operands] using value.there) ?_
  intro s hs
  rcases List.mem_cons.mp hs with rfl | hs
  · exact ⟨A, opens, sub⟩
  · obtain ⟨c, hc, rfl⟩ := List.mem_map.mp hs
    exact ⟨A, opensEach c hc, sub⟩

/-! ## Blocks and names -/

/-- A new block may be opened with any set: nothing leads there yet. -/
theorem runs_addBlock {label : String} (known : label ∈ blockLabels) (A : Set Local) :
    Runs S (addBlock S.index label : Lower Draft Operand Slot Nat BlockId) L b sc
      (Stays b sc fun B L' => ∃ i, B = ⟨S.index, i⟩ ∧ L'.Opens i A) := by
  intro certifies B t run
  have added := Draft.addBlock_focus certifies.hosts (b := b) label
  simp only [addBlock, Emitter.addBlock, Setting.state, atEnd, Stateful.exec_ofFn, added] at run
  cases run
  exact ⟨L.grow label A, b, sc, rfl, L.le_grow label A,
    ⟨certifies.hosts, certifies.returns, certifies.certified.grow known A⟩, rfl, rfl, _, rfl,
    certifies.certified.opens_grow label A⟩

theorem runs_addBlocks {label : String} (known : label ∈ blockLabels) (A : Set Local) (n : Nat) :
    Runs S (addBlocks S.index label n : Lower Draft Operand Slot Nat (List BlockId)) L b sc
      (Stays b sc fun Bs L' => ∃ is : List Nat, Bs = is.map (BlockId.mk S.index) ∧
        is.length = n ∧ ∀ i ∈ is, L'.Opens i A) := by
  induction n generalizing L with
  | zero => exact .pure ⟨rfl, rfl, [], rfl, rfl, by simp⟩
  | succ n ih =>
      refine (runs_addBlock known A).bind ?_
      rintro B L₁ b₁ sc₁ le₁ ⟨rfl, rfl, i, rfl, opens⟩
      refine ih.bind ?_
      rintro Bs L₂ b₂ sc₂ le₂ ⟨rfl, rfl, is, rfl, length, opensEach⟩
      refine .pure ⟨rfl, rfl, i :: is, rfl, by simp [length], ?_⟩
      exact List.forall_mem_cons.mpr ⟨le₂.opens opens, opensEach⟩

theorem runs_moveTo (i : Nat) :
    Runs S (moveTo ⟨S.index, i⟩ : Lower Draft Operand Slot Nat Unit) L b sc
      fun _ L' b' sc' => L = L' ∧ i = b' ∧ sc = sc' := by
  intro certifies a t run
  cases run
  exact ⟨L, i, sc, rfl, .refl _, certifies, rfl, rfl, rfl⟩

theorem runs_isClosed :
    Runs S (isClosed : Lower Draft Operand Slot Nat Bool) L b sc (Stays b sc fun _ _ => True) := by
  intro certifies a t run
  cases run
  exact ⟨L, b, sc, rfl, .refl _, certifies, rfl, rfl, trivial⟩

theorem runs_enclosingFunction :
    Runs S (enclosingFunction site : Lower Draft Operand Slot Nat Nat) L b sc
      (Stays b sc fun f _ => f = S.index) := by
  intro certifies a t run
  cases run
  exact ⟨L, b, sc, rfl, .refl _, certifies, rfl, rfl, rfl⟩

theorem runs_required {v : Option Operand} {Q : Operand → Prop} (h : ∀ w, v = some w → Q w) :
    Runs S (required site v : Lower Draft Operand Slot Nat Operand) L b sc
      (Stays b sc fun w _ => Q w) := by
  cases v with
  | none => exact .throw
  | some w => exact .pure ⟨rfl, rfl, h w rfl⟩

theorem runs_lookupVar {name : String} :
    Runs S (lookupVar name site : Lower Draft Operand Slot Nat (Slot × Ty × List Operand)) L b sc
      (Stays b sc fun found _ => sc.lookup name = some (.var found.1 found.2.1 found.2.2)) := by
  intro certifies a t run
  simp only [lookupVar, Setting.state, atEnd, Stateful.exec_ofFn] at run
  split at run
  · next slot ty sizes found =>
      cases run
      exact ⟨L, b, sc, rfl, .refl _, certifies, rfl, rfl, found⟩
  · cases run
  · cases run

theorem runs_lookupFn {name : String} :
    Runs S (lookupFn name site : Lower Draft Operand Slot Nat Nat) L b sc
      (Stays b sc fun g _ => sc.lookup name = some (.fn g)) := by
  intro certifies a t run
  simp only [lookupFn, Setting.state, atEnd, Stateful.exec_ofFn] at run
  split at run
  · next g found =>
      cases run
      exact ⟨L, b, sc, rfl, .refl _, certifies, rfl, rfl, found⟩
  · cases run
  · cases run

theorem runs_declare {name : String} {storage : Storage Operand Slot Nat} :
    Runs S (declare name storage site : Lower Draft Operand Slot Nat Unit) L b sc
      fun _ L' b' sc' => L = L' ∧ b = b' ∧ sc.push name storage = sc' := by
  intro certifies a t run
  simp only [declare, Setting.state, atEnd, Stateful.exec_ofFn] at run
  split at run
  · next scope declared =>
      cases run
      obtain ⟨-, rfl⟩ := Scope.declare_eq_ok.mp declared
      exact ⟨L, b, _, rfl, .refl _, certifies, rfl, rfl, rfl⟩
  · cases run

end

end ImpLower.Lower
