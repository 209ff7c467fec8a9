import ImpLower.Proofs.Lower.Ledgers

/-!
# Code of expressions is certified

A well-annotated expression is lowered under a ledger: what it leaves has its type and is there for
what follows in the block.
-/

namespace ImpLower.Lower

open Code Typed Stateful

/-- Wherever the expression is well annotated, its value has its type. -/
def ExprCertified (e : Expr) : Prop :=
  ∀ {S : Setting} {L : Ledger} {b : Nat} {sc : Names}, S.Sees L (L.available b) sc →
    ExprOk (sc.map (symbolOf S.signatures)) e →
    Runs S (lowerExpr e) L b sc
      (Stays b sc fun v L' => ∀ w, v = some w → S.Holds L' (L'.available b) w e.ty)

section

variable {S : Setting} {L : Ledger} {b : Nat} {sc : Names} {site : Construct}

theorem runs_lowerValue_of {e : Expr} (certified : ExprCertified e)
    (sees : S.Sees L (L.available b) sc) (ok : ExprOk (sc.map (symbolOf S.signatures)) e) :
    Runs S (lowerValue site e) L b sc
      (Stays b sc fun v L' => S.Holds L' (L'.available b) v e.ty) := by
  refine (certified sees ok).bind ?_
  rintro v L₁ _ _ le₁ ⟨rfl, rfl, hv⟩
  refine (runs_required hv).mono ?_
  rintro w L₂ _ _ le₂ ⟨rfl, rfl, hw⟩
  exact ⟨rfl, rfl, hw.stays le₂⟩

theorem runs_lowerConverted_of {c : Converted} (certified : ExprCertified c.value)
    (sees : S.Sees L (L.available b) sc) (ok : ExprOk (sc.map (symbolOf S.signatures)) c.value)
    (fits : c.Fits) :
    Runs S (lowerConverted site c) L b sc
      (Stays b sc fun v L' => S.Holds L' (L'.available b) v c.target) := by
  obtain ⟨e, conversion, target⟩ := c
  have unfolds : (lowerConverted site (.mk e conversion target) :
      Lower Draft Operand Slot Nat Operand) = (do
        let v ← lowerValue site e
        if conversion = .identity then return v
        request site (.convert conversion v target "conv")) := by
    simp only [lowerConverted, lowerValue, bind_assoc]
  rw [unfolds]
  refine (runs_lowerValue_of certified sees ok).bind ?_
  rintro v L₁ _ _ le₁ ⟨rfl, rfl, hv⟩
  by_cases same : conversion = .identity
  · rw [if_pos same]
    have target_eq : target = e.ty := Conversion.eq_of_into_eq_identity (same ▸ fits.2)
    exact .pure ⟨rfl, rfl, target_eq ▸ hv⟩
  · rw [if_neg same]
    exact runs_convert hv fits.2 same "conv"

theorem runs_lowerArguments_of {cs : List Converted} (certified : ∀ c ∈ cs, ExprCertified c.value)
    (sees : S.Sees L (L.available b) sc)
    (ok : ∀ c ∈ cs, ExprOk (sc.map (symbolOf S.signatures)) c.value) (fits : ∀ c ∈ cs, c.Fits) :
    Runs S (lowerArguments site cs) L b sc
      (Stays b sc fun vs L' => HoldsAll S L' (L'.available b) vs (cs.map Converted.target)) := by
  induction cs generalizing L with
  | nil =>
      rw [lowerArguments]
      exact .pure ⟨rfl, rfl, .nil⟩
  | cons c rest ih =>
      obtain ⟨certified₀, certified⟩ := List.forall_mem_cons.mp certified
      obtain ⟨ok₀, ok⟩ := List.forall_mem_cons.mp ok
      obtain ⟨fit, fits⟩ := List.forall_mem_cons.mp fits
      rw [lowerArguments]
      refine (runs_lowerConverted_of certified₀ sees ok₀ fit).bind ?_
      rintro v L₁ _ _ le₁ ⟨rfl, rfl, hv⟩
      refine (ih certified (sees.stays le₁) ok fits).bind ?_
      rintro vs L₂ _ _ le₂ ⟨rfl, rfl, hvs⟩
      exact .pure ⟨rfl, rfl, .cons (hv.stays le₂) hvs⟩

theorem runs_some {m : Lower Draft Operand Slot Nat Operand} {ty : Ty}
    (h : Runs S m L b sc (Stays b sc fun v L' => S.Holds L' (L'.available b) v ty)) :
    Runs S (do return some (← m)) L b sc
      (Stays b sc fun v L' => ∀ w, v = some w → S.Holds L' (L'.available b) w ty) := by
  refine h.bind ?_
  rintro v L₁ _ _ le₁ ⟨rfl, rfl, hv⟩
  refine .pure ⟨rfl, rfl, fun w same => ?_⟩
  cases same
  exact hv

/-- Two operands, lowered from left to right, and what is done with them. -/
theorem runs_operands {left right : Converted} (certifiedLeft : ExprCertified left.value)
    (certifiedRight : ExprCertified right.value) (sees : S.Sees L (L.available b) sc)
    (insideLeft : ExprOk (sc.map (symbolOf S.signatures)) left.value)
    (insideRight : ExprOk (sc.map (symbolOf S.signatures)) right.value) (fitsLeft : left.Fits)
    (fitsRight : right.Fits) {β : Type} {k : Operand → Operand → Lower Draft Operand Slot Nat β}
    {Q : β → Ledger → Nat → Names → Prop}
    (rest : ∀ v w L', S.Holds L' (L'.available b) v left.target →
      S.Holds L' (L'.available b) w right.target → Runs S (k v w) L' b sc Q) :
    Runs S (do
      let v ← lowerConverted site left
      let w ← lowerConverted site right
      k v w) L b sc Q := by
  refine (runs_lowerConverted_of certifiedLeft sees insideLeft fitsLeft).bind ?_
  rintro v L₁ _ _ le₁ ⟨rfl, rfl, hv⟩
  refine (runs_lowerConverted_of certifiedRight (sees.stays le₁) insideRight fitsRight).bind ?_
  rintro w L₂ _ _ le₂ ⟨rfl, rfl, hw⟩
  exact rest v w L₂ (hv.stays le₂) hw

theorem runs_longArith {op : Arith} {v w : Operand} (left : S.Holds L (L.available b) v .long)
    (right : S.Holds L (L.available b) w .long) (name : String) :
    Runs S (request site (.binary (.int op) v w name) : Lower Draft Operand Slot Nat Operand) L b sc
      (Stays b sc fun v L' => S.Holds L' (L'.available b) v .long) :=
  runs_binary (show (Operation.int op).WorksAt .long from rfl) left right name

theorem runs_scaleBy {o : Operand} {sizes : List Operand}
    (offset : S.Holds L (L.available b) o .long)
    (holds : ∀ n ∈ sizes, S.Holds L (L.available b) n .long) :
    Runs S (scaleBy site o sizes) L b sc
      (Stays b sc fun v L' => S.Holds L' (L'.available b) v .long) := by
  induction sizes generalizing L o with
  | nil => exact .pure ⟨rfl, rfl, offset⟩
  | cons n ns ih =>
      obtain ⟨first, others⟩ := List.forall_mem_cons.mp holds
      rw [scaleBy]
      refine (runs_longArith offset first "scaled").bind ?_
      rintro v L₁ _ _ le₁ ⟨rfl, rfl, hv⟩
      exact ih hv fun n hn => (others n hn).stays le₁

theorem runs_addIndex {n i : Operand} {before : Option Operand}
    (size : S.Holds L (L.available b) n .long) (index : S.Holds L (L.available b) i .long)
    (offset : ∀ o, before = some o → S.Holds L (L.available b) o .long) :
    Runs S (addIndex site n i before) L b sc
      (Stays b sc fun v L' => S.Holds L' (L'.available b) v .long) := by
  cases before with
  | none => exact .pure ⟨rfl, rfl, index⟩
  | some o =>
      rw [addIndex]
      refine (runs_longArith (offset o rfl) size "scaled").bind ?_
      rintro v L₁ _ _ le₁ ⟨rfl, rfl, hv⟩
      exact runs_longArith hv (index.stays le₁) "offset"

theorem runs_lowerOffset_of {cs : List Converted} (certified : ∀ c ∈ cs, ExprCertified c.value)
    (sees : S.Sees L (L.available b) sc)
    (ok : ∀ c ∈ cs, ExprOk (sc.map (symbolOf S.signatures)) c.value)
    (integers : ∀ c ∈ cs, c.IsIndex) {sizes : List Operand}
    (holds : ∀ n ∈ sizes, S.Holds L (L.available b) n .long) (before : Option Operand)
    (offset : ∀ o, before = some o → S.Holds L (L.available b) o .long) :
    Runs S (lowerOffset site cs sizes before) L b sc
      (Stays b sc fun after L' => ∀ o, after = some o → S.Holds L' (L'.available b) o .long) := by
  induction cs generalizing L sizes before with
  | nil =>
      cases before with
      | none =>
          rw [lowerOffset]
          exact .pure ⟨rfl, rfl, holds_none⟩
      | some o =>
          rw [lowerOffset]
          refine (runs_scaleBy (offset o rfl) holds).bind ?_
          rintro v L₁ _ _ le₁ ⟨rfl, rfl, hv⟩
          exact .pure ⟨rfl, rfl, fun o ho => by cases ho; exact hv⟩
  | cons c rest ih =>
      cases sizes with
      | nil =>
          rw [lowerOffset]
          exact .pure ⟨rfl, rfl, offset⟩
      | cons n sizes =>
          obtain ⟨certified₀, certified⟩ := List.forall_mem_cons.mp certified
          obtain ⟨ok₀, ok⟩ := List.forall_mem_cons.mp ok
          obtain ⟨integer, integers⟩ := List.forall_mem_cons.mp integers
          obtain ⟨size, others⟩ := List.forall_mem_cons.mp holds
          rw [lowerOffset]
          refine (runs_lowerConverted_of certified₀ sees ok₀ integer.1).bind ?_
          rintro i L₁ _ _ le₁ ⟨rfl, rfl, hi⟩
          rw [integer.2.2] at hi
          refine (runs_addIndex (size.stays le₁) hi fun o ho => (offset o ho).stays le₁).bind ?_
          rintro o L₂ _ _ le₂ ⟨rfl, rfl, ho⟩
          have le := le₁.trans le₂
          exact ih certified (sees.stays le) ok integers (fun n hn => (others n hn).stays le) _
            fun o' ho' => by cases ho'; exact ho

end

theorem literal_certified (value : Literal) : ExprCertified (.literal value) := by
  intro S L b sc sees ok
  rw [lowerExpr]
  exact runs_some (runs_constant value)

theorem var_certified {name : String} {ty : Ty} {indices : List Converted}
    (ih : ∀ c ∈ indices, ExprCertified c.value) : ExprCertified (.var name ty indices) := by
  intro S L b sc sees ok
  cases ok with
  | var bound deep integers inside =>
      obtain ⟨slot, sizes, found, -⟩ := lookup_var_of_symbol bound
      rw [lowerExpr]
      refine runs_lookupVar.bind ?_
      rintro ⟨slot', ty', sizes'⟩ L₁ _ _ le₁ ⟨rfl, rfl, found'⟩
      cases found.symm.trans found'
      have sees₁ := sees.stays le₁
      obtain ⟨-, -, holds⟩ := sees₁.var found
      refine (runs_lowerOffset_of ih sees₁ inside integers holds none
        holds_none).bind ?_
      rintro o L₂ _ _ le₂ ⟨rfl, rfl, ho⟩
      obtain ⟨stored, there, -⟩ := (sees₁.stays le₂).var found
      exact runs_some (runs_load stored there ho name)

theorem assign_certified {name : String} {ty : Ty} {indices : List Converted} {value : Converted}
    (ihs : ∀ c ∈ indices, ExprCertified c.value) (ih : ExprCertified value.value) :
    ExprCertified (.assign name ty indices value) := by
  intro S L b sc sees ok
  cases ok with
  | assign bound deep integers inside fits target assigned =>
      obtain ⟨slot, sizes, found, -⟩ := lookup_var_of_symbol bound
      rw [lowerExpr]
      refine (runs_lowerConverted_of ih sees assigned fits).bind ?_
      rintro v L₁ _ _ le₁ ⟨rfl, rfl, hv⟩
      rw [target] at hv
      refine runs_lookupVar.bind ?_
      rintro ⟨slot', ty', sizes'⟩ L₂ _ _ le₂ ⟨rfl, rfl, found'⟩
      cases found.symm.trans found'
      have sees₂ := (sees.stays le₁).stays le₂
      obtain ⟨-, -, holds⟩ := sees₂.var found
      refine (runs_lowerOffset_of ihs sees₂ inside integers holds none
        holds_none).bind ?_
      rintro o L₃ _ _ le₃ ⟨rfl, rfl, ho⟩
      obtain ⟨stored, there, -⟩ := (sees₂.stays le₃).var found
      have value := (hv.stays le₂).stays le₃
      refine (runs_store stored there ho value).bind ?_
      rintro _ L₄ _ _ le₄ ⟨rfl, rfl, -⟩
      exact .pure ⟨rfl, rfl, fun w hw => by cases hw; exact value.stays le₄⟩

theorem negate_certified {op : Operation} {zero : Literal} {operand : Expr}
    (ih : ExprCertified operand) : ExprCertified (.negate op zero operand) := by
  intro S L b sc sees ok
  cases ok with
  | negate start selected inside =>
      rw [lowerExpr]
      refine (runs_constant zero).bind ?_
      rintro z L₁ _ _ le₁ ⟨rfl, rfl, hz⟩
      rw [Literal.type_of_zero start] at hz
      refine (ih (sees.stays le₁) inside).bind ?_
      rintro v L₂ _ _ le₂ ⟨rfl, rfl, hv⟩
      refine (runs_required hv).bind ?_
      rintro w L₃ _ _ le₃ ⟨rfl, rfl, hw⟩
      exact runs_some (runs_binary (Operation.worksAt_of_operationAt selected)
        ((hz.stays le₂).stays le₃) (hw.stays le₃) "neg")

theorem arith_certified {op : Operation} {left right : Converted}
    (ihl : ExprCertified left.value) (ihr : ExprCertified right.value) :
    ExprCertified (.arith op left right) := by
  intro S L b sc sees ok
  cases ok with
  | arith common same selected fitsLeft fitsRight insideLeft insideRight =>
      rw [lowerExpr]
      refine runs_operands ihl ihr sees insideLeft insideRight fitsLeft fitsRight ?_
      intro v w L' hv hw
      rw [same] at hw
      exact runs_some (runs_binary (Operation.worksAt_of_operationAt selected) hv hw "binop")

theorem compare_certified {test : Predicate} {left right : Converted}
    (ihl : ExprCertified left.value) (ihr : ExprCertified right.value) :
    ExprCertified (.compare test left right) := by
  intro S L b sc sees ok
  cases ok with
  | compare numericLeft numericRight common same selected fitsLeft fitsRight insideLeft
      insideRight =>
      rw [lowerExpr]
      refine runs_operands ihl ihr sees insideLeft insideRight fitsLeft fitsRight ?_
      intro v w L' hv hw
      rw [same] at hw
      exact runs_some (runs_compare (Predicate.worksAt_of_predicateAt selected) hv hw "cmp")

theorem call_certified {callee : String} {result : Ty} {arguments : List Converted}
    (ih : ∀ c ∈ arguments, ExprCertified c.value) :
    ExprCertified (.call callee result arguments) := by
  intro S L b sc sees ok
  cases ok with
  | call bound fits inside =>
      obtain ⟨g, G, found, signature, hG, returns⟩ := lookup_fn_of_symbol sees.known bound
      rw [lowerExpr]
      refine runs_lookupFn.bind ?_
      rintro g' L₁ _ _ le₁ ⟨rfl, rfl, found'⟩
      cases found.symm.trans found'
      refine (runs_lowerArguments_of ih (sees.stays le₁) inside fits).bind ?_
      rintro vs L₂ _ _ le₂ ⟨rfl, rfl, hvs⟩
      exact runs_call hG returns signature hvs callee

theorem exprCertified (e : Expr) : ExprCertified e := by
  induction e using Expr.treeInduction with
  | literal value => exact literal_certified value
  | var name ty indices ih => exact var_certified ih
  | assign name ty indices value ihs ih => exact assign_certified ihs ih
  | negate op zero operand ih => exact negate_certified ih
  | arith op left right ihl ihr => exact arith_certified ihl ihr
  | compare test left right ihl ihr => exact compare_certified ihl ihr
  | call callee result arguments ih => exact call_certified ih

section

variable {S : Setting} {L : Ledger} {b : Nat} {sc : Names} {site : Construct}

theorem runs_lowerValue {e : Expr} (sees : S.Sees L (L.available b) sc)
    (ok : ExprOk (sc.map (symbolOf S.signatures)) e) :
    Runs S (lowerValue site e) L b sc
      (Stays b sc fun v L' => S.Holds L' (L'.available b) v e.ty) :=
  runs_lowerValue_of (exprCertified e) sees ok

theorem runs_lowerConverted {c : Converted} (sees : S.Sees L (L.available b) sc)
    (ok : ExprOk (sc.map (symbolOf S.signatures)) c.value) (fits : c.Fits) :
    Runs S (lowerConverted site c) L b sc
      (Stays b sc fun v L' => S.Holds L' (L'.available b) v c.target) :=
  runs_lowerConverted_of (exprCertified c.value) sees ok fits

end

end ImpLower.Lower
