import ImpLower.Proofs.Lower.Focus

/-!
# Lowering expressions always succeeds

At an open block, a well-annotated expression is lowered by appending its code to the block. Nothing
else of the draft changes.
-/

namespace ImpLower.Lower

open Code Typed

/-- The functions that names stand for are in the draft, with the signatures they are known by. -/
def Known (d : Draft) (sig : Signatures) (sc : Names) : Prop :=
  ∀ name g, sc.lookup name = some (.fn g) →
    ∃ G, d.module.functions[g]? = some G ∧ sig g = some (G.result, G.parameters)

theorem Known.enter {d : Draft} {sig : Signatures} {sc : Names} (h : Known d sig sc) :
    Known d sig sc.enter := by
  intro name g hl
  rw [Scope.lookup_enter] at hl
  exact h name g hl

theorem Known.push {d : Draft} {sig : Signatures} {sc : Names} (h : Known d sig sc)
    (name : String) (slot : Slot) (ty : Ty) (sizes : List Operand) :
    Known d sig (sc.push name (.var slot ty sizes)) := by
  intro other g hl
  by_cases hn : other = name
  · subst hn
    rw [Scope.lookup_push_self] at hl
    cases hl
  · rw [Scope.lookup_push_of_ne _ _ hn] at hl
    exact h other g hl

theorem lookup_var_of_symbol {sig : Signatures} {sc : Names} {name : String} {ty : Ty} {rank : Nat}
    (h : (sc.map (symbolOf sig)).lookup name = some (.var ty rank)) :
    ∃ slot sizes, sc.lookup name = some (.var slot ty sizes) ∧ sizes.length = rank := by
  rw [Scope.lookup_map] at h
  obtain ⟨storage, hs, hv⟩ := Option.map_eq_some_iff.mp h
  cases storage with
  | var slot ty' sizes =>
      simp only [symbolOf, Symbol.var.injEq] at hv
      obtain ⟨rfl, rfl⟩ := hv
      exact ⟨slot, sizes, hs, rfl⟩
  | fn g =>
      rcases hg : sig g with _ | ⟨result, parameters⟩ <;> simp [symbolOf, hg] at hv

theorem lookup_fn_of_symbol {d : Draft} {sig : Signatures} {sc : Names} {name : String}
    {result : Ty} {parameters : List Ty} (known : Known d sig sc)
    (h : (sc.map (symbolOf sig)).lookup name = some (.fn result parameters)) :
    ∃ g G, sc.lookup name = some (.fn g) ∧ sig g = some (result, parameters) ∧
      d.module.functions[g]? = some G ∧ G.result = result := by
  rw [Scope.lookup_map] at h
  obtain ⟨storage, hs, hf⟩ := Option.map_eq_some_iff.mp h
  cases storage with
  | var slot ty sizes => simp [symbolOf] at hf
  | fn g =>
      obtain ⟨G, hG, hg⟩ := known name g hs
      simp only [symbolOf, hg, Symbol.fn.injEq] at hf
      obtain ⟨rfl, rfl⟩ := hf
      exact ⟨g, G, hs, hg, hG, rfl⟩

/-- Wherever it is well annotated, the expression is lowered to its code. -/
def ExprLowers (sig : Signatures) (e : Expr) : Prop :=
  ∀ {s : Spot} {sc : Names}, Known s.draft sig sc → ExprOk (sc.map (symbolOf sig)) e →
    ∃ is v r', Emits s sc (lowerExpr e) is v ⟨r', s.slots⟩ ∧ ExprCode sig sc e s.registers is v r'

section

variable {sig : Signatures} {s : Spot} {sc : Names}

theorem lowerValue_emits {e : Expr} (lowers : ExprLowers sig e) (known : Known s.draft sig sc)
    (ok : ExprOk (sc.map (symbolOf sig)) e) (valued : e.ty ≠ .void) (site : Construct) :
    ∃ is v r', Emits s sc (lowerValue site e) is v ⟨r', s.slots⟩ ∧
      ExprCode sig sc e s.registers is (some v) r' := by
  obtain ⟨is, v, r', run, code⟩ := lowers known ok
  cases v with
  | none => exact absurd code.ty_eq_void valued
  | some v => exact ⟨is, v, r', run.before rfl, code⟩

theorem lowerConverted_emits {c : Converted} (lowers : ExprLowers sig c.value)
    (known : Known s.draft sig sc) (ok : ExprOk (sc.map (symbolOf sig)) c.value) (fits : c.Fits)
    (site : Construct) :
    ∃ is v r', Emits s sc (lowerConverted site c) is v ⟨r', s.slots⟩ ∧
      ConvertedCode sig sc c s.registers is v r' := by
  rcases c with ⟨e, conversion, target⟩
  obtain ⟨is, v, r', run, code⟩ := lowerValue_emits lowers known ok fits.1 site
  have unfolds : (lowerConverted site (.mk e conversion target) :
      Lower Draft Operand Slot Nat Operand) = (do
        let v ← lowerValue site e
        if conversion = .identity then return v
        request site (.convert conversion v target "conv")) := by
    simp only [lowerConverted, lowerValue, bind_assoc]
  rw [unfolds]
  by_cases hc : conversion = .identity
  · simp only [if_pos hc]
    exact ⟨is, v, r', run.before rfl, .kept fits hc code⟩
  · simp only [if_neg hc]
    exact ⟨_, _, _, run.bind (emits_convert conversion v target "conv"), .moved fits hc code⟩

theorem lowerArguments_emits {cs : List Converted} (lowers : ∀ c ∈ cs, ExprLowers sig c.value)
    (known : Known s.draft sig sc) (ok : ∀ c ∈ cs, ExprOk (sc.map (symbolOf sig)) c.value)
    (fits : ∀ c ∈ cs, c.Fits) (site : Construct) :
    ∃ is vs r', Emits s sc (lowerArguments site cs) is vs ⟨r', s.slots⟩ ∧
      ArgumentsCode sig sc cs s.registers is vs r' := by
  induction cs generalizing s with
  | nil => exact ⟨[], [], s.registers, .pure, .nil⟩
  | cons c rest ih =>
      obtain ⟨lower, lowers⟩ := List.forall_mem_cons.mp lowers
      obtain ⟨ok₀, ok⟩ := List.forall_mem_cons.mp ok
      obtain ⟨fit, fits⟩ := List.forall_mem_cons.mp fits
      obtain ⟨is, v, r₁, run, code⟩ := lowerConverted_emits lower known ok₀ fit site
      obtain ⟨js, vs, r', runs, codes⟩ := ih (s := s.emit is ⟨r₁, s.slots⟩) lowers known ok fits
      refine ⟨is ++ js, v :: vs, r', ?_, .cons code codes⟩
      rw [lowerArguments]
      exact run.bind (runs.before rfl)

theorem scaleBy_emits (site : Construct) (sc : Names) (o : Operand) (sizes : List Operand) :
    ∃ is o' r', Emits s sc (scaleBy site o sizes) is o' ⟨r', s.slots⟩ ∧
      ScaleCode o sizes s.registers is o' r' := by
  induction sizes generalizing s o with
  | nil => exact ⟨[], o, s.registers, .pure, .nil⟩
  | cons n ns ih =>
      obtain ⟨is, o', r', runs, code⟩ :=
        ih (s := s.emit [.binary s.registers (.int .mul) o n] ⟨s.registers + 1, s.slots⟩)
          (.register s.registers)
      refine ⟨_, o', r', ?_, .cons code⟩
      rw [scaleBy]
      exact (emits_binary _ o n _).bind runs

theorem addIndex_emits (site : Construct) (sc : Names) (n i : Operand) (before : Option Operand) :
    ∃ is o r', Emits s sc (addIndex site n i before) is o ⟨r', s.slots⟩ ∧
      IndexCode n i before s.registers is o r' := by
  cases before with
  | none => exact ⟨[], i, s.registers, .pure, .first⟩
  | some o =>
      refine ⟨_, _, _, ?_, .next⟩
      rw [addIndex]
      exact (emits_binary _ o n _).bind (emits_binary _ _ i _)

theorem lowerOffset_emits {cs : List Converted} (lowers : ∀ c ∈ cs, ExprLowers sig c.value)
    (known : Known s.draft sig sc) (ok : ∀ c ∈ cs, ExprOk (sc.map (symbolOf sig)) c.value)
    (integers : ∀ c ∈ cs, c.IsIndex) {sizes : List Operand} (deep : cs.length ≤ sizes.length)
    (before : Option Operand) (site : Construct) :
    ∃ is after r', Emits s sc (lowerOffset site cs sizes before) is after ⟨r', s.slots⟩ ∧
      OffsetCode sig sc cs sizes before s.registers is after r' := by
  induction cs generalizing s sizes before with
  | nil =>
      cases before with
      | none => exact ⟨[], none, s.registers, .pure, .whole⟩
      | some o =>
          obtain ⟨is, o', r', run, code⟩ := scaleBy_emits site sc o sizes
          refine ⟨is, some o', r', ?_, .scaled code⟩
          rw [lowerOffset]
          exact run.before rfl
  | cons c rest ih =>
      cases sizes with
      | nil => simp at deep
      | cons n sizes =>
          obtain ⟨lower, lowers⟩ := List.forall_mem_cons.mp lowers
          obtain ⟨ok₀, ok⟩ := List.forall_mem_cons.mp ok
          obtain ⟨integer, integers⟩ := List.forall_mem_cons.mp integers
          obtain ⟨is, v, r₁, run, code⟩ := lowerConverted_emits lower known ok₀ integer.1 site
          obtain ⟨js, o, r₂, run₁, step⟩ :=
            addIndex_emits (s := s.emit is ⟨r₁, s.slots⟩) site sc n v before
          obtain ⟨ks, after, r', run₂, codes⟩ :=
            ih (s := (s.emit is ⟨r₁, s.slots⟩).emit js ⟨r₂, s.slots⟩) lowers known ok integers
              (Nat.le_of_succ_le_succ deep) (some o)
          refine ⟨is ++ js ++ ks, after, r', ?_, .cons integer code step codes⟩
          rw [lowerOffset, List.append_assoc]
          exact run.bind (run₁.bind run₂)

theorem literal_lowers (value : Literal) : ExprLowers sig (.literal value) := by
  intro s sc known ok
  refine ⟨[], some (.constant value), s.registers, ?_, .literal⟩
  rw [lowerExpr]
  exact .after (exec_constant value) .pure

theorem var_lowers {name : String} {ty : Ty} {indices : List Converted}
    (ih : ∀ c ∈ indices, ExprLowers sig c.value) : ExprLowers sig (.var name ty indices) := by
  intro s sc known ok
  cases ok with
  | var bound deep integers inside =>
      obtain ⟨slot, sizes, found, rank⟩ := lookup_var_of_symbol bound
      obtain ⟨is, o, r', run, code⟩ :=
        lowerOffset_emits ih known inside integers (rank ▸ deep) none .varUse
      refine ⟨_, _, _, ?_, .var found code⟩
      rw [lowerExpr]
      exact .after (exec_lookupVar found) (run.bind ((emits_load slot ty o name).before rfl))

theorem assign_lowers {name : String} {ty : Ty} {indices : List Converted} {value : Converted}
    (ihs : ∀ c ∈ indices, ExprLowers sig c.value) (ih : ExprLowers sig value.value) :
    ExprLowers sig (.assign name ty indices value) := by
  intro s sc known ok
  cases ok with
  | assign bound deep integers inside fits target assigned =>
      obtain ⟨slot, sizes, found, rank⟩ := lookup_var_of_symbol bound
      obtain ⟨is, v, r₁, run, code⟩ := lowerConverted_emits ih known assigned fits .assignment
      obtain ⟨js, o, r', run₁, offset⟩ :=
        lowerOffset_emits (s := s.emit is ⟨r₁, s.slots⟩) ihs known inside integers
          (rank ▸ deep) none .assignment
      refine ⟨_, _, _, ?_, .assign code target found offset⟩
      rw [lowerExpr, List.append_assoc]
      exact run.bind (.after (exec_lookupVar found)
        (run₁.bind ((emits_store slot ty o v).before rfl)))

theorem negate_lowers {op : Operation} {zero : Literal} {operand : Expr}
    (ih : ExprLowers sig operand) : ExprLowers sig (.negate op zero operand) := by
  intro s sc known ok
  cases ok with
  | negate start selected inside =>
      have valued : operand.ty ≠ .void := by
        intro void
        simp [void, Literal.zero] at start
      obtain ⟨is, v, r', run, code⟩ := lowerValue_emits ih known inside valued .unary
      refine ⟨_, _, _, ?_, .negate start selected code⟩
      have unfolds : (lowerExpr (.negate op zero operand) :
          Lower Draft Operand Slot Nat (Option Operand)) = (do
            let zero ← request .unary (.constant zero)
            let v ← lowerValue .unary operand
            let result ← request .unary (.binary op zero v "neg")
            return some result) := by
        simp only [lowerExpr, lowerValue, bind_assoc]
      rw [unfolds]
      exact .after (exec_constant zero)
        (run.bind ((emits_binary op (.constant zero) v "neg").before rfl))

theorem arith_lowers {op : Operation} {left right : Converted}
    (ihl : ExprLowers sig left.value) (ihr : ExprLowers sig right.value) :
    ExprLowers sig (.arith op left right) := by
  intro s sc known ok
  cases ok with
  | arith common same selected fitsLeft fitsRight insideLeft insideRight =>
      obtain ⟨is, v, r₁, run, code⟩ :=
        lowerConverted_emits ihl known insideLeft fitsLeft .binary
      obtain ⟨js, w, r', run₁, code₁⟩ :=
        lowerConverted_emits (s := s.emit is ⟨r₁, s.slots⟩) ihr known insideRight fitsRight
          .binary
      refine ⟨_, _, _, ?_, .arith same selected code code₁⟩
      rw [lowerExpr, List.append_assoc]
      exact run.bind (run₁.bind ((emits_binary op v w "binop").before rfl))

theorem compare_lowers {test : Predicate} {left right : Converted}
    (ihl : ExprLowers sig left.value) (ihr : ExprLowers sig right.value) :
    ExprLowers sig (.compare test left right) := by
  intro s sc known ok
  cases ok with
  | compare numericLeft numericRight common same selected fitsLeft fitsRight insideLeft
      insideRight =>
      obtain ⟨is, v, r₁, run, code⟩ :=
        lowerConverted_emits ihl known insideLeft fitsLeft .binary
      obtain ⟨js, w, r', run₁, code₁⟩ :=
        lowerConverted_emits (s := s.emit is ⟨r₁, s.slots⟩) ihr known insideRight fitsRight
          .binary
      refine ⟨_, _, _, ?_, .compare same selected code code₁⟩
      rw [lowerExpr, List.append_assoc]
      exact run.bind (run₁.bind ((emits_compare test v w "cmp").before rfl))

theorem call_lowers {callee : String} {result : Ty} {arguments : List Converted}
    (ih : ∀ c ∈ arguments, ExprLowers sig c.value) :
    ExprLowers sig (.call callee result arguments) := by
  intro s sc known ok
  cases ok with
  | call bound fits inside =>
      obtain ⟨g, G, found, signature, hosted, returns⟩ := lookup_fn_of_symbol known bound
      obtain ⟨is, vs, r', run, code⟩ := lowerArguments_emits ih known inside fits .call
      by_cases void : result = .void
      · subst void
        refine ⟨_, _, _, ?_, .callVoid found signature code⟩
        rw [lowerExpr]
        exact .after (exec_lookupFn found)
          (run.bind (emits_callVoid (s := s.emit is ⟨r', s.slots⟩) hosted returns vs callee))
      · refine ⟨_, _, _, ?_, .call found signature void code⟩
        rw [lowerExpr]
        have valued : G.result ≠ .void := returns ▸ void
        exact .after (exec_lookupFn found)
          (run.bind (emits_call (s := s.emit is ⟨r', s.slots⟩) hosted valued vs callee))

end

theorem exprLowers (sig : Signatures) (e : Expr) : ExprLowers sig e := by
  induction e using Expr.treeInduction with
  | literal value => exact literal_lowers value
  | var name ty indices ih => exact var_lowers ih
  | assign name ty indices value ihs ih => exact assign_lowers ihs ih
  | negate op zero operand ih => exact negate_lowers ih
  | arith op left right ihl ihr => exact arith_lowers ihl ihr
  | compare test left right ihl ihr => exact compare_lowers ihl ihr
  | call callee result arguments ih => exact call_lowers ih

end ImpLower.Lower
