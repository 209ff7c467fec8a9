import ImpLower.Proofs.Lower.Decl
import ImpLower.Proofs.Lower.Endings
import ImpLower.Proofs.Lower.Pruning
import ImpLower.Proofs.Typing.Acceptance

/-!
# Return paths

Whether a block of statements always returns is decided before lowering, and lowering agrees: the block
it ends in is closed just if the statements always return. So a function with a result never runs off
its end, and what is closed as unreachable has no way in.
-/

namespace ImpLower

namespace Lower

open Code Typed Stateful

/-! ## Functions -/

variable {d : Draft} {f : Nat} {s : Shape} {b : Nat}

theorem ensures_parameters :
    Ensures d f (parameters f) s b (Stands s b fun _ => True) := by
  intro F sc a t hosts shape run
  cases run
  exact ⟨F, b, sc, rfl, hosts, shape.symm, rfl, trivial⟩

theorem ensures_lowerParameters (decls : List VarDecl) (values : List Operand) :
    Ensures d f (lowerParameters decls values) s b (Stands s b fun _ => True) := by
  induction decls generalizing values with
  | nil =>
      unfold lowerParameters
      exact .pure ⟨rfl, rfl, trivial⟩
  | cons decl decls ih =>
      cases values with
      | nil =>
          unfold lowerParameters
          exact .pure ⟨rfl, rfl, trivial⟩
      | cons value values =>
          rw [lowerParameters]
          refine (ensures_straight (.asks _ _ rfl)).bind ?_
          rintro slot _ _ ⟨rfl, rfl, -⟩
          refine (ensures_straight (.asks _ _ rfl)).bind ?_
          rintro _ _ _ ⟨rfl, rfl, -⟩
          refine ensures_declare.bind ?_
          rintro _ _ _ ⟨rfl, rfl, -⟩
          exact ih values

/-- The end of a function is closed by a return, unless it is closed already. -/
theorem ensures_closeFunction {o : Option Terminator} (here : s[b]? = some o) {result : Ty}
    (returns : result ≠ .void → o.isSome = true) :
    Ensures d f (closeFunction result) s b fun _ s' _ => s.Clean → s'.Clean := by
  rw [closeFunction]
  refine (ensures_isClosed here).bind ?_
  rintro _ _ _ ⟨rfl, rfl, rfl⟩
  cases closed : o.isSome with
  | true => exact .pure id
  | false =>
      have void : result = .void := by
        by_contra valued
        rw [returns valued] at closed
        cases closed
      rw [void]
      refine (ensures_ret none).imp ?_
      rintro _ _ _ ⟨-, rfl, rfl⟩
      exact fun clean => clean.close nofun (by simp [Terminator.successors])

/-- Nothing leads to the unreachable blocks of a function. -/
theorem each_clean (ds : List Decl) : EachFunction ds fun F => F.shape.Clean := by
  intro done rest d sc f t h split ok run
  have start : ((bareFunction f).grow "entry").shape = [none] := rfl
  have clean : Shape.Clean [none] := Shape.Clean.nil.grow
  have whole : Ensures (withFunction d (bareFunction f) d.cursor) d.module.functions.size
      (withFrame do
        lowerParameters f.parameters (← parameters d.module.functions.size)
        lowerBlock f.body
        closeFunction f.result : Lower Draft Operand Slot Nat Unit) [none] 0
      fun _ s' _ => s'.Clean := by
    refine Ensures.withFrame ?_
    refine ensures_parameters.bind ?_
    rintro values _ _ ⟨rfl, rfl, -⟩
    refine (ensures_lowerParameters f.parameters values).bind ?_
    rintro _ _ _ ⟨rfl, rfl, -⟩
    refine (blockPasses f.body (s := [none]) (b := 0) rfl).bind fun _ s₁ b₁ passed => ?_
    obtain ⟨o, here, ends⟩ := passed.ends
    refine (ensures_closeFunction here fun valued => ends.trans (ok.returns valued)).imp ?_
    exact fun _ _ _ closes => closes (passed.clean clean)
  obtain ⟨F, b, sc', rfl, -, after⟩ := whole _ _ _ t (hosts_withFunction d f d.cursor) start run
  exact ⟨F, b, rfl, after⟩

theorem closeFunction_of_closed {x : Lowering Draft Operand Slot Nat}
    (closed : x.emitter.isClosed = true) (result : Ty) :
    (closeFunction result).exec x = (.ok (), x) := by
  rw [closeFunction, exec_bind_of_ok (exec_isClosed_of_closed closed)]
  rfl

/-- From an open block, lowering ends in a closed one just if the statements always return. -/
theorem isClosed_lowerBlock {body : List Stmt} {x t : Lowering Draft Operand Slot Nat}
    {place : BlockId} {F : Function} (points : x.emitter.PointsInto place F)
    (inside : x.function = some place.function) (run : (lowerBlock body).exec x = (.ok (), t)) :
    t.emitter.isClosed = mustReturn body := by
  have here : x = atEnd x.emitter place.function F place.block x.scope := by
    rw [atEnd, points.focus_eq, ← inside]
  rw [here] at run
  obtain ⟨G, b, sc, rfl, hosts, passed⟩ := blockPasses body (Function.isOpen_shape.mpr points.isOpen)
    F x.scope () t points.hosts rfl run
  obtain ⟨o, ends, returns⟩ := passed.ends
  rw [Function.getElem?_shape, Option.map_eq_some_iff] at ends
  obtain ⟨B, hB, rfl⟩ := ends
  rw [← returns]
  exact Draft.isClosed_focus hosts hB

end Lower

namespace Program

open Code Typed Typing Lower

theorem returns_of_declsOk {Γ : Scope Symbol} {ds : List Decl} (ok : DeclsOk Γ ds) :
    ∀ f, Decl.function f ∈ ds → f.result ≠ .void → mustReturn f.body = true := by
  induction ok with
  | nil => exact fun f hf => nomatch hf
  | global ok tail ih =>
      intro f hf
      rcases List.mem_cons.mp hf with new | later
      · cases new
      · exact ih f later
  | function ok tail ih =>
      intro f hf
      rcases List.mem_cons.mp hf with new | later
      · cases new
        exact ok.returns
      · exact ih f later

/-- The analysis of return paths agrees with lowering. From an open block, statements are lowered into
a closed one just if they always return, and what follows an always-returning statement makes no
difference. So nothing is added at the end of a function with a result, and in the module of a checked
program no path leads to a block that is closed as unreachable. -/
theorem return_analysis_agrees_with_lowering {decls : List Source.Decl} {ds : List Decl}
    (checked : checkProgram decls = .ok ds) :
    (∀ (body : List Stmt) (x t : Lowering Draft Operand Slot Nat) (place : BlockId) (F : Function),
      x.emitter.PointsInto place F → x.function = some place.function →
      (lowerBlock body).exec x = (.ok (), t) → t.emitter.isClosed = mustReturn body) ∧
    (∀ body : List Stmt,
      (lowerBlock (prune body) : Lower Draft Operand Slot Nat Unit) = lowerBlock body) ∧
    (∀ d : Draft, generate (ds.map Decl.prune) d = generate ds d) ∧
    (∀ f, .function f ∈ ds → f.result ≠ .void → ∀ x t : Lowering Draft Operand Slot Nat,
      (lowerBlock f.body).exec x = (.ok (), t) → (closeFunction f.result).exec t = (.ok (), t)) ∧
    ∀ name, ∃ m, (generate ds (Draft.new name)).1 = .ok m ∧
      ∀ F ∈ m.functions.toList, ∀ (i : Nat) (B : Block), F.blocks[i]? = some B →
        B.terminator = some .unreachable →
        i ≠ 0 ∧ ∀ C ∈ F.blocks.toList, ∀ u, C.terminator = some u → i ∉ u.successors := by
  obtain ⟨-, ok, -⟩ := checksDecls_annotated storable_empty rfl (checkProgram_eq_ok.mp checked)
  refine ⟨fun body x t place F points inside run => isClosed_lowerBlock points inside run,
    lowerBlock_prune, generate_prune ds, fun f member valued x t run => ?_, fun name => ?_⟩
  · have returns := returns_of_declsOk ok f member valued
    exact closeFunction_of_closed (closing_lowerBlock returns x t run) f.result
  · obtain ⟨m, d, generated, -⟩ := generate_eq_ok ok name
    have produced : (generate ds (Draft.new name)).1 = .ok m := congrArg Prod.fst generated
    refine ⟨m, produced, fun F hF i B hB dead => ?_⟩
    have clean := generate_functions ok (each_clean ds) produced F hF
    have gone : F.shape.Dead i := by
      rw [Shape.Dead, Function.getElem?_shape, hB]
      exact congrArg some dead
    obtain ⟨start, unreached⟩ := clean.dead gone
    refine ⟨start, fun C hC u closed target => ?_⟩
    obtain ⟨j, hj⟩ := List.getElem?_of_mem hC
    refine unreached j ⟨u, ?_, target⟩
    rw [Function.getElem?_shape, ← Array.getElem?_toList, hj]
    exact congrArg some closed

/-- Both arms return, and one of them goes on behind its return. -/
def signProgram : List Source.Decl :=
  [.function
    { result := .int
      name := "sign"
      parameters := [{ ty := .int, name := "n" }]
      body :=
        [.ifElse (.binary (.relation .gt) (.var "n" []) (.literal (.int 0)))
          [.ret (some (.literal (.int 1))), .ret (some (.literal (.int 2)))]
          [.ret (some (.literal (.int 0)))]] }]

/-- The checked program, with the second return and without. -/
def signTyped (behind : List Stmt) : List Decl :=
  let value (n : Int32) : Stmt := .ret (some (.mk (.literal (.int n)) .identity .int))
  [.function
    { name := "sign"
      result := .int
      parameters := [⟨"n", .int, [], none⟩]
      body :=
        [.ifElse (.compare (.int .gt) (.mk (.var "n" .int []) .identity .int)
            (.mk (.literal (.int 0)) .identity .int))
          (value 1 :: behind) [value 0]] }]

/-- The end of the conditional is closed as unreachable, and nothing leads there. -/
theorem sign_end_unreached :
    let returnTwo : Stmt := .ret (some (.mk (.literal (.int 2)) .identity .int))
    (∀ d : Draft, generate (signTyped []) d = generate (signTyped [returnTwo]) d) ∧
    ∃ m, (generate (signTyped [returnTwo]) (Draft.new "main")).1 = .ok m ∧
      ∀ F ∈ m.functions.toList, ∃ B, F.blocks[3]? = some B ∧ B.terminator = some .unreachable ∧
        ∀ C ∈ F.blocks.toList, ∀ u, C.terminator = some u → 3 ∉ u.successors := by
  intro returnTwo
  obtain ⟨-, -, pruned, -, compiled⟩ :=
    @return_analysis_agrees_with_lowering signProgram (signTyped [returnTwo]) rfl
  obtain ⟨m, generated, unreached⟩ := compiled "main"
  refine ⟨pruned, m, generated, fun F hF => ?_⟩
  have ends : ((generate (signTyped [returnTwo]) (Draft.new "main")).1.toOption.map fun m : Module =>
      m.functions.toList.all fun F =>
        decide (F.blocks[3]?.bind Block.terminator = some .unreachable)) = some true := by
    decide +kernel
  rw [generated] at ends
  have last := of_decide_eq_true (List.all_eq_true.mp (Option.some.inj ends) F hF)
  obtain ⟨B, hB, dead⟩ := Option.bind_eq_some_iff.mp last
  exact ⟨B, hB, dead, (unreached F hF 3 B hB dead).2⟩

end Program

end ImpLower
