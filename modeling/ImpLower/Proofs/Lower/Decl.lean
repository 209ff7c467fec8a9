import ImpLower.Proofs.Lower.Stmt

/-!
# Lowering declarations always succeeds

Globals and functions are added to the draft in the order of their declaration. The names a function
is lowered under are those of the declarations up to it, itself included.
-/

namespace ImpLower.Lower

open Code Typed Stateful

/-! ## Functions -/

theorem lowerParameters_emits {sig : Signatures} {decls : List VarDecl} {s : Spot} {sc : Names}
    {Γ : Scope Symbol} (known : Known s.draft sig sc)
    (ok : ParametersOk (sc.map (symbolOf sig)) decls Γ) :
    ∃ is new, EmitsInto s sc
        (lowerParameters decls ((List.range' s.slots decls.length).map Operand.parameter)) is ()
        ⟨s.registers, s.slots + decls.length⟩ (sc.gain new) ∧
      ParametersCode sc decls s.slots is (sc.gain new) ∧
      (sc.gain new).map (symbolOf sig) = Γ ∧ Known s.draft sig (sc.gain new) := by
  induction decls generalizing s sc with
  | nil =>
      cases ok
      refine ⟨[], [], ?_⟩
      rw [Scope.gain_nil]
      refine ⟨?_, .nil, rfl, known⟩
      rw [lowerParameters.eq_def]
      exact .pure
  | cons v rest ih =>
      cases ok with
      | cons ok scalar plain tail =>
          have fresh : sc.declaresInCurrent v.name = false := by
            rw [← Scope.declaresInCurrent_map (symbolOf sig)]
            exact ok.fresh
          have names : (bindStack sc v s.slots []).map (symbolOf sig) = bindVar (sc.map _) v :=
            map_bindStack (by simp [scalar])
          let s₁ := s.emit [.alloca s.slots v.ty none v.name] ⟨s.registers, s.slots + 1⟩
          let s₂ := s₁.emit [.store (.stack s.slots) v.ty none (.parameter s.slots)]
            ⟨s.registers, s.slots + 1⟩
          have known₁ : Known s₂.draft sig (bindStack sc v s.slots []) := known.push _ _ _ _
          obtain ⟨is, new, run, code, bound, known'⟩ := ih (s := s₂) known₁ (names ▸ tail)
          have gained : (bindStack sc v s.slots []).gain new =
              sc.gain (new ++ [(v.name, .var (.stack s.slots) v.ty [])]) := by
            rw [bindStack, Scope.push_eq_gain, Scope.gain_gain]
          rw [gained] at run code bound known'
          refine ⟨_, _, ?_, .cons ok.storable code, bound, known'⟩
          rw [List.length_cons, List.range'_succ, List.map_cons, lowerParameters]
          have sum : s.slots + (rest.length + 1) = s₂.slots + rest.length := by
            show _ = s.slots + 1 + rest.length
            omega
          rw [sum]
          exact (emits_alloca v.ty none v.name).bind <|
            (emits_store (s := s₁) (.stack s.slots) v.ty none (.parameter s.slots)).bind <|
            .after (exec_declare fresh) run

theorem exec_inFunction {α : Type} {f : Nat} {body : Lower Draft Operand Slot Nat α}
    {s t : Lowering Draft Operand Slot Nat} {a : α}
    (h : body.exec { s with function := some f } = (.ok a, t)) :
    (inFunction f body).exec s = (.ok a, { t with function := s.function }) := by
  simp [inFunction, h]

theorem inFunction_eq_ok {α : Type} {f : Nat} {body : Lower Draft Operand Slot Nat α}
    {s t : Lowering Draft Operand Slot Nat} {a : α} (h : (inFunction f body).exec s = (.ok a, t)) :
    ∃ u, body.exec { s with function := some f } = (.ok a, u) ∧
      t = { u with function := s.function } := by
  simp only [inFunction, Stateful.exec_ofFn, Prod.mk.injEq] at h
  exact ⟨_, Prod.ext h.1 rfl, h.2.symm⟩

theorem exec_parameters (s : Spot) (sc : Names) :
    (parameters s.index : Lower Draft Operand Slot Nat (List Operand)).exec (s.state sc) =
      (.ok ((List.range' 0 s.function.parameters.length).map Operand.parameter), s.state sc) := by
  simp [parameters, Emitter.parameters, Draft.parameters, Spot.state, atEnd, Draft.focus,
    s.hosts.lt, List.range_eq_range']

/-- The end of a function: what comes out of its body returns there. -/
theorem closeFunction_lowers {d : Draft} {f : Nat} {F : Function} {b : Nat} {exit : Option Place}
    (hosts : d.Hosts f F) (lands : Lands [] F b exit) {result : Ty}
    (void : exit ≠ none → result = .void) (sc : Names) :
    ∃ G, (closeFunction result).exec (atEnd d f F b sc) = (.ok (), atEnd d f G b sc) ∧
      G.Tidy [] ∧ F.Grows [] G ∧ G.counters = F.counters ∧
      ∀ p, exit = some p → EndsAt G p (.ret none) := by
  have closed := lands.exec_isClosed hosts sc
  cases lands with
  | done tidy fresh lt =>
      refine ⟨F, (exec_bind_of_ok closed).trans rfl, tidy, .refl _ _, rfl, ?_⟩
      intro p out
      cases out
  | @onward p tidy fresh here =>
      have left : F.Leaves [] b [] F.counters [] (.ret none) (F.fork [] b (.ret none)) :=
        Function.leaves_bare tidy fresh [] (by simp [Terminator.successors])
      let s : Spot := ⟨d, f, F, b, hosts, tidy.isOpen b List.mem_cons_self⟩
      refine ⟨F.fork [] b (.ret none), (exec_bind_of_ok closed).trans ?_, left.tidy, left.grows,
        left.counters, ?_⟩
      · rw [void (by simp)]
        exact exec_ret (s := s) none
      · intro q out
        cases out
        exact here ▸ left.ends

/-- The body of a function, from its empty entry block. -/
theorem body_lowers {sig : Signatures} {fd : FnDecl} {s : Spot} {sc : Names} {Γ₁ Γ₂ : Scope Symbol}
    (known : Known s.draft sig sc)
    (parameters : ParametersOk (sc.map (symbolOf sig)).enter fd.parameters Γ₁)
    (ok : BlockOk fd.result Γ₁ fd.body Γ₂)
    (returns : fd.result ≠ .void → mustReturn fd.body = true)
    (tidy : s.function.Tidy [s.block]) (start : s.function.endOf s.block = ⟨0, 0⟩)
    (none_yet : s.function.counters = ⟨0, 0⟩)
    (arity : s.function.parameters.length = fd.parameters.length) :
    ∃ F b, (withFrame (do
        lowerParameters fd.parameters (← Lower.parameters s.index)
        lowerBlock fd.body
        closeFunction fd.result) : Lower Draft Operand Slot Nat Unit).exec (s.state sc) =
          (.ok (), atEnd s.draft s.index F b sc) ∧
      F.Tidy [] ∧ s.function.Grows [] F ∧
      ∃ is sc₁ exit, ParametersCode sc.enter fd.parameters 0 is sc₁ ∧ HostedAt F ⟨0, 0⟩ is ∧
        BlockCode sig F fd.result sc₁ fd.body ⟨0, is.length⟩ ⟨0, fd.parameters.length⟩ exit
          ⟨F.registers, F.slots⟩ ∧
        ∀ p, exit = some p → fd.result = .void ∧ EndsAt F p (.ret none) := by
  have counters : s.registers = 0 ∧ s.slots = 0 := Counters.mk.inj none_yet
  have entered : Known s.draft sig sc.enter := known.enter
  obtain ⟨is, new, run, code, names, known₁⟩ :=
    lowerParameters_emits (s := s) entered (by simpa using parameters)
  rw [counters.1, counters.2, Nat.zero_add] at run
  rw [counters.2] at code
  let s₁ := s.emit is ⟨0, fd.parameters.length⟩
  have tidy₁ : s₁.function.Tidy [s.block] := tidy.emit s.isOpen is _
  obtain ⟨F, b, more, exit, runs, lands, grows, codes⟩ :=
    blockLowers sig fd.result fd.body (s := s₁) known₁ (names ▸ ok) tidy₁ List.not_mem_nil
  have void : exit ≠ none → fd.result = .void := by
    intro out
    by_contra valued
    exact out ((codes F (.refl _ _)).exit_eq_none (returns valued))
  obtain ⟨G, close, tidy', closes, same, ends⟩ :=
    closeFunction_lowers (s₁.hosts.grows grows) lands void ((sc.enter.gain new).gain more)
  have place : s₁.function.endOf s₁.block = ⟨0, is.length⟩ :=
    (Function.endOf_emit s.isOpen is _).trans (by rw [start, Place.skip_start])
  have hosted : HostedAt s₁.function ⟨0, 0⟩ is := start ▸ Function.hostedAt_emit s.isOpen is _
  refine ⟨G, b, ?_, tidy', ?_, is, _, exit, code, hosted.mono (grows.trans closes), ?_, ?_⟩
  · have gained : (sc.enter.gain new).gain more = sc.enter.gain (more ++ new) :=
      Scope.gain_gain _ _ _
    rw [gained] at close runs
    have operands := exec_parameters s sc.enter
    rw [arity] at operands
    exact withFrame_atEnd (exec_seq operands <| exec_seq run <| exec_seq runs close)
  · exact (Function.Grows.emit s.isOpen List.not_mem_nil is _).trans (grows.trans closes)
  · have total := codes G closes
    rw [place, ← same] at total
    exact total
  · exact fun p out => ⟨void (by simp [out]), ends p out⟩

def withFunction (d : Draft) (F : Function) (cursor : Option BlockId) : Draft where
  module := { d.module with functions := d.module.functions.push F }
  cursor := cursor

theorem setIfInBounds_push_size {α : Type} (xs : Array α) (a b : α) :
    (xs.push a).setIfInBounds xs.size b = xs.push b := by
  apply Array.ext_getElem?
  intro i
  by_cases hi : xs.size = i
  · subst hi
    simp
  · have hi' : i ≠ xs.size := fun h => hi h.symm
    rw [Array.getElem?_setIfInBounds_ne hi, Array.getElem?_push, Array.getElem?_push, if_neg hi',
      if_neg hi']

theorem focus_withFunction (d : Draft) (F₀ F : Function) (cursor : Option BlockId) (b : Nat) :
    (withFunction d F₀ cursor).focus d.module.functions.size F b =
      withFunction d F (some ⟨d.module.functions.size, b⟩) := by
  simp [Draft.focus, withFunction, setIfInBounds_push_size]

def bareFunction (fd : FnDecl) : Function where
  name := fd.name
  result := fd.result
  parameters := fd.parameters.map VarDecl.ty

theorem hosts_withFunction (d : Draft) (fd : FnDecl) (cursor : Option BlockId) :
    (withFunction d (bareFunction fd) cursor).Hosts d.module.functions.size
      ((bareFunction fd).grow "entry") :=
  ⟨bareFunction fd, by simp [withFunction], rfl, rfl, rfl⟩

/-- A function is known from its own body on. -/
theorem Known.function {sig : Signatures} {d : Draft} {sc : Names} {fd : FnDecl} (known : Known d sig sc)
    (signature : sig d.module.functions.size = some (fd.result, fd.parameters.map VarDecl.ty))
    (cursor : Option BlockId) :
    Known (withFunction d (bareFunction fd) cursor) sig
      (sc.push fd.name (.fn d.module.functions.size)) := by
  intro name h hl
  by_cases hn : name = fd.name
  · subst hn
    rw [Scope.lookup_push_self] at hl
    cases hl
    exact ⟨bareFunction fd, by simp [withFunction], signature⟩
  · rw [Scope.lookup_push_of_ne _ _ hn] at hl
    obtain ⟨G, hG, hs⟩ := known name h hl
    have lt := (Array.getElem?_eq_some_iff.mp hG).1
    refine ⟨G, ?_, hs⟩
    show (d.module.functions.push (bareFunction fd))[h]? = some G
    rw [Array.getElem?_push, if_neg (Nat.ne_of_lt lt)]
    exact hG

/-- Lowering a function adds it to the draft, binds its name and goes on in its empty entry block. -/
theorem exec_lowerFunction {d : Draft} {sc : Names} {fd : FnDecl} (top : sc.inner = [])
    (fresh : sc.declaresInCurrent fd.name = false)
    (new : d.module.functionIndex? fd.name = none) :
    (lowerFunction fd).exec ⟨d, sc, none⟩ =
      (inFunction d.module.functions.size (withFrame do
        lowerParameters fd.parameters (← parameters d.module.functions.size)
        lowerBlock fd.body
        closeFunction fd.result) : Lower Draft Operand Slot Nat Unit).exec
        { atEnd (withFunction d (bareFunction fd) d.cursor) d.module.functions.size
            ((bareFunction fd).grow "entry") 0 (sc.push fd.name (.fn d.module.functions.size)) with
          function := none } := by
  let g := d.module.functions.size
  let F₀ := bareFunction fd
  let d₁ := withFunction d F₀ d.cursor
  let sc₁ := sc.push fd.name (.fn g)
  have added : (request .fnDecl (.addFunction fd.name fd.result (fd.parameters.map VarDecl.ty)) :
      Lower Draft Operand Slot Nat Nat).exec ⟨d, sc, none⟩ = (.ok g, ⟨d₁, sc, none⟩) :=
    exec_request (Draft.addFunction_of_new new _ _)
  have declared : (declareGlobal fd.name (.fn g) .fnDecl : Lower Draft Operand Slot Nat Unit).exec
      ⟨d₁, sc, none⟩ = (.ok (), ⟨d₁, sc₁, none⟩) := by
    have bound : sc.declare fd.name (.fn g) = .ok sc₁ := Scope.declare_eq_ok.mpr ⟨fresh, rfl⟩
    simp [declareGlobal, Scope.declareGlobal_eq_declare top, bound]
  have entry : (addBlock g "entry" : Lower Draft Operand Slot Nat BlockId).exec ⟨d₁, sc₁, none⟩ =
      (.ok ⟨g, 0⟩, ⟨withFunction d (F₀.grow "entry") d.cursor, sc₁, none⟩) := by
    simp [addBlock, Emitter.addBlock, Draft.addBlock, d₁, withFunction, g, F₀, bareFunction,
      Function.grow, Draft.setFunction, setIfInBounds_push_size]
  have inside : ({ atEnd d₁ g (F₀.grow "entry") 0 sc₁ with function := none } :
      Lowering Draft Operand Slot Nat) =
        ⟨withFunction d (F₀.grow "entry") (some ⟨g, 0⟩), sc₁, none⟩ := by
    simp only [atEnd, d₁]
    rw [focus_withFunction]
  rw [lowerFunction, inside]
  exact (exec_bind_of_ok added).trans <| (exec_bind_of_ok declared).trans <|
    (exec_bind_of_ok entry).trans rfl

theorem fresh_of_fnOk {sig : Signatures} {sc : Names} {fd : FnDecl}
    (ok : FnOk (sc.map (symbolOf sig)) fd) : sc.declaresInCurrent fd.name = false := by
  rw [← Scope.declaresInCurrent_map (symbolOf sig)]
  exact ok.fresh

theorem lowerFunction_exec {sig : Signatures} {d : Draft} {sc : Names} {fd : FnDecl}
    (top : sc.inner = []) (known : Known d sig sc) (ok : FnOk (sc.map (symbolOf sig)) fd)
    (new : d.module.functionIndex? fd.name = none)
    (signature : sig d.module.functions.size =
      some (fd.result, fd.parameters.map VarDecl.ty)) :
    ∃ F cursor, (lowerFunction fd).exec ⟨d, sc, none⟩ = (.ok (),
        ⟨withFunction d F cursor, sc.push fd.name (.fn d.module.functions.size), none⟩) ∧
      F.Tidy [] ∧ FnCode sig (sc.push fd.name (.fn d.module.functions.size)) fd F := by
  let g := d.module.functions.size
  let F₁ := (bareFunction fd).grow "entry"
  let d₁ := withFunction d (bareFunction fd) d.cursor
  let sc₁ := sc.push fd.name (.fn g)
  have bare : (bareFunction fd).Tidy [] := ⟨by simp, by simp [bareFunction]⟩
  have tidy : F₁.Tidy [0] := bare.grow "entry"
  have start : F₁.endOf 0 = ⟨0, 0⟩ := by simp [F₁, bareFunction, Function.endOf, Function.grow]
  let s : Spot := ⟨d₁, g, F₁, 0, hosts_withFunction d fd d.cursor, tidy.isOpen 0 List.mem_cons_self⟩
  have names : sc₁.map (symbolOf sig) = bindFn (sc.map (symbolOf sig)) fd := by
    simp [sc₁, bindFn, symbolOf, g, signature]
  obtain ⟨Γ₁, Γ₂, parameters, body⟩ := ok.body
  rw [← names] at parameters
  obtain ⟨F, b, run, tidy', grows, code⟩ := body_lowers (s := s) (known.function signature d.cursor)
    parameters body ok.returns tidy start rfl (List.length_map _)
  refine ⟨F, some ⟨g, b⟩, ?_, tidy', grows.header.1.symm, grows.header.2.1.symm,
    grows.header.2.2.symm, code⟩
  have leaves : (atEnd d₁ g F b sc₁).emitter = withFunction d F (some ⟨g, b⟩) :=
    focus_withFunction _ _ _ _ _
  rw [exec_lowerFunction top (fresh_of_fnOk ok) new, ← leaves]
  exact exec_inFunction run

/-! ## Globals -/

def withGlobal (d : Draft) (g : Code.Global) : Draft :=
  { d with module := { d.module with globals := d.module.globals.push g } }

theorem lowerSizes_exec (sizes : List Nat) (s : Lowering Draft Operand Slot Nat) :
    (lowerSizes sizes : Lower Draft Operand Slot Nat (List Operand)).exec s =
      (.ok (sizeOperands sizes), s) := by
  induction sizes with
  | nil => rfl
  | cons size rest ih =>
      have constant : (request .varDecl (.constant (.long (Int64.ofNat size))) :
          Lower Draft Operand Slot Nat Operand).exec s =
            (.ok (.constant (.long (Int64.ofNat size))), s) := exec_request rfl
      rw [lowerSizes]
      exact exec_seq constant <| exec_seq ih rfl

theorem lowerGlobal_exec {sig : Signatures} {d : Draft} {sc : Names} {g : Typed.Global}
    (ok : GlobalOk (sc.map (symbolOf sig)) g) :
    (lowerGlobal g).exec ⟨d, sc, none⟩ = (.ok (), ⟨withGlobal d (globalOf g),
      sc.push g.name (.var (.global d.module.globals.size) g.ty (sizeOperands g.dimensions)),
      none⟩) := by
  have fresh : sc.declaresInCurrent g.name = false := by
    rw [← Scope.declaresInCurrent_map (symbolOf sig)]
    exact ok.fresh
  have added : (request .varDecl (.global g.ty
      (if g.dimensions.isEmpty then none else some g.length) g.initializer g.name) :
        Lower Draft Operand Slot Nat Slot).exec ⟨d, sc, none⟩ =
          (.ok (.global d.module.globals.size), ⟨withGlobal d (globalOf g), sc, none⟩) :=
    exec_request (Draft.addGlobal_exec d _)
  rw [lowerGlobal]
  refine exec_seq added <| exec_seq (lowerSizes_exec _ _) ?_
  simp [declare, Scope.declare_eq_ok.mpr ⟨fresh, rfl⟩]

/-! ## Programs -/

theorem extends_withFunction (d : Draft) (F : Function) (cursor : Option BlockId) :
    d.module.Extends (withFunction d F cursor).module :=
  ⟨List.prefix_rfl, by simp [withFunction]⟩

theorem extends_withGlobal (d : Draft) (g : Code.Global) :
    d.module.Extends (withGlobal d g).module :=
  ⟨by simp [withGlobal], List.prefix_rfl⟩

/-- The draft after the declarations `done` of a program `ds`. -/
structure Progress (ds done : List Decl) (d : Draft) (sc : Names) : Prop where
  globals : d.module.globals.toList = (globalsOf done).map globalOf
  functions : List.Forall₂
    (fun f F => (∃ sc, Visible ds sc ∧ FnCode (signaturesOf ds) sc f F) ∧ F.Tidy [])
    (functionsOf done) d.module.functions.toList
  visible : Visible done sc
  bound : ∀ F ∈ d.module.functions.toList, (sc.lookup F.name).isSome = true

namespace Progress

variable {ds done rest : List Decl} {d : Draft} {sc : Names}

theorem size_functions (h : Progress ds done d sc) :
    d.module.functions.size = (functionsOf done).length := by
  rw [h.functions.length_eq, Array.length_toList]

theorem size_globals (h : Progress ds done d sc) :
    d.module.globals.size = (globalsOf done).length := by
  have := congrArg List.length h.globals
  simpa using this

theorem known (h : Progress ds done d sc) (split : ds = done ++ rest) :
    Known d (signaturesOf ds) sc := by
  intro name g hl
  obtain ⟨f, found, -⟩ := h.visible.fn hl
  have lt := (List.getElem?_eq_some_iff.mp found).1
  obtain ⟨F, hF, ⟨sc', -, code⟩, -⟩ := forall₂_getElem? h.functions found
  refine ⟨F, by simpa using hF, ?_⟩
  rw [signaturesOf, split, functionsOf_append, List.getElem?_append_left lt, found, code.result,
    code.parameters]
  rfl

/-- The next function has the position after the last one. -/
theorem signature (h : Progress ds done d sc) {f : FnDecl} (split : ds = done ++ .function f :: rest) :
    signaturesOf ds d.module.functions.size = some (f.result, f.parameters.map VarDecl.ty) := by
  rw [h.size_functions, signaturesOf, split, functionsOf_append]
  simp [functionsOf]

/-- A name that is not bound is not the name of a function yet. -/
theorem functionIndex?_eq_none (h : Progress ds done d sc) {name : String}
    (fresh : sc.declaresInCurrent name = false) : d.module.functionIndex? name = none := by
  have unbound : sc.lookup name = none := by
    have top := h.visible.top
    rcases sc with ⟨inner, globals⟩
    subst top
    rw [Scope.lookup_nil]
    simpa [Scope.declaresInCurrent, Scope.current] using fresh
  rw [Module.functionIndex?, Array.findIdx?_eq_none_iff]
  intro F hF
  have bound := h.bound F (by simpa using hF)
  by_contra hn
  have eq : F.name = name := by simpa using hn
  rw [eq, unbound] at bound
  cases bound

theorem global (h : Progress ds done d sc) (g : Typed.Global) :
    Progress ds (done ++ [.global g]) (withGlobal d (globalOf g))
      (sc.push g.name (.var (.global d.module.globals.size) g.ty (sizeOperands g.dimensions))) where
  globals := by
    simp [withGlobal, h.globals, globalsOf_append, globalsOf]
  functions := by
    have := h.functions
    simpa [withGlobal, functionsOf_append, functionsOf] using this
  visible := h.size_globals ▸ h.visible.global g
  bound F hF := by
    by_cases hn : F.name = g.name
    · rw [hn, Scope.lookup_push_self]
      rfl
    · rw [Scope.lookup_push_of_ne _ _ hn]
      exact h.bound F hF

/-- What the body of the next function sees is declared in the program. -/
theorem visible_function (h : Progress ds done d sc) {f : FnDecl}
    (split : ds = done ++ .function f :: rest) :
    Visible ds (sc.push f.name (.fn d.module.functions.size)) := by
  have := (h.visible.function f).append rest
  rwa [List.append_assoc, List.singleton_append, ← split, ← h.size_functions] at this

theorem function (h : Progress ds done d sc) {f : FnDecl} (split : ds = done ++ .function f :: rest)
    {F : Function} (cursor : Option BlockId) (tidy : F.Tidy [])
    (code : FnCode (signaturesOf ds) (sc.push f.name (.fn d.module.functions.size)) f F) :
    Progress ds (done ++ [.function f]) (withFunction d F cursor)
      (sc.push f.name (.fn d.module.functions.size)) where
  globals := by
    have := h.globals
    simpa [withFunction, globalsOf_append, globalsOf] using this
  functions := by
    have one : List.Forall₂
        (fun f F => (∃ sc, Visible ds sc ∧ FnCode (signaturesOf ds) sc f F) ∧ F.Tidy []) [f] [F] :=
      .cons ⟨⟨_, h.visible_function split, code⟩, tidy⟩ .nil
    have := List.rel_append h.functions one
    simpa [withFunction, functionsOf_append, functionsOf] using this
  visible := h.size_functions ▸ h.visible.function f
  bound G hG := by
    by_cases hn : G.name = f.name
    · rw [hn, Scope.lookup_push_self]
      rfl
    · rw [Scope.lookup_push_of_ne _ _ hn]
      have old : G ∈ d.module.functions.toList := by
        have : G ∈ d.module.functions.toList ++ [F] := by simpa [withFunction] using hG
        rcases List.mem_append.mp this with old | new
        · exact old
        · exact absurd (List.mem_singleton.mp new ▸ code.name) hn
      exact h.bound G old

end Progress

theorem progress_start (ds : List Decl) (name : String) : Progress ds [] (Draft.new name) {} := by
  refine ⟨rfl, .nil, ⟨rfl, ?_, ?_⟩, ?_⟩
  · intro n slot ty sizes hl
    simp [Scope.lookup] at hl
  · intro n g hl
    simp [Scope.lookup] at hl
  · intro F hF
    simp [Draft.new] at hF

/-- Whatever was lowered before, the next declaration is lowered. -/
theorem lowerDecl_exec {ds done rest : List Decl} {decl : Decl} {d : Draft} {sc : Names}
    (h : Progress ds done d sc) (split : ds = done ++ decl :: rest)
    (ok : DeclsOk (sc.map (symbolOf (signaturesOf ds))) (decl :: rest)) :
    ∃ d' sc', (lowerDecl decl).exec ⟨d, sc, none⟩ = (.ok (), ⟨d', sc', none⟩) ∧
      Progress ds (done ++ [decl]) d' sc' ∧ DeclsOk (sc'.map (symbolOf (signaturesOf ds))) rest ∧
      d.module.Extends d'.module := by
  cases ok with
  | @global _ g _ ok tail =>
      have names : (sc.push g.name (.var (.global d.module.globals.size) g.ty
          (sizeOperands g.dimensions))).map (symbolOf (signaturesOf ds)) =
            bindGlobal (sc.map (symbolOf (signaturesOf ds))) g := by
        simp [bindGlobal, symbolOf, sizeOperands]
      exact ⟨_, _, lowerGlobal_exec ok, h.global g, names ▸ tail, extends_withGlobal d _⟩
  | @function _ f _ ok tail =>
      have signature := h.signature split
      obtain ⟨F, cursor, run, tidy, code⟩ := lowerFunction_exec h.visible.top (h.known split) ok
        (h.functionIndex?_eq_none (fresh_of_fnOk ok)) signature
      have names : (sc.push f.name (.fn d.module.functions.size)).map
          (symbolOf (signaturesOf ds)) = bindFn (sc.map (symbolOf (signaturesOf ds))) f := by
        simp [bindFn, symbolOf, signature]
      exact ⟨_, _, run, h.function split cursor tidy code, names ▸ tail,
        extends_withFunction d F cursor⟩

/-- Whatever was lowered before and whatever comes later, declarations are lowered, and only add to what
is there. -/
theorem lowerDecls_exec {ds done rest later : List Decl} {d : Draft} {sc : Names}
    (h : Progress ds done d sc) (split : ds = done ++ (rest ++ later))
    (ok : DeclsOk (sc.map (symbolOf (signaturesOf ds))) (rest ++ later)) :
    ∃ d' sc', (lowerDecls rest).exec ⟨d, sc, none⟩ = (.ok (), ⟨d', sc', none⟩) ∧
      Progress ds (done ++ rest) d' sc' ∧
      DeclsOk (sc'.map (symbolOf (signaturesOf ds))) later ∧ d.module.Extends d'.module := by
  induction rest generalizing done d sc with
  | nil => exact ⟨d, sc, by rw [lowerDecls]; rfl, by simpa using h, ok, .refl _⟩
  | cons decl rest ih =>
      obtain ⟨d₁, sc₁, run, progress, tail, more⟩ := lowerDecl_exec h split ok
      obtain ⟨d', sc', runs, done', last, more'⟩ := ih progress (by simp [split]) tail
      refine ⟨d', sc', ?_, by simpa using done', last, more.trans more'⟩
      rw [lowerDecls]
      exact exec_seq run runs

theorem lowerDecls_of_programOk {ds : List Decl} (ok : ProgramOk ds) (name : String) :
    ∃ d sc, (lowerDecls ds).exec ⟨Draft.new name, {}, none⟩ = (.ok (), ⟨d, sc, none⟩) ∧
      Progress ds ds d sc := by
  have all : ds = [] ++ (ds ++ []) := by simp
  have ok' : ProgramOk (ds ++ []) := by rwa [List.append_nil]
  obtain ⟨d, sc, run, progress, -⟩ := lowerDecls_exec (progress_start ds name) all ok'
  exact ⟨d, sc, run, progress⟩

/-- The module of a program is what its declarations leave in the draft. -/
theorem generate_of_progress {ds : List Decl} {name : String} {d : Draft} {sc : Names}
    (run : (lowerDecls ds).exec ⟨Draft.new name, {}, none⟩ = (.ok (), ⟨d, sc, none⟩))
    (progress : Progress ds ds d sc) : generate ds (Draft.new name) = (.ok d.module, d) := by
  have tidy : ∀ F ∈ d.module.functions.toList, F.Tidy [] := by
    intro F hF
    obtain ⟨i, hi⟩ := List.getElem?_of_mem hF
    obtain ⟨f, -, h⟩ := forall₂_getElem? progress.functions.flip hi
    exact h.2
  have complete : d.complete = .ok d.module :=
    Draft.complete_eq_ok.mpr ⟨fun F hF => (tidy F hF).closed, rfl⟩
  have finished : (request .program .finish : Lower Draft Operand Slot Nat Module).exec
      ⟨d, sc, none⟩ = (.ok d.module, ⟨d, sc, none⟩) :=
    exec_request (Draft.consult_eq_ok.mpr ⟨complete, rfl⟩)
  have whole : (lowerProgram ds).exec ⟨Draft.new name, {}, none⟩ =
      (.ok d.module, ⟨d, sc, none⟩) := exec_seq run finished
  unfold generate
  rw [whole]

/-- A well-annotated program is lowered to a module that is linked from it. -/
theorem generate_eq_ok {ds : List Decl} (ok : ProgramOk ds) (name : String) :
    ∃ m d, generate ds (Draft.new name) = (.ok m, d) ∧ Linked ds m := by
  obtain ⟨d, sc, run, progress⟩ := lowerDecls_of_programOk ok name
  exact ⟨d.module, d, generate_of_progress run progress, progress.globals,
    progress.functions.imp fun f F h => h.1⟩

/-! ## Functions of a program, one by one -/

/-- Wherever a function of the program is lowered, from its entry block on, it comes to have the
property. -/
def EachFunction (ds : List Decl) (P : Function → Prop) : Prop :=
  ∀ (done rest : List Decl) (d : Draft) (sc : Names) (f : FnDecl)
    (t : Lowering Draft Operand Slot Nat), Progress ds done d sc →
    ds = done ++ .function f :: rest → FnOk (sc.map (symbolOf (signaturesOf ds))) f →
    (withFrame do
      lowerParameters f.parameters (← parameters d.module.functions.size)
      lowerBlock f.body
      closeFunction f.result : Lower Draft Operand Slot Nat Unit).exec
        (atEnd (withFunction d (bareFunction f) d.cursor) d.module.functions.size
          ((bareFunction f).grow "entry") 0 (sc.push f.name (.fn d.module.functions.size))) =
      (.ok (), t) →
    ∃ F b, t.emitter = (withFunction d (bareFunction f) d.cursor).focus d.module.functions.size F b ∧
      P F

section

variable {ds : List Decl} {P : Function → Prop}

/-- The next declaration leaves the functions before it as they are. -/
theorem lowerDecl_keeps {done rest : List Decl} {decl : Decl} {d d' : Draft} {sc sc' : Names}
    (each : EachFunction ds P) (h : Progress ds done d sc) (split : ds = done ++ decl :: rest)
    (ok : DeclsOk (sc.map (symbolOf (signaturesOf ds))) (decl :: rest))
    (run : (lowerDecl decl).exec ⟨d, sc, none⟩ = (.ok (), ⟨d', sc', none⟩))
    (before : ∀ F ∈ d.module.functions.toList, P F) : ∀ F ∈ d'.module.functions.toList, P F := by
  cases ok with
  | global ok tail =>
      cases (lowerGlobal_exec ok).symm.trans run
      exact before
  | @function _ f _ ok tail =>
      have fresh := fresh_of_fnOk ok
      rw [lowerDecl, exec_lowerFunction h.visible.top fresh (h.functionIndex?_eq_none fresh)] at run
      obtain ⟨u, inside, left⟩ := inFunction_eq_ok run
      obtain ⟨F, b, emitter, last⟩ := each _ _ _ _ _ u h split ok inside
      rw [focus_withFunction] at emitter
      have drafts : d' = withFunction d F (some ⟨d.module.functions.size, b⟩) :=
        (congrArg Lowering.emitter left).trans emitter
      intro G hG
      have added : G ∈ d.module.functions.toList ++ [F] := by
        simpa [drafts, withFunction] using hG
      rcases List.mem_append.mp added with old | new
      · exact before G old
      · exact List.mem_singleton.mp new ▸ last

theorem lowerDecls_keeps {done rest : List Decl} {d d' : Draft} {sc sc' : Names}
    (each : EachFunction ds P) (h : Progress ds done d sc) (split : ds = done ++ rest)
    (ok : DeclsOk (sc.map (symbolOf (signaturesOf ds))) rest)
    (run : (lowerDecls rest).exec ⟨d, sc, none⟩ = (.ok (), ⟨d', sc', none⟩))
    (before : ∀ F ∈ d.module.functions.toList, P F) : ∀ F ∈ d'.module.functions.toList, P F := by
  induction rest generalizing done d sc with
  | nil =>
      cases run
      exact before
  | cons decl rest ih =>
      obtain ⟨d₁, sc₁, first, progress, tail, -⟩ := lowerDecl_exec h split ok
      rw [lowerDecls, exec_bind_of_ok first] at run
      exact ih progress (by simp [split]) tail run (lowerDecl_keeps each h split ok first before)

/-- What each function comes to have, all functions of the module have. -/
theorem generate_functions (ok : ProgramOk ds) (each : EachFunction ds P) {name : String} {m : Module}
    (generated : (generate ds (Draft.new name)).1 = .ok m) : ∀ F ∈ m.functions.toList, P F := by
  obtain ⟨d, sc, run, progress⟩ := lowerDecls_of_programOk ok name
  rw [generate_of_progress run progress] at generated
  cases generated
  exact lowerDecls_keeps each (progress_start ds name) rfl ok run fun F hF => nomatch hF

end

end ImpLower.Lower
