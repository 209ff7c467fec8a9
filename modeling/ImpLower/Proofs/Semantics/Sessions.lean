import Mathlib.Data.List.Induction
import ImpLower.Proofs.Machine.Calls
import ImpLower.Proofs.Semantics.Programs

/-!
# Sessions

Calls from outside, one after the other, on one machine. Each call either ends the way the evaluator
does, with the same globals, or it is cut off by the limit; once that has happened every later call is
cut off as well. Whatever happens, the globals keep their sizes and types.
-/

namespace ImpLower

/-- The call names a declared function and has arguments of the types of its parameters. -/
def Invocation.Fits (decls : List Source.Decl) (c : Invocation) : Prop :=
  ∃ f, Source.Decl.function f ∈ decls ∧ f.name = c.name ∧
    c.arguments.map Literal.type = f.parameters.map Source.VarDecl.ty

namespace Semantics

open Code Machine Typed

/-- By evaluation, the call ends with the outcome and changes the globals so. -/
def Ends (ds : List Decl) (globals : Frame Variable) (c : Invocation)
    (outcome : Except Fault (Option Literal)) (globals' : Frame Variable) : Prop :=
  ∃ fuel, (evalCall ds fuel maxDepth c.name c.arguments).exec { globals } =
    (outcome.mapError Stop.fault, { globals := globals' })

/-- By evaluation, the calls all end, one after the other, and lead to the globals. -/
inductive LeadsTo (ds : List Decl) : List Invocation → Frame Variable → Prop
  | start : LeadsTo ds [] (initialGlobals ds)
  | call {calls : List Invocation} {c : Invocation} {globals globals' : Frame Variable}
      {outcome : Except Fault (Option Literal)} (before : LeadsTo ds calls globals)
      (ends : Ends ds globals c outcome globals') : LeadsTo ds (calls ++ [c]) globals'

/-- The machine answers the call with the outcome and is left with the globals. -/
def EndsAs (M : Machine) (c : Invocation) (outcome : Except Fault (Option Literal))
    (globals : Frame Variable) : Prop :=
  M.answer c = outcome.mapError Fault.trap ∧
    ∀ name, (M.after [c]).globalArray? name = (globals.lookup name).map Variable.cell

/-- An outcome that a function with the given result can have. -/
def Proper (result : Ty) : Except Fault (Option Literal) → Prop
  | .ok v => Results result v
  | .error f => f.Regular

/-! ## One call -/

/-- The call fits a function of the program. -/
structure Callable (ds : List Decl) (c : Invocation) (g : Nat) (f : FnDecl) : Prop where
  found : (functionsOf ds)[g]? = some f
  name : f.name = c.name
  types : c.arguments.map Literal.type = f.parameters.map VarDecl.ty

theorem inner_evalCall (ds : List Decl) (fuel levels : Nat) (name : String) (arguments : List Literal)
    (env : Env) : ((evalCall ds fuel levels name arguments).exec env).2.inner = env.inner := by
  cases levels with
  | zero => rfl
  | succ levels =>
      rw [evalCall]
      split
      · rfl
      · split <;> rfl

section

variable {ds : List Decl} {m : Code.Module} {c : Invocation} {g : Nat} {f : FnDecl}

/-- Where a run of the call ends, by evaluation with some fuel and by the machine. -/
theorem call_concludes (h : Executable ds m) (callable : Callable ds c g f) :
    ∃ F, entry m c.name c.arguments = .ok (Activation.start F c.arguments) ∧
      ∀ {frame globals}, GlobalsAgree ds frame globals → ∀ fuel,
        (∃ outcome frame' n globals', Proper f.result outcome ∧ GlobalsAgree ds frame' globals' ∧
          (evalCall ds fuel maxDepth c.name c.arguments).exec { globals := frame } =
            (outcome.mapError Stop.fault, { globals := frame' }) ∧
          Halts m (GlobalsTyped ds) n { globals, top := Activation.start F c.arguments }
            (outcome.mapError Fault.trap) globals') ∨
        ∃ frame' n s', fuel ≤ n ∧
          (evalCall ds fuel maxDepth c.name c.arguments).exec { globals := frame } =
            (.error .outOfFuel, { globals := frame' }) ∧
          Steps m (GlobalsTyped ds) n { globals, top := Activation.start F c.arguments } s' := by
  obtain ⟨F, sc, -, visible, code, activates⟩ := h.activate callable.found callable.types
  refine ⟨F, ?_, fun {frame globals} agree fuel => ?_⟩
  · rw [entry, ← callable.name, h.functionIndex? callable.found]
    exact (activates 0).trans (if_neg (by decide))
  let s : State := { globals, top := Activation.start F c.arguments }
  have arity : c.arguments.length = f.parameters.length := by
    simpa using congrArg List.length callable.types
  have unfolds : evalCall ds fuel maxDepth c.name c.arguments =
      inFunction (bindParameters [] f.parameters c.arguments)
        (evalBlock (evalCall ds fuel 255) fuel f.body) := by
    show evalCall ds fuel (255 + 1) c.name c.arguments = _
    rw [evalCall, ← callable.name, h.function? callable.found]
    simp only [arity, if_true]
  have follows := body_follows (s := s) (callsFollow h fuel 255) visible code callable.types rfl rfl
    (show GlobalsAgree ds ({ globals := frame } : Env).globals globals from agree)
  rw [← unfolds] at follows
  have inner := inner_evalCall ds fuel maxDepth c.name c.arguments { globals := frame }
  generalize (evalCall ds fuel maxDepth c.name c.arguments).exec { globals := frame } = out at *
  obtain ⟨result, env⟩ := out
  have whole : env = { globals := env.globals } := by
    obtain ⟨inside, shared⟩ := env
    cases inner
    rfl
  rw [whole]
  rcases result with (fault | _ | _) | v
  · obtain ⟨regular, n, globals', halts, agree'⟩ := follows
    exact .inl ⟨.error fault, env.globals, n, globals', regular, agree', rfl, halts⟩
  · exact follows.elim
  · obtain ⟨n, s', le, steps⟩ := follows
    exact .inr ⟨env.globals, n, s', le, rfl, steps⟩
  · obtain ⟨n, s', steps, -, callers, returning⟩ := follows
    refine .inl ⟨.ok v, env.globals, n, s'.globals, returning.results, returning.globals, rfl, s',
      steps, ⟨_, returning.globals⟩, returning.block, ?_⟩
    rw [returning.pops, State.pop, callers]
    rfl

theorem call_of_entry {M : Machine} {top : Activation}
    (starts : entry M.module c.name c.arguments = .ok top) :
    M.call c.name c.arguments =
      let ending := run M.module M.limit (M.limit - M.steps) M.steps { globals := M.globals, top }
      (ending.result, { M with globals := ending.globals, steps := ending.steps }) := by
  rw [Machine.call, starts]

theorem endsAs_of_call {M : Machine} (linked : Linked ds M.module) {frame : Frame Variable}
    {globals : Array Cell} {steps : Nat} (agree : GlobalsAgree ds frame globals)
    {outcome : Except Fault (Option Literal)}
    (called : M.call c.name c.arguments = (outcome.mapError Fault.trap, { M with globals, steps })) :
    EndsAs M c outcome frame := by
  refine ⟨by rw [Machine.answer, called], fun name => ?_⟩
  have left : M.after [c] = { M with globals, steps } := by simp [Machine.after, called]
  rw [left]
  exact globalArray?_eq_lookup (M := { M with globals, steps }) linked agree name

/-- A call either ends as evaluation says or is cut off. -/
theorem call_cases {M : Machine} (h : Executable ds M.module) (callable : Callable ds c g f)
    {frame : Frame Variable} (agree : GlobalsAgree ds frame M.globals) :
    (∃ outcome frame' n globals', Ends ds frame c outcome frame' ∧ Proper f.result outcome ∧
      GlobalsAgree ds frame' globals' ∧ n < M.limit - M.steps ∧ M.call c.name c.arguments =
        (outcome.mapError Fault.trap, { M with globals := globals', steps := M.steps + n + 1 })) ∨
    ∃ globals', GlobalsTyped ds globals' ∧ M.call c.name c.arguments =
      (.error (.stepLimit M.limit),
        { M with globals := globals', steps := M.steps + (M.limit - M.steps) + 1 }) := by
  obtain ⟨F, starts, concludes⟩ := call_concludes h callable
  rw [call_of_entry starts]
  -- with more fuel than steps are left, running out of fuel is out of reach
  rcases concludes agree (M.limit + 1) with
    ⟨outcome, frame', n, globals', proper, agree', ends, halts⟩ | ⟨frame', n, s', le, -, steps⟩
  · by_cases enough : n < M.limit - M.steps
    · refine .inl ⟨outcome, frame', n, globals', ⟨_, ends⟩, proper, agree', enough, ?_⟩
      rw [halts.run_of_lt enough]
    · obtain ⟨globals', typed, cut⟩ := halts.run_of_le (Nat.le_of_not_lt enough) M.limit M.steps
      exact .inr ⟨globals', typed, by rw [cut]⟩
  · have short : M.limit - M.steps < n := by omega
    obtain ⟨globals', typed, cut⟩ := steps.run_of_lt short M.limit M.steps
    exact .inr ⟨globals', typed, by rw [cut]⟩

/-- A call that ends by evaluation ends on every machine with enough steps left. -/
theorem call_of_ends (h : Executable ds m) (callable : Callable ds c g f)
    {frame frame' : Frame Variable} {globals : Array Cell} (agree : GlobalsAgree ds frame globals)
    {outcome : Except Fault (Option Literal)} (ends : Ends ds frame c outcome frame') :
    ∃ n globals', GlobalsAgree ds frame' globals' ∧ ∀ limit steps, n < limit - steps →
      Machine.call { module := m, globals, limit, steps } c.name c.arguments =
        (outcome.mapError Fault.trap, { module := m, globals := globals', limit, steps := steps + n + 1 }) := by
  obtain ⟨F, starts, concludes⟩ := call_concludes h callable
  obtain ⟨fuel, ends⟩ := ends
  rcases concludes agree fuel with
    ⟨outcome', frame'', n, globals', -, agree', ends', halts⟩ | ⟨frame'', n, s', -, out, -⟩
  · obtain ⟨same, rfl⟩ : outcome.mapError Stop.fault = outcome'.mapError Stop.fault ∧
        frame' = frame'' := by simpa using ends.symm.trans ends'
    have : outcome = outcome' := by
      cases outcome <;> cases outcome' <;> cases same <;> rfl
    subst this
    refine ⟨n, globals', agree', fun limit steps enough => ?_⟩
    rw [call_of_entry starts]
    simp only [halts.run_of_lt enough]
  · rw [ends] at out
    cases outcome <;> cases out

end

/-! ## Sequences of calls -/

section

variable {ds : List Decl} {m : Code.Module}

def AllCallable (ds : List Decl) (calls : List Invocation) : Prop :=
  ∀ c ∈ calls, ∃ g f, Callable ds c g f

theorem AllCallable.of_concat {calls : List Invocation} {c : Invocation}
    (h : AllCallable ds (calls ++ [c])) : AllCallable ds calls ∧ ∃ g f, Callable ds c g f :=
  ⟨fun x hx => h x (by simp [hx]), h c (by simp)⟩

/-- Calls that end by evaluation take a fixed number of steps, whatever the limit. -/
theorem after_of_leadsTo (h : Executable ds m)
    (start : GlobalsAgree ds (initialGlobals ds) (m.globals.map initialCell))
    {calls : List Invocation} {frame : Frame Variable} (callable : AllCallable ds calls)
    (leads : LeadsTo ds calls frame) :
    ∃ steps globals, GlobalsAgree ds frame globals ∧ ∀ limit, steps ≤ limit →
      (Machine.new m limit).after calls = { module := m, globals, limit, steps } := by
  induction leads with
  | start => exact ⟨0, m.globals.map initialCell, start, fun limit _ => rfl⟩
  | @call calls c frame frame' outcome before ends ih =>
      obtain ⟨earlier, g, f, this⟩ := callable.of_concat
      obtain ⟨steps, globals, agree, reached⟩ := ih earlier
      obtain ⟨n, globals', agree', ended⟩ := call_of_ends h this agree ends
      refine ⟨steps + n + 1, globals', agree', fun limit le => ?_⟩
      rw [Machine.after_concat, reached limit (by omega), ended limit steps (by omega)]

/-- A machine of the module in the middle of a session: its globals are typed, and unless its steps
are used up it stands where evaluation stands. -/
structure Tracks (ds : List Decl) (m : Code.Module) (limit : Nat) (calls : List Invocation)
    (M : Machine) : Prop where
  module : M.module = m
  limit : M.limit = limit
  typed : GlobalsTyped ds M.globals
  reached : M.limit < M.steps ∨ ∃ frame, LeadsTo ds calls frame ∧ GlobalsAgree ds frame M.globals

theorem tracks_after (h : Executable ds m)
    (start : GlobalsAgree ds (initialGlobals ds) (m.globals.map initialCell)) (limit : Nat)
    (calls : List Invocation) (callable : AllCallable ds calls) :
    Tracks ds m limit calls ((Machine.new m limit).after calls) := by
  induction calls using List.reverseRecOn with
  | nil => exact ⟨rfl, rfl, ⟨_, start⟩, .inr ⟨_, .start, start⟩⟩
  | append_singleton calls c ih =>
      obtain ⟨earlier, g, f, this⟩ := callable.of_concat
      have before := ih earlier
      rw [Machine.after_concat]
      generalize (Machine.new m limit).after calls = M at before ⊢
      obtain ⟨rfl, rfl, ⟨frame, agree⟩, reached⟩ := before
      -- the frame is the one evaluation reached, if it got there
      obtain ⟨frame, agree, reached⟩ : ∃ frame, GlobalsAgree ds frame M.globals ∧
          (M.limit < M.steps ∨ LeadsTo ds calls frame) := by
        rcases reached with used | ⟨frame', leads, agree'⟩
        · exact ⟨frame, agree, .inl used⟩
        · exact ⟨frame', agree', .inr leads⟩
      rcases call_cases h this agree with
        ⟨outcome, frame', n, globals', ends, -, agree', enough, called⟩ | ⟨globals', typed, called⟩
      · rw [called]
        refine ⟨rfl, rfl, ⟨frame', agree'⟩, ?_⟩
        rcases reached with used | leads
        · omega
        · exact .inr ⟨frame', leads.call ends, agree'⟩
      · rw [called]
        exact ⟨rfl, rfl, typed, .inl (show M.limit < M.steps + (M.limit - M.steps) + 1 by omega)⟩

end

end Semantics

end ImpLower
