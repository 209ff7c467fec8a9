import ImpLower.Proofs.Code.Drafting
import ImpLower.Proofs.Lower.Ledgers
import ImpLower.Proofs.Lower.Parallel

/-!
# Statements that are never reached

Whatever follows an always-returning statement in its block is left out by lowering. So lowering does
the same, step for step, to a program from which these statements have been deleted, wherever it starts
and whether it succeeds or not.
-/

namespace ImpLower

namespace Typed

mutual

/-- The statement without what follows an always-returning statement in one of its blocks. -/
def Stmt.prune : Stmt → Stmt
  | .block body => .block (prune body)
  | .ifThen condition body => .ifThen condition (prune body)
  | .ifElse condition body other => .ifElse condition (prune body) (prune other)
  | .forLoop decl condition step body => .forLoop decl condition step (prune body)
  | .whileLoop condition body => .whileLoop condition (prune body)
  | .switch scrutinee cases table => .switch scrutinee (pruneCases cases) table
  | .declare decl => .declare decl
  | .eval e => .eval e
  | .ret value => .ret value

/-- The statements up to the first always-returning one, each of them pruned. -/
def prune : List Stmt → List Stmt
  | [] => []
  | s :: rest => s.prune :: if s.mustReturn then [] else prune rest

def pruneCases : List Case → List Case
  | [] => []
  | .mk value test constant body :: rest => .mk value test constant (prune body) :: pruneCases rest

end

def Decl.prune : Decl → Decl
  | .global g => .global g
  | .function f => .function { f with body := Typed.prune f.body }

theorem map_constant_pruneCases (cases : List Case) :
    (pruneCases cases).map Case.constant = cases.map Case.constant := by
  induction cases with
  | nil => rfl
  | cons c rest ih =>
      obtain ⟨value, test, constant, body⟩ := c
      rw [pruneCases, List.map_cons, List.map_cons, ih]
      rfl

theorem length_pruneCases (cases : List Case) : (pruneCases cases).length = cases.length := by
  simpa using congrArg List.length (map_constant_pruneCases cases)

end Typed

namespace Code.Draft

/-- A block that was closed is closed. -/
theorem isClosed_of_close {d d' : Draft} {t : Terminator}
    (ok : (close t).exec d = (.ok (), d')) : d'.isClosed = true := by
  obtain ⟨⟨place, F, B⟩, u, found, -⟩ := Stateful.exec_bind_eq_ok.mp ok
  obtain ⟨cursor, function, block, isOpen⟩ := insertionPoint_eq_ok.mp (consult_eq_ok.mp found).1
  have points : d.PointsInto place F := ⟨cursor, function, B, block, isOpen⟩
  rw [← points.focus_eq] at ok
  obtain ⟨-, rfl⟩ := close_focus_eq_ok points.hosts ok
  have hosts : d.Hosts place.function (F.close place.block t) := points.hosts
  rw [isClosed_focus hosts (Function.getElem?_close_self block t)]
  rfl

/-- Each request that closes the block ends by doing so. -/
theorem isClosed_of_perform {d d' : Draft} {r : DraftRequest} (closes : r.closes = true)
    {reply : r.Reply Module} (ok : (perform r).exec d = (.ok reply, d')) : d'.isClosed = true := by
  cases r with
  | branch =>
      obtain ⟨_, _, -, last⟩ := Stateful.exec_bind_eq_ok.mp ok
      exact isClosed_of_close last
  | condBranch =>
      obtain ⟨_, _, -, rest⟩ := Stateful.exec_bind_eq_ok.mp ok
      obtain ⟨_, _, -, last⟩ := Stateful.exec_bind_eq_ok.mp rest
      exact isClosed_of_close last
  | switch =>
      obtain ⟨_, _, -, rest⟩ := Stateful.exec_bind_eq_ok.mp ok
      obtain ⟨_, _, -, last⟩ := Stateful.exec_bind_eq_ok.mp rest
      exact isClosed_of_close last
  | ret => exact isClosed_of_close ok
  | unreachable => exact isClosed_of_close ok
  | _ => cases closes

end Code.Draft

namespace Lower

open Code Typed Stateful

/-! ## Always-returning statements close their block -/

variable {x t : Lowering Draft Operand Slot Nat}

theorem exec_isClosed_of_closed (closed : x.emitter.isClosed = true) :
    (isClosed : Lower Draft Operand Slot Nat Bool).exec x = (.ok true, x) :=
  congrArg (fun c => (Except.ok c, x)) closed

/-- Statements behind a closed block are left out. -/
theorem lowerBlock_of_closed (closed : x.emitter.isClosed = true) (body : List Stmt) :
    (lowerBlock body).exec x = (.ok (), x) := by
  cases body with
  | nil =>
      rw [lowerBlock]
      rfl
  | cons st rest =>
      rw [lowerBlock, exec_bind_of_ok (exec_isClosed_of_closed closed)]
      rfl

/-- What the description of a lowering says about the block at the insertion point is so, wherever the
lowering succeeds. -/
theorem Parallel.isClosed {τ α : Type} [Emitter τ Operand Slot BlockId Nat Module]
    {A : Scope.Allowance (Storage Operand Slot Nat)} {m : Lower Draft Operand Slot Nat α}
    {m' : Lower τ Operand Slot Nat α} {p q : Bool} (h : Parallel A m m' p q) {a : α}
    (run : m.exec x = (.ok a, t)) (before : p = true → x.emitter.isClosed = true)
    (after : q = true) : t.emitter.isClosed = true := by
  induction h generalizing x t with
  | aside keeps =>
      have same := keeps x
      rw [run] at same
      rw [same]
      exact before after
  | request site r =>
      obtain ⟨d', ok, rfl⟩ := request_eq_ok run
      exact Draft.isClosed_of_perform after ok
  | @asks _ _ _ _ p q _ ih =>
      rw [Bool.and_eq_true, Bool.or_eq_true] at after
      obtain ⟨closed, _, answer, rest⟩ := exec_bind_eq_ok.mp run
      cases answer
      cases known : x.emitter.isClosed with
      | true => exact ih true (known ▸ rest) (fun _ => known) after.1
      | false =>
          -- the answer was unknown, or else the block would be closed
          have unknown : p = false := by
            cases p with
            | false => rfl
            | true => exact (before rfl).symm.trans known
          refine ih false (known ▸ rest) (by simp [unknown]) (after.2.resolve_left ?_)
          simp [unknown]
  | bind _ _ head tail =>
      obtain ⟨b, u, first, rest⟩ := exec_bind_eq_ok.mp run
      exact tail b rest (fun known => head first before known) after
  | withFrame _ ih =>
      obtain ⟨u, inside, rfl⟩ := withFrame_eq_ok.mp run
      show u.emitter.isClosed = true
      exact ih inside before after
  | @inFunction _ _ f m _ _ _ _ ih =>
      rcases inside : m.exec { x with function := some f } with ⟨r, u⟩
      simp only [Lower.inFunction, exec_ofFn, inside, Prod.mk.injEq] at run
      obtain ⟨rfl, rfl⟩ := run
      show u.emitter.isClosed = true
      exact ih inside before after
  | weaken _ stronger weaker ih => exact ih run (fun known => before (stronger known)) (weaker after)
  | _ => cases after

/-- Wherever it succeeds, the step leaves the insertion point in a closed block. -/
def Closing (m : Lower Draft Operand Slot Nat Unit) : Prop :=
  ∀ x t, m.exec x = (.ok (), t) → t.emitter.isClosed = true

theorem closing_lowerStmt (st : Stmt) (returns : st.mustReturn = true) :
    Closing (lowerStmt st) := by
  intro x t run
  have alike : Alike Draft Draft (.naming st.declares) (lowerStmt st) false st.mustReturn :=
    stmtAlike st fun _ _ h => h
  exact alike.isClosed run nofun returns

theorem closing_lowerBlock {body : List Stmt} (returns : mustReturn body = true) :
    Closing (lowerBlock body) := by
  intro x t run
  have alike : Alike Draft Draft .growing (lowerBlock body) false (false || mustReturn body) :=
    alike_lowerBlock body
  exact alike.isClosed run nofun returns

/-! ## Lowering what is left -/

theorem lowerBlock_prune_of {body : List Stmt}
    (h : ∀ st ∈ body, (lowerStmt st.prune : Lower Draft Operand Slot Nat Unit) = lowerStmt st) :
    (lowerBlock (prune body) : Lower Draft Operand Slot Nat Unit) = lowerBlock body := by
  induction body with
  | nil => rw [prune]
  | cons st rest ih =>
      obtain ⟨first, others⟩ := List.forall_mem_cons.mp h
      have tail : (lowerStmt st >>= fun _ => lowerBlock (if st.mustReturn then [] else prune rest) :
          Lower Draft Operand Slot Nat Unit) = (lowerStmt st >>= fun _ => lowerBlock rest) := by
        cases returns : st.mustReturn with
        | false =>
            rw [if_neg Bool.false_ne_true, ih others]
        | true =>
            rw [if_pos rfl]
            funext x
            show exec _ x = exec _ x
            rw [exec_bind, exec_bind]
            split
            · next u head =>
                have done := closing_lowerStmt st returns x u head
                rw [lowerBlock_of_closed done, lowerBlock_of_closed done]
            · rfl
      rw [prune, lowerBlock, lowerBlock, first, tail]

theorem lowerTable_prune_of (endBlock : BlockId) {cases : List Case} (blocks : List BlockId)
    (h : ∀ c ∈ cases, (lowerBlock (prune c.body) : Lower Draft Operand Slot Nat Unit) =
      lowerBlock c.body) :
    (lowerTable endBlock (pruneCases cases) blocks : Lower Draft Operand Slot Nat Unit) =
      lowerTable endBlock cases blocks := by
  induction cases generalizing blocks with
  | nil => rw [pruneCases]
  | cons c rest ih =>
      obtain ⟨value, test, constant, body⟩ := c
      obtain ⟨first, others⟩ := List.forall_mem_cons.mp h
      rw [pruneCases]
      cases blocks with
      | nil =>
          unfold lowerTable
          rfl
      | cons block blocks =>
          rw [Case.body] at first
          rw [lowerTable, lowerTable, ih blocks others, first]

theorem lowerChain_prune_of (f : Nat) (scrutinee : Operand) (endBlock : BlockId) {cases : List Case}
    (h : ∀ c ∈ cases, (lowerBlock (prune c.body) : Lower Draft Operand Slot Nat Unit) =
      lowerBlock c.body) :
    (lowerChain f scrutinee endBlock (pruneCases cases) : Lower Draft Operand Slot Nat Unit) =
      lowerChain f scrutinee endBlock cases := by
  induction cases with
  | nil => rw [pruneCases]
  | cons c rest ih =>
      obtain ⟨value, test, constant, body⟩ := c
      obtain ⟨first, others⟩ := List.forall_mem_cons.mp h
      rw [Case.body] at first
      rw [pruneCases, lowerChain, lowerChain, ih others, first]

theorem lowerStmt_prune (st : Stmt) :
    (lowerStmt st.prune : Lower Draft Operand Slot Nat Unit) = lowerStmt st := by
  induction st using Stmt.treeInduction with
  | block body ih => rw [Stmt.prune, lowerStmt, lowerStmt, lowerBlock_prune_of ih]
  | ifThen condition body ih =>
      rw [Stmt.prune, lowerStmt, lowerStmt, lowerBlock_prune_of ih]
  | ifElse condition body other ih ihOther =>
      rw [Stmt.prune, lowerStmt, lowerStmt, lowerBlock_prune_of ih, lowerBlock_prune_of ihOther]
  | forLoop decl condition step body ih =>
      rw [Stmt.prune, lowerStmt, lowerStmt, lowerBlock_prune_of ih]
  | whileLoop condition body ih =>
      rw [Stmt.prune, lowerStmt, lowerStmt, lowerBlock_prune_of ih]
  | switch scrutinee cases table ih =>
      have bodies : ∀ c ∈ cases, (lowerBlock (prune c.body) : Lower Draft Operand Slot Nat Unit) =
          lowerBlock c.body := fun c hc => lowerBlock_prune_of (ih c hc)
      rw [Stmt.prune]
      cases table with
      | true =>
          rw [lowerStmt, lowerStmt, length_pruneCases, map_constant_pruneCases]
          simp only [lowerTable_prune_of _ _ bodies]
      | false =>
          rw [lowerStmt, lowerStmt]
          simp only [lowerChain_prune_of _ _ _ bodies]
  | declare decl => rw [Stmt.prune]
  | eval e => rw [Stmt.prune]
  | ret value => rw [Stmt.prune]

/-- Statements behind an always-returning one make no difference. -/
theorem lowerBlock_prune (body : List Stmt) :
    (lowerBlock (prune body) : Lower Draft Operand Slot Nat Unit) = lowerBlock body :=
  lowerBlock_prune_of fun st _ => lowerStmt_prune st

theorem lowerDecls_prune (ds : List Decl) :
    (lowerDecls (ds.map Decl.prune) : Lower Draft Operand Slot Nat Unit) = lowerDecls ds := by
  induction ds with
  | nil => rfl
  | cons d rest ih =>
      rw [List.map_cons, lowerDecls, lowerDecls, ih]
      cases d with
      | global g => rfl
      | function f =>
          rw [Decl.prune, lowerDecl, lowerDecl, lowerFunction, lowerFunction, lowerBlock_prune]

theorem generate_prune (ds : List Decl) (d : Draft) :
    generate (ds.map Decl.prune) d = generate ds d := by
  rw [generate, generate, lowerProgram, lowerProgram, lowerDecls_prune]

end Lower

end ImpLower
