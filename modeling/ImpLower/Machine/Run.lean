import ImpLower.Machine.Step

/-!
# Runs

A machine runs the functions of one module against its globals. Every instruction and every terminator
costs one step, and the steps of all calls together are limited. A run recurses on the steps that are
left, so it always ends.
-/

namespace ImpLower

open Code

namespace Machine

/-- How a run ended: its result, the steps counted so far and the globals. -/
structure Ending where
  result : Except Trap (Option Literal)
  steps : Nat
  globals : Array Cell

def missingBlock (a : Activation) : Trap :=
  .malformedBlock a.function.name a.block

/-- Runs a state while steps are left. Entering a block that does not exist costs no step; the step
that exceeds the limit is counted. -/
def run (m : Code.Module) (limit : Nat) : Nat → Nat → State → Ending
  | 0, steps, s =>
      match s.top.currentBlock? with
      | none => ⟨.error (missingBlock s.top), steps, s.globals⟩
      | some _ => ⟨.error (.stepLimit limit), steps + 1, s.globals⟩
  | left + 1, steps, s =>
      match s.top.currentBlock? with
      | none => ⟨.error (missingBlock s.top), steps, s.globals⟩
      | some block =>
          match step m block s with
          | .running s => run m limit left (steps + 1) s
          | .returned value globals => ⟨.ok value, steps + 1, globals⟩
          | .trapped trap globals => ⟨.error trap, steps + 1, globals⟩

end Machine

/-- A module with its globals and the steps used so far. -/
structure Machine where
  module : Code.Module
  globals : Array Machine.Cell
  limit : Nat
  steps : Nat := 0

namespace Machine

/-- Steps allowed when no limit is chosen. -/
def defaultLimit : Nat := 1000000

def initialCell (g : Global) : Cell :=
  Array.replicate (g.length.getD 1) (g.initializer.getD (Literal.initial g.ty))

def new (m : Code.Module) (limit : Nat) : Machine where
  module := m
  globals := m.globals.map initialCell
  limit := limit

def globalArray? (m : Machine) (name : String) : Option Cell :=
  (m.module.globalIndex? name).bind fun index => m.globals[index]?

def global? (m : Machine) (name : String) : Option Literal :=
  (m.globalArray? name).bind fun cell => cell[0]?

def entry (m : Code.Module) (name : String) (arguments : List Literal) : Except Trap Activation :=
  match m.functionIndex? name with
  | none => .error (.unknownFunction name)
  | some index => activate m index arguments 0

/-- Calls a function. Steps and globals stay as the call left them, whether it succeeded or not. -/
def call (m : Machine) (name : String) (arguments : List Literal) :
    Except Trap (Option Literal) × Machine :=
  match entry m.module name arguments with
  | .error trap => (.error trap, m)
  | .ok top =>
      let ending := run m.module m.limit (m.limit - m.steps) m.steps { globals := m.globals, top }
      (ending.result, { m with globals := ending.globals, steps := ending.steps })

end Machine

end ImpLower
