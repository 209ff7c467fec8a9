import ImpLower.Lower.Decl
import ImpLower.Typing.Decl

/-!
# Programs

A program is a list of declarations together with its last successful check. Code is produced from
the checked form, so it has to be checked again after it grows.
-/

namespace ImpLower

/-- Declarations and, if they were checked since the last change, their checked form. -/
structure Program where
  declarations : List Source.Decl := []
  checked : Option (List Typed.Decl) := none

namespace Program

def defaultModuleName : String := "main"

def ofDecls (declarations : List Source.Decl) : Program :=
  { declarations }

/-- Adds a declaration; the last check no longer applies. -/
def add (p : Program) (d : Source.Decl) : Program :=
  { declarations := p.declarations ++ [d] }

def isChecked (p : Program) : Bool :=
  p.checked.isSome

/-- Checks every declaration. A failed check forgets an earlier success. -/
def check (p : Program) : Except Diagnostic Unit × Program :=
  match Typing.checkProgram p.declarations with
  | .ok checked => (.ok (), { p with checked := some checked })
  | .error e => (.error e, { p with checked := none })

variable {σ V S B F M : Type} [Emitter σ V S B F M]

/-- Lowers the checked program into an emitter, which comes back as lowering left it. -/
def lower (p : Program) (emitter : σ) : Except Diagnostic M × σ :=
  match p.checked with
  | some checked => Lower.generate checked emitter
  | none => (.error ⟨.notChecked, .program⟩, emitter)

def compile (p : Program) (emitter : σ) : (Except Diagnostic M × σ) × Program :=
  match p.check with
  | (.ok (), p) => (p.lower emitter, p)
  | (.error e, p) => ((.error e, emitter), p)

end Program

end ImpLower
