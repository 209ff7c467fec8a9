import ImpLower.Lower.Stmt

/-!
# Lowering declarations and programs

Globals and functions are lowered in the order of their declaration. A function is bound before its
body is lowered, so that it can call itself, and spills its parameters into slots of their own.
-/

namespace ImpLower.Lower

variable {σ V S B F M : Type} [Emitter σ V S B F M]

def lowerSizes : List Nat → Lower σ V S F (List V)
  | [] => return []
  | size :: rest => do
      let value : V ← request .varDecl (.constant (.long (Int64.ofNat size)))
      return value :: (← lowerSizes rest)

def lowerGlobal (decl : Typed.Global) : Lower σ V S F Unit := do
  let length := if decl.dimensions.isEmpty then none else some decl.length
  let slot : S ← request .varDecl (.global decl.ty length decl.initializer decl.name)
  let sizes ← lowerSizes decl.dimensions
  declare decl.name (.var slot decl.ty sizes) .varDecl

/-- Spills parameters into slots, from left to right. -/
def lowerParameters : List Typed.VarDecl → List V → Lower σ V S F Unit
  | decl :: decls, value :: values => do
      let slot : S ← request .varDecl (.alloca decl.ty none decl.name)
      let _ : Unit ← request .varDecl (.store slot decl.ty none value)
      declare decl.name (.var slot decl.ty []) .varDecl
      lowerParameters decls values
  | _, _ => return ()

/-- Closes the last block of a function. Only a function without a result can run off its end. -/
def closeFunction (result : Ty) : Lower σ V S F Unit := do
  if ← isClosed then return ()
  if result = .void then request .fnDecl (.ret none) else request .fnDecl .unreachable

def lowerFunction (decl : Typed.FnDecl) : Lower σ V S F Unit := do
  let types := decl.parameters.map Typed.VarDecl.ty
  let f : F ← request .fnDecl (.addFunction decl.name decl.result types)
  declareGlobal decl.name (.fn f) .fnDecl
  let entry ← addBlock f "entry"
  moveTo entry
  inFunction f <| withFrame do
    lowerParameters decl.parameters (← parameters f)
    lowerBlock decl.body
    closeFunction decl.result

def lowerDecl : Typed.Decl → Lower σ V S F Unit
  | .global decl => lowerGlobal decl
  | .function decl => lowerFunction decl

def lowerDecls : List Typed.Decl → Lower σ V S F Unit
  | [] => return ()
  | d :: rest => do
      lowerDecl d
      lowerDecls rest

def lowerProgram (decls : List Typed.Decl) : Lower σ V S F M := do
  lowerDecls decls
  request .program .finish

/-- Lowers a program into an emitter; the emitter comes back as lowering left it. -/
def generate (decls : List Typed.Decl) (emitter : σ) : Except Diagnostic M × σ :=
  let (result, s) := (lowerProgram decls).exec { emitter }
  (result, s.emitter)

end ImpLower.Lower
