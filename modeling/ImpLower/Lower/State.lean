import ImpLower.Emitter

/-!
# Lowering state

While a typed program is lowered, names stand for what the emitter gave out for them. The state holds
the emitter, those names and the function being lowered.
-/

namespace ImpLower

/-- What a name stands for while code is produced: a slot with its element type and the sizes of its
dimensions, or a function. -/
inductive Storage (V S F : Type) where
  | var (slot : S) (ty : Ty) (sizes : List V)
  | fn (handle : F)

/-- The state of lowering into an emitter with state `σ`. -/
structure Lowering (σ V S F : Type) where
  emitter : σ
  scope : Scope (Storage V S F) := {}
  /-- The function new blocks are added to. -/
  function : Option F := none

instance (σ V S F : Type) : HasScope (Lowering σ V S F) (Storage V S F) where
  scope := Lowering.scope
  setScope s t := { s with scope := t }

abbrev Lower (σ V S F α : Type) := Stateful Diagnostic (Lowering σ V S F) α

namespace Lower

variable {σ V S B F M : Type} [Emitter σ V S B F M]

/-- Asks the emitter; a refusal is laid to the construct `site`. -/
def request (site : Construct) (r : Request V S B F) : Lower σ V S F (r.Reply M) :=
  Stateful.ofFn fun s =>
    match (Emitter.perform r).exec s.emitter with
    | (.ok reply, emitter) => (.ok reply, { s with emitter })
    | (.error refusal, emitter) => (.error (refusal.diagnose site), { s with emitter })

def addBlock (f : F) (label : String) : Lower σ V S F B :=
  Stateful.ofFn fun s =>
    let (block, emitter) := Emitter.addBlock f label s.emitter
    (.ok block, { s with emitter })

/-- Adds several blocks that ask for the same label. -/
def addBlocks (f : F) (label : String) : Nat → Lower σ V S F (List B)
  | 0 => return []
  | n + 1 => do
      let block ← addBlock f label
      return block :: (← addBlocks f label n)

def moveTo (block : B) : Lower σ V S F Unit :=
  Stateful.ofFn fun s => (.ok (), { s with emitter := Emitter.moveTo block s.emitter })

def isClosed : Lower σ V S F Bool :=
  Stateful.ofFn fun s =>
    let (closed, emitter) := Emitter.isClosed s.emitter
    (.ok closed, { s with emitter })

def parameters (f : F) : Lower σ V S F (List V) :=
  Stateful.ofFn fun s =>
    let (values, emitter) := Emitter.parameters f s.emitter
    (.ok values, { s with emitter })

def declare (name : String) (storage : Storage V S F) (site : Construct) : Lower σ V S F Unit :=
  Stateful.ofFn fun s =>
    match s.scope.declare name storage with
    | .ok scope => (.ok (), { s with scope })
    | .error e => (.error (e.diagnose site), s)

def declareGlobal (name : String) (storage : Storage V S F) (site : Construct) :
    Lower σ V S F Unit :=
  Stateful.ofFn fun s =>
    match s.scope.declareGlobal name storage with
    | .ok scope => (.ok (), { s with scope })
    | .error e => (.error (e.diagnose site), s)

def lookupVar (name : String) (site : Construct) : Lower σ V S F (S × Ty × List V) :=
  Stateful.ofFn fun s =>
    match s.scope.lookup name with
    | some (.var slot ty sizes) => (.ok (slot, ty, sizes), s)
    | some (.fn _) => (.error ⟨.notAVariable name, site⟩, s)
    | none => (.error ⟨.undeclared name, site⟩, s)

def lookupFn (name : String) (site : Construct) : Lower σ V S F F :=
  Stateful.ofFn fun s =>
    match s.scope.lookup name with
    | some (.fn handle) => (.ok handle, s)
    | some (.var ..) => (.error ⟨.notAFunction name, site⟩, s)
    | none => (.error ⟨.undeclared name, site⟩, s)

/-- The function being lowered; without one there is nowhere to put a block. -/
def enclosingFunction (site : Construct) : Lower σ V S F F :=
  Stateful.ofFn fun s =>
    match s.function with
    | some f => (.ok f, s)
    | none => (.error (Refusal.noInsertBlock.diagnose site), s)

/-- Runs a step with `f` as the function being lowered. -/
def inFunction {α : Type} (f : F) (body : Lower σ V S F α) : Lower σ V S F α :=
  Stateful.ofFn fun s =>
    let (r, t) := body.exec { s with function := some f }
    (r, { t with function := s.function })

end Lower

end ImpLower
