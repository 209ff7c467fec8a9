import ImpLower.Emitter

/-!
# Recording emitters

A recorder passes everything on to another emitter and keeps a log. It can be told to refuse one
request by its number, which shows what lowering does when an emitter fails in the middle.
-/

namespace ImpLower

/-- An entry of a log. Every way to use an emitter has one. -/
inductive Event (V S B F : Type) where
  | request (r : Request V S B F)
  | addBlock (f : F) (label : String)
  | moveTo (block : B)
  | isClosed
  | parameters (f : F)

/-- The request to refuse, counted from zero, and what to say. -/
structure Injection where
  index : Nat
  message : String

structure Recorder (σ V S B F : Type) where
  inner : σ
  log : Array (Event V S B F) := #[]
  requests : Nat := 0
  injection : Option Injection := none

namespace Recorder

variable {σ V S B F M : Type}

def record (r : Recorder σ V S B F) (event : Event V S B F) : Recorder σ V S B F :=
  { r with log := r.log.push event }

/-- What to answer to the request at hand instead of passing it on. -/
def refusal? (r : Recorder σ V S B F) : Option Refusal :=
  match r.injection with
  | some injection =>
      if injection.index = r.requests then some (.backend injection.message) else none
  | none => none

variable [Emitter σ V S B F M]

/-- Logs a request, then refuses it or passes it on. -/
def perform (r : Request V S B F) : Stateful Refusal (Recorder σ V S B F) (r.Reply M) :=
  Stateful.ofFn fun s =>
    let noted := { s.record (.request r) with requests := s.requests + 1 }
    match s.refusal? with
    | some refusal => (.error refusal, noted)
    | none =>
        let (result, inner) := (Emitter.perform r).exec s.inner
        (result, { noted with inner })

instance : Emitter (Recorder σ V S B F) V S B F M where
  perform := perform
  addBlock f label s :=
    let (block, inner) := Emitter.addBlock f label s.inner
    (block, { s.record (.addBlock f label) with inner })
  moveTo block s :=
    { s.record (.moveTo block) with inner := Emitter.moveTo block s.inner }
  isClosed s :=
    let (closed, inner) := Emitter.isClosed s.inner
    (closed, { s.record .isClosed with inner })
  parameters f s :=
    let (values, inner) := Emitter.parameters f s.inner
    (values, { s.record (.parameters f) with inner })

end Recorder

end ImpLower
