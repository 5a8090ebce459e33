import Toktier.Lib.Decode
import Toktier.Lib.Fallible
import Toktier.Lib.Occurrences
import Toktier.Routing.Repair

/-!
# The guarded encode of the corrected CPU engine

Every full encode passes one gate. A text that may hold an added token is encoded by the
reference engine, which then decides; any other goes to the accelerated engine, whose row must
close over the bytes of the text, and back to the reference engine if it does not. The
accelerated engine memoizes, so it is a worker with a state: one behind a mutex for single
texts, and a pool that grows with the payload for batches. A mutex is poisoned when a request
panicked while it held it.

## Main definitions

* `IdReference`: the reference engine with its id rows and added tokens.
* `AddedTokenGate`: the cheap test for added tokens.
* `CorrectedCpu`, with `fullIdsWithSource`: the engine and its gate.
* `CpuState`, with `encodeIdsWithSource`, `encodeBatchIdsWithSource`: its workers.
-/
namespace Toktier.Routing

open Toktier.Lib Toktier.StoreCore

/-! ## The reference engine -/

/-- The reference engine with its id rows. -/
structure IdReference extends ReferenceEngine where
  encodeIds : Text → Bool → Except EngineError (List UInt32)
  encodeBatchIds : List Text → Bool → Except EngineError (List (List UInt32))
  /-- Id, content and normalization flag of each added token. -/
  addedTokens : List (UInt32 × Text × Bool)
  hasEffectiveNormalizer : Bool

namespace IdReference

variable (reference : IdReference)

def hasAddedId (ids : List UInt32) : Bool :=
  ids.any fun id => reference.addedTokens.any fun token => token.1 == id

/-- Encode once and report whether an added-token id occurred. -/
def encodeIdsWithAddedFlag (text : Text) : Except EngineError (List UInt32 × Bool) := do
  let ids ← reference.encodeIds text false
  return (ids, reference.hasAddedId ids)

/-- Whether the bytes of the ids close over the text. -/
def verifyIdsClose (text : Text) (ids : List UInt32) : Except EngineError Unit := do
  let byteLengths ← reference.rawByteLengths
  if ids = [] then
    if text = [] then .ok () else .error ⟨"tokenizer returned no ids for non-empty text"⟩
  else do
    let (_, cursor) ← byteIntervals byteLengths 0 ids
    if cursor ≠ utf8Len text then
      .error ⟨s!"token bytes do not close: tokens={cursor}, text={utf8Len text}"⟩
    else .ok ()

end IdReference

/-! ## The gate -/

/-- The added tokens that are matched on the text as written, and whether some is not. -/
structure AddedTokenGate where
  patterns : List Text
  routeEveryInput : Bool

namespace AddedTokenGate

def fromReference (reference : IdReference) : AddedTokenGate where
  routeEveryInput := reference.hasEffectiveNormalizer &&
    reference.addedTokens.any fun token => token.2.2 || token.2.1 == []
  patterns := (reference.addedTokens.filter fun token =>
    token.2.1 != [] && (!token.2.2 || !reference.hasEffectiveNormalizer)).map fun token => token.2.1

def mayMatch (gate : AddedTokenGate) (text : Text) : Bool :=
  gate.routeEveryInput || gate.patterns.any fun w =>
    (List.range (text.length + 1)).any fun position => decide (OccursAt w text position)

end AddedTokenGate

/-! ## The engine -/

/-- Which implementation produced one native full encode. -/
inductive FastEncodeSource
  | Gigatoken
  | ReferenceAddedToken
  | ReferenceEngineGuard
  deriving DecidableEq, Repr

/-- One corrected CPU engine; `W` is an accelerated engine with its memoization tables. -/
structure CorrectedCpu (W : Type) where
  spec : FastRepairSpec
  reference : IdReference
  boundary : BpeSyncBoundary
  /-- The id row of a text with added tokens. -/
  encodeFlat : W → Text → List UInt32 × W
  fork : W → W

namespace CorrectedCpu

variable {W : Type} (fast : CorrectedCpu W)

def addedGate : AddedTokenGate := .fromReference fast.reference

/-- The same engine without its workers. -/
def repair (worker : W) : FastCpuEngine :=
  ⟨fast.spec, fast.reference.toReferenceEngine, fast.boundary, fun text => (fast.encodeFlat worker text).1⟩

/-- The accelerated row, if its bytes close over the text. -/
def fastIdsWith (text : Text) (worker : W) : Except EngineError (List UInt32) × W :=
  match (fast.repair worker).requireByteIdentity text with
  | .error e => (.error e, worker)
  | .ok () =>
      let (ids, worker) := fast.encodeFlat worker text
      ((do fast.reference.verifyIdsClose text ids; return ids), worker)

/-- What the reference engine says of a text that may hold an added token. -/
def candidateReference (text : Text) : Except EngineError (Option (List UInt32 × Bool)) :=
  if fast.addedGate.mayMatch text then (fast.reference.encodeIdsWithAddedFlag text).map some
  else .ok none

/-- One full encode through the gate. -/
def fullIdsWithSource (text : Text) (worker : W) :
    Except EngineError (List UInt32 × FastEncodeSource) × W :=
  if fast.addedGate.routeEveryInput then
    ((fast.reference.encodeIds text false).map fun ids => (ids, .ReferenceAddedToken), worker)
  else match fast.candidateReference text with
    | .error e => (.error e, worker)
    | .ok (some (ids, true)) => (.ok (ids, .ReferenceAddedToken), worker)
    | .ok candidate =>
        match fast.fastIdsWith text worker with
        | (.ok ids, worker) => (.ok (ids, .Gigatoken), worker)
        | (.error _, worker) =>
            -- the candidate's encoding is kept, so the reference encodes once
            match candidate with
            | some (ids, _) => (.ok (ids, .ReferenceEngineGuard), worker)
            | none =>
                ((fast.reference.encodeIds text false).map fun ids => (ids, .ReferenceEngineGuard),
                  worker)

end CorrectedCpu

/-! ## The workers -/

/-- A value behind a lock. -/
structure Mutex (W : Type) where
  value : W
  poisoned : Bool

def Mutex.lock {W : Type} (mutex : Mutex W) (message : String) : Except EngineError W :=
  if mutex.poisoned then .error ⟨message⟩ else .ok mutex.value

/-- The primary worker, and the pool for batches. -/
structure CpuState (W : Type) where
  primary : Mutex W
  workers : List (Mutex W)
  poolPoisoned : Bool

/-- Payload that a further batch worker is worth. -/
def MIN_BYTES_PER_WORKER : ℕ := 64 * 1024

/-- Consecutive chunks of one size; the last may be shorter. -/
def parChunks {α : Type} (size : ℕ) (xs : List α) : List (List α) :=
  (List.range ((xs.length + size - 1) / size)).map fun i => (xs.drop (i * size)).take size

namespace CorrectedCpu

variable {W : Type} (fast : CorrectedCpu W)

/-- The workers of the pool a payload can use; missing ones are forked from the primary. -/
def batchWorkers (threads documents totalBytes : ℕ) :
    Fallible (CpuState W) (Fault EngineError) (List (Mutex W)) := do
  let useful := max 1 ((totalBytes + MIN_BYTES_PER_WORKER - 1) / MIN_BYTES_PER_WORKER)
  let required := min (min (max 1 threads) documents) useful
  let st ← get
  throwIf (st.poolPoisoned = true) (.Reject ⟨"Gigatoken worker pool is poisoned"⟩)
  if required ≤ st.workers.length then return st.workers.take required
  else do
    let engine ← fromExcept (checked (st.primary.lock "Gigatoken cache mutex is poisoned"))
    let workers := st.workers ++
      List.replicate (required - st.workers.length) ⟨fast.fork engine, false⟩
    set { st with workers := workers }
    return workers.take required

/-- The texts of one chunk, up to the first that fails. -/
def encodeChunk : W → List Text → Except EngineError (List (List UInt32 × FastEncodeSource)) × W
  | worker, [] => (.ok [], worker)
  | worker, text :: texts =>
      match fast.fullIdsWithSource text worker with
      | (.error e, worker) => (.error e, worker)
      | (.ok row, worker) =>
          let (rows, worker) := encodeChunk worker texts
          (rows.map (row :: ·), worker)

/-- Each chunk has a worker of its own, so they do not depend on one another. -/
def encodeChunks : List (Mutex W) → List (List Text) →
    Decode EngineError (List (List UInt32 × FastEncodeSource)) × List (Mutex W)
  | workers, [] => (.ok [], workers)
  | [], _ :: _ => (.error .Panic, [])
  | mutex :: workers, chunk :: chunks =>
      let (rest, workers) := encodeChunks workers chunks
      match mutex.lock "Gigatoken worker mutex is poisoned" with
      | .error e => (.error (.Reject e), mutex :: workers)
      | .ok worker =>
          let (rows, worker) := fast.encodeChunk worker chunk
          ((do
            let rows ← checked rows
            let rest ← rest
            return rows ++ rest), ⟨worker, false⟩ :: workers)

/-- A single text, on the primary worker. -/
def encodeIdsWithSource (text : Text) :
    Fallible (CpuState W) (Fault EngineError) (List UInt32 × FastEncodeSource) := do
  let st ← get
  let worker ← fromExcept (checked (st.primary.lock "Gigatoken cache mutex is poisoned"))
  let (outcome, worker) := fast.fullIdsWithSource text worker
  set { st with primary := ⟨worker, false⟩ }
  fromExcept (checked outcome)

/-- The rows of a batch, in order. -/
def encodeBatchIdsWithSource (threads : ℕ) (texts : List Text) :
    Fallible (CpuState W) (Fault EngineError) (List (List UInt32 × FastEncodeSource)) :=
  if texts = [] then return []
  else do
    let workers ← fast.batchWorkers threads texts.length (texts.map utf8Len).sum
    let chunkSize := (texts.length + workers.length - 1) / workers.length
    let (rows, used) := fast.encodeChunks workers (parChunks chunkSize texts)
    modify fun st => { st with workers := used ++ st.workers.drop workers.length }
    fromExcept rows

end CorrectedCpu

end Toktier.Routing
