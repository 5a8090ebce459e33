import Toktier.Chunked.Planner
import Toktier.Routing.Router

/-!
# Chunk-parallel encoding

A long text is cut by the planner and its chunks are encoded by a pool of workers, each chunk
through the guarded gate. Every job takes a worker from the pool or forks one, encodes its
chunk and gives the worker back; the rows are concatenated in the order of the chunks. A text
that is not cut is encoded serially.

The jobs take their two steps in any order: a list of job numbers says whose turn it is, and
jobs that are not finished by then are finished in turn. The first job that fails decides the
error.

## Main definitions

* `Jobs`, with `tick`, `run`: the jobs of a plan.
* `ChunkEngine`, with `chunkedEncodeIds`: the engine with its planner.
* `routedChunkedEncodeIds`: the same behind the router.
-/
namespace Toktier.Chunked

open Toktier.Lib Toktier.Lib.Utf8 Toktier.StoreCore Toktier.Routing

def R_CHUNK_NO_CUT : String := "R_CHUNK_NO_CUT"
def R_CHUNK_FAMILY_UNSUPPORTED : String := "R_CHUNK_FAMILY_UNSUPPORTED"
def R_CHUNK_ROUTE_NOT_FAST_CPU : String := "R_CHUNK_ROUTE_NOT_FAST_CPU"

/-! ## Jobs -/

/-- The ids of one chunk, where they come from, and whether its worker was forked for it. -/
structure ChunkRow where
  ids : List UInt32
  source : FastEncodeSource
  cold : Bool

/-- How far the job of one chunk is. -/
inductive JobSlot (W : Type)
  | Waiting
  | Held (worker : W) (cold : Bool)
  | Done (outcome : Decode EngineError ChunkRow)

/-- The jobs of a plan, one slot for each chunk, and the workers that are free. -/
structure Jobs (W : Type) where
  free : List W
  forked : ℕ
  slots : List (JobSlot W)
  failed : Option (Fault EngineError)

namespace Jobs

variable {W : Type} (fast : CorrectedCpu W) (primary : Mutex W) (text : Text)

def start (free : List W) (forked chunks : ℕ) : Jobs W :=
  ⟨free, forked, List.replicate chunks .Waiting, none⟩

/-- A job ends. -/
def finish (jobs : Jobs W) (i : ℕ) (outcome : Decode EngineError ChunkRow) : Jobs W :=
  { jobs with
    slots := jobs.slots.set i (.Done outcome)
    failed := match outcome with
      | .ok _ => jobs.failed
      | .error e => jobs.failed.or (some e) }

/-- Take a free worker, or fork one. -/
def checkout (jobs : Jobs W) (i : ℕ) : Jobs W :=
  match jobs.free with
  | worker :: free => { jobs with free := free, slots := jobs.slots.set i (.Held worker false) }
  | [] =>
      match primary.lock "Gigatoken cache mutex is poisoned" with
      | .error e => jobs.finish i (.error (.Reject e))
      | .ok engine => { jobs with
          forked := jobs.forked + 1
          slots := jobs.slots.set i (.Held (fast.fork engine) true) }

/-- Encode the chunk and give the worker back. -/
def encode (jobs : Jobs W) (i : ℕ) (span : ℕ × ℕ) (worker : W) (cold : Bool) : Jobs W :=
  match (strSlice text span.1 span.2 : Decode EngineError Text) with
  | .error e => jobs.finish i (.error e)
  | .ok chunk =>
      let (outcome, worker) := fast.fullIdsWithSource chunk worker
      let row := outcome.map fun encoded => (⟨encoded.1, encoded.2, cold⟩ : ChunkRow)
      { jobs with free := worker :: jobs.free }.finish i (checked row)

/-- The turn of job `i`. -/
def tick (spans : List (ℕ × ℕ)) (jobs : Jobs W) (i : ℕ) : Jobs W :=
  match spans[i]?, jobs.slots[i]? with
  | some _, some .Waiting => jobs.checkout fast primary i
  | some span, some (.Held worker cold) => jobs.encode fast text i span worker cold
  | _, _ => jobs

/-- The row of a finished job. -/
def rowOf : JobSlot W → Option ChunkRow
  | .Done (.ok row) => some row
  | _ => none

/-- Run the jobs, with the turns in some order until all are done. -/
def run (order : List ℕ) (spans : List (ℕ × ℕ)) (jobs : Jobs W) : Jobs W :=
  (order ++ (List.range spans.length).flatMap fun i => [i, i]).foldl (tick fast primary text spans) jobs

/-- The rows in the order of the chunks, or the first failure. -/
def collect (jobs : Jobs W) : Decode EngineError (List ChunkRow) :=
  match jobs.failed with
  | some e => .error e
  | none => .ok (jobs.slots.filterMap rowOf)

end Jobs

/-! ## The engine -/

/-- Core-stream ids produced by the chunked route, with its counters. -/
structure ChunkedIds where
  ids : List UInt32
  chunks : ℕ
  kRequested : ℕ
  cuts : List ℕ
  cutMisses : ℕ
  literalRejects : ℕ
  normRejects : ℕ
  serialReason : Option String
  belowThreshold : Bool
  sources : List FastEncodeSource
  rowBytes : List ℕ
  coldForks : ℕ

/-- The corrected CPU engine with the document its planner reads. -/
structure ChunkEngine (W : Type) where
  fast : CorrectedCpu W
  document : Json
  literals : List Text

/-- The workers of the engine, and the free ones of its chunk pool. -/
structure ChunkState (W : Type) where
  cpu : CpuState W
  free : List W
  forked : ℕ

namespace ChunkEngine

variable {W : Type} (engine : ChunkEngine W)

/-- The planner of the engine. -/
def encoder : ChunkEncoder :=
  .new engine.document engine.literals engine.fast.boundary engine.fast.reference.toReferenceEngine

/-- Encode without cutting, and say why. -/
def serial (text : Text) (k : ℕ) (reason : Option String) (below : Bool) (plan : Option ChunkPlan) :
    Fallible (ChunkState W) (Fault EngineError) ChunkedIds := do
  let (ids, source) ← zoomIn ChunkState.cpu (fun cpu st => { st with cpu := cpu })
    (engine.fast.encodeIdsWithSource text)
  return { ids := ids, chunks := 1, kRequested := k, cuts := []
           cutMisses := (plan.map ChunkPlan.cutMisses).getD 0
           literalRejects := (plan.map ChunkPlan.literalRejects).getD 0
           normRejects := (plan.map ChunkPlan.normRejects).getD 0
           serialReason := reason, belowThreshold := below, sources := [source]
           rowBytes := [utf8Len text], coldForks := 0 }

/-- Encode in certified chunks, with the jobs taking turns in some order. -/
def chunkedEncodeIds (A : AhoCorasick) (order : List ℕ) (text : Text) (k : ℕ) (minChunk : Option ℕ)
    (scanBudget : ℕ) : Fallible (ChunkState W) (Fault EngineError) ChunkedIds := do
  throwIf (scanBudget = 0) (.Reject ⟨"scan_budget must be a positive integer"⟩)
  let total := countChars text
  if ¬engine.encoder.admitted = true then
    engine.serial text k (some R_CHUNK_FAMILY_UNSUPPORTED) false none
  else if k ≤ 1 ∨ total < MIN_TEXT_CHARS then engine.serial text k none true none
  else do
    let plan ← fromExcept (engine.encoder.planCounted A text total k minChunk scanBudget)
    if plan.spans.length = 1 then engine.serial text k (some R_CHUNK_NO_CUT) false (some plan)
    else do
      let st ← get
      let jobs := (Jobs.start st.free st.forked plan.byteSpans.length).run engine.fast st.cpu.primary
        text order plan.byteSpans
      set { st with free := jobs.free, forked := jobs.forked }
      let rows ← fromExcept jobs.collect
      return { ids := (rows.map ChunkRow.ids).flatten, chunks := rows.length, kRequested := k
               cuts := plan.cuts, cutMisses := plan.cutMisses
               literalRejects := plan.literalRejects, normRejects := plan.normRejects
               serialReason := none, belowThreshold := false
               sources := rows.map ChunkRow.source
               rowBytes := plan.byteSpans.map fun span => span.2 - span.1
               coldForks := rows.countP ChunkRow.cold }

end ChunkEngine

/-! ## The router -/

/-- What the chunked requests of a router change. -/
structure ChunkRouterState (W : Type) where
  router : RouterState W
  free : List W
  forked : ℕ

section
variable {W : Type} (router : NativeRouter W) (document : Json) (literals : List Text)

/-- A request of the router, in the state with the chunk pool. -/
def onRouter {α : Type} (m : Request W α) : Fallible (ChunkRouterState W) (Fault EngineError) α :=
  zoomIn ChunkRouterState.router (fun router st => { st with router := router }) m

/-- A request of the CPU engine, in the state of the router. -/
def onChunks {α : Type} (m : Fallible (ChunkState W) (Fault EngineError) α) :
    Fallible (ChunkRouterState W) (Fault EngineError) α :=
  zoomIn (fun st => ⟨st.router.cpu, st.free, st.forked⟩)
    (fun chunks st => ⟨{ st.router with cpu := chunks.cpu }, chunks.free, chunks.forked⟩) m

/-- Record the execution of one chunk. -/
def recordChunk (start : ℕ) (source : FastEncodeSource) (bytes : ℕ) : Request W Unit :=
  match source with
  | .Gigatoken => router.recordExecution BACKEND_FAST_CPU bytes start (some "gigatoken")
      (some "gigatoken_full")
  | source => do
      let (path, _) ← router.fastCpuReferencePath source
      router.recordExecution BACKEND_REFERENCE bytes start none (some path)

/-- The chunked route; a text that starts elsewhere than at the corrected CPU engine takes the
normal route. -/
def routedChunkedEncodeIds (A : AhoCorasick) (order : List ℕ) (text : Text) (k : ℕ)
    (minChunk : Option ℕ) (scanBudget : ℕ) :
    Fallible (ChunkRouterState W) (Fault EngineError) ChunkedIds := do
  let start := router.startIndex (utf8Len text)
  let first ← fromExcept (getAt router.chain start)
  match router.fastCpu, first with
  | some fast, .FastCpu => do
      let encoded ← onChunks ((ChunkEngine.mk fast document literals).chunkedEncodeIds A order text k
        minChunk scanBudget)
      (encoded.sources.zip encoded.rowBytes).forM fun (source, bytes) =>
        onRouter (recordChunk router start source bytes)
      return encoded
  | _, _ => do
      let routed ← onRouter (router.routeIdsInternal text)
      return { ids := routed.ids, chunks := 1, kRequested := k, cuts := [], cutMisses := 0
               literalRejects := 0, normRejects := 0
               serialReason := some R_CHUNK_ROUTE_NOT_FAST_CPU, belowThreshold := false
               sources := [], rowBytes := [utf8Len text], coldForks := 0 }

end

end Toktier.Chunked
