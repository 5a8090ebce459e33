import Toktier.Chunked.Admission
import Toktier.Routing.Guarded

/-!
# The native router

A router tries the backends of its chain in order, from the first whose threshold the text
reaches. A fault of the GPU or of the corrected CPU engine sends the text to the next backend;
a text with an added token goes to the reference engine at once. Events and executions are
counted. A batch is routed stage by stage, all rows of a stage in one call of the backend, and
its executions are counted in the caller's order.

The GPU engine is opened by the first text that reaches it, and the outcome is kept.

## Main definitions

* `NativeRouter`: the chain, its thresholds and its engines.
* `RouterState`: what requests change.
* `routeIdsInternal`, `encodeIds`: one text.
* `encodeBatchIds`: a batch.
-/
namespace Toktier.Routing

open Toktier.Lib Toktier.StoreCore Toktier.Chunked

/-! ## Names -/

def BACKEND_GPU : String := "gpu"
def BACKEND_FAST_CPU : String := "fast_cpu"
def BACKEND_REFERENCE : String := "hf"

def R_INPUT_ADDED_TOKEN : String := "R_INPUT_ADDED_TOKEN"
def R_INPUT_BELOW_GPU_THRESHOLD : String := "R_INPUT_BELOW_GPU_THRESHOLD"
def R_INPUT_GUARD_ROUTED : String := "R_INPUT_GUARD_ROUTED"
def R_EXEC_FAULT : String := "R_EXEC_FAULT"
def R_INPUT_POSTPROCESS_ROUTED : String := "R_INPUT_POSTPROCESS_ROUTED"

inductive BackendKind
  | Gpu
  | FastCpu
  | Reference
  deriving DecidableEq, Repr

def BackendKind.asStr : BackendKind → String
  | Gpu => BACKEND_GPU
  | FastCpu => BACKEND_FAST_CPU
  | Reference => BACKEND_REFERENCE

/-! ## The GPU engine -/

/-- An error of the native runtime. -/
structure NativeRuntimeError where
  msg : String
  deriving DecidableEq

/-- The request surface of a GPU engine. -/
structure NativeGpuEngine where
  encodeIds : Text → Except NativeRuntimeError (List UInt32)
  encodeBatchIds : List Text → List (Except NativeRuntimeError (List UInt32))
  delivery : String

/-- A GPU engine that is opened on first use. -/
structure GpuCell where
  /-- What opening gives. -/
  opener : Option (Except NativeRuntimeError NativeGpuEngine)
  engine : Option (Except NativeRuntimeError NativeGpuEngine)

/-- The engine, opening it on first use, and the cell behind that. -/
def GpuCell.get (cell : GpuCell) : Except NativeRuntimeError NativeGpuEngine × GpuCell :=
  match cell.engine with
  | some engine => (engine, cell)
  | none =>
      let engine := cell.opener.getD
        (.error ⟨"the deferred native GPU opener was already consumed"⟩)
      (engine, ⟨none, some engine⟩)

/-! ## The ledger -/

structure RuntimeEvent where
  code : String
  backend : String
  target : String
  detail : List (String × Json)

structure Execution where
  inputBytes : ℕ
  selectedStart : String
  executedBackend : String
  source : Option String
  path : Option String
  deriving DecidableEq

structure RuntimeStats where
  fallbackCounts : String → ℕ
  executionCounts : String → ℕ
  events : List RuntimeEvent
  lastExecution : Option Execution

def RuntimeStats.default : RuntimeStats := ⟨fun _ => 0, fun _ => 0, [], none⟩

/-- One more of a key. -/
def increment (counts : String → ℕ) (key : String) : String → ℕ :=
  fun key' => if key' = key then counts key' + 1 else counts key'

/-- The ids of a text, and where they come from. -/
structure RoutedIds where
  ids : List UInt32
  backend : String
  source : Option String
  path : Option String
  /-- The routing decision that put the text on this backend. -/
  reason : Option String
  deriving DecidableEq

/-! ## The router -/

/-- A route: the chain ends with the reference engine, names no backend twice, and has an engine
for each backend it names. -/
structure NativeRouter (W : Type) where
  chain : List BackendKind
  thresholds : List ℕ
  reference : IdReference
  fastCpu : Option (CorrectedCpu W)
  hasGpu : Bool
  postprocessorAddsTokens : Bool
  diagnostics : Bool
  threads : ℕ
  length_thresholds : thresholds.length = chain.length
  getLast?_chain : chain.getLast? = some .Reference
  nodup_chain : chain.Nodup
  hasGpu_of_mem : .Gpu ∈ chain → hasGpu = true
  fastCpu_of_mem : .FastCpu ∈ chain → fastCpu.isSome = true
  getLast?_thresholds : thresholds.getLast? = some 0

/-- What the requests of a router change. -/
structure RouterState (W : Type) where
  stats : RuntimeStats
  gpu : Option GpuCell
  cpu : CpuState W

/-- A request. -/
abbrev Request (W α : Type) := Fallible (RouterState W) (Fault EngineError) α

/-- A step that fails with an error of the engine. -/
def raise {W α : Type} (x : Except EngineError α) : Request W α := fromExcept (checked x)

namespace NativeRouter

variable {W : Type} (router : NativeRouter W)

def added : AddedTokenGate := .fromReference router.reference

/-- The first backend whose threshold the text reaches. -/
def startIndex (inputBytes : ℕ) : ℕ :=
  (router.thresholds.findIdx? fun threshold => decide (threshold ≤ inputBytes)).getD
    (router.chain.length - 1)

/-- The name of the backend at an index. -/
def backendAt (index : ℕ) : Request W String := do
  let backend ← fromExcept (getAt router.chain index)
  return backend.asStr

def recordEvent (code backend target : String) (detail : List (String × Json)) : Request W Unit :=
  modify fun st => { st with
    stats := { st.stats with
      fallbackCounts := increment st.stats.fallbackCounts code
      events := if router.diagnostics then st.stats.events ++ [⟨code, backend, target, detail⟩]
        else st.stats.events } }

def recordExecution (backend : String) (inputBytes selectedStart : ℕ) (source path : Option String) :
    Request W Unit := do
  let start ← router.backendAt selectedStart
  modify fun st => { st with
    stats := { st.stats with
      executionCounts := increment st.stats.executionCounts backend
      lastExecution := some ⟨inputBytes, start, backend, source, path⟩ } }

/-- The ids of a text that has an added token. -/
def exactAddedReferenceIds (text : Text) : Except EngineError (Option (List UInt32)) :=
  if router.added.mayMatch text then do
    let (ids, hasAdded) ← router.reference.encodeIdsWithAddedFlag text
    return if hasAdded then some ids else none
  else .ok none

/-- Record the crossover decision and return its code. -/
def belowGpuThresholdEvent (inputBytes start : ℕ) : Request W (Option String) :=
  if router.chain.head? = some .Gpu ∧ 0 < start then do
    let target ← router.backendAt start
    let threshold ← fromExcept (getAt router.thresholds 0)
    router.recordEvent R_INPUT_BELOW_GPU_THRESHOLD BACKEND_GPU target
      [("input_bytes", .num inputBytes), ("threshold_bytes", .num threshold)]
    return some R_INPUT_BELOW_GPU_THRESHOLD
  else return none

/-- A fault of one text on one backend. -/
def faultEvent (backend : String) (index : ℕ) (detail : List (String × Json)) : Request W Unit := do
  let target ← router.backendAt (index + 1)
  router.recordEvent R_EXEC_FAULT backend target detail

def gpuFaultEvent (index : ℕ) (error : NativeRuntimeError) : Request W Unit :=
  router.faultEvent BACKEND_GPU index
    [("error", .str "NativeGpuError"), ("message", .str error.msg), ("scope", .str "input")]

def gpuOpenFaultEvent (index : ℕ) (error : NativeRuntimeError) : Request W Unit :=
  router.faultEvent BACKEND_GPU index
    [("error", .str "NativeGpuOpenError"), ("message", .str error.msg), ("scope", .str "engine"),
      ("stage", .str "engine_open")]

def fastCpuFaultEvent (index : ℕ) (error : EngineError) : Request W Unit :=
  router.faultEvent BACKEND_FAST_CPU index
    [("error", .str "FastCpuEngineError"), ("message", .str error.msg), ("scope", .str "input")]

/-- The ledger facts of an outcome of the CPU engine that the reference engine produced. -/
def fastCpuReferencePath (source : FastEncodeSource) : Request W (String × String) :=
  match source with
  | .ReferenceAddedToken => do
      router.recordEvent R_INPUT_ADDED_TOKEN BACKEND_FAST_CPU BACKEND_REFERENCE []
      return ("hf_added_token", R_INPUT_ADDED_TOKEN)
  | .ReferenceEngineGuard => do
      router.recordEvent R_INPUT_GUARD_ROUTED BACKEND_FAST_CPU BACKEND_REFERENCE
        [("stage", .str "engine_guard")]
      return ("hf_engine_guard", R_INPUT_GUARD_ROUTED)
  | .Gigatoken => throw .Panic

/-- The GPU engine. -/
def gpuEngine : Request W (Except NativeRuntimeError NativeGpuEngine) := do
  let st ← get
  match st.gpu with
  | none => throw .Panic
  | some cell => do
      set { st with gpu := some cell.get.2 }
      return cell.get.1

/-- The corrected CPU engine. -/
def fastEngine : Request W (CorrectedCpu W) :=
  match router.fastCpu with
  | none => throw .Panic
  | some fast => return fast

/-- Run a request of the CPU engine; its error is returned as a value. -/
def onCpu {α : Type} (m : Fallible (CpuState W) (Fault EngineError) α) :
    Request W (Except EngineError α) := fun st =>
  match m.run st.cpu with
  | .ok a cpu => .ok (.ok a) { st with cpu := cpu }
  | .error (.Reject e) cpu => .ok (.error e) { st with cpu := cpu }
  | .error .Panic cpu => .error .Panic { st with cpu := cpu }

/-! ### One text -/

/-- The backends from an index on. -/
def routeFrom (text : Text) (start : ℕ) : List ℕ → Option String → Request W RoutedIds
  | [], _ => throw (.Reject ⟨"native fallback chain terminated without hf"⟩)
  | index :: rest, reason => do
      let backend ← fromExcept (getAt router.chain index)
      match backend with
      | .Gpu => do
          let engine ← gpuEngine
          match engine with
          | .error error => do
              router.gpuOpenFaultEvent index error
              routeFrom text start rest (some R_EXEC_FAULT)
          | .ok gpu =>
              match gpu.encodeIds text with
              | .ok ids => do
                  router.recordExecution BACKEND_GPU (utf8Len text) start (some gpu.delivery)
                    (some "gpu_full")
                  return ⟨ids, BACKEND_GPU, some gpu.delivery, some "gpu_full", reason⟩
              | .error error => do
                  router.gpuFaultEvent index error
                  routeFrom text start rest (some R_EXEC_FAULT)
      | .FastCpu => do
          let fast ← router.fastEngine
          let outcome ← onCpu (fast.encodeIdsWithSource text)
          match outcome with
          | .error error => do
              router.fastCpuFaultEvent index error
              routeFrom text start rest (some R_EXEC_FAULT)
          | .ok (ids, .Gigatoken) => do
              router.recordExecution BACKEND_FAST_CPU (utf8Len text) start (some "gigatoken")
                (some "gigatoken_full")
              return ⟨ids, BACKEND_FAST_CPU, some "gigatoken", some "gigatoken_full", reason⟩
          | .ok (ids, source) => do
              let (path, code) ← router.fastCpuReferencePath source
              router.recordExecution BACKEND_REFERENCE (utf8Len text) start none (some path)
              return ⟨ids, BACKEND_REFERENCE, none, some path, some code⟩
      | .Reference => do
          let ids ← raise (router.reference.encodeIds text false)
          router.recordExecution BACKEND_REFERENCE (utf8Len text) start none (some "hf_full")
          return ⟨ids, BACKEND_REFERENCE, none, some "hf_full", reason⟩

/-- A text without special tokens. -/
def routeIdsInternal (text : Text) : Request W RoutedIds := do
  let start := router.startIndex (utf8Len text)
  let reason ← router.belowGpuThresholdEvent (utf8Len text) start
  let first ← fromExcept (getAt router.chain start)
  let added ← if first = .Reference then pure none else raise (router.exactAddedReferenceIds text)
  match added with
  | some ids => do
      router.recordEvent R_INPUT_ADDED_TOKEN first.asStr BACKEND_REFERENCE []
      router.recordExecution BACKEND_REFERENCE (utf8Len text) start none (some "hf_added_token")
      return ⟨ids, BACKEND_REFERENCE, none, some "hf_added_token", some R_INPUT_ADDED_TOKEN⟩
  | none => do
      let indices := List.range' start (router.chain.length - start)
      router.routeFrom text start indices reason

/-- The events of a text whose special tokens only the reference engine adds. -/
def postprocessEvents (start : ℕ) : Request W Unit :=
  (List.range' start (router.chain.length - 1 - start)).forM fun index => do
    let backend ← router.backendAt index
    let target ← router.backendAt (index + 1)
    router.recordEvent R_INPUT_POSTPROCESS_ROUTED backend target
      [("error", .str "BackendExecutionFault"),
        ("message", .str "the accelerated path produces the core stream"),
        ("scope", .str "input"), ("stage", .str "add_special_tokens")]

/-- One text. -/
def encodeIds (text : Text) (addSpecialTokens : Bool) : Request W RoutedIds :=
  if addSpecialTokens && router.postprocessorAddsTokens then do
    let start := router.startIndex (utf8Len text)
    router.postprocessEvents start
    let ids ← raise (router.reference.encodeIds text true)
    router.recordExecution BACKEND_REFERENCE (utf8Len text) start none (some "hf_postprocessed")
    return ⟨ids, BACKEND_REFERENCE, none, some "hf_postprocessed", some R_INPUT_POSTPROCESS_ROUTED⟩
  else router.routeIdsInternal text

/-! ### A batch -/

/-- One row of a batch: its text, the backend it starts at and the one it is to try next, its
reason so far, and its result. -/
structure Row where
  text : Text
  start : ℕ
  next : ℕ
  reason : Option String
  output : Option RoutedIds

/-- Resolve the added tokens of a row before the rows are grouped. -/
def openRow (text : Text) : Request W Row := do
  let start := router.startIndex (utf8Len text)
  let reason ← router.belowGpuThresholdEvent (utf8Len text) start
  let first ← fromExcept (getAt router.chain start)
  let added ← if first = .Reference then pure none else raise (router.exactAddedReferenceIds text)
  match added with
  | some ids => do
      router.recordEvent R_INPUT_ADDED_TOKEN first.asStr BACKEND_REFERENCE []
      return ⟨text, start, start, some R_INPUT_ADDED_TOKEN,
        some ⟨ids, BACKEND_REFERENCE, none, some "hf_added_token", some R_INPUT_ADDED_TOKEN⟩⟩
  | none => return ⟨text, start, start, reason, none⟩

/-- Whether the row is to be tried at a stage. -/
def Row.waitsAt (stage : ℕ) (row : Row) : Bool := row.output.isNone && row.next == stage

/-- Hand the results of a stage to the rows that waited for it, in order. -/
def deliver {α : Type} (stage : ℕ) (settle : Row → α → Request W Row) :
    List Row → List α → Request W (List Row)
  | [], _ => return []
  | row :: rows, results =>
      if row.waitsAt stage then
        match results with
        | [] => do
            let rows ← deliver stage settle rows []
            return row :: rows
        | result :: results => do
            let row ← settle row result
            let rows ← deliver stage settle rows results
            return row :: rows
      else do
        let rows ← deliver stage settle rows results
        return row :: rows

/-- The row goes on to the next stage. -/
def Row.pass (row : Row) : Row := { row with reason := some R_EXEC_FAULT, next := row.next + 1 }

def Row.finish (row : Row) (routed : RoutedIds) : Row := { row with output := some routed }

/-- What the GPU engine made of one row. -/
def settleGpu (stage : ℕ) (delivery : String) (row : Row)
    (result : Except NativeRuntimeError (List UInt32)) : Request W Row :=
  match result with
  | .ok ids => return row.finish ⟨ids, BACKEND_GPU, some delivery, some "gpu_full", row.reason⟩
  | .error error => do
      router.gpuFaultEvent stage error
      return row.pass

/-- What the CPU engine made of one row. -/
def settleFast (row : Row) (result : List UInt32 × FastEncodeSource) : Request W Row :=
  match result.2 with
  | .Gigatoken => do
      let routed : RoutedIds :=
        ⟨result.1, BACKEND_FAST_CPU, some "gigatoken", some "gigatoken_full", row.reason⟩
      return row.finish routed
  | source => do
      let (path, code) ← router.fastCpuReferencePath source
      return { row with
        reason := some code
        output := some ⟨result.1, BACKEND_REFERENCE, none, some path, some code⟩ }

/-- One stage, over the rows that wait for it. -/
def stage (rows : List Row) (index : ℕ) : Request W (List Row) := do
  let batch := (rows.filter (·.waitsAt index)).map Row.text
  if batch = [] then return rows
  else do
    let backend ← fromExcept (getAt router.chain index)
    match backend with
    | .Gpu => do
        let engine ← gpuEngine
        match engine with
        | .error error =>
            deliver index (fun row _ => do
              router.gpuOpenFaultEvent index error
              return row.pass) rows batch
        | .ok gpu =>
            let results := gpu.encodeBatchIds batch
            if results.length ≠ batch.length then
              throw (.Reject ⟨"native GPU batch returned the wrong row count"⟩)
            else deliver index (router.settleGpu index gpu.delivery) rows results
    | .FastCpu => do
        let fast ← router.fastEngine
        let outcome ← onCpu (fast.encodeBatchIdsWithSource router.threads batch)
        match outcome with
        | .ok results => deliver index router.settleFast rows results
        | .error error =>
            deliver index (fun row _ => do
              router.fastCpuFaultEvent index error
              return row.pass) rows batch
    | .Reference => do
        let results ← raise (router.reference.encodeBatchIds batch false)
        deliver index (fun row ids => do
          let routed : RoutedIds := ⟨ids, BACKEND_REFERENCE, none, some "hf_full", row.reason⟩
          return row.finish routed) rows results

/-- Record one execution for each row, in the caller's order. -/
def recordRows (rows : List Row) : Request W (List RoutedIds) := do
  match rows.mapM Row.output with
  | none => throw (.Reject ⟨"native batch route did not close"⟩)
  | some output => do
      (rows.zip output).forM fun (row, routed) =>
        router.recordExecution routed.backend (utf8Len row.text) row.start routed.source routed.path
      return output

/-- A batch whose special tokens only the reference engine adds. -/
def postprocessBatch (texts : List Text) : Request W (List RoutedIds) := do
  let rows ← raise (router.reference.encodeBatchIds texts true)
  (texts.zip rows).mapM fun (text, ids) => do
    let start := router.startIndex (utf8Len text)
    router.postprocessEvents start
    router.recordExecution BACKEND_REFERENCE (utf8Len text) start none (some "hf_postprocessed")
    return ⟨ids, BACKEND_REFERENCE, none, some "hf_postprocessed", some R_INPUT_POSTPROCESS_ROUTED⟩

/-- A batch. -/
def encodeBatchIds (texts : List Text) (addSpecialTokens : Bool) : Request W (List RoutedIds) :=
  if texts = [] then return []
  else if addSpecialTokens && router.postprocessorAddsTokens then router.postprocessBatch texts
  else do
    let rows ← texts.mapM router.openRow
    let rows ← (List.range router.chain.length).foldlM router.stage rows
    router.recordRows rows

end NativeRouter

end Toktier.Routing
