import Toktier.Routing.Router
import Mathlib.Data.Char

/-!
# The route plan

Planning is a pure function from facts to an immutable plan. Each accelerated backend is put
through the checks in their order; a check that fails refuses the backend, unless the policy
waives it or admits it as a gap of coverage. The eligible backends form the chain, with the
reference backend behind them.

A check reads the facts only, so the calls of `refuse` are listed first, and the policy then
decides how far the list is run.

## Main definitions

* `ProbeSnapshot`, `RegistryView`: the facts.
* `assessCalls`: the refusals of the checks, in order.
* `assessBackend`, `assessmentsFor`, `plan`: the policy over them.
-/
namespace Toktier.Routing.Plan

open Toktier.Chunked

/-! ## Reasons and policies -/

inductive ReasonCode
  | R_POLICY_REFERENCE
  | R_UNCERTIFIED_ARTIFACT
  | R_ORACLE_MISMATCH
  | R_BACKEND_UNAVAILABLE
  | R_GPU_DISABLED
  | R_NO_GPU_DETECTED
  | R_ACCELERATOR_NOT_ADOPTED
  | R_DRIVER_TOO_OLD
  | R_SM_UNCERTIFIED
  | R_KERNEL_DIGEST_MISMATCH
  | R_KERNEL_BUILD_FAILED
  | R_ENGINE_BINDING_MISMATCH
  | R_LOADER_FACE_MISMATCH
  deriving DecidableEq

/-- One recorded reason. -/
structure PlanReason where
  code : ReasonCode
  backend : String
  detail : List (String × Json)

inductive RoutingPolicy
  | SUPPORTED
  | CERTIFIED
  | REFERENCE
  | REQUIRE_ACCELERATED
  | EXPERIMENTAL
  deriving DecidableEq

/-- Whether the policy runs a device or toolchain nobody judged. -/
def RoutingPolicy.admitsUnjudgedDevice (policy : RoutingPolicy) : Bool :=
  policy = .SUPPORTED || policy = .REQUIRE_ACCELERATED

def STATUS_CERTIFIED : String := "certified"
def STATUS_CERTIFIED_SOURCE : String := "certified_source"
def STATUS_EXPERIMENTAL : String := "experimental"
def STATUS_UNSUPPORTED : String := "unsupported"
def ELIGIBLE_STATUSES : List String := [STATUS_CERTIFIED, STATUS_CERTIFIED_SOURCE]

def ENGINE_DELIVERY : String := "integrated"
def ENGINE_MODULE : String := "toktier._native"

/-! ## Facts -/

/-- The binding set of a backend, or of one delivery of it. -/
structure Binding where
  status : String
  binary_digest : Option String
  source_digest : Option String
  class_table_digest : Option String
  build_flags : List String
  toolchain : Option String
  host_source_digest : Option String
  host_build_flags : List String
  host_toolchain : Option String
  devices : List String
  driver_min : Option String
  engine : Option String
  engine_version : Option String
  engine_delivery : Option String
  engine_module : Option String
  config_id : Option String
  config_digest : Option String

/-- Certification entry of one backend. A delivery is not refined further. -/
structure BackendEntry extends Binding where
  deliveries : List (String × Binding)

structure ArtifactRecord where
  pipeline_id : String
  added_frontend_id : String
  oracle_id : String
  backends : List (String × BackendEntry)
  loader_face_sha256 : Option String

/-- An artifact resolved to a record. -/
structure CertificationMatch where
  record : ArtifactRecord
  identity : String
  /-- The missing evidence of an examined artifact. -/
  examined : Option (List String)

structure OracleRecord where
  certified_versions : List String

structure RegistryView where
  oracles : List (String × OracleRecord)

def RegistryView.oracle (registry : RegistryView) (oracle_id : String) : Option OracleRecord :=
  registry.oracles.lookup oracle_id

structure FastCpuEngineFacts where
  version : Option String
  source_digest : Option String
  build_flags : List String
  toolchain : Option String
  config_digest : Option String

structure KernelCacheState where
  build_failed : Bool
  build_error : Option String
  binary_digest : Option String
  source_digest : Option String
  class_table_digest : Option String
  build_flags : List String
  toolchain : Option String
  host_source_digest : Option String
  host_build_flags : List String
  host_toolchain : Option String
  delivery : Option String
  preferred_delivery : Option String
  prebuilt_available : Bool
  toolchain_satisfied : Option Bool
  loaded_flag_sets : ℤ

structure ProbeSnapshot where
  family : String
  artifact_sha256 : Option String
  oracle_package : String
  oracle_version : Option String
  loader_face_sha256 : Option String
  importable_backends : List String
  /-- The architectures of the devices. -/
  devices : List String
  devices_probed : Bool
  driver_version : Option String
  kernel_cache : KernelCacheState
  fast_cpu_engine : FastCpuEngineFacts
  certification : Option CertificationMatch

structure Config where
  disable_gpu : Bool

/-- The Unicode digits of the runtime: which characters are digits, and the number that a run of
digits reads as, where it reads as one. -/
class DigitTables where
  isdigit : Char → Bool
  int : List Char → Option ℕ

/-! ## Calls -/

/-- What a check does: it refuses the backend, or the run ends with an error of the runtime. -/
inductive Call
  | refuse (reason : PlanReason) (waivable coverage noted : Bool)
  | raises (error : String)

/-- `if c: call`. -/
def callIf (c : Prop) [Decidable c] (call : Call) : List Call := if c then [call] else []

/-- A refusal that only `EXPERIMENTAL` may waive. -/
def refusal (reason : PlanReason) (waivable : Bool) : Call := .refuse reason waivable false false

def jstr : Option String → Json
  | some text => .str text
  | none => .null

def jlist (items : List String) : Json := .arr (items.map .str)

/-! ## Versions -/

section Versions

variable [DigitTables]

/-- Leading dotted-numeric part of a version; an error where a run of digits is no number. -/
def versionParts : List (List Char) → Except String (List ℕ)
  | [] => .ok []
  | chunk :: chunks =>
      let digits := chunk.takeWhile DigitTables.isdigit
      if digits = [] then .ok []
      else
        match DigitTables.int digits with
        | none => .error "invalid literal for int() with base 10"
        | some part => (versionParts chunks).map (part :: ·)

def versionTuple (value : String) : Except String (Option (List ℕ)) :=
  (versionParts (value.toList.splitOn '.')).map fun parts => if parts = [] then none else some parts

/-- Whether the installed driver meets the certified minimum. -/
def driverSatisfies (installed : Option String) (minimum : String) : Except String Bool := do
  match installed with
  | none => return false
  | some installed =>
      let left ← versionTuple installed
      let right ← versionTuple minimum
      match left, right with
      | some left, some right => return !decide (left < right)
      | _, _ => return false

end Versions

/-! ## Bindings -/

/-- Every engine-binding axis that does not verify, in order, with its detail. -/
def fastCpuBindingMismatches (entry : Binding) (facts : FastCpuEngineFacts) :
    List (String × List (String × Json)) :=
  (if entry.engine ≠ some "gigatoken" then
    [("engine", [("installed", .str "gigatoken"), ("certified", jstr entry.engine)])] else []) ++
  (if entry.engine_delivery ≠ some ENGINE_DELIVERY then
    [("engine_delivery", [("installed", .str ENGINE_DELIVERY), ("certified", jstr entry.engine_delivery)])]
    else []) ++
  (if entry.engine_module ≠ some ENGINE_MODULE then
    [("engine_module", [("installed", .str ENGINE_MODULE), ("certified", jstr entry.engine_module)])]
    else []) ++
  (if facts.version ≠ entry.engine_version then
    [("engine_version", [("installed", jstr facts.version), ("certified", jstr entry.engine_version)])]
    else []) ++
  (if entry.status ≠ STATUS_CERTIFIED_SOURCE then
    [("status", [("expected", .str STATUS_CERTIFIED_SOURCE), ("observed", .str entry.status)])] else []) ++
  (if facts.source_digest ≠ entry.source_digest then
    [("source_digest", [("expected_digest", jstr entry.source_digest),
      ("observed_digest", jstr facts.source_digest)])] else []) ++
  (if entry.config_id ≠ some "toktier-fast-repair-v1" then
    [("config_id", [("expected", .str "toktier-fast-repair-v1"), ("observed", jstr entry.config_id)])]
    else []) ++
  (if facts.config_digest ≠ entry.config_digest then
    [("config_digest", [("expected_digest", jstr entry.config_digest),
      ("observed_digest", jstr facts.config_digest)])] else [])

/-- The recipe axes that differ: build flags and toolchain. -/
def fastCpuRecipeDivergences (entry : Binding) (facts : FastCpuEngineFacts) :
    List (String × List (String × Json)) :=
  (if facts.build_flags ≠ entry.build_flags then
    [("build_flags", [("certified", jlist entry.build_flags), ("observed", jlist facts.build_flags)])]
    else []) ++
  (if facts.toolchain ≠ entry.toolchain then
    [("toolchain", [("certified", jstr entry.toolchain), ("observed", jstr facts.toolchain)])] else [])

/-- The driver floor, where it does not hold. -/
def driverMismatch [DigitTables] (entry : Binding) (driver_version : Option String) :
    Except String (List (ReasonCode × List (String × Json))) :=
  match entry.driver_min with
  | none => .ok []
  | some driver_min => do
      if ← driverSatisfies driver_version driver_min then return []
      else return [(.R_DRIVER_TOO_OLD, [("installed", jstr driver_version), ("required", .str driver_min)])]

/-- The bindings of the request host that do not verify. -/
def hostMismatches (entry : Binding) (cache : KernelCacheState) :
    List (ReasonCode × List (String × Json)) :=
  if entry.status = STATUS_CERTIFIED ∧ entry.host_source_digest ≠ none then
    (if cache.host_source_digest ≠ entry.host_source_digest then
      [(.R_KERNEL_DIGEST_MISMATCH, [("digest", .str "host_source"),
        ("expected_digest", jstr entry.host_source_digest),
        ("observed_digest", jstr cache.host_source_digest)])] else []) ++
    (if entry.host_build_flags ≠ cache.host_build_flags then
      [(.R_UNCERTIFIED_ARTIFACT, [("cause", .str "host_build_flags_mismatch"),
        ("certified", jlist entry.host_build_flags), ("observed", jlist cache.host_build_flags)])]
      else []) ++
    (if entry.host_toolchain ≠ cache.host_toolchain then
      [(.R_UNCERTIFIED_ARTIFACT, [("cause", .str "host_toolchain_mismatch"),
        ("certified", jstr entry.host_toolchain), ("observed", jstr cache.host_toolchain)])] else [])
  else []

/-- The entry of the kernel delivery in effect, where the record refines it. -/
def deliveryView (entry : BackendEntry) (snapshot : ProbeSnapshot) : Option Binding :=
  if entry.deliveries = [] then none
  else
    let cache := snapshot.kernel_cache
    let chosen := if cache.delivery ∈ [none, some ""] then cache.preferred_delivery else cache.delivery
    let active := chosen.getD
      (if cache.prebuilt_available ∧ (entry.deliveries.lookup "prebuilt").isSome then "prebuilt" else "jit")
    entry.deliveries.lookup active

/-- Label, certified digest and observed digest of what is to be verified. -/
def boundDigests (entry : Binding) (snapshot : ProbeSnapshot) :
    List (String × Option String × Option String) :=
  let cache := snapshot.kernel_cache
  if entry.status = STATUS_CERTIFIED then [("binary", entry.binary_digest, cache.binary_digest)]
  else if entry.status = STATUS_CERTIFIED_SOURCE then
    [("source", entry.source_digest, cache.source_digest),
      ("class_table", entry.class_table_digest, cache.class_table_digest)]
  else []

/-! ## The checks -/

/-- Checks 1 to 4: facts about the machine and the request. -/
def machineCalls (backend : String) (snapshot : ProbeSnapshot) (policy : RoutingPolicy)
    (config : Config) : List Call :=
  callIf (policy = .REFERENCE) (refusal ⟨.R_POLICY_REFERENCE, backend, []⟩ false) ++
  callIf (backend = BACKEND_GPU ∧ config.disable_gpu = true)
    (refusal ⟨.R_GPU_DISABLED, backend, [("source", .str "config")]⟩ false) ++
  callIf (backend ∉ snapshot.importable_backends)
    (refusal ⟨.R_BACKEND_UNAVAILABLE, backend, [("missing", .str backend)]⟩ false) ++
  callIf (backend = BACKEND_GPU ∧ snapshot.devices = [])
    (if snapshot.devices_probed then refusal ⟨.R_NO_GPU_DETECTED, backend, []⟩ false
      else refusal ⟨.R_ACCELERATOR_NOT_ADOPTED, backend,
        [("cause", .str "no_device_probe_supplied")]⟩ false)

/-- Check 5 without an entry. -/
def noEntryCalls (backend : String) (snapshot : ProbeSnapshot) : List Call :=
  [refusal ⟨.R_UNCERTIFIED_ARTIFACT, backend,
    [("cause", .str (if snapshot.certification.isNone then "no_record" else "no_backend_entry")),
      ("artifact_sha256", jstr snapshot.artifact_sha256), ("family", .str snapshot.family)]⟩
    -- without a record the fast path has no binding to run against
    (backend ≠ BACKEND_FAST_CPU)]

/-- Checks 5 and 5a: the status of the entry, and an artifact that was only examined. -/
def statusCalls (backend : String) (snapshot : ProbeSnapshot) (found : CertificationMatch)
    (entry : BackendEntry) : List Call :=
  if entry.status = STATUS_UNSUPPORTED then
    [refusal ⟨.R_UNCERTIFIED_ARTIFACT, backend,
      [("cause", .str "status_unsupported"), ("status", .str entry.status)]⟩ false]
  else if entry.status ∉ ELIGIBLE_STATUSES then
    [refusal ⟨.R_UNCERTIFIED_ARTIFACT, backend,
      [("cause", .str "status_not_eligible"), ("status", .str entry.status)]⟩
      (entry.status = STATUS_EXPERIMENTAL)]
  else if found.identity = "examined" then
    [.refuse ⟨.R_UNCERTIFIED_ARTIFACT, backend,
      [("cause", .str "examined_not_certified"), ("artifact_sha256", jstr snapshot.artifact_sha256),
        ("family", .str snapshot.family), ("pipeline_id", .str found.record.pipeline_id),
        ("added_frontend_id", .str found.record.added_frontend_id),
        ("missing_evidence", jlist (found.examined.getD []))]⟩ true true false]
  else []

/-- Check 5b: the delivery in effect. -/
def deliveryCalls (backend : String) (snapshot : ProbeSnapshot) (refined : Option Binding) : List Call :=
  match refined with
  | none => []
  | some view =>
      let cache := snapshot.kernel_cache
      callIf (view.status ∉ ELIGIBLE_STATUSES)
        (refusal ⟨.R_UNCERTIFIED_ARTIFACT, backend,
          [("cause", .str "delivery_status_not_eligible"),
            ("delivery", jstr (if cache.delivery ∈ [none, some ""] then cache.preferred_delivery
              else cache.delivery)), ("status", .str view.status)]⟩
          (view.status = STATUS_EXPERIMENTAL)) ++
      callIf (backend = BACKEND_GPU ∧ view.status = STATUS_CERTIFIED ∧
          (view.host_source_digest = none ∨ view.host_build_flags = [] ∨ view.host_toolchain = none))
        (refusal ⟨.R_UNCERTIFIED_ARTIFACT, backend,
          [("cause", .str "native_host_binding_missing"), ("delivery", .str "prebuilt")]⟩ true)

/-- Checks 6 to 8: the process, the oracle and the loader face. -/
def processCalls (backend : String) (snapshot : ProbeSnapshot) (registry : RegistryView)
    (record : ArtifactRecord) : List Call :=
  let certified_versions := ((registry.oracle record.oracle_id).map (·.certified_versions)).getD []
  callIf (backend = BACKEND_GPU ∧ 1 < snapshot.kernel_cache.loaded_flag_sets)
    (refusal ⟨.R_UNCERTIFIED_ARTIFACT, backend,
      [("cause", .str "multiple_kernel_flag_sets"),
        ("loaded_flag_sets", .num snapshot.kernel_cache.loaded_flag_sets)]⟩ true) ++
  callIf (snapshot.oracle_version ∉ certified_versions.map some)
    (refusal ⟨.R_ORACLE_MISMATCH, backend,
      [("package", .str snapshot.oracle_package), ("installed", jstr snapshot.oracle_version),
        ("certified", jlist certified_versions)]⟩ true) ++
  callIf (record.loader_face_sha256 ≠ none ∧ snapshot.loader_face_sha256 ≠ none ∧
      snapshot.loader_face_sha256 ≠ record.loader_face_sha256)
    (refusal ⟨.R_LOADER_FACE_MISMATCH, backend,
      [("expected_digest", jstr record.loader_face_sha256),
        ("observed_digest", jstr snapshot.loader_face_sha256)]⟩ true)

/-- Check 9: the engine of the fast path, and its recipe, which is reported only. -/
def engineCalls (backend : String) (entry : Binding) (facts : FastCpuEngineFacts) : List Call :=
  (fastCpuBindingMismatches entry facts).map (fun mismatch =>
    refusal ⟨.R_ENGINE_BINDING_MISMATCH, backend, ("axis", .str mismatch.1) :: mismatch.2⟩ true) ++
  (fastCpuRecipeDivergences entry facts).map fun divergence =>
    .refuse ⟨.R_ENGINE_BINDING_MISMATCH, backend,
      ("axis", .str divergence.1) :: ("cause", .str "recipe_unjudged") :: divergence.2⟩ true false true

/-- Check 14: build flags and toolchain of a source-certified view. -/
def recipeCalls (backend : String) (view : Binding) (cache : KernelCacheState) : List Call :=
  callIf (view.build_flags ≠ cache.build_flags)
    (refusal ⟨.R_UNCERTIFIED_ARTIFACT, backend,
      [("cause", .str "build_flags_mismatch"), ("certified", jlist view.build_flags),
        ("observed", jlist cache.build_flags)]⟩ true) ++
  callIf (view.toolchain ≠ none ∧ cache.toolchain_satisfied ≠ some true)
    (.refuse ⟨.R_UNCERTIFIED_ARTIFACT, backend,
      [("cause", .str "toolchain_unverified"), ("constraint", jstr view.toolchain),
        ("observed", jstr cache.toolchain)]⟩ true true false)

/-- The architectures, each once and in order. -/
def sortedArchitectures (snapshot : ProbeSnapshot) : List String :=
  snapshot.devices.dedup.mergeSort fun a b => decide (a ≤ b)

section

variable [DigitTables]

/-- Checks 10 to 14: the device and its kernel. -/
def kernelCalls (backend : String) (snapshot : ProbeSnapshot) (view : Binding) : List Call :=
  let cache := snapshot.kernel_cache
  callIf (view.devices ≠ [] ∧ ¬∃ architecture ∈ snapshot.devices, architecture ∈ view.devices)
    (.refuse ⟨.R_SM_UNCERTIFIED, backend,
      [("observed", jlist (sortedArchitectures snapshot)), ("certified", jlist view.devices)]⟩
      true true false) ++
  (match driverMismatch view snapshot.driver_version with
    | .error error => [.raises error]
    | .ok mismatches => mismatches.map fun mismatch =>
        refusal ⟨mismatch.1, backend, mismatch.2⟩ true) ++
  callIf (cache.build_failed = true)
    (refusal ⟨.R_KERNEL_BUILD_FAILED, backend, [("error", jstr cache.build_error)]⟩ false) ++
  ((boundDigests view snapshot).filter fun digest => digest.2.1 ≠ none ∧ digest.2.2 ≠ digest.2.1).map
    (fun digest => refusal ⟨.R_KERNEL_DIGEST_MISMATCH, backend,
      [("digest", .str digest.1), ("expected_digest", jstr digest.2.1),
        ("observed_digest", jstr digest.2.2)]⟩ true) ++
  (hostMismatches view cache).map (fun mismatch =>
    refusal ⟨mismatch.1, backend, mismatch.2⟩ true) ++
  (if view.status = STATUS_CERTIFIED_SOURCE then recipeCalls backend view cache else [])

/-- The calls of the checks, in order; the first that ends the run is the last one made. -/
def assessCalls (backend : String) (snapshot : ProbeSnapshot) (policy : RoutingPolicy)
    (registry : RegistryView) (config : Config) : List Call :=
  machineCalls backend snapshot policy config ++
  match snapshot.certification.bind fun found =>
      (found.record.backends.lookup backend).map (found, ·) with
  | none => noEntryCalls backend snapshot
  | some (found, entry) =>
      let refined := deliveryView entry snapshot
      statusCalls backend snapshot found entry ++ deliveryCalls backend snapshot refined ++
      processCalls backend snapshot registry found.record ++
      if backend = BACKEND_FAST_CPU then
        engineCalls backend entry.toBinding snapshot.fast_cpu_engine
      else kernelCalls backend snapshot (refined.getD entry.toBinding)

end

/-! ## The policy over the calls -/

/-- Result of evaluating one accelerated backend. -/
structure BackendAssessment where
  backend : String
  eligible : Bool
  blocking : Option PlanReason
  waived : List PlanReason
  supported : List PlanReason

/-- Run the calls: each is noted, waived, admitted as a gap of coverage, or ends the run. -/
def runCalls (backend : String) (policy : RoutingPolicy) :
    List Call → List PlanReason → List PlanReason → Except String BackendAssessment
  | [], waived, supported => .ok ⟨backend, true, none, waived, supported⟩
  | .raises error :: _, _, _ => .error error
  | .refuse reason waivable coverage noted :: calls, waived, supported =>
      if noted then runCalls backend policy calls waived (supported ++ [reason])
      else if waivable ∧ policy = .EXPERIMENTAL then
        runCalls backend policy calls (waived ++ [reason]) supported
      else if coverage ∧ policy.admitsUnjudgedDevice then
        runCalls backend policy calls waived (supported ++ [reason])
      else .ok ⟨backend, false, some reason, waived, supported⟩

section

variable [DigitTables]

def assessBackend (backend : String) (snapshot : ProbeSnapshot) (policy : RoutingPolicy)
    (registry : RegistryView) (config : Config) : Except String BackendAssessment :=
  runCalls backend policy (assessCalls backend snapshot policy registry config) [] []

/-- The backends that are considered. -/
def consideredBackends (snapshot : ProbeSnapshot) : List String :=
  BACKEND_GPU :: match snapshot.certification with
    | none => [BACKEND_FAST_CPU]
    | some found =>
        if (found.record.backends.lookup BACKEND_FAST_CPU).isSome then [BACKEND_FAST_CPU] else []

def assessmentsFor (snapshot : ProbeSnapshot) (policy : RoutingPolicy) (registry : RegistryView)
    (config : Config) : Except String (List BackendAssessment) :=
  (consideredBackends snapshot).mapM fun backend =>
    assessBackend backend snapshot policy registry config

end

/-- An immutable plan: the chain starts with the selected backend, ends with the reference backend
and names no backend twice. -/
structure RoutePlan where
  policy : RoutingPolicy
  backend : String
  fallback_chain : List String
  reasons : List PlanReason
  head : fallback_chain.head? = some backend
  last : fallback_chain.getLast? = some BACKEND_REFERENCE
  nodup : fallback_chain.Nodup

/-! ## Errors of planning -/

def ReasonCode.value : ReasonCode → String
  | .R_POLICY_REFERENCE => "R_POLICY_REFERENCE"
  | .R_UNCERTIFIED_ARTIFACT => "R_UNCERTIFIED_ARTIFACT"
  | .R_ORACLE_MISMATCH => "R_ORACLE_MISMATCH"
  | .R_BACKEND_UNAVAILABLE => "R_BACKEND_UNAVAILABLE"
  | .R_GPU_DISABLED => "R_GPU_DISABLED"
  | .R_NO_GPU_DETECTED => "R_NO_GPU_DETECTED"
  | .R_ACCELERATOR_NOT_ADOPTED => "R_ACCELERATOR_NOT_ADOPTED"
  | .R_DRIVER_TOO_OLD => "R_DRIVER_TOO_OLD"
  | .R_SM_UNCERTIFIED => "R_SM_UNCERTIFIED"
  | .R_KERNEL_DIGEST_MISMATCH => "R_KERNEL_DIGEST_MISMATCH"
  | .R_KERNEL_BUILD_FAILED => "R_KERNEL_BUILD_FAILED"
  | .R_ENGINE_BINDING_MISMATCH => "R_ENGINE_BINDING_MISMATCH"
  | .R_LOADER_FACE_MISMATCH => "R_LOADER_FACE_MISMATCH"

/-- The errors that planning raises. -/
inductive PlanError
  | OracleVersionUnsupported (message : String) (details : List (String × Json))
  | UnsupportedConfig (message : String) (details : List (String × Json))
  | BackendUnavailable (message : String) (details : List (String × Json))
  | CudaDriverTooOld (message : String) (details : List (String × Json))
  | KernelIncompatible (message : String) (details : List (String × Json))
  | UncertifiedTokenizer (message : String) (details : List (String × Json))
  | ValueError (message : String)

/-- `detail.get(key)`. -/
def PlanReason.get (reason : PlanReason) (key : String) : Json := (reason.detail.lookup key).getD .null

/-- The keys of a reason's detail that travel into the error. -/
def CARRIED_KEYS : List String :=
  ["cause", "installed", "certified", "package", "status", "axis", "expected_digest", "observed_digest"]

/-- The first blocking reason as its specific error. -/
def requireAcceleratedError (assessments : List BackendAssessment) (snapshot : ProbeSnapshot) :
    PlanError :=
  match (assessments.filterMap (·.blocking)).head? with
  | none => .BackendUnavailable "no accelerated backend is configured"
      [("backend", .null), ("missing", .null)]
  | some reason =>
      let backend := reason.backend
      match reason.code with
      | .R_GPU_DISABLED => .UnsupportedConfig
          "policy requires an accelerated backend while the configuration disables the GPU"
          [("option", .str "disable_gpu"), ("value", .bool true), ("reason", .str reason.code.value)]
      | .R_BACKEND_UNAVAILABLE => .BackendUnavailable s!"backend '{backend}' is not installed"
          [("backend", .str backend), ("missing", reason.get "missing")]
      | .R_NO_GPU_DETECTED => .BackendUnavailable s!"backend '{backend}' found no usable device"
          [("backend", .str backend), ("missing", .str "cuda_device")]
      | .R_ACCELERATOR_NOT_ADOPTED => .BackendUnavailable
          (s!"backend '{backend}' is not adopted on this path: device " ++
            "enumeration was not performed (the integrating layer supplied " ++
            "no device probe), so no accelerated backend could be planned; " ++
            "this says nothing about the machine's hardware")
          [("backend", .str backend), ("missing", .str "device_probe")]
      | .R_DRIVER_TOO_OLD => .CudaDriverTooOld "the installed driver is below the certified minimum"
          [("installed", reason.get "installed"), ("required", reason.get "required")]
      | .R_SM_UNCERTIFIED | .R_KERNEL_DIGEST_MISMATCH | .R_KERNEL_BUILD_FAILED => .KernelIncompatible
          "the kernel constraints did not verify for this configuration"
          [("backend", .str backend), ("reason_code", .str reason.code.value),
            ("sm", reason.get "observed"), ("expected_digest", reason.get "expected_digest"),
            ("observed_digest", reason.get "observed_digest"),
            ("class_table_digest", reason.get "digest")]
      | _ => .UncertifiedTokenizer "no certified accelerated path is eligible for this artifact"
          ([("artifact_sha256", jstr snapshot.artifact_sha256), ("family", .str snapshot.family),
            ("reason_code", .str reason.code.value)] ++
            reason.detail.filter fun item => item.1 ∈ CARRIED_KEYS)

/-! ## The plan -/

/-- `repr` of a tuple of plain names. -/
def reprTuple (items : List String) : String :=
  "(" ++ ", ".intercalate (items.map fun item => "'" ++ item ++ "'") ++
    (if items.length = 1 then ",)" else ")")

/-- The plan's own checks, in the source's order. -/
def RoutePlan.new (policy : RoutingPolicy) (backend : String) (chain : List String)
    (reasons : List PlanReason) : Except PlanError RoutePlan :=
  if chain = [] then .error (.ValueError "fallback_chain must not be empty")
  else if hlast : chain.getLast? = some BACKEND_REFERENCE then
    if hhead : chain.head? = some backend then
      if hnodup : chain.Nodup then .ok ⟨policy, backend, chain, reasons, hhead, hlast, hnodup⟩
      else .error (.ValueError
        ("fallback_chain " ++ reprTuple chain ++ " must not repeat a backend"))
    else .error (.ValueError
      (s!"the selected backend '{backend}' must be the head of " ++ "the fallback chain " ++
        reprTuple chain ++ ": execution starts there, and " ++
        "a plan must execute the backend it reports"))
  else .error (.ValueError "fallback_chain must end with the reference backend 'hf'")

/-- A plan that runs the reference backend and nothing else. -/
def referencePlan (policy : RoutingPolicy) (reasons : List PlanReason) : Except PlanError RoutePlan :=
  RoutePlan.new policy BACKEND_REFERENCE [BACKEND_REFERENCE] reasons

/-- The plan over its assessments. -/
def planOf (snapshot : ProbeSnapshot) (policy : RoutingPolicy) (assessments : List BackendAssessment) :
    Except PlanError RoutePlan :=
  let eligible := (assessments.filter (·.eligible)).map (·.backend)
  let reasons := assessments.filterMap (·.blocking)
  match eligible with
  | [] =>
      if policy = .REQUIRE_ACCELERATED then .error (requireAcceleratedError assessments snapshot)
      else referencePlan policy reasons
  | backend :: _ => RoutePlan.new policy backend (eligible ++ [BACKEND_REFERENCE]) reasons

/-- Build the route plan. -/
def plan [DigitTables] (snapshot : ProbeSnapshot) (policy : RoutingPolicy) (registry : RegistryView)
    (config : Config) : Except PlanError RoutePlan := do
  if BACKEND_REFERENCE ∉ snapshot.importable_backends then
    .error (.OracleVersionUnsupported
      (s!"the {snapshot.oracle_package} package is not installed, so the " ++
        "reference backend cannot run")
      [("package", .str snapshot.oracle_package), ("installed", jstr snapshot.oracle_version),
        ("certified", .null)])
  else
    let assessments ← (assessmentsFor snapshot policy registry config).mapError .ValueError
    planOf snapshot policy assessments

end Toktier.Routing.Plan
