import Toktier.Lib.Maps
import Toktier.Lib.Fallible
import Toktier.Lib.Hex
import Toktier.Lib.Sha256

/-!
# Direct compilation of kernels

One family is compiled for one device, or an earlier product of the same binding is taken from a
private cache. What a call establishes about its product is judged on its own axes; the product
comes from the cache with what an earlier call has written about it. The answers of the file
system, of the driver and of the compiler are part of the call.

## Main definitions

* `JitAxes`, `JitAssurance`: the axes of a binding, and what they establish.
* `BindingInput`, `bindingDigest`: what the cache key is the digest of.
* `CompileCall.admit`: the gates, before the cache is touched.
* `compileProduct`: one call on the cache.
-/
namespace Toktier.Facade.Jit

open Toktier.Lib

/-! ### Constants -/

def BINDING_DOMAIN : List UInt8 := utf8 "toktier.rust_jit_binding.v2".toList ++ [0]
def FATBIN_DOMAIN : List UInt8 := utf8 "toktier.kernel_fatbin.v1".toList ++ [0]
def MANIFEST_SCHEMA : String := "toktier.rust_jit_binding.v3"
def FROZEN_ORACLE_VERSION : String := "0.22.2"
def UNIT_NAME : String := "prebuilt_unit.cu"
def NORMALIZED_FLAGS : List String :=
  ["-fatbin", "-O3", "-std=c++17", "--expt-relaxed-constexpr", "-DTOKTIER_DEVICE_ONLY"]

def sha256Hex (bytes : List UInt8) : Text := hex (Sha256.digest bytes)

def domainSha256Hex (domain bytes : List UInt8) : Text := sha256Hex (domain ++ bytes)

/-! ### What a call is given -/

/-- Runtime certification policy. -/
inductive Policy
  | Supported
  | Certified
  | Reference
  | RequireAccelerated
  | Experimental
  deriving DecidableEq

def Policy.name : Policy → String
  | .Supported => "Supported"
  | .Certified => "Certified"
  | .Reference => "Reference"
  | .RequireAccelerated => "RequireAccelerated"
  | .Experimental => "Experimental"

def Policy.admitsUnjudgedDevice : Policy → Bool
  | .Supported | .RequireAccelerated => true
  | _ => false

inductive JitError
  | KernelIncompatible (message : String)
  | UncertifiedTokenizer (message : String)
  | UncertifiedJit (message : String)
  | JitCompileFailed (message : String)
  /-- The file system, the driver or the compiler has failed. -/
  | Environment
  deriving DecidableEq

/-- Identity of the selected compiler; paths are as they are displayed. -/
structure JitToolchainFacts where
  selectedPath : String
  resolvedPath : String
  release : String
  build : String
  compilerSha256 : String
  worldWritableComponent : Option String
  deriving DecidableEq

/-- One judged toolchain of the registry; a field that is no string is missing. -/
structure ToolchainRow where
  release : Option String
  build : Option String
  compilerSha256 : Option String
  architecture : Option String
  evidenceId : Option String

/-- The JIT delivery of a family in the registry. An array keeps a place for each value; a value
that is no string is missing there. -/
structure JitRow where
  classTableDigest : Option String
  directSourceDigest : Option String
  directHostSourceDigest : Option String
  directBuildFlags : Option (List (Option String))
  directDevices : Option (List (Option String))
  directToolchains : Option (List ToolchainRow)

/-- The certification row of a family. -/
structure Support where
  artifactSha256 : String
  oracleId : String
  evidenceId : String
  jit : Option JitRow

/-- What was built into the calling binary. -/
structure BuildFacts where
  sourceDigest : String
  hostSourceDigest : String
  toolchain : String
  /-- The build flags, which the environment variable joins by unit separators. -/
  flags : List String

/-- A device: compute capability and driver version. -/
structure CudaDevice where
  major : ℤ
  minor : ℤ
  driverVersion : ℤ

/-- The answers of the file system and of the compiler to one call. -/
structure Answers where
  /-- The directories are private ones, and the lock was taken in time. -/
  prepared : Bool
  /-- The files of a cached binding are regular ones and can be read. -/
  readable : Bool
  /-- A directory that is no good could be moved away. -/
  quarantined : Bool
  /-- The compiler's product, when it ends well. -/
  image : Option (List UInt8)
  /-- The staging directory could be written and renamed. -/
  published : Bool
  /-- The cache directory was synced after that. -/
  synced : Bool
  /-- The files can be read back. -/
  rereadable : Bool

/-- One call, with everything it depends on but the cache. -/
structure CompileCall where
  build : BuildFacts
  acceptUncertified : Bool
  maxProductBytes : ℕ
  family : String
  policy : Policy
  device : Option CudaDevice
  compiler : Except JitError JitToolchainFacts
  support : Option Support
  answers : Answers

/-! ### Axes and assurance -/

/-- What the compiler stage established about one product. -/
inductive JitAssurance
  | Certified
  | Unjudged
  | Experimental
  deriving DecidableEq

/-- The word one assurance is written as. -/
def assuranceWord : JitAssurance → String
  | .Certified => "certified"
  | .Unjudged => "supported_untested"
  | .Experimental => "experimental"

/-- The same, read back; an unknown word is the most restrictive of the three. -/
def assuranceFromWord (word : String) : JitAssurance :=
  if word = "certified" then .Certified
  else if word = "supported_untested" then .Unjudged
  else .Experimental

@[simp] theorem assuranceFromWord_word (a : JitAssurance) :
    assuranceFromWord (assuranceWord a) = a := by
  cases a <;> decide

/-- The axes a binding is judged on. -/
structure JitAxes where
  sourceMatches : Bool
  hostMatches : Bool
  flagsMatch : Bool
  deviceJudged : Bool
  toolchainEvidence : Option String

namespace JitAxes

def coreAxesHold (axes : JitAxes) : Bool :=
  axes.sourceMatches && axes.hostMatches && axes.flagsMatch

/-- The evidence, when every axis is an admitted binding. -/
def admittedEvidence (axes : JitAxes) : Option String :=
  if axes.coreAxesHold && axes.deviceJudged then axes.toolchainEvidence else none

/-- The axes a refusal names, in the order a reader can act on. -/
def refusal (axes : JitAxes) (unsafeComponent : Bool) : String :=
  let reasons :=
    (if unsafeComponent then ["a component of the compiler toolchain is world-writable"] else []) ++
    (if axes.sourceMatches then [] else ["the CUDA source in this binary is not the judged one"]) ++
    (if axes.hostMatches then [] else ["the Rust CUDA host source is not the judged one"]) ++
    (if axes.flagsMatch then [] else ["the compiler flags are not the judged ones"]) ++
    (if axes.deviceJudged then [] else
      ["no campaign judged a direct-JIT product on this device"]) ++
    (if axes.toolchainEvidence.isSome then [] else
      ["this compiler release and build are not a judged toolchain"])
  if reasons = [] then "every axis is an admitted binding" else "; ".intercalate reasons

/-- The product is certified: there is evidence, and nobody can rewrite the compiler. -/
def certified (axes : JitAxes) (unsafeComponent : Bool) : Bool :=
  axes.admittedEvidence.isSome && !unsafeComponent

/-- A core axis that disagrees, or a component anyone can rewrite, is a waiver question; a pair
nobody has judged is a coverage question. -/
def assurance (axes : JitAxes) (unsafeComponent : Bool) : JitAssurance :=
  if axes.certified unsafeComponent then .Certified
  else if axes.coreAxesHold && !unsafeComponent then .Unjudged
  else .Experimental

theorem certified_iff (axes : JitAxes) (unsafeComponent : Bool) :
    axes.certified unsafeComponent = true ↔ axes.assurance unsafeComponent = .Certified := by
  unfold assurance
  split_ifs with h <;> simp [h]

end JitAxes

/-- The evidence of the first judged toolchain that is this compiler on this architecture. -/
def ToolchainRow.evidenceFor (row : ToolchainRow) (compiler : JitToolchainFacts)
    (architecture : String) : Option String :=
  if row.release = some compiler.release ∧ row.build = some compiler.build ∧
      row.compilerSha256 = some compiler.compilerSha256 ∧ row.architecture = some architecture then
    row.evidenceId.filter (· ≠ "")
  else none

def directAxes (jit : JitRow) (sourceDigest : String) (compiler : JitToolchainFacts)
    (architecture hostSourceDigest : String) : JitAxes where
  sourceMatches := jit.directSourceDigest = some sourceDigest
  hostMatches := jit.directHostSourceDigest = some hostSourceDigest
  flagsMatch := jit.directBuildFlags.any fun values => values.filterMap id = NORMALIZED_FLAGS
  deviceJudged := jit.directDevices.any fun values => values.contains (some architecture)
  toolchainEvidence := jit.directToolchains.bind fun rows =>
    rows.findSome? fun row => row.evidenceFor compiler architecture

/-! ### The binding -/

/-- What identifies a product. -/
structure BindingInput where
  sourceDigest : String
  compilerPath : String
  compilerSha256 : String
  compilerRelease : String
  compilerBuild : String
  normalizedArguments : List String
  architecture : String
  driverApiVersion : ℤ
  rustHostSourceDigest : String
  rustToolchain : String
  rustBuildFlags : String
  family : String
  artifactSha256 : String
  oracleId : String
  oracleVersion : String
  artifactEvidenceId : String
  jitEvidenceId : Option String
  classTableDigest : String
  certified : Bool
  deriving DecidableEq

/-! #### As JSON -/

/-- A character of a JSON string. -/
def jsonChar (c : Char) : Text :=
  if c = '"' then ['\\', '"']
  else if c = '\\' then ['\\', '\\']
  else if c.toNat = 8 then ['\\', 'b']
  else if c.toNat = 9 then ['\\', 't']
  else if c.toNat = 10 then ['\\', 'n']
  else if c.toNat = 12 then ['\\', 'f']
  else if c.toNat = 13 then ['\\', 'r']
  else if c.toNat < 32 then "\\u00".toList ++ hex [UInt8.ofNat c.toNat]
  else [c]

def jsonString (s : String) : Text := '"' :: s.toList.flatMap jsonChar ++ ['"']

def jsonOption : Option String → Text
  | some s => jsonString s
  | none => "null".toList

def jsonBool (b : Bool) : Text := if b then "true".toList else "false".toList

def jsonList (values : List Text) : Text := '[' :: [','].intercalate values ++ [']']

def jsonObject (fields : List (String × Text)) : Text :=
  '\x7b' :: [','].intercalate (fields.map fun p => jsonString p.1 ++ ':' :: p.2) ++ ['\x7d']

/-- The fields in the order they are declared in, without blanks. -/
def BindingInput.json (b : BindingInput) : Text :=
  jsonObject
    [("source_digest", jsonString b.sourceDigest), ("compiler_path", jsonString b.compilerPath),
     ("compiler_sha256", jsonString b.compilerSha256),
     ("compiler_release", jsonString b.compilerRelease),
     ("compiler_build", jsonString b.compilerBuild),
     ("normalized_arguments", jsonList (b.normalizedArguments.map jsonString)),
     ("architecture", jsonString b.architecture),
     ("driver_api_version", (toString b.driverApiVersion).toList),
     ("rust_host_source_digest", jsonString b.rustHostSourceDigest),
     ("rust_toolchain", jsonString b.rustToolchain),
     ("rust_build_flags", jsonString b.rustBuildFlags), ("family", jsonString b.family),
     ("artifact_sha256", jsonString b.artifactSha256), ("oracle_id", jsonString b.oracleId),
     ("oracle_version", jsonString b.oracleVersion),
     ("artifact_evidence_id", jsonString b.artifactEvidenceId),
     ("jit_evidence_id", jsonOption b.jitEvidenceId),
     ("class_table_digest", jsonString b.classTableDigest), ("certified", jsonBool b.certified)]

def bindingDigest (b : BindingInput) : Text := domainSha256Hex BINDING_DOMAIN (utf8 b.json)

/-- The flags and the output of the compiler, with the architecture filled in. -/
def normalizedArguments (number : String) : List String :=
  NORMALIZED_FLAGS ++ [s!"-gencode=arch=compute_{number},code=sm_{number}",
    "<source>/" ++ UNIT_NAME, "-o", "<output>/kernel.fatbin"]

/-! ### The gates -/

/-- What a call has established when it turns to the cache. -/
structure Admission where
  device : CudaDevice
  architecture : String
  compiler : JitToolchainFacts
  support : Support
  assurance : JitAssurance
  /-- The axes that keep the binding from being an admitted one. -/
  refusal : String
  warning : Option String
  binding : BindingInput

namespace CompileCall

variable (c : CompileCall)

/-- The device's number in the names of its architecture. -/
def number (device : CudaDevice) : String := s!"{device.major}{device.minor}"

/-- What the axes of a call establish. -/
def admission (device : CudaDevice) (compiler : JitToolchainFacts) (support : Support)
    (jit : JitRow) : Admission :=
  let architecture := "sm_" ++ number device
  let axes := directAxes jit c.build.sourceDigest compiler architecture c.build.hostSourceDigest
  let unsafeComponent := compiler.worldWritableComponent.isSome
  let assurance := axes.assurance unsafeComponent
  let refusal := axes.refusal unsafeComponent
  { device, architecture, compiler, support, assurance, refusal
    warning :=
      if assurance = .Experimental then some
        (s!"UNCERTIFIED JIT OPT-IN: direct NVCC {compiler.release} {compiler.build} for " ++
          s!"{architecture} is not an admitted TokTier binding " ++
          s!"({refusal}); outputs remain outside the certified exact-ID guarantee")
      else none
    binding :=
      { sourceDigest := c.build.sourceDigest
        compilerPath := compiler.resolvedPath
        compilerSha256 := compiler.compilerSha256
        compilerRelease := compiler.release
        compilerBuild := compiler.build
        normalizedArguments := normalizedArguments (number device)
        architecture
        driverApiVersion := device.driverVersion
        rustHostSourceDigest := c.build.hostSourceDigest
        rustToolchain := c.build.toolchain
        rustBuildFlags := "\x1f".intercalate c.build.flags
        family := c.family
        artifactSha256 := support.artifactSha256
        oracleId := support.oracleId
        oracleVersion := FROZEN_ORACLE_VERSION
        artifactEvidenceId := support.evidenceId
        jitEvidenceId := axes.admittedEvidence
        classTableDigest := jit.classTableDigest.getD ""
        certified := axes.certified unsafeComponent } }

/-- The refusals of a call, on what its axes establish. -/
def refuse (a : Admission) : Except JitError Unit :=
  if a.assurance = .Experimental ∧ c.acceptUncertified = false then
    .error (.UncertifiedJit (s!"direct JIT is fail-closed for NVCC {a.compiler.release} " ++
      s!"{a.compiler.build} on {a.architecture}: {a.refusal}. No cache was created. Explicitly " ++
      "construct JitCompiler::builder().accept_uncertified_jit(true), or run " ++
      s!"`toktier-rust gpu compile {c.family} --accept-uncertified-jit` for an experimental " ++
      "one-shot build"))
  else if a.assurance = .Unjudged ∧ c.policy.admitsUnjudgedDevice = false ∧
      c.acceptUncertified = false then
    .error (.UncertifiedJit (s!"NVCC {a.compiler.release} {a.compiler.build} on " ++
      s!"{a.architecture} is not a judged pair: {a.refusal}. The source, the Rust host and the " ++
      "build flags are the judged ones, so Policy::Supported compiles here and labels the " ++
      s!"route supported; policy {c.policy.name} admits only judged pairs and no cache was " ++
      "created"))
  else .ok ()

end CompileCall

/-- Everything before the cache: the device, the compiler, the registry, the two refusals. -/
def CompileCall.admit (c : CompileCall) : Except JitError Admission := do
  let device ← c.device.elim (.error (.KernelIncompatible "no CUDA context")) .ok
  let compiler ← c.compiler
  let support ← c.support.elim
    (.error (.UncertifiedTokenizer ("family \"" ++ c.family ++ "\" has no certification row"))) .ok
  let jit ← support.jit.elim
    (.error (.KernelIncompatible ("family \"" ++ c.family ++ "\" has no JIT delivery"))) .ok
  let a := c.admission device compiler support jit
  c.refuse a
  return a

/-! ### The cache -/

/-- What stands beside a cached product. -/
structure BindingManifest where
  schema : String
  bindingDigest : Text
  sourceDigest : String
  compilerPath : String
  compilerSha256 : String
  compilerRelease : String
  compilerBuild : String
  normalizedArguments : List String
  architecture : String
  driverApiVersion : ℤ
  rustHostSourceDigest : String
  rustToolchain : String
  rustBuildFlags : List String
  family : String
  artifactSha256 : String
  oracleId : String
  oracleVersion : String
  artifactEvidenceId : String
  jitEvidenceId : Option String
  classTableDigest : String
  productFile : String
  productSha256 : Text
  productDomainDigest : Text
  productSize : ℕ
  certified : Bool
  assurance : String
  experimentalWaiver : Option String

/-- The binding a manifest states. -/
def BindingManifest.binding (m : BindingManifest) : BindingInput where
  sourceDigest := m.sourceDigest
  compilerPath := m.compilerPath
  compilerSha256 := m.compilerSha256
  compilerRelease := m.compilerRelease
  compilerBuild := m.compilerBuild
  normalizedArguments := m.normalizedArguments
  architecture := m.architecture
  driverApiVersion := m.driverApiVersion
  rustHostSourceDigest := m.rustHostSourceDigest
  rustToolchain := m.rustToolchain
  rustBuildFlags := "\x1f".intercalate m.rustBuildFlags
  family := m.family
  artifactSha256 := m.artifactSha256
  oracleId := m.oracleId
  oracleVersion := m.oracleVersion
  artifactEvidenceId := m.artifactEvidenceId
  jitEvidenceId := m.jitEvidenceId
  classTableDigest := m.classTableDigest
  certified := m.certified

/-- A directory of the cache. -/
structure CacheEntry where
  manifest : BindingManifest
  product : List UInt8

/-- The cache directory; a binding's own directory is named by half of its digest. -/
abbrev Cache := AList fun _ : Text => CacheEntry

def directoryName (digest : Text) : Text := digest.take 32

/-- A verified product, and the public facts about it. -/
structure JitArtifact where
  family : String
  artifactSha256 : String
  oracleId : String
  oracleVersion : String
  artifactEvidenceId : String
  jitEvidenceId : Option String
  architecture : String
  productSha256 : Text
  domainDigest : Text
  bindingDigest : Text
  certified : Bool
  assurance : String
  cacheHit : Bool
  compiler : JitToolchainFacts
  warning : Option String

structure JitProduct where
  image : List UInt8
  architecture : String
  device : CudaDevice
  domainDigest : Text
  assurance : JitAssurance
  facts : JitArtifact

/-- The shape of a manifest and its product, and the digests that bind them. -/
def verifyManifest (entry : CacheEntry) (expectedBindingDigest : Text) : Except JitError Unit :=
  let m := entry.manifest
  if m.schema ≠ MANIFEST_SCHEMA ∨ m.bindingDigest ≠ expectedBindingDigest ∨
      bindingDigest m.binding ≠ expectedBindingDigest ∨ m.productFile ≠ "kernel.fatbin" ∨
      entry.product.length ≠ m.productSize then
    .error (.JitCompileFailed "JIT cache manifest or product shape is invalid")
  else if sha256Hex entry.product ≠ m.productSha256 ∨
      domainSha256Hex FATBIN_DOMAIN entry.product ≠ m.productDomainDigest then
    .error (.JitCompileFailed "JIT cache product digest mismatch")
  else .ok ()

/-- The manifest's facts are those of the current request. -/
def Admission.matchesManifest (a : Admission) (m : BindingManifest) : Prop :=
  m.family = a.binding.family ∧ m.architecture = a.architecture ∧
    m.driverApiVersion = a.device.driverVersion ∧ m.compilerSha256 = a.compiler.compilerSha256 ∧
    m.compilerPath = a.compiler.resolvedPath

instance (a : Admission) (m : BindingManifest) : Decidable (a.matchesManifest m) := by
  unfold Admission.matchesManifest
  infer_instance

/-- The product of a cached binding: the labels are those of its manifest. -/
def Admission.cachedProduct (a : Admission) (entry : CacheEntry) : JitProduct where
  image := entry.product
  architecture := a.architecture
  device := a.device
  domainDigest := entry.manifest.productDomainDigest
  assurance := assuranceFromWord entry.manifest.assurance
  facts :=
    { family := a.binding.family
      artifactSha256 := entry.manifest.artifactSha256
      oracleId := entry.manifest.oracleId
      oracleVersion := entry.manifest.oracleVersion
      artifactEvidenceId := entry.manifest.artifactEvidenceId
      jitEvidenceId := entry.manifest.jitEvidenceId
      architecture := a.architecture
      productSha256 := entry.manifest.productSha256
      domainDigest := entry.manifest.productDomainDigest
      bindingDigest := bindingDigest a.binding
      certified := entry.manifest.certified
      assurance := entry.manifest.assurance
      cacheHit := true
      compiler := a.compiler
      warning := a.warning }

/-- Read a binding's directory, and check all of it. -/
def readCached (maxProductBytes : ℕ) (readable : Bool) (a : Admission) (cache : Cache) :
    Except JitError JitProduct :=
  match cache.lookup (directoryName (bindingDigest a.binding)) with
  | none => .error .Environment
  | some entry =>
    if readable = false then .error .Environment
    else do
      verifyManifest entry (bindingDigest a.binding)
      if ¬a.matchesManifest entry.manifest then
        .error (.JitCompileFailed "cached JIT binding facts do not match the current request")
      else if maxProductBytes < entry.product.length then
        .error (.JitCompileFailed "file is special or exceeds the configured bound")
      else .ok (a.cachedProduct entry)

namespace CompileCall

variable (c : CompileCall)

/-- The manifest of a fresh product. -/
def manifest (a : Admission) (image : List UInt8) : BindingManifest where
  schema := MANIFEST_SCHEMA
  bindingDigest := bindingDigest a.binding
  sourceDigest := a.binding.sourceDigest
  compilerPath := a.compiler.resolvedPath
  compilerSha256 := a.compiler.compilerSha256
  compilerRelease := a.compiler.release
  compilerBuild := a.compiler.build
  normalizedArguments := a.binding.normalizedArguments
  architecture := a.architecture
  driverApiVersion := a.device.driverVersion
  rustHostSourceDigest := c.build.hostSourceDigest
  rustToolchain := c.build.toolchain
  rustBuildFlags := c.build.flags
  family := c.family
  artifactSha256 := a.support.artifactSha256
  oracleId := a.support.oracleId
  oracleVersion := FROZEN_ORACLE_VERSION
  artifactEvidenceId := a.support.evidenceId
  jitEvidenceId := a.binding.jitEvidenceId
  classTableDigest := a.binding.classTableDigest
  productFile := "kernel.fatbin"
  productSha256 := sha256Hex image
  productDomainDigest := domainSha256Hex FATBIN_DOMAIN image
  productSize := image.length
  certified := a.binding.certified
  assurance := assuranceWord a.assurance
  experimentalWaiver := a.warning

/-- Compile, publish the binding's directory, and read it back. -/
def buildUncached (a : Admission) : Fallible Cache JitError JitProduct := do
  let image ← fromExcept (c.answers.image.elim (.error .Environment) .ok)
  throwIf (image = [] ∨ c.maxProductBytes < image.length) (.JitCompileFailed
    "NVCC product is absent, special, empty, or exceeds the configured bound")
  let entry : CacheEntry := ⟨c.manifest a image, image⟩
  fromExcept (verifyManifest entry (bindingDigest a.binding))
  throwIf (c.answers.published = false) .Environment
  modify fun cache => cache.insert (directoryName (bindingDigest a.binding)) entry
  throwIf (c.answers.synced = false) .Environment
  let cache ← get
  let product ← fromExcept (readCached c.maxProductBytes c.answers.rereadable a cache)
  return { product with facts := { product.facts with cacheHit := false } }

/-- The part of a call that works on the cache. -/
def fromCache (a : Admission) : Fallible Cache JitError JitProduct := do
  throwIf (c.answers.prepared = false) .Environment
  let cache ← get
  match readCached c.maxProductBytes c.answers.readable a cache with
  | .ok product => pure product
  | .error _ => do
    -- whatever is there is no good: it is moved away
    if (cache.lookup (directoryName (bindingDigest a.binding))).isSome then
      throwIf (c.answers.quarantined = false) .Environment
      set (cache.erase (directoryName (bindingDigest a.binding)))
    c.buildUncached a

end CompileCall

/-- One call on the cache. -/
def compileProduct (c : CompileCall) : Fallible Cache JitError JitProduct := do
  let a ← fromExcept c.admit
  c.fromCache a

/-- The cache after a call, whether it returned or failed. -/
def Cache.after (cache : Cache) (c : CompileCall) : Cache :=
  match (compileProduct c).run cache with
  | .ok _ cache' => cache'
  | .error _ cache' => cache'

/-- The cache after a sequence of calls. -/
def Cache.afterAll (cache : Cache) (calls : List CompileCall) : Cache := calls.foldl Cache.after cache

end Toktier.Facade.Jit
