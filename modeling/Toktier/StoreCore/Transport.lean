import Toktier.StoreCore.Store

/-!
# Record transport

Export and import of nodes and of sessions. A record carries the stream, the stable
prefix's byte length and the tail's text, not the prefix's text; an import that is
handed a record alone, or with its sidecar, takes the missing text as the ghost
argument `sealedText`, on which nothing it computes depends.

## Main definitions

* `Store.importNodeItem`.
* `Store.exportSession`, `Store.exportSessionSidecar`, `Store.exportRecoveryBinding`,
  `Store.contentIndexEntry`.
* `Store.importRecordGates` and the import variants over it.
-/
namespace Toktier.StoreCore

open Toktier.Lib

variable [Digests]

/-- A session rebuilt from a record alone: the chain is detached and the character
origin restarts at the tail. -/
def detachedImportSession (keyId : ℕ) (parsed : SessionRecordV1) (sealedCount : ℕ)
    (tail : TailState) (clock : ℕ) (recovery : Option RecoveryDigest)
    (content : Option ContentDigest) (sealedText : Text) : Session :=
  { Session.fresh keyId parsed.witness clock with
    revision := parsed.revision.toNat
    prevRecordHash := parsed.prevBlockHash
    recordHash := parsed.currBlockHash
    lastReplaceFrom := parsed.replaceTokenOffset.toNat
    safeByte := parsed.stablePrefixBytes.toNat
    safeChar := 0
    totalChars := tail.textChars
    sealedPayload := PayloadHasher.new.updateIds (parsed.ids.take sealedCount)
    sealedIds := .fromVec (parsed.ids.take sealedCount)
    chainOk := false
    buf := []
    sealLog := [(0, sealedCount)]
    tail
    recovery
    content
    sealedText }

/-- A session rebuilt from a record and its sidecar. -/
def sidecarSession (keyId : ℕ) (parsed : SessionRecordV1) (sc : SessionSidecar) (sealedCount : ℕ)
    (tail : TailState) (clock : ℕ) (recovery : Option RecoveryDigest)
    (content : Option ContentDigest) (sealedText : Text) : Session :=
  { Session.fresh keyId parsed.witness clock with
    revision := parsed.revision.toNat
    prevRecordHash := parsed.prevBlockHash
    recordHash := parsed.currBlockHash
    lastReplaceFrom := sc.lastReplaceFrom
    totalChars := sc.totalChars
    safeChar := sc.safeChar
    safeByte := sc.safeByte
    sealedPayload := PayloadHasher.new.updateIds (parsed.ids.take sealedCount)
    sealedIds := .fromVec (parsed.ids.take sealedCount)
    blocksEnd := sc.blocksEnd
    blocksEndByte := sc.blocksEndByte
    buf := sc.buf
    chainTail := sc.chainTail
    chainBaseSafe := sc.chainBaseSafe
    chainBaseIdx := sc.chainBaseIdx
    chainOk := sc.chainOk
    sealLog := sc.sealLog
    scanFloor := sc.scanFloor
    tail
    recovery
    content
    sealedText }

namespace Session

/-- The portable record of a session. -/
def record (s : Session) (fingerprint : SemanticFingerprint) : SessionRecordV1 where
  fingerprint := fingerprint
  witness := s.witness
  revision := UInt64.ofNat s.revision
  prevBlockHash := s.prevRecordHash
  currBlockHash := s.recordHash
  stablePrefixBytes := UInt64.ofNat s.safeByte
  replaceTokenOffset := UInt64.ofNat s.recordedReplaceOffset
  ids := s.allIds
  tailText := s.tail.text

/-- The bookkeeping sidecar of a session. -/
def sidecar (s : Session) : SessionSidecar where
  recordCurrHash := s.recordHash
  totalChars := s.totalChars
  safeChar := s.safeChar
  safeByte := s.safeByte
  blocksEnd := s.blocksEnd
  blocksEndByte := s.blocksEndByte
  scanFloor := s.scanFloor
  chainBaseSafe := s.chainBaseSafe
  chainBaseIdx := s.chainBaseIdx
  chainTail := s.chainTail
  chainOk := s.chainOk
  sealedCount := s.sealedIds.len
  lastReplaceFrom := s.lastReplaceFrom
  buf := s.buf
  sealLog := s.sealLog

/-- The accumulators over `historicalText`, once a binding ties it to the session. -/
def verifiedTracking (s : Session) (historicalText : Text) (bindingBytes : List UInt8) :
    Except StoreError (RecoveryDigest × ContentDigest) := do
  let binding ← RecoveryBindingV1.fromBytes bindingBytes
  let representedBytes := s.safeByte + s.tail.textBytes
  let historicalBytes := utf8Len historicalText
  let recovery ← RecoveryDigest.fromText historicalText
  let material := recovery.material s.recordHash
  let content ← ContentDigest.fromBytes (utf8 historicalText)
  if binding.recordHash = s.recordHash ∧ historicalBytes = representedBytes ∧
      historicalBytes = binding.indexEntry.byteLength ∧ s.tail.text <:+ historicalText ∧
      binding.textDigest = material.textDigest ∧ binding.indexEntry = content.entry then
    .ok (recovery, content)
  else
    .error (malformed "TKFR-v1 does not bind historical text to the current session")

end Session

namespace Store

/-! ## Nodes -/

def countReject (S : Store) : Store :=
  { S with stats := { S.stats with importRejects := S.stats.importRejects + 1 } }

/-- Import one sealed node; `false`, counted, when it does not decode to its key. -/
def importNodeItem (key record : List UInt8) : Fallible Store StoreError Bool := do
  let S ← get
  let entry : Option NodeEntry := do
    let parsed ← (NodeCacheRecord.fromBytes record).toOption
    if parsed.key.bytes = key then (NodeEntry.create parsed).toOption else none
  match entry with
  | some e => do
      set { S with nodes := S.nodes.insert e.record.key e }
      return true
  | none => do
      set S.countReject
      return false

/-! ## Export -/

/-- Serialize one session as a record. -/
def exportSession (handle : ℕ) : Fallible Store StoreError (List UInt8) := do
  let sess ← session handle
  let key ← keyCtx sess.keyId
  fromExcept (sess.record key.fingerprint).toBytes

/-- Serialize the sidecar of one session. -/
def exportSessionSidecar (handle : ℕ) : Fallible Store StoreError (List UInt8) := do
  let sess ← session handle
  fromExcept sess.sidecar.toBytes

/-- Serialize the recovery binding, when both digests are kept. -/
def exportRecoveryBinding (handle : ℕ) : Fallible Store StoreError (Option (List UInt8)) := do
  let sess ← session handle
  match sess.recovery, sess.content with
  | some recovery, some content => do
      let material := recovery.material sess.recordHash
      throwIf (material.textBytes ≠ content.entry.byteLength)
        (internal "recovery and content-index byte lengths disagree")
      some <$> fromExcept
        (RecoveryBindingV1.fromStates sess.recordHash material.textDigest content).toBytes
  | _, _ => return none

/-- The row of the content index for one session, when its content digest is kept. -/
def contentIndexEntry (handle : ℕ) : Fallible Store StoreError (Option ContentIndexEntry) := do
  let sess ← session handle
  return sess.content.map ContentDigest.entry

/-! ## Import -/

/-- A counted rejection. -/
def reject {α : Type} (e : StoreError) : Fallible Store StoreError α := do
  modify countReject
  throw e

/-- Reject, counted, unless `c` holds. -/
def rejectUnless (c : Prop) [Decidable c] (e : StoreError) : Fallible Store StoreError Unit :=
  if c then pure () else reject e

/-- A decoder whose errors are counted. -/
def counted {α : Type} (x : Except StoreError α) : Fallible Store StoreError α :=
  match x with
  | .ok a => pure a
  | .error e => reject e

/-- Shared import core: decode, fingerprint and witness gates, and a re-encode of the
tail that must reproduce the end of the recorded stream. -/
def importRecordGates (key : KeyCtx) (recBytes : List UInt8) (eng : Engine) :
    Fallible Store StoreError (SessionRecordV1 × ℕ × TailState) := do
  let parsed ← counted (SessionRecordV1.fromBytes recBytes)
  rejectUnless (parsed.fingerprint = key.fingerprint) .FingerprintMismatch
  rejectUnless (parsed.witness = eng.witnessCategory)
    (.WitnessCategoryMismatch parsed.witness eng.witnessCategory)
  let enc ← fromExcept (eng.encodeStore parsed.tailText)
  rejectUnless (enc.ids.length ≤ parsed.ids.length) .ImportReencodeMismatch
  let sealedCount := parsed.ids.length - enc.ids.length
  rejectUnless (parsed.ids.drop sealedCount = enc.ids) .ImportReencodeMismatch
  rejectUnless (sealedCount = 0 ↔ parsed.stablePrefixBytes = 0)
    (malformed "sealed token count and stable prefix length disagree")
  let tail ← fromExcept (TailState.fill parsed.tailText enc)
  return (parsed, sealedCount, tail)

/-- Digests that a record alone determines: those of a session with nothing sealed. -/
def trackUnsealed (S : Store) (parsed : SessionRecordV1) :
    Except StoreError (Option RecoveryDigest × Option ContentDigest) :=
  trackText (S.recoveryTracking && parsed.stablePrefixBytes == 0)
    (S.contentTracking && parsed.stablePrefixBytes == 0) parsed.tailText

/-- Deserialize a session from a bare record. -/
def importSession (keyId : ℕ) (recBytes : List UInt8) (eng : Engine) (sealedText : Text) :
    Fallible Store StoreError ℕ := do
  let key ← keyCtx keyId
  let (parsed, sealedCount, tail) ← importRecordGates key recBytes eng
  let S ← get
  let (recovery, content) ← fromExcept (S.trackUnsealed parsed)
  modify fun S => S.tick.evictForCapacity
  let S ← get
  insertSession
    (detachedImportSession keyId parsed sealedCount tail S.clock recovery content sealedText)

/-- The part of a presented text before a record's tail. -/
def beforeTail (historicalText tailText : Text) : Text :=
  historicalText.take (historicalText.length - tailText.length)

/-- Import with caller-presented historical text, bound by recovery material. -/
def importSessionWithRecovery (keyId : ℕ) (recBytes : List UInt8) (historicalText : Text)
    (expected : RecoveryMaterial) (eng : Engine) : Fallible Store StoreError ℕ := do
  let key ← keyCtx keyId
  let (parsed, sealedCount, tail) ← importRecordGates key recBytes eng
  let historicalBytes := utf8Len historicalText
  throwIf (2 ^ 64 ≤ parsed.fullTextBytes) (internal "record full-text byte length overflow")
  let recovery ← fromExcept (RecoveryDigest.fromText historicalText)
  let material := recovery.material parsed.currBlockHash
  rejectUnless (expected.recordHash = parsed.currBlockHash ∧
    historicalBytes = expected.textBytes ∧ historicalBytes = parsed.fullTextBytes ∧
    parsed.tailText <:+ historicalText ∧ expected.textDigest = material.textDigest)
    (malformed "recovery material does not bind historical text to the record")
  modify fun S => S.tick.evictForCapacity
  let S ← get
  -- The content scan comes after the eviction.
  let (_, content) ← fromExcept (trackText false S.contentTracking historicalText)
  insertSession (detachedImportSession keyId parsed sealedCount tail S.clock (some recovery) content
    (beforeTail historicalText parsed.tailText))

/-- Import with historical text bound by a canonical TKFR-v1 binding. -/
def importSessionWithBinding (keyId : ℕ) (recBytes : List UInt8) (historicalText : Text)
    (bindingBytes : List UInt8) (eng : Engine) : Fallible Store StoreError ℕ := do
  let key ← keyCtx keyId
  let (parsed, sealedCount, tail) ← importRecordGates key recBytes eng
  let binding ← counted (RecoveryBindingV1.fromBytes bindingBytes)
  let historicalBytes := utf8Len historicalText
  throwIf (2 ^ 64 ≤ parsed.fullTextBytes) (internal "record full-text byte length overflow")
  let recovery ← fromExcept (RecoveryDigest.fromText historicalText)
  let material := recovery.material parsed.currBlockHash
  let content ← fromExcept (ContentDigest.fromBytes (utf8 historicalText))
  rejectUnless (binding.recordHash = parsed.currBlockHash ∧
    historicalBytes = binding.indexEntry.byteLength ∧ historicalBytes = parsed.fullTextBytes ∧
    parsed.tailText <:+ historicalText ∧ binding.textDigest = material.textDigest ∧
    binding.indexEntry = content.entry)
    (malformed "TKFR-v1 does not bind historical text to the record")
  modify fun S => S.tick.evictForCapacity
  let S ← get
  insertSession (detachedImportSession keyId parsed sealedCount tail S.clock
    (if S.recoveryTracking then some recovery else none)
    (if S.contentTracking then some content else none) (beforeTail historicalText parsed.tailText))

/-- The text a complete transcript holds before a binding's byte length. -/
def historicalPrefix (candidateText : Text) (binding : RecoveryBindingV1) :
    Except StoreError Text :=
  let prefixLen := binding.indexEntry.byteLength
  if utf8Len candidateText < prefixLen then
    .error (.InvalidInput "candidate is shorter than history")
  else
    match utf8Decode? ((utf8 candidateText).take prefixLen) with
    | some text => .ok text
    | none => .error (.InvalidInput "historical byte length is not a UTF-8 boundary")

/-- Recovery import from a complete current transcript. -/
def importSessionWithBindingCandidate (keyId : ℕ) (recBytes : List UInt8) (candidateText : Text)
    (bindingBytes : List UInt8) (eng : Engine) : Fallible Store StoreError (ℕ × ℕ) := do
  let binding ← fromExcept (RecoveryBindingV1.fromBytes bindingBytes)
  let historicalText ← fromExcept (historicalPrefix candidateText binding)
  let handle ← importSessionWithBinding keyId recBytes historicalText bindingBytes eng
  return (handle, historicalText.length)

/-- The sidecar describes this very record. -/
def SidecarBinds (sc : SessionSidecar) (parsed : SessionRecordV1) (sealedCount : ℕ)
    (tail : TailState) : Prop :=
  sc.recordCurrHash = parsed.currBlockHash ∧ sc.sealedCount = sealedCount ∧
    sc.safeByte = parsed.stablePrefixBytes.toNat ∧
    sc.totalChars = sc.safeChar + tail.textChars ∧ sc.chainBaseIdx ≤ sealedCount

instance (sc : SessionSidecar) (parsed : SessionRecordV1) (sealedCount : ℕ) (tail : TailState) :
    Decidable (SidecarBinds sc parsed sealedCount tail) := by
  unfold SidecarBinds
  infer_instance

/-- Deserialize a session from a record and its sidecar. -/
def importSessionWithSidecar (keyId : ℕ) (recBytes sidecarBytes : List UInt8) (eng : Engine)
    (sealedText : Text) : Fallible Store StoreError ℕ := do
  let key ← keyCtx keyId
  let (parsed, sealedCount, tail) ← importRecordGates key recBytes eng
  let sc ← counted (SessionSidecar.fromBytes sidecarBytes)
  rejectUnless (SidecarBinds sc parsed sealedCount tail)
    (malformed "session sidecar does not bind to the record")
  let S ← get
  let (recovery, content) ← fromExcept (S.trackUnsealed parsed)
  modify fun S => S.tick.evictForCapacity
  let S ← get
  insertSession
    (sidecarSession keyId parsed sc sealedCount tail S.clock recovery content sealedText)

/-- Restore the digests of an imported session from bound historical text. -/
def restoreTrackingWithBinding (handle : ℕ) (historicalText : Text) (bindingBytes : List UInt8) :
    Fallible Store StoreError Unit := do
  let sess ← session handle
  let (recovery, content) ← fromExcept (sess.verifiedTracking historicalText bindingBytes)
  modify fun S => { S with
    sessions := S.sessions.insert handle { sess with
      recovery := if S.recoveryTracking then some recovery else none
      content := if S.contentTracking then some content else none } }

end Store

end Toktier.StoreCore
