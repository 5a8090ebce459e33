import Toktier.StoreCore.Format

/-!
# Node cache records and session sidecars

Two internal encodings next to the portable record: one sealed block of the
prefix-sharing hash chain, and the incremental bookkeeping a live session carries
beyond its record. Both end in a domain-tagged checksum over the body before it,
and both are read from the left with exact consumption.

## Main definitions

* `nodeKey`: the content address of a chain node.
* `NodeCacheRecord`, `SessionSidecar`, with `toBytes` and `fromBytes`.

## Main results

* `NodeCacheRecord.fromBytes_toBytes`, `SessionSidecar.fromBytes_toBytes`.
-/
namespace Toktier.StoreCore

open Toktier.Lib

def NODE_MAGIC : List UInt8 := utf8 "TKNC".toList
def SIDECAR_MAGIC : List UInt8 := utf8 "TKSS".toList
def CACHE_VERSION : ℕ := 1
def CHECKSUM_LEN : ℕ := 32
def DOMAIN_NODE_KEY : List UInt8 := utf8 "toktier.store.v1.node".toList ++ [0]
def DOMAIN_NODE_CACHE : List UInt8 := utf8 "toktier.store.v1.nodecache".toList ++ [0]
def DOMAIN_SIDECAR : List UInt8 := utf8 "toktier.store.v1.sidecar".toList ++ [0]

def lenU32 (n : ℕ) (what : String) : Except StoreError ℕ :=
  if n < 2 ^ 32 then .ok n else .error (.InvalidInput s!"{what} length {n} exceeds u32")

theorem lenU32_of_lt {n : ℕ} {what : String} (h : n < 2 ^ 32) : lenU32 n what = .ok n := if_pos h

@[simp] theorem lenU32_eq_ok {n m : ℕ} {what : String} :
    lenU32 n what = .ok m ↔ n < 2 ^ 32 ∧ n = m := by
  unfold lenU32
  split
  · rename_i h
    simp only [Except.ok.injEq, h, true_and]
  · rename_i h
    simp only [reduceCtorEq, h, false_and]

/-! ## Tagged optional hashes -/

/-- An optional hash behind a tag byte; the hash of `none` is written as zeroes. -/
def optHashTagged : Option BlockHash → List UInt8
  | some p => 1 :: p.bytes
  | none => 0 :: ZERO_HASH.bytes

theorem optHashTagged_injective : Function.Injective optHashTagged := by
  rintro (_ | p) (_ | q) h
  · rfl
  · exact absurd (List.cons.inj h).1 (by decide)
  · exact absurd (List.cons.inj h).1 (by decide)
  · exact congrArg some (Bytes32.ext (List.cons.inj h).2)

@[simp] theorem length_optHashTagged (p : Option BlockHash) : (optHashTagged p).length = 33 := by
  cases p <;> simp [optHashTagged]

/-- An optional hash with some bytes in the place of the hash of `none`. -/
def optHashPadded (pad : BlockHash) : Option BlockHash → List UInt8
  | some p => 1 :: p.bytes
  | none => 0 :: pad.bytes

theorem optHashPadded_zero (p : Option BlockHash) :
    optHashPadded ZERO_HASH p = optHashTagged p := by
  cases p <;> rfl

/-! ## Keys and checksums -/

/-- What the content address of a chain node is the hash of. -/
def nodeKeyInput (parent : Option BlockHash) (fingerprint : SemanticFingerprint)
    (blockIndex : ℕ) (blockBytes : List UInt8) : List UInt8 :=
  DOMAIN_NODE_KEY ++ optHashTagged parent ++ leBytes 8 blockIndex ++ fingerprint.bytes ++ blockBytes

/-- All four inputs of a node key can be read back off what is hashed. -/
theorem nodeKeyInput_inj {p p' : Option BlockHash} {f f' : SemanticFingerprint} {i i' : ℕ}
    {b b' : List UInt8} (h : nodeKeyInput p f i b = nodeKeyInput p' f' i' b') :
    p = p' ∧ leBytes 8 i = leBytes 8 i' ∧ f = f' ∧ b = b' := by
  simp only [nodeKeyInput, List.append_assoc] at h
  have h := List.append_cancel_left h
  obtain ⟨hp, h⟩ := List.append_inj h (by simp)
  obtain ⟨hi, h⟩ := List.append_inj h (by simp)
  obtain ⟨hf, hb⟩ := List.append_inj h (by simp)
  exact ⟨optHashTagged_injective hp, hi, Bytes32.ext hf, hb⟩

section Hashing

variable [Digests]

/-- Content address of a sealed chain node. The fingerprint participates, so a
lookup under a different fingerprint cannot structurally hit. -/
def nodeKey (parent : Option BlockHash) (fingerprint : SemanticFingerprint) (blockIndex : ℕ)
    (blockBytes : List UInt8) : BlockHash :=
  sha256 (nodeKeyInput parent fingerprint blockIndex blockBytes)

def checksum (domain body : List UInt8) : BlockHash := sha256 (domain ++ body)

/-- A body followed by its checksum. -/
def sealBody (domain body : List UInt8) : List UInt8 := body ++ (checksum domain body).bytes

/-- The body of a checksummed record. -/
def openBody (domain : List UInt8) (what : String) (bytes : List UInt8) :
    Except StoreError (List UInt8) :=
  if bytes.length < CHECKSUM_LEN then .error (.Truncated what)
  else
    let body := bytes.take (bytes.length - CHECKSUM_LEN)
    let cs := bytes.drop (bytes.length - CHECKSUM_LEN)
    if (checksum domain body).bytes ≠ cs then .error .ChecksumMismatch else .ok body

@[simp] theorem openBody_sealBody (domain body : List UInt8) (what : String) :
    openBody domain what (sealBody domain body) = .ok body := by
  have hlen : (sealBody domain body).length - CHECKSUM_LEN = body.length := by
    simp [sealBody, CHECKSUM_LEN]
  have hlt : ¬(sealBody domain body).length < CHECKSUM_LEN := by
    simp [sealBody, CHECKSUM_LEN]
  unfold openBody
  rw [if_neg hlt, hlen]
  simp [sealBody]

end Hashing

/-! ## The shared reader -/

/-- A cursor over a record body. -/
abbrev Reader := Fallible (List UInt8) StoreError

namespace Reader

def take (n : ℕ) (context : String) : Reader (List UInt8) := takeBytes (.Truncated context) n

/-- A little-endian integer of `width` bytes. -/
def uint (width : ℕ) (context : String) : Reader ℕ := leNat <$> take width context

def u8 (context : String) : Reader ℕ := uint 1 context
def u16 (context : String) : Reader ℕ := uint 2 context
def u32 (context : String) : Reader ℕ := uint 4 context
def u64 (context : String) : Reader ℕ := uint 8 context

/-- A fixed 32-byte field. -/
def hash (context : String) : Reader BlockHash := do
  let raw ← take CHECKSUM_LEN context
  if h : raw.length = 32 then pure ⟨raw, h⟩ else throw (.Truncated context)

def ids (n : ℕ) (context : String) : Reader (List UInt32) := wordsOfBytes <$> take (n * 4) context

def utf8 (n : ℕ) (context : String) : Reader Text := do
  let raw ← take n context
  match utf8Decode? raw with
  | some t => pure t
  | none => throw (malformed s!"invalid UTF-8 in {context}")

/-- The body must be consumed. -/
def finish : Reader Unit := do
  let rest ← get
  throwIf (rest ≠ []) (malformed s!"{rest.length} trailing bytes")

def optHash (context : String) : Reader (Option BlockHash) := do
  let tag ← u8 context
  let raw ← hash context
  match tag with
  | 0 => pure none
  | 1 => pure (some raw)
  | other => throw (malformed s!"bad option tag {other} in {context}")

/-- Run on a whole body. -/
def runOn {α : Type} (m : Reader α) (body : List UInt8) : Except StoreError α :=
  match m.run body with
  | .ok a _ => .ok a
  | .error e _ => .error e

theorem reads_take {n : ℕ} {context : String} {bs : List UInt8} (h : bs.length = n) :
    Reads (take n context) bs bs := reads_takeBytes _ h

theorem reads_uint {w v : ℕ} {context : String} (h : v < 256 ^ w) :
    Reads (uint w context) (leBytes w v) v :=
  ((reads_take (length_leBytes w v)).map leNat).of_eq rfl (leNat_leBytes_of_lt h)

theorem reads_hash {context : String} (b : BlockHash) : Reads (hash context) b.bytes b := by
  rw [← List.append_nil b.bytes]
  refine (reads_take b.size_eq).bind ?_
  rw [dif_pos b.size_eq]
  exact Reads.pure b

theorem reads_ids {context : String} (xs : List UInt32) :
    Reads (ids xs.length context) (wordsBytes xs) xs := by
  have hlen : (wordsBytes xs).length = xs.length * 4 := by rw [length_wordsBytes, mul_comm]
  exact ((reads_take hlen).map wordsOfBytes).of_eq rfl (wordsOfBytes_wordsBytes xs)

theorem reads_utf8 {context : String} (t : Text) :
    Reads (utf8 (utf8Len t) context) (Lib.utf8 t) t := by
  rw [← List.append_nil (Lib.utf8 t)]
  refine (reads_take (length_utf8 t)).bind ?_
  simp only [utf8Decode?_utf8]
  exact Reads.pure t

/-- The bytes behind the tag of `none` are not looked at. -/
theorem reads_optHash {context : String} (pad : BlockHash) (p : Option BlockHash) :
    Reads (optHash context) (optHashPadded pad p) p := by
  cases p with
  | none =>
      refine Reads.bind (reads_uint (by decide : 0 < 256 ^ 1)) ?_
      rw [← List.append_nil pad.bytes]
      exact (reads_hash pad).bind (Reads.pure none)
  | some p =>
      refine Reads.bind (reads_uint (by decide : 1 < 256 ^ 1)) ?_
      rw [← List.append_nil p.bytes]
      exact (reads_hash p).bind (Reads.pure (some p))

theorem reads_fromExcept {α : Type} {x : Except StoreError α} {a : α} (h : x = .ok a) :
    Reads (fromExcept x : Reader α) [] a := by
  subst h
  exact Reads.pure a

theorem run_finish_nil : finish.run [] = .ok () [] := rfl

theorem runOn_eq {α : Type} {m : Reader α} {body rest : List UInt8} {a : α}
    (h : m.run body = .ok a rest) : runOn m body = .ok a := by
  rw [runOn, h]

end Reader

/-! ## Node cache -/

/-- One sealed chain node: it names the text prefix of `endChar` characters. `ids`
covers the characters from the parent's safe point to `safeChar`, `textTail` is the
raw text from there to `endChar`, `idsBase` counts the ids of the ancestors and
`endByte` the bytes of the prefix. -/
structure NodeCacheRecord where
  fingerprint : SemanticFingerprint
  witness : WitnessCategory
  parent : Option BlockHash
  key : BlockHash
  blockIndex : ℕ
  endChar : ℕ
  safeChar : ℕ
  idsBase : ℕ
  endByte : ℕ
  ids : List UInt32
  textTail : Text
  deriving DecidableEq

namespace NodeCacheRecord

/-- The body's bytes, once both counts fit their fields. -/
def bodyBytes (r : NodeCacheRecord) : List UInt8 :=
  NODE_MAGIC ++ leBytes 2 CACHE_VERSION ++ leBytes 2 r.witness.asU16 ++ r.fingerprint.bytes ++
    optHashTagged r.parent ++ r.key.bytes ++ leBytes 8 r.blockIndex ++ leBytes 8 r.endChar ++
    leBytes 8 r.safeChar ++ leBytes 8 r.idsBase ++ leBytes 8 r.endByte ++
    leBytes 4 r.ids.length ++ leBytes 4 (utf8Len r.textTail) ++ wordsBytes r.ids ++
    utf8 r.textTail

/-- The body with some bytes in the place of a missing parent. -/
def paddedBytes (pad : BlockHash) (r : NodeCacheRecord) : List UInt8 :=
  NODE_MAGIC ++ leBytes 2 CACHE_VERSION ++ leBytes 2 r.witness.asU16 ++ r.fingerprint.bytes ++
    (optHashPadded pad r.parent ++ (r.key.bytes ++ leBytes 8 r.blockIndex ++ leBytes 8 r.endChar ++
      leBytes 8 r.safeChar ++ leBytes 8 r.idsBase ++ leBytes 8 r.endByte ++
      leBytes 4 r.ids.length ++ leBytes 4 (utf8Len r.textTail) ++ wordsBytes r.ids ++
      utf8 r.textTail))

theorem paddedBytes_zero (r : NodeCacheRecord) : r.paddedBytes ZERO_HASH = r.bodyBytes := by
  simp only [paddedBytes, bodyBytes, optHashPadded_zero, List.append_assoc]

def body (r : NodeCacheRecord) : Except StoreError (List UInt8) := do
  let _ ← lenU32 r.ids.length "node ids"
  let _ ← lenU32 (utf8Len r.textTail) "node text tail"
  return r.bodyBytes

/-- The fields in order, then exact consumption, then the cross-field checks. -/
def read : Reader NodeCacheRecord := do
  let magic ← Reader.take 4 "node magic"
  throwIf (magic ≠ NODE_MAGIC) .BadMagic
  let version ← Reader.u16 "node version"
  throwIf (version ≠ CACHE_VERSION) (.UnsupportedFormatVersion version)
  let witnessValue ← Reader.u16 "node witness"
  let witness ← fromExcept (WitnessCategory.fromU16 witnessValue)
  let fingerprint ← Reader.hash "node fingerprint"
  let parent ← Reader.optHash "node parent"
  let key ← Reader.hash "node key"
  let blockIndex ← Reader.u64 "node block_index"
  let endChar ← Reader.u64 "node end_char"
  let safeChar ← Reader.u64 "node safe_char"
  let idsBase ← Reader.u64 "node ids_base"
  let endByte ← Reader.u64 "node end_byte"
  let nIds ← Reader.u32 "node id count"
  let tailLen ← Reader.u32 "node tail length"
  let ids ← Reader.ids nIds "node ids"
  let textTail ← Reader.utf8 tailLen "node text tail"
  Reader.finish
  throwIf (safeChar > endChar) (malformed "node safe_char exceeds end_char")
  throwIf (tailLen > endByte) (malformed "node text tail longer than end_byte")
  throwIf (2 ^ 64 ≤ idsBase + nIds) (malformed "node token count overflow")
  return { fingerprint, witness, parent, key, blockIndex, endChar, safeChar, idsBase, endByte,
           ids, textTail }

/-- The counters fit their 64-bit fields and the cross-field checks hold. -/
structure Encodable (r : NodeCacheRecord) : Prop where
  ids_lt : r.ids.length < 2 ^ 32
  tail_lt : utf8Len r.textTail < 2 ^ 32
  blockIndex_lt : r.blockIndex < 2 ^ 64
  endChar_lt : r.endChar < 2 ^ 64
  endByte_lt : r.endByte < 2 ^ 64
  safeChar_le : r.safeChar ≤ r.endChar
  tail_le : utf8Len r.textTail ≤ r.endByte
  count_lt : r.idsBase + r.ids.length < 2 ^ 64

theorem body_of_lt {r : NodeCacheRecord} (hi : r.ids.length < 2 ^ 32)
    (ht : utf8Len r.textTail < 2 ^ 32) : r.body = .ok r.bodyBytes := by
  rw [body, lenU32_of_lt hi, lenU32_of_lt ht]
  rfl

theorem body_eq_ok {r : NodeCacheRecord} {bs : List UInt8} :
    r.body = .ok bs ↔
      r.ids.length < 2 ^ 32 ∧ utf8Len r.textTail < 2 ^ 32 ∧ bs = r.bodyBytes := by
  constructor
  · intro h
    obtain ⟨n, hn, h⟩ := bind_eq_ok.mp h
    obtain ⟨m, hm, h⟩ := bind_eq_ok.mp h
    cases h
    exact ⟨(lenU32_eq_ok.mp hn).1, (lenU32_eq_ok.mp hm).1, rfl⟩
  · rintro ⟨hi, ht, rfl⟩
    exact body_of_lt hi ht

section

variable [Digests]

/-- Serialize with the trailing domain-tagged checksum. -/
def toBytes (r : NodeCacheRecord) : Except StoreError (List UInt8) := do
  return sealBody DOMAIN_NODE_CACHE (← r.body)

/-- Strict decode; every check failure is a rejection. -/
def fromBytes (bytes : List UInt8) : Except StoreError NodeCacheRecord := do
  read.runOn (← openBody DOMAIN_NODE_CACHE "node cache" bytes)

theorem toBytes_eq_ok {r : NodeCacheRecord} {bs : List UInt8} :
    r.toBytes = .ok bs ↔ r.ids.length < 2 ^ 32 ∧ utf8Len r.textTail < 2 ^ 32 ∧
      bs = sealBody DOMAIN_NODE_CACHE r.bodyBytes := by
  constructor
  · intro h
    obtain ⟨b, hb, h⟩ := bind_eq_ok.mp h
    obtain ⟨hi, ht, rfl⟩ := body_eq_ok.mp hb
    cases h
    exact ⟨hi, ht, rfl⟩
  · rintro ⟨hi, ht, rfl⟩
    rw [toBytes, body_of_lt hi ht]
    rfl

end

theorem read_paddedBytes {r : NodeCacheRecord} (h : r.Encodable) (pad : BlockHash) :
    read.run (r.paddedBytes pad) = .ok r [] := by
  have hw : r.witness.asU16 < 256 ^ 2 := r.witness.asU16_lt
  have hsafe : r.safeChar < 2 ^ 64 := lt_of_le_of_lt h.safeChar_le h.endChar_lt
  have hbase : r.idsBase < 2 ^ 64 := by have := h.count_lt; omega
  rw [← List.append_nil (r.paddedBytes pad)]
  simp only [paddedBytes, List.append_assoc]
  unfold read
  refine Reads.run_bind (Reader.reads_take (by decide : NODE_MAGIC.length = 4)) ?_
  refine (reads_throwIf _ (by simp)).run_step ?_
  refine (Reader.reads_uint (by decide)).run_bind ?_
  refine (reads_throwIf _ (by simp)).run_step ?_
  refine (Reader.reads_uint hw).run_bind ?_
  refine (Reader.reads_fromExcept (WitnessCategory.fromU16_asU16 _)).run_step ?_
  refine (Reader.reads_hash _).run_bind ?_
  refine (Reader.reads_optHash pad _).run_bind ?_
  refine (Reader.reads_hash _).run_bind ?_
  refine (Reader.reads_uint h.blockIndex_lt).run_bind ?_
  refine (Reader.reads_uint h.endChar_lt).run_bind ?_
  refine (Reader.reads_uint hsafe).run_bind ?_
  refine (Reader.reads_uint hbase).run_bind ?_
  refine (Reader.reads_uint h.endByte_lt).run_bind ?_
  refine (Reader.reads_uint h.ids_lt).run_bind ?_
  refine (Reader.reads_uint h.tail_lt).run_bind ?_
  refine (Reader.reads_ids _).run_bind ?_
  refine (Reader.reads_utf8 _).run_bind ?_
  rw [EStateM.run_bind, Reader.run_finish_nil]
  refine (reads_throwIf _ (by have := h.safeChar_le; omega)).run_step ?_
  refine (reads_throwIf _ (by have := h.tail_le; omega)).run_step ?_
  refine (reads_throwIf _ (by have := h.count_lt; omega)).run_step ?_
  rfl

section

variable [Digests]

/-- An encodable node is read back. -/
theorem fromBytes_toBytes {r : NodeCacheRecord} (h : r.Encodable) :
    ∃ bs, r.toBytes = .ok bs ∧ fromBytes bs = .ok r := by
  refine ⟨_, toBytes_eq_ok.mpr ⟨h.ids_lt, h.tail_lt, rfl⟩, ?_⟩
  rw [fromBytes, openBody_sealBody, ok_bind, ← paddedBytes_zero]
  exact Reader.runOn_eq (read_paddedBytes h ZERO_HASH)

end

end NodeCacheRecord

/-! ## Session sidecar -/

/-- Incremental bookkeeping of one session beyond the portable record, bound to it
through `recordCurrHash`. -/
structure SessionSidecar where
  recordCurrHash : BlockHash
  totalChars : ℕ
  safeChar : ℕ
  safeByte : ℕ
  blocksEnd : ℕ
  blocksEndByte : ℕ
  scanFloor : ℕ
  chainBaseSafe : ℕ
  chainBaseIdx : ℕ
  chainTail : Option BlockHash
  chainOk : Bool
  /-- Number of leading tokens of the record's stream that are sealed. -/
  sealedCount : ℕ
  /-- Raw `replace_from` of the last append. -/
  lastReplaceFrom : ℕ
  buf : Text
  sealLog : List (ℕ × ℕ)
  deriving DecidableEq

namespace SessionSidecar

/-- The seal points, two 64-bit counters each. -/
def logBytes (log : List (ℕ × ℕ)) : List UInt8 :=
  log.flatMap fun p => leBytes 8 p.1 ++ leBytes 8 p.2

def bodyBytes (sc : SessionSidecar) : List UInt8 :=
  SIDECAR_MAGIC ++ leBytes 2 CACHE_VERSION ++ sc.recordCurrHash.bytes ++ leBytes 8 sc.totalChars ++
    leBytes 8 sc.safeChar ++ leBytes 8 sc.safeByte ++ leBytes 8 sc.blocksEnd ++
    leBytes 8 sc.blocksEndByte ++ leBytes 8 sc.scanFloor ++ leBytes 8 sc.chainBaseSafe ++
    leBytes 8 sc.chainBaseIdx ++ optHashTagged sc.chainTail ++
    leBytes 1 (if sc.chainOk then 1 else 0) ++ leBytes 8 sc.sealedCount ++
    leBytes 8 sc.lastReplaceFrom ++ leBytes 4 (utf8Len sc.buf) ++ leBytes 4 sc.sealLog.length ++
    utf8 sc.buf ++ logBytes sc.sealLog

/-- The body with some bytes in the place of a missing chain tail. -/
def paddedBytes (pad : BlockHash) (sc : SessionSidecar) : List UInt8 :=
  SIDECAR_MAGIC ++ leBytes 2 CACHE_VERSION ++ sc.recordCurrHash.bytes ++ leBytes 8 sc.totalChars ++
    leBytes 8 sc.safeChar ++ leBytes 8 sc.safeByte ++ leBytes 8 sc.blocksEnd ++
    leBytes 8 sc.blocksEndByte ++ leBytes 8 sc.scanFloor ++ leBytes 8 sc.chainBaseSafe ++
    leBytes 8 sc.chainBaseIdx ++ (optHashPadded pad sc.chainTail ++
      (leBytes 1 (if sc.chainOk then 1 else 0) ++ leBytes 8 sc.sealedCount ++
        leBytes 8 sc.lastReplaceFrom ++ leBytes 4 (utf8Len sc.buf) ++
        leBytes 4 sc.sealLog.length ++ utf8 sc.buf ++ logBytes sc.sealLog))

theorem paddedBytes_zero (sc : SessionSidecar) : sc.paddedBytes ZERO_HASH = sc.bodyBytes := by
  simp only [paddedBytes, bodyBytes, optHashPadded_zero, List.append_assoc]

def body (sc : SessionSidecar) : Except StoreError (List UInt8) := do
  let _ ← lenU32 (utf8Len sc.buf) "sidecar buf"
  let _ ← lenU32 sc.sealLog.length "seal log"
  return sc.bodyBytes

def readLog : ℕ → Reader (List (ℕ × ℕ))
  | 0 => pure []
  | n + 1 => do
      let c ← Reader.u64 "seal log entry"
      let i ← Reader.u64 "seal log entry"
      let rest ← readLog n
      return (c, i) :: rest

/-- The fields in order, then exact consumption, then the cross-field checks. -/
def read : Reader SessionSidecar := do
  let magic ← Reader.take 4 "sidecar magic"
  throwIf (magic ≠ SIDECAR_MAGIC) .BadMagic
  let version ← Reader.u16 "sidecar version"
  throwIf (version ≠ CACHE_VERSION) (.UnsupportedFormatVersion version)
  let recordCurrHash ← Reader.hash "sidecar record binding"
  let totalChars ← Reader.u64 "sidecar total_chars"
  let safeChar ← Reader.u64 "sidecar safe_char"
  let safeByte ← Reader.u64 "sidecar safe_byte"
  let blocksEnd ← Reader.u64 "sidecar blocks_end"
  let blocksEndByte ← Reader.u64 "sidecar blocks_end_byte"
  let scanFloor ← Reader.u64 "sidecar scan_floor"
  let chainBaseSafe ← Reader.u64 "sidecar chain_base_safe"
  let chainBaseIdx ← Reader.u64 "sidecar chain_base_idx"
  let chainTail ← Reader.optHash "sidecar chain_tail"
  let chainOkFlag ← Reader.u8 "sidecar chain_ok"
  throwIf (1 < chainOkFlag) (malformed s!"bad chain_ok flag {chainOkFlag}")
  let sealedCount ← Reader.u64 "sidecar sealed_count"
  let lastReplaceFrom ← Reader.u64 "sidecar last_replace_from"
  let bufLen ← Reader.u32 "sidecar buf length"
  let nLog ← Reader.u32 "seal log count"
  let buf ← Reader.utf8 bufLen "sidecar buf"
  let sealLog ← readLog nLog
  Reader.finish
  throwIf (safeChar > totalChars) (malformed "sidecar safe_char exceeds total_chars")
  throwIf (blocksEnd > totalChars) (malformed "sidecar blocks_end exceeds total_chars")
  return { recordCurrHash, totalChars, safeChar, safeByte, blocksEnd, blocksEndByte, scanFloor,
           chainBaseSafe, chainBaseIdx, chainTail, chainOk := chainOkFlag == 1, sealedCount,
           lastReplaceFrom, buf, sealLog }

/-- The counters fit their 64-bit fields and the cross-field checks hold. -/
structure Encodable (sc : SessionSidecar) : Prop where
  buf_lt : utf8Len sc.buf < 2 ^ 32
  log_lt : sc.sealLog.length < 2 ^ 32
  totalChars_lt : sc.totalChars < 2 ^ 64
  safeByte_lt : sc.safeByte < 2 ^ 64
  blocksEndByte_lt : sc.blocksEndByte < 2 ^ 64
  scanFloor_lt : sc.scanFloor < 2 ^ 64
  chainBaseSafe_lt : sc.chainBaseSafe < 2 ^ 64
  chainBaseIdx_lt : sc.chainBaseIdx < 2 ^ 64
  sealedCount_lt : sc.sealedCount < 2 ^ 64
  lastReplaceFrom_lt : sc.lastReplaceFrom < 2 ^ 64
  safeChar_le : sc.safeChar ≤ sc.totalChars
  blocksEnd_le : sc.blocksEnd ≤ sc.totalChars
  entry_lt : ∀ p ∈ sc.sealLog, p.1 < 2 ^ 64 ∧ p.2 < 2 ^ 64

theorem reads_readLog {log : List (ℕ × ℕ)} (h : ∀ p ∈ log, p.1 < 2 ^ 64 ∧ p.2 < 2 ^ 64) :
    Reads (readLog log.length) (logBytes log) log := by
  induction log with
  | nil => exact Reads.pure []
  | cons p log ih =>
      obtain ⟨hp, hlog⟩ := List.forall_mem_cons.mp h
      rw [logBytes, List.flatMap_cons, List.append_assoc]
      refine (Reader.reads_uint hp.1).bind ?_
      refine (Reader.reads_uint hp.2).bind ?_
      rw [← List.append_nil (List.flatMap _ log)]
      exact (ih hlog).bind (Reads.pure _)

theorem read_paddedBytes {sc : SessionSidecar} (h : sc.Encodable) (pad : BlockHash) :
    read.run (sc.paddedBytes pad) = .ok sc [] := by
  have hsafe : sc.safeChar < 2 ^ 64 := lt_of_le_of_lt h.safeChar_le h.totalChars_lt
  have hblocks : sc.blocksEnd < 2 ^ 64 := lt_of_le_of_lt h.blocksEnd_le h.totalChars_lt
  have hflag : (if sc.chainOk then 1 else 0) < 256 ^ 1 := by cases sc.chainOk <;> decide
  rw [← List.append_nil (sc.paddedBytes pad)]
  simp only [paddedBytes, List.append_assoc]
  unfold read
  refine Reads.run_bind (Reader.reads_take (by decide : SIDECAR_MAGIC.length = 4)) ?_
  refine (reads_throwIf _ (by simp)).run_step ?_
  refine (Reader.reads_uint (by decide)).run_bind ?_
  refine (reads_throwIf _ (by simp)).run_step ?_
  refine (Reader.reads_hash _).run_bind ?_
  refine (Reader.reads_uint h.totalChars_lt).run_bind ?_
  refine (Reader.reads_uint hsafe).run_bind ?_
  refine (Reader.reads_uint h.safeByte_lt).run_bind ?_
  refine (Reader.reads_uint hblocks).run_bind ?_
  refine (Reader.reads_uint h.blocksEndByte_lt).run_bind ?_
  refine (Reader.reads_uint h.scanFloor_lt).run_bind ?_
  refine (Reader.reads_uint h.chainBaseSafe_lt).run_bind ?_
  refine (Reader.reads_uint h.chainBaseIdx_lt).run_bind ?_
  refine (Reader.reads_optHash pad _).run_bind ?_
  refine (Reader.reads_uint hflag).run_bind ?_
  refine (reads_throwIf _ (by cases sc.chainOk <;> decide)).run_step ?_
  refine (Reader.reads_uint h.sealedCount_lt).run_bind ?_
  refine (Reader.reads_uint h.lastReplaceFrom_lt).run_bind ?_
  refine (Reader.reads_uint h.buf_lt).run_bind ?_
  refine (Reader.reads_uint h.log_lt).run_bind ?_
  refine (Reader.reads_utf8 _).run_bind ?_
  refine (reads_readLog h.entry_lt).run_bind ?_
  rw [EStateM.run_bind, Reader.run_finish_nil]
  refine (reads_throwIf _ (by have := h.safeChar_le; omega)).run_step ?_
  refine (reads_throwIf _ (by have := h.blocksEnd_le; omega)).run_step ?_
  have hok : ((if sc.chainOk then 1 else 0) == 1) = sc.chainOk := by cases sc.chainOk <;> rfl
  rw [hok]
  rfl

section

variable [Digests]

/-- Serialize with the trailing domain-tagged checksum. -/
def toBytes (sc : SessionSidecar) : Except StoreError (List UInt8) := do
  return sealBody DOMAIN_SIDECAR (← sc.body)

/-- Strict decode; every check failure is a rejection. -/
def fromBytes (bytes : List UInt8) : Except StoreError SessionSidecar := do
  read.runOn (← openBody DOMAIN_SIDECAR "session sidecar" bytes)

/-- An encodable sidecar is read back. -/
theorem fromBytes_toBytes {sc : SessionSidecar} (h : sc.Encodable) :
    ∃ bs, sc.toBytes = .ok bs ∧ fromBytes bs = .ok sc := by
  refine ⟨sealBody DOMAIN_SIDECAR sc.bodyBytes, ?_, ?_⟩
  · rw [toBytes, body, lenU32_of_lt h.buf_lt, lenU32_of_lt h.log_lt]
    rfl
  · rw [fromBytes, openBody_sealBody, ok_bind, ← paddedBytes_zero]
    exact Reader.runOn_eq (read_paddedBytes h ZERO_HASH)

end

end SessionSidecar

end Toktier.StoreCore
