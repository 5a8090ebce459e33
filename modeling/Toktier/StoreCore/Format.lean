import Toktier.Lib.Decode
import Toktier.StoreCore.Basic

/-!
# The session record codec

Store format v1: a 200-byte fixed header, an optional header extension of
type-length-value entries, then the id row and the text tail. Three SHA-256
constructions bind a record: the payload digest, the chain link that carries the
fingerprint and the predecessor's hash, and the record checksum.

`decode` follows the normative order of checks with every byte access as a slice
that would panic out of range; `encodeBytes` is the serialization without the
writer's own gate, and `toBytes` puts the gate in front of it.

## Main definitions

* `PayloadHasher`, `payloadDigestParts`, `linkHash`, `recordChecksum`.
* `SessionRecordV1`, with `checkWriterObligations`, `computeCurr`, `toBytes`.
* `SessionRecordV1.decode`, `SessionRecordV1.fromBytes`.
-/
namespace Toktier.StoreCore

open Toktier.Lib

/-! ## Constants -/

def MAGIC : List UInt8 := utf8 "TOKTIERS".toList
def FORMAT_VERSION : ℕ := 1
def FIXED_HEADER_LEN : ℕ := 200
def HEADER_LEN_MAX : ℕ := 4096
def ENDIANNESS_LE : ℕ := 0x01
/-- Flag bits a reader must understand; v1 assigns none. -/
def MANDATORY_FLAGS_MASK : ℕ := 0x0000FFFF
def MAX_FULL_TEXT_BYTES : ℕ := 2 ^ 40
def MAX_TAIL_BYTES_OR_TOKENS : ℕ := 2 ^ 31

def DOMAIN_PAYLOAD : List UInt8 := utf8 "toktier.store.v1.payload".toList ++ [0]
def DOMAIN_LINK : List UInt8 := utf8 "toktier.store.v1.link".toList ++ [0]
def DOMAIN_RECORD : List UInt8 := utf8 "toktier.store.v1.record".toList ++ [0]

def OFF_CHECKSUM : ℕ := 168
def HASH_LEN : ℕ := 32

/-! ## The three hash constructions -/

/-- Incremental payload-digest state: the bytes fed to SHA-256 so far. -/
structure PayloadHasher where
  fed : List UInt8

namespace PayloadHasher

/-- State over the domain prefix and no ids. -/
def new : PayloadHasher := ⟨DOMAIN_PAYLOAD⟩

/-- Feed `ids` as little-endian payload bytes. -/
def updateIds (h : PayloadHasher) (ids : List UInt32) : PayloadHasher := ⟨h.fed ++ wordsBytes ids⟩

/-- Feeding is associative: the state depends on the ids fed, not on their chunking. -/
@[simp] theorem updateIds_append (h : PayloadHasher) (xs ys : List UInt32) :
    h.updateIds (xs ++ ys) = (h.updateIds xs).updateIds ys := by
  simp [updateIds]

@[simp] theorem updateIds_nil (h : PayloadHasher) : h.updateIds [] = h := by
  simp [updateIds]

end PayloadHasher

section Hashing

variable [Digests]

/-- Payload digest over the id rows in order and then the tail text. -/
def payloadDigestParts (idParts : List (List UInt32)) (tailText : List UInt8) : BlockHash :=
  sha256 (DOMAIN_PAYLOAD ++ idParts.flatMap wordsBytes ++ tailText)

namespace PayloadHasher

/-- Complete the digest without disturbing the running prefix state. -/
def digestWithTail (h : PayloadHasher) (tailIds : List UInt32) (tailText : List UInt8) :
    BlockHash :=
  sha256 (h.fed ++ wordsBytes tailIds ++ tailText)

/-- The digest completed from a prefix state is the digest of all the parts. -/
theorem digestWithTail_new (sealedIds tailIds : List UInt32) (tailText : List UInt8) :
    (new.updateIds sealedIds).digestWithTail tailIds tailText =
      payloadDigestParts [sealedIds, tailIds] tailText := by
  simp [new, updateIds, digestWithTail, payloadDigestParts]

end PayloadHasher

theorem payloadDigestParts_pair (xs ys : List UInt32) (tailText : List UInt8) :
    payloadDigestParts [xs, ys] tailText = payloadDigestParts [xs ++ ys] tailText := by
  simp [payloadDigestParts]

/-- Inputs of the chain link hash. -/
structure LinkInputs where
  prevBlockHash : BlockHash
  fingerprint : SemanticFingerprint
  sessionRevision : ℕ
  fullTextBytes : ℕ
  stablePrefixBytes : ℕ
  textTailBytes : ℕ
  tokenCount : ℕ
  replaceTokenOffset : ℕ
  witness : WitnessCategory
  payloadDigest : BlockHash

/-- Chain link hash (`curr_block_hash`). -/
def linkHash (inputs : LinkInputs) : BlockHash :=
  sha256 (DOMAIN_LINK ++ inputs.prevBlockHash.bytes ++ inputs.fingerprint.bytes ++
    leBytes 8 inputs.sessionRevision ++ leBytes 8 inputs.fullTextBytes ++
    leBytes 8 inputs.stablePrefixBytes ++ leBytes 8 inputs.textTailBytes ++
    leBytes 8 inputs.tokenCount ++ leBytes 8 inputs.replaceTokenOffset ++
    leBytes 2 inputs.witness.asU16 ++ inputs.payloadDigest.bytes)

def recordChecksum (headerZeroedChecksum : List UInt8) (payloadDigest : BlockHash) : BlockHash :=
  sha256 (DOMAIN_RECORD ++ headerZeroedChecksum ++ payloadDigest.bytes)

end Hashing

/-! ## The record -/

/-- One full core-stream snapshot of a session at one revision. -/
structure SessionRecordV1 where
  fingerprint : SemanticFingerprint
  witness : WitnessCategory
  revision : UInt64
  prevBlockHash : BlockHash
  currBlockHash : BlockHash
  stablePrefixBytes : UInt64
  replaceTokenOffset : UInt64
  ids : List UInt32
  tailText : Text
  deriving DecidableEq

def malformed (msg : String) : StoreError := .MalformedRecord msg

namespace SessionRecordV1

def fullTextBytes (r : SessionRecordV1) : ℕ := r.stablePrefixBytes.toNat + utf8Len r.tailText

/-- The writer's gate. -/
def checkWriterObligations (r : SessionRecordV1) : Except StoreError Unit :=
  let tailLen := utf8Len r.tailText
  let tokenCount := r.ids.length
  if 2 ^ 64 ≤ r.fullTextBytes then .error (malformed "full text byte length overflow")
  else if r.fullTextBytes > MAX_FULL_TEXT_BYTES then
    .error (malformed "full_text_byte_length exceeds 2^40")
  else if tailLen > MAX_TAIL_BYTES_OR_TOKENS then
    .error (malformed "text_tail_byte_length exceeds 2^31")
  else if tokenCount > MAX_TAIL_BYTES_OR_TOKENS then .error (malformed "token_count exceeds 2^31")
  else if r.replaceTokenOffset.toNat > tokenCount then
    .error (malformed "replace_token_offset exceeds token_count")
  else if r.witness = .NoneFullReencode ∧
      (r.stablePrefixBytes ≠ 0 ∨ r.replaceTokenOffset ≠ 0) then
    .error (malformed "witness category 0 requires zero stable prefix and replace offset")
  else if decide (r.revision = 0) ≠ decide (r.prevBlockHash = ZERO_HASH) then
    .error (malformed "prev_block_hash must be all-zero exactly at revision 0")
  else .ok ()

section Codec

variable [Digests]

/-- The link inputs a record's own fields give, over a payload digest. -/
def linkInputs (r : SessionRecordV1) (digest : BlockHash) : LinkInputs where
  prevBlockHash := r.prevBlockHash
  fingerprint := r.fingerprint
  sessionRevision := r.revision.toNat
  fullTextBytes := r.fullTextBytes
  stablePrefixBytes := r.stablePrefixBytes.toNat
  textTailBytes := utf8Len r.tailText
  tokenCount := r.ids.length
  replaceTokenOffset := r.replaceTokenOffset.toNat
  witness := r.witness
  payloadDigest := digest

/-- Recompute this record's chain link hash from its fields. -/
def computeCurr (r : SessionRecordV1) : BlockHash :=
  linkHash (r.linkInputs (payloadDigestParts [r.ids] (utf8 r.tailText)))

/-- The fixed header: no flags, zero reserved fields, no extension. -/
def headerBytes (r : SessionRecordV1) (curr checksum : BlockHash) : List UInt8 :=
  MAGIC ++ leBytes 2 FORMAT_VERSION ++ leBytes 2 FIXED_HEADER_LEN ++ leBytes 4 0 ++
    leBytes 1 ENDIANNESS_LE ++ leBytes 1 0 ++ leBytes 2 r.witness.asU16 ++ leBytes 4 0 ++
    r.fingerprint.bytes ++ leBytes 8 r.revision.toNat ++ r.prevBlockHash.bytes ++ curr.bytes ++
    leBytes 8 r.fullTextBytes ++ leBytes 8 r.stablePrefixBytes.toNat ++
    leBytes 8 (utf8Len r.tailText) ++ leBytes 8 r.ids.length ++
    leBytes 8 r.replaceTokenOffset.toNat ++ checksum.bytes

/-- The serialization that follows the writer's gate. The stored current hash is
ignored and recomputed, so a serialized record is self-consistent. -/
def encodeBytes (r : SessionRecordV1) : List UInt8 :=
  let payloadDigest := payloadDigestParts [r.ids] (utf8 r.tailText)
  let curr := linkHash (r.linkInputs payloadDigest)
  let checksum := recordChecksum (r.headerBytes curr ZERO_HASH) payloadDigest
  r.headerBytes curr checksum ++ (wordsBytes r.ids ++ utf8 r.tailText)

/-- Serialize per the writer's obligations. -/
def toBytes (r : SessionRecordV1) : Except StoreError (List UInt8) := do
  r.checkWriterObligations
  return r.encodeBytes

end Codec

end SessionRecordV1

/-! ## Strict decode -/

/-- A little-endian integer of `width` bytes at `off`. -/
def leAt (b : List UInt8) (off width : ℕ) : Decode StoreError ℕ := do
  return leNat (← sliceAt b off (off + width))

/-- The 32 bytes at `off`; a conversion from any other length would panic. -/
def hashAt (b : List UInt8) (off : ℕ) : Decode StoreError BlockHash := do
  let bs ← sliceAt b off (off + HASH_LEN)
  if h : bs.length = 32 then .ok ⟨bs, h⟩ else .error .Panic

/-- The header fields past the format gate. -/
structure HeaderFields where
  fingerprint : SemanticFingerprint
  revision : ℕ
  prevBlockHash : BlockHash
  storedCurr : BlockHash
  fullTextBytes : ℕ
  stablePrefixBytes : ℕ
  textTailBytes : ℕ
  tokenCount : ℕ
  replaceTokenOffset : ℕ

/-- Step 1, the bounds gate: the header length and the witness category. -/
def decodeGate (bytes : List UInt8) : Decode StoreError (ℕ × WitnessCategory) := do
  require (FIXED_HEADER_LEN ≤ bytes.length) (.Truncated "header")
  let magic ← sliceAt bytes 0 8
  require (magic = MAGIC) .BadMagic
  let version ← leAt bytes 8 2
  require (version = FORMAT_VERSION) (.UnsupportedFormatVersion version)
  let headerLength ← leAt bytes 10 2
  require ((FIXED_HEADER_LEN ≤ headerLength ∧ headerLength ≤ HEADER_LEN_MAX) ∧
    headerLength % 8 = 0 ∧ headerLength ≤ bytes.length)
    (.BadHeaderLength headerLength bytes.length)
  let endianness ← leAt bytes 16 1
  require (endianness = ENDIANNESS_LE) (.BadEndianMarker endianness)
  let reserved0 ← leAt bytes 17 1
  require (reserved0 = 0) (malformed "reserved0 must be zero")
  let flags ← leAt bytes 12 4
  require (flags &&& MANDATORY_FLAGS_MASK = 0) (.UnknownMandatoryFlags (flags &&& MANDATORY_FLAGS_MASK))
  let witnessValue ← leAt bytes 18 2
  let witness ← checked (WitnessCategory.fromU16 witnessValue)
  let reserved1 ← leAt bytes 20 4
  require (reserved1 = 0) (malformed "reserved1 must be zero")
  return (headerLength, witness)

/-- The fields of the fixed header, at their offsets. -/
def readFields (bytes : List UInt8) : Decode StoreError HeaderFields := do
  let fingerprint ← hashAt bytes 24
  let revision ← leAt bytes 56 8
  let prevBlockHash ← hashAt bytes 64
  let storedCurr ← hashAt bytes 96
  let fullTextBytes ← leAt bytes 128 8
  let stablePrefixBytes ← leAt bytes 136 8
  let textTailBytes ← leAt bytes 144 8
  let tokenCount ← leAt bytes 152 8
  let replaceTokenOffset ← leAt bytes 160 8
  return { fingerprint, revision, prevBlockHash, storedCurr, fullTextBytes, stablePrefixBytes,
           textTailBytes, tokenCount, replaceTokenOffset }

/-- Step 2, the field bounds. -/
def checkFields (f : HeaderFields) : Decode StoreError Unit := do
  require (f.fullTextBytes ≤ MAX_FULL_TEXT_BYTES) (malformed "full_text_byte_length exceeds 2^40")
  require (f.stablePrefixBytes ≤ f.fullTextBytes)
    (malformed "stable_prefix_byte_length exceeds full_text_byte_length")
  require (f.textTailBytes ≤ MAX_TAIL_BYTES_OR_TOKENS)
    (malformed "text_tail_byte_length exceeds 2^31")
  require (f.stablePrefixBytes + f.textTailBytes < 2 ^ 64 ∧
    f.stablePrefixBytes + f.textTailBytes = f.fullTextBytes)
    (malformed "stable prefix + text tail does not equal full text length")
  require (f.tokenCount ≤ MAX_TAIL_BYTES_OR_TOKENS) (malformed "token_count exceeds 2^31")
  require (f.replaceTokenOffset ≤ f.tokenCount)
    (malformed "replace_token_offset exceeds token_count")

/-- The header extension: every entry must stay within the declared header. Each
entry takes at least four bytes, so `fuel` entries are more than a header holds. -/
def tlvLoop (bytes : List UInt8) (hl : ℕ) : ℕ → ℕ → Decode StoreError Unit
  | fuel, pos =>
    if pos < hl then
      match fuel with
      | 0 => .error .Panic
      | fuel + 1 => do
          let stop := pos + 4
          require (stop < 2 ^ 64 ∧ stop ≤ hl) (malformed "TLV header extends past header_length")
          let tlvLen ← leAt bytes (pos + 2) 2
          require (stop + tlvLen < 2 ^ 64 ∧ stop + tlvLen ≤ hl)
            (malformed "TLV value extends past header_length")
          tlvLoop bytes hl fuel (stop + tlvLen)
    else .ok ()

section

variable [Digests]

/-- Steps 3 to 5: size closure, integrity, semantic checks. -/
def decodePayload (bytes : List UInt8) (hl : ℕ) (witness : WitnessCategory) (f : HeaderFields) :
    Decode StoreError SessionRecordV1 := do
  let idsBytes := f.tokenCount * 4
  require (idsBytes < 2 ^ 64) (malformed "token id array size overflow")
  let want := hl + idsBytes + f.textTailBytes
  require (hl + idsBytes < 2 ^ 64 ∧ want < 2 ^ 64) (malformed "record size overflow")
  require (bytes.length = want) (malformed
    s!"record size {bytes.length} does not close over header + ids + tail {want}")
  let payload ← sliceAt bytes hl bytes.length
  let payloadDigest := sha256 (DOMAIN_PAYLOAD ++ payload)
  let headerCopy ← sliceAt bytes 0 hl
  let storedChecksum ← hashAt headerCopy OFF_CHECKSUM
  let before ← sliceAt headerCopy 0 OFF_CHECKSUM
  let after ← sliceAt headerCopy (OFF_CHECKSUM + HASH_LEN) headerCopy.length
  require (recordChecksum (before ++ ZERO_HASH.bytes ++ after) payloadDigest = storedChecksum)
    .ChecksumMismatch
  let curr := linkHash
    { prevBlockHash := f.prevBlockHash, fingerprint := f.fingerprint,
      sessionRevision := f.revision, fullTextBytes := f.fullTextBytes,
      stablePrefixBytes := f.stablePrefixBytes, textTailBytes := f.textTailBytes,
      tokenCount := f.tokenCount, replaceTokenOffset := f.replaceTokenOffset, witness,
      payloadDigest }
  require (curr = f.storedCurr) .ChainLinkMismatch
  require (decide (f.revision = 0) = decide (f.prevBlockHash = ZERO_HASH))
    (malformed "prev_block_hash must be all-zero exactly at revision 0")
  require (¬(witness = .NoneFullReencode ∧
      (f.stablePrefixBytes ≠ 0 ∨ f.replaceTokenOffset ≠ 0)))
    (malformed "witness category 0 requires zero stable prefix and replace offset")
  let idPart ← sliceAt payload 0 idsBytes
  let tailPart ← sliceAt payload idsBytes payload.length
  let tailText ← checked (match utf8Decode? tailPart with
    | some t => .ok t
    | none => .error (malformed "text tail is not valid UTF-8"))
  return { fingerprint := f.fingerprint, witness, revision := UInt64.ofNat f.revision,
           prevBlockHash := f.prevBlockHash, currBlockHash := f.storedCurr,
           stablePrefixBytes := UInt64.ofNat f.stablePrefixBytes,
           replaceTokenOffset := UInt64.ofNat f.replaceTokenOffset,
           ids := wordsOfBytes idPart, tailText }

/-- Strict decode in the normative order. -/
def SessionRecordV1.decode (bytes : List UInt8) : Decode StoreError SessionRecordV1 := do
  let (hl, witness) ← decodeGate bytes
  let f ← readFields bytes
  checkFields f
  tlvLoop bytes hl hl FIXED_HEADER_LEN
  decodePayload bytes hl witness f

/-- The decoder as callers see it; `decode` has no panic to hide. -/
def SessionRecordV1.fromBytes (bytes : List UInt8) : Except StoreError SessionRecordV1 :=
  match SessionRecordV1.decode bytes with
  | .ok r => .ok r
  | .error (.Reject e) => .error e
  | .error .Panic => .error (.Internal "session record decoder panicked")

end

end Toktier.StoreCore
