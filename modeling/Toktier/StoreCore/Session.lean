import Toktier.Lib.Maps
import Toktier.StoreCore.Recovery
import Toktier.StoreCore.Tail

/-!
# Sessions

The state of one live session and the small operations on its parts. The ids of a
session are a sealed stream, kept as shared blocks and one growable suffix, and
then the tail's ids; the text of the sealed stream is dropped by the code, and is
kept here in the field `sealedText`, which no computation reads.

## Main definitions

* `StoreConfig`, `KeyCtx`, `Stats`.
* `SealedIds`, `NodeEntry`, `Session`.
* `Session.text`, `Session.allIds`: the text a session represents, and its stream.
-/
namespace Toktier.StoreCore

open Toktier.Lib

/-- A finite map; the order of its entries is not observed. -/
abbrev Table (κ ν : Type) := AList fun _ : κ => ν

def internal (msg : String) : StoreError := .Internal msg

/-! ## Configuration and counters -/

/-- Store configuration. -/
structure StoreConfig where
  blockChars : ℕ
  tailSoftCapBytes : ℕ
  tailHardCapBytes : ℕ
  nodeTailCapBytes : ℕ
  maxSessions : ℕ
  deriving DecidableEq

def StoreConfig.validate (cfg : StoreConfig) : Except StoreError Unit :=
  if cfg.blockChars = 0 then .error (.InvalidConfig "block_chars must be > 0")
  else if cfg.tailSoftCapBytes > cfg.tailHardCapBytes then
    .error (.InvalidConfig "tail_soft_cap_bytes must be <= tail_hard_cap_bytes")
  else if cfg.maxSessions = 0 then .error (.InvalidConfig "max_sessions must be > 0")
  else .ok ()

theorem StoreConfig.validate_eq_ok {cfg : StoreConfig} :
    cfg.validate = .ok () ↔ 0 < cfg.blockChars ∧ cfg.tailSoftCapBytes ≤ cfg.tailHardCapBytes ∧
      0 < cfg.maxSessions := by
  unfold validate
  split_ifs <;> simp <;> omega

/-- Key material of a session operation. -/
structure KeyCtx where
  fingerprint : SemanticFingerprint
  /-- No seal within this many characters of the tail's end. -/
  sealGuardChars : ℕ
  deriving DecidableEq

/-- Counters. -/
structure Stats where
  puts : ℕ
  extends_ : ℕ
  forks : ℕ
  lookups : ℕ
  lookupHits : ℕ
  lookupMisses : ℕ
  checksumRejects : ℕ
  kCapOverflows : ℕ
  hardCapDegrades : ℕ
  seals : ℕ
  sealedTokens : ℕ
  sessionsEvicted : ℕ
  nodesSkippedTailCap : ℕ
  chainDetaches : ℕ
  importRejects : ℕ
  revisionConflicts : ℕ
  pathCounts : Table String ℕ

def Stats.zero : Stats := ⟨0, 0, 0, 0, 0, 0, 0, 0, 0, 0, 0, 0, 0, 0, 0, 0, ∅⟩

def Stats.bumpPath (s : Stats) (path : String) : Stats :=
  { s with pathCounts := s.pathCounts.insert path ((s.pathCounts.lookup path).getD 0 + 1) }

/-! ## Sealed ids -/

/-- Sealed-prefix storage: immutable shared blocks and one growable suffix. The
length is carried along, and is the length of the stream. -/
structure SealedIds where
  blocks : List SharedIds
  owned : List UInt32
  len : ℕ
  len_eq : len = (blocks.flatMap SharedIds.asSlice ++ owned).length

namespace SealedIds

def empty : SealedIds := ⟨[], [], 0, rfl⟩

/-- Adopt an immutable shared range as the next segment; a pending suffix is frozen
into a block of its own first. -/
def pushShared (s : SealedIds) (view : SharedIds) : SealedIds :=
  if view.len = 0 then s
  else
    { blocks := s.blocks ++ (if s.owned = [] then [] else [SharedIds.fromVec 0 s.owned]) ++ [view]
      owned := []
      len := s.len + view.len
      len_eq := by
        rw [s.len_eq]
        by_cases h : s.owned = [] <;> simp [h]
        omega }

/-- Copy a small sealed head into the growable suffix. -/
def extendFromSlice (s : SealedIds) (ids : List UInt32) : SealedIds where
  blocks := s.blocks
  owned := s.owned ++ ids
  len := s.len + ids.length
  len_eq := by
    rw [s.len_eq]
    simp only [List.length_append]
    omega

def fromVec (ids : List UInt32) : SealedIds := ⟨[], ids, ids.length, rfl⟩

/-- The stream as contiguous slices, in order. -/
def parts (s : SealedIds) : List (List UInt32) :=
  s.blocks.map SharedIds.asSlice ++ if s.owned = [] then [] else [s.owned]

/-- The stream. -/
def ids (s : SealedIds) : List UInt32 := s.parts.flatten

/-- The loop over the parts: `base` is the index the part starts at. -/
def suffixInto (start : ℕ) : ℕ → List (List UInt32) → List UInt32
  | _, [] => []
  | base, part :: rest =>
      let stop := base + part.length
      (if stop > start then part.drop (start - base) else []) ++ suffixInto start stop rest

/-- The suffix from an absolute index on, as an owned row. -/
def suffixToVec (s : SealedIds) (start : ℕ) : List UInt32 := suffixInto start 0 s.parts

/-- The single shared range that holds the whole stream, when it is one. -/
def asSingleShared (s : SealedIds) : Option SharedIds :=
  match s.blocks, s.owned with
  | [single], [] => some single
  | _, _ => none

theorem ids_eq (s : SealedIds) : s.ids = s.blocks.flatMap SharedIds.asSlice ++ s.owned := by
  unfold ids parts
  by_cases h : s.owned = [] <;> simp [h, List.flatMap]

@[simp] theorem length_ids (s : SealedIds) : s.ids.length = s.len := by rw [s.len_eq, ids_eq]

@[simp] theorem ids_empty : empty.ids = [] := rfl

@[simp] theorem ids_fromVec (xs : List UInt32) : (fromVec xs).ids = xs := by
  simp [ids_eq, fromVec]

@[simp] theorem ids_extendFromSlice (s : SealedIds) (xs : List UInt32) :
    (s.extendFromSlice xs).ids = s.ids ++ xs := by
  simp [ids_eq, extendFromSlice]

@[simp] theorem ids_pushShared (s : SealedIds) (view : SharedIds) :
    (s.pushShared view).ids = s.ids ++ view.asSlice := by
  unfold pushShared
  split
  · rename_i h
    rw [← SharedIds.length_asSlice] at h
    rw [List.length_eq_zero_iff.mp h, List.append_nil]
  · by_cases h : s.owned = [] <;> simp [ids_eq, h]

theorem suffixInto_eq (start base : ℕ) (rows : List (List UInt32)) :
    suffixInto start base rows = rows.flatten.drop (start - base) := by
  induction rows generalizing base with
  | nil => simp [suffixInto]
  | cons part rest ih =>
      rw [suffixInto, ih, List.flatten_cons, List.drop_append]
      by_cases h : base + part.length > start
      · simp only [if_pos h]
        congr 2
        omega
      · have hdrop : part.drop (start - base) = [] := List.drop_of_length_le (by omega)
        simp only [if_neg h, hdrop]
        congr 2
        omega

@[simp] theorem suffixToVec_eq (s : SealedIds) (start : ℕ) :
    s.suffixToVec start = s.ids.drop start := by
  rw [suffixToVec, suffixInto_eq, ids, Nat.sub_zero]

end SealedIds

/-! ## Chain nodes -/

/-- The last 32 bytes of a serialized record. -/
def trailingChecksum (bytes : List UInt8) : Except StoreError Bytes32 :=
  if h : bytes.length < 32 then
    .error (internal "serialized cache record shorter than its checksum")
  else .ok ⟨bytes.drop (bytes.length - 32), by rw [List.length_drop]; omega⟩

/-- In-memory sealed node: the record and the checksum captured when it entered. -/
structure NodeEntry where
  record : NodeCacheRecord
  checksum : Bytes32
  deriving DecidableEq

namespace NodeEntry

variable [Digests]

def create (record : NodeCacheRecord) : Except StoreError NodeEntry := do
  let bytes ← record.toBytes
  let checksum ← trailingChecksum bytes
  return { record, checksum }

def verify (e : NodeEntry) : Bool :=
  match e.record.toBytes with
  | .ok bytes =>
      match trailingChecksum bytes with
      | .ok cs => cs = e.checksum
      | .error _ => false
  | .error _ => false

/-- A node that was created holds its record and verifies. -/
theorem create_ok {record : NodeCacheRecord} {e : NodeEntry} (h : create record = .ok e) :
    e.record = record ∧ e.verify = true := by
  obtain ⟨bytes, hbytes, h⟩ := bind_eq_ok.mp h
  obtain ⟨cs, hcs, h⟩ := bind_eq_ok.mp h
  cases h
  exact ⟨rfl, by simp [verify, hbytes, hcs]⟩

/-- Creation is refused only when the serialization is. -/
theorem create_of_lt {record : NodeCacheRecord} (hi : record.ids.length < 2 ^ 32)
    (ht : utf8Len record.textTail < 2 ^ 32) : ∃ e, create record = .ok e := by
  have hbytes := NodeCacheRecord.toBytes_eq_ok.mpr ⟨hi, ht, rfl⟩
  have hlen : ¬(sealBody DOMAIN_NODE_CACHE record.bodyBytes).length < 32 := by simp [sealBody]
  rw [create, hbytes, ok_bind, trailingChecksum, dif_neg hlen]
  exact ⟨_, rfl⟩

theorem create_error {record : NodeCacheRecord} {err : StoreError} (h : create record = .error err) :
    2 ^ 32 ≤ record.ids.length ∨ 2 ^ 32 ≤ utf8Len record.textTail := by
  by_contra hlt
  rw [not_or, not_le, not_le] at hlt
  obtain ⟨e, he⟩ := create_of_lt hlt.1 hlt.2
  rw [he] at h
  cases h

end NodeEntry

/-! ## The session -/

/-- One live session. -/
structure Session where
  /-- Index of the key in the store's fingerprint table. -/
  keyId : ℕ
  witness : WitnessCategory
  revision : ℕ
  prevRecordHash : BlockHash
  recordHash : BlockHash
  lastReplaceFrom : ℕ
  totalChars : ℕ
  /-- Last certified split point; the sealed ids cover the characters before it. -/
  safeChar : ℕ
  safeByte : ℕ
  sealedIds : SealedIds
  /-- Running payload-digest state over the sealed stream. -/
  sealedPayload : PayloadHasher
  idsGeneration : ℕ
  idsSnapshot : Option (ℕ × SharedIds)
  /-- The characters before this one are hashed into the chain. -/
  blocksEnd : ℕ
  blocksEndByte : ℕ
  /-- Raw text `[blocksEnd, max blocksEnd safeChar)`; empty once detached. -/
  buf : Text
  chainTail : Option BlockHash
  chainBaseSafe : ℕ
  chainBaseIdx : ℕ
  chainOk : Bool
  /-- Seal points in order: character position and cumulative sealed ids. -/
  sealLog : List (ℕ × ℕ)
  scanFloor : ℕ
  tail : TailState
  recovery : Option RecoveryDigest
  content : Option ContentDigest
  lastUsed : ℕ
  /-- Ghost: the text of the sealed stream. The code drops it. -/
  sealedText : Text

namespace Session

def fresh (keyId : ℕ) (witness : WitnessCategory) (clock : ℕ) : Session where
  keyId := keyId
  witness := witness
  revision := 0
  prevRecordHash := ZERO_HASH
  recordHash := ZERO_HASH
  lastReplaceFrom := 0
  totalChars := 0
  safeChar := 0
  safeByte := 0
  sealedIds := .empty
  sealedPayload := .new
  idsGeneration := 0
  idsSnapshot := none
  blocksEnd := 0
  blocksEndByte := 0
  buf := []
  chainTail := none
  chainBaseSafe := 0
  chainBaseIdx := 0
  chainOk := true
  sealLog := [(0, 0)]
  scanFloor := 0
  tail := .new
  recovery := none
  content := none
  lastUsed := clock
  sealedText := []

def tokenCount (s : Session) : ℕ := s.sealedIds.len + s.tail.nTokens

/-- Materialize the complete token stream. -/
def allIds (s : Session) : List UInt32 := s.sealedIds.parts.flatten ++ s.tail.ids

/-- The text the session represents. -/
def text (s : Session) : Text := s.sealedText ++ s.tail.text

/-- Invalidate the complete-row snapshot before a content mutation. -/
def bumpIdsGeneration (s : Session) : Session :=
  { s with idsGeneration := s.idsGeneration + 1, idsSnapshot := none }

/-- `replace_token_offset` as recorded: category 0 always records 0. -/
def recordedReplaceOffset (s : Session) : ℕ :=
  if s.witness = .NoneFullReencode then 0 else s.lastReplaceFrom

theorem allIds_eq (s : Session) : s.allIds = s.sealedIds.ids ++ s.tail.ids := rfl

/-- A view of the complete stream that needs no copy. -/
def joinedRow (s : Session) : Option SharedIds :=
  match s.sealedIds.asSingleShared, s.tail.sharedIds with
  | some head, some tail => if s.tail.nTokens = tail.len then head.joinAdjacent tail else none
  | none, some tail =>
      if s.sealedIds.len = 0 ∧ s.tail.nTokens = tail.len then some tail else none
  | _, _ => none

/-- The complete stream as a shared row: the cached one while its generation is current,
else a joined view, else a fresh row. -/
def sharedRow (s : Session) : SharedIds :=
  match s.idsSnapshot with
  | some (generation, snapshot) =>
      if generation = s.idsGeneration then snapshot
      else s.joinedRow.getD (SharedIds.fromVec 0 s.allIds)
  | none => s.joinedRow.getD (SharedIds.fromVec 0 s.allIds)

theorem length_allIds (s : Session) : s.allIds.length = s.tokenCount := by
  rw [allIds_eq, List.length_append, SealedIds.length_ids]
  rfl

variable [Digests]

/-- Chain link hash of the current committed state: the sealed hasher continued with
only the tail's ids and text. -/
def commitHash (s : Session) (fingerprint : SemanticFingerprint) : BlockHash :=
  let digest := s.sealedPayload.digestWithTail s.tail.ids (utf8 s.tail.text)
  let tailLen := s.tail.textBytes
  linkHash
    { prevBlockHash := s.prevRecordHash
      fingerprint
      sessionRevision := s.revision
      fullTextBytes := s.safeByte + tailLen
      stablePrefixBytes := s.safeByte
      textTailBytes := tailLen
      tokenCount := s.tokenCount
      replaceTokenOffset := s.recordedReplaceOffset
      witness := s.witness
      payloadDigest := digest }

end Session

end Toktier.StoreCore
