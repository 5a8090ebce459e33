import Toktier.StoreCore.RecordCodec

/-!
# The read-side record decoder

The facade's own reader of store format v1. It takes the fixed header apart at once, checks
it in the order of the contract, walks the header extension, and verifies the payload.

## Main definitions

* `RecordView`, `decodeRecord`: a verified record, and the decoder.
* `Sound`: what a record has to satisfy for both readers.

## Main results

* `decodeRecord_ok_iff`, `fromBytes_ok_iff`: what each reader accepts.
* `readers_agree_iff`: where the two readers agree.
-/
namespace Toktier.Facade.Records

open Toktier.Lib Toktier.StoreCore

/-! ## Constants -/

/-- Witness category values assigned by the format contract. -/
def WITNESS_CATEGORIES : List ℕ := [0x0000, 0x0001, 0x0002, 0x0003]

/-- A reader's exception. -/
inductive RecordError
  | StoreCorrupt (failure : String)
  | StoreFormatUnsupported (message key : String) (value : ℕ)
  deriving DecidableEq

def corrupt (failure : String) : RecordError := .StoreCorrupt failure

/-- `if c: raise e`. -/
def raiseIf (c : Prop) [Decidable c] (e : RecordError) : Except RecordError Unit :=
  if c then .error e else .ok ()

/-! ## The header -/

/-- `record[lo:hi]`. -/
def bytesAt (record : List UInt8) (lo hi : ℕ) : List UInt8 := (record.take hi).drop lo

/-- The little-endian integer in `width` bytes at `off`. -/
def numAt (record : List UInt8) (off width : ℕ) : ℕ := leNat (bytesAt record off (off + width))

/-- The fixed header past the magic, in offset order. -/
structure Header where
  format_version : ℕ
  header_length : ℕ
  flags : ℕ
  endianness : ℕ
  reserved0 : ℕ
  witness_category : ℕ
  reserved1 : ℕ
  fingerprint : List UInt8
  session_revision : ℕ
  prev_block_hash : List UInt8
  curr_block_hash : List UInt8
  full_text_len : ℕ
  stable_prefix_len : ℕ
  tail_len : ℕ
  token_count : ℕ
  replace_offset : ℕ
  payload_checksum : List UInt8

/-- The header of a record that is long enough for it. -/
def Header.unpack (record : List UInt8) : Header where
  format_version := numAt record 8 2
  header_length := numAt record 10 2
  flags := numAt record 12 4
  endianness := numAt record 16 1
  reserved0 := numAt record 17 1
  witness_category := numAt record 18 2
  reserved1 := numAt record 20 4
  fingerprint := bytesAt record 24 56
  session_revision := numAt record 56 8
  prev_block_hash := bytesAt record 64 96
  curr_block_hash := bytesAt record 96 128
  full_text_len := numAt record 128 8
  stable_prefix_len := numAt record 136 8
  tail_len := numAt record 144 8
  token_count := numAt record 152 8
  replace_offset := numAt record 160 8
  payload_checksum := bytesAt record 168 200

/-- One decoded and verified record. -/
structure RecordView where
  format_version : ℕ
  header_length : ℕ
  flags : ℕ
  witness_category : ℕ
  semantic_fingerprint : List UInt8
  session_revision : ℕ
  prev_block_hash : List UInt8
  curr_block_hash : List UInt8
  full_text_byte_length : ℕ
  stable_prefix_byte_length : ℕ
  text_tail_byte_length : ℕ
  token_count : ℕ
  replace_token_offset : ℕ
  payload_checksum : List UInt8
  ids_bytes : List UInt8
  text_tail : Text

/-- Token ids, four bytes each; the last one from what is left. -/
def idsOfBytes : List UInt8 → List ℕ
  | a :: b :: c :: d :: rest => leNat [a, b, c, d] :: idsOfBytes rest
  | [] => []
  | rest => [leNat rest]

def RecordView.ids (view : RecordView) : List ℕ := idsOfBytes view.ids_bytes

/-! ## The decoder -/

/-- Step 1, the bounds gate, behind the length and the magic. -/
def boundsGate (record : List UInt8) (h : Header) : Except RecordError Unit := do
  raiseIf (h.endianness ≠ 0x01) (corrupt "endianness marker mismatch")
  raiseIf (h.reserved0 ≠ 0 ∨ h.reserved1 ≠ 0) (corrupt "reserved bytes are not zero")
  raiseIf (h.format_version ≠ 1) (.StoreFormatUnsupported
    s!"record format version {h.format_version} is newer than this reader"
    "format_version" h.format_version)
  raiseIf (h.header_length < FIXED_HEADER_LEN ∨ HEADER_LEN_MAX < h.header_length ∨
    h.header_length % 8 ≠ 0 ∨ record.length < h.header_length) (corrupt "header length out of bounds")

/-- Step 2, the field bounds. -/
def fieldBounds (h : Header) : Except RecordError Unit := do
  raiseIf (h.flags &&& 0x0000FFFF ≠ 0) (.StoreFormatUnsupported
    "record carries mandatory feature bits unknown to this reader" "flags" h.flags)
  raiseIf (MAX_FULL_TEXT_BYTES < h.full_text_len) (corrupt "full text length exceeds the format bound")
  raiseIf (h.full_text_len < h.stable_prefix_len) (corrupt "stable prefix longer than the full text")
  raiseIf (MAX_TAIL_BYTES_OR_TOKENS < h.tail_len) (corrupt "text tail length exceeds the format bound")
  raiseIf (h.stable_prefix_len + h.tail_len ≠ h.full_text_len)
    (corrupt "prefix and tail lengths do not close to the full text")
  raiseIf (MAX_TAIL_BYTES_OR_TOKENS < h.token_count) (corrupt "token count exceeds the format bound")
  raiseIf (h.token_count < h.replace_offset) (corrupt "replace offset exceeds the token count")
  raiseIf (h.session_revision = 0 ∧ h.prev_block_hash ≠ List.replicate 32 0)
    (corrupt "genesis record with a non-zero predecessor hash")

/-- Walk the header extension. -/
def parseExtension (record : List UInt8) (header_length position : ℕ) : Except RecordError Unit :=
  if _h : position < header_length then
    if header_length - position < 4 then .error (corrupt "truncated TLV header in the extension")
    else
      let length := numAt record (position + 2) 2
      if header_length < position + 4 + length then
        .error (corrupt "TLV value extends past the header")
      else parseExtension record header_length (position + 4 + length)
  else .ok ()
termination_by header_length - position

section

variable [Digests]

/-- The digest of everything behind the header. -/
def payloadDigest (record : List UInt8) (h : Header) : BlockHash :=
  sha256 (DOMAIN_PAYLOAD ++ record.drop h.header_length)

/-- The header with zeros in the checksum slot. -/
def blankedHeader (record : List UInt8) (h : Header) : List UInt8 :=
  let header := record.take h.header_length
  header.take 168 ++ List.replicate 32 0 ++ header.drop 200

def expectedChecksum (record : List UInt8) (h : Header) : BlockHash :=
  sha256 (DOMAIN_RECORD ++ blankedHeader record h ++ (payloadDigest record h).bytes)

/-- The chain link that the fields give. -/
def linkOf (record : List UInt8) (h : Header) : BlockHash :=
  sha256 (DOMAIN_LINK ++ h.prev_block_hash ++ h.fingerprint ++ (leBytes 8 h.session_revision ++
    leBytes 8 h.full_text_len ++ leBytes 8 h.stable_prefix_len ++ leBytes 8 h.tail_len ++
    leBytes 8 h.token_count ++ leBytes 8 h.replace_offset ++ leBytes 2 h.witness_category) ++
    (payloadDigest record h).bytes)

/-- Steps 3 and 4, size closure and integrity. -/
def verifyPayload (record : List UInt8) (h : Header) : Except RecordError Unit := do
  raiseIf (record.length ≠ h.header_length + h.token_count * 4 + h.tail_len)
    (corrupt "record size does not close over header, ids and tail")
  raiseIf (h.payload_checksum ≠ (expectedChecksum record h).bytes) (corrupt "payload checksum mismatch")
  raiseIf (h.curr_block_hash ≠ (linkOf record h).bytes) (corrupt "chain link hash mismatch")

/-- Step 5, the semantic checks: the text tail. -/
def readTail (record : List UInt8) (h : Header) : Except RecordError Text := do
  raiseIf (h.witness_category ∉ WITNESS_CATEGORIES) (.StoreFormatUnsupported
    s!"witness category {h.witness_category} is not assigned" "witness_category" h.witness_category)
  raiseIf (h.witness_category = 0 ∧ (h.stable_prefix_len ≠ 0 ∨ h.replace_offset ≠ 0))
    (corrupt "full-reencode record claims a sealed prefix")
  match utf8Decode? ((record.drop h.header_length).drop (h.token_count * 4)) with
  | some text_tail => .ok text_tail
  | none => .error (corrupt "text tail is not valid UTF-8")

/-- The view of a verified record. -/
def viewOf (record : List UInt8) (h : Header) (text_tail : Text) : RecordView where
  format_version := h.format_version
  header_length := h.header_length
  flags := h.flags
  witness_category := h.witness_category
  semantic_fingerprint := h.fingerprint
  session_revision := h.session_revision
  prev_block_hash := h.prev_block_hash
  curr_block_hash := h.curr_block_hash
  full_text_byte_length := h.full_text_len
  stable_prefix_byte_length := h.stable_prefix_len
  text_tail_byte_length := h.tail_len
  token_count := h.token_count
  replace_token_offset := h.replace_offset
  payload_checksum := h.payload_checksum
  ids_bytes := (record.drop h.header_length).take (h.token_count * 4)
  text_tail := text_tail

/-- Decode one record, verifying every rule of the contract that applies. -/
def decodeRecord (record : List UInt8) : Except RecordError RecordView := do
  raiseIf (record.length < FIXED_HEADER_LEN) (corrupt "record shorter than the fixed header")
  raiseIf (bytesAt record 0 8 ≠ MAGIC) (corrupt "bad magic")
  let h := Header.unpack record
  boundsGate record h
  fieldBounds h
  parseExtension record h.header_length FIXED_HEADER_LEN
  verifyPayload record h
  let text_tail ← readTail record h
  return viewOf record h text_tail

end

/-! ## What both readers ask for -/

/-- From `pos` to the end of the header the extension is a row of entries. -/
inductive Extension (record : List UInt8) (hl : ℕ) : ℕ → Prop
  | stop {pos : ℕ} (h : hl ≤ pos) : Extension record hl pos
  | entry {pos : ℕ} (hpos : pos < hl) (h : pos + 4 + numAt record (pos + 2) 2 ≤ hl)
      (rest : Extension record hl (pos + 4 + numAt record (pos + 2) 2)) : Extension record hl pos

/-- The fields of the header are within their bounds. -/
structure Header.Bounded (h : Header) : Prop where
  flags : h.flags &&& 0x0000FFFF = 0
  full_le : h.full_text_len ≤ MAX_FULL_TEXT_BYTES
  stable_le : h.stable_prefix_len ≤ h.full_text_len
  tail_le : h.tail_len ≤ MAX_TAIL_BYTES_OR_TOKENS
  sum_eq : h.stable_prefix_len + h.tail_len = h.full_text_len
  tokens_le : h.token_count ≤ MAX_TAIL_BYTES_OR_TOKENS
  offset_le : h.replace_offset ≤ h.token_count

/-- The header starts a record of `length` bytes. -/
structure Header.Opens (h : Header) (length : ℕ) : Prop where
  endianness : h.endianness = 0x01
  reserved0 : h.reserved0 = 0
  reserved1 : h.reserved1 = 0
  version : h.format_version = 1
  le_header : FIXED_HEADER_LEN ≤ h.header_length
  header_le : h.header_length ≤ HEADER_LEN_MAX
  aligned : h.header_length % 8 = 0
  fits : h.header_length ≤ length

/-- The predecessor hash is zero. -/
def Header.Rootless (h : Header) : Prop := h.prev_block_hash = List.replicate 32 0

instance (h : Header) : Decidable h.Rootless := inferInstanceAs (Decidable (_ = _))

section

variable [Digests]

/-- Every rule of the format, but the one that ties the revision to the predecessor hash. -/
structure Sound (record : List UInt8) : Prop where
  long : FIXED_HEADER_LEN ≤ record.length
  magic : bytesAt record 0 8 = MAGIC
  opens : (Header.unpack record).Opens record.length
  bounded : (Header.unpack record).Bounded
  extension : Extension record (Header.unpack record).header_length FIXED_HEADER_LEN
  size : record.length = (Header.unpack record).header_length +
    (Header.unpack record).token_count * 4 + (Header.unpack record).tail_len
  checksum : (Header.unpack record).payload_checksum =
    (expectedChecksum record (Header.unpack record)).bytes
  link : (Header.unpack record).curr_block_hash = (linkOf record (Header.unpack record)).bytes
  witness : (Header.unpack record).witness_category ∈ WITNESS_CATEGORIES
  uncertified : (Header.unpack record).witness_category = 0 →
    (Header.unpack record).stable_prefix_len = 0 ∧ (Header.unpack record).replace_offset = 0
  tail : (utf8Decode? ((record.drop (Header.unpack record).header_length).drop
    ((Header.unpack record).token_count * 4))).isSome

end

/-! ## The facade's reader -/

variable {record : List UInt8} {h : Header} {e : RecordError} {u : Unit}

@[simp] theorem raiseIf_eq_ok {c : Prop} [Decidable c] : raiseIf c e = .ok u ↔ ¬c := by
  by_cases hc : c <;> simp [raiseIf, hc]

theorem boundsGate_eq_ok : boundsGate record h = .ok u ↔ h.Opens record.length := by
  unfold boundsGate
  simp only [bind_eq_ok, raiseIf_eq_ok, exists_const]
  constructor
  · rintro ⟨h1, h2, h3, h4⟩
    exact ⟨by tauto, by tauto, by tauto, by tauto, by omega, by omega, by omega, by omega⟩
  · rintro ⟨h1, h2, h3, h4, h5, h6, h7, h8⟩
    exact ⟨by tauto, by tauto, by tauto, by omega⟩

theorem fieldBounds_eq_ok :
    fieldBounds h = .ok u ↔ h.Bounded ∧ (h.session_revision = 0 → h.Rootless) := by
  unfold fieldBounds
  simp only [bind_eq_ok, raiseIf_eq_ok, exists_const]
  constructor
  · rintro ⟨h1, h2, h3, h4, h5, h6, h7, h8⟩
    exact ⟨⟨by tauto, by omega, by omega, by omega, by omega, by omega, by omega⟩,
      fun h0 => by_contra fun hne => h8 ⟨h0, hne⟩⟩
  · rintro ⟨⟨h1, h2, h3, h4, h5, h6, h7⟩, h8⟩
    exact ⟨by tauto, by omega, by omega, by omega, by omega, by omega, by omega,
      fun hne => hne.2 (h8 hne.1)⟩

theorem parseExtension_eq_ok {hl pos : ℕ} :
    parseExtension record hl pos = .ok u ↔ Extension record hl pos := by
  fun_induction parseExtension record hl pos with
  | case1 pos hpos hshort =>
      refine iff_of_false (by simp) fun h => ?_
      cases h with
      | stop hstop => omega
      | entry _ hfits _ => omega
  | case2 pos hpos hshort length hlong =>
      refine iff_of_false (by simp) fun h => ?_
      cases h with
      | stop hstop => omega
      | entry _ hfits _ => omega
  | case3 pos hpos hshort length hlong ih =>
      rw [ih]
      refine ⟨fun h => .entry hpos (Nat.not_lt.mp hlong) h, fun h => ?_⟩
      cases h with
      | stop hstop => omega
      | entry _ _ hrest => exact hrest
  | case4 pos hpos => exact iff_of_true rfl (.stop (Nat.not_lt.mp hpos))

section

variable [Digests]

theorem verifyPayload_eq_ok : verifyPayload record h = .ok u ↔
    record.length = h.header_length + h.token_count * 4 + h.tail_len ∧
      h.payload_checksum = (expectedChecksum record h).bytes ∧
      h.curr_block_hash = (linkOf record h).bytes := by
  unfold verifyPayload
  simp only [bind_eq_ok, raiseIf_eq_ok, exists_const, not_not]

omit [Digests] in
theorem readTail_eq_ok {t : Text} : readTail record h = .ok t ↔
    h.witness_category ∈ WITNESS_CATEGORIES ∧
      (h.witness_category = 0 → h.stable_prefix_len = 0 ∧ h.replace_offset = 0) ∧
      utf8Decode? ((record.drop h.header_length).drop (h.token_count * 4)) = some t := by
  unfold readTail
  simp only [bind_eq_ok, raiseIf_eq_ok, exists_const, not_not]
  refine and_congr_right fun _ => and_congr ?_ ?_
  · constructor
    · intro hn h0
      by_contra hne
      exact hn ⟨h0, by tauto⟩
    · rintro hn ⟨h0, hne⟩
      have := hn h0
      tauto
  · split <;> simp_all

/-- What the facade's reader accepts. -/
theorem decodeRecord_ok_iff {v : RecordView} : decodeRecord record = .ok v ↔
    Sound record ∧ ((Header.unpack record).session_revision = 0 → (Header.unpack record).Rootless) ∧
      ∃ t, utf8Decode? ((record.drop (Header.unpack record).header_length).drop
        ((Header.unpack record).token_count * 4)) = some t ∧
        v = viewOf record (Header.unpack record) t := by
  unfold decodeRecord
  simp only [bind_eq_ok, raiseIf_eq_ok, boundsGate_eq_ok, fieldBounds_eq_ok, parseExtension_eq_ok,
    verifyPayload_eq_ok, readTail_eq_ok, exists_const]
  constructor
  · rintro ⟨h1, h2, h3, ⟨h4, h5⟩, h6, ⟨h7, h8, h9⟩, t, ⟨h10, h11, h12⟩, hv⟩
    exact ⟨⟨Nat.not_lt.mp h1, not_not.mp h2, h3, h4, h6, h7, h8, h9, h10, h11, by rw [h12]; rfl⟩, h5, t,
      h12, (Except.ok.inj hv).symm⟩
  · rintro ⟨⟨h1, h2, h3, h4, h6, h7, h8, h9, h10, h11, -⟩, h5, t, h12, rfl⟩
    exact ⟨Nat.not_lt.mpr h1, not_not.mpr h2, h3, ⟨h4, h5⟩, h6, ⟨h7, h8, h9⟩, t, ⟨h10, h11, h12⟩, rfl⟩

end

/-! ## The store's reader -/

theorem fromU16_eq_ok {value : ℕ} {w : WitnessCategory} :
    WitnessCategory.fromU16 value = .ok w ↔ w.asU16 = value := by
  refine ⟨WitnessCategory.asU16_of_fromU16, ?_⟩
  rintro rfl
  exact WitnessCategory.fromU16_asU16 w

theorem leAt_eq_numAt {off width v : ℕ} (hlen : off + width ≤ record.length) :
    leAt record off width = .ok v ↔ numAt record off width = v := by
  rw [leAt_eq_ok, numAt, bytesAt]
  exact and_iff_right hlen

theorem decodeGate_eq_ok {hl : ℕ} {w : WitnessCategory} : decodeGate record = .ok (hl, w) ↔
    FIXED_HEADER_LEN ≤ record.length ∧ bytesAt record 0 8 = MAGIC ∧
      (Header.unpack record).Opens record.length ∧ (Header.unpack record).flags &&& 0x0000FFFF = 0 ∧
      (Header.unpack record).header_length = hl ∧ (Header.unpack record).witness_category = w.asU16 := by
  by_cases hlong : FIXED_HEADER_LEN ≤ record.length
  · have hlen : 200 ≤ record.length := hlong
    unfold decodeGate
    simp only [bind_eq_ok, require_eq_ok, sliceAt_eq_ok, checked_eq_ok, exists_const,
      leAt_eq_numAt (show 8 + 2 ≤ record.length by omega),
      leAt_eq_numAt (show 10 + 2 ≤ record.length by omega),
      leAt_eq_numAt (show 16 + 1 ≤ record.length by omega),
      leAt_eq_numAt (show 17 + 1 ≤ record.length by omega),
      leAt_eq_numAt (show 12 + 4 ≤ record.length by omega),
      leAt_eq_numAt (show 18 + 2 ≤ record.length by omega),
      leAt_eq_numAt (show 20 + 4 ≤ record.length by omega), exists_eq_left', fromU16_eq_ok]
    constructor
    · rintro ⟨-, magic, ⟨-, hmagic⟩, rfl, h1, ⟨⟨h2, h3⟩, h4, h5⟩, h6, h7, h8, w', hw, h9, hret⟩
      cases hret
      exact ⟨hlong, hmagic, ⟨h6, h7, h9, h1, h2, h3, h4, h5⟩, h8, rfl, hw.symm⟩
    · rintro ⟨-, hmagic, ⟨h6, h7, h9, h1, h2, h3, h4, h5⟩, h8, rfl, hw⟩
      exact ⟨hlong, MAGIC, ⟨⟨by omega, by omega⟩, hmagic⟩, rfl, h1, ⟨⟨h2, h3⟩, h4, h5⟩, h6, h7, h8, w,
        hw.symm, h9, rfl⟩
  · refine iff_of_false (fun hok => ?_) fun hok => hlong hok.1
    obtain ⟨_, hreq, -⟩ := bind_eq_ok.mp hok
    exact hlong (require_eq_ok.mp hreq)

theorem hashAt_eq_ok {off : ℕ} {b : BlockHash} (hlen : off + 32 ≤ record.length) :
    hashAt record off = .ok b ↔ b.bytes = bytesAt record off (off + 32) := by
  have hsize : ((record.take (off + 32)).drop off).length = 32 := by
    rw [List.length_drop, List.length_take]
    omega
  unfold hashAt
  simp only [bind_eq_ok, sliceAt_eq_ok, HASH_LEN]
  constructor
  · rintro ⟨bs, ⟨-, rfl⟩, hb⟩
    rw [dif_pos hsize] at hb
    cases hb
    rfl
  · intro hb
    refine ⟨_, ⟨⟨by omega, hlen⟩, rfl⟩, ?_⟩
    rw [dif_pos hsize]
    obtain ⟨bytes, hbytes⟩ := b
    subst hb
    rfl

/-- The fields that the store's reader takes are those of the header. -/
structure FieldsOf (h : Header) (f : HeaderFields) : Prop where
  fingerprint : f.fingerprint.bytes = h.fingerprint
  revision : f.revision = h.session_revision
  prev : f.prevBlockHash.bytes = h.prev_block_hash
  curr : f.storedCurr.bytes = h.curr_block_hash
  full : f.fullTextBytes = h.full_text_len
  stable : f.stablePrefixBytes = h.stable_prefix_len
  tail : f.textTailBytes = h.tail_len
  tokens : f.tokenCount = h.token_count
  offset : f.replaceTokenOffset = h.replace_offset

theorem readFields_eq_ok {f : HeaderFields} (hlong : 200 ≤ record.length) :
    readFields record = .ok f ↔ FieldsOf (Header.unpack record) f := by
  unfold readFields
  simp only [bind_eq_ok, hashAt_eq_ok (show 24 + 32 ≤ record.length by omega),
    hashAt_eq_ok (show 64 + 32 ≤ record.length by omega),
    hashAt_eq_ok (show 96 + 32 ≤ record.length by omega),
    leAt_eq_numAt (show 56 + 8 ≤ record.length by omega),
    leAt_eq_numAt (show 128 + 8 ≤ record.length by omega),
    leAt_eq_numAt (show 136 + 8 ≤ record.length by omega),
    leAt_eq_numAt (show 144 + 8 ≤ record.length by omega),
    leAt_eq_numAt (show 152 + 8 ≤ record.length by omega),
    leAt_eq_numAt (show 160 + 8 ≤ record.length by omega), exists_eq_left']
  constructor
  · rintro ⟨fp, hfp, prev, hprev, curr, hcurr, hf⟩
    cases hf
    exact ⟨hfp, rfl, hprev, hcurr, rfl, rfl, rfl, rfl, rfl⟩
  · obtain ⟨fp, revision, prev, curr, full, stable, tail, tokens, offset⟩ := f
    rintro ⟨h1, rfl, h2, h3, rfl, rfl, rfl, rfl, rfl⟩
    exact ⟨fp, h1, prev, h2, curr, h3, rfl⟩

theorem tlvLoop_eq_ok {hl fuel pos : ℕ} (hlen : hl ≤ record.length) (hmax : hl ≤ HEADER_LEN_MAX)
    (hfuel : hl ≤ pos + 4 * fuel) : tlvLoop record hl fuel pos = .ok u ↔ Extension record hl pos := by
  have hcap : HEADER_LEN_MAX = 4096 := rfl
  induction fuel generalizing pos with
  | zero =>
      unfold tlvLoop
      rw [if_neg (by omega)]
      exact iff_of_true rfl (.stop (by omega))
  | succ fuel ih =>
      unfold tlvLoop
      by_cases hpos : pos < hl
      · rw [if_pos hpos]
        by_cases hstop : pos + 4 ≤ hl
        · simp only [bind_eq_ok, require_eq_ok, exists_const,
            leAt_eq_numAt (show pos + 2 + 2 ≤ record.length by omega), exists_eq_left']
          constructor
          · rintro ⟨-, ⟨-, hfits⟩, hrest⟩
            exact .entry hpos hfits ((ih (by omega)).mp hrest)
          · intro hext
            cases hext with
            | stop hge => omega
            | entry _ hfits hrest =>
                exact ⟨⟨by omega, hstop⟩, ⟨by omega, hfits⟩, (ih (by omega)).mpr hrest⟩
        · refine iff_of_false (fun hok => ?_) fun hext => ?_
          · obtain ⟨_, hreq, -⟩ := bind_eq_ok.mp hok
            exact hstop (require_eq_ok.mp hreq).2
          · cases hext with
            | stop hge => omega
            | entry _ hfits _ => omega
      · rw [if_neg hpos]
        exact iff_of_true rfl (.stop (Nat.not_lt.mp hpos))

section

variable [Digests]

/-- The link hash of both readers. -/
theorem linkHash_eq_linkOf (record : List UInt8) {w : WitnessCategory} {f : HeaderFields} (hf : FieldsOf h f)
    (hw : h.witness_category = w.asU16) :
    linkHash ⟨f.prevBlockHash, f.fingerprint, f.revision, f.fullTextBytes, f.stablePrefixBytes,
      f.textTailBytes, f.tokenCount, f.replaceTokenOffset, w,
      sha256 (DOMAIN_PAYLOAD ++ record.drop h.header_length)⟩ = linkOf record h := by
  unfold linkHash linkOf payloadDigest
  simp only [hf.fingerprint, hf.revision, hf.prev, hf.full, hf.stable, hf.tail, hf.tokens, hf.offset,
    hw, List.append_assoc]

theorem decodePayload_eq_ok {w : WitnessCategory} {f : HeaderFields} {r : SessionRecordV1}
    (hopens : h.Opens record.length) (hbounded : h.Bounded) (hf : FieldsOf h f)
    (hsum : h.payload_checksum = bytesAt record 168 200) (hw : h.witness_category = w.asU16) :
    decodePayload record h.header_length w f = .ok r ↔
      (record.length = h.header_length + h.token_count * 4 + h.tail_len ∧
        h.payload_checksum = (expectedChecksum record h).bytes ∧
        h.curr_block_hash = (linkOf record h).bytes) ∧
      (h.session_revision = 0 ↔ h.Rootless) ∧
      (h.witness_category = 0 → h.stable_prefix_len = 0 ∧ h.replace_offset = 0) ∧
      ∃ t, utf8Decode? ((record.drop h.header_length).drop (h.token_count * 4)) = some t ∧
        r = ⟨f.fingerprint, w, UInt64.ofNat f.revision, f.prevBlockHash, f.storedCurr,
          UInt64.ofNat f.stablePrefixBytes, UInt64.ofNat f.replaceTokenOffset,
          wordsOfBytes ((record.drop h.header_length).take (h.token_count * 4)), t⟩ := by
  have hmax : MAX_TAIL_BYTES_OR_TOKENS = 2 ^ 31 := rfl
  have hcap : HEADER_LEN_MAX = 4096 := rfl
  have hlo : 200 ≤ h.header_length := hopens.le_header
  have hle := hopens.fits
  have hhi := hopens.header_le
  have htokens := hbounded.tokens_le
  have htail := hbounded.tail_le
  have hheader : (record.take h.header_length).length = h.header_length := by
    rw [List.length_take]
    omega
  -- the stored checksum, and the one computed over the blanked header
  have hstored : ∀ b : BlockHash, hashAt (record.take h.header_length) OFF_CHECKSUM = .ok b ↔
      b.bytes = h.payload_checksum := by
    intro b
    rw [hashAt_eq_ok (by rw [hheader, OFF_CHECKSUM]; omega), hsum, bytesAt, bytesAt, List.take_take,
      OFF_CHECKSUM, min_eq_left (by omega)]
  have hchecksum : recordChecksum ((record.take h.header_length).take OFF_CHECKSUM ++
      ZERO_HASH.bytes ++ (record.take h.header_length).drop (OFF_CHECKSUM + HASH_LEN))
      (sha256 (DOMAIN_PAYLOAD ++ record.drop h.header_length)) = expectedChecksum record h := rfl
  have hlink := linkHash_eq_linkOf record hf hw
  obtain ⟨f1, f2, f3, f4, f5, f6, f7, f8, f9⟩ := hf
  rw [f8] at hlink
  have hgenesis : (decide (f.revision = 0) = decide (f.prevBlockHash = ZERO_HASH)) ↔
      (h.session_revision = 0 ↔ h.Rootless) := by
    rw [decide_eq_decide, f2, Header.Rootless, ← f3]
    exact iff_congr Iff.rfl ⟨fun hz => by rw [hz]; rfl, fun hz => Bytes32.ext hz⟩
  have huncertified : ¬(w = .NoneFullReencode ∧ (f.stablePrefixBytes ≠ 0 ∨ f.replaceTokenOffset ≠ 0)) ↔
      (h.witness_category = 0 → h.stable_prefix_len = 0 ∧ h.replace_offset = 0) := by
    have hzero : w = .NoneFullReencode ↔ h.witness_category = 0 := by
      rw [hw]
      cases w <;> simp [WitnessCategory.asU16]
    rw [hzero, f6, f9]
    tauto
  unfold decodePayload
  simp only [bind_eq_ok, require_eq_ok, sliceAt_eq_ok, checked_eq_ok, exists_const, f8,
    and_assoc, exists_and_left, exists_eq_left', List.take_length, List.drop_zero, hstored, hchecksum,
    hgenesis, huncertified]
  constructor
  · rintro ⟨-, -, -, hsize, -, -, -, -, a, ha, -, -, -, -, rfl, hcurr, hgen, hunc, -, -, -, -, t, ht, hr⟩
    rw [hlink] at hcurr
    refine ⟨f7 ▸ hsize, ha.symm, by rw [← f4, hcurr], hgen, hunc, t, ?_, (Except.ok.inj hr).symm⟩
    split at ht
    · cases ht
      assumption
    · cases ht
  · rintro ⟨hsize, hsumm, hcurr, hgen, hunc, t, ht, rfl⟩
    have hpayload : (record.drop h.header_length).length = h.token_count * 4 + h.tail_len := by
      rw [List.length_drop]
      omega
    refine ⟨by omega, by omega, by omega, by omega, hle, le_rfl, Nat.zero_le _, hle, _, hsumm.symm,
      Nat.zero_le _, by rw [hheader, OFF_CHECKSUM]; omega,
      by rw [hheader, OFF_CHECKSUM, HASH_LEN]; omega, le_rfl, rfl, ?_, hgen, hunc, Nat.zero_le _,
      by omega, by omega, le_rfl, t, ?_, rfl⟩
    · rw [hlink]
      exact (Bytes32.ext (f4.trans hcurr)).symm
    · rw [ht]

/-- What the store's reader accepts: sound records whose predecessor hash is zero exactly at
revision 0. -/
theorem decode_ok_iff {r : SessionRecordV1} : SessionRecordV1.decode record = .ok r ↔
    Sound record ∧ ((Header.unpack record).session_revision = 0 ↔ (Header.unpack record).Rootless) ∧
      ∃ w f t, FieldsOf (Header.unpack record) f ∧ (Header.unpack record).witness_category = w.asU16 ∧
        utf8Decode? ((record.drop (Header.unpack record).header_length).drop
          ((Header.unpack record).token_count * 4)) = some t ∧
        r = ⟨f.fingerprint, w, UInt64.ofNat f.revision, f.prevBlockHash, f.storedCurr,
          UInt64.ofNat f.stablePrefixBytes, UInt64.ofNat f.replaceTokenOffset,
          wordsOfBytes ((record.drop (Header.unpack record).header_length).take
            ((Header.unpack record).token_count * 4)), t⟩ := by
  constructor
  · intro hok
    obtain ⟨⟨hl, w⟩, hgate, hok⟩ := bind_eq_ok.mp hok
    obtain ⟨f, hread, hok⟩ := bind_eq_ok.mp hok
    obtain ⟨_, hfields, hok⟩ := bind_eq_ok.mp hok
    obtain ⟨_, htlv, hok⟩ := bind_eq_ok.mp hok
    obtain ⟨hlong, hmagic, hopens, hflags, rfl, hw⟩ := decodeGate_eq_ok.mp hgate
    have hf := (readFields_eq_ok hlong).mp hread
    obtain ⟨h1, h2, h3, h4, h5, h6⟩ := checkFields_eq_ok.mp hfields
    have hbounded : (Header.unpack record).Bounded :=
      ⟨hflags, hf.full ▸ h1, hf.full ▸ hf.stable ▸ h2, hf.tail ▸ h3,
        by rw [← hf.full, ← hf.stable, ← hf.tail, h4], hf.tokens ▸ h5, hf.tokens ▸ hf.offset ▸ h6⟩
    obtain ⟨⟨hsize, hsum, hlink⟩, hgen, hunc, t, ht, hr⟩ :=
      (decodePayload_eq_ok hopens hbounded hf rfl hw).mp hok
    refine ⟨⟨hlong, hmagic, hopens, hbounded, ?_, hsize, hsum, hlink, ?_, hunc, by rw [ht]; rfl⟩, hgen,
      w, f, t, hf, hw, ht, hr⟩
    · exact (tlvLoop_eq_ok hopens.fits hopens.header_le (by omega)).mp htlv
    · rw [hw]
      cases w <;> decide
  · rintro ⟨hs, hgen, w, f, t, hf, hw, ht, rfl⟩
    obtain ⟨h1, h2, h3, h4, h5, h6, h7⟩ := hs.bounded
    have hfields : checkFields f = .ok () := checkFields_eq_ok.mpr
      ⟨hf.full ▸ h2, by rw [hf.stable, hf.full]; exact h3, hf.tail ▸ h4,
        by rw [hf.stable, hf.tail, hf.full, h5], hf.tokens ▸ h6, by rw [hf.offset, hf.tokens]; exact h7⟩
    refine bind_eq_ok.mpr ⟨⟨_, w⟩, decodeGate_eq_ok.mpr ⟨hs.long, hs.magic, hs.opens, h1, rfl, hw⟩, ?_⟩
    refine bind_eq_ok.mpr ⟨f, (readFields_eq_ok hs.long).mpr hf, ?_⟩
    refine bind_eq_ok.mpr ⟨(), hfields, ?_⟩
    refine bind_eq_ok.mpr ⟨(), (tlvLoop_eq_ok hs.opens.fits hs.opens.header_le (by omega)).mpr
      hs.extension, ?_⟩
    exact (decodePayload_eq_ok hs.opens hs.bounded hf rfl hw).mpr
      ⟨⟨hs.size, hs.checksum, hs.link⟩, hgen, hs.uncertified, t, ht, rfl⟩

/-! ## The two readers -/

/-- A view and a record that say the same. -/
structure SameRecord (v : RecordView) (r : SessionRecordV1) : Prop where
  fingerprint : v.semantic_fingerprint = r.fingerprint.bytes
  witness : v.witness_category = r.witness.asU16
  revision : v.session_revision = r.revision.toNat
  prev : v.prev_block_hash = r.prevBlockHash.bytes
  curr : v.curr_block_hash = r.currBlockHash.bytes
  stable : v.stable_prefix_byte_length = r.stablePrefixBytes.toNat
  tail_len : v.text_tail_byte_length = utf8Len r.tailText
  full : v.full_text_byte_length = r.fullTextBytes
  offset : v.replace_token_offset = r.replaceTokenOffset.toNat
  ids : v.ids = r.ids.map UInt32.toNat
  text_tail : v.text_tail = r.tailText

/-- Both readers accept, and say the same, or both reject. -/
def ReadersAgree (record : List UInt8) : Prop :=
  (∃ v r, decodeRecord record = .ok v ∧ SessionRecordV1.fromBytes record = .ok r ∧ SameRecord v r) ∨
    (∃ e, decodeRecord record = .error e) ∧ ∃ e, SessionRecordV1.fromBytes record = .error e

omit [Digests] in
/-- Whole words are read alike. -/
theorem idsOfBytes_eq {bs : List UInt8} {n : ℕ} (hlen : bs.length = n * 4) :
    idsOfBytes bs = (wordsOfBytes bs).map UInt32.toNat := by
  induction n generalizing bs with
  | zero =>
      obtain rfl := List.length_eq_zero_iff.mp (by omega : bs.length = 0)
      rfl
  | succ n ih =>
      obtain ⟨a, b, c, d, rest, rfl⟩ : ∃ a b c d rest, bs = a :: b :: c :: d :: rest := by
        rcases bs with _ | ⟨a, _ | ⟨b, _ | ⟨c, _ | ⟨d, rest⟩⟩⟩⟩
        all_goals simp only [List.length_nil, List.length_cons] at hlen
        · omega
        · omega
        · omega
        · omega
        · exact ⟨a, b, c, d, rest, rfl⟩
      have hlt : leNat [a, b, c, d] < 2 ^ 32 := by
        have hlt := leNat_lt [a, b, c, d]
        simp only [List.length_cons, List.length_nil] at hlt
        omega
      simp only [List.length_cons] at hlen
      rw [idsOfBytes, wordsOfBytes, List.map_cons, ih (by omega), UInt32.toNat_ofNat_of_lt' hlt]

omit [Digests] in
theorem numAt_lt (record : List UInt8) (off width : ℕ) : numAt record off width < 256 ^ width := by
  refine (leNat_lt _).trans_le (Nat.pow_le_pow_right (by decide) ?_)
  rw [bytesAt, List.length_drop, List.length_take]
  omega

omit [Digests] in
theorem length_bytesAt {lo hi : ℕ} (h : hi ≤ record.length) : (bytesAt record lo hi).length = hi - lo := by
  rw [bytesAt, List.length_drop, List.length_take, min_eq_left h]

/-- A sound record has fields and a category for the store's reader. -/
theorem Sound.fields (hs : Sound record) : ∃ w f, FieldsOf (Header.unpack record) f ∧
    (Header.unpack record).witness_category = WitnessCategory.asU16 w := by
  have hlong : 200 ≤ record.length := hs.long
  obtain ⟨w, hw⟩ : ∃ w : WitnessCategory, (Header.unpack record).witness_category = w.asU16 := by
    have hmem := hs.witness
    simp only [WITNESS_CATEGORIES, List.mem_cons, List.not_mem_nil, or_false] at hmem
    rcases hmem with h | h | h | h
    · exact ⟨.NoneFullReencode, h⟩
    · exact ⟨.BpeSyncTransition, h⟩
    · exact ⟨.WordpieceContinuation, h⟩
    · exact ⟨.MetaspaceWordStart, h⟩
  exact ⟨w, ⟨⟨bytesAt record 24 56, length_bytesAt (by omega)⟩, numAt record 56 8,
    ⟨bytesAt record 64 96, length_bytesAt (by omega)⟩,
    ⟨bytesAt record 96 128, length_bytesAt (by omega)⟩, numAt record 128 8, numAt record 136 8,
    numAt record 144 8, numAt record 152 8, numAt record 160 8⟩,
    ⟨rfl, rfl, rfl, rfl, rfl, rfl, rfl, rfl, rfl⟩, hw⟩

/-- What the two readers return for a sound record is the same. -/
theorem sameRecord_of_sound {w : WitnessCategory} {f : HeaderFields} {t : Text} (hs : Sound record)
    (hf : FieldsOf (Header.unpack record) f) (hw : (Header.unpack record).witness_category = w.asU16)
    (ht : utf8Decode? ((record.drop (Header.unpack record).header_length).drop
      ((Header.unpack record).token_count * 4)) = some t) :
    SameRecord (viewOf record (Header.unpack record) t)
      ⟨f.fingerprint, w, UInt64.ofNat f.revision, f.prevBlockHash, f.storedCurr,
        UInt64.ofNat f.stablePrefixBytes, UInt64.ofNat f.replaceTokenOffset,
        wordsOfBytes ((record.drop (Header.unpack record).header_length).take
          ((Header.unpack record).token_count * 4)), t⟩ := by
  have hsize := hs.size
  have htail : utf8Len t = (Header.unpack record).tail_len := by
    rw [← length_utf8, utf8_of_utf8Decode? ht, List.length_drop, List.length_drop]
    omega
  have hstable : (UInt64.ofNat f.stablePrefixBytes).toNat = f.stablePrefixBytes :=
    UInt64.toNat_ofNat_of_lt' (hf.stable ▸ numAt_lt record 136 8)
  have hids : ((record.drop (Header.unpack record).header_length).take
      ((Header.unpack record).token_count * 4)).length = (Header.unpack record).token_count * 4 := by
    rw [List.length_take, List.length_drop]
    omega
  refine ⟨hf.fingerprint.symm, hw, ?_, hf.prev.symm, hf.curr.symm, ?_, htail.symm, ?_, ?_,
    idsOfBytes_eq hids, rfl⟩
  · rw [UInt64.toNat_ofNat_of_lt' (hf.revision ▸ numAt_lt record 56 8)]
    exact hf.revision.symm
  · rw [hstable]
    exact hf.stable.symm
  · rw [SessionRecordV1.fullTextBytes, hstable, htail, hf.stable]
    exact hs.bounded.sum_eq.symm
  · rw [UInt64.toNat_ofNat_of_lt' (hf.offset ▸ numAt_lt record 160 8)]
    exact hf.offset.symm

omit [Digests] in
theorem exists_error {ε α : Type} {x : Except ε α} (h : ∀ a, x ≠ .ok a) : ∃ e, x = .error e := by
  cases x with
  | error e => exact ⟨e, rfl⟩
  | ok a => exact absurd rfl (h a)

/-- **The readers agree on every byte string but the sound records of a later revision whose
predecessor hash is zero.** -/
theorem readers_agree_iff : ReadersAgree record ↔
    ¬(Sound record ∧ (Header.unpack record).session_revision ≠ 0 ∧ (Header.unpack record).Rootless) := by
  constructor
  · rintro hagree ⟨hs, hrev, hroot⟩
    obtain ⟨t, ht⟩ := Option.isSome_iff_exists.mp hs.tail
    have hok := decodeRecord_ok_iff.mpr ⟨hs, fun h0 => absurd h0 hrev, t, ht, rfl⟩
    rcases hagree with ⟨v, r, -, hr, -⟩ | ⟨⟨e, he⟩, -⟩
    · obtain ⟨-, hgen, -⟩ := decode_ok_iff.mp (SessionRecordV1.fromBytes_eq_ok.mp hr)
      exact hrev (hgen.mpr hroot)
    · rw [hok] at he
      cases he
  · intro hgood
    by_cases hall : Sound record ∧
        ((Header.unpack record).session_revision = 0 → (Header.unpack record).Rootless)
    · obtain ⟨hs, hgen⟩ := hall
      obtain ⟨t, ht⟩ := Option.isSome_iff_exists.mp hs.tail
      obtain ⟨w, f, hf, hw⟩ := hs.fields
      have hiff : (Header.unpack record).session_revision = 0 ↔ (Header.unpack record).Rootless :=
        ⟨hgen, fun hroot => by_contra fun hrev => hgood ⟨hs, hrev, hroot⟩⟩
      exact .inl ⟨_, _, decodeRecord_ok_iff.mpr ⟨hs, hgen, t, ht, rfl⟩,
        SessionRecordV1.fromBytes_eq_ok.mpr (decode_ok_iff.mpr ⟨hs, hiff, w, f, t, hf, hw, ht, rfl⟩),
        sameRecord_of_sound hs hf hw ht⟩
    · refine .inr ⟨exists_error fun v hv => ?_, exists_error fun r hr => ?_⟩
      · obtain ⟨hs, hgen, -⟩ := decodeRecord_ok_iff.mp hv
        exact hall ⟨hs, hgen⟩
      · obtain ⟨hs, hgen, -⟩ := decode_ok_iff.mp (SessionRecordV1.fromBytes_eq_ok.mp hr)
        exact hall ⟨hs, hgen.mp⟩

end

/-- A record of revision 1 with a zero predecessor hash, no ids and no text, under SHA-256. -/
def laterRoot : List UInt8 :=
  SessionRecordV1.headerBytes ⟨ZERO_HASH, .NoneFullReencode, 1, ZERO_HASH, ZERO_HASH, 0, 0, [], []⟩
    ⟨[230, 118, 214, 195, 155, 133, 250, 0, 164, 165, 219, 68, 187, 36, 232, 133, 60, 136, 150, 72,
      235, 221, 85, 20, 98, 147, 235, 251, 197, 64, 169, 197], rfl⟩
    ⟨[214, 9, 228, 222, 105, 62, 195, 141, 241, 13, 137, 245, 96, 2, 93, 174, 240, 153, 145, 21, 203,
      53, 85, 68, 133, 238, 63, 146, 67, 160, 108, 182], rfl⟩

theorem sound_laterRoot : Sound laterRoot where
  long := by decide +kernel
  magic := by decide +kernel
  opens := ⟨by decide +kernel, by decide +kernel, by decide +kernel, by decide +kernel,
    by decide +kernel, by decide +kernel, by decide +kernel, by decide +kernel⟩
  bounded := ⟨by decide +kernel, by decide +kernel, by decide +kernel, by decide +kernel,
    by decide +kernel, by decide +kernel, by decide +kernel⟩
  extension := .stop (by decide +kernel)
  size := by decide +kernel
  checksum := by decide +kernel
  link := by decide +kernel
  witness := by decide +kernel
  uncertified := by decide +kernel
  tail := by decide +kernel

/-- The facade reads it, the store does not. -/
theorem readers_differ : (decodeRecord laterRoot).toOption.isSome ∧
    (SessionRecordV1.fromBytes laterRoot).toOption.isSome = false := by
  constructor
  · have hok := decodeRecord_ok_iff.mpr
      ⟨sound_laterRoot, by decide +kernel, [], by decide +kernel, rfl⟩
    rw [hok]
    rfl
  · cases hr : SessionRecordV1.fromBytes laterRoot with
    | error e => rfl
    | ok r =>
        obtain ⟨-, hgen, -⟩ := decode_ok_iff.mp (SessionRecordV1.fromBytes_eq_ok.mp hr)
        exact absurd (hgen.mpr (by decide +kernel)) (by decide +kernel)

end Toktier.Facade.Records
