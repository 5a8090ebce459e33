import Toktier.StoreCore.Format
import Toktier.StoreCore.Primitives

/-!
# Laws of the session record codec

What the decoder accepts, stage by stage, and what it reads off a serialization. The
writer's gate and the decoder describe the same records, a record that is accepted is
its own re-encoding, and no input makes the decoder leave its bytes.

## Main results

* `decode_encodeBytes`: on a serialization every field is read back.
* `accepts_iff`: the gate holds exactly when the decoder accepts the serialization.
* `decode_noPanic`: no read is out of range.
* `record_codec`: the codec's contract.
-/
namespace Toktier.StoreCore

open Toktier.Lib

namespace SessionRecordV1

theorem toNat_eq_zero (v : UInt64) : v.toNat = 0 ↔ v = 0 := by
  rw [← UInt64.toNat_inj]
  rfl

/-! ## The gate -/

/-- The writer's obligations as a proposition. -/
structure Writable (r : SessionRecordV1) : Prop where
  full_le : r.fullTextBytes ≤ MAX_FULL_TEXT_BYTES
  tail_le : utf8Len r.tailText ≤ MAX_TAIL_BYTES_OR_TOKENS
  tokens_le : r.ids.length ≤ MAX_TAIL_BYTES_OR_TOKENS
  offset_le : r.replaceTokenOffset.toNat ≤ r.ids.length
  uncertified : r.witness = .NoneFullReencode →
    r.stablePrefixBytes = 0 ∧ r.replaceTokenOffset = 0
  genesis : r.revision = 0 ↔ r.prevBlockHash = ZERO_HASH

theorem checkWriterObligations_eq_ok {r : SessionRecordV1} :
    r.checkWriterObligations = .ok () ↔ r.Writable := by
  have hfull : MAX_FULL_TEXT_BYTES < 2 ^ 64 := by decide
  constructor
  · intro h
    unfold checkWriterObligations at h
    simp only at h
    split_ifs at h with h1 h2 h3 h4 h5 h6 h7
    refine ⟨by omega, by omega, by omega, by omega, fun hw => ?_, ?_⟩
    · by_contra hne
      exact h6 ⟨hw, by tauto⟩
    · simpa using h7
  · rintro ⟨h2, h3, h4, h5, h6, h7⟩
    unfold checkWriterObligations
    simp only
    rw [if_neg (by omega), if_neg (by omega), if_neg (by omega), if_neg (by omega),
      if_neg (by omega), if_neg, if_neg]
    · simpa using h7
    · rintro ⟨hw, hne⟩
      obtain ⟨ha, hb⟩ := h6 hw
      exact hne.elim (· ha) (· hb)

end SessionRecordV1

/-! ## Stages of the decoder -/

theorem leAt_eq_ok {b : List UInt8} {off width v : ℕ} :
    leAt b off width = .ok v ↔
      off + width ≤ b.length ∧ leNat ((b.take (off + width)).drop off) = v := by
  simp only [leAt, bind_eq_ok, sliceAt_eq_ok]
  constructor
  · rintro ⟨bs, ⟨⟨-, hle⟩, rfl⟩, h⟩
    exact ⟨hle, Except.ok.inj h⟩
  · rintro ⟨hle, rfl⟩
    exact ⟨_, ⟨⟨by omega, hle⟩, rfl⟩, rfl⟩

theorem leAt_lt {b : List UInt8} {off width v : ℕ} (h : leAt b off width = .ok v) :
    v < 256 ^ width := by
  obtain ⟨hle, rfl⟩ := leAt_eq_ok.mp h
  have hlt := leNat_lt ((b.take (off + width)).drop off)
  have hlen : ((b.take (off + width)).drop off).length = width := by
    rw [List.length_drop, List.length_take]
    omega
  rwa [hlen] at hlt

theorem leAt_noPanic {b : List UInt8} {off width : ℕ} (h : off + width ≤ b.length) :
    NoPanic (leAt b off width) :=
  (noPanic_sliceAt (by omega) h).bind fun _ _ => NoPanic.pure _

theorem hashAt_noPanic {b : List UInt8} {off : ℕ} (h : off + 32 ≤ b.length) :
    NoPanic (hashAt b off) := by
  refine (noPanic_sliceAt (by omega) h).bind fun bs hbs => ?_
  obtain ⟨-, rfl⟩ := sliceAt_eq_ok.mp hbs
  have hlen : ((b.take (off + 32)).drop off).length = 32 := by
    rw [List.length_drop, List.length_take]
    omega
  rw [dif_pos hlen]
  exact NoPanic.ok _

/-- The bounds gate leaves a header length that lies within the input. -/
theorem decodeGate_ok {bytes : List UInt8} {hl : ℕ} {w : WitnessCategory}
    (h : decodeGate bytes = .ok (hl, w)) : 200 ≤ hl ∧ hl ≤ bytes.length ∧ hl ≤ 4096 := by
  obtain ⟨_, -, h⟩ := bind_eq_ok.mp h
  obtain ⟨_, -, h⟩ := bind_eq_ok.mp h
  obtain ⟨_, -, h⟩ := bind_eq_ok.mp h
  obtain ⟨_, -, h⟩ := bind_eq_ok.mp h
  obtain ⟨_, -, h⟩ := bind_eq_ok.mp h
  obtain ⟨headerLength, -, h⟩ := bind_eq_ok.mp h
  obtain ⟨_, hlen, h⟩ := bind_eq_ok.mp h
  obtain ⟨⟨hlo, hhi⟩, -, hle⟩ := require_eq_ok.mp hlen
  obtain ⟨_, -, h⟩ := bind_eq_ok.mp h
  obtain ⟨_, -, h⟩ := bind_eq_ok.mp h
  obtain ⟨_, -, h⟩ := bind_eq_ok.mp h
  obtain ⟨_, -, h⟩ := bind_eq_ok.mp h
  obtain ⟨_, -, h⟩ := bind_eq_ok.mp h
  obtain ⟨_, -, h⟩ := bind_eq_ok.mp h
  obtain ⟨_, -, h⟩ := bind_eq_ok.mp h
  obtain ⟨_, -, h⟩ := bind_eq_ok.mp h
  obtain ⟨_, -, h⟩ := bind_eq_ok.mp h
  obtain ⟨_, -, h⟩ := bind_eq_ok.mp h
  cases h
  exact ⟨hlo, hle, hhi⟩

theorem decodeGate_noPanic (bytes : List UInt8) : NoPanic (decodeGate bytes) := by
  refine (noPanic_require _).bind fun _ h0 => ?_
  have hlen : 200 ≤ bytes.length := require_eq_ok.mp h0
  refine (noPanic_sliceAt (by omega) (by omega)).bind fun _ _ => ?_
  refine (noPanic_require _).bind fun _ _ => ?_
  refine (leAt_noPanic (by omega)).bind fun _ _ => ?_
  refine (noPanic_require _).bind fun _ _ => ?_
  refine (leAt_noPanic (by omega)).bind fun _ _ => ?_
  refine (noPanic_require _).bind fun _ _ => ?_
  refine (leAt_noPanic (by omega)).bind fun _ _ => ?_
  refine (noPanic_require _).bind fun _ _ => ?_
  refine (leAt_noPanic (by omega)).bind fun _ _ => ?_
  refine (noPanic_require _).bind fun _ _ => ?_
  refine (leAt_noPanic (by omega)).bind fun _ _ => ?_
  refine (noPanic_require _).bind fun _ _ => ?_
  refine (leAt_noPanic (by omega)).bind fun _ _ => ?_
  refine (noPanic_checked _).bind fun _ _ => ?_
  refine (leAt_noPanic (by omega)).bind fun _ _ => ?_
  exact (noPanic_require _).bind fun _ _ => NoPanic.pure _

/-- Every field of the header fits 64 bits. -/
theorem readFields_ok {bytes : List UInt8} {f : HeaderFields} (h : readFields bytes = .ok f) :
    f.revision < 2 ^ 64 ∧ f.stablePrefixBytes < 2 ^ 64 ∧ f.replaceTokenOffset < 2 ^ 64 := by
  obtain ⟨_, -, h⟩ := bind_eq_ok.mp h
  obtain ⟨_, hrev, h⟩ := bind_eq_ok.mp h
  obtain ⟨_, -, h⟩ := bind_eq_ok.mp h
  obtain ⟨_, -, h⟩ := bind_eq_ok.mp h
  obtain ⟨_, -, h⟩ := bind_eq_ok.mp h
  obtain ⟨_, hstable, h⟩ := bind_eq_ok.mp h
  obtain ⟨_, -, h⟩ := bind_eq_ok.mp h
  obtain ⟨_, -, h⟩ := bind_eq_ok.mp h
  obtain ⟨_, hoff, h⟩ := bind_eq_ok.mp h
  cases h
  exact ⟨leAt_lt hrev, leAt_lt hstable, leAt_lt hoff⟩

theorem readFields_noPanic {bytes : List UInt8} (h : 200 ≤ bytes.length) :
    NoPanic (readFields bytes) := by
  refine (hashAt_noPanic (by omega)).bind fun _ _ => ?_
  refine (leAt_noPanic (by omega)).bind fun _ _ => ?_
  refine (hashAt_noPanic (by omega)).bind fun _ _ => ?_
  refine (hashAt_noPanic (by omega)).bind fun _ _ => ?_
  refine (leAt_noPanic (by omega)).bind fun _ _ => ?_
  refine (leAt_noPanic (by omega)).bind fun _ _ => ?_
  refine (leAt_noPanic (by omega)).bind fun _ _ => ?_
  refine (leAt_noPanic (by omega)).bind fun _ _ => ?_
  exact (leAt_noPanic (by omega)).bind fun _ _ => NoPanic.pure _

/-- The field bounds as a proposition. -/
structure FieldsOk (f : HeaderFields) : Prop where
  full_le : f.fullTextBytes ≤ MAX_FULL_TEXT_BYTES
  stable_le : f.stablePrefixBytes ≤ f.fullTextBytes
  tail_le : f.textTailBytes ≤ MAX_TAIL_BYTES_OR_TOKENS
  sum_eq : f.stablePrefixBytes + f.textTailBytes = f.fullTextBytes
  tokens_le : f.tokenCount ≤ MAX_TAIL_BYTES_OR_TOKENS
  offset_le : f.replaceTokenOffset ≤ f.tokenCount

theorem checkFields_eq_ok {f : HeaderFields} : checkFields f = .ok () ↔ FieldsOk f := by
  have hfull : MAX_FULL_TEXT_BYTES < 2 ^ 64 := by decide
  constructor
  · intro h
    obtain ⟨_, h1, h⟩ := bind_eq_ok.mp h
    obtain ⟨_, h2, h⟩ := bind_eq_ok.mp h
    obtain ⟨_, h3, h⟩ := bind_eq_ok.mp h
    obtain ⟨_, h4, h⟩ := bind_eq_ok.mp h
    obtain ⟨_, h5, h6⟩ := bind_eq_ok.mp h
    rw [require_eq_ok] at h1 h2 h3 h4 h5 h6
    exact ⟨h1, h2, h3, h4.2, h5, h6⟩
  · rintro ⟨h1, h2, h3, h4, h5, h6⟩
    unfold checkFields
    rw [require_of h1, ok_bind, require_of h2, ok_bind, require_of h3, ok_bind,
      require_of ⟨by omega, h4⟩, ok_bind, require_of h5, ok_bind, require_of h6]

theorem checkFields_noPanic (f : HeaderFields) : NoPanic (checkFields f) := by
  refine (noPanic_require _).bind fun _ _ => ?_
  refine (noPanic_require _).bind fun _ _ => ?_
  refine (noPanic_require _).bind fun _ _ => ?_
  refine (noPanic_require _).bind fun _ _ => ?_
  exact (noPanic_require _).bind fun _ _ => noPanic_require _

/-- Every entry takes four bytes of the header, so the entries run out before the fuel. -/
theorem tlvLoop_noPanic {bytes : List UInt8} {hl : ℕ} (hlen : hl ≤ bytes.length) (fuel : ℕ)
    {pos : ℕ} (hfuel : hl ≤ pos + 4 * fuel) : NoPanic (tlvLoop bytes hl fuel pos) := by
  induction fuel generalizing pos with
  | zero =>
      unfold tlvLoop
      rw [if_neg (by omega)]
      exact NoPanic.ok _
  | succ fuel ih =>
      unfold tlvLoop
      by_cases hpos : pos < hl
      · rw [if_pos hpos]
        refine (noPanic_require _).bind fun _ h1 => ?_
        have hstop : pos + 4 ≤ hl := (require_eq_ok.mp h1).2
        refine (leAt_noPanic (by omega)).bind fun tlvLen _ => ?_
        refine (noPanic_require _).bind fun _ _ => ?_
        exact ih (by omega)
      · rw [if_neg hpos]
        exact NoPanic.ok _

/-! ## Reading a serialization back -/

theorem leAt_flatten {pieces : List (List UInt8)} (i : ℕ) {width v off : ℕ}
    (h : pieces[i]? = some (leBytes width v))
    (hoff : ((pieces.take i).map List.length).sum = off) :
    leAt pieces.flatten off width = .ok (v % 256 ^ width) := by
  rw [leAt, sliceAt_flatten h hoff (by rw [length_leBytes]), ok_bind, leNat_leBytes]
  rfl

theorem hashAt_flatten {pieces : List (List UInt8)} (i : ℕ) {b : Bytes32} {off : ℕ}
    (h : pieces[i]? = some b.bytes) (hoff : ((pieces.take i).map List.length).sum = off) :
    hashAt pieces.flatten off = .ok b := by
  rw [hashAt, sliceAt_flatten h hoff (by rw [b.size_eq]; rfl), ok_bind, dif_pos b.size_eq]

@[simp] theorem length_MAGIC : MAGIC.length = 8 := rfl

namespace SessionRecordV1

/-- The pieces a serialization is made of, in order. -/
def pieces (r : SessionRecordV1) (curr checksum : BlockHash) : List (List UInt8) :=
  [MAGIC, leBytes 2 FORMAT_VERSION, leBytes 2 FIXED_HEADER_LEN, leBytes 4 0,
    leBytes 1 ENDIANNESS_LE, leBytes 1 0, leBytes 2 r.witness.asU16, leBytes 4 0,
    r.fingerprint.bytes, leBytes 8 r.revision.toNat, r.prevBlockHash.bytes, curr.bytes,
    leBytes 8 r.fullTextBytes, leBytes 8 r.stablePrefixBytes.toNat,
    leBytes 8 (utf8Len r.tailText), leBytes 8 r.ids.length, leBytes 8 r.replaceTokenOffset.toNat,
    checksum.bytes, wordsBytes r.ids, utf8 r.tailText]

theorem length_headerBytes (r : SessionRecordV1) (curr checksum : BlockHash) :
    (r.headerBytes curr checksum).length = 200 := by
  simp [headerBytes]

/-- The header before the checksum slot. -/
def headerFront (r : SessionRecordV1) (curr : BlockHash) : List UInt8 :=
  (r.headerBytes curr ZERO_HASH).take OFF_CHECKSUM

theorem headerBytes_eq (r : SessionRecordV1) (curr checksum : BlockHash) :
    r.headerBytes curr checksum = r.headerFront curr ++ checksum.bytes ∧
      (r.headerFront curr).length = OFF_CHECKSUM := by
  have hlen : (r.headerFront curr).length = OFF_CHECKSUM := by
    rw [headerFront, List.length_take, length_headerBytes]
    rfl
  have hfront : r.headerFront curr ++ ZERO_HASH.bytes = r.headerBytes curr ZERO_HASH := by
    have hdrop : (r.headerBytes curr ZERO_HASH).drop OFF_CHECKSUM = ZERO_HASH.bytes :=
      List.drop_left' (by simp [OFF_CHECKSUM])
    rw [headerFront, ← hdrop, List.take_append_drop]
  refine ⟨?_, hlen⟩
  have hsplit : ∃ front, ∀ c : BlockHash, r.headerBytes curr c = front ++ c.bytes := ⟨_, fun _ => rfl⟩
  obtain ⟨front, hall⟩ := hsplit
  rw [hall] at hfront ⊢
  rw [List.append_cancel_right hfront]

end SessionRecordV1

/-! ## The payload and the whole decoder -/

/-- A length the decoder computes stays far below 64 bits. -/
theorem decode_sizes_lt {bytes : List UInt8} {hl : ℕ} {w : WitnessCategory} {f : HeaderFields}
    (hgate : decodeGate bytes = .ok (hl, w)) (hfields : checkFields f = .ok ()) :
    hl ≤ HEADER_LEN_MAX ∧ f.stablePrefixBytes + f.textTailBytes < 2 ^ 64 ∧
      hl + f.tokenCount * 4 + f.textTailBytes < 2 ^ 64 := by
  have hmax : MAX_TAIL_BYTES_OR_TOKENS = 2 ^ 31 := rfl
  have hfull : MAX_FULL_TEXT_BYTES = 2 ^ 40 := rfl
  obtain ⟨-, -, hhi⟩ := decodeGate_ok hgate
  obtain ⟨h1, h2, h3, h4, h5, h6⟩ := checkFields_eq_ok.mp hfields
  exact ⟨hhi, by omega, by omega⟩

section Payload

variable [Digests]

theorem decodePayload_noPanic {bytes : List UInt8} {hl : ℕ} {w : WitnessCategory}
    {f : HeaderFields} (hlo : 200 ≤ hl) (hle : hl ≤ bytes.length) :
    NoPanic (decodePayload bytes hl w f) := by
  refine (noPanic_require _).bind fun _ _ => ?_
  refine (noPanic_require _).bind fun _ _ => ?_
  refine (noPanic_require _).bind fun _ hclose => ?_
  have hclose : bytes.length = hl + f.tokenCount * 4 + f.textTailBytes := require_eq_ok.mp hclose
  refine (noPanic_sliceAt hle le_rfl).bind fun payload hpay => ?_
  obtain ⟨-, rfl⟩ := sliceAt_eq_ok.mp hpay
  refine (noPanic_sliceAt (by omega) hle).bind fun header hhead => ?_
  obtain ⟨-, rfl⟩ := sliceAt_eq_ok.mp hhead
  have hheader : ((bytes.take hl).drop 0).length = hl := by
    rw [List.drop_zero, List.length_take]
    omega
  have hpayload : ((bytes.take bytes.length).drop hl).length = f.tokenCount * 4 + f.textTailBytes := by
    rw [List.take_length, List.length_drop]
    omega
  refine (hashAt_noPanic (by rw [hheader, OFF_CHECKSUM]; omega)).bind fun _ _ => ?_
  refine (noPanic_sliceAt (by omega) (by rw [hheader, OFF_CHECKSUM]; omega)).bind fun _ _ => ?_
  refine (noPanic_sliceAt (by rw [hheader, OFF_CHECKSUM, HASH_LEN]; omega) le_rfl).bind
    fun _ _ => ?_
  refine (noPanic_require _).bind fun _ _ => ?_
  refine (noPanic_require _).bind fun _ _ => ?_
  refine (noPanic_require _).bind fun _ _ => ?_
  refine (noPanic_require _).bind fun _ _ => ?_
  refine (noPanic_sliceAt (by omega) (by omega)).bind fun _ _ => ?_
  refine (noPanic_sliceAt (by omega) le_rfl).bind fun _ _ => ?_
  exact (noPanic_checked _).bind fun _ _ => NoPanic.pure _

namespace SessionRecordV1

/-- Whatever the input, every read stays inside it and every loop ends. -/
theorem decode_noPanic (bytes : List UInt8) : NoPanic (decode bytes) := by
  refine (decodeGate_noPanic bytes).bind fun p hgate => ?_
  obtain ⟨hl, w⟩ := p
  obtain ⟨hlo, hle, -⟩ := decodeGate_ok hgate
  refine (readFields_noPanic (by omega)).bind fun f _ => ?_
  refine (checkFields_noPanic f).bind fun _ _ => ?_
  refine (tlvLoop_noPanic hle hl (by omega)).bind fun _ _ => ?_
  exact decodePayload_noPanic hlo hle

theorem fromBytes_eq_ok {bytes : List UInt8} {r : SessionRecordV1} :
    fromBytes bytes = .ok r ↔ decode bytes = .ok r := by
  unfold fromBytes
  rcases decode bytes with (e | _) | r' <;> simp

end SessionRecordV1

namespace SessionRecordV1

/-- The payload digest a record is serialized with. -/
def payloadDigest (r : SessionRecordV1) : BlockHash :=
  payloadDigestParts [r.ids] (utf8 r.tailText)

/-- The checksum a record is serialized with. -/
def headerChecksum (r : SessionRecordV1) : BlockHash :=
  recordChecksum (r.headerBytes r.computeCurr ZERO_HASH) r.payloadDigest

theorem encodeBytes_eq_pieces (r : SessionRecordV1) :
    r.encodeBytes = (r.pieces r.computeCurr r.headerChecksum).flatten := by
  simp only [encodeBytes, headerBytes, pieces, headerChecksum, computeCurr, payloadDigest,
    List.flatten_cons, List.flatten_nil, List.append_assoc, List.append_nil]

theorem length_encodeBytes (r : SessionRecordV1) :
    r.encodeBytes.length = 200 + (4 * r.ids.length + utf8Len r.tailText) := by
  simp only [encodeBytes, List.length_append, length_headerBytes, length_wordsBytes, length_utf8]

/-- What the header of a serialization says; lengths are written modulo `2 ^ 64`. -/
def headerFields (r : SessionRecordV1) : HeaderFields where
  fingerprint := r.fingerprint
  revision := r.revision.toNat
  prevBlockHash := r.prevBlockHash
  storedCurr := r.computeCurr
  fullTextBytes := r.fullTextBytes % 2 ^ 64
  stablePrefixBytes := r.stablePrefixBytes.toNat
  textTailBytes := utf8Len r.tailText % 2 ^ 64
  tokenCount := r.ids.length % 2 ^ 64
  replaceTokenOffset := r.replaceTokenOffset.toNat

theorem decodeGate_encodeBytes (r : SessionRecordV1) :
    decodeGate r.encodeBytes = .ok (200, r.witness) := by
  have hlen := r.length_encodeBytes
  have hw : r.witness.asU16 % 256 ^ 2 = r.witness.asU16 := Nat.mod_eq_of_lt r.witness.asU16_lt
  rw [encodeBytes_eq_pieces] at hlen ⊢
  have hmagic : (sliceAt (r.pieces r.computeCurr r.headerChecksum).flatten 0 8 :
      Decode StoreError _) = .ok MAGIC := sliceAt_flatten (i := 0) rfl rfl rfl
  unfold decodeGate
  rw [require_of (by rw [hlen, FIXED_HEADER_LEN]; omega), ok_bind, hmagic, ok_bind,
    require_of rfl, ok_bind,
    leAt_flatten 1 rfl (by simp [pieces]), ok_bind, require_of (by decide), ok_bind,
    leAt_flatten 2 rfl (by simp [pieces]), ok_bind,
    require_of (by rw [hlen]; refine ⟨by decide, by decide, ?_⟩; change 200 ≤ _; omega), ok_bind,
    leAt_flatten 4 rfl (by simp [pieces]), ok_bind, require_of (by decide), ok_bind,
    leAt_flatten 5 rfl (by simp [pieces]), ok_bind, require_of (by decide), ok_bind,
    leAt_flatten 3 rfl (by simp [pieces]), ok_bind, require_of (by decide), ok_bind,
    leAt_flatten 6 rfl (by simp [pieces]), ok_bind, hw, WitnessCategory.fromU16_asU16,
    checked_eq_ok.mpr rfl, ok_bind,
    leAt_flatten 7 rfl (by simp [pieces]), ok_bind, require_of (by decide), ok_bind]
  rfl

theorem readFields_encodeBytes (r : SessionRecordV1) :
    readFields r.encodeBytes = .ok r.headerFields := by
  have h64 (v : UInt64) : v.toNat % 256 ^ 8 = v.toNat := Nat.mod_eq_of_lt v.toNat_lt
  rw [encodeBytes_eq_pieces]
  unfold readFields
  rw [hashAt_flatten 8 rfl (by simp [pieces]), ok_bind,
    leAt_flatten 9 rfl (by simp [pieces]), ok_bind,
    hashAt_flatten 10 rfl (by simp [pieces]), ok_bind,
    hashAt_flatten 11 rfl (by simp [pieces]), ok_bind,
    leAt_flatten 12 rfl (by simp [pieces]), ok_bind,
    leAt_flatten 13 rfl (by simp [pieces]), ok_bind,
    leAt_flatten 14 rfl (by simp [pieces]), ok_bind,
    leAt_flatten 15 rfl (by simp [pieces]), ok_bind,
    leAt_flatten 16 rfl (by simp [pieces]), ok_bind, h64, h64, h64]
  rfl

/-- On a serialization the decoder gets to the payload with the fields that were written. -/
theorem decode_encodeBytes (r : SessionRecordV1) :
    decode r.encodeBytes = (do
      checkFields r.headerFields
      decodePayload r.encodeBytes 200 r.witness r.headerFields) := by
  have htlv : tlvLoop r.encodeBytes 200 200 FIXED_HEADER_LEN = .ok () := by
    unfold tlvLoop
    exact if_neg (by decide)
  unfold decode
  rw [decodeGate_encodeBytes, readFields_encodeBytes]
  simp only [htlv, ok_bind]

end SessionRecordV1

/-- What a payload stage that succeeds has checked, and what it returns. -/
theorem decodePayload_ok {bytes : List UInt8} {hl : ℕ} {w : WitnessCategory} {f : HeaderFields}
    {r : SessionRecordV1} (h : decodePayload bytes hl w f = .ok r) :
    bytes.length = hl + f.tokenCount * 4 + f.textTailBytes ∧
      linkHash ⟨f.prevBlockHash, f.fingerprint, f.revision, f.fullTextBytes, f.stablePrefixBytes,
        f.textTailBytes, f.tokenCount, f.replaceTokenOffset, w,
        sha256 (DOMAIN_PAYLOAD ++ bytes.drop hl)⟩ = f.storedCurr ∧
      (f.revision = 0 ↔ f.prevBlockHash = ZERO_HASH) ∧
      (w = .NoneFullReencode → f.stablePrefixBytes = 0 ∧ f.replaceTokenOffset = 0) ∧
      ∃ tailText, utf8Decode? ((bytes.drop hl).drop (f.tokenCount * 4)) = some tailText ∧
        r = ⟨f.fingerprint, w, UInt64.ofNat f.revision, f.prevBlockHash, f.storedCurr,
          UInt64.ofNat f.stablePrefixBytes, UInt64.ofNat f.replaceTokenOffset,
          wordsOfBytes ((bytes.drop hl).take (f.tokenCount * 4)), tailText⟩ := by
  obtain ⟨_, -, h⟩ := bind_eq_ok.mp h
  obtain ⟨_, -, h⟩ := bind_eq_ok.mp h
  obtain ⟨_, hclose, h⟩ := bind_eq_ok.mp h
  obtain ⟨payload, hpay, h⟩ := bind_eq_ok.mp h
  obtain ⟨_, -, h⟩ := bind_eq_ok.mp h
  obtain ⟨_, -, h⟩ := bind_eq_ok.mp h
  obtain ⟨_, -, h⟩ := bind_eq_ok.mp h
  obtain ⟨_, -, h⟩ := bind_eq_ok.mp h
  obtain ⟨_, -, h⟩ := bind_eq_ok.mp h
  obtain ⟨_, hcurr, h⟩ := bind_eq_ok.mp h
  obtain ⟨_, hgen, h⟩ := bind_eq_ok.mp h
  obtain ⟨_, hunc, h⟩ := bind_eq_ok.mp h
  obtain ⟨idPart, hid, h⟩ := bind_eq_ok.mp h
  obtain ⟨tailPart, htail, h⟩ := bind_eq_ok.mp h
  obtain ⟨tailText, htext, hres⟩ := bind_eq_ok.mp h
  obtain ⟨-, hpay⟩ := sliceAt_eq_ok.mp hpay
  obtain ⟨-, hid⟩ := sliceAt_eq_ok.mp hid
  obtain ⟨-, htail⟩ := sliceAt_eq_ok.mp htail
  rw [List.take_length] at hpay
  rw [List.drop_zero] at hid
  rw [List.take_length] at htail
  rw [require_eq_ok] at hclose hcurr hgen hunc
  subst hpay hid htail
  refine ⟨hclose, hcurr, by simpa using hgen, fun hw => ?_, tailText, ?_, ?_⟩
  · by_contra hne
    exact hunc ⟨hw, by tauto⟩
  · rw [checked_eq_ok] at htext
    split at htext
    · rename_i t ht
      cases htext
      exact ht
    · cases htext
  · exact (Except.ok.inj hres).symm

namespace SessionRecordV1

/-- On the serialization of a writable record the integrity checks hold and the payload
is split where it was joined. -/
theorem decodePayload_encodeBytes {r : SessionRecordV1} (h : r.Writable) :
    decodePayload r.encodeBytes 200 r.witness r.headerFields =
      .ok { r with currBlockHash := r.computeCurr } := by
  have hfull64 : MAX_FULL_TEXT_BYTES < 2 ^ 64 := by decide
  have hmax : MAX_TAIL_BYTES_OR_TOKENS = 2 ^ 31 := rfl
  have hfull := h.full_le
  have htail := h.tail_le
  have htokens := h.tokens_le
  have hlen := r.length_encodeBytes
  have hF : r.headerFields.fullTextBytes = r.fullTextBytes := Nat.mod_eq_of_lt (by omega)
  have hT : r.headerFields.textTailBytes = utf8Len r.tailText := Nat.mod_eq_of_lt (by omega)
  have hN : r.headerFields.tokenCount = r.ids.length := Nat.mod_eq_of_lt (by omega)
  have hH := r.length_headerBytes r.computeCurr r.headerChecksum
  obtain ⟨hheader, hfront⟩ := r.headerBytes_eq r.computeCurr r.headerChecksum
  obtain ⟨hzero, -⟩ := r.headerBytes_eq r.computeCurr ZERO_HASH
  have hbytes : r.encodeBytes = r.headerBytes r.computeCurr r.headerChecksum ++
      (wordsBytes r.ids ++ utf8 r.tailText) := rfl
  have hpayload : (sliceAt r.encodeBytes 200 r.encodeBytes.length : Decode StoreError _) =
      .ok (wordsBytes r.ids ++ utf8 r.tailText) := by
    refine sliceAt_eq_ok.mpr ⟨⟨by omega, le_rfl⟩, ?_⟩
    rw [List.take_length, hbytes, List.drop_left' hH]
  have hcopy : (sliceAt r.encodeBytes 0 200 : Decode StoreError _) =
      .ok (r.headerBytes r.computeCurr r.headerChecksum) := by
    rw [hbytes]
    exact sliceAt_left hH
  have hstored : hashAt (r.headerBytes r.computeCurr r.headerChecksum) OFF_CHECKSUM =
      .ok r.headerChecksum := by
    have hflat : r.headerBytes r.computeCurr r.headerChecksum =
        [r.headerFront r.computeCurr, r.headerChecksum.bytes].flatten := by simp [hheader]
    rw [hflat]
    exact hashAt_flatten 1 rfl (by simpa using hfront)
  have hbefore : (sliceAt (r.headerBytes r.computeCurr r.headerChecksum) 0 OFF_CHECKSUM :
      Decode StoreError _) = .ok (r.headerFront r.computeCurr) := by
    rw [hheader]
    exact sliceAt_left hfront
  have hafter : (sliceAt (r.headerBytes r.computeCurr r.headerChecksum) (OFF_CHECKSUM + HASH_LEN)
      (r.headerBytes r.computeCurr r.headerChecksum).length : Decode StoreError _) = .ok [] := by
    rw [hH]
    refine sliceAt_eq_ok.mpr ⟨⟨by decide, by omega⟩, List.drop_of_length_le ?_⟩
    rw [List.length_take]
    exact min_le_left _ _
  have hdigest : sha256 (DOMAIN_PAYLOAD ++ (wordsBytes r.ids ++ utf8 r.tailText)) = r.payloadDigest := by
    simp [payloadDigest, payloadDigestParts]
  have hids : (sliceAt (wordsBytes r.ids ++ utf8 r.tailText) 0 (r.ids.length * 4) :
      Decode StoreError _) = .ok (wordsBytes r.ids) :=
    sliceAt_left (by rw [length_wordsBytes, mul_comm])
  have htext : (sliceAt (wordsBytes r.ids ++ utf8 r.tailText) (r.ids.length * 4)
      (wordsBytes r.ids ++ utf8 r.tailText).length : Decode StoreError _) = .ok (utf8 r.tailText) := by
    refine sliceAt_eq_ok.mpr ⟨⟨?_, le_rfl⟩, ?_⟩
    · rw [List.length_append, length_wordsBytes]
      omega
    · rw [List.take_length, List.drop_left' (by rw [length_wordsBytes, mul_comm])]
  have h64 (v : UInt64) : UInt64.ofNat v.toNat = v := UInt64.ofNat_toNat
  have hgen : r.headerFields.revision = 0 ↔ r.headerFields.prevBlockHash = ZERO_HASH :=
    (toNat_eq_zero _).trans h.genesis
  unfold decodePayload
  simp only [hN, hT, hF]
  rw [require_of (by omega), ok_bind, require_of (by omega), ok_bind, require_of (by omega),
    ok_bind, hpayload, ok_bind, hcopy, ok_bind, hstored, ok_bind, hbefore, ok_bind, hafter, ok_bind,
    hdigest, List.append_nil, ← hzero, require_of (by rfl), ok_bind, require_of (by rfl), ok_bind,
    require_of (decide_eq_decide.mpr hgen), ok_bind, require_of, ok_bind,
    hids, ok_bind, htext, ok_bind, utf8Decode?_utf8]
  · simp only [wordsOfBytes_wordsBytes, headerFields, h64]
    rfl
  · rintro ⟨hw, hne⟩
    obtain ⟨ha, hb⟩ := h.uncertified hw
    exact hne.elim (fun hx => hx (by simp [headerFields, ha])) fun hx => hx (by simp [headerFields, hb])

/-- A writable record is read back, with its current hash recomputed. -/
theorem decode_encodeBytes_of_writable {r : SessionRecordV1} (h : r.Writable) :
    decode r.encodeBytes = .ok { r with currBlockHash := r.computeCurr } := by
  have hfull64 : MAX_FULL_TEXT_BYTES < 2 ^ 64 := by decide
  have hmax : MAX_TAIL_BYTES_OR_TOKENS = 2 ^ 31 := rfl
  have hfull := h.full_le
  have htail := h.tail_le
  have htokens := h.tokens_le
  have hsum : r.fullTextBytes = r.stablePrefixBytes.toNat + utf8Len r.tailText := rfl
  have hF : r.headerFields.fullTextBytes = r.fullTextBytes := Nat.mod_eq_of_lt (by omega)
  have hT : r.headerFields.textTailBytes = utf8Len r.tailText := Nat.mod_eq_of_lt (by omega)
  have hN : r.headerFields.tokenCount = r.ids.length := Nat.mod_eq_of_lt (by omega)
  have hS : r.headerFields.stablePrefixBytes = r.stablePrefixBytes.toNat := rfl
  have hfields : FieldsOk r.headerFields :=
    ⟨by omega, by omega, by omega, by omega, by omega, by rw [hN]; exact h.offset_le⟩
  rw [decode_encodeBytes, checkFields_eq_ok.mpr hfields, ok_bind, decodePayload_encodeBytes h]

/-- The decoder accepts only serializations of writable records: lengths are written
modulo `2 ^ 64`, and the size closure leaves no room for a wrapped one. -/
theorem writable_of_decode_encodeBytes {r r' : SessionRecordV1}
    (h : decode r.encodeBytes = .ok r') : r.Writable := by
  rw [decode_encodeBytes] at h
  obtain ⟨_, hfields, h⟩ := bind_eq_ok.mp h
  obtain ⟨h1, h2, h3, h4, h5, h6⟩ := checkFields_eq_ok.mp hfields
  obtain ⟨hclose, -, hgen, hunc, -⟩ := decodePayload_ok h
  have hlen := r.length_encodeBytes
  have hfull : r.fullTextBytes = r.stablePrefixBytes.toNat + utf8Len r.tailText := rfl
  have hstable := r.stablePrefixBytes.toNat_lt
  simp only [headerFields] at h1 h2 h3 h4 h5 h6 hclose hgen hunc
  have hN : r.ids.length % 2 ^ 64 = r.ids.length := by omega
  have hT : utf8Len r.tailText % 2 ^ 64 = utf8Len r.tailText := by omega
  have hF : r.fullTextBytes % 2 ^ 64 = r.fullTextBytes := by omega
  rw [hF] at h1
  rw [hT] at h3
  rw [hN] at h5 h6
  refine ⟨h1, h3, h5, h6, fun hw => ?_, (toNat_eq_zero _).symm.trans hgen⟩
  obtain ⟨ha, hb⟩ := hunc hw
  exact ⟨(toNat_eq_zero _).mp ha, (toNat_eq_zero _).mp hb⟩

/-- A record that was decoded is writable and carries its own hash. -/
theorem writable_of_decode {bytes : List UInt8} {r : SessionRecordV1}
    (h : decode bytes = .ok r) : r.Writable ∧ r.currBlockHash = r.computeCurr := by
  obtain ⟨⟨hl, w⟩, hgate, h⟩ := bind_eq_ok.mp h
  obtain ⟨f, hread, h⟩ := bind_eq_ok.mp h
  obtain ⟨_, hfields, h⟩ := bind_eq_ok.mp h
  obtain ⟨_, -, h⟩ := bind_eq_ok.mp h
  obtain ⟨-, hle, -⟩ := decodeGate_ok hgate
  obtain ⟨hrev, hstable, hoff⟩ := readFields_ok hread
  obtain ⟨h1, h2, h3, h4, h5, h6⟩ := checkFields_eq_ok.mp hfields
  obtain ⟨hclose, hcurr, hgen, hunc, tailText, htext, rfl⟩ := decodePayload_ok h
  have hpay : (bytes.drop hl).length = f.tokenCount * 4 + f.textTailBytes := by
    rw [List.length_drop]
    omega
  have hidlen : ((bytes.drop hl).take (f.tokenCount * 4)).length = 4 * f.tokenCount := by
    rw [List.length_take]
    omega
  have hids := length_wordsOfBytes hidlen
  have hutf := utf8_of_utf8Decode? htext
  have htail : utf8Len tailText = f.textTailBytes := by
    rw [← length_utf8, hutf, List.length_drop]
    omega
  have hR : (UInt64.ofNat f.revision).toNat = f.revision := UInt64.toNat_ofNat_of_lt' hrev
  have hS : (UInt64.ofNat f.stablePrefixBytes).toNat = f.stablePrefixBytes :=
    UInt64.toNat_ofNat_of_lt' hstable
  have hO : (UInt64.ofNat f.replaceTokenOffset).toNat = f.replaceTokenOffset :=
    UInt64.toNat_ofNat_of_lt' hoff
  constructor
  · refine ⟨?_, ?_, ?_, ?_, fun hw => ?_, ?_⟩
    · simp only [fullTextBytes, hS, htail]
      omega
    · simp only [htail]
      exact h3
    · simp only [hids]
      exact h5
    · simp only [hids, hO]
      exact h6
    · obtain ⟨ha, hb⟩ := hunc hw
      simp only [ha, hb]
      exact ⟨rfl, rfl⟩
    · rw [← toNat_eq_zero, hR]
      exact hgen
  · have hparts : DOMAIN_PAYLOAD ++ bytes.drop hl = DOMAIN_PAYLOAD ++
        [wordsOfBytes ((bytes.drop hl).take (f.tokenCount * 4))].flatMap wordsBytes ++
          utf8 tailText := by
      rw [List.flatMap_singleton, wordsBytes_wordsOfBytes hidlen, hutf, List.append_assoc,
        List.take_append_drop]
    simp only [computeCurr, linkInputs, fullTextBytes, payloadDigestParts, hR, hS, hO, hids, htail,
      h4, ← hparts]
    exact hcurr.symm

/-- The codec's contract: what the writer lets through is read back; what is read is
written back to an equal record; the decoder stays inside its input and its lengths
inside 64 bits; and gate and decoder describe the same records. -/
theorem record_codec :
    (∀ r : SessionRecordV1, r.checkWriterObligations = .ok () →
      ∃ bs, r.toBytes = .ok bs ∧ fromBytes bs = .ok { r with currBlockHash := r.computeCurr }) ∧
    (∀ (b : List UInt8) (r : SessionRecordV1), fromBytes b = .ok r →
      ∃ bs, r.toBytes = .ok bs ∧ fromBytes bs = .ok r) ∧
    (∀ b : List UInt8, NoPanic (decode b)) ∧
    (∀ (b : List UInt8) (hl : ℕ) (w : WitnessCategory) (f : HeaderFields),
      decodeGate b = .ok (hl, w) → readFields b = .ok f → checkFields f = .ok () →
      hl ≤ HEADER_LEN_MAX ∧ f.stablePrefixBytes + f.textTailBytes < 2 ^ 64 ∧
        hl + f.tokenCount * 4 + f.textTailBytes < 2 ^ 64) ∧
    (∀ r : SessionRecordV1, r.checkWriterObligations = .ok () ↔
      ∃ r', fromBytes r.encodeBytes = .ok r') := by
  have hread {r : SessionRecordV1} (h : r.Writable) :
      ∃ bs, r.toBytes = .ok bs ∧ fromBytes bs = .ok { r with currBlockHash := r.computeCurr } := by
    refine ⟨r.encodeBytes, ?_, fromBytes_eq_ok.mpr (decode_encodeBytes_of_writable h)⟩
    rw [toBytes, checkWriterObligations_eq_ok.mpr h]
    rfl
  refine ⟨fun r h => hread (checkWriterObligations_eq_ok.mp h), fun b r h => ?_, decode_noPanic,
    fun b hl w f hgate _ hfields => decode_sizes_lt hgate hfields, fun r => ⟨fun h => ?_, ?_⟩⟩
  · obtain ⟨hw, hcurr⟩ := writable_of_decode (fromBytes_eq_ok.mp h)
    have hself : { r with currBlockHash := r.computeCurr } = r := by rw [← hcurr]
    obtain ⟨bs, hbs, hdec⟩ := hread hw
    exact ⟨bs, hbs, by rw [hdec, hself]⟩
  · exact ⟨_, fromBytes_eq_ok.mpr
      (decode_encodeBytes_of_writable (checkWriterObligations_eq_ok.mp h))⟩
  · rintro ⟨r', h⟩
    exact checkWriterObligations_eq_ok.mpr (writable_of_decode_encodeBytes (fromBytes_eq_ok.mp h))

end SessionRecordV1

end Payload

/-- A genesis record of two tokens over a two-character tail. -/
def genesisSample : SessionRecordV1 :=
  ⟨ZERO_HASH, .BpeSyncTransition, 0, ZERO_HASH, ZERO_HASH, 0, 0, [104, 105], ['h', 'i']⟩

/-- The gate accepts the sample, and its encoding reads back with the current hash set. -/
theorem SessionRecordV1.genesisSample_codec :
    ∃ bs, genesisSample.toBytes = .ok bs ∧
      fromBytes bs = .ok { genesisSample with currBlockHash := genesisSample.computeCurr } :=
  record_codec.1 genesisSample rfl

end Toktier.StoreCore
