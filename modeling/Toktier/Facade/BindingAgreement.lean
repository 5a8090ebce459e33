import Mathlib.Order.WellFounded
import Toktier.Facade.RecoveryBinding

/-!
# The two faces of the recovery binding

Positions computed from a length are those that a running expectation accepts, fields at fixed
offsets are those that a cursor reads, and slices of a whole text have the digests that were
taken on the way.

## Main definitions

* `Fields`: what stands at the offsets of a body.

## Main results

* `canonicalMarks_iff`: the two checks of the positions.
* `bindings_agree`: the two faces accept and write the same bytes.
-/
namespace Toktier.Facade

open Toktier.Lib Toktier.StoreCore Entries RecoveryBindingV1

/-! ### Positions -/

theorem markPositions_eq {n k : ℕ} (hn : n ≤ markAt k) (hlt : ∀ i < k, markAt i < n) :
    markPositions n = (List.range k).map markAt := by
  have hk : k ≤ n := by
    cases k with
    | zero => exact Nat.zero_le n
    | succ k => exact (markAt_strictMono.le_apply.trans_lt (hlt k (Nat.lt_succ_self k)))
  obtain ⟨r, rfl⟩ := Nat.exists_eq_add_of_le hk
  have hsplit : (List.range (k + r)).map markAt =
      (List.range k).map markAt ++ (List.range' k r).map markAt := by
    have h := @List.range'_append_1 0 k r
    rw [Nat.zero_add] at h
    rw [← List.map_append, List.range_eq_range', List.range_eq_range', h]
  change ((List.range (k + r)).map markAt).takeWhile (· < k + r) = _
  rw [hsplit, List.takeWhile_append_of_pos]
  · cases r with
    | zero => simp
    | succ r =>
      rw [List.range'_succ, List.map_cons, List.takeWhile_cons_of_neg, List.append_nil]
      simpa using hn
  · intro p hp
    obtain ⟨i, hi, rfl⟩ := List.mem_map.mp hp
    simpa using hlt i (List.mem_range.mp hi)

theorem exists_markAt (n : ℕ) : ∃ k, n ≤ markAt k ∧ ∀ i < k, markAt i < n := by
  have hex : ∃ k, n ≤ markAt k := ⟨n, markAt_strictMono.le_apply⟩
  exact ⟨Nat.find hex, Nat.find_spec hex, fun i hi => not_le.mp (Nat.find_min hex hi)⟩

theorem positions_of_canonical {n : ℕ} {marks : List (ℕ × Bytes16)}
    (h : CanonicalMarks n 0 marks) : marks.map Prod.fst = markPositions n := by
  have hcomplete := h.complete
  rw [Nat.zero_add] at hcomplete
  rw [markPositions_eq hcomplete fun i hi => h.below i (Nat.zero_le i) (by omega), h.positions,
    List.range_eq_range']

/-- The running expectation accepts the positions that are computed from the length. -/
theorem canonicalMarks_iff {n : ℕ} (hn : n ≤ 2 ^ 63) {marks : List (ℕ × Bytes16)} :
    CanonicalMarks n 0 marks ↔ marks.map Prod.fst = markPositions n := by
  refine ⟨positions_of_canonical, fun h => ?_⟩
  obtain ⟨k, hk, hlt⟩ := exists_markAt n
  rw [markPositions_eq hk hlt] at h
  have hlen : marks.length = k := by
    have := congrArg List.length h
    rwa [List.length_map, List.length_map, List.length_range] at this
  refine ⟨?_, fun i _ hi => hlt i (by omega), fun i _ hi => ?_, ?_⟩
  · rw [h, hlen, List.range_eq_range']
  · have := hlt i (by omega)
    rw [markAt_succ]
    omega
  · rwa [hlen, Nat.zero_add]

/-! ### Rows -/

theorem unpackMarks_markBytes {marks : List (ℕ × Bytes16)} (h : ∀ m ∈ marks, m.1 < 2 ^ 64) :
    RecoveryBinding.unpackMarks marks.length (markBytes marks) =
      marks.map fun m => (m.1, hex m.2.bytes) := by
  induction marks with
  | nil => rfl
  | cons m marks ih =>
    obtain ⟨hm, hmarks⟩ := List.forall_mem_cons.mp h
    have hbytes : markBytes (m :: marks) = leBytes 8 m.1 ++ (m.2.bytes ++ markBytes marks) := by
      rw [markBytes, List.flatMap_cons, List.append_assoc]
      rfl
    have h8 := length_leBytes 8 m.1
    have h16 := m.2.size_eq
    rw [List.length_cons, RecoveryBinding.unpackMarks, hbytes, List.take_left' h8,
      List.drop_left' h8, List.take_left' h16, leNat_leBytes_of_lt hm, List.map_cons,
      show 24 = 8 + 16 from rfl, ← List.drop_drop, List.drop_left' h8, List.drop_left' h16,
      ih hmarks]

/-- Bytes of the size of `n` rows are the bytes of rows. -/
theorem exists_markBytes {n : ℕ} {raw : List UInt8} (h : raw.length = n * MARK_BYTES) :
    ∃ marks, raw = markBytes marks ∧ marks.length = n ∧ ∀ m ∈ marks, m.1 < 2 ^ 64 := by
  induction n generalizing raw with
  | zero =>
    refine ⟨[], ?_, rfl, fun m hm => absurd hm List.not_mem_nil⟩
    exact List.length_eq_zero_iff.mp (by omega)
  | succ n ih =>
    rw [MARK_BYTES] at h ih
    have hdrop : (raw.drop 24).length = n * (8 + 16) := by
      rw [List.length_drop]
      omega
    obtain ⟨marks, hmarks, hlen, hlt⟩ := ih hdrop
    have h8 : (raw.take 8).length = 8 := List.length_take_of_le (by omega)
    have h16 : ((raw.drop 8).take 16).length = 16 :=
      List.length_take_of_le (by rw [List.length_drop]; omega)
    have hpos : leNat (raw.take 8) < 2 ^ 64 := by
      have := leNat_lt (raw.take 8)
      rwa [h8] at this
    have hbytes : leBytes 8 (leNat (raw.take 8)) = raw.take 8 := by
      have := leBytes_leNat (raw.take 8)
      rwa [h8] at this
    refine ⟨(leNat (raw.take 8), ⟨(raw.drop 8).take 16, h16⟩) :: marks, ?_, by simp [hlen],
      List.forall_mem_cons.mpr ⟨hpos, hlt⟩⟩
    rw [markBytes, List.flatMap_cons, ← markBytes, ← hmarks, hbytes, List.append_assoc,
      show 24 = 8 + 16 from rfl, ← List.drop_drop, List.take_append_drop, List.take_append_drop]

theorem decodeDigest_hex (d : Bytes16) : decodeDigest (hex d.bytes) = .ok d.bytes := by
  unfold decodeDigest
  rw [if_neg (by rw [length_hex, d.size_eq, DIGEST_BYTES]; decide), fromHex?_hex]
  exact if_neg (by rw [d.size_eq, DIGEST_BYTES]; decide)

theorem pack_of_lt {width value : ℕ} (h : value < 256 ^ width) :
    RecoveryBinding.pack width value = .ok (leBytes width value) := if_pos h

theorem packMarks_markBytes {marks : List (ℕ × Bytes16)} (h : ∀ m ∈ marks, m.1 < 2 ^ 64) :
    RecoveryBinding.packMarks (marks.map fun m => (m.1, hex m.2.bytes)) = .ok (markBytes marks) := by
  induction marks with
  | nil => rfl
  | cons m marks ih =>
    obtain ⟨hm, hmarks⟩ := List.forall_mem_cons.mp h
    rw [List.map_cons, RecoveryBinding.packMarks, decodeDigest_hex, ok_bind, pack_of_lt hm,
      ok_bind, ih hmarks, ok_bind]
    rfl

/-! ### Fields at fixed offsets -/

/-- The pieces of a body. -/
def bodyPieces (b : RecoveryBindingV1) : List (List UInt8) :=
  [BINDING_MAGIC, leBytes 2 BINDING_VERSION, b.recordHash.bytes,
    leBytes 8 b.indexEntry.byteLength, b.textDigest.bytes, b.indexEntry.endDigest.bytes,
    leBytes 4 b.indexEntry.marks.length, markBytes b.indexEntry.marks]

theorem bodyBytes_eq (b : RecoveryBindingV1) : b.bodyBytes = (bodyPieces b).flatten := by
  simp only [bodyBytes, bodyPieces, List.flatten_cons, List.flatten_nil, List.append_nil,
    List.append_assoc]

/-- The slice at a piece's place is that piece. -/
theorem field {b : RecoveryBindingV1} {piece : List UInt8} {lo n : ℕ} (i : ℕ)
    (h : (bodyPieces b)[i]? = some piece) (hn : piece.length = n)
    (hlo : (((bodyPieces b).take i).map List.length).sum = lo) :
    (b.bodyBytes.drop lo).take n = piece := by
  subst hn
  have hslice := sliceAt_eq_ok.mp (sliceAt_flatten (ε := Unit) h hlo rfl)
  rw [bodyBytes_eq, List.take_drop]
  exact hslice.2

theorem length_magic : BINDING_MAGIC.length = 4 := by decide

/-- What stands at the offsets of a body. -/
structure Fields (b : RecoveryBindingV1) (body : List UInt8) : Prop where
  magic : body.take 4 = BINDING_MAGIC
  version : leNat ((body.drop 4).take 2) = BINDING_VERSION
  recordHash : (body.drop 6).take 32 = b.recordHash.bytes
  byteLength : leNat ((body.drop 38).take 8) = b.indexEntry.byteLength
  textDigest : (body.drop 46).take 32 = b.textDigest.bytes
  endpoint : (body.drop 78).take 16 = b.indexEntry.endDigest.bytes
  markCount : leNat ((body.drop 94).take 4) = b.indexEntry.marks.length
  marks : body.drop HEADER_BYTES = markBytes b.indexEntry.marks

theorem fields_bodyBytes {b : RecoveryBindingV1} (hlt : b.indexEntry.byteLength < 2 ^ 64)
    (hfew : b.indexEntry.marks.length < 2 ^ 32) : Fields b b.bodyBytes where
  magic := by
    rw [← List.drop_zero (l := b.bodyBytes)]
    exact field 0 rfl length_magic rfl
  version := by
    rw [field 1 rfl (length_leBytes 2 _) (by simp [bodyPieces, length_magic])]
    exact leNat_leBytes_of_lt (by decide)
  recordHash := field 2 rfl b.recordHash.size_eq (by simp [bodyPieces, length_magic])
  byteLength := by
    rw [field 3 rfl (length_leBytes 8 _) (by simp [bodyPieces, length_magic])]
    exact leNat_leBytes_of_lt hlt
  textDigest := field 4 rfl b.textDigest.size_eq (by simp [bodyPieces, length_magic])
  endpoint := field 5 rfl b.indexEntry.endDigest.size_eq (by simp [bodyPieces, length_magic])
  markCount := by
    rw [field 6 rfl (length_leBytes 4 _) (by simp [bodyPieces, length_magic])]
    exact leNat_leBytes_of_lt hfew
  marks := by
    rw [bodyBytes]
    refine List.drop_left' ?_
    simp [length_magic, HEADER_BYTES]

/-- Bytes with the right front and of the right size are a body. -/
theorem exists_bodyBytes {body : List UInt8} (hmagic : body.take 4 = BINDING_MAGIC)
    (hversion : leNat ((body.drop 4).take 2) = BINDING_VERSION)
    (hsize : body.length = HEADER_BYTES + leNat ((body.drop 94).take 4) * MARK_BYTES) :
    ∃ b : RecoveryBindingV1, body = b.bodyBytes ∧ b.indexEntry.byteLength < 2 ^ 64 ∧
      b.indexEntry.marks.length < 2 ^ 32 ∧ ∀ m ∈ b.indexEntry.marks, m.1 < 2 ^ 64 := by
  have hlong : 98 ≤ body.length := by
    rw [hsize]
    exact Nat.le_add_right _ _
  have hfield (lo n : ℕ) (hle : lo + n ≤ 98) : ((body.drop lo).take n).length = n :=
    List.length_take_of_le (by rw [List.length_drop]; omega)
  have hword (lo n : ℕ) (hle : lo + n ≤ 98) :
      leBytes n (leNat ((body.drop lo).take n)) = (body.drop lo).take n := by
    have := leBytes_leNat ((body.drop lo).take n)
    rwa [hfield lo n hle] at this
  have hlt (lo n : ℕ) (hle : lo + n ≤ 98) : leNat ((body.drop lo).take n) < 256 ^ n := by
    have := leNat_lt ((body.drop lo).take n)
    rwa [hfield lo n hle] at this
  have hcut (lo n hi : ℕ) (h : lo + n = hi) :
      (body.drop lo).take n ++ body.drop hi = body.drop lo := by
    rw [← h, ← List.drop_drop, List.take_append_drop]
  have hrows : (body.drop HEADER_BYTES).length = leNat ((body.drop 94).take 4) * MARK_BYTES := by
    rw [List.length_drop]
    omega
  obtain ⟨marks, hmarks, hlen, hpos⟩ := exists_markBytes hrows
  refine ⟨⟨⟨(body.drop 6).take 32, hfield 6 32 (by omega)⟩,
    ⟨(body.drop 46).take 32, hfield 46 32 (by omega)⟩,
    ⟨leNat ((body.drop 38).take 8), ⟨(body.drop 78).take 16, hfield 78 16 (by omega)⟩, marks⟩⟩,
    ?_, hlt 38 8 (by omega), hlen ▸ hlt 94 4 (by omega), hpos⟩
  have hv := hword 4 2 (by omega)
  rw [hversion] at hv
  rw [bodyBytes_eq, bodyPieces]
  dsimp only
  rw [hlen, hword 38 8 (by omega), hword 94 4 (by omega), hv, ← hmagic, ← hmarks]
  simp only [List.flatten_cons, List.flatten_nil, List.append_nil]
  rw [hcut 94 4 HEADER_BYTES rfl, hcut 78 16 94 rfl, hcut 46 32 78 rfl, hcut 38 8 46 rfl,
    hcut 6 32 38 rfl, hcut 4 2 6 rfl, List.take_append_drop]

theorem unpackMarks_positions {n : ℕ} {marks : List (ℕ × Bytes16)} {raw : List UInt8}
    (hraw : raw = markBytes marks) (hn : n = marks.length) (h : ∀ m ∈ marks, m.1 < 2 ^ 64) :
    (RecoveryBinding.unpackMarks n raw).map Prod.fst = marks.map Prod.fst := by
  rw [hraw, hn, unpackMarks_markBytes h, List.map_map]
  rfl

/-! ### Texts in pieces -/

theorem utf8_flatten (pieces : List Text) : (pieces.map utf8).flatten = utf8 pieces.flatten := by
  induction pieces with
  | nil => rfl
  | cons piece pieces ih =>
    rw [List.map_cons, List.flatten_cons, List.flatten_cons, utf8_append, ih]

/-- The pieces of a text end in the digest of the text, unless it is too long. -/
theorem foldlM_append {pieces : List Text} {d d' : RecoveryDigest} (hd : d.textBytes < 2 ^ 64) :
    pieces.foldlM RecoveryDigest.append d = .ok d' ↔
      d.textBytes + utf8Len pieces.flatten < 2 ^ 64 ∧
        d' = ⟨d.fed ++ utf8 pieces.flatten, d.textBytes + utf8Len pieces.flatten⟩ := by
  induction pieces generalizing d with
  | nil =>
    rw [List.foldlM_nil, List.flatten_nil, utf8_nil, utf8Len_nil, List.append_nil, Nat.add_zero]
    exact ⟨fun h => ⟨hd, (Except.ok.inj h).symm⟩, fun h => congrArg _ h.2.symm⟩
  | cons piece pieces ih =>
    rw [List.foldlM_cons, List.flatten_cons, utf8_append, utf8Len_append, ← Nat.add_assoc,
      ← List.append_assoc]
    by_cases hpiece : d.textBytes + utf8Len piece < 2 ^ 64
    · rw [RecoveryDigest.append_of_lt hpiece, ok_bind, ih hpiece]
    · rw [RecoveryDigest.append, if_pos (not_lt.mp hpiece)]
      exact iff_of_false (fun h => by cases h) fun h => by omega

section

variable [Digests]

/-! ### Readers -/

theorem length_sealBody (body : List UInt8) :
    (sealBody STATE_DOMAIN body).length = body.length + CHECKSUM_BYTES := by
  rw [sealBody, List.length_append, Bytes32.length_bytes, CHECKSUM_BYTES]

/-- The Python face reads what the native side writes. -/
theorem fromBytes_sealBody {b : RecoveryBindingV1} (h : b.Encodable) :
    RecoveryBinding.fromBytes (sealBody STATE_DOMAIN b.bodyBytes) = .ok (.ofNative b) := by
  have hcanon := h.canonical
  have hmarks : ∀ m ∈ b.indexEntry.marks, m.1 < 2 ^ 64 :=
    fun m hm => (hcanon.mark_lt hm).trans h.length_lt
  have hfew : b.indexEntry.marks.length ≤ 64 := hcanon.length_le
  have hfields := fields_bodyBytes h.length_lt (by omega)
  have hbody : (sealBody STATE_DOMAIN b.bodyBytes).take
      ((sealBody STATE_DOMAIN b.bodyBytes).length - CHECKSUM_BYTES) = b.bodyBytes := by
    rw [length_sealBody, Nat.add_sub_cancel]
    exact List.take_left
  have hsum : (sealBody STATE_DOMAIN b.bodyBytes).drop
      ((sealBody STATE_DOMAIN b.bodyBytes).length - CHECKSUM_BYTES) =
      (sha256 (STATE_DOMAIN ++ b.bodyBytes)).bytes := by
    rw [length_sealBody, Nat.add_sub_cancel]
    exact List.drop_left
  have hpos := unpackMarks_positions hfields.marks hfields.markCount hmarks
  unfold RecoveryBinding.fromBytes
  rw [if_neg (by rw [length_sealBody, length_bodyBytes]; omega)]
  dsimp only
  rw [hbody, hsum, if_neg (not_not.mpr rfl), if_neg (not_not.mpr hfields.magic),
    if_neg (not_not.mpr hfields.version), if_neg (by rw [hfields.markCount]; exact not_lt.mpr hfew),
    if_neg (by rw [hfields.markCount, length_bodyBytes]; exact not_not.mpr rfl),
    if_neg (by rw [hpos, hfields.byteLength]; exact not_not.mpr (positions_of_canonical hcanon)),
    hfields.recordHash, hfields.textDigest, hfields.byteLength, hfields.endpoint, hfields.marks,
    hfields.markCount, unpackMarks_markBytes hmarks]
  rfl

/-- What the Python face reads was written by the native side. -/
theorem exists_native {raw : List UInt8} {v : RecoveryBinding}
    (hlen : leNat ((raw.drop 38).take 8) ≤ 2 ^ 63) (h : RecoveryBinding.fromBytes raw = .ok v) :
    ∃ b, RecoveryBindingV1.fromBytes raw = .ok b := by
  unfold RecoveryBinding.fromBytes at h
  dsimp only at h
  split_ifs at h with hshort hsum hmagic hversion hmany hsize hpositions
  rw [not_not] at hsum hmagic hversion hsize hpositions
  obtain ⟨b, hbody, hlt, hfew, hmarks⟩ := exists_bodyBytes hmagic hversion hsize
  have hfields := fields_bodyBytes hlt hfew
  have hraw : raw = sealBody STATE_DOMAIN b.bodyBytes := by
    rw [sealBody, checksum, ← hbody, hsum, List.take_append_drop]
  have hfield : leNat ((raw.drop 38).take 8) = b.indexEntry.byteLength := by
    have hlong : 38 + 8 ≤ b.bodyBytes.length := by
      rw [length_bodyBytes, HEADER_BYTES]
      omega
    rw [hraw, sealBody, List.drop_append_of_le_length (by omega),
      List.take_append_of_le_length (by rw [List.length_drop]; omega), hfields.byteLength]
  rw [hbody, hfields.byteLength,
    unpackMarks_positions hfields.marks hfields.markCount hmarks] at hpositions
  exact ⟨b, fromBytes_eq_ok.mpr ⟨⟨hlt, validateEntry_eq_ok.mpr
    ((canonicalMarks_iff (hfield ▸ hlen)).mpr hpositions)⟩, hraw⟩⟩

/-! ### Writers -/

theorem toBytes_ofNative {b : RecoveryBindingV1} (h : b.Encodable) :
    (RecoveryBinding.ofNative b).toBytes = .ok (sealBody STATE_DOMAIN b.bodyBytes) := by
  have hcanon := h.canonical
  have hmarks : ∀ m ∈ b.indexEntry.marks, m.1 < 2 ^ 64 :=
    fun m hm => (hcanon.mark_lt hm).trans h.length_lt
  have hfew : b.indexEntry.marks.length ≤ MAX_MARKS := hcanon.length_le
  have hpos : (RecoveryBinding.ofNative b).indexEntry.marks.map Prod.fst =
      markPositions (RecoveryBinding.ofNative b).indexEntry.byteLength := by
    refine Eq.trans ?_ (positions_of_canonical hcanon)
    rw [RecoveryBinding.ofNative, List.map_map]
    rfl
  have hcount : (RecoveryBinding.ofNative b).indexEntry.marks.length = b.indexEntry.marks.length :=
    List.length_map _
  unfold RecoveryBinding.toBytes
  dsimp only
  rw [if_neg (by simp [RecoveryBinding.ofNative]), hpos, if_neg (not_not.mpr rfl), hcount,
    if_neg (not_lt.mpr hfew)]
  dsimp only [RecoveryBinding.ofNative]
  rw [decodeDigest_hex, ok_bind, pack_of_lt h.length_lt, ok_bind,
    pack_of_lt (hfew.trans_lt (by decide)), ok_bind, packMarks_markBytes hmarks, ok_bind]
  simp only [sealBody, checksum, bodyBytes]
  rfl

/-- What the native side says of a text. -/
def textBinding (text : Text) (recordHash : BlockHash) (d : ContentDigest) : RecoveryBindingV1 :=
  .fromStates recordHash (sha256 (RECOVERY_TEXT_DOMAIN ++ utf8 text)) d

theorem nativeBytes_eq_ok {pieces : List Text} {recordHash : BlockHash} {bs : List UInt8} :
    nativeBytes pieces recordHash = .ok bs ↔
      ∃ k d, ContentDigest.After (utf8 pieces.flatten) k d ∧
        bs = sealBody STATE_DOMAIN (textBinding pieces.flatten recordHash d).bodyBytes := by
  have hrun (d : ContentDigest) := ContentDigest.run_appendAll (pieces.map utf8) d
  simp only [utf8_flatten] at hrun
  constructor
  · intro h
    obtain ⟨recovery, hrecovery, h⟩ := bind_eq_ok.mp h
    obtain ⟨-, rfl⟩ := (foldlM_append (by decide)).mp hrecovery
    split at h
    · cases h
    · rename_i d heq
      obtain ⟨k, hd⟩ := (hrun d).mp heq
      exact ⟨k, d, hd, (toBytes_eq_ok.mp h).2⟩
  · rintro ⟨k, d, hd, rfl⟩
    have hshort : utf8Len pieces.flatten < 2 ^ 64 := by
      have := hd.length_le
      rw [length_utf8] at this
      omega
    rw [nativeBytes, (foldlM_append (by decide)).mpr ⟨(Nat.zero_add _).trans_lt hshort, rfl⟩, ok_bind,
      (hrun d).mpr ⟨k, hd⟩]
    exact toBytes_eq_ok.mpr ⟨hd.validateEntry, rfl⟩

/-- What the Python face makes of a text is what the native side says of it. -/
theorem ofNative_textBinding {text : Text} {k : ℕ} {d : ContentDigest}
    (h : ContentDigest.After (utf8 text) k d) (recordHash : BlockHash) :
    RecoveryBinding.create (utf8 text) recordHash.bytes =
      .ok (.ofNative (textBinding text recordHash d)) := by
  have hpositions : markPositions (utf8 text).length = (List.range k).map markAt :=
    markPositions_eq h.le_markAt h.passed
  have hentry : entryFor RecoveryBinding.digestOf (utf8 text) =
      (RecoveryBinding.ofNative (textBinding text recordHash d)).indexEntry := by
    rw [entryFor, hpositions, RecoveryBinding.ofNative, textBinding, RecoveryBindingV1.fromStates,
      ContentDigest.entry, h.fed, h.whole, List.take_length, h.marks, ContentDigest.marksOf]
    simp only [prefixDigests, List.map_map, RecoveryBinding.digestOf]
    rfl
  rw [RecoveryBinding.create, if_neg (not_not.mpr recordHash.size_eq), hentry]
  rfl

theorem encodable_textBinding {text : Text} {k : ℕ} {d : ContentDigest}
    (h : ContentDigest.After (utf8 text) k d) (recordHash : BlockHash) :
    (textBinding text recordHash d).Encodable := by
  refine ⟨?_, h.validateEntry⟩
  change d.byteLength < 2 ^ 64
  have := h.length_le
  rw [h.whole]
  omega

end

/-- **The two faces agree on recovery bindings**: they accept the same bytes and read the same
from them, and what the native side writes for a text in pieces is what the Python face writes
for the text; the native side writes something unless the text is longer than `2 ^ 63` bytes. -/
theorem bindings_agree [Digests] :
    (∀ raw : List UInt8, leNat ((raw.drop 38).take 8) ≤ 2 ^ 63 →
      (RecoveryBinding.fromBytes raw).toOption =
        (RecoveryBindingV1.fromBytes raw).toOption.map RecoveryBinding.ofNative) ∧
      ∀ (pieces : List Text) (recordHash : BlockHash),
        (∀ bs, nativeBytes pieces recordHash = .ok bs →
          (RecoveryBinding.create (utf8 pieces.flatten) recordHash.bytes >>=
            RecoveryBinding.toBytes) = .ok bs) ∧
          ((∃ bs, nativeBytes pieces recordHash = .ok bs) ↔ utf8Len pieces.flatten ≤ 2 ^ 63) := by
  refine ⟨fun raw hlen => ?_, fun pieces recordHash => ⟨fun bs h => ?_, ?_⟩⟩
  · cases hnative : RecoveryBindingV1.fromBytes raw with
    | ok b =>
      obtain ⟨hb, rfl⟩ := fromBytes_eq_ok.mp hnative
      rw [fromBytes_sealBody hb]
      rfl
    | error e =>
      cases hpython : RecoveryBinding.fromBytes raw with
      | ok v =>
        obtain ⟨b, hb⟩ := exists_native hlen hpython
        rw [hnative] at hb
        cases hb
      | error e' => rfl
  · obtain ⟨k, d, hd, rfl⟩ := nativeBytes_eq_ok.mp h
    rw [ofNative_textBinding hd recordHash, ok_bind]
    exact toBytes_ofNative (encodable_textBinding hd recordHash)
  · have hexists := ContentDigest.exists_appendAll (pieces.map utf8)
    rw [utf8_flatten, length_utf8] at hexists
    rw [← hexists]
    constructor
    · rintro ⟨bs, h⟩
      obtain ⟨k, d, hd, -⟩ := nativeBytes_eq_ok.mp h
      refine ⟨d, (ContentDigest.run_appendAll _ d).mpr ⟨k, ?_⟩⟩
      rwa [utf8_flatten]
    · rintro ⟨d, h⟩
      obtain ⟨k, hd⟩ := (ContentDigest.run_appendAll _ d).mp h
      rw [utf8_flatten] at hd
      exact ⟨_, nativeBytes_eq_ok.mpr ⟨k, d, hd, rfl⟩⟩

/-- A text that was appended in two pieces. -/
theorem bindings_agree_two : ∃ bs,
    nativeBytes [['a'], ['b']] ZERO_HASH = .ok bs ∧
      (RecoveryBinding.create (utf8 ['a', 'b']) ZERO_HASH.bytes >>=
        RecoveryBinding.toBytes) = .ok bs := by
  have hagree := bindings_agree.2 [['a'], ['b']] ZERO_HASH
  obtain ⟨bs, hbs⟩ := hagree.2.mpr (by decide)
  exact ⟨bs, hbs, hagree.1 bs hbs⟩

end Toktier.Facade
