import Toktier.StoreCore.Checkpoints

/-!
# The codec of the recovery binding

What the decoder accepts is what the writer writes: the marks of an accepted entry are the
doubled positions below its length, and the bytes of a binding are those it was read from.

## Main definitions

* `CanonicalEntry`: what `validateEntry` asks of an entry.

## Main results

* `validateEntry_eq_ok`: the accepted entries.
* `binding_codec`: bindings and their bytes determine each other.
-/
namespace Toktier.StoreCore

open Toktier.Lib

/-! ### Accepted entries -/

/-- The marks stand at the doubled positions from number `j` on, up to the end. -/
structure CanonicalMarks (byteLength j : ℕ) (marks : List (ℕ × Bytes16)) : Prop where
  positions : marks.map Prod.fst = (List.range' j marks.length).map markAt
  below : ∀ i, j ≤ i → i < j + marks.length → markAt i < byteLength
  near : ∀ i, j ≤ i → i < j + marks.length → markAt (i + 1) < 2 ^ 64
  complete : byteLength ≤ markAt (j + marks.length)

theorem canonicalMarks_nil {n j : ℕ} : CanonicalMarks n j [] ↔ n ≤ markAt j :=
  ⟨fun h => h.complete, fun h => ⟨rfl, fun _ h1 h2 => absurd h2 (not_lt.mpr h1),
    fun _ h1 h2 => absurd h2 (not_lt.mpr h1), h⟩⟩

theorem canonicalMarks_cons {n j p : ℕ} {g : Bytes16} {marks : List (ℕ × Bytes16)} :
    CanonicalMarks n j ((p, g) :: marks) ↔
      p = markAt j ∧ markAt j < n ∧ markAt (j + 1) < 2 ^ 64 ∧ CanonicalMarks n (j + 1) marks := by
  constructor
  · intro h
    obtain ⟨hp, hrest⟩ := List.cons.inj (h.positions : p :: marks.map Prod.fst =
      markAt j :: (List.range' (j + 1) marks.length).map markAt)
    refine ⟨hp, h.below j le_rfl (by simp), h.near j le_rfl (by simp), hrest, fun i h1 h2 => ?_,
      fun i h1 h2 => ?_, ?_⟩
    · exact h.below i (by omega) (by rw [List.length_cons]; omega)
    · exact h.near i (by omega) (by rw [List.length_cons]; omega)
    · rw [Nat.add_right_comm]
      exact h.complete
  · rintro ⟨rfl, hbelow, hnear, h⟩
    refine ⟨congrArg (markAt j :: ·) h.positions, fun i h1 h2 => ?_, fun i h1 h2 => ?_, ?_⟩
    · rcases Nat.eq_or_lt_of_le h1 with rfl | h1
      · exact hbelow
      · exact h.below i h1 (by rw [List.length_cons] at h2; omega)
    · rcases Nat.eq_or_lt_of_le h1 with rfl | h1
      · exact hnear
      · exact h.near i h1 (by rw [List.length_cons] at h2; omega)
    · have hcomplete := h.complete
      rwa [Nat.add_right_comm] at hcomplete

theorem validateMarks_eq_ok {n j : ℕ} {marks : List (ℕ × Bytes16)} :
    validateMarks n (markAt j) marks = .ok () ↔ CanonicalMarks n j marks := by
  induction marks generalizing j with
  | nil =>
    rw [validateMarks, canonicalMarks_nil]
    split_ifs with h
    · exact iff_of_false (fun he => by cases he) (not_le.mpr h)
    · exact iff_of_true rfl (not_lt.mp h)
  | cons m marks ih =>
    obtain ⟨p, g⟩ := m
    rw [validateMarks, canonicalMarks_cons, ← markAt_succ, ← ih]
    by_cases hp : p ≠ markAt j ∨ p ≥ n
    · rw [if_pos hp]
      refine iff_of_false (fun he => by cases he) fun ⟨heq, hlt, _⟩ => ?_
      rcases hp with hne | hge
      · exact hne heq
      · omega
    · rw [if_neg hp]
      obtain ⟨hp, hlt⟩ := not_or.mp hp
      rw [not_not] at hp
      subst hp
      by_cases hfar : 2 ^ 64 ≤ markAt (j + 1)
      · rw [if_pos hfar]
        exact iff_of_false (fun he => by cases he) fun ⟨_, _, hnear, _⟩ => by omega
      · rw [if_neg hfar]
        exact ⟨fun h => ⟨rfl, not_le.mp hlt, not_le.mp hfar, h⟩, fun h => h.2.2.2⟩

theorem CanonicalMarks.mark_lt {n j : ℕ} {marks : List (ℕ × Bytes16)} (h : CanonicalMarks n j marks)
    {m : ℕ × Bytes16} (hm : m ∈ marks) : m.1 < n := by
  have hpos := List.mem_map_of_mem (f := Prod.fst) hm
  rw [h.positions] at hpos
  obtain ⟨i, hi, heq⟩ := List.mem_map.mp hpos
  obtain ⟨h1, h2⟩ := List.mem_range'_1.mp hi
  rw [← heq]
  exact h.below i h1 h2

/-- There are not many doubled positions among the 64-bit numbers. -/
theorem CanonicalMarks.length_le {n : ℕ} {marks : List (ℕ × Bytes16)}
    (h : CanonicalMarks n 0 marks) : marks.length ≤ MAX_MARKS := by
  by_contra hlong
  have hnear := h.near MAX_MARKS (Nat.zero_le _) (by omega)
  exact absurd hnear (by decide)

/-- The check of the number of marks never fails where the others pass. -/
theorem validateEntry_eq_ok {entry : ContentIndexEntry} :
    validateEntry entry = .ok () ↔ CanonicalMarks entry.byteLength 0 entry.marks := by
  have hstart : MARK_FLOOR_BYTES = markAt 0 := rfl
  rw [validateEntry, hstart, ← validateMarks_eq_ok]
  split_ifs with hmany
  · refine iff_of_false (fun he => by cases he) fun h => ?_
    exact absurd (validateMarks_eq_ok.mp h).length_le (not_le.mpr hmany)
  · exact Iff.rfl

/-- What a digest says of its text is accepted. -/
theorem ContentDigest.After.validateEntry [Digests] {text : List UInt8} {k : ℕ} {d : ContentDigest}
    (h : After text k d) : validateEntry d.entry = .ok () := by
  have hlen : d.entry.marks.length = k := by
    rw [entry, h.marks, marksOf, List.length_map, List.length_range]
  rw [validateEntry_eq_ok]
  refine ⟨?_, fun i _ hi => ?_, fun i _ hi => ?_, ?_⟩
  · rw [hlen, entry, h.marks, marksOf, List.map_map, ← List.range_eq_range']
    rfl
  · rw [hlen, Nat.zero_add] at hi
    exact (h.passed i hi).trans_eq h.whole.symm
  · rw [hlen, Nat.zero_add] at hi
    exact (markAt_strictMono.monotone hi).trans_lt h.near
  · rw [hlen, Nat.zero_add]
    exact h.ahead

/-! ### Bindings and their bytes -/

namespace RecoveryBindingV1

/-- The counters fit their fields and the entry is accepted. -/
structure Encodable (b : RecoveryBindingV1) : Prop where
  length_lt : b.indexEntry.byteLength < 2 ^ 64
  valid : validateEntry b.indexEntry = .ok ()

theorem Encodable.canonical {b : RecoveryBindingV1} (h : b.Encodable) :
    CanonicalMarks b.indexEntry.byteLength 0 b.indexEntry.marks := validateEntry_eq_ok.mp h.valid

@[simp] theorem length_markBytes (marks : List (ℕ × Bytes16)) :
    (markBytes marks).length = marks.length * MARK_BYTES := by
  induction marks with
  | nil => rfl
  | cons m marks ih =>
    rw [markBytes, List.flatMap_cons, ← markBytes, List.length_append, ih, List.length_append,
      length_leBytes, Bytes16.length_bytes, List.length_cons, MARK_BYTES]
    omega

theorem length_bodyBytes (b : RecoveryBindingV1) :
    b.bodyBytes.length = HEADER_BYTES + b.indexEntry.marks.length * MARK_BYTES := by
  have hmagic : BINDING_MAGIC.length = 4 := by decide
  simp only [bodyBytes, List.length_append, hmagic, length_leBytes, Bytes32.length_bytes,
    Bytes16.length_bytes, length_markBytes, HEADER_BYTES]

theorem reads_takeField {n : ℕ} {bs : List UInt8} (h : bs.length = n) : Reads (takeField n) bs bs :=
  reads_takeBytes _ h

theorem reads_takeUint {n v : ℕ} (h : v < 256 ^ n) : Reads (takeUint n) (leBytes n v) v :=
  ((reads_takeField (length_leBytes n v)).map leNat).of_eq rfl (leNat_leBytes_of_lt h)

theorem reads_take32 (b : Bytes32) : Reads take32 b.bytes b := by
  rw [← List.append_nil b.bytes]
  refine (reads_takeField b.size_eq).bind ?_
  rw [dif_pos b.size_eq]
  exact Reads.pure b

theorem reads_take16 (b : Bytes16) : Reads take16 b.bytes b := by
  rw [← List.append_nil b.bytes]
  refine (reads_takeField b.size_eq).bind ?_
  rw [dif_pos b.size_eq]
  exact Reads.pure b

theorem reads_readMarks {marks : List (ℕ × Bytes16)} (h : ∀ m ∈ marks, m.1 < 2 ^ 64) :
    Reads (readMarks marks.length) (markBytes marks) marks := by
  induction marks with
  | nil => exact Reads.pure []
  | cons m marks ih =>
    obtain ⟨hm, hmarks⟩ := List.forall_mem_cons.mp h
    rw [markBytes, List.flatMap_cons, List.append_assoc, ← markBytes]
    refine (reads_takeUint hm).bind ((reads_take16 m.2).bind ?_)
    rw [← List.append_nil (markBytes marks)]
    exact (ih hmarks).bind (Reads.pure _)

theorem read_bodyBytes {b : RecoveryBindingV1} (h : b.Encodable) :
    (read b.bodyBytes.length).run b.bodyBytes = .ok b [] := by
  have hcount : b.indexEntry.marks.length ≤ 64 := h.canonical.length_le
  have hlen := b.length_bodyBytes
  have hmarks : ∀ m ∈ b.indexEntry.marks, m.1 < 2 ^ 64 :=
    fun m hm => (h.canonical.mark_lt hm).trans h.length_lt
  generalize b.bodyBytes.length = bodyLen at hlen
  rw [← List.append_nil b.bodyBytes]
  simp only [bodyBytes, List.append_assoc]
  unfold read
  refine Reads.run_bind (reads_takeField (by decide : BINDING_MAGIC.length = 4)) ?_
  refine (reads_throwIf _ (by simp)).run_step ?_
  refine (reads_takeUint (by decide)).run_bind ?_
  refine (reads_throwIf _ (by simp)).run_step ?_
  refine (reads_take32 _).run_bind ?_
  refine (reads_takeUint h.length_lt).run_bind ?_
  refine (reads_take32 _).run_bind ?_
  refine (reads_take16 _).run_bind ?_
  refine (reads_takeUint (by omega)).run_bind ?_
  refine (reads_throwIf _ (not_lt.mpr hcount)).run_step ?_
  refine (reads_throwIf _ (by simpa using hlen)).run_step ?_
  refine (reads_readMarks hmarks).run_bind ?_
  exact (Reader.reads_fromExcept h.valid).run_step rfl

/-! ### What was read -/

theorem take32_eq_ok {s rest : List UInt8} {b : Bytes32} (h : take32.run s = .ok b rest) :
    s = b.bytes ++ rest := by
  obtain ⟨raw, s', hraw, hb⟩ := run_bind_eq_ok h
  obtain ⟨hs, hlen⟩ := takeBytes_eq_ok.mp hraw
  rw [dif_pos hlen] at hb
  obtain ⟨rfl, rfl⟩ := EStateM.Result.ok.inj hb
  exact hs

theorem take16_eq_ok {s rest : List UInt8} {b : Bytes16} (h : take16.run s = .ok b rest) :
    s = b.bytes ++ rest := by
  obtain ⟨raw, s', hraw, hb⟩ := run_bind_eq_ok h
  obtain ⟨hs, hlen⟩ := takeBytes_eq_ok.mp hraw
  rw [dif_pos hlen] at hb
  obtain ⟨rfl, rfl⟩ := EStateM.Result.ok.inj hb
  exact hs

theorem readMarks_eq_ok {n : ℕ} {s rest : List UInt8} {marks : List (ℕ × Bytes16)}
    (h : (readMarks n).run s = .ok marks rest) :
    s = markBytes marks ++ rest ∧ marks.length = n := by
  induction n generalizing s marks with
  | zero =>
    obtain ⟨rfl, rfl⟩ := EStateM.Result.ok.inj h
    exact ⟨rfl, rfl⟩
  | succ n ih =>
    obtain ⟨position, s₁, hposition, h⟩ := run_bind_eq_ok h
    obtain ⟨digest, s₂, hdigest, h⟩ := run_bind_eq_ok h
    obtain ⟨marks', s₃, hmarks, h⟩ := run_bind_eq_ok h
    obtain ⟨rfl, rfl⟩ := EStateM.Result.ok.inj h
    obtain ⟨hs, -⟩ := leNat_takeBytes_eq_ok.mp hposition
    obtain ⟨hs₂, rfl⟩ := ih hmarks
    refine ⟨?_, rfl⟩
    rw [hs, take16_eq_ok hdigest, hs₂, markBytes, markBytes, List.flatMap_cons, List.append_assoc,
      List.append_assoc]

theorem read_eq_ok {bodyLen : ℕ} {body rest : List UInt8} {b : RecoveryBindingV1}
    (h : (read bodyLen).run body = .ok b rest) :
    body = b.bodyBytes ++ rest ∧ bodyLen = b.bodyBytes.length ∧ b.Encodable := by
  obtain ⟨magic, s₁, hmagic, h⟩ := run_bind_eq_ok h
  obtain ⟨_, s₂, hgood, h⟩ := run_bind_eq_ok h
  obtain ⟨version, s₃, hversion, h⟩ := run_bind_eq_ok h
  obtain ⟨_, s₄, hknown, h⟩ := run_bind_eq_ok h
  obtain ⟨recordHash, s₅, hrecord, h⟩ := run_bind_eq_ok h
  obtain ⟨byteLength, s₆, hlength, h⟩ := run_bind_eq_ok h
  obtain ⟨textDigest, s₇, htext, h⟩ := run_bind_eq_ok h
  obtain ⟨endDigest, s₈, hend, h⟩ := run_bind_eq_ok h
  obtain ⟨markCount, s₉, hcount, h⟩ := run_bind_eq_ok h
  obtain ⟨_, s₁₀, hfew, h⟩ := run_bind_eq_ok h
  obtain ⟨_, s₁₁, hclosed, h⟩ := run_bind_eq_ok h
  obtain ⟨marks, s₁₂, hmarks, h⟩ := run_bind_eq_ok h
  obtain ⟨_, s₁₃, hvalid, h⟩ := run_bind_eq_ok h
  obtain ⟨rfl, rfl⟩ := EStateM.Result.ok.inj h
  -- what each step took off the front of its input
  obtain ⟨e₁, -⟩ := takeBytes_eq_ok.mp hmagic
  obtain ⟨hgood, e₂⟩ := run_throwIf_eq_ok hgood
  obtain ⟨e₃, -⟩ := leNat_takeBytes_eq_ok.mp hversion
  obtain ⟨hknown, e₄⟩ := run_throwIf_eq_ok hknown
  have e₅ := take32_eq_ok hrecord
  obtain ⟨e₆, hlt⟩ := leNat_takeBytes_eq_ok.mp hlength
  have e₇ := take32_eq_ok htext
  have e₈ := take16_eq_ok hend
  obtain ⟨e₉, -⟩ := leNat_takeBytes_eq_ok.mp hcount
  obtain ⟨-, e₁₀⟩ := run_throwIf_eq_ok hfew
  obtain ⟨hclosed, e₁₁⟩ := run_throwIf_eq_ok hclosed
  obtain ⟨e₁₂, hlen⟩ := readMarks_eq_ok hmarks
  obtain ⟨hvalid, e₁₃⟩ := run_fromExcept_eq_ok hvalid
  rw [not_not] at hgood hknown hclosed
  refine ⟨?_, ?_, hlt, hvalid⟩
  · rw [e₁, ← e₂, e₃, ← e₄, e₅, e₆, e₇, e₈, e₉, ← e₁₀, ← e₁₁, e₁₂, e₁₃, hgood, hknown, ← hlen]
    simp only [bodyBytes, List.append_assoc]
  · rw [hclosed, length_bodyBytes, hlen]

section

variable [Digests]

theorem toBytes_eq_ok {b : RecoveryBindingV1} {raw : List UInt8} :
    b.toBytes = .ok raw ↔
      validateEntry b.indexEntry = .ok () ∧ raw = sealBody STATE_DOMAIN b.bodyBytes := by
  constructor
  · intro h
    obtain ⟨⟨⟩, hvalid, h⟩ := bind_eq_ok.mp h
    exact ⟨hvalid, (Except.ok.inj h).symm⟩
  · rintro ⟨hvalid, rfl⟩
    rw [toBytes, hvalid]
    rfl

theorem fromBytes_eq_ok {raw : List UInt8} {b : RecoveryBindingV1} :
    fromBytes raw = .ok b ↔ b.Encodable ∧ raw = sealBody STATE_DOMAIN b.bodyBytes := by
  have hsealed (body : List UInt8) :
      (sealBody STATE_DOMAIN body).length = body.length + CHECKSUM_BYTES := by
    rw [sealBody, List.length_append, Bytes32.length_bytes, CHECKSUM_BYTES]
  constructor
  · intro h
    unfold fromBytes at h
    dsimp only at h
    split_ifs at h with hshort hchecksum
    have hbody : (raw.take (raw.length - CHECKSUM_BYTES)).length = raw.length - CHECKSUM_BYTES :=
      List.length_take_of_le (Nat.sub_le _ _)
    unfold Reader.runOn at h
    split at h
    · rename_i b' rest hread
      obtain rfl := Except.ok.inj h
      obtain ⟨hbytes, hlen, hb⟩ := read_eq_ok hread
      have hrest : rest = [] := by
        have := congrArg List.length hbytes
        rw [hbody, List.length_append] at this
        exact List.length_eq_zero_iff.mp (by omega)
      rw [hrest, List.append_nil] at hbytes
      refine ⟨hb, ?_⟩
      rw [sealBody, ← hbytes, not_not.mp hchecksum, List.take_append_drop]
    · cases h
  · rintro ⟨hb, rfl⟩
    have hdrop : (sealBody STATE_DOMAIN b.bodyBytes).drop b.bodyBytes.length =
        (checksum STATE_DOMAIN b.bodyBytes).bytes := List.drop_left
    have htake : (sealBody STATE_DOMAIN b.bodyBytes).take b.bodyBytes.length = b.bodyBytes :=
      List.take_left
    have hlong : ¬(sealBody STATE_DOMAIN b.bodyBytes).length < HEADER_BYTES + CHECKSUM_BYTES := by
      rw [hsealed, length_bodyBytes]
      omega
    unfold fromBytes
    rw [if_neg hlong, hsealed]
    dsimp only
    rw [Nat.add_sub_cancel, htake, hdrop, if_neg (not_not.mpr rfl)]
    exact Reader.runOn_eq (read_bodyBytes hb)

end

end RecoveryBindingV1

open ContentDigest (appendAll empty) in
open RecoveryBindingV1 in
/-- **Bindings and their bytes determine each other**, and the entry of every text is accepted. -/
theorem binding_codec [Digests] :
    (∀ b : RecoveryBindingV1, b.indexEntry.byteLength < 2 ^ 64 →
      validateEntry b.indexEntry = .ok () → ∃ raw, b.toBytes = .ok raw ∧ fromBytes raw = .ok b) ∧
      (∀ raw (b : RecoveryBindingV1), fromBytes raw = .ok b → b.toBytes = .ok raw) ∧
      ∀ pieces d, (appendAll pieces).run empty = .ok () d → validateEntry d.entry = .ok () := by
  refine ⟨fun b hlt hvalid => ?_, fun raw b h => ?_, fun pieces d h => ?_⟩
  · exact ⟨_, toBytes_eq_ok.mpr ⟨hvalid, rfl⟩, fromBytes_eq_ok.mpr ⟨⟨hlt, hvalid⟩, rfl⟩⟩
  · obtain ⟨hb, rfl⟩ := fromBytes_eq_ok.mp h
    exact toBytes_eq_ok.mpr ⟨hb.valid, rfl⟩
  · obtain ⟨k, hd⟩ := (ContentDigest.run_appendAll pieces d).mp h
    exact hd.validateEntry

/-- A text without marks. -/
theorem binding_codec_short : ∃ raw,
    RecoveryBindingV1.toBytes
        ⟨ZERO_HASH, ZERO_HASH, ⟨5, ⟨List.replicate 16 0, rfl⟩, []⟩⟩ = .ok raw ∧
      RecoveryBindingV1.fromBytes raw =
        .ok ⟨ZERO_HASH, ZERO_HASH, ⟨5, ⟨List.replicate 16 0, rfl⟩, []⟩⟩ :=
  binding_codec.1 _ (by decide) rfl

end Toktier.StoreCore
