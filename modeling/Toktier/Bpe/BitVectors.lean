import Mathlib.Tactic.Common
import Toktier.Bpe.Routines

/-!
# Bit vectors of 128 positions

What the bit operations of the warp routine compute: the doubling loop selects every other
position of a stretch of hits from its head on, and the rank of a kept position is its place
among the kept ones.

## Main definitions

* `greedy`: the selection `sel[j] = hit[j] & ~sel[j-1]`.

## Main results

* `B128.bit_select`: the doubling loop computes `greedy`.
* `B128.rank_eq`, `scatter_rank`: in-place compaction.
-/
namespace Toktier.Bpe

namespace B128

variable {x y : B128} {j k : ℕ}

theorem bit_lo (h : j < 64) : x.bit j = x.lo.getLsbD j := if_pos h

theorem bit_hi (h : ¬j < 64) : x.bit j = x.hi.getLsbD (j - 64) := if_neg h

theorem bit_shl (hj : j < 128) : (x.shl k).bit j = (decide (k ≤ j) && x.bit (j - k)) := by
  unfold shl
  split_ifs with hk hk64
  · simp [hk]
  · -- the low word moves into the high one
    by_cases hlo : j < 64
    · have hkj : ¬k ≤ j := by omega
      rw [bit_lo hlo]
      simp [hkj]
    · rw [bit_hi hlo, BitVec.getLsbD_shiftLeft]
      by_cases hkj : k ≤ j
      · have h1 : j - 64 - (k - 64) = j - k := by omega
        have h2 : ¬j - 64 < k - 64 := by omega
        have h3 : j - 64 < 64 := by omega
        rw [bit_lo (by omega : j - k < 64), h1]
        simp [hkj, h2, h3]
      · have h2 : j - 64 < k - 64 := by omega
        simp [hkj, h2]
  · by_cases hlo : j < 64
    · rw [bit_lo hlo, BitVec.getLsbD_shiftLeft, bit_lo (by omega : j - k < 64)]
      by_cases hkj : k ≤ j
      · simp [hlo, hkj, Nat.not_lt.mpr hkj]
      · simp [hkj, Nat.not_le.mp hkj]
    · have hkj : k ≤ j := by omega
      rw [bit_hi hlo, BitVec.getLsbD_or, BitVec.getLsbD_shiftLeft, BitVec.getLsbD_ushiftRight]
      by_cases hcross : j - 64 < k
      · -- the bit comes from the low word
        have h1 : 64 - k + (j - 64) = j - k := by omega
        rw [bit_lo (by omega : j - k < 64), h1]
        simp [hcross, hkj]
      · have h1 : j - 64 - k = j - k - 64 := by omega
        have h2 : j - 64 < 64 := by omega
        rw [bit_hi (by omega : ¬j - k < 64), h1,
          BitVec.getLsbD_of_ge x.lo _ (by omega : 64 ≤ 64 - k + (j - 64))]
        simp [hcross, hkj, h2]

@[simp] theorem bit_and : (x.and y).bit j = (x.bit j && y.bit j) := by
  unfold B128.and bit
  split_ifs <;> simp

@[simp] theorem bit_or : (x.or y).bit j = (x.bit j || y.bit j) := by
  unfold B128.or bit
  split_ifs <;> simp

theorem bit_not (hj : j < 128) : (⟨~~~x.lo, ~~~x.hi⟩ : B128).bit j = !x.bit j := by
  unfold bit
  split_ifs with h
  · simp [h]
  · have : j - 64 < 64 := by omega
    simp [this]

theorem shl1_eq : x.shl1 = x.shl 1 := by
  simp [shl1, shl]

theorem bit_kept (hj : j < 128) : x.kept.bit j = !(decide (1 ≤ j) && x.bit (j - 1)) := by
  rw [kept, bit_not hj, bit_shl hj]

theorem getLsbD_below {n : ℕ} (hn : n ≤ 64) (i : ℕ) :
    (below n).getLsbD i = decide (i < n) := by
  unfold below
  split_ifs with h
  · simp [h]
  · rw [BitVec.getLsbD_ushiftRight, BitVec.getLsbD_allOnes]
    exact decide_eq_decide.mpr (by omega)

theorem bit_lenmask (hj : j < 128) (len : ℕ) : (lenmask len).bit j = decide (j < len) := by
  unfold lenmask
  by_cases hlo : j < 64
  · rw [bit_lo hlo]
    dsimp only
    split_ifs with h
    · rw [BitVec.getLsbD_allOnes]
      exact decide_eq_decide.mpr (by omega)
    · rw [BitVec.getLsbD_ushiftRight, BitVec.getLsbD_allOnes]
      exact decide_eq_decide.mpr (by omega)
  · rw [bit_hi hlo]
    dsimp only
    split_ifs with h h'
    · rw [BitVec.ofNat_eq_ofNat, BitVec.getLsbD_zero]
      exact (decide_eq_false (by omega)).symm
    · rw [BitVec.getLsbD_allOnes]
      exact decide_eq_decide.mpr (by omega)
    · rw [BitVec.getLsbD_ushiftRight, BitVec.getLsbD_allOnes]
      exact decide_eq_decide.mpr (by omega)

/-- `w & -w` keeps the lowest bit. -/
theorem getLsbD_and_neg (w : BitVec 64) {i : ℕ} (hi : i < 64) :
    (w &&& (0 - w)).getLsbD i = (w.getLsbD i && decide (∀ n < i, w.getLsbD n = false)) := by
  rw [show (0 : BitVec 64) - w = -w from BitVec.zero_sub w, BitVec.getLsbD_and,
    BitVec.getLsbD_neg]
  by_cases hlow : ∀ n < i, w.getLsbD n = false
  · have hno : ¬∃ n < i, w.getLsbD n = true := by
      rintro ⟨n, hn, hw⟩
      rw [hlow n hn] at hw
      cases hw
    simp only [hno, decide_false, Bool.and_false, Bool.bne_false, Bool.and_self, decide_eq_true hlow,
      Bool.and_true]
  · have hyes : ∃ n < i, w.getLsbD n = true := by
      by_contra hno
      exact hlow fun n hn => Bool.eq_false_iff.mpr fun hw => hno ⟨n, hn, hw⟩
    cases hw : w.getLsbD i <;> simp [hlow, hyes, hi]

theorem eq_zero_iff_bit (w : BitVec 64) : w = 0 ↔ ∀ i < 64, w.getLsbD i = false := by
  refine ⟨fun h i _ => by rw [h]; exact BitVec.getLsbD_zero, fun h => ?_⟩
  refine BitVec.eq_of_getLsbD_eq fun i hi => ?_
  rw [h i hi]
  exact BitVec.getLsbD_zero.symm

theorem bit_lowest (hj : j < 128) :
    x.lowest.bit j = (x.bit j && decide (∀ i < j, x.bit i = false)) := by
  unfold lowest
  split_ifs with hz
  · by_cases hlo : j < 64
    · rw [bit_lo hlo, bit_lo hlo, getLsbD_and_neg x.lo hlo]
      congr 1
      refine decide_eq_decide.mpr (forall₂_congr fun i hi => ?_)
      rw [bit_lo (hi.trans hlo)]
    · have hsome : ¬∀ i < j, x.bit i = false := fun h =>
        hz ((eq_zero_iff_bit x.lo).mpr fun i hi => by
          rw [← bit_lo hi]
          exact h i (by omega))
      rw [bit_hi hlo]
      simp [hsome]
  · rw [ne_eq, not_not] at hz
    by_cases hlo : j < 64
    · rw [bit_lo hlo, bit_lo hlo, hz]
      simp
    · rw [bit_hi hlo, bit_hi hlo, getLsbD_and_neg x.hi (by omega)]
      congr 1
      refine decide_eq_decide.mpr ⟨fun h i hi => ?_, fun h n hn => ?_⟩
      · by_cases hilo : i < 64
        · rw [bit_lo hilo, hz]
          exact BitVec.getLsbD_zero
        · rw [bit_hi hilo]
          exact h (i - 64) (by omega)
      · have := h (64 + n) (by omega)
        rwa [bit_hi (by omega), Nat.add_sub_cancel_left] at this

/-! ### The selection -/

/-- `sel[j] = hit[j] & ~sel[j-1]` -/
def greedy (hit : ℕ → Bool) : ℕ → Bool
  | 0 => hit 0
  | j + 1 => hit (j + 1) && !greedy hit j

theorem greedy_add_two {hit : ℕ → Bool} (hg : greedy hit j = true) (h : hit (j + 2) = true) :
    greedy hit (j + 2) = true := by
  rw [greedy, greedy, hg]
  simpa using h

theorem hit_of_greedy {hit : ℕ → Bool} (hg : greedy hit j = true) : hit j = true := by
  cases j with
  | zero => exact hg
  | succ j => exact (Bool.and_eq_true_iff.mp hg).1

/-- `j` stands `2 * t` positions after the head of its stretch of hits. -/
structure FromHead (hit : ℕ → Bool) (j t : ℕ) : Prop where
  le : 2 * t ≤ j
  head : 2 * t = j ∨ hit (j - 2 * t - 1) = false
  hits : ∀ i, j - 2 * t ≤ i → i ≤ j → hit i = true

theorem exists_fromHead {hit : ℕ → Bool} (hg : greedy hit j = true) :
    ∃ t, FromHead hit j t := by
  induction j using Nat.strong_induction_on with
  | _ j ih =>
    have hself := hit_of_greedy hg
    have hstart (h : j = 0 ∨ hit (j - 1) = false) : ∃ t, FromHead hit j t := by
      refine ⟨0, ⟨Nat.zero_le _, ?_, fun i hle hi => ?_⟩⟩
      · rw [Nat.mul_zero, Nat.sub_zero]
        exact h.imp_left Eq.symm
      · rw [show i = j by omega]
        exact hself
    rcases j with - | - | j
    · exact hstart (.inl rfl)
    · refine hstart (.inr ?_)
      simpa [greedy, hself] using hg
    · cases hprev : hit (j + 1) with
      | false => exact hstart (.inr hprev)
      | true =>
        have hj : greedy hit j = true := by simpa [greedy, hself, hprev] using hg
        obtain ⟨t, hle, hhead, hhits⟩ := ih j (by omega) hj
        refine ⟨t + 1, ⟨by omega, ?_, fun i hlo hi => ?_⟩⟩
        · rw [show j + 1 + 1 - 2 * (t + 1) - 1 = j - 2 * t - 1 by omega]
          exact hhead.imp_left fun h => by omega
        · rcases Nat.lt_or_ge j i with hij | hij
          · rcases (by omega : i = j + 1 ∨ i = j + 1 + 1) with rfl | rfl
            · exact hprev
            · exact hself
          · exact hhits i (by omega) hij

/-- The doubling loop after the distances up to `2 ^ i`. -/
structure Doubling (hit : B128) (i : ℕ) (sel jump : B128) : Prop where
  sound : ∀ j < 128, sel.bit j = true → greedy hit.bit j = true
  complete : ∀ j < 128, ∀ t < 2 ^ i, FromHead hit.bit j t → sel.bit j = true
  jump : ∀ j < 128, jump.bit j = true ↔ ∀ s < 2 ^ i, 2 * s ≤ j ∧ hit.bit (j - 2 * s) = true

theorem Doubling.step {hit sel jump : B128} {i : ℕ} (h : Doubling hit i sel jump) :
    Doubling hit (i + 1) (sel.or ((sel.shl (2 ^ (i + 1))).and jump))
      (jump.and (jump.shl (2 ^ (i + 1)))) := by
  have hpow : 2 ^ (i + 1) = 2 * 2 ^ i := Nat.pow_succ'
  constructor
  · intro j hj hsel
    rw [bit_or, bit_and, bit_shl hj, Bool.or_eq_true_iff, Bool.and_eq_true_iff,
      Bool.and_eq_true_iff, decide_eq_true_eq, hpow] at hsel
    rcases hsel with hsel | ⟨⟨hle, hsel⟩, hjump⟩
    · exact h.sound j hj hsel
    · -- from `j - 2 ^ (i + 1)` on, every other position up to `j` is a hit
      have hchain : ∀ s ≤ 2 ^ i, greedy hit.bit (j - 2 * 2 ^ i + 2 * s) = true := by
        intro s hs
        induction s with
        | zero => exact h.sound _ (by omega) hsel
        | succ s ihs =>
          refine greedy_add_two (ihs (by omega)) ?_
          have := ((h.jump j hj).mp hjump (2 ^ i - s - 1) (by omega)).2
          rwa [show j - 2 * (2 ^ i - s - 1) = j - 2 * 2 ^ i + 2 * s + 2 by omega] at this
      have := hchain (2 ^ i) (Nat.le_refl _)
      rwa [Nat.sub_add_cancel hle] at this
  · intro j hj t ht hfrom
    rw [bit_or, bit_and, bit_shl hj, Bool.or_eq_true_iff, Bool.and_eq_true_iff,
      Bool.and_eq_true_iff, decide_eq_true_eq, hpow]
    rcases Nat.lt_or_ge t (2 ^ i) with hlt | hge
    · exact .inl (h.complete j hj t hlt hfrom)
    · have hle := hfrom.le
      refine .inr ⟨⟨by omega, h.complete _ (by omega) (t - 2 ^ i) (by omega) ?_⟩, ?_⟩
      · refine ⟨by omega, ?_, fun n hlo hn => hfrom.hits n (by omega) (by omega)⟩
        rw [show j - 2 * 2 ^ i - 2 * (t - 2 ^ i) - 1 = j - 2 * t - 1 by omega]
        exact hfrom.head.imp_left fun h => by omega
      · exact (h.jump j hj).mpr fun s hs => ⟨by omega, hfrom.hits _ (by omega) (by omega)⟩
  · intro j hj
    rw [bit_and, bit_shl hj, Bool.and_eq_true_iff, Bool.and_eq_true_iff, decide_eq_true_eq, hpow,
      h.jump j hj]
    constructor
    · rintro ⟨hnear, hle, hfar⟩ s hs
      rcases Nat.lt_or_ge s (2 ^ i) with hlt | hge
      · exact hnear s hlt
      · have := (h.jump _ (by omega)).mp hfar (s - 2 ^ i) (by omega)
        rw [show j - 2 * 2 ^ i - 2 * (s - 2 ^ i) = j - 2 * s by omega] at this
        exact ⟨by omega, this.2⟩
    · intro hall
      have hpos : 0 < 2 ^ i := Nat.two_pow_pos i
      have hle := (hall (2 ^ i) (by omega)).1
      refine ⟨fun s hs => hall s (by omega), hle, (h.jump _ (by omega)).mpr fun s hs => ?_⟩
      have := hall (s + 2 ^ i) (by omega)
      rw [show j - 2 * (s + 2 ^ i) = j - 2 * 2 ^ i - 2 * s by omega] at this
      exact ⟨by omega, this.2⟩

/-- The heads of the stretches of hits. -/
theorem bit_heads (hit : B128) (hj : j < 128) :
    (hit.and ⟨~~~hit.shl1.lo, ~~~hit.shl1.hi⟩).bit j =
      (hit.bit j && !(decide (1 ≤ j) && hit.bit (j - 1))) := by
  rw [bit_and, bit_not hj, shl1_eq, bit_shl hj]

theorem doubling_zero (hit : B128) :
    Doubling hit 0 (hit.and ⟨~~~hit.shl1.lo, ~~~hit.shl1.hi⟩) hit := by
  constructor
  · intro j hj hsel
    rw [bit_heads hit hj] at hsel
    cases j with
    | zero => simpa [greedy] using hsel
    | succ j =>
      rw [Bool.and_eq_true_iff] at hsel
      have hoff : greedy hit.bit j = false :=
        Bool.eq_false_iff.mpr fun hg => by simp [hit_of_greedy hg] at hsel
      rw [greedy, hsel.1, hoff]
      rfl
  · intro j hj t ht hfrom
    obtain rfl : t = 0 := by omega
    rw [bit_heads hit hj, hfrom.hits j (Nat.sub_le _ _) (Nat.le_refl _), Bool.true_and]
    rcases hfrom.head with h0 | h0
    · simp [← h0]
    · rw [Nat.mul_zero, Nat.sub_zero] at h0
      simp [h0]
  · intro j hj
    constructor
    · intro hb s hs
      obtain rfl : s = 0 := by omega
      exact ⟨Nat.zero_le _, hb⟩
    · exact fun h => (h 0 (by omega)).2

/-- **The doubling loop selects every other hit of a stretch, from its head on.** -/
theorem bit_select (hit : B128) (hj : j < 128) : hit.select.bit j = greedy hit.bit j := by
  unfold select
  dsimp only
  split_ifs with hadj
  · have h6 := (doubling_zero hit).step.step.step.step.step.step
    refine Bool.eq_iff_iff.mpr ⟨h6.sound j hj, fun hg => ?_⟩
    obtain ⟨t, ht⟩ := exists_fromHead hg
    exact h6.complete j hj t (by have := ht.le; omega) ht
  · -- no two hits are neighbours, so every hit heads a stretch of its own
    rw [bit_heads hit hj]
    rw [ne_eq, not_not] at hadj
    have hz := (eq_zero_iff_bit _).mp hadj
    have hapart : (hit.and hit.shl1).bit j = false := by
      by_cases hlo : j < 64
      · have := hz j hlo
        rw [BitVec.getLsbD_or, Bool.or_eq_false_iff] at this
        rw [bit_lo hlo]
        exact this.1
      · have := hz (j - 64) (by omega)
        rw [BitVec.getLsbD_or, Bool.or_eq_false_iff] at this
        rw [bit_hi hlo]
        exact this.2
    rw [bit_and, shl1_eq, bit_shl hj] at hapart
    cases j with
    | zero => simp [greedy]
    | succ j =>
      rw [greedy]
      cases hself : hit.bit (j + 1) with
      | false => rfl
      | true =>
        have hprev : hit.bit j = false := by simpa [hself] using hapart
        have hoff : greedy hit.bit j = false :=
          Bool.eq_false_iff.mpr fun hg => by simp [hit_of_greedy hg] at hprev
        simp [hprev, hoff]

/-! ### Counting -/

theorem countP_range_add (p : ℕ → Bool) (m n : ℕ) :
    (List.range (m + n)).countP p =
      (List.range m).countP p + (List.range n).countP fun i => p (m + i) := by
  rw [List.range_add, List.countP_append, List.countP_map]
  rfl

/-- Counting below a bound. -/
theorem countP_range_and_lt (p : ℕ → Bool) {m n : ℕ} (h : n ≤ m) :
    ((List.range m).countP fun i => p i && decide (i < n)) = (List.range n).countP p := by
  obtain ⟨d, rfl⟩ := Nat.exists_eq_add_of_le h
  rw [countP_range_add, Nat.add_eq_left.mpr (List.countP_eq_zero.mpr (by simp))]
  refine List.countP_congr fun i hi => ?_
  simp [List.mem_range.mp hi]

theorem popcll_add_popcll (x : B128) :
    popcll x.lo + popcll x.hi = (List.range 128).countP x.bit := by
  rw [show 128 = 64 + 64 from rfl, countP_range_add, popcll, popcll]
  refine congrArg₂ (· + ·) ?_ ?_
  · exact List.countP_congr fun i hi => by rw [bit_lo (List.mem_range.mp hi)]
  · refine List.countP_congr fun i _ => ?_
    rw [bit_hi (by omega), Nat.add_sub_cancel_left]

theorem popcll_below (w : BitVec 64) {n : ℕ} (hn : n ≤ 64) :
    popcll (w &&& below n) = (List.range n).countP w.getLsbD := by
  rw [← countP_range_and_lt w.getLsbD hn, popcll]
  refine List.countP_congr fun i _ => ?_
  rw [BitVec.getLsbD_and, getLsbD_below hn]

/-- The rank of a position counts the bits below it. -/
theorem rank_eq (x : B128) (hj : j < 128) : x.rank j = (List.range j).countP x.bit := by
  unfold rank
  split_ifs with hlo
  · rw [popcll_below _ (Nat.le_of_lt hlo)]
    refine List.countP_congr fun i hi => ?_
    rw [bit_lo ((List.mem_range.mp hi).trans hlo)]
  · obtain ⟨d, rfl⟩ := Nat.exists_eq_add_of_le (Nat.not_lt.mp hlo)
    rw [Nat.add_sub_cancel_left, popcll_below _ (by omega), countP_range_add, popcll]
    refine congrArg₂ (· + ·) ?_ ?_
    · exact List.countP_congr fun i hi => by rw [bit_lo (List.mem_range.mp hi)]
    · refine List.countP_congr fun i _ => ?_
      rw [bit_hi (by omega), Nat.add_sub_cancel_left]

theorem countP_masked (x : B128) {len : ℕ} (h : len ≤ 128) :
    (List.range 128).countP (x.and (lenmask len)).bit = (List.range len).countP x.bit := by
  rw [← countP_range_and_lt x.bit h]
  refine List.countP_congr fun i hi => ?_
  rw [bit_and, bit_lenmask (List.mem_range.mp hi)]

end B128

theorem countP_range_lt {p : ℕ → Bool} {i j : ℕ} (hp : p i = true) (h : i < j) :
    (List.range i).countP p < (List.range j).countP p := by
  obtain ⟨d, rfl⟩ := Nat.exists_eq_add_of_lt h
  rw [show i + d + 1 = (i + 1) + d by omega, B128.countP_range_add, List.range_succ,
    List.countP_append, List.countP_singleton, if_pos hp]
  omega

theorem scatter_rank {β : Type} {kept : B128} {len j : ℕ} (hlen : len ≤ 128) (hj : j < len)
    (hk : kept.bit j = true) (f old : ℕ → β) :
    scatter kept len f old ((List.range j).countP kept.bit) = f j := by
  have hfind : ((List.range len).find? fun i => kept.bit i &&
      kept.rank i == (List.range j).countP kept.bit) = some j := by
    have hsome : ((List.range len).find? fun i => kept.bit i &&
        kept.rank i == (List.range j).countP kept.bit).isSome :=
      List.find?_isSome.mpr ⟨j, List.mem_range.mpr hj, by
        simp [hk, B128.rank_eq kept (hj.trans_le hlen)]⟩
    obtain ⟨i, hi⟩ := Option.isSome_iff_exists.mp hsome
    have hmem := List.mem_range.mp (List.mem_of_find?_eq_some hi)
    have hp := List.find?_some hi
    rw [Bool.and_eq_true_iff, beq_iff_eq, B128.rank_eq kept (hmem.trans_le hlen)] at hp
    rcases Nat.lt_trichotomy i j with hlt | rfl | hlt
    · exact absurd hp.2 (Nat.ne_of_lt (countP_range_lt hp.1 hlt))
    · exact hi
    · exact absurd hp.2.symm (Nat.ne_of_lt (countP_range_lt hk hlt))
  rw [scatter, hfind]

end Toktier.Bpe
