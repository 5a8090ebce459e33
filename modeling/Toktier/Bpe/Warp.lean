import Toktier.Bpe.BitVectors
import Toktier.Bpe.Rounds

/-!
# The warp routine

A round of the warp finds the lowest rank by a reduction over packed words, marks its
occurrences in a bit vector and compacts the symbols in place. The cached pair values stay
those of the symbols: only the pairs next to a merge are looked up again.

## Main definitions

* `WarpState.Cached`: the cache holds the values of the symbols.

## Main results

* `warpRound_none`, `warpRound_some`: what a round does.
* `warpLoop_merged`: the rounds merge as one merge at a time does.
-/
namespace Toktier.Bpe

open Toktier.Lib Toktier.Lib.PairRules B128

variable {T : MergeTable} {s s' : WarpState} {a b r z j n : ℕ} {l out : List ℕ}
  {val : ℕ → Option (ℕ × ℕ)} {kept : B128}

/-- The symbols of a state. -/
def WarpState.list (s : WarpState) : List ℕ := (List.range s.len).map s.ids

@[simp] theorem WarpState.length_list (s : WarpState) : s.list.length = s.len := by
  simp [list]

theorem WarpState.getD_list (s : WarpState) (hj : j < s.len) : s.list.getD j 0 = s.ids j := by
  simp [list, List.getD_eq_getElem?_getD, hj]

/-- The cache holds the values of the symbols, once it is filled. -/
def WarpState.Cached (T : MergeTable) (s : WarpState) : Prop :=
  s.first = true ∨ ∀ j, j < s.len - 1 → s.pvv j = T.pairLookup (s.ids j) (s.ids (j + 1))

theorem WarpState.Cached.vv (h : s.Cached T) (j : ℕ) :
    s.vv T.pairLookup j =
      if j < s.len - 1 then T.pairLookup (s.ids j) (s.ids (j + 1)) else none := by
  unfold WarpState.vv
  split_ifs with hj hfirst
  · rfl
  · exact (h.resolve_left hfirst) j hj
  · rfl

/-! ### The reduction -/

theorem isBest_laneBest (val : ℕ → Option (ℕ × ℕ)) (lane : ℕ) :
    IsBest (fun v => ∃ k ∈ List.range 4, val (lane + 32 * k) = some v) (laneBest val lane) :=
  isBest_foldl (fun k => val (lane + 32 * k)) (List.range 4)

theorem enc_some (v : ℕ × ℕ) {lane : ℕ} (hv : v.1 < 2 ^ 27) (hl : lane < 32) :
    enc (some v) lane = v.1 * 32 + lane := by
  have hshift : v.1 <<< 5 = v.1 * 32 := Nat.shiftLeft_eq v.1 5
  rw [enc, Nat.mod_eq_of_lt (by rw [hshift]; omega),
    ← Nat.shiftLeft_add_eq_or_of_lt (by simpa using hl), hshift]

theorem foldl_min_le (f : ℕ → ℕ) (xs : List ℕ) (init : ℕ) :
    xs.foldl (fun w x => min w (f x)) init ≤ init ∧
      ∀ x ∈ xs, xs.foldl (fun w x => min w (f x)) init ≤ f x := by
  induction xs generalizing init with
  | nil => simp
  | cons x xs ih =>
    obtain ⟨hinit, hmem⟩ := ih (min init (f x))
    refine ⟨hinit.trans (Nat.min_le_left _ _), fun y hy => ?_⟩
    rcases List.mem_cons.mp hy with rfl | hy
    · exact hinit.trans (Nat.min_le_right _ _)
    · exact hmem y hy

theorem foldl_min_eq (f : ℕ → ℕ) (xs : List ℕ) (init : ℕ) :
    xs.foldl (fun w x => min w (f x)) init = init ∨
      ∃ x ∈ xs, xs.foldl (fun w x => min w (f x)) init = f x := by
  induction xs generalizing init with
  | nil => simp
  | cons x xs ih =>
    rcases ih (min init (f x)) with h | ⟨y, hy, h⟩
    · rcases Nat.le_total init (f x) with hle | hle
      · exact .inl (by rw [List.foldl_cons, h, Nat.min_eq_left hle])
      · exact .inr ⟨x, by simp, by rw [List.foldl_cons, h, Nat.min_eq_right hle]⟩
    · exact .inr ⟨y, by simp [hy], h⟩

/-- A value at one of the 128 positions. -/
def At (val : ℕ → Option (ℕ × ℕ)) (v : ℕ × ℕ) : Prop := ∃ j < 128, val j = some v

theorem At.lane {v : ℕ × ℕ} (h : At val v) :
    ∃ lane < 32, ∃ k ∈ List.range 4, val (lane + 32 * k) = some v := by
  obtain ⟨j, hj, hv⟩ := h
  refine ⟨j % 32, Nat.mod_lt _ (by omega), j / 32, List.mem_range.mpr (by omega), ?_⟩
  rwa [Nat.mod_add_div]

theorem At.of_lane {v : ℕ × ℕ} {lane k : ℕ} (hl : lane < 32) (hk : k ∈ List.range 4)
    (h : val (lane + 32 * k) = some v) : At val v :=
  ⟨lane + 32 * k, by have := List.mem_range.mp hk; omega, h⟩

theorem reduceMin_none (hsmall : ∀ v, At val v → v.1 + 1 < 2 ^ 27)
    (h : reduceMin val = 0xFFFFFFFF) (v : ℕ × ℕ) : ¬At val v := by
  intro hv
  obtain ⟨lane, hl, k, hk, hval⟩ := hv.lane
  have hbest := isBest_laneBest val lane
  cases hlane : laneBest val lane with
  | none => exact hbest.absent hlane v ⟨k, hk, hval⟩
  | some w =>
    obtain ⟨k', hk', hw⟩ := hbest.mem w hlane
    have hlt := hsmall w (At.of_lane hl hk' hw)
    have hle := (foldl_min_le (fun lane => enc (laneBest val lane) lane) (List.range 32)
      0xFFFFFFFF).2 lane (List.mem_range.mpr hl)
    rw [show (List.range 32).foldl (fun w lane => min w (enc (laneBest val lane) lane))
      0xFFFFFFFF = 0xFFFFFFFF from h, hlane, enc_some w (by omega) hl] at hle
    omega

/-- The winning lane holds a value of the lowest rank. -/
theorem reduceMin_some (hsmall : ∀ v, At val v → v.1 + 1 < 2 ^ 27)
    (h : reduceMin val ≠ 0xFFFFFFFF) :
    ∃ v, laneBest val (reduceMin val &&& 31) = some v ∧ IsBest (At val) (some v) := by
  rcases foldl_min_eq (fun lane => enc (laneBest val lane) lane) (List.range 32) 0xFFFFFFFF with
    hwin | ⟨lane, hl, hwin⟩
  · exact absurd hwin h
  rw [List.mem_range] at hl
  have hwin' : reduceMin val = enc (laneBest val lane) lane := hwin
  cases hlane : laneBest val lane with
  | none => exact absurd (hwin'.trans (by rw [hlane]; rfl)) h
  | some v =>
    obtain ⟨k, hk, hv⟩ := (isBest_laneBest val lane).mem v hlane
    have hat := At.of_lane hl hk hv
    have hpack : enc (some v) lane = v.1 * 32 + lane :=
      enc_some v (by have := hsmall v hat; omega) hl
    rw [hlane, hpack] at hwin'
    refine ⟨v, ?_, ⟨fun hn => (nomatch hn), fun w hw => ?_, fun w hw x hx => ?_⟩⟩
    · have hand : reduceMin val &&& 31 = reduceMin val % 32 :=
        Nat.and_two_pow_sub_one_eq_mod (reduceMin val) 5
      rw [hand, hwin', show (v.1 * 32 + lane) % 32 = lane by omega]
      exact hlane
    · obtain rfl : v = w := Option.some.inj hw
      exact hat
    · obtain rfl : v = w := Option.some.inj hw
      obtain ⟨lane', hl', k', hk', hx'⟩ := hx.lane
      have hbest := isBest_laneBest val lane'
      cases hlane' : laneBest val lane' with
      | none => exact absurd ⟨k', hk', hx'⟩ (hbest.absent hlane' x)
      | some y =>
        obtain ⟨k'', hk'', hy⟩ := hbest.mem y hlane'
        have hsy := hsmall y (At.of_lane hl' hk'' hy)
        have hyx := hbest.le y hlane' x ⟨k', hk', hx'⟩
        have hle := (foldl_min_le (fun lane => enc (laneBest val lane) lane) (List.range 32)
          0xFFFFFFFF).2 lane' (List.mem_range.mpr hl')
        rw [show (List.range 32).foldl (fun w lane => min w (enc (laneBest val lane) lane))
          0xFFFFFFFF = reduceMin val from rfl, hwin', hlane', enc_some y (by omega) hl'] at hle
        omega

/-! ### The marks -/

theorem getLsbD_mark (w : BitVec 64) (c : Bool) {m : ℕ} (hm : m < 64) (i : ℕ) :
    (if c then w ||| 1#64 <<< m else w).getLsbD i = (w.getLsbD i || (decide (m = i) && c)) := by
  cases c with
  | false => simp
  | true =>
    have hone : (1#64 <<< m).getLsbD i = (decide (m < 64) && decide (m = i)) :=
      BitVec.getLsbD_twoPow m i
    rw [if_pos rfl, BitVec.getLsbD_or, hone]
    simp [hm]

theorem getLsbD_foldl_ballot (p : ℕ → Bool) {m : ℕ} (hm : m ≤ 64) (i : ℕ) :
    ((List.range m).foldl (fun w lane => if p lane then w ||| 1#64 <<< lane else w) 0).getLsbD i =
      (decide (i < m) && p i) := by
  induction m with
  | zero => simp
  | succ m ih =>
    rw [List.range_succ, List.foldl_append, List.foldl_cons, List.foldl_nil, getLsbD_mark _ _ hm,
      ih (Nat.le_of_succ_le hm)]
    rcases Nat.lt_trichotomy i m with h | rfl | h
    · simp [h, Nat.lt_succ_of_lt h, Nat.ne_of_gt h]
    · simp
    · simp [Nat.ne_of_lt h, show ¬i < m by omega, show ¬i < m + 1 by omega]

theorem getLsbD_ballot (p : ℕ → Bool) (i : ℕ) :
    (ballot p).getLsbD i = (decide (i < 32) && p i) :=
  getLsbD_foldl_ballot p (by omega) i

/-- Two ballots in one word. -/
theorem getLsbD_ballots (p q : ℕ → Bool) {i : ℕ} (hi : i < 64) :
    (ballot p ||| ballot q <<< 32).getLsbD i = if i < 32 then p i else q (i - 32) := by
  rw [BitVec.getLsbD_or, BitVec.getLsbD_shiftLeft, getLsbD_ballot, getLsbD_ballot]
  split_ifs with h
  · simp [h]
  · have : i - 32 < 32 := by omega
    simp [h, hi, this]

theorem bit_hitBits (val : ℕ → Option (ℕ × ℕ)) (len r : ℕ) (hj : j < 128) :
    (hitBits val len r).bit j = (decide (j < len - 1) && (val j).any fun v => v.1 = r) := by
  unfold hitBits
  by_cases hlo : j < 64
  · rw [bit_lo hlo, getLsbD_ballots _ _ hlo]
    split_ifs with h
    · rfl
    · rw [show j - 32 + 32 * 1 = j by omega]
  · rw [bit_hi hlo, getLsbD_ballots _ _ (by omega)]
    split_ifs with h
    · rw [show j - 64 + 32 * 2 = j by omega]
    · rw [show j - 64 - 32 + 32 * 3 = j by omega]

/-! ### In-place compaction -/

/-- The kept positions in order, each with its value. -/
theorem map_scatter {β : Type} {len : ℕ} (hlen : len ≤ 128) (f old : ℕ → β) (hn : n ≤ len) :
    (List.range ((List.range n).countP kept.bit)).map (scatter kept len f old) =
      ((List.range n).filter kept.bit).map f := by
  induction n with
  | zero => rfl
  | succ n ih =>
    rw [List.range_succ, List.countP_append, List.filter_append, List.map_append,
      ← ih (Nat.le_of_succ_le hn), List.countP_singleton, List.filter_singleton]
    cases hk : kept.bit n with
    | false => simp
    | true =>
      rw [if_pos rfl, List.range_succ, List.map_append, List.map_singleton,
        scatter_rank hlen hn hk]
      rfl

theorem exists_rank {p : ℕ → Bool} (h : r < (List.range n).countP p) :
    ∃ j < n, p j = true ∧ (List.range j).countP p = r := by
  induction n with
  | zero => simp at h
  | succ n ih =>
    rw [List.range_succ, List.countP_append, List.countP_singleton] at h
    by_cases hr : r < (List.range n).countP p
    · obtain ⟨j, hj, hp⟩ := ih hr
      exact ⟨j, by omega, hp⟩
    · cases hp : p n with
      | false => rw [hp] at h; simp at h; omega
      | true => rw [hp] at h; exact ⟨n, by omega, hp, by simp at h; omega⟩

theorem greedy_start {hit : ℕ → Bool} (h : j = 0 ∨ greedy hit (j - 1) = false) :
    greedy hit j = hit j := by
  cases j with
  | zero => rfl
  | succ j =>
    have hprev : greedy hit j = false := h.resolve_left (Nat.succ_ne_zero j)
    rw [greedy, hprev]
    simp

theorem kept_start {hit sel keep : ℕ → Bool} (hsel : sel j = greedy hit j)
    (hkeep : keep j = !(decide (1 ≤ j) && greedy hit (j - 1)))
    (hstart : j = 0 ∨ greedy hit (j - 1) = false) : keep j = true ∧ sel j = hit j := by
  refine ⟨?_, hsel.trans (greedy_start hstart)⟩
  rw [hkeep]
  rcases hstart with rfl | hstart
  · rfl
  · rw [hstart, Bool.and_false, Bool.not_false]

/-- Keeping what a greedy selection does not swallow merges at the marks. -/
theorem filter_kept_eq_mergeAt {hit sel keep : ℕ → Bool} {f : ℕ → ℕ} (ids : ℕ → ℕ)
    (hsel : ∀ i, j ≤ i → i < j + n → sel i = greedy hit i)
    (hkeep : ∀ i, j ≤ i → i < j + n → keep i = !(decide (1 ≤ i) && greedy hit (i - 1)))
    (hf : ∀ i, j ≤ i → i < j + n → f i = if sel i then z else ids i)
    (hstart : j = 0 ∨ greedy hit (j - 1) = false)
    (hend : ∀ i, j + n ≤ i + 1 → hit i = false) :
    ((List.range' j n).filter keep).map f = mergeAt hit z j ((List.range' j n).map ids) := by
  induction n using Nat.twoStepInduction generalizing j with
  | zero => rfl
  | one =>
    obtain ⟨hk, hs⟩ := kept_start (hsel j (Nat.le_refl _) (by omega))
      (hkeep j (Nat.le_refl _) (by omega)) hstart
    have hself := hf j (Nat.le_refl _) (by omega)
    rw [hs, hend j (by omega)] at hself
    simp [hk, hself, mergeAt]
  | more n ih ih' =>
    obtain ⟨hk, hs⟩ := kept_start (hsel j (Nat.le_refl _) (by omega))
      (hkeep j (Nat.le_refl _) (by omega)) hstart
    have hself := hf j (Nat.le_refl _) (by omega)
    have hlist : (List.range' (j + 1) (n + 1)).map ids =
        ids (j + 1) :: (List.range' (j + 2) n).map ids := by
      rw [List.range'_succ, List.map_cons]
    have htwo : (List.range' j (n + 2)).map ids =
        ids j :: ids (j + 1) :: (List.range' (j + 2) n).map ids := by
      rw [List.range'_succ, List.map_cons, hlist]
    rw [htwo, mergeAt, List.range'_succ, List.filter_cons_of_pos hk, List.map_cons, hself, hs]
    cases hj : hit j with
    | false =>
      have hrest := ih' (j := j + 1) (fun i h1 h2 => hsel i (by omega) (by omega))
        (fun i h1 h2 => hkeep i (by omega) (by omega))
        (fun i h1 h2 => hf i (by omega) (by omega))
        (.inr ((greedy_start hstart).trans hj)) (fun i hi => hend i (by omega))
      rw [if_neg Bool.false_ne_true, if_neg Bool.false_ne_true, ← hlist, hrest]
    | true =>
      -- the next position is swallowed
      have hk' : ¬keep (j + 1) = true := by
        rw [hkeep (j + 1) (by omega) (by omega), Nat.add_sub_cancel, greedy_start hstart, hj]
        simp
      have hrest := ih (j := j + 2) (fun i h1 h2 => hsel i (by omega) (by omega))
        (fun i h1 h2 => hkeep i (by omega) (by omega))
        (fun i h1 h2 => hf i (by omega) (by omega))
        (.inr (by simp [greedy, greedy_start hstart, hj])) (fun i hi => hend i (by omega))
      rw [if_pos rfl, if_pos rfl, List.range'_succ, List.filter_cons_of_neg hk', hrest]

theorem len_compact (s : WarpState) (x : B128) (mid : ℕ) (hlen : s.len ≤ 128) :
    (s.compact T.pairLookup x mid).len = (List.range s.len).countP x.kept.bit := by
  rw [← countP_masked _ hlen, ← popcll_add_popcll]
  rfl

theorem greedy_congr {hit hit' : ℕ → Bool} (h : ∀ i ≤ j, hit i = hit' i) :
    greedy hit j = greedy hit' j := by
  induction j with
  | zero => exact h 0 (Nat.le_refl _)
  | succ j ih =>
    rw [greedy, greedy, h (j + 1) (Nat.le_refl _), ih fun i hi => h i (Nat.le_succ_of_le hi)]

/-- The marks of a bit vector as a function of every index. -/
def B128.marks (x : B128) (i : ℕ) : Bool := decide (i < 128) && x.bit i

theorem B128.marks_of_lt {x : B128} {i : ℕ} (hi : i < 128) : x.marks i = x.bit i := by
  simp [marks, hi]

/-- Compaction merges at the marks, from the left. -/
theorem list_compact (s : WarpState) (x : B128) (mid : ℕ) (hlen : s.len ≤ 128)
    (hend : ∀ i, s.len ≤ i + 1 → x.marks i = false) :
    (s.compact T.pairLookup x.select mid).list = mergeAt x.marks mid 0 s.list := by
  have hgreedy {i : ℕ} (hi : i < 128) : x.select.bit i = greedy x.marks i := by
    rw [bit_select x hi]
    exact greedy_congr fun k hk => (marks_of_lt (by omega)).symm
  have hlist : (s.compact T.pairLookup x.select mid).list =
      ((List.range s.len).filter x.select.kept.bit).map
        fun j => if x.select.bit j then mid else s.ids j := by
    rw [WarpState.list, len_compact s _ mid hlen]
    exact map_scatter hlen _ _ (Nat.le_refl _)
  rw [hlist, WarpState.list, List.range_eq_range']
  refine filter_kept_eq_mergeAt s.ids (fun i _ hi => hgreedy (by omega)) (fun i _ hi => ?_)
    (fun i _ _ => rfl) (.inl rfl) fun i hi => hend i (by omega)
  rw [bit_kept (by omega), hgreedy (by omega)]

theorem countP_range_mono (p : ℕ → Bool) {m : ℕ} (h : m ≤ n) :
    (List.range m).countP p ≤ (List.range n).countP p := by
  obtain ⟨d, rfl⟩ := Nat.exists_eq_add_of_le h
  rw [countP_range_add]
  exact Nat.le_add_right _ _

theorem pvv_compact (pair : ℕ → ℕ → Option (ℕ × ℕ)) (s : WarpState) (x : B128) (mid j : ℕ) :
    (s.compact pair x mid).pvv j =
      if j < (s.compact pair x mid).len - 1 ∧
          (scatter x.kept s.len x.bit (fun _ => false) j ∨
            scatter x.kept s.len x.bit (fun _ => false) (j + 1)) then
        pair ((s.compact pair x mid).ids j) ((s.compact pair x mid).ids (j + 1))
      else scatter x.kept s.len (s.vv pair) s.pvv j := rfl

/-- The cache follows the symbols: a pair away from the merges keeps its value. -/
theorem WarpState.Cached.compact (h : s.Cached T) (x : B128) (mid : ℕ) (hlen : s.len ≤ 128) :
    (s.compact T.pairLookup x mid).Cached T := by
  refine .inr fun j hj => ?_
  have hnew := len_compact (T := T) s x mid hlen
  obtain ⟨i, hi, hki, hri⟩ : ∃ i < s.len, x.kept.bit i = true ∧
      (List.range i).countP x.kept.bit = j := exists_rank (by omega)
  obtain ⟨i', hi', -, hri'⟩ : ∃ i < s.len, x.kept.bit i = true ∧
      (List.range i).countP x.kept.bit = j + 1 := exists_rank (by omega)
  have hat {β : Type} (f old : ℕ → β) : scatter x.kept s.len f old j = f i := by
    rw [← hri]
    exact scatter_rank hlen hi hki f old
  rw [pvv_compact]
  split_ifs with hm
  · rfl
  · -- neither symbol is new, so they stood next to each other
    have hoff : x.bit i = false := by
      rw [hat] at hm
      simpa using fun hb => hm ⟨hj, .inl hb⟩
    have hlt : i < i' := by
      by_contra hge
      have := countP_range_mono x.kept.bit (Nat.not_lt.mp hge)
      omega
    have hk' : x.kept.bit (i + 1) = true := by
      rw [bit_kept (by omega), Nat.add_sub_cancel, hoff]
      simp
    have hr' : (List.range (i + 1)).countP x.kept.bit = j + 1 := by
      rw [List.range_succ, List.countP_append, hri, List.countP_singleton, if_pos hki]
    have hat' {β : Type} (f old : ℕ → β) : scatter x.kept s.len f old (j + 1) = f (i + 1) := by
      rw [← hr']
      exact scatter_rank hlen (by omega) hk' f old
    have hoff' : x.bit (i + 1) = false := by
      rw [hat'] at hm
      simpa using fun hb => hm ⟨hj, .inr hb⟩
    change scatter x.kept s.len (s.vv T.pairLookup) s.pvv j =
      T.pairLookup (scatter x.kept s.len _ s.ids j) (scatter x.kept s.len _ s.ids (j + 1))
    rw [hat, hat, hat', h.vv, if_pos (by omega), hoff, hoff']
    rfl

/-! ### The rounds -/

theorem WarpState.Cached.at_iff (h : s.Cached T) (hlen : s.len ≤ 128) (v : ℕ × ℕ) :
    At (s.vv T.pairLookup) v ↔ Present T s.list v := by
  constructor
  · rintro ⟨j, hj, hv⟩
    rw [h.vv] at hv
    split_ifs at hv with hlt
    · refine ⟨j, by rw [s.length_list]; omega, ?_⟩
      rw [s.getD_list (by omega), s.getD_list (by omega)]
      exact hv
  · rintro ⟨j, hj, hv⟩
    rw [s.length_list] at hj
    rw [s.getD_list (by omega), s.getD_list hj] at hv
    refine ⟨j, by omega, ?_⟩
    rw [h.vv, if_pos (by omega)]
    exact hv

theorem At.rank_lt (h : s.Cached T) {v : ℕ × ℕ} (hv : At (s.vv T.pairLookup) v) :
    v.1 + 1 < 2 ^ 27 := by
  obtain ⟨j, -, hv⟩ := hv
  rw [h.vv] at hv
  split_ifs at hv
  exact Nat.lt_of_le_of_lt (MergeTable.rank_lt hv) T.merges_lt

theorem warpRound_none (h : s.Cached T) (hlen : s.len ≤ 128) (hr : warpRound T s = none) :
    T.pairRules.Irreducible s.list := by
  unfold warpRound at hr
  dsimp only at hr
  split_ifs at hr with hwin
  · have habsent := reduceMin_none (fun v hv => hv.rank_lt h) hwin
    refine IsBest.irreducible ⟨fun _ v hv => ?_, fun _ h => (nomatch h), fun _ h => (nomatch h)⟩
    exact habsent v ((h.at_iff hlen v).mpr hv)
  · obtain ⟨v, hv, -⟩ := reduceMin_some (fun v hv => hv.rank_lt h) hwin
    rw [hv] at hr
    cases hr

/-- The marks of a round, cut down to the lowest one when the rank is flagged, merge as
`roundOf` does. -/
theorem mergeAt_hitBits (h : s.Cached T) (hlen : s.len ≤ 128)
    (hocc : ∀ j, j + 1 < s.list.length →
      ((T.pairLookup (s.list.getD j 0) (s.list.getD (j + 1) 0)).any fun v => v.1 = r) =
        decide (s.list.getD j 0 = a ∧ s.list.getD (j + 1) 0 = b)) :
    (∀ i, s.len ≤ i + 1 → (if T.testUnsafe r then (hitBits (s.vv T.pairLookup) s.len r).lowest
        else hitBits (s.vv T.pairLookup) s.len r).marks i = false) ∧
      mergeAt (if T.testUnsafe r then (hitBits (s.vv T.pairLookup) s.len r).lowest
        else hitBits (s.vv T.pairLookup) s.len r).marks z 0 s.list = roundOf T a b r z s.list := by
  have hend : ∀ i, s.len ≤ i + 1 → (hitBits (s.vv T.pairLookup) s.len r).marks i = false := by
    intro i hi
    by_cases h128 : i < 128
    · rw [marks_of_lt h128, bit_hitBits _ _ _ h128, decide_eq_false (by omega), Bool.false_and]
    · simp [B128.marks, h128]
  have hmarks : Marks (hitBits (s.vv T.pairLookup) s.len r).marks a b 0 s.list := by
    intro i hi
    have hi' : i + 1 < s.len := by simpa using hi
    rw [Nat.zero_add, marks_of_lt (by omega), bit_hitBits _ _ _ (by omega),
      decide_eq_true (by omega), Bool.true_and, ← hocc i hi, h.vv, if_pos (by omega),
      s.getD_list (by omega), s.getD_list hi']
  unfold roundOf
  split_ifs with hub
  · have hlow {i : ℕ} (hi : i < 128) : (hitBits (s.vv T.pairLookup) s.len r).lowest.marks i =
        ((hitBits (s.vv T.pairLookup) s.len r).marks i &&
          decide (∀ n < i, (hitBits (s.vv T.pairLookup) s.len r).marks n = false)) := by
      rw [marks_of_lt hi, marks_of_lt hi, bit_lowest hi]
      congr 1
      exact decide_eq_decide.mpr
        (forall₂_congr fun n hn => by rw [marks_of_lt (hn.trans hi)])
    have hlowend : ∀ i, s.len ≤ i + 1 →
        (hitBits (s.vv T.pairLookup) s.len r).lowest.marks i = false := by
      intro i hi
      by_cases h128 : i < 128
      · rw [hlow h128, hend i hi, Bool.false_and]
      · simp [B128.marks, h128]
    refine ⟨hlowend, mergeAt_first hmarks (fun i _ hi => ?_) fun i hi => hlowend i ?_⟩
    · rw [s.length_list] at hi
      rw [hlow (by omega)]
      simp
    · rwa [s.length_list, Nat.zero_add] at hi
  · exact ⟨hend, mergeAt_marks hmarks⟩

theorem warpRound_some (h : s.Cached T) (hlen : s.len ≤ 128) (hr : warpRound T s = some s') :
    s'.Cached T ∧ s'.len < s.len ∧
      ∀ out, T.pairRules.Merged s'.list out ↔ T.pairRules.Merged s.list out := by
  unfold warpRound at hr
  dsimp only at hr
  split_ifs at hr with hwin
  obtain ⟨v, hv, hbest⟩ := reduceMin_some (fun v hv => hv.rank_lt h) hwin
  rw [hv] at hr
  obtain rfl := Option.some.inj hr
  obtain ⟨a, b, hrule, hge, hmem, hocc⟩ := (hbest.congr (h.at_iff hlen)).pair
  obtain ⟨hend, hround⟩ := mergeAt_hitBits (z := v.2) h hlen hocc
  have hlist := (list_compact (T := T) s _ v.2 hlen hend).trans hround
  refine ⟨h.compact _ _ hlen, ?_, fun out => ?_⟩
  · rw [← WarpState.length_list, hlist, ← s.length_list]
    exact length_roundOf_lt hmem
  · rw [hlist]
    exact merged_round hrule hge hmem

/-- The rounds of the warp merge as one merge at a time does. -/
theorem warpLoop_merged (k : ℕ) (h : s.Cached T) (hlen : s.len ≤ 128) (hk : s.len ≤ k) :
    T.pairRules.Merged s.list (warpLoop T k s).list := by
  induction k generalizing s with
  | zero =>
    have : s.list = [] := List.length_eq_zero_iff.mp (by simpa using hk)
    rw [warpLoop, this]
    exact ⟨.refl, .nil⟩
  | succ k ih =>
    rw [warpLoop]
    split_ifs with hone
    · cases hr : warpRound T s with
      | none => exact ⟨.refl, warpRound_none h hlen hr⟩
      | some s' =>
        obtain ⟨hc, hlt, hmerged⟩ := warpRound_some h hlen hr
        exact (hmerged _).mp (ih hc (by omega) (by omega))
    · refine ⟨.refl, isChain_iff_getD.mpr fun j hj => ?_⟩
      rw [WarpState.length_list] at hj
      omega

end Toktier.Bpe

