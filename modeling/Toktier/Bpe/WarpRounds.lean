import Toktier.Bpe.Exact

/-!
# One round of the warp

What a round of the warp selects, moves and caches, in any round of any piece. The selection
is the leftmost non-overlapping one of the occurrences of the lowest-ranked pair; a flagged
rank merges its leftmost occurrence alone. Every symbol that the selection does not swallow
goes to its rank among those, and the next round reads the values of the new symbols.

## Main definitions

* `WarpReach`: the states between the rounds of one piece.
* `WarpState.merges`: the selection of a round.
* `Compacted`: the old symbols in the new state.

## Main results

* `warpRound_exact`: every round.
-/
namespace Toktier.Bpe

open B128

variable {T : MergeTable} {s s' : WarpState} {r z i j : ℕ} {hit sel : ℕ → Bool}

/-- The states between the rounds, from one that has not filled its cache. -/
inductive WarpReach (T : MergeTable) (s₀ : WarpState) : WarpState → Prop
  | start : WarpReach T s₀ s₀
  | round {s s' : WarpState} (hs : WarpReach T s₀ s) (hlen : 1 < s.len)
      (hr : warpRound T s = some s') : WarpReach T s₀ s'

theorem WarpReach.cached {s₀ : WarpState} (hfirst : s₀.first = true) (hlen : s₀.len ≤ 128)
    (h : WarpReach T s₀ s) : s.Cached T ∧ s.len ≤ 128 := by
  induction h with
  | start => exact ⟨.inl hfirst, hlen⟩
  | round _ _ hr ih =>
    obtain ⟨hc, hlt, -⟩ := warpRound_some ih.1 ih.2 hr
    exact ⟨hc, hlt.le.trans ih.2⟩

/-! ### The selection -/

/-- The value of the pair at `j`; the last position has none. -/
def WarpState.pairAt (T : MergeTable) (s : WarpState) (j : ℕ) : Option (ℕ × ℕ) :=
  if j + 1 < s.len then T.pairLookup (s.ids j) (s.ids (j + 1)) else none

/-- The pair at `j` has the rank. -/
def WarpState.occurs (T : MergeTable) (s : WarpState) (r j : ℕ) : Bool :=
  (s.pairAt T j).any fun v => v.1 = r

/-- What a round of the rank merges: the greedy occurrences, or the leftmost one. -/
def WarpState.merges (T : MergeTable) (s : WarpState) (r j : ℕ) : Bool :=
  if T.testUnsafe r then s.occurs T r j && decide (∀ i < j, s.occurs T r i = false)
  else greedy (s.occurs T r) j

/-- The cache holds the value of every pair. -/
theorem WarpState.Cached.vv_eq (h : s.Cached T) (j : ℕ) : s.vv T.pairLookup j = s.pairAt T j := by
  rw [h.vv, pairAt]
  exact if_congr (by omega) rfl rfl

/-- Hits that do not stand next to each other are all taken. -/
theorem greedy_of_apart (h : ∀ j, hit (j + 1) = true → hit j = false) (j : ℕ) :
    greedy hit j = hit j := by
  cases j with
  | zero => rfl
  | succ j =>
    rw [greedy]
    cases hnext : hit (j + 1) with
    | false => rfl
    | true =>
      cases hg : greedy hit j with
      | false => rfl
      | true => exact absurd (h j hnext) (by rw [hit_of_greedy hg]; exact Bool.true_eq_false_eq_False)

theorem bit_hits (h : s.Cached T) (r : ℕ) (hj : j < 128) :
    (hitBits (s.vv T.pairLookup) s.len r).bit j = s.occurs T r j := by
  rw [bit_hitBits _ _ _ hj, h.vv_eq, WarpState.occurs, WarpState.pairAt]
  split_ifs with hlt
  · rw [decide_eq_true (by omega), Bool.true_and]
  · rw [Option.any_none, Bool.and_false]

/-- The doubling loop finds the selection of the round. -/
theorem bit_select_merges (h : s.Cached T) (r : ℕ) (hj : j < 128) :
    (if T.testUnsafe r then (hitBits (s.vv T.pairLookup) s.len r).lowest
      else hitBits (s.vv T.pairLookup) s.len r).select.bit j = s.merges T r j := by
  rw [bit_select _ hj, WarpState.merges]
  split_ifs with hub
  · have hlow : ∀ i ≤ j, (hitBits (s.vv T.pairLookup) s.len r).lowest.bit i =
        (s.occurs T r i && decide (∀ k < i, s.occurs T r k = false)) := by
      intro i hi
      rw [bit_lowest (hi.trans_lt hj), bit_hits h r (hi.trans_lt hj)]
      congr 1
      exact decide_eq_decide.mpr
        (forall₂_congr fun k hk => by rw [bit_hits h r ((hk.trans_le hi).trans hj)])
    rw [greedy_congr hlow]
    refine greedy_of_apart (fun i hnext => ?_) j
    rw [Bool.and_eq_true_iff, decide_eq_true_eq] at hnext
    rw [hnext.2 i (Nat.lt_succ_self i), Bool.false_and]
  · exact greedy_congr fun i hi => bit_hits h r (hi.trans_lt hj)

/-! ### The compaction -/

/-- A position that the selection does not swallow. -/
def survives (sel : ℕ → Bool) (j : ℕ) : Bool := !(decide (1 ≤ j) && sel (j - 1))

/-- The number of survivors below `j`. -/
def rankAmong (sel : ℕ → Bool) (j : ℕ) : ℕ := (List.range j).countP (survives sel)

/-- The survivors of a selection stand in the new state by rank, those selected as the merged
token: none is lost, no two meet, and no place is left over. -/
structure Compacted (sel : ℕ → Bool) (z : ℕ) (s s' : WarpState) : Prop where
  len_eq : s'.len = rankAmong sel s.len
  ids_eq : ∀ j < s.len, survives sel j = true →
    s'.ids (rankAmong sel j) = if sel j then z else s.ids j
  rank_lt : ∀ i j, i < j → survives sel i = true → rankAmong sel i < rankAmong sel j
  exists_rank : ∀ k < s'.len, ∃ j < s.len, survives sel j = true ∧ rankAmong sel j = k

theorem countP_congr_below {p q : ℕ → Bool} {n : ℕ} (h : ∀ i < n, p i = q i) :
    (List.range n).countP p = (List.range n).countP q :=
  List.countP_congr fun i hi => by rw [h i (List.mem_range.mp hi)]

theorem compacted_compact (s : WarpState) (x : B128) (z : ℕ) (hlen : s.len ≤ 128)
    (hsel : ∀ j < 128, x.bit j = sel j) : Compacted sel z s (s.compact T.pairLookup x z) := by
  have hkept {j : ℕ} (hj : j < 128) : x.kept.bit j = survives sel j := by
    rw [bit_kept hj, survives, hsel (j - 1) (by omega)]
  have hrank {j : ℕ} (hj : j ≤ 128) : (List.range j).countP x.kept.bit = rankAmong sel j :=
    countP_congr_below fun i hi => hkept (by omega)
  have hlength : (s.compact T.pairLookup x z).len = rankAmong sel s.len := by
    rw [len_compact s x z hlen, hrank hlen]
  refine ⟨hlength, fun j hj hs => ?_, fun i j hij hs => countP_range_lt hs hij, fun k hk => ?_⟩
  · rw [← hkept (hj.trans_le hlen)] at hs
    have hmoved := scatter_rank hlen hj hs (fun j => if x.bit j then z else s.ids j) s.ids
    rw [hrank (hj.le.trans hlen), hsel j (hj.trans_le hlen)] at hmoved
    exact hmoved
  · rw [hlength] at hk
    exact Bpe.exists_rank hk

/-! ### A round -/

theorem WarpState.pairAt_eq_some {v : ℕ × ℕ} (h : s.Cached T) (hlen : s.len ≤ 128) :
    (∃ j, s.pairAt T j = some v) ↔ Present T s.list v := by
  rw [← h.at_iff hlen]
  constructor
  · rintro ⟨j, hj⟩
    refine ⟨j, ?_, (h.vv_eq j).trans hj⟩
    rw [pairAt] at hj
    split_ifs at hj with hlt
    omega
  · rintro ⟨j, -, hj⟩
    exact ⟨j, (h.vv_eq j).symm.trans hj⟩

/-- The pair values of a state are those at its 128 positions. -/
theorem At.iff_pairAt (h : s.Cached T) (hlen : s.len ≤ 128) {v : ℕ × ℕ} :
    At (s.vv T.pairLookup) v ↔ ∃ j, s.pairAt T j = some v :=
  (h.at_iff hlen v).trans (WarpState.pairAt_eq_some h hlen).symm

/-- What a round that merges has found and done. -/
theorem warpRound_eq_some (h : s.Cached T) (hr : warpRound T s = some s') :
    ∃ v, IsBest (At (s.vv T.pairLookup)) (some v) ∧
      s' = s.compact T.pairLookup (if T.testUnsafe v.1 then
        (hitBits (s.vv T.pairLookup) s.len v.1).lowest
        else hitBits (s.vv T.pairLookup) s.len v.1).select v.2 := by
  unfold warpRound at hr
  dsimp only at hr
  split_ifs at hr with hwin
  obtain ⟨v, hv, hbest⟩ := reduceMin_some (fun v hv => hv.rank_lt h) hwin
  rw [hv] at hr
  exact ⟨v, hbest, (Option.some.inj hr).symm⟩

/-- The rounds end when no pair has a rank. -/
theorem warpRound_eq_none (h : s.Cached T) (hlen : s.len ≤ 128) :
    warpRound T s = none ↔ ∀ j, s.pairAt T j = none := by
  constructor
  · intro hnone j
    cases hj : s.pairAt T j with
    | none => rfl
    | some v =>
      have hirreducible := warpRound_none h hlen hnone
      obtain ⟨k, hk, hpair⟩ := (WarpState.pairAt_eq_some h hlen).mp ⟨j, hj⟩
      have hrule := isChain_iff_getD.mp hirreducible k hk
      exact absurd (hpair.symm.trans hrule) (Option.some_ne_none v)
  · intro hall
    cases hr : warpRound T s with
    | none => rfl
    | some s' =>
      obtain ⟨v, hbest, -⟩ := warpRound_eq_some h hr
      obtain ⟨j, hj⟩ := (At.iff_pairAt h hlen).mp (hbest.mem v rfl)
      exact absurd (hj.symm.trans (hall j)) (Option.some_ne_none v)

/-- **A round of the warp merges, moves and caches exactly**: in every round of a piece of at most
128 symbols, with any table and anything in the shared arrays at the start. The rank is the
lowest of any pair and belongs to one pair; the round merges its leftmost non-overlapping
occurrences, or the leftmost one alone when the rank is flagged; every survivor goes to its rank
among the survivors; and the next round reads at every position the value of the pair there. The
rounds end when no pair has a rank. -/
theorem warpRound_exact (T : MergeTable) (s₀ s : WarpState) (hfirst : s₀.first = true)
    (hlen : s₀.len ≤ 128) (h : WarpReach T s₀ s) :
    (warpRound T s = none ↔ ∀ j, s.pairAt T j = none) ∧
      ∀ s', warpRound T s = some s' → ∃ a b r z : ℕ,
        T.pairLookup a b = some (r, z) ∧ (∃ j, s.pairAt T j = some (r, z)) ∧
        (∀ j v, s.pairAt T j = some v → r ≤ v.1) ∧
        (∀ j, s.occurs T r j = true ↔ j + 1 < s.len ∧ s.ids j = a ∧ s.ids (j + 1) = b) ∧
        Compacted (s.merges T r) z s s' ∧ s'.len < s.len ∧
        ∀ j, s'.vv T.pairLookup j = s'.pairAt T j := by
  obtain ⟨hc, hlen⟩ := h.cached hfirst hlen
  refine ⟨warpRound_eq_none hc hlen, fun s' hr => ?_⟩
  obtain ⟨hc', hlt, -⟩ := warpRound_some hc hlen hr
  obtain ⟨⟨r, z⟩, hbest, rfl⟩ := warpRound_eq_some hc hr
  obtain ⟨a, b, hrule, -, -, hocc⟩ := (hbest.congr (hc.at_iff hlen)).pair
  refine ⟨a, b, r, z, hrule, (At.iff_pairAt hc hlen).mp (hbest.mem _ rfl), fun j v hj => ?_,
    fun j => ?_, ?_, hlt, hc'.vv_eq⟩
  · exact hbest.le _ rfl v ((At.iff_pairAt hc hlen).mpr ⟨j, hj⟩)
  · by_cases hj : j + 1 < s.len
    · have hpair := hocc j (by rwa [s.length_list])
      rw [s.getD_list (by omega), s.getD_list hj] at hpair
      rw [WarpState.occurs, WarpState.pairAt, if_pos hj, hpair, decide_eq_true_eq]
      exact ⟨fun h => ⟨hj, h⟩, And.right⟩
    · rw [WarpState.occurs, WarpState.pairAt, if_neg hj]
      exact iff_of_false Bool.false_ne_true fun h => hj h.1
  · exact compacted_compact s _ z hlen fun j hj => bit_select_merges hc r hj

/-- The symbols of `xyxy`, before the first round. -/
def xyxyState : WarpState := ⟨fun j => [0, 1, 0, 1].getD j 0, fun _ => none, 4, true⟩

theorem warpRound_exact_xyxy : ∃ s' r z, warpRound xyzTable xyxyState = some s' ∧
    Compacted (xyxyState.merges xyzTable r) z xyxyState s' ∧
    ∀ j, s'.vv xyzTable.pairLookup j = s'.pairAt xyzTable j := by
  have hsome : (warpRound xyzTable xyxyState).isSome = true := by decide +kernel
  obtain ⟨s', hs'⟩ := Option.isSome_iff_exists.mp hsome
  have h := warpRound_exact xyzTable xyxyState xyxyState rfl (by decide) .start
  obtain ⟨a, b, r, z, -, -, -, -, hmoved, -, hread⟩ := h.2 s' hs'
  exact ⟨s', r, z, hs', hmoved, hread⟩

/-- The rank of `xy` is flagged, so of the two occurrences that do not overlap in `xyxy` a round
merges the first one only. -/
theorem warpRound_flagged : ¬∀ (T : MergeTable) (s₀ s s' : WarpState), s₀.first = true →
    s₀.len ≤ 128 → WarpReach T s₀ s → warpRound T s = some s' →
    ∃ r z j, s.pairAt T j = some (r, z) ∧ Compacted (greedy (s.occurs T r)) z s s' := by
  intro hall
  have hround : (warpRound xyzTable xyxyState).map WarpState.len = some 3 := by decide +kernel
  obtain ⟨s', hs', hlen⟩ := Option.map_eq_some_iff.mp hround
  obtain ⟨r, z, j, hj, hmoved⟩ := hall xyzTable xyxyState xyxyState s' rfl (by decide) .start hs'
  have hvalues : ∀ j < 4, ∀ v ∈ xyxyState.pairAt xyzTable j, v.1 = 1 := by decide
  have hr : r = 1 := by
    have hlt : j + 1 < 4 := by
      rw [WarpState.pairAt] at hj
      split_ifs at hj with hlt
      exact hlt
    exact hvalues j (by omega) (r, z) hj
  rw [hr] at hmoved
  have hgreedy : rankAmong (greedy (xyxyState.occurs xyzTable 1)) 4 = 2 := by decide
  have hcount : 3 = rankAmong (greedy (xyxyState.occurs xyzTable 1)) 4 :=
    hlen.symm.trans hmoved.len_eq
  omega

end Toktier.Bpe
