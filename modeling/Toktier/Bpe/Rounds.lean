import Mathlib.Tactic.Common
import Toktier.Bpe.Routines

/-!
# What a round merges

A search that keeps the better of two values ends with a value of the lowest rank. The
occurrences of that rank are the occurrences of one pair, and a round that merges them, or
the leftmost of them when the rank is flagged, keeps the outcome of merging one by one.

## Main definitions

* `IsBest`: a value of the lowest rank among some values.
* `mergeAt`: merge at the marked positions, from the left.

## Main results

* `merged_round`: a round keeps the outcome and shortens the symbols.
* `threadMerge_merged`: the thread routine merges one by one.
-/
namespace Toktier.Bpe

open Toktier.Lib Toktier.Lib.PairRules

variable {α : Type} {p q : ℕ × ℕ → Prop} {o o' : Option (ℕ × ℕ)} {T : MergeTable}
  {a b r z j : ℕ} {l out : List ℕ}

/-! ### The lowest rank -/

/-- `o` is a value of the lowest rank among those that satisfy `p`; -1 when there is none. -/
structure IsBest (p : ℕ × ℕ → Prop) (o : Option (ℕ × ℕ)) : Prop where
  absent : o = none → ∀ v, ¬p v
  mem : ∀ v, o = some v → p v
  le : ∀ v, o = some v → ∀ w, p w → v.1 ≤ w.1

theorem IsBest.congr (h : IsBest p o) (hpq : ∀ v, p v ↔ q v) : IsBest q o := by
  obtain rfl : p = q := funext fun v => propext (hpq v)
  exact h

theorem isBest_self (o : Option (ℕ × ℕ)) : IsBest (fun v => o = some v) o := by
  refine ⟨fun h v hv => ?_, fun _ h => h, fun v hv w hw => ?_⟩
  · rw [h] at hv
    cases hv
  · rw [hv] at hw
    exact le_of_eq (congrArg Prod.fst (Option.some.inj hw))

theorem better_iff : better o' o = true ↔
    ∃ v, o' = some v ∧ ∀ w, o = some w → v.1 < w.1 := by
  rcases o' with - | v <;> rcases o with - | w <;> simp [better]

theorem IsBest.or (h : IsBest p o) (h' : IsBest q o') :
    IsBest (fun v => p v ∨ q v) (if better o' o then o' else o) := by
  split_ifs with hb
  · obtain ⟨v, rfl, hlt⟩ := better_iff.mp hb
    refine ⟨fun hn => (nomatch hn), fun w hw => .inr (h'.mem w hw), fun w hw x hx => ?_⟩
    obtain rfl : v = w := Option.some.inj hw
    rcases hx with hx | hx
    · cases ho : o with
      | none => exact absurd hx (h.absent ho x)
      | some y => exact (hlt y ho).le.trans (h.le y ho x hx)
    · exact h'.le v rfl x hx
  · refine ⟨fun hn v hv => ?_, fun w hw => .inl (h.mem w hw), fun w hw x hx => ?_⟩
    · rcases hv with hv | hv
      · exact h.absent hn v hv
      · cases ho' : o' with
        | none => exact h'.absent ho' v hv
        | some y => exact hb (better_iff.mpr ⟨y, ho', fun w hw => by rw [hn] at hw; cases hw⟩)
    · rcases hx with hx | hx
      · exact h.le w hw x hx
      · cases ho' : o' with
        | none => exact absurd hx (h'.absent ho' x)
        | some y =>
          refine le_trans ?_ (h'.le y ho' x hx)
          by_contra hlt
          exact hb (better_iff.mpr ⟨y, ho', fun u hu => by
            obtain rfl : w = u := Option.some.inj (hw.symm.trans hu)
            exact Nat.not_le.mp hlt⟩)

/-- A fold that keeps the better value. -/
theorem IsBest.foldl (f : α → Option (ℕ × ℕ)) (h : IsBest p o) (xs : List α) :
    IsBest (fun v => p v ∨ ∃ x ∈ xs, f x = some v)
      (xs.foldl (fun my x => if better (f x) my then f x else my) o) := by
  induction xs generalizing p o with
  | nil => exact h.congr fun v => by simp
  | cons x xs ih =>
    exact (ih (h.or (isBest_self (f x)))).congr fun v => by simp [or_assoc]

theorem isBest_foldl (f : α → Option (ℕ × ℕ)) (xs : List α) :
    IsBest (fun v => ∃ x ∈ xs, f x = some v)
      (xs.foldl (fun my x => if better (f x) my then f x else my) none) := by
  have h : IsBest (fun _ => False) none :=
    ⟨fun _ _ h => h, fun _ h => (nomatch h), fun _ h => (nomatch h)⟩
  exact (h.foldl f xs).congr fun v => by simp

/-! ### The occurrences of a rank -/

/-- A value that a pair of adjacent symbols has. -/
def Present (T : MergeTable) (l : List ℕ) (v : ℕ × ℕ) : Prop :=
  ∃ j, j + 1 < l.length ∧ T.pairLookup (l.getD j 0) (l.getD (j + 1) 0) = some v

/-- The marked positions of `l` from `j` on are the occurrences of `a b`. -/
def Marks (hit : ℕ → Bool) (a b j : ℕ) (l : List ℕ) : Prop :=
  ∀ i, i + 1 < l.length → hit (j + i) = decide (l.getD i 0 = a ∧ l.getD (i + 1) 0 = b)

theorem isChain_iff_getD {R : ℕ → ℕ → Prop} :
    l.IsChain R ↔ ∀ j, j + 1 < l.length → R (l.getD j 0) (l.getD (j + 1) 0) := by
  rw [List.isChain_iff_getElem]
  refine forall₂_congr fun j hj => ?_
  rw [List.getD_eq_getElem _ _ (Nat.lt_of_succ_lt hj), List.getD_eq_getElem _ _ hj]

theorem IsBest.irreducible (h : IsBest (Present T l) none) : T.pairRules.Irreducible l :=
  isChain_iff_getD.mpr fun j hj =>
    Option.eq_none_iff_forall_ne_some.mpr fun v hv => h.absent rfl v ⟨j, hj, hv⟩

/-- The lowest rank belongs to one pair. -/
theorem IsBest.pair (h : IsBest (Present T l) (some (r, z))) :
    ∃ a b, T.pairRules.rule a b = some (r, z) ∧ T.pairRules.AllGe r l ∧
      (¬l.IsChain fun x y => ¬(x = a ∧ y = b)) ∧
      ∀ j, j + 1 < l.length →
        ((T.pairLookup (l.getD j 0) (l.getD (j + 1) 0)).any fun v => v.1 = r) =
          decide (l.getD j 0 = a ∧ l.getD (j + 1) 0 = b) := by
  obtain ⟨k, hk, hpair⟩ := h.mem _ rfl
  refine ⟨l.getD k 0, l.getD (k + 1) 0, hpair, ?_, ?_, fun j hj => ?_⟩
  · exact isChain_iff_getD.mpr fun j hj v hv => h.le _ rfl v ⟨j, hj, hv⟩
  · exact fun hc => isChain_iff_getD.mp hc k hk ⟨rfl, rfl⟩
  · refine Bool.eq_iff_iff.mpr ?_
    rw [Option.any_eq_true, decide_eq_true_eq]
    constructor
    · rintro ⟨⟨r', w⟩, hv, hr⟩
      obtain rfl : r' = r := by simpa using hr
      exact T.pairLookup_rank_inj hv hpair
    · rintro ⟨ha, hb⟩
      exact ⟨(r, z), by rw [ha, hb]; exact hpair, by simp⟩

/-! ### Merging at marks -/

/-- Merge at the marked positions from `j` on, from the left. -/
def mergeAt (hit : ℕ → Bool) (z : ℕ) : ℕ → List ℕ → List ℕ
  | j, x :: y :: l =>
    if hit j then z :: mergeAt hit z (j + 2) l else x :: mergeAt hit z (j + 1) (y :: l)
  | _, l => l

theorem Marks.tail {hit : ℕ → Bool} {x : ℕ} (h : Marks hit a b j (x :: l)) :
    Marks hit a b (j + 1) l := by
  intro i hi
  have := h (i + 1) (Nat.succ_lt_succ hi)
  rwa [← Nat.add_assoc, Nat.add_right_comm] at this

theorem Marks.head {hit : ℕ → Bool} {x y : ℕ} (h : Marks hit a b j (x :: y :: l)) :
    hit j = decide (x = a ∧ y = b) := h 0 (by simp)

theorem mergeAt_marks {hit : ℕ → Bool} (h : Marks hit a b j l) :
    mergeAt hit z j l = mergeAll a b z l := by
  fun_induction mergeAt hit z j l with
  | case1 j x y l hj ih =>
    rw [h.head, decide_eq_true_eq] at hj
    rw [mergeAll, if_pos hj, ih h.tail.tail]
  | case2 j x y l hj ih =>
    rw [h.head, decide_eq_true_eq] at hj
    rw [mergeAll, if_neg hj, ih h.tail]
  | case3 j l hl =>
    rcases l with - | ⟨x, - | ⟨y, l⟩⟩
    · rfl
    · rfl
    · exact absurd rfl (hl x y l)

/-- Without a mark nothing changes. -/
theorem mergeAt_of_unmarked {hit : ℕ → Bool} (h : ∀ i, j ≤ i → hit i = false) :
    mergeAt hit z j l = l := by
  fun_induction mergeAt hit z j l with
  | case1 j x y l hj ih => simp [h j (Nat.le_refl _)] at hj
  | case2 j x y l hj ih => rw [ih fun i hi => h i (Nat.le_of_succ_le hi)]
  | case3 j l hl => rfl

/-- Marks cut down to the first one merge the leftmost occurrence. -/
theorem mergeAt_first {hit first : ℕ → Bool} (h : Marks hit a b j l)
    (hfirst : ∀ i, j ≤ i → i + 1 < j + l.length →
      first i = (hit i && decide (∀ n, j ≤ n → n < i → hit n = false)))
    (hend : ∀ i, j + l.length ≤ i + 1 → first i = false) :
    mergeAt first z j l = mergeFirst a b z l := by
  fun_induction mergeFirst a b z l generalizing j with
  | case1 x y l hxy =>
    have hj : hit j = true := by rw [h.head]; exact decide_eq_true hxy
    rw [mergeAt, if_pos, mergeAt_of_unmarked]
    · intro i hi
      by_cases hlast : i + 1 < j + (x :: y :: l).length
      · rw [hfirst i (by omega) hlast]
        have : ¬∀ n, j ≤ n → n < i → hit n = false := fun hn => by
          have := hn j (Nat.le_refl _) (by omega)
          simp [hj] at this
        simp [this]
      · exact hend i (by omega)
    · rw [hfirst j (Nat.le_refl _) (by simp), hj]
      simp only [Bool.true_and, decide_eq_true_eq]
      exact fun n h1 h2 => absurd h1 (Nat.not_le.mpr h2)
  | case2 x y l hxy ih =>
    have hj : hit j = false := by rw [h.head]; exact decide_eq_false hxy
    rw [mergeAt, if_neg, ih h.tail]
    · intro i hi hlast
      rw [hfirst i (by omega) (by simp at hlast ⊢; omega)]
      congr 1
      refine decide_eq_decide.mpr ⟨fun hn n h1 h2 => hn n (by omega) h2, fun hn n h1 h2 => ?_⟩
      rcases Nat.eq_or_lt_of_le h1 with rfl | hlt
      · exact hj
      · exact hn n hlt h2
    · exact fun i hi => hend i (by simp at hi ⊢; omega)
    · rw [hfirst j (Nat.le_refl _) (by simp), hj]
      simp
  | case3 l hl =>
    rcases l with - | ⟨x, - | ⟨y, l⟩⟩
    · rfl
    · rfl
    · exact absurd rfl (hl x y l)

/-! ### One round -/

/-- What a round leaves: a flagged rank merges its leftmost occurrence only. -/
def roundOf (T : MergeTable) (a b r z : ℕ) (l : List ℕ) : List ℕ :=
  if T.testUnsafe r then mergeFirst a b z l else mergeAll a b z l

/-- **A round of the lowest rank keeps the outcome of merging one pair at a time.** -/
theorem merged_round (rule : T.pairRules.rule a b = some (r, z)) (hge : T.pairRules.AllGe r l)
    (hmem : ¬l.IsChain fun x y => ¬(x = a ∧ y = b)) :
    T.pairRules.Merged (roundOf T a b r z l) out ↔ T.pairRules.Merged l out := by
  unfold roundOf
  split_ifs with hub
  · exact merged_mergeFirst rule hge hmem
  · exact merged_mergeAll rule (MergeTable.safe_of_unflagged rule (by simpa using hub)) hge

theorem length_roundOf_lt (hmem : ¬l.IsChain fun x y => ¬(x = a ∧ y = b)) :
    (roundOf T a b r z l).length < l.length := by
  unfold roundOf
  split_ifs
  · exact length_mergeFirst_lt hmem
  · exact length_mergeAll_lt hmem

/-! ### One merge at a time -/

/-- What the scan knows of the symbols it has seen: the leftmost pair of the lowest rank. -/
structure ScanState (T : MergeTable) (seen : List ℕ) (best : Option ((ℕ × ℕ) × ℕ)) : Prop where
  absent : best = none → T.pairRules.Irreducible seen
  found : ∀ v j, best = some (v, j) → ∃ u a b w, seen = u ++ a :: b :: w ∧ u.length = j ∧
    T.pairLookup a b = some v ∧ T.pairRules.AllGe v.1 seen ∧
    (u ++ [a]).IsChain fun x y => ∀ p ∈ T.pairLookup x y, v.1 < p.1

theorem ScanState.step {seen : List ℕ} {x y : ℕ} {best : Option ((ℕ × ℕ) × ℕ)}
    (h : ScanState T (seen ++ [x]) best) :
    ScanState T (seen ++ [x] ++ [y])
      (if better (T.pairLookup x y) (best.map Prod.fst) then
        (T.pairLookup x y).map (·, seen.length) else best) := by
  have hsnoc {R : ℕ → ℕ → Prop} (hc : (seen ++ [x]).IsChain R) (hxy : R x y) :
      (seen ++ [x] ++ [y]).IsChain R :=
    hc.append (.singleton y) fun u hu w hw => by
      obtain rfl : x = u := by simpa using hu
      obtain rfl : y = w := by simpa using hw
      exact hxy
  split_ifs with hb
  · obtain ⟨v, hv, hlt⟩ := better_iff.mp hb
    rw [hv]
    refine ⟨fun hn => (nomatch hn), fun v' j hj => ?_⟩
    obtain ⟨rfl, rfl⟩ : v = v' ∧ seen.length = j := by simpa using hj
    -- every earlier pair has a higher rank
    have hprev : (seen ++ [x]).IsChain fun x y => ∀ p ∈ T.pairLookup x y, v.1 < p.1 := by
      cases hbest : best with
      | none => exact (h.absent hbest).imp fun a b hab p hp => nomatch hab.symm.trans hp
      | some w =>
        obtain ⟨-, -, -, -, -, -, -, hge, -⟩ := h.found w.1 w.2 hbest
        exact hge.imp fun a b hab p hp => (hlt w.1 (by simp [hbest])).trans_le (hab p hp)
    refine ⟨seen, x, y, [], by simp, rfl, hv, ?_, hprev⟩
    refine hsnoc (hprev.imp fun a b hab p hp => (hab p hp).le) fun p hp => ?_
    rw [show T.pairRules.rule x y = some v from hv, Option.mem_some_iff] at hp
    rw [hp]
  · refine ⟨fun hn => hsnoc (h.absent hn) ?_, fun v j hj => ?_⟩
    · refine Option.eq_none_iff_forall_ne_some.mpr fun v hv => hb ?_
      exact better_iff.mpr ⟨v, hv, fun w hw => by simp [hn] at hw⟩
    · obtain ⟨u, a, b, w, hseen, hlen, hv, hge, hleft⟩ := h.found v j hj
      refine ⟨u, a, b, w ++ [y], by simp [hseen], hlen, hv, hsnoc hge fun p hp => ?_, hleft⟩
      by_contra hlt
      exact hb (better_iff.mpr ⟨p, hp, fun w hw => by
        obtain rfl : v = w := by simpa [hj] using hw
        exact Nat.not_le.mp hlt⟩)

theorem scanBest_state (seen : List ℕ) {x : ℕ} {best : Option ((ℕ × ℕ) × ℕ)}
    (h : ScanState T (seen ++ [x]) best) :
    ScanState T (seen ++ x :: l) (scanBest T.pairLookup seen.length (x :: l) best) := by
  induction l generalizing seen x best with
  | nil => exact h
  | cons y l ih =>
    have := ih _ (h.step (y := y))
    simpa [scanBest] using this

theorem scanState_scanBest (l : List ℕ) :
    ScanState T l (scanBest T.pairLookup 0 l none) := by
  cases l with
  | nil => exact ⟨fun _ => .nil, fun _ _ h => (nomatch h)⟩
  | cons x l =>
    exact scanBest_state [] ⟨fun _ => .singleton x, fun _ _ h => (nomatch h)⟩

/-- The thread loop merges one pair at a time, and ends when none merges. -/
theorem threadMerge_merged (k : ℕ) (hk : l.length ≤ k) :
    T.pairRules.Merged l (threadMerge T.pairLookup k l) := by
  induction k generalizing l with
  | zero =>
    obtain rfl : l = [] := List.length_eq_zero_iff.mp (Nat.le_zero.mp hk)
    exact ⟨.refl, .nil⟩
  | succ k ih =>
    rw [threadMerge]
    have h := scanState_scanBest (T := T) l
    cases hscan : scanBest T.pairLookup 0 l none with
    | none => exact ⟨.refl, h.absent hscan⟩
    | some best =>
      obtain ⟨u, a, b, w, rfl, hlen, hv, hge, hleft⟩ := h.found best.1 best.2 hscan
      have hmerged : ((u ++ a :: b :: w).set best.2 best.1.2).eraseIdx (best.2 + 1) =
          u ++ best.1.2 :: w := by
        rw [← hlen, List.set_append_right _ _ (Nat.le_refl _),
          List.eraseIdx_append_of_length_le (by simp)]
        simp
      dsimp only
      rw [hmerged]
      have hstep : T.pairRules.MergeStep (u ++ a :: b :: w) (u ++ best.1.2 :: w) :=
        ⟨hv, hge, hleft.imp fun x y hxy hab => by
          have := hxy best.1 (by rw [hab.1, hab.2]; exact hv)
          exact absurd this (Nat.lt_irrefl _)⟩
      exact (ih (by simp at hk ⊢; omega)).step hstep

end Toktier.Bpe
