import Toktier.Lib.Decode
import Toktier.Routing.Repair

/-!
# Exactness of the append repair

The join of the old tokens and the window's is right when the run has a clean boundary: a
position that splits the encodings of the old text, of the window and of the new text, and
that separates two tokens of the run. The old tokens before it are then those of the new
text, the window's behind it are too, and from it to the end of the run both agree.

The run is accepted on less. The boundary test looks at where a token of the run begins, not
at where the token before it does, so it also counts a boundary when both belong to one
character; and it does not look at the added-token literals, which the window may have cut.

## Main definitions

* `Holds E tail`: the tail has the ids and spans of its text.
* `CleanWitness`, `JoinsClean`: the accepted run has a clean boundary.

## Main results

* `repairAppend_exact`: such a repair leaves the tail exact.
* `repairAppend_literal`: without the condition it need not.
-/
namespace Toktier.Routing

open Toktier.Lib Toktier.StoreCore

/-! ## The run -/

variable {base overlapStart overlapEnd : ℕ}

/-- A record speaks of a token of the row, within the overlap. -/
structure Record.Of (r : Record) (base overlapStart overlapEnd : ℕ) (ids : List UInt32)
    (spans : List (ℕ × ℕ)) : Prop where
  id : ids[r.originalIndex]? = some r.tokenId
  span : ∃ s e, spans[r.originalIndex]? = some (s, e) ∧ r.globalStart = base + s ∧
    r.globalEnd = base + e
  proper : r.globalStart ≠ r.globalEnd
  start_le : overlapStart ≤ r.globalStart
  le_end : r.globalEnd ≤ overlapEnd

theorem mem_recordsFrom {rows : List (UInt32 × ℕ × ℕ)} {index : ℕ} {seen : List (ℕ × ℕ)}
    {r : Record} (h : r ∈ recordsFrom base overlapStart overlapEnd index seen rows) :
    ∃ k s e, rows[k]? = some (r.tokenId, s, e) ∧ r.originalIndex = index + k ∧
      r.globalStart = base + s ∧ r.globalEnd = base + e ∧ r.globalStart ≠ r.globalEnd ∧
      overlapStart ≤ r.globalStart ∧ r.globalEnd ≤ overlapEnd := by
  induction rows generalizing index seen with
  | nil => exact absurd h List.not_mem_nil
  | cons row rows ih =>
      obtain ⟨id, s, e⟩ := row
      rw [recordsFrom] at h
      split_ifs at h with hskip
      · obtain ⟨k, s', e', hk, hindex, hrest⟩ := ih h
        exact ⟨k + 1, s', e', by simpa using hk, by omega, hrest⟩
      · rcases List.mem_cons.mp h with rfl | h
        · refine ⟨0, s, e, rfl, rfl, rfl, rfl, ?_⟩
          simp only at hskip ⊢
          omega
        · obtain ⟨k, s', e', hk, hindex, hrest⟩ := ih h
          exact ⟨k + 1, s', e', by simpa using hk, by omega, hrest⟩

theorem buildRecords_ok {ids : List UInt32} {spans : List (ℕ × ℕ)} {records : List Record}
    (h : buildRecords ids spans base overlapStart overlapEnd = .ok records) :
    ∀ r ∈ records, r.Of base overlapStart overlapEnd ids spans := by
  unfold buildRecords at h
  split_ifs at h
  cases h
  intro r hr
  obtain ⟨k, s, e, hk, hindex, hs, he, hproper, hstart, hend⟩ := mem_recordsFrom hr
  rw [Nat.zero_add] at hindex
  rw [← hindex, List.getElem?_zip_eq_some] at hk
  exact ⟨hk.1, ⟨s, e, hk.2, hs, he⟩, hproper, hstart, hend⟩

/-- The records of a match are equal, and stand side by side in both rows. -/
structure Run (left right : List Record) (m : Match) : Prop where
  length_pos : 0 < m.length
  pairs : ∀ k < m.length, ∃ l ∈ left, ∃ r ∈ right,
    l.originalIndex = m.leftStart + k ∧ r.originalIndex = m.rightStart + k ∧
      recordKey l = recordKey r

theorem le_runLength (l₀ r₀ : Record) (n : ℕ) (ls rs : List Record) :
    n ≤ runLength l₀ r₀ n ls rs := by
  fun_induction runLength l₀ r₀ n ls rs with
  | case1 n l ls r rs heq ih => exact (Nat.le_succ n).trans ih
  | case2 => exact le_rfl
  | case3 => exact le_rfl

/-- A run goes as far as equal records stand side by side in both rows. -/
theorem le_runLength_iff (l₀ r₀ : Record) (n : ℕ) (ls rs : List Record) {m : ℕ} (hm : n ≤ m) :
    m ≤ runLength l₀ r₀ n ls rs ↔ ∀ k, n ≤ k → k < m → ∃ l r, ls[k - n]? = some l ∧
      rs[k - n]? = some r ∧ l.originalIndex = l₀.originalIndex + k ∧
        r.originalIndex = r₀.originalIndex + k ∧ recordKey l = recordKey r := by
  fun_induction runLength l₀ r₀ n ls rs with
  | case1 n l ls r rs heq ih =>
      obtain rfl | hlt := hm.eq_or_lt
      · exact iff_of_true ((Nat.le_succ _).trans (le_runLength l₀ r₀ _ ls rs))
          fun k hk hlt => absurd hlt (not_lt.mpr hk)
      · rw [ih hlt]
        constructor
        · intro h k hk hkm
          obtain rfl | hkn := hk.eq_or_lt
          · exact ⟨l, r, by rw [Nat.sub_self]; rfl, by rw [Nat.sub_self]; rfl, heq⟩
          · rw [show k - n = k - (n + 1) + 1 by omega]
            exact h k hkn hkm
        · intro h k hk hkm
          have := h k (by omega) hkm
          rwa [show k - n = k - (n + 1) + 1 by omega] at this
  | case2 n l ls r rs hne =>
      refine ⟨fun hle k hk hkm => by omega, fun h => ?_⟩
      by_contra hlt
      obtain ⟨l', r', hl, hr, heq⟩ := h n le_rfl (by omega)
      rw [Nat.sub_self] at hl hr
      cases hl
      cases hr
      exact hne heq
  | case3 ls n rs hempty =>
      refine ⟨fun hle k hk hkm => by omega, fun h => ?_⟩
      by_contra hlt
      obtain ⟨l, r, hl, hr, -⟩ := h n le_rfl (by omega)
      rw [Nat.sub_self] at hl hr
      cases ls with
      | nil => cases hl
      | cons l' ls' =>
          cases rs with
          | nil => cases hr
          | cons r' rs' => exact hempty l' ls' r' rs' rfl rfl

/-- The records of a run, by their places. -/
theorem runLength_get (l₀ r₀ : Record) {n k : ℕ} {ls rs : List Record} (hk : n ≤ k)
    (hlt : k < runLength l₀ r₀ n ls rs) : ∃ l r, ls[k - n]? = some l ∧ rs[k - n]? = some r ∧
      l.originalIndex = l₀.originalIndex + k ∧ r.originalIndex = r₀.originalIndex + k ∧
        recordKey l = recordKey r :=
  (le_runLength_iff l₀ r₀ n ls rs (le_runLength l₀ r₀ n ls rs)).mp le_rfl k hk hlt

theorem run_tryPair {left right : List Record} {l r : Record × ℕ} {st : MatchSearch}
    (hl : l.1 ∈ left) (hr : r.1 ∈ right) (heq : recordKey r.1 = recordKey l.1)
    (h : ∀ m, st.best = some m → Run left right m) :
    ∀ m, (st.tryPair left right l r).best = some m → Run left right m := by
  intro m hm
  unfold MatchSearch.tryPair at hm
  split_ifs at hm with hcov
  · exact h m hm
  · have hle := le_runLength l.1 r.1 1 (left.drop (l.2 + 1)) (right.drop (r.2 + 1))
    have hcandidate (covered : ℕ) : Run left right ⟨l.1.originalIndex, r.1.originalIndex,
        runLength l.1 r.1 1 (left.drop (l.2 + 1)) (right.drop (r.2 + 1)), covered⟩ := by
      refine ⟨by simp only; omega, fun k hk => ?_⟩
      by_cases hzero : k = 0
      · subst hzero
        exact ⟨l.1, hl, r.1, hr, rfl, rfl, heq.symm⟩
      · obtain ⟨l', r', hl', hr', hrest⟩ := runLength_get l.1 r.1 (by omega) hk
        exact ⟨l', List.mem_of_mem_drop (List.mem_of_getElem? hl'), r',
          List.mem_of_mem_drop (List.mem_of_getElem? hr'), hrest⟩
    simp only at hm
    split at hm
    · cases hm
      exact hcandidate _
    · rename_i current hbest
      split_ifs at hm
      · cases hm
        exact hcandidate _
      · cases hm
        exact h _ hbest

/-- The search finds a common run. -/
theorem findMatch_run {left right : List Record} {m : Match} (h : findMatch left right = some m) :
    Run left right m := by
  let sound (st : MatchSearch) : Prop := ∀ m, st.best = some m → Run left right m
  have hsound : sound (left.zipIdx.foldl (fun st l =>
      (right.zipIdx.filter fun r => recordKey r.1 = recordKey l.1).foldl
        (MatchSearch.tryPair left right l) st) ⟨none, []⟩) := by
    refine List.foldlRecOn (motive := sound) _ _ ?_ ?_
    · intro m h
      cases h
    · intro st hst l hl
      have hleft : l.1 ∈ left := (List.mem_zipIdx' hl).2 ▸ List.getElem_mem _
      refine List.foldlRecOn (motive := sound) _ _ hst ?_
      intro st' hst' r hr
      rw [List.mem_filter, decide_eq_true_eq] at hr
      have hright : r.1 ∈ right := (List.mem_zipIdx' hr.1).2 ▸ List.getElem_mem _
      exact run_tryPair hleft hright hr.2 hst'
  exact hsound m h

/-! ## Splits of an encoding -/

section Split

variable {E : ReferenceEncoding} {t : Text} {p i s e : ℕ}

/-- Position `p` splits the encoding of the text. -/
def SplitsAt (E : ReferenceEncoding) (t : Text) (p : ℕ) : Prop :=
  E.encode t = (E.encode (t.take p)).append ((E.encode (t.drop p)).shift p)

/-- The number of tokens before a position that splits. -/
def tokensBefore (E : ReferenceEncoding) (t : Text) (p : ℕ) : ℕ := (E.encode (t.take p)).ids.length

theorem SplitsAt.ids_take (h : SplitsAt E t p) :
    (E.encode t).ids.take (tokensBefore E t p) = (E.encode (t.take p)).ids := by
  rw [h, Encoding.ids_append, tokensBefore, List.take_left' rfl]

theorem SplitsAt.ids_drop (h : SplitsAt E t p) :
    (E.encode t).ids.drop (tokensBefore E t p) = (E.encode (t.drop p)).ids := by
  rw [h, Encoding.ids_append, tokensBefore, List.drop_left' rfl, Encoding.ids_shift]

theorem SplitsAt.spans_take (h : SplitsAt E t p) :
    (E.encode t).spans.take (tokensBefore E t p) = (E.encode (t.take p)).spans := by
  rw [h, Encoding.spans_append, tokensBefore, E.aligned, List.take_left' rfl]

theorem SplitsAt.spans_drop (h : SplitsAt E t p) :
    (E.encode t).spans.drop (tokensBefore E t p) =
      (E.encode (t.drop p)).spans.map fun s => (s.1 + p, s.2 + p) := by
  rw [h, Encoding.spans_append, tokensBefore, E.aligned, List.drop_left' rfl, Encoding.spans_shift]

/-- A token that begins before a split is before it. -/
theorem SplitsAt.lt_of_start_lt (h : SplitsAt E t p) (hi : (E.encode t).spans[i]? = some (s, e))
    (hs : s < p) : i < tokensBefore E t p := by
  by_contra hle
  have hrest : (E.encode t).spans.drop (tokensBefore E t p) |>.contains (s, e) := by
    rw [List.contains_iff_mem, List.mem_iff_getElem?]
    refine ⟨i - tokensBefore E t p, ?_⟩
    rw [List.getElem?_drop, ← hi]
    congr 1
    omega
  rw [h.spans_drop, List.contains_iff_mem, List.mem_map] at hrest
  obtain ⟨s', -, heq⟩ := hrest
  have := congrArg Prod.fst heq
  simp only at this
  omega

/-- A token that ends behind a split is behind it. -/
theorem SplitsAt.le_of_lt_end (h : SplitsAt E t p) (hi : (E.encode t).spans[i]? = some (s, e))
    (he : p < e) : tokensBefore E t p ≤ i := by
  by_contra hlt
  have hfront : (s, e) ∈ (E.encode (t.take p)).spans := by
    rw [← h.spans_take, List.mem_iff_getElem?]
    exact ⟨i, by rw [List.getElem?_take_of_lt (by omega), hi]⟩
  have hwithin := (E.within (t.take p) (s, e) hfront).2
  rw [List.length_take] at hwithin
  simp only at hwithin
  omega

/-- A split between two neighbouring tokens that begin before it and at it. -/
theorem SplitsAt.tokensBefore_eq (h : SplitsAt E t p) {s' e' : ℕ}
    (hi : (E.encode t).spans[i]? = some (s, e)) (hs : s < p)
    (hi' : (E.encode t).spans[i + 1]? = some (s', e')) (he' : p < e') :
    tokensBefore E t p = i + 1 := by
  have hlt := h.lt_of_start_lt hi hs
  have hle := h.le_of_lt_end hi' he'
  omega

end Split

/-! ## The join -/

/-- Two rows that agree on a stretch may be joined on either side of it. -/
theorem take_append_drop_eq {α : Type} {xs ys : List α} {i j n : ℕ}
    (h : ∀ k < n, xs[i + k]? = ys[j + k]?) :
    xs.take i ++ ys.drop j = xs.take (i + n) ++ ys.drop (j + n) := by
  have hmid : (xs.drop i).take n = (ys.drop j).take n := by
    apply List.ext_getElem?
    intro k
    by_cases hk : k < n
    · rw [List.getElem?_take_of_lt hk, List.getElem?_take_of_lt hk, List.getElem?_drop,
        List.getElem?_drop, h k hk]
    · rw [List.getElem?_take_eq_none (by omega), List.getElem?_take_eq_none (by omega)]
  calc xs.take i ++ ys.drop j = xs.take i ++ ((ys.drop j).take n ++ (ys.drop j).drop n) := by
        rw [List.take_append_drop]
    _ = xs.take i ++ (xs.drop i).take n ++ ys.drop (j + n) := by
        rw [hmid, List.drop_drop, List.append_assoc]
    _ = xs.take (i + n) ++ ys.drop (j + n) := by rw [← List.take_add]

/-- What a run says of a token of the old row and of its partner in the window's row. -/
theorem Run.token {left right : List Record} {m : Match} (h : Run left right m)
    {ids ids' : List UInt32} {spans spans' : List (ℕ × ℕ)}
    (hleft : buildRecords ids spans 0 overlapStart overlapEnd = .ok left)
    (hright : buildRecords ids' spans' base overlapStart overlapEnd = .ok right) :
    ∀ k < m.length, ∃ id s e, ids[m.leftStart + k]? = some id ∧
      spans[m.leftStart + k]? = some (base + s, base + e) ∧ ids'[m.rightStart + k]? = some id ∧
      spans'[m.rightStart + k]? = some (s, e) ∧ s ≠ e ∧ base + e ≤ overlapEnd := by
  intro k hk
  obtain ⟨l, hl, r, hr, hli, hri, hkey⟩ := h.pairs k hk
  have hL := buildRecords_ok hleft l hl
  have hR := buildRecords_ok hright r hr
  obtain ⟨s, e, hspan, hs, he⟩ := hL.span
  obtain ⟨s', e', hspan', hs', he'⟩ := hR.span
  simp only [recordKey, Prod.mk.injEq] at hkey
  obtain ⟨hstart, hend, -, hid⟩ := hkey
  have hproper := hR.proper
  have hle := hR.le_end
  refine ⟨l.tokenId, s', e', ?_, ?_, ?_, ?_, by omega, by omega⟩
  · rw [← hli]
    exact hL.id
  · rw [← hli, hspan]
    have hse : s = base + s' ∧ e = base + e' := by omega
    rw [hse.1, hse.2]
  · rw [← hri, hid]
    exact hR.id
  · rw [← hri]
    exact hspan'

/-- The tail has the ids and spans of its text. -/
def Holds (E : ReferenceEncoding) (tail : TailState) : Prop :=
  tail.ids = (E.encode tail.text).ids ∧ tail.spans = (E.encode tail.text).spans

/-- The run has a clean boundary: two of its tokens begin before it and at it, the predicate
accepts it, and it is inside no added-token literal. -/
def CleanWitness (b : BpeSyncBoundary) (literals : List Text) (matched : Match)
    (spans : List (ℕ × ℕ)) (text : Text) : Prop :=
  ∃ k previous next, k + 1 < matched.length ∧ spans[matched.leftStart + k]? = some previous ∧
    spans[matched.leftStart + k + 1]? = some next ∧ previous.1 < next.1 ∧
    b.AcceptsAt text next.1 ∧ ¬Inside literals text next.1

section Join

variable {eng : FastCpuEngine} {E : ReferenceEncoding} {literals : List Text} {tail : TailState}
  {delta : Text} {start : ℕ} {m : Match}

/-- A usable run is a run of the tokens in the overlap. -/
theorem usableMatch_some {full : Text} {window : Encoding}
    (h : eng.usableMatch tail full start window = .ok (some m)) :
    ∃ left right, buildRecords tail.ids tail.spans 0 (start + eng.spec.margin) tail.textChars =
        .ok left ∧
      buildRecords window.ids window.spans start (start + eng.spec.margin) tail.textChars =
        .ok right ∧
      findMatch left right = some m := by
  unfold FastCpuEngine.usableMatch at h
  cases hleft : buildRecords tail.ids tail.spans 0 (start + eng.spec.margin) tail.textChars with
  | error e =>
      simp only [hleft, bind, Except.bind] at h
      cases h
  | ok left =>
      cases hright : buildRecords window.ids window.spans start (start + eng.spec.margin)
          tail.textChars with
      | error e =>
          simp only [hleft, hright, bind, Except.bind] at h
          cases h
      | ok right =>
          simp only [hleft, hright, bind, Except.bind] at h
          refine ⟨left, right, rfl, rfl, ?_⟩
          split at h
          · cases h
          · rename_i matched hfound
            split_ifs at h
            · cases h
              exact hfound
            · cases h

/-- A run with a clean boundary joins the old tokens and the window's to those of the text. -/
theorem join_exact (hsplit : SyncSplit eng.boundary literals E) (htail : Holds E tail)
    (hrun : eng.usableMatch tail (tail.text ++ delta) start
      (E.encode ((tail.text ++ delta).drop start)) = .ok (some m))
    (hclean : CleanWitness eng.boundary literals m tail.spans (tail.text ++ delta)) :
    FastCpuEngine.join tail (E.encode ((tail.text ++ delta).drop start)) start m =
      E.encode (tail.text ++ delta) := by
  obtain ⟨k, previous, next, hk, hprevious, hnext, hlt, haccepts, hinside⟩ := hclean
  generalize hfull : tail.text ++ delta = full at *
  -- the tokens of the run, on both sides
  have htokens : ∀ j < m.length, ∃ id s e, tail.ids[m.leftStart + j]? = some id ∧
      tail.spans[m.leftStart + j]? = some (start + s, start + e) ∧
      (E.encode (full.drop start)).ids[m.rightStart + j]? = some id ∧
      (E.encode (full.drop start)).spans[m.rightStart + j]? = some (s, e) ∧ s ≠ e ∧
      start + e ≤ tail.textChars := by
    obtain ⟨left, right, hleft, hright, hfound⟩ := usableMatch_some hrun
    exact (findMatch_run hfound).token hleft hright
  obtain ⟨_, s, e, -, hs, -, hs', -⟩ := htokens k (by omega)
  obtain ⟨_, s₁, e₁, -, hs₁, -, hs₁', hne, hle⟩ := htokens (k + 1) hk
  rw [hprevious] at hs
  rw [← Nat.add_assoc, hnext] at hs₁
  cases hs
  cases hs₁
  simp only at hlt haccepts hinside
  have hwindow : (start + s₁, start + e₁) ∈ (E.encode tail.text).spans := by
    rw [← htail.2]
    exact List.mem_of_getElem? hnext
  have hordered := (E.within _ _ hwindow).1
  simp only at hordered
  have hold : start + s₁ < tail.text.length := by
    unfold TailState.textChars at hle
    omega
  -- the boundary splits all three encodings
  have hsplitFull : SplitsAt E full (start + s₁) := hsplit _ _ haccepts hinside
  have hsplitOld : SplitsAt E tail.text (start + s₁) := by
    rw [← hfull] at haccepts hinside
    exact hsplit _ _ (haccepts.of_append hold) fun hin => hinside hin.append_right
  have hsplitWindow : SplitsAt E (full.drop start) s₁ :=
    hsplit _ _ (haccepts.drop (by omega)) fun hin => hinside hin.of_drop
  have hbeforeOld : tokensBefore E tail.text (start + s₁) = m.leftStart + k + 1 := by
    rw [htail.2] at hprevious hnext
    exact hsplitOld.tokensBefore_eq hprevious (by omega) hnext (by omega)
  have hbeforeWindow : tokensBefore E (full.drop start) s₁ = m.rightStart + k + 1 :=
    hsplitWindow.tokensBefore_eq hs' (by omega) hs₁' (by omega)
  have hfront : full.take (start + s₁) = tail.text.take (start + s₁) := by
    rw [← hfull, List.take_append_of_le_length hold.le]
  have hback : full.drop (start + s₁) = (full.drop start).drop s₁ := by rw [List.drop_drop]
  have hlength : m.leftStart + m.length = m.leftStart + k + 1 + (m.length - k - 1) := by omega
  have hlength' : m.rightStart + m.length = m.rightStart + k + 1 + (m.length - k - 1) := by omega
  -- from the boundary to the end of the run the two rows agree
  have hids : (FastCpuEngine.join tail (E.encode (full.drop start)) start m).ids =
      (E.encode full).ids := by
    show tail.ids.take _ ++ (E.encode (full.drop start)).ids.drop _ = _
    rw [hlength, hlength', ← take_append_drop_eq, htail.1, ← hbeforeOld, ← hbeforeWindow,
      hsplitOld.ids_take, hsplitWindow.ids_drop, ← hfront, ← hback]
    · conv_rhs => rw [hsplitFull]
      rfl
    · intro j hj
      obtain ⟨id, _, _, hid, -, hid', -⟩ := htokens (k + 1 + j) (by omega)
      rw [show m.leftStart + k + 1 + j = m.leftStart + (k + 1 + j) by omega,
        show m.rightStart + k + 1 + j = m.rightStart + (k + 1 + j) by omega, hid, hid']
  have hspans : (FastCpuEngine.join tail (E.encode (full.drop start)) start m).spans =
      (E.encode full).spans := by
    show tail.spans.take _ ++ ((E.encode (full.drop start)).spans.drop _).map
      (fun s => (s.1 + start, s.2 + start)) = _
    rw [hlength, hlength', List.map_drop, ← take_append_drop_eq, htail.2, ← hbeforeOld,
      ← hbeforeWindow, hsplitOld.spans_take, ← List.map_drop, hsplitWindow.spans_drop,
      List.map_map, ← hfront, ← hback]
    · conv_rhs => rw [hsplitFull]
      rw [Encoding.spans_append, Encoding.spans_shift]
      congr 1
      apply List.map_congr_left
      intro span _
      simp only [Function.comp_apply, Prod.mk.injEq]
      omega
    · intro j hj
      obtain ⟨_, s₂, e₂, -, hspan, -, hspan', -⟩ := htokens (k + 1 + j) (by omega)
      rw [show m.leftStart + k + 1 + j = m.leftStart + (k + 1 + j) by omega,
        show m.rightStart + k + 1 + j = m.rightStart + (k + 1 + j) by omega, hspan,
        List.getElem?_map, hspan']
      simp only [Option.map_some, Option.some.injEq, Prod.mk.injEq]
      omega
  exact congrArg₂ Encoding.mk hids hspans

/-- A usable run ends within the old tokens. -/
theorem usableMatch_le {full : Text} {window : Encoding}
    (h : eng.usableMatch tail full start window = .ok (some m)) :
    m.leftStart + m.length ≤ tail.nTokens := by
  obtain ⟨left, right, hleft, hright, hfound⟩ := usableMatch_some h
  have hrun := findMatch_run hfound
  have hpos := hrun.length_pos
  obtain ⟨id, _, _, hid, -⟩ := hrun.token hleft hright (m.length - 1) (by omega)
  have hlt := (List.getElem?_eq_some_iff.mp hid).1
  unfold TailState.nTokens
  omega

/-- A fill holds the text and the encoding it was given. -/
theorem fill_ok {text : Text} {encoding : Encoding} {tail : TailState}
    (h : FastCpuEngine.fill text encoding = .ok tail) :
    tail.text = text ∧ tail.ids = encoding.ids ∧ tail.spans = encoding.spans := by
  unfold FastCpuEngine.fill at h
  cases hfill : TailState.fill text encoding with
  | error e =>
      rw [hfill] at h
      cases h
  | ok filled =>
      rw [hfill] at h
      cases h
      obtain ⟨htext, hids, hstarts, hends⟩ := TailState.fill_ok hfill
      refine ⟨htext, hids, ?_⟩
      rw [TailState.spans, hstarts, hends]
      exact (List.zip_of_prod rfl rfl).symm

end Join

/-! ## The append -/

/-- The tail an append leaves has the ids and spans of the longer text, and the tokens it
reports as kept are the old ones. -/
structure ExactAppend (E : ReferenceEncoding) (tail : TailState) (delta : Text)
    (out : FastCpuEngine.Appended) : Prop where
  text : out.tail.text = tail.text ++ delta
  holds : Holds E out.tail
  kept_le : out.report.keptTokens ≤ tail.nTokens
  ids : out.tail.ids.take out.report.keptTokens = tail.ids.take out.report.keptTokens
  spans : out.tail.spans.take out.report.keptTokens = tail.spans.take out.report.keptTokens

namespace FastCpuEngine

/-- The run that the append joins at, if it comes to that, has a clean boundary. -/
def JoinsClean (eng : FastCpuEngine) (literals : List Text) (tail : TailState) (full : Text)
    (retries window : ℕ) : Prop :=
  window < tail.textChars →
    ∀ encoded, eng.windowEncoding (full.drop (tail.textChars - window)) = .ok encoded →
      match eng.usableMatch tail full (tail.textChars - window) encoded with
      | .error _ => True
      | .ok (some matched) => CleanWitness eng.boundary literals matched tail.spans full
      | .ok none =>
          match retries with
          | 0 => True
          | retries + 1 => JoinsClean eng literals tail full retries (min (window * 2) (2 ^ 64 - 1))

end FastCpuEngine

section Append

variable {eng : FastCpuEngine} {E : ReferenceEncoding} {literals : List Text} {tail : TailState}
  {delta : Text} {out : FastCpuEngine.Appended}

theorem exact_fullReencode {path : String}
    (hreference : ∀ t encoded, eng.reference.encodeCore t = .ok encoded → encoded = E.encode t)
    (h : eng.fullReencode (tail.text ++ delta) path = .ok out) : ExactAppend E tail delta out := by
  obtain ⟨encoded, hencoded, h⟩ := bind_eq_ok.mp h
  obtain ⟨filled, hfilled, h⟩ := bind_eq_ok.mp h
  cases h
  obtain ⟨htext, hids, hspans⟩ := fill_ok hfilled
  have hE := hreference _ _ hencoded
  exact ⟨htext, ⟨by rw [hids, htext, hE], by rw [hspans, htext, hE]⟩, Nat.zero_le _, rfl, rfl⟩

theorem sliceChars_drop {text : Text} {start : ℕ} (h : start ≤ text.length) :
    sliceChars text start text.length = some (text.drop start) := by
  unfold sliceChars
  rw [if_neg (by omega), if_neg (lt_irrefl _), List.take_length]

theorem take_take_append {α : Type} {xs ys : List α} {n : ℕ} (h : n ≤ xs.length) :
    (xs.take n ++ ys).take n = xs.take n := by
  rw [List.take_append_of_le_length (by rw [List.length_take]; omega), List.take_take,
    Nat.min_self]

/-- A join at a clean boundary is exact. -/
theorem exact_join (hsplit : SyncSplit eng.boundary literals E) (htail : Holds E tail) {start : ℕ}
    {m : Match} {repairInputBytes : Option ℕ} {path : String}
    (hfound : eng.usableMatch tail (tail.text ++ delta) start
      (E.encode ((tail.text ++ delta).drop start)) = .ok (some m))
    (hclean : CleanWitness eng.boundary literals m tail.spans (tail.text ++ delta))
    {filled : TailState}
    (hfilled : FastCpuEngine.fill (tail.text ++ delta) (FastCpuEngine.join tail
      (E.encode ((tail.text ++ delta).drop start)) start m) = .ok filled) :
    ExactAppend E tail delta
      ⟨⟨path, m.leftStart + m.length⟩, filled, repairInputBytes⟩ := by
  have hle := usableMatch_le hfound
  obtain ⟨htext, hids, hspans⟩ := fill_ok hfilled
  refine ⟨htext, ⟨?_, ?_⟩, hle, ?_, ?_⟩
  · rw [hids, htext, join_exact hsplit htail hfound hclean]
  · rw [hspans, htext, join_exact hsplit htail hfound hclean]
  · rw [hids]
    exact take_take_append hle
  · have hle' : m.leftStart + m.length ≤ tail.spans.length := by
      rw [htail.2, ← E.aligned, ← htail.1]
      exact hle
    rw [hspans]
    exact take_take_append hle'

/-- One window, when the windows after it are exact. -/
theorem exact_window (hsplit : SyncSplit eng.boundary literals E)
    (hreference : ∀ t encoded, eng.reference.encodeCore t = .ok encoded → encoded = E.encode t)
    (hwindow : ∀ t encoded, eng.windowEncoding t = .ok encoded → encoded = E.encode t)
    (htail : Holds E tail) (retries window : ℕ)
    (hnext : ∀ r w, retries = r + 1 → eng.JoinsClean literals tail (tail.text ++ delta) r w →
      eng.repairLoop tail (tail.text ++ delta) r w = .ok out → ExactAppend E tail delta out)
    (hclean : eng.JoinsClean literals tail (tail.text ++ delta) retries window)
    (h : eng.repairLoop tail (tail.text ++ delta) retries window = .ok out) :
    ExactAppend E tail delta out := by
  rw [FastCpuEngine.repairLoop.eq_def] at h
  rw [FastCpuEngine.JoinsClean.eq_def] at hclean
  by_cases hlt : window < tail.textChars
  · have hle : tail.textChars - window ≤ (tail.text ++ delta).length := by
      rw [List.length_append]
      unfold TailState.textChars
      omega
    simp only [if_pos hlt, sliceChars_drop hle] at h
    cases hencoded : eng.windowEncoding ((tail.text ++ delta).drop (tail.textChars - window)) with
    | error e =>
        rw [hencoded] at h
        exact exact_fullReencode hreference h
    | ok encoded =>
        have hclean := hclean hlt encoded hencoded
        simp only [hencoded] at h
        obtain ⟨found, hfound, h⟩ := bind_eq_ok.mp h
        rw [hfound] at hclean
        cases found with
        | some m =>
            obtain ⟨filled, hfilled, h⟩ := bind_eq_ok.mp h
            cases h
            have hE := hwindow _ _ hencoded
            rw [hE] at hfound hfilled
            exact exact_join hsplit htail hfound hclean hfilled
        | none =>
            cases retries with
            | zero => exact exact_fullReencode hreference h
            | succ retries => exact hnext retries _ rfl hclean h
  · rw [if_neg hlt] at h
    exact exact_fullReencode hreference h

theorem exact_repairLoop (hsplit : SyncSplit eng.boundary literals E)
    (hreference : ∀ t encoded, eng.reference.encodeCore t = .ok encoded → encoded = E.encode t)
    (hwindow : ∀ t encoded, eng.windowEncoding t = .ok encoded → encoded = E.encode t)
    (htail : Holds E tail) (retries window : ℕ)
    (hclean : eng.JoinsClean literals tail (tail.text ++ delta) retries window)
    (h : eng.repairLoop tail (tail.text ++ delta) retries window = .ok out) :
    ExactAppend E tail delta out := by
  induction retries generalizing window with
  | zero =>
      refine exact_window hsplit hreference hwindow htail 0 window ?_ hclean h
      intro r w hr
      cases hr
  | succ retries ih =>
      refine exact_window hsplit hreference hwindow htail (retries + 1) window ?_ hclean h
      intro r w hr
      cases hr
      exact ih w

/-- Whatever path an append takes, the tail it leaves is exact, as long as a run it joins at
has a clean boundary. -/
theorem repairAppend_exact (hsplit : SyncSplit eng.boundary literals E)
    (hreference : ∀ t encoded, eng.reference.encodeCore t = .ok encoded → encoded = E.encode t)
    (hwindow : ∀ t encoded, eng.windowEncoding t = .ok encoded → encoded = E.encode t)
    (htail : Holds E tail)
    (hclean : eng.JoinsClean literals tail (tail.text ++ delta) eng.spec.maxRetries
      eng.spec.windowChars)
    (h : eng.repairAppend tail delta = .ok out) : ExactAppend E tail delta out := by
  unfold FastCpuEngine.repairAppend at h
  by_cases hdelta : delta = []
  · rw [if_pos hdelta] at h
    cases h
    subst hdelta
    exact ⟨(List.append_nil _).symm, htail, le_rfl, rfl, rfl⟩
  · have haligned : tail.ids.length = tail.spans.length := by
      rw [htail.1, htail.2]
      exact E.aligned _
    simp only [if_neg hdelta, haligned, ne_eq, not_true_eq_false, if_false] at h
    exact exact_repairLoop hsplit hreference hwindow htail _ _ hclean h

end Append

/-! ## A character encoder with one added token -/

/-- Ids and lengths: one for each occurrence of the literal, from the left, and one for each
other character. -/
def charTokens (literal : Text) : ℕ → Text → List (UInt32 × ℕ)
  | 0, _ => []
  | _, [] => []
  | fuel + 1, c :: t =>
      if literal ≠ [] ∧ literal <+: c :: t then
        (0, literal.length) :: charTokens literal fuel ((c :: t).drop literal.length)
      else (c.val + 1, 1) :: charTokens literal fuel t

/-- The spans of tokens of these lengths, from character `start` on. -/
def spansOf : ℕ → List ℕ → List (ℕ × ℕ)
  | _, [] => []
  | start, n :: lengths => (start, start + n) :: spansOf (start + n) lengths

theorem length_spansOf (start : ℕ) (lengths : List ℕ) :
    (spansOf start lengths).length = lengths.length := by
  induction lengths generalizing start with
  | nil => rfl
  | cons n lengths ih => rw [spansOf, List.length_cons, ih, List.length_cons]

theorem spansOf_append (start : ℕ) (xs ys : List ℕ) :
    spansOf start (xs ++ ys) = spansOf start xs ++ spansOf (start + xs.sum) ys := by
  induction xs generalizing start with
  | nil => rfl
  | cons n xs ih => rw [List.cons_append, spansOf, ih, spansOf, List.cons_append, List.sum_cons,
      Nat.add_assoc]

theorem spansOf_add (start : ℕ) (lengths : List ℕ) :
    spansOf start lengths = (spansOf 0 lengths).map fun s => (s.1 + start, s.2 + start) := by
  suffices h : ∀ a, spansOf (a + start) lengths =
      (spansOf a lengths).map fun s => (s.1 + start, s.2 + start) by
    simpa using h 0
  intro a
  induction lengths generalizing a with
  | nil => rfl
  | cons n lengths ih =>
      rw [spansOf, spansOf, List.map_cons, Nat.add_right_comm, ih]

theorem spansWithin_spansOf (start : ℕ) (lengths : List ℕ) :
    SpansWithin (start + lengths.sum) (spansOf start lengths) := by
  induction lengths generalizing start with
  | nil =>
      intro s hs
      exact absurd hs List.not_mem_nil
  | cons n lengths ih =>
      intro s hs
      rw [List.sum_cons, ← Nat.add_assoc]
      rcases List.mem_cons.mp hs with rfl | hs
      · simp only
        omega
      · exact ih (start + n) s hs

section CharEncoding

variable (literal : Text)

theorem charTokens_fuel {n : ℕ} {t : Text} (h : t.length ≤ n) :
    charTokens literal (n + 1) t = charTokens literal n t := by
  induction n generalizing t with
  | zero =>
      rw [List.length_eq_zero_iff.mp (Nat.le_zero.mp h)]
      rfl
  | succ n ih =>
      cases t with
      | nil => rfl
      | cons c t =>
          rw [List.length_cons] at h
          rw [charTokens, charTokens]
          split_ifs with hl
          · have hpos := List.length_pos_iff.mpr hl.1
            rw [ih (by rw [List.length_drop, List.length_cons]; omega)]
          · rw [ih (by omega)]

theorem charTokens_of_le {n : ℕ} {t : Text} (h : t.length ≤ n) :
    charTokens literal n t = charTokens literal t.length t := by
  induction n with
  | zero =>
      rw [List.length_eq_zero_iff.mp (Nat.le_zero.mp h)]
      rfl
  | succ n ih =>
      by_cases heq : t.length = n + 1
      · rw [heq]
      · rw [charTokens_fuel literal (by omega), ih (by omega)]

theorem sum_charTokens {n : ℕ} {t : Text} (h : t.length ≤ n) :
    ((charTokens literal n t).map Prod.snd).sum = t.length := by
  induction n generalizing t with
  | zero =>
      rw [List.length_eq_zero_iff.mp (Nat.le_zero.mp h)]
      rfl
  | succ n ih =>
      cases t with
      | nil => rfl
      | cons c t =>
          rw [List.length_cons] at h
          rw [charTokens]
          split_ifs with hl
          · have hpos := List.length_pos_iff.mpr hl.1
            have hle := hl.2.length_le
            rw [List.map_cons, List.sum_cons, ih (by rw [List.length_drop, List.length_cons]; omega),
              List.length_drop]
            simp only
            omega
          · rw [List.map_cons, List.sum_cons, ih (by omega), List.length_cons, Nat.add_comm]

/-- A position that cuts no occurrence of the literal splits the row. -/
theorem charTokens_split {n p : ℕ} {t : Text} (h : t.length ≤ n) (hp : ¬Inside [literal] t p) :
    charTokens literal n t =
      charTokens literal n (t.take p) ++ charTokens literal n (t.drop p) := by
  induction n generalizing t p with
  | zero => rfl
  | succ n ih =>
      cases t with
      | nil =>
          rw [List.take_nil, List.drop_nil]
          rfl
      | cons c t =>
          rw [List.length_cons] at h
          cases p with
          | zero => rfl
          | succ p =>
              have hdrop : (t.drop p).length ≤ n := by
                rw [List.length_drop]
                omega
              rw [List.take_succ_cons, List.drop_succ_cons, charTokens_fuel literal hdrop,
                charTokens, charTokens]
              by_cases hl : literal ≠ [] ∧ literal <+: c :: t
              · have hpos := List.length_pos_iff.mpr hl.1
                have hlp : literal.length ≤ p + 1 := by
                  by_contra hlong
                  exact hp ⟨literal, List.mem_singleton_self _, 0, hl.2, by omega, by omega⟩
                have htake : literal <+: c :: t.take p := by
                  rw [← List.take_succ_cons, List.prefix_take_iff]
                  exact ⟨hl.2, hlp⟩
                rw [if_pos hl, if_pos ⟨hl.1, htake⟩, List.cons_append,
                  ih (p := p + 1 - literal.length)
                    (by rw [List.length_drop, List.length_cons]; omega)]
                · rw [← List.take_succ_cons, List.drop_take, List.drop_drop,
                    Nat.add_sub_cancel' hlp, List.drop_succ_cons]
                · intro hin
                  have := hin.of_drop
                  rw [Nat.add_sub_cancel' hlp] at this
                  exact hp this
              · have htake : ¬(literal ≠ [] ∧ literal <+: c :: t.take p) := by
                  rintro ⟨hne, hpre⟩
                  rw [← List.take_succ_cons] at hpre
                  exact hl ⟨hne, hpre.trans (List.take_prefix _ _)⟩
                rw [if_neg hl, if_neg htake, List.cons_append, ih (by omega)]
                intro hin
                have hin' : Inside [literal] ((c :: t).drop 1) p := hin
                have := hin'.of_drop
                rw [Nat.add_comm] at this
                exact hp this

/-- Encode character by character, with the literal as one added token. -/
def charEncoding : ReferenceEncoding where
  encode t := ⟨(charTokens literal t.length t).map Prod.fst,
    spansOf 0 ((charTokens literal t.length t).map Prod.snd)⟩
  aligned t := by rw [length_spansOf, List.length_map, List.length_map]
  within t := by
    have h := spansWithin_spansOf 0 ((charTokens literal t.length t).map Prod.snd)
    rwa [sum_charTokens literal le_rfl, Nat.zero_add] at h

theorem syncSplit_charEncoding (b : BpeSyncBoundary) : SyncSplit b [literal] (charEncoding literal) := by
  intro t p haccepts hinside
  have hlt := haccepts.lt_length
  have hsplit := charTokens_split literal le_rfl hinside
  have htake : (t.take p).length ≤ t.length := List.length_take_le' _ _
  have hdrop : (t.drop p).length ≤ t.length := by
    rw [List.length_drop]
    omega
  rw [charTokens_of_le literal htake, charTokens_of_le literal hdrop] at hsplit
  have hsum : ((charTokens literal (t.take p).length (t.take p)).map Prod.snd).sum = p := by
    rw [sum_charTokens literal le_rfl, List.length_take]
    omega
  simp only [charEncoding, Encoding.append, Encoding.shift]
  rw [hsplit, List.map_append, List.map_append, spansOf_append, hsum, Nat.zero_add,
    spansOf_add p]

end CharEncoding

/-- A tail that has the encoding of its text. -/
def exactTail (E : ReferenceEncoding) (t : Text) (h : t.length < 2 ^ 32) : TailState where
  text := t
  tailIds := .Owned (E.encode t).ids
  spanStarts := (E.encode t).spans.map Prod.fst
  spanEnds := (E.encode t).spans.map Prod.snd
  chars_lt := h
  starts_length := by
    rw [List.length_map, ← E.aligned]
    rfl
  ends_length := by
    rw [List.length_map, ← E.aligned]
    rfl
  spans_within := by
    have hzip : (E.encode t).spans = _ := List.zip_of_prod rfl rfl
    rw [← hzip]
    exact E.within t

theorem holds_exactTail (E : ReferenceEncoding) (t : Text) (h : t.length < 2 ^ 32) :
    Holds E (exactTail E t h) :=
  ⟨rfl, (List.zip_of_prod rfl rfl).symm⟩

/-- Letters and blanks; the classes of other characters do not matter here. -/
def lettersAndBlanks : BpeSyncBoundary := ⟨fun c => if c = ' ' then .S else .L⟩

/-- An engine over the character encoder; its accelerated encoder knows one window only. -/
def windowEngine (literal window : Text) : FastCpuEngine where
  spec := ⟨0, 1, false, 4, 5, 2⟩
  reference := ⟨fun t => .ok ((charEncoding literal).encode t), .ok, .ok (7 :: List.replicate 127 1)⟩
  boundary := lettersAndBlanks
  gigatoken t := if t = window then ((charEncoding literal).encode t).ids else []

theorem windowEngine_reference (literal window : Text) (t : Text) (encoded : Encoding)
    (h : (windowEngine literal window).reference.encodeCore t = .ok encoded) :
    encoded = (charEncoding literal).encode t := by
  cases h
  rfl

theorem windowEngine_window {literal window : Text}
    (hw : (windowEngine literal window).windowEncoding window =
      .ok ((charEncoding literal).encode window)) (t : Text) (encoded : Encoding)
    (h : (windowEngine literal window).windowEncoding t = .ok encoded) :
    encoded = (charEncoding literal).encode t := by
  by_cases ht : t = window
  · rw [ht, hw] at h
    cases h
    rw [ht]
  · obtain ⟨_, -, h⟩ := bind_eq_ok.mp h
    obtain ⟨_, -, h⟩ := bind_eq_ok.mp h
    obtain ⟨spans, hspans, h⟩ := bind_eq_ok.mp h
    simp only [windowEngine, if_neg ht, spansFromIds, if_true] at hspans h
    split_ifs at hspans with hnil
    · cases hspans
      cases h
      rw [hnil]
      rfl

/-- The blank between two letters of the window is a clean boundary. -/
theorem repairAppend_exact_letters :
    ∃ out, (windowEngine [] "b c d".toList).repairAppend
        (exactTail (charEncoding []) "a b c ".toList (by decide)) "d".toList = .ok out ∧
      out.report.path = "gigatoken_repair" ∧
      ExactAppend (charEncoding []) (exactTail (charEncoding []) "a b c ".toList (by decide))
        "d".toList out := by
  let eng := windowEngine [] "b c d".toList
  let tail := exactTail (charEncoding []) "a b c ".toList (by decide)
  have hw : eng.windowEncoding "b c d".toList = .ok ((charEncoding []).encode "b c d".toList) := by
    decide +kernel
  have hfound : eng.usableMatch tail "a b c d".toList 2 ((charEncoding []).encode "b c d".toList) =
      .ok (some ⟨2, 0, 4, 4⟩) := by decide +kernel
  have hclean : eng.JoinsClean [[]] tail "a b c d".toList eng.spec.maxRetries
      eng.spec.windowChars := by
    rw [FastCpuEngine.JoinsClean.eq_def]
    intro _ encoded hencoded
    have hencoded : eng.windowEncoding "b c d".toList = .ok encoded := hencoded
    rw [hw] at hencoded
    cases hencoded
    have hfound : eng.usableMatch tail "a b c d".toList (tail.textChars - eng.spec.windowChars)
        ((charEncoding []).encode "b c d".toList) = .ok (some ⟨2, 0, 4, 4⟩) := hfound
    rw [hfound]
    refine ⟨0, (2, 3), (3, 4), by decide, by decide +kernel, by decide +kernel, by decide,
      ⟨'b', ' ', by decide, by decide, by decide, by decide⟩, ?_⟩
    rintro ⟨w, hw, a, -, ha, hp⟩
    rw [List.mem_singleton.mp hw, List.length_nil] at hp
    omega
  obtain ⟨out, hout, hpath⟩ := exists_ok_of_any
    (x := eng.repairAppend tail "d".toList) (p := fun out => out.report.path == "gigatoken_repair")
    (by decide +kernel)
  refine ⟨out, hout, by simpa using hpath, ?_⟩
  exact repairAppend_exact (syncSplit_charEncoding [] _) (windowEngine_reference [] _)
    (windowEngine_window hw) (holds_exactTail _ _ _) hclean hout

/-- An added token that begins before the window and ends in the new text: neither the old
encoding nor the window's has it. -/
theorem repairAppend_literal :
    ∃ (eng : FastCpuEngine) (E : ReferenceEncoding) (literals : List Text) (tail : TailState)
      (delta : Text) (out : FastCpuEngine.Appended),
      SyncSplit eng.boundary literals E ∧
      (∀ t encoded, eng.reference.encodeCore t = .ok encoded → encoded = E.encode t) ∧
      (∀ t encoded, eng.windowEncoding t = .ok encoded → encoded = E.encode t) ∧
      Holds E tail ∧ eng.repairAppend tail delta = .ok out ∧
      out.tail.ids ≠ (E.encode (tail.text ++ delta)).ids := by
  let eng := windowEngine "a b c d".toList "b c d".toList
  let E := charEncoding "a b c d".toList
  let tail := exactTail E "a b c ".toList (by decide)
  have hw : eng.windowEncoding "b c d".toList = .ok (E.encode "b c d".toList) := by decide +kernel
  obtain ⟨out, hout, hids⟩ := exists_ok_of_any (x := eng.repairAppend tail "d".toList)
    (p := fun out => decide (out.tail.ids ≠ (E.encode "a b c d".toList).ids)) (by decide +kernel)
  exact ⟨eng, E, ["a b c d".toList], tail, "d".toList, out, syncSplit_charEncoding _ _,
    windowEngine_reference _ _, windowEngine_window hw, holds_exactTail _ _ _, hout,
    of_decide_eq_true hids⟩

end Toktier.Routing
