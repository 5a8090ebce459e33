import Toktier.Chunked.GuardLaws

/-!
# The two planners agree

The Rust planner reads windows of the UTF-8 text, the Python planner the text itself. Around a
scan range the window is wide enough for everything the guard and the normalization rule read,
so both ask the normalizer the same questions in the same order, count the same rejects and
choose the same cuts. The two then differ in their machine arithmetic only.

## Main results

* `accepts_windowOf`, `scan_windowOf`: the rule and the scan answer as over the whole text.
* `agree_cutAt`: one target of the plan.
* `planCounted_eq`: the plan, up to the arithmetic of the floor and of the targets.
-/
namespace Toktier.Chunked

open Toktier.Lib Toktier.StoreCore Toktier.Routing

/-! ## Predicate -/

theorem pairOk_eq (b : BpeSyncBoundary) (previous current : Char) :
    Py.pairOk b.classes previous current = b.accepts previous current := by
  unfold Py.pairOk BpeSyncBoundary.accepts
  generalize b.classes previous = left
  generalize b.classes current = right
  generalize (current == '\r') = cr
  generalize (current == '\n') = lf
  generalize (current == '\'') = apostrophe
  cases left <;> cases right <;> cases cr <;> cases lf <;> cases apostrophe <;> rfl

/-! ## Normalization rule -/

section
variable {b : BpeSyncBoundary} {reference : ReferenceEngine} {literals : List Text}
  {t : Text} {lo hi position : ℕ}

/-- The rule of the Python planner that belongs to a rule of the Rust planner. -/
def pyRule (b : BpeSyncBoundary) (literals : List Text) (reference : ReferenceEngine) : Py.NfcRule :=
  ⟨b.classes, Py.LiteralGuard.new literals, reference.normalize⟩

theorem stable_eq (c : Char) :
    (pyRule b literals reference).stable c = NfcRule.stable ⟨reference⟩ b c := by
  unfold Py.NfcRule.stable NfcRule.stable
  rfl

theorem stableAt_windowOf (literals : List Text) {i : ℕ} (hlo : lo ≤ i) (hhi : i < hi) (ht : hi ≤ t.length) :
    NfcRule.stableAt ⟨reference⟩ b (windowOf t lo hi) i =
      (pyRule b literals reference).stableAt t i := by
  obtain ⟨c, hc⟩ : ∃ c, t[i]? = some c := ⟨t[i], List.getElem?_eq_getElem (by omega)⟩
  rw [NfcRule.stableAt, charAt_windowOf hlo hhi hc, Py.NfcRule.stableAt, getAt_of_some hc, ok_bind,
    ok_bind, stable_eq]

theorem allM_windowOf (literals : List Text) {i n : ℕ} (hlo : lo ≤ i) (hhi : i + n ≤ hi) (ht : hi ≤ t.length) :
    (List.range' i n).allM (NfcRule.stableAt ⟨reference⟩ b (windowOf t lo hi)) =
      checked (((t.drop i).take n).allM (pyRule b literals reference).stable) := by
  induction n generalizing i with
  | zero => rfl
  | succ n ih =>
      have hi' : i < t.length := by omega
      rw [List.range'_succ, List.drop_eq_getElem_cons hi', List.take_succ_cons, List.allM, List.allM,
        checked_bind, stableAt_windowOf literals hlo (by omega) ht,
        Py.NfcRule.stableAt, getAt_of_some (List.getElem?_eq_getElem hi'), ok_bind]
      congr 1
      funext stable
      cases stable
      · rfl
      · exact ih (by omega) (by omega)

theorem leftAnchor_windowOf (literals : List Text) {n floorIndex : ℕ} (hlo : lo ≤ floorIndex) (hhi : floorIndex + n < hi)
    (ht : hi ≤ t.length) :
    NfcRule.leftAnchor ⟨reference⟩ b (windowOf t lo hi) floorIndex n =
      (pyRule b literals reference).walkLeft t floorIndex (n + 1) := by
  induction n with
  | zero =>
      rw [NfcRule.leftAnchor, stableAt_windowOf literals hlo (by omega) ht,
        Py.NfcRule.walkLeft, Nat.add_zero]
      congr 1
      funext stable
      cases stable <;> rfl
  | succ n ih =>
      rw [NfcRule.leftAnchor, stableAt_windowOf literals (by omega) hhi ht,
        Py.NfcRule.walkLeft, ih (by omega)]

theorem rightAnchor_windowOf (literals : List Text) {n right : ℕ} (hlo : lo ≤ right) (hhi : right + n ≤ hi)
    (ht : hi ≤ t.length) :
    NfcRule.rightAnchor ⟨reference⟩ b (windowOf t lo hi) n right =
      (pyRule b literals reference).walkRight t n right := by
  induction n generalizing right with
  | zero => rfl
  | succ n ih =>
      rw [NfcRule.rightAnchor, stableAt_windowOf literals hlo (by omega) ht,
        Py.NfcRule.walkRight, ih (by omega) (by omega)]

/-- Where the walk to the left stops. -/
theorem walkLeft_eq_some {rule : Py.NfcRule} {n floorIndex left : ℕ}
    (h : rule.walkLeft t floorIndex n = .ok (some left)) :
    floorIndex ≤ left ∧ left < floorIndex + n ∧ rule.stableAt t left = .ok true := by
  induction n with
  | zero => cases h
  | succ n ih =>
      rw [Py.NfcRule.walkLeft, bind_eq_ok] at h
      obtain ⟨stable, hstable, h⟩ := h
      cases stable with
      | false =>
          obtain ⟨h1, h2, h3⟩ := ih h
          exact ⟨h1, by omega, h3⟩
      | true =>
          cases h
          exact ⟨by omega, by omega, hstable⟩

/-- Where the walk to the right stops. -/
theorem walkRight_eq_ok {rule : Py.NfcRule} {n right stop : ℕ}
    (h : rule.walkRight t n right = .ok stop) :
    right ≤ stop ∧ stop ≤ right + n ∧ (stop < right + n → rule.stableAt t stop = .ok true) := by
  induction n generalizing right with
  | zero =>
      cases h
      exact ⟨le_rfl, le_rfl, fun hlt => absurd hlt (by omega)⟩
  | succ n ih =>
      rw [Py.NfcRule.walkRight, bind_eq_ok] at h
      obtain ⟨stable, hstable, h⟩ := h
      cases stable with
      | false =>
          obtain ⟨h1, h2, h3⟩ := ih h
          exact ⟨by omega, by omega, fun hlt => h3 (by omega)⟩
      | true =>
          cases h
          exact ⟨le_rfl, by omega, fun _ => hstable⟩

/-- A text is the concatenation of two when it has their length, starts with the one and ends
with the other. -/
theorem eq_append_iff {whole before after : Text} :
    (utf8Len whole ≠ utf8Len before + utf8Len after ∨ ¬before <+: whole ∨ ¬after <:+ whole) ↔
      whole ≠ before ++ after := by
  constructor
  · rintro h rfl
    rcases h with h | h | h
    · exact h (utf8Len_append _ _)
    · exact h (List.prefix_append _ _)
    · exact h (List.suffix_append _ _)
  · intro hne
    by_contra h
    rw [not_or, not_or, not_not, not_not, not_not] at h
    obtain ⟨hlen, ⟨r, rfl⟩, hsuffix⟩ := h
    rw [utf8Len_append] at hlen
    have hr : r = after := by
      rcases List.suffix_or_suffix_of_suffix hsuffix (List.suffix_append before r) with
        ⟨x, rfl⟩ | ⟨x, rfl⟩
      · rw [utf8Len_append] at hlen
        rw [utf8Len_eq_zero.mp (show utf8Len x = 0 by omega), List.nil_append]
      · rw [utf8Len_append] at hlen
        rw [utf8Len_eq_zero.mp (show utf8Len x = 0 by omega), List.nil_append]
    exact hne (by rw [hr])

theorem meets_windowOf {left right : ℕ} (hlo : lo ≤ left) (hleft : left ≤ position)
    (hright : position ≤ right) (hhi : right ≤ hi) :
    NfcRule.meets ⟨reference⟩ b (windowOf t lo hi) left position right = (do
      let before ← checked (reference.normalize (Py.slice t left position))
      let after ← checked (reference.normalize (Py.slice t position right))
      match before.getLast?, after.head? with
      | some last, some first => do
          let whole ← checked (reference.normalize (Py.slice t left right))
          if whole ≠ before ++ after then return false
          else return Py.pairOk b.classes last first
      | _, _ => return false) := by
  unfold NfcRule.meets
  simp only [slice_windowOf hlo hleft (Nat.le_trans hright hhi),
    slice_windowOf (Nat.le_trans hlo hleft) hright hhi,
    slice_windowOf hlo (Nat.le_trans hleft hright) hhi, ok_bind, NfcRule.normalize, eq_append_iff,
    pairOk_eq]
  rfl

/-- Over a window that is wide enough the Rust rule accepts what the Python rule accepts. -/
theorem accepts_windowOf (A : AhoCorasick) (hpos : 0 < position) (hlt : position < t.length)
    (hlo : lo ≤ position - (ANCHOR_SCAN + (LiteralGuard.new literals).lmax))
    (hhi : min t.length (position + 1 + ANCHOR_SCAN + (LiteralGuard.new literals).lmax) ≤ hi)
    (ht : hi ≤ t.length) :
    NfcRule.accepts A ⟨reference⟩ b (LiteralGuard.new literals) (windowOf t lo hi) position =
      (pyRule b literals reference).accepts t position := by
  have hscan : ANCHOR_SCAN = 256 := rfl
  have htotal : (windowOf t lo hi).total = t.length := rfl
  unfold NfcRule.accepts Py.NfcRule.accepts
  rw [minus_of_le (by omega), ok_bind, htotal, show Py.ANCHOR_SCAN = ANCHOR_SCAN from rfl]
  have haround : ((t.drop (position - 1)).take (min (position + 2) t.length - (position - 1))) =
      Py.slice t (position - 1) (position + 2) := by
    rw [Py.slice, List.drop_take]
    rcases Nat.le_total (position + 2) t.length with h | h
    · rw [min_eq_left h]
    · rw [min_eq_right h, List.take_of_length_le (by rw [List.length_drop]),
        List.take_of_length_le (by rw [List.length_drop]; omega)]
  rw [allM_windowOf literals (by omega) (by omega) ht, haround]
  refine bind_congr_ok fun allStable _ => ?_
  cases allStable with
  | true => simp only [if_true]
  | false =>
      simp only [Bool.false_eq_true, if_false]
      rw [leftAnchor_windowOf literals (by omega) (by omega) ht,
        show position - 1 - (position - ANCHOR_SCAN) + 1 = position - (position - ANCHOR_SCAN) by omega]
      refine bind_congr_ok fun anchor hanchor => ?_
      by_cases hfail : anchor = none ∧ 0 < position - ANCHOR_SCAN
      · rw [if_pos hfail, if_pos hfail]
      rw [if_neg hfail, if_neg hfail]
      -- the anchor lies in the window, before the cut
      have hleft : position - ANCHOR_SCAN ≤ anchor.getD 0 ∧ anchor.getD 0 < position := by
        cases anchor with
        | none => exact ⟨by simp at hfail ⊢; omega, hpos⟩
        | some left =>
            obtain ⟨h1, h2, -⟩ := walkLeft_eq_some hanchor
            exact ⟨h1, by simp only [Option.getD_some]; omega⟩
      rw [rightAnchor_windowOf literals (by omega) (by omega) ht]
      refine bind_congr_ok fun right hright => ?_
      obtain ⟨hright1, hright2, -⟩ := walkRight_eq_ok hright
      by_cases hend : right = min t.length (position + 1 + ANCHOR_SCAN) ∧
          min t.length (position + 1 + ANCHOR_SCAN) < t.length
      · rw [if_pos hend, if_pos hend]
      rw [if_neg hend, if_neg hend]
      obtain ⟨touched, htouched, htouches⟩ := touches_windowOf A literals
        (show lo ≤ anchor.getD 0 - ((LiteralGuard.new literals).lmax - 1) by omega)
        (show min t.length (right + ((LiteralGuard.new literals).lmax - 1)) ≤ hi by omega) ht
      have hpy : (pyRule b literals reference).guard.touches t (anchor.getD 0) right = touched := by
        rw [Bool.eq_iff_iff, htouches]
        exact Py.touches_eq_true
      rw [htouched, ok_bind, hpy, meets_windowOf (by omega) (by omega) (by omega) (by omega)]
      rfl

end

/-! ## Scan -/

section
variable (A : AhoCorasick) (b : BpeSyncBoundary) (literals : List Text)
  (rule : Option ReferenceEngine) (refusal : Option String) (refusal' : Option Py.Refusal)

/-- The Rust planner of a boundary table, literals and a normalizer. -/
def rustPlanner : ChunkEncoder :=
  ⟨b, LiteralGuard.new literals, refusal, rule.map fun reference => ⟨reference⟩⟩

/-- The Python planner of a boundary table, literals and a normalizer. -/
def pyPlanner : Py.Planner :=
  ⟨b.classes, Py.LiteralGuard.new literals, refusal', rule.map (pyRule b literals)⟩

variable {t : Text} {lo hi low high position : ℕ}

theorem boundaryOk_windowOf (hpos : 0 < position) (hlt : position < hi) (hlo : lo ≤ position - 1)
    (ht : hi ≤ t.length) :
    (rustPlanner b literals rule refusal).boundaryOk (windowOf t lo hi) position =
      Py.boundaryOk b.classes t position := by
  have hprev : t[position - 1]? = some t[position - 1] := List.getElem?_eq_getElem (by omega)
  have hcur : t[position]? = some t[position] := List.getElem?_eq_getElem (by omega)
  rw [ChunkEncoder.boundaryOk, Py.boundaryOk, minus_of_le (by omega), ok_bind,
    charAt_windowOf hlo (by omega) hprev, ok_bind, charAt_windowOf (by omega) hlt hcur, ok_bind,
    ok_bind, getAt_of_some hprev, ok_bind, getAt_of_some hcur, ok_bind, pairOk_eq]
  rfl

/-- The window holds everything that is read around the positions from `low` to `high`. -/
structure Wide (literals : List Text) (t : Text) (lo hi low high : ℕ) : Prop where
  lo_le : lo ≤ low - (ANCHOR_SCAN + (LiteralGuard.new literals).lmax)
  le_hi : min t.length (high + 1 + ANCHOR_SCAN + (LiteralGuard.new literals).lmax) ≤ hi
  hi_le : hi ≤ t.length

theorem candidate_windowOf {out : List Bool} {forbidden : List ℕ} (hw : Wide literals t lo hi low high)
    (hpos : 0 < low) (hhigh : high < t.length) (h1 : low ≤ position) (h2 : position ≤ high)
    {inside : Bool} (hout : out[position - low]? = some inside)
    (hforbidden : inside = true ↔ position ∈ forbidden) (rejects : Rejects) :
    (rustPlanner b literals rule refusal).candidate A (windowOf t lo hi) out low position rejects =
      (pyPlanner b literals rule refusal').candidate t forbidden position rejects := by
  obtain ⟨hlo, hhi, ht⟩ := hw
  have hscan : ANCHOR_SCAN = 256 := rfl
  unfold ChunkEncoder.candidate Py.Planner.candidate
  rw [boundaryOk_windowOf b literals rule refusal (by omega) (by omega) (by omega) ht,
    getAt_of_some hout]
  refine bind_congr_ok fun ok _ => ?_
  cases ok with
  | false => rfl
  | true =>
      have hcontains : forbidden.contains position = inside := by
        rw [Bool.eq_iff_iff, hforbidden, List.contains_iff_mem]
      simp only [if_true, ok_bind, hcontains]
      cases inside with
      | true => rfl
      | false =>
          simp only [Bool.false_eq_true, if_false, rustPlanner, pyPlanner]
          cases rule with
          | none => rfl
          | some reference =>
              simp only [Option.map_some]
              rw [accepts_windowOf A (by omega) (by omega) (by omega) (by omega) ht]

theorem scanDown_windowOf {out : List Bool} {forbidden : List ℕ} {n : ℕ}
    (hw : Wide literals t lo hi low high) (hpos : 0 < low) (hhigh : high < t.length)
    (hn : low + n ≤ high)
    (hout : ∀ p, low ≤ p → p ≤ high →
      ∃ inside, out[p - low]? = some inside ∧ (inside = true ↔ p ∈ forbidden))
    (rejects : Rejects) :
    (rustPlanner b literals rule refusal).scanDown A (windowOf t lo hi) out low n rejects =
      (pyPlanner b literals rule refusal').scanDown t forbidden low (n + 1) rejects := by
  induction n generalizing rejects with
  | zero =>
      obtain ⟨inside, hinside, hiff⟩ := hout low le_rfl (by omega)
      rw [ChunkEncoder.scanDown, Py.Planner.scanDown, Nat.add_zero,
        candidate_windowOf A b literals rule refusal refusal' hw hpos hhigh le_rfl (by omega) hinside
          hiff]
      refine bind_congr_ok fun certified _ => ?_
      obtain ⟨certified, rejects⟩ := certified
      cases certified <;> rfl
  | succ n ih =>
      obtain ⟨inside, hinside, hiff⟩ := hout (low + (n + 1)) (by omega) hn
      rw [ChunkEncoder.scanDown, Py.Planner.scanDown,
        candidate_windowOf A b literals rule refusal refusal' hw hpos hhigh (by omega) hn hinside hiff]
      refine bind_congr_ok fun certified _ => ?_
      obtain ⟨certified, rejects⟩ := certified
      cases certified with
      | true => rfl
      | false => exact ih (by omega) rejects

/-- Over a window that is wide enough the two scans find the same cut and count the same
rejects. -/
theorem scan_windowOf (hw : Wide literals t lo hi low high) (hpos : 0 < low)
    (hhigh : high < t.length) (rejects : Rejects) :
    (rustPlanner b literals rule refusal).scan A (windowOf t lo hi) low high rejects =
      (pyPlanner b literals rule refusal').scan t low high rejects := by
  unfold ChunkEncoder.scan Py.Planner.scan
  by_cases hempty : high < low
  · rw [if_pos hempty, if_pos hempty]
  · rw [if_neg hempty, if_neg hempty]
    obtain ⟨hlo, hhi, ht⟩ := id hw
    have hscan : ANCHOR_SCAN = 256 := rfl
    obtain ⟨out, hout, hinside⟩ := forbidden_windowOf A literals (show low ≤ high by omega)
      (show lo ≤ low - ((LiteralGuard.new literals).lmax - 1) by omega)
      (show min t.length (high + ((LiteralGuard.new literals).lmax - 1)) ≤ hi by omega) ht
    rw [show (rustPlanner b literals rule refusal).guard = LiteralGuard.new literals from rfl, hout,
      ok_bind, show high + 1 - low = high - low + 1 by omega]
    refine scanDown_windowOf A b literals rule refusal refusal' hw hpos hhigh (by omega) ?_ rejects
    intro p h1 h2
    obtain ⟨inside, hget, hiff⟩ := hinside p h1 h2
    exact ⟨inside, hget, hiff.trans (Py.mem_forbidden h1 h2).symm⟩

/-- Where a scan finds a cut. -/
theorem scanDown_eq_some {planner : Py.Planner} {forbidden : List ℕ} {n found : ℕ}
    {rejects rejects' : ℕ × ℕ}
    (h : planner.scanDown t forbidden low n rejects = .ok (some found, rejects')) :
    low ≤ found ∧ found < low + n ∧
      ∃ r r', planner.candidate t forbidden found r = .ok (true, r') := by
  induction n generalizing rejects with
  | zero => cases h
  | succ n ih =>
      rw [Py.Planner.scanDown, bind_eq_ok] at h
      obtain ⟨⟨certified, rejects''⟩, hcand, h⟩ := h
      cases certified with
      | true =>
          cases h
          exact ⟨by omega, by omega, _, _, hcand⟩
      | false =>
          obtain ⟨h1, h2, h3⟩ := ih h
          exact ⟨h1, by omega, h3⟩

theorem scan_eq_some {planner : Py.Planner} {found : ℕ} {rejects rejects' : ℕ × ℕ}
    (h : planner.scan t low high rejects = .ok (some found, rejects')) :
    low ≤ found ∧ found ≤ high ∧ ∃ r r',
      planner.candidate t (planner.guard.forbidden t low high) found r = .ok (true, r') := by
  unfold Py.Planner.scan at h
  by_cases hempty : high < low
  · rw [if_pos hempty] at h
    cases h
  · rw [if_neg hempty] at h
    obtain ⟨h1, h2, h3⟩ := scanDown_eq_some h
    exact ⟨h1, by omega, h3⟩

/-! ## Plan -/

/-- The loop state of the Rust planner that belongs to one of the Python planner, with the
cursor at character `m`. -/
abbrev rustSearch (t : Text) (m : ℕ) (st : Py.Search) : Search :=
  ⟨cursorAt t m, st.cuts.map fun c => (c, utf8Len (t.take c)), st.misses, st.rejects, st.previous⟩

/-- Two loop states that belong together. -/
def Sim (t : Text) (st : Search) (st' : Py.Search) : Prop :=
  ∃ m ≤ t.length, st = rustSearch t m st'

/-- What a search finds, in step. -/
def SearchSim (t : Text) (st : Py.Search) (target : ℕ) (x : Option ℕ × Window × Search)
    (y : Option ℕ × (ℕ × ℕ)) : Prop :=
  x.1 = y.1 ∧ Sim t x.2.2 { st with rejects := y.2 } ∧
    ∀ p, y.1 = some p → st.previous < p ∧ p ≤ target ∧
      (x.2.1.byteOf p : Decode EngineError ℕ) = .ok (utf8Len (t.take p))

/-- One extraction and scan. -/
theorem scan_extracted {m : ℕ} (hm : m ≤ t.length) (hpos : 0 < low) (hhigh : high < t.length)
    (rejects : Rejects) :
    ∃ window, (Window.extract (cursorAt t m) t.length
        (low - (rustPlanner b literals rule refusal).margin)
        (high + (rustPlanner b literals rule refusal).margin + 1) : Decode EngineError _) =
          .ok (window, cursorAt t (min (high + (rustPlanner b literals rule refusal).margin + 1)
            t.length)) ∧
      (rustPlanner b literals rule refusal).scan A window low high rejects =
        (pyPlanner b literals rule refusal').scan t low high rejects ∧
      ∀ p, low ≤ p → p ≤ high → (window.byteOf p : Decode EngineError ℕ) = .ok (utf8Len (t.take p)) := by
  have hmargin : (rustPlanner b literals rule refusal).margin =
      ANCHOR_SCAN + (LiteralGuard.new literals).lmax + 2 := rfl
  refine ⟨_, extract_cursorAt hm _ _, ?_, fun p h1 h2 => ?_⟩
  · exact scan_windowOf A b literals rule refusal refusal' ⟨by omega, by omega, by omega⟩ hpos hhigh
      rejects
  · exact byteOf_windowOf (by omega) (by omega)

theorem agree_search {st : Py.Search} {m target scanBudget : ℕ} (hm : m ≤ t.length)
    (htarget : target < t.length) :
    Agree (SearchSim t st target)
      ((rustPlanner b literals rule refusal).search A t.length scanBudget target (rustSearch t m st))
      ((pyPlanner b literals rule refusal').search t scanBudget target st.previous st.rejects) := by
  unfold ChunkEncoder.search Py.Planner.search
  dsimp only [rustSearch]
  rw [show Py.QUICK_SCAN = QUICK_SCAN from rfl]
  obtain ⟨low, hlow⟩ : ∃ low, max (st.previous + 1) (target - min QUICK_SCAN scanBudget) = low :=
    ⟨_, rfl⟩
  rw [hlow]
  obtain ⟨window, hextract, hscan, hbyte⟩ := scan_extracted A b literals rule refusal refusal' hm
    (show 0 < low by omega) htarget st.rejects
  rw [hextract, ok_bind]
  dsimp only
  rw [hscan]
  refine Agree.bind (R := fun x y => x = y) (Agree.refl _ fun _ _ => rfl) ?_
  rintro ⟨found, rejects⟩ _ hfound - rfl
  dsimp only
  by_cases hmore : found = none ∧ scanBudget > min QUICK_SCAN scanBudget ∧ low > st.previous + 1
  · rw [if_pos hmore, if_pos hmore]
    obtain ⟨window', hextract', hscan', hbyte'⟩ := scan_extracted A b literals rule refusal refusal'
      (show min (target + (rustPlanner b literals rule refusal).margin + 1) t.length ≤ t.length by omega)
      (show 0 < max (st.previous + 1) (target - scanBudget) by omega)
      (show low - 1 < t.length by omega) rejects
    rw [hextract', ok_bind]
    dsimp only
    rw [hscan']
    refine Agree.bind_left ?_
    rintro ⟨found', rejects'⟩ hfound'
    refine ⟨rfl, ⟨_, Nat.min_le_right _ _, rfl⟩, fun p hp => ?_⟩
    dsimp only at hp
    obtain ⟨h1, h2, -⟩ := scan_eq_some (hp ▸ hfound')
    exact ⟨by omega, by omega, hbyte' p h1 h2⟩
  · rw [if_neg hmore, if_neg hmore]
    refine ⟨rfl, ⟨_, Nat.min_le_right _ _, rfl⟩, fun p hp => ?_⟩
    dsimp only at hp
    obtain ⟨h1, h2, -⟩ := scan_eq_some (hp ▸ hfound)
    exact ⟨by omega, h2, hbyte p h1 h2⟩

/-- One target of the plan, in step. -/
theorem agree_cutAt {st : Search} {st' : Py.Search} (hsim : Sim t st st') {target : ℕ}
    (htarget : target < t.length) (floor scanBudget : ℕ) :
    Agree (Sim t) ((rustPlanner b literals rule refusal).cutAt A t.length floor scanBudget target st)
      ((pyPlanner b literals rule refusal').cutAt t floor scanBudget target st') := by
  obtain ⟨m, hm, rfl⟩ := hsim
  unfold ChunkEncoder.cutAt Py.Planner.cutAt
  by_cases hbehind : target ≤ st'.previous
  · rw [if_pos hbehind, if_pos hbehind]
    exact ⟨m, hm, rfl⟩
  rw [if_neg hbehind, if_neg hbehind]
  refine (agree_search A b literals rule refusal refusal' hm htarget).bind ?_
  rintro ⟨found, window, st⟩ ⟨found', rejects⟩ - - ⟨hfound, ⟨m', hm', hst⟩, hbyte⟩
  dsimp only at hfound hst hbyte ⊢
  subst hfound hst
  cases found with
  | none => exact ⟨m', hm', rfl⟩
  | some p =>
      obtain ⟨h1, h2, hp⟩ := hbyte p rfl
      dsimp only
      rw [minus_of_le (by omega), ok_bind, minus_of_le (by omega), ok_bind]
      by_cases hfloor : floor ≤ p - st'.previous ∧ floor ≤ t.length - p
      · rw [if_pos hfloor, if_neg (by omega), hp, ok_bind]
        refine ⟨m', hm', ?_⟩
        simp [rustSearch]
      · rw [if_neg hfloor, if_pos (by omega)]
        exact ⟨m', hm', rfl⟩

/-- The search loop of the Python planner, for any floor and any targets. -/
def cutsBy (planner : Py.Planner) (t : Text) (k floor scanBudget : ℕ) (target : ℕ → ℕ) :
    Decode EngineError Py.Search :=
  (List.range' 1 (k - 1)).foldlM
    (fun st index => planner.cutAt t floor scanBudget (target index) st) ⟨[], 0, (0, 0), 0⟩

/-- The plan of the Rust planner from the cuts of the Python planner. -/
def planOf (t : Text) (k : ℕ) (st : Py.Search) : ChunkPlan :=
  let bounds := 0 :: st.cuts ++ [t.length]
  { spans := bounds.zip bounds.tail
    byteSpans := (bounds.zip bounds.tail).map fun span =>
      (utf8Len (t.take span.1), utf8Len (t.take span.2))
    k := k, chars := t.length, cutMisses := st.misses
    literalRejects := st.rejects.1, normRejects := st.rejects.2 }

/-- The Rust planner plans as the Python planner does with its floor and its targets. -/
theorem planCounted_eq {k scanBudget : ℕ} {minChunk : Option ℕ} (hk : 1 < k)
    (ht : MIN_TEXT_CHARS ≤ t.length) :
    (rustPlanner b literals rule refusal).planCounted A t t.length k minChunk scanBudget = (do
      let floor ← ChunkEncoder.floorOf t.length k minChunk
      let st ← cutsBy (pyPlanner b literals rule refusal') t k floor scanBudget
        fun index => wrappingMul t.length index / k
      return planOf t k st) := by
  unfold ChunkEncoder.planCounted
  rw [if_neg (by omega)]
  refine bind_congr_ok fun floor _ => ?_
  have htarget : ∀ index ∈ List.range' 1 (k - 1), wrappingMul t.length index / k < t.length := by
    intro index hindex
    rw [List.mem_range'_1] at hindex
    have hpos : 0 < t.length := Nat.lt_of_lt_of_le (by decide) ht
    rw [Nat.div_lt_iff_lt_mul (by omega)]
    exact Nat.lt_of_le_of_lt (Nat.mod_le _ _) (Nat.mul_lt_mul_of_pos_left (by omega) hpos)
  have hloop := Agree.foldlM (R := Sim t) (List.range' 1 (k - 1))
    (f := fun st index => (rustPlanner b literals rule refusal).cutAt A t.length floor scanBudget
      (wrappingMul t.length index / k) st)
    (g := fun st index => (pyPlanner b literals rule refusal').cutAt t floor scanBudget
      (wrappingMul t.length index / k) st)
    (s := ⟨CharCursor.new t, [], 0, (0, 0), 0⟩) (t := ⟨[], 0, (0, 0), 0⟩)
    ⟨0, Nat.zero_le _, by rw [rustSearch, new_eq_cursorAt]; rfl⟩
    fun index hindex st st' hsim =>
      agree_cutAt A b literals rule refusal refusal' hsim (htarget index hindex) floor scanBudget
  refine hloop.bind_eq ?_
  rintro _ st ⟨m, -, rfl⟩
  have hbounds : (0, 0) :: (rustSearch t m st).cuts ++ [(t.length, utf8Len t)] =
      (0 :: st.cuts ++ [t.length]).map fun c => (c, utf8Len (t.take c)) := by
    simp
  have hspans : (fun pair : (ℕ × ℕ) × (ℕ × ℕ) => (pair.1.1, pair.2.1)) ∘
      Prod.map (fun c => (c, utf8Len (t.take c))) (fun c => (c, utf8Len (t.take c))) = id := rfl
  simp only [hbounds, planOf]
  rw [← List.map_tail, List.zip_map, List.map_map, List.map_map, hspans, List.map_id]
  rfl

end

end Toktier.Chunked
