import Toktier.Chunked.Survival

/-!
# What a window certifies

The guard and the normalization rule read a window of the text around the positions that are
scanned. The window is wide enough: the guard answers for the whole text, and a position that the
rule accepts splits the normal form of the whole text.

## Main definitions

* `StableAround`: the rule calls the characters around a position stable.
* `SplitsAtStable`: a normalizer that leaves the characters that the rule calls stable alone.

## Main results

* `guard_extracted`: the guard over the windows that the planner extracts.
* `accepts_sound`: the rule over these windows.
-/
namespace Toktier.Chunked

open Toktier.Lib Toktier.StoreCore Toktier.Routing

/-! ## The guard -/

/-- Over a window that the planner extracts around a range of positions, the guard forbids the
positions of the range that lie strictly inside a literal of the text, and reports the spans around
them that meet one. -/
theorem guard_extracted (A : AhoCorasick) (encoder : ChunkEncoder) (literals : List Text)
    (hguard : encoder.guard = LiteralGuard.new literals) (t : Text) {m low high : ℕ}
    (hm : m ≤ t.length) (hle : low ≤ high) (hhigh : high < t.length) :
    ∃ window cursor, (Window.extract (cursorAt t m) t.length (low - encoder.margin)
        (high + encoder.margin + 1) : Decode EngineError _) = .ok (window, cursor) ∧
      (∃ out, encoder.guard.forbidden A window low high = .ok out ∧
        ∀ p, low ≤ p → p ≤ high →
          ∃ b, out[p - low]? = some b ∧ (b = true ↔ Inside literals t p)) ∧
      ∀ p left right, low ≤ p → p ≤ high → p - ANCHOR_SCAN ≤ left →
        right ≤ p + 1 + ANCHOR_SCAN →
          ∃ b, encoder.guard.touches A window left right = .ok b ∧
            (b = true ↔ Touches literals t left right) := by
  have hmargin : encoder.margin = ANCHOR_SCAN + (LiteralGuard.new literals).lmax + 2 :=
    congrArg (fun guard => ANCHOR_SCAN + guard.lmax + 2) hguard
  refine ⟨_, _, extract_cursorAt hm _ _, ?_, fun p left right hlow hp hleft hright => ?_⟩
  · rw [hguard]
    exact forbidden_windowOf A literals hle (by omega) (by omega) (min_le_right _ _)
  · rw [hguard]
    exact touches_windowOf A literals (by omega) (by omega) (min_le_right _ _)

/-- A literal that overlaps itself. -/
theorem guard_extracted_aba :
    ∃ window cursor, (Window.extract (cursorAt "ababa".toList 0) "ababa".toList.length
        (1 - (ChunkEncoder.new .null ["aba".toList] letters plainReference).margin)
        (4 + (ChunkEncoder.new .null ["aba".toList] letters plainReference).margin + 1) :
          Decode EngineError _) = .ok (window, cursor) ∧
      (∃ out, (ChunkEncoder.new .null ["aba".toList] letters plainReference).guard.forbidden .naive
          window 1 4 = .ok out ∧
        ∀ p, 1 ≤ p → p ≤ 4 →
          ∃ b, out[p - 1]? = some b ∧ (b = true ↔ Inside ["aba".toList] "ababa".toList p)) ∧
      ∀ p left right, 1 ≤ p → p ≤ 4 → p - ANCHOR_SCAN ≤ left → right ≤ p + 1 + ANCHOR_SCAN →
        ∃ b, (ChunkEncoder.new .null ["aba".toList] letters plainReference).guard.touches .naive
            window left right = .ok b ∧
          (b = true ↔ Touches ["aba".toList] "ababa".toList left right) :=
  guard_extracted .naive (ChunkEncoder.new .null ["aba".toList] letters plainReference)
    ["aba".toList] rfl "ababa".toList (by decide) (by decide) (by decide)

/-! ## The normalization rule -/

section Rule

variable {b : BpeSyncBoundary} {reference : ReferenceEngine} {literals : List Text}
  {N : Text → Text} {t : Text} {p i : ℕ} {c : Char}

/-- The rule calls the characters around a position stable. -/
def StableAround (reference : ReferenceEngine) (b : BpeSyncBoundary) (t : Text) (p : ℕ) : Prop :=
  ∀ i, p - 1 ≤ i → i < p + 2 → ∀ c ∈ t[i]?, NfcRule.stable ⟨reference⟩ b c = .ok true

/-- The normalizer never fails; the characters that the rule calls stable do not compose or change
places with what is before them, and ASCII characters are left alone. -/
structure SplitsAtStable (reference : ReferenceEngine) (b : BpeSyncBoundary) (N : Text → Text) :
    Prop where
  normalize_eq : ∀ text, reference.normalize text = .ok (N text)
  split : ∀ c, NfcRule.stable ⟨reference⟩ b c = .ok true →
    ∀ x y, N (x ++ c :: y) = N x ++ N (c :: y)
  ascii : ∀ c : Char, c.val < 0x80 → N [c] = [c]

/-- A stable character is normal. -/
theorem SplitsAtStable.keep (h : SplitsAtStable reference b N)
    (hc : NfcRule.stable ⟨reference⟩ b c = .ok true) : N [c] = [c] := by
  unfold NfcRule.stable at hc
  split_ifs at hc with hascii hmark
  · exact h.ascii c hascii
  · cases hc
  · -- the probe without neighbours
    obtain ⟨verdict, hprobe, hrest⟩ := bind_eq_ok.mp hc
    obtain rfl : verdict = true := by
      cases verdict with
      | true => rfl
      | false => cases hrest
    obtain ⟨normalized, hnormalized, hsame⟩ := bind_eq_ok.mp hprobe
    obtain rfl := Except.ok.inj ((h.normalize_eq [c]).symm.trans hnormalized)
    exact beq_iff_eq.mp (Except.ok.inj hsame)

/-- The text is split in front of a stable character. -/
theorem SplitsAtStable.split_at (h : SplitsAtStable reference b N) (hget : t[p]? = some c)
    (hc : NfcRule.stable ⟨reference⟩ b c = .ok true) :
    N t = N (t.take p) ++ N (t.drop p) := by
  obtain ⟨hlt, rfl⟩ := List.getElem?_eq_some_iff.mp hget
  have hsplit := h.split t[p] hc (t.take p) (t.drop (p + 1))
  rwa [← List.drop_eq_getElem_cons hlt, List.take_append_drop] at hsplit

/-- A character with nothing but stable ones around it stays at the seam of the normal forms. -/
theorem SplitsAtStable.head?_drop (h : SplitsAtStable reference b N)
    (hstable : ∀ i, p ≤ i → i < p + 2 → ∀ c ∈ t[i]?, NfcRule.stable ⟨reference⟩ b c = .ok true)
    (hget : t[p]? = some c) : (N (t.drop p)).head? = some c := by
  obtain ⟨hlt, rfl⟩ := List.getElem?_eq_some_iff.mp hget
  have hkeep := h.keep (hstable p le_rfl (by omega) _ hget)
  rw [List.drop_eq_getElem_cons hlt]
  cases hrest : t.drop (p + 1) with
  | nil =>
      rw [hkeep]
      rfl
  | cons next rest =>
      have hnext : t[p + 1]? = some next := by
        rw [← List.head?_drop, hrest]
        rfl
      have hsplit := h.split next (hstable (p + 1) (by omega) (by omega) next hnext) [t[p]] rest
      rw [List.singleton_append] at hsplit
      rw [hsplit, hkeep]
      rfl

theorem SplitsAtStable.getLast?_take (h : SplitsAtStable reference b N) (hpos : 0 < p)
    (hget : t[p - 1]? = some c) (hc : NfcRule.stable ⟨reference⟩ b c = .ok true) :
    (N (t.take p)).getLast? = some c := by
  obtain ⟨hlt, rfl⟩ := List.getElem?_eq_some_iff.mp hget
  have htake : t.take p = t.take (p - 1) ++ [t[p - 1]] := by
    rw [← List.take_succ_eq_append_getElem hlt, Nat.sub_add_cancel hpos]
  rw [htake, h.split _ hc, h.keep hc, List.getLast?_concat]

/-- Between the anchors of a cut, the normal form of the text is put together from three parts. -/
theorem NormCut.split {stab : Char → Bool} {left right : ℕ} (h : SplitsAtStable reference b N)
    (hstab : ∀ c, NfcRule.stable ⟨reference⟩ b c = .ok (stab c))
    (hcut : NormCut N b literals stab t p left right) :
    (∃ front, N (t.take p) = front ++ N (Py.slice t left p)) ∧
      (∃ back, N (t.drop p) = N (Py.slice t p right) ++ back) ∧
        N t = N (t.take p) ++ N (t.drop p) := by
  have hlp := hcut.leftAnchor.lt
  have hpr := hcut.rightAnchor.lt
  have hrt := hcut.rightAnchor.le
  -- the part up to a position, split at the left anchor
  have hfront : ∃ front, ∀ q, left < q → N (t.take q) = front ++ N (Py.slice t left q) := by
    obtain rfl | ⟨c, hget, hc⟩ := hcut.leftAnchor.stable
    · exact ⟨[], fun q _ => rfl⟩
    · refine ⟨N (t.take left), fun q hq => ?_⟩
      have hgetq : (t.take q)[left]? = some c := by rw [List.getElem?_take, if_pos hq, hget]
      have hsplit := h.split_at hgetq (by rw [hstab, hc])
      rwa [List.take_take, min_eq_left hq.le] at hsplit
  -- the part from a position on, split at the right anchor
  have hback : ∃ back, ∀ q ≤ p, N (t.drop q) = N (Py.slice t q right) ++ back := by
    obtain hend | ⟨c, hget, hc⟩ := hcut.rightAnchor.stable
    · refine ⟨[], fun q _ => ?_⟩
      rw [Py.slice, hend, List.take_length, List.append_nil]
    · refine ⟨N (t.drop right), fun q hq => ?_⟩
      have hgetq : (t.drop q)[right - q]? = some c := by
        rw [List.getElem?_drop, Nat.add_sub_cancel' (by omega), hget]
      have hsplit := h.split_at hgetq (by rw [hstab, hc])
      rwa [List.drop_drop, Nat.add_sub_cancel' (by omega), ← List.drop_take] at hsplit
  obtain ⟨front, hfront⟩ := hfront
  obtain ⟨back, hback⟩ := hback
  refine ⟨⟨front, hfront p hlp⟩, ⟨back, hback p le_rfl⟩, ?_⟩
  have hmeets := hcut.meets.1
  rw [slice_append hlp.le hpr.le] at hmeets
  have hwhole : Py.slice t left t.length = t.drop left := by rw [Py.slice, List.take_length]
  calc N t = front ++ N (t.drop left) := by
        rw [← hwhole, ← hfront t.length (by omega), List.take_length]
    _ = front ++ (N (Py.slice t left p) ++ N (Py.slice t p right) ++ back) := by
        rw [hback left hlp.le, hmeets]
    _ = N (t.take p) ++ N (t.drop p) := by
        rw [hfront p hlp, hback p le_rfl, List.append_assoc, List.append_assoc]

/-- A cut that the rule accepts splits the normal form of the text. The predicate holds where the
two halves meet, if it holds in the text or some character around the cut is not stable. -/
theorem accepts_sound (A : AhoCorasick) (encoder : ChunkEncoder) (b : BpeSyncBoundary)
    (reference : ReferenceEngine) (literals : List Text) (N : Text → Text) (t : Text)
    (h : SplitsAtStable reference b N) (hguard : encoder.guard = LiteralGuard.new literals)
    {m low high p : ℕ} (hm : m ≤ t.length) (hpos : 0 < low) (hlow : low ≤ p) (hp : p ≤ high)
    (hhigh : high < t.length) {window : Window} {cursor : CharCursor}
    (hextract : Window.extract (cursorAt t m) t.length (low - encoder.margin)
      (high + encoder.margin + 1) = (.ok (window, cursor) : Decode EngineError _))
    (haccepts : NfcRule.accepts A ⟨reference⟩ b encoder.guard window p = .ok true) :
    N t = N (t.take p) ++ N (t.drop p) ∧
      ((StableAround reference b t p → b.AcceptsAt t p) → ∃ last first,
        (N (t.take p)).getLast? = some last ∧ (N (t.drop p)).head? = some first ∧
          b.accepts last first = true) := by
  have hmargin : encoder.margin = ANCHOR_SCAN + (LiteralGuard.new literals).lmax + 2 :=
    congrArg (fun guard => ANCHOR_SCAN + guard.lmax + 2) hguard
  rw [extract_cursorAt hm] at hextract
  cases hextract
  rw [hguard, accepts_windowOf A (by omega) (by omega) (by omega) (by omega)
    (min_le_right _ _)] at haccepts
  obtain ⟨stab, hpy⟩ := exists_stable b literals h.normalize_eq
  have hstab (c : Char) : NfcRule.stable ⟨reference⟩ b c = .ok (stab c) := by
    have heq : (pyRule b literals reference).stable c = NfcRule.stable ⟨reference⟩ b c := stable_eq c
    rw [← heq, hpy]
  obtain hall | ⟨left, right, hcut⟩ :=
    (accepts_eq_true hpy h.normalize_eq (by omega) (by omega)).mp haccepts
  · have haround : StableAround reference b t p := fun i hi hlt c hget => by
      obtain ⟨c', hget', hc'⟩ := hall i hi hlt (List.getElem?_eq_some_iff.mp hget).1
      obtain rfl := Option.some.inj (Option.mem_def.mp hget ▸ hget')
      rw [hstab, hc']
    have hget : t[p]? = some t[p] := List.getElem?_eq_getElem (by omega)
    refine ⟨h.split_at hget (haround p (by omega) (by omega) _ hget), fun hinput => ?_⟩
    obtain ⟨last, first, hp, hlast, hfirst, haccepts⟩ := hinput haround
    refine ⟨last, first, ?_, ?_, haccepts⟩
    · exact h.getLast?_take hp hlast (haround _ le_rfl (by omega) _ hlast)
    · exact h.head?_drop (fun i hi hlt => haround i (by omega) hlt) hfirst
  · obtain ⟨⟨front, hfront⟩, ⟨back, hback⟩, hsplit⟩ := hcut.split h hstab
    obtain ⟨-, last, first, hlast, hfirst, haccepts⟩ := hcut.meets
    refine ⟨hsplit, fun _ => ⟨last, first, ?_, ?_, haccepts⟩⟩
    · rw [hfront, List.getLast?_append, hlast]
      rfl
    · rw [hback, List.head?_append, hfirst]
      rfl

end Rule

/-! ### Two letters -/

theorem splitsAtStable_plain (b : BpeSyncBoundary) : SplitsAtStable plainReference b id where
  normalize_eq _ := rfl
  split _ _ _ _ := rfl
  ascii _ _ := rfl

/-- The planner for plain texts without literals. -/
def plainEncoder : ChunkEncoder := ChunkEncoder.new .null [] letters plainReference

theorem extract_ab : Window.extract (cursorAt "ab".toList 0) "ab".toList.length
    (1 - plainEncoder.margin) (1 + plainEncoder.margin + 1) =
      (.ok (windowOf "ab".toList 0 2, cursorAt "ab".toList 2) : Decode EngineError _) := by
  have hlmax : (LiteralGuard.new []).lmax = 0 := by simp [LiteralGuard.new, LiteralGuard.unique]
  have hmargin : plainEncoder.margin = ANCHOR_SCAN + (LiteralGuard.new []).lmax + 2 := rfl
  rw [hmargin, hlmax, extract_cursorAt (by decide)]
  rfl

theorem accepts_ab : NfcRule.accepts .naive ⟨plainReference⟩ letters plainEncoder.guard
    (windowOf "ab".toList 0 2) 1 = .ok true := rfl

theorem accepts_sound_ab :
    "ab".toList = "ab".toList.take 1 ++ "ab".toList.drop 1 ∧
      ((StableAround plainReference letters "ab".toList 1 → letters.AcceptsAt "ab".toList 1) →
        ∃ last first, ("ab".toList.take 1).getLast? = some last ∧
          ("ab".toList.drop 1).head? = some first ∧ letters.accepts last first = true) :=
  accepts_sound .naive plainEncoder letters plainReference [] id "ab".toList
    (splitsAtStable_plain letters) rfl (by decide) Nat.one_pos le_rfl le_rfl (by decide) extract_ab
    accepts_ab

/-- Between stable characters the rule does not ask the predicate: the planner did before. -/
theorem accepts_without_predicate :
    ¬∀ (A : AhoCorasick) (encoder : ChunkEncoder) (b : BpeSyncBoundary)
      (reference : ReferenceEngine) (literals : List Text) (N : Text → Text) (t : Text),
      SplitsAtStable reference b N → encoder.guard = LiteralGuard.new literals →
      ∀ (m low high p : ℕ), m ≤ t.length → 0 < low → low ≤ p → p ≤ high → high < t.length →
      ∀ (window : Window) (cursor : CharCursor),
      Window.extract (cursorAt t m) t.length (low - encoder.margin) (high + encoder.margin + 1) =
        (.ok (window, cursor) : Decode EngineError _) →
      NfcRule.accepts A ⟨reference⟩ b encoder.guard window p = .ok true →
        N t = N (t.take p) ++ N (t.drop p) ∧ ∃ last first, (N (t.take p)).getLast? = some last ∧
          (N (t.drop p)).head? = some first ∧ b.accepts last first = true := by
  intro hall
  obtain ⟨-, last, first, hlast, hfirst, haccepts⟩ := hall .naive plainEncoder letters plainReference
    [] id "ab".toList (splitsAtStable_plain letters) rfl 0 1 1 1 (by decide) Nat.one_pos le_rfl le_rfl
    (by decide) _ _ extract_ab accepts_ab
  cases hlast
  cases hfirst
  revert haccepts
  decide

end Toktier.Chunked
