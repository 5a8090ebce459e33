import Mathlib.Data.List.Dedup
import Mathlib.Data.List.MinMax
import Toktier.Chunked.Planner
import Toktier.Chunked.Python

/-!
# What the literal guards report

Both guards look at a window that is just wide enough for the longest literal. Each forbids
exactly the positions strictly inside an occurrence of a literal, and reports a span as
touched exactly when an occurrence meets it: the Rust guard from the matches of all patterns
in the bytes of its window, the Python guard from the longest match at each start.
-/
namespace Toktier.Chunked

open Toktier.Lib Toktier.StoreCore Toktier.Routing

variable {literals : List Text} {t w : Text} {lo hi low high p : ℕ}

/-! ## The longest literal -/

theorem le_foldr_max {ws : List Text} (hw : w ∈ ws) : w.length ≤ (ws.map List.length).foldr max 0 :=
  List.le_max_of_le (List.mem_map_of_mem hw) le_rfl

theorem foldr_max_le {ws : List Text} {n : ℕ} (h : ∀ w ∈ ws, w.length ≤ n) :
    (ws.map List.length).foldr max 0 ≤ n := by
  refine List.max_le_of_forall_le _ _ fun x hx => ?_
  obtain ⟨w, hw, rfl⟩ := List.mem_map.mp hx
  exact h w hw

theorem mem_unique : w ∈ LiteralGuard.unique literals ↔ w ∈ literals ∧ w ≠ [] := by
  simp [LiteralGuard.unique]

/-- A guard without patterns knows no literal. -/
theorem eq_nil_of_matcher_eq_none (h : (LiteralGuard.new literals).matcher = none)
    (hw : w ∈ literals) : w = [] := by
  by_contra hne
  have hmem := mem_unique.mpr ⟨hw, hne⟩
  unfold LiteralGuard.new at h
  by_cases hempty : LiteralGuard.unique literals = []
  · simp [hempty] at hmem
  · simp [hempty] at h

theorem mem_alternatives :
    w ∈ (literals.filter (· ≠ [])).dedup.mergeSort Py.LiteralGuard.before ↔
      w ∈ literals ∧ w ≠ [] := by
  simp

/-- The two guards know the same longest literal. -/
theorem lmax_eq (literals : List Text) :
    (Py.LiteralGuard.new literals).lmax = (LiteralGuard.new literals).lmax := by
  refine le_antisymm (foldr_max_le fun w hw => ?_) (foldr_max_le fun w hw => ?_)
  · exact le_foldr_max (mem_unique.mpr (mem_alternatives.mp hw))
  · exact le_foldr_max (mem_alternatives.mpr (mem_unique.mp hw))

theorem length_le_lmax (hw : w ∈ literals) (hne : w ≠ []) :
    w.length ≤ (LiteralGuard.new literals).lmax :=
  le_foldr_max (mem_unique.mpr ⟨hw, hne⟩)

/-- An occurrence that meets a span lies in the window around it. -/
theorem occursAt_reach (low high : ℕ) {n a : ℕ} (hn : w.length ≤ n) (hne : w ≠ []) (h : OccursAt w t a)
    (ha : a < high) (hlow : low < a + w.length) :
    low - (n - 1) ≤ a ∧ OccursAt w (t.take (min t.length (high + (n - 1)))) a := by
  have hle := h.le_length hne
  refine ⟨by omega, ?_⟩
  rw [occursAt_iff_take (by omega)]
  exact h

/-! ## The Rust guard -/

section
variable (A : AhoCorasick)

/-- The occurrences in a window of the text are those of the literals there. -/
theorem occurrences_windowOf (literals : List Text) {start stop : ℕ} (hlo : lo ≤ start) (hhi : stop ≤ hi)
    (ht : hi ≤ t.length) :
    ∃ found, (LiteralGuard.new literals).occurrences A (windowOf t lo hi) start stop = .ok found ∧
      ∀ first last, (first, last) ∈ found ↔ ∃ w ∈ literals, w ≠ [] ∧ start ≤ first ∧
        OccursAt w (t.take stop) first ∧ last = first + w.length := by
  unfold LiteralGuard.occurrences LiteralGuard.new
  dsimp only
  by_cases hnone : LiteralGuard.unique literals = []
  · refine ⟨[], by rw [if_pos hnone], fun first last => ⟨by simp, ?_⟩⟩
    rintro ⟨w, hw, hne, -⟩
    have := mem_unique.mpr ⟨hw, hne⟩
    simp [hnone] at this
  rw [if_neg hnone]
  dsimp only
  by_cases hempty : stop ≤ start
  · refine ⟨[], by rw [if_pos hempty], fun first last => ⟨by simp, ?_⟩⟩
    rintro ⟨w, -, hne, hfirst, hocc, -⟩
    have := hocc.le_length hne
    have := List.length_pos_iff.mpr hne
    rw [List.length_take] at *
    omega
  rw [if_neg hempty, slice_windowOf hlo (by omega) hhi, ok_bind, byteOf_windowOf hlo (by omega),
    ok_bind]
  -- a match of a pattern is an occurrence of the literal at a character of the window
  have hmatch : ∀ i s, (i, s) ∈ A.findOverlapping (LiteralGuard.unique literals)
      ((t.take stop).drop start) ↔ ∃ w n, (LiteralGuard.unique literals)[i]? = some w ∧
        OccursAt w (t.take stop) (start + n) ∧ start + n < stop ∧
        s = utf8Len (((t.take stop).drop start).take n) := by
    intro i s
    rw [A.mem_findOverlapping fun w hw => (mem_unique.mp hw).2]
    refine exists_congr fun w => ?_
    constructor
    · rintro ⟨hi, hocc⟩
      obtain ⟨n, hn, hs, hlt⟩ := (occursAt_utf8_iff
        (mem_unique.mp (List.mem_of_getElem? hi)).2).mp hocc
      rw [List.length_drop, List.length_take] at hlt
      exact ⟨n, hi, occursAt_drop.mp hn, by omega, hs⟩
    · rintro ⟨n, hi, hocc, hlt, hs⟩
      refine ⟨hi, (occursAt_utf8_iff (mem_unique.mp (List.mem_of_getElem? hi)).2).mpr
        ⟨n, occursAt_drop.mpr hocc, hs, ?_⟩⟩
      rw [List.length_drop, List.length_take]
      omega
  have hbyte : ∀ n, start + n < stop →
      (windowOf t lo hi).charOfByte (utf8Len (t.take start) +
        utf8Len (((t.take stop).drop start).take n)) = start + n := by
    intro n hn
    rw [List.drop_take, List.take_take, min_eq_left (by omega), utf8Len_take_drop]
    exact charOfByte_windowOf (by omega) (by omega) ht
  obtain ⟨g, hg⟩ : ∃ g : ℕ × ℕ → ℕ × ℕ, ∀ x, g x =
      ((windowOf t lo hi).charOfByte (utf8Len (t.take start) + x.2),
        (windowOf t lo hi).charOfByte (utf8Len (t.take start) + x.2) +
          (((LiteralGuard.unique literals).map List.length)[x.1]?).getD 0) := ⟨_, fun _ => rfl⟩
  refine ⟨_, mapM_ok (g := g) fun x hx => ?_, fun first last => ?_⟩
  · obtain ⟨w, n, hi, -⟩ := (hmatch x.1 x.2).mp hx
    rw [getAt_of_some (x := w.length) (by rw [List.getElem?_map, hi]; rfl), hg,
      List.getElem?_map, hi]
    rfl
  · rw [List.mem_map]
    constructor
    · rintro ⟨⟨i, s⟩, hx, hgx⟩
      obtain ⟨w, n, hi, hocc, hlt, rfl⟩ := (hmatch i s).mp hx
      obtain ⟨hw, hne⟩ := mem_unique.mp (List.mem_of_getElem? hi)
      rw [hg, hbyte n hlt, List.getElem?_map, hi] at hgx
      cases hgx
      exact ⟨w, hw, hne, by omega, hocc, rfl⟩
    · rintro ⟨w, hw, hne, hfirst, hocc, rfl⟩
      obtain ⟨n, rfl⟩ : ∃ n, first = start + n := ⟨first - start, by omega⟩
      have hlen := hocc.le_length hne
      have hpos := List.length_pos_iff.mpr hne
      rw [List.length_take] at hlen
      obtain ⟨i, hi⟩ := List.mem_iff_getElem?.mp (mem_unique.mpr ⟨hw, hne⟩)
      refine ⟨(i, _), (hmatch i _).mpr ⟨w, n, hi, hocc, by omega, rfl⟩, ?_⟩
      rw [hg, hbyte n (by omega), List.getElem?_map, hi]
      rfl

/-- Setting the positions of a list sets those and keeps the others. -/
theorem getElem?_foldl_set (low : ℕ) (ps : List ℕ) (out : List Bool) {i : ℕ} (hi : i < out.length) :
    ∃ b, (ps.foldl (fun out q => out.set (q - low) true) out)[i]? = some b ∧
      (b = true ↔ out[i]? = some true ∨ ∃ q ∈ ps, q - low = i) := by
  induction ps generalizing out with
  | nil => exact ⟨out[i], List.getElem?_eq_getElem hi, by simp [List.getElem?_eq_getElem hi]⟩
  | cons q ps ih =>
      obtain ⟨b, hb, hiff⟩ := ih (out.set (q - low) true) (by simpa using hi)
      refine ⟨b, hb, hiff.trans ?_⟩
      by_cases hq : q - low = i
      · subst hq
        simp [hi]
      · simp [List.getElem?_set_ne hq, hq]

/-- Marking the positions of every occurrence marks those inside one. -/
theorem getElem?_foldl_mark (high : ℕ) (spans : List (ℕ × ℕ)) (out : List Bool)
    (hlow : low ≤ p) (hp : p - low < out.length) :
    ∃ b, (spans.foldl (fun out span =>
        LiteralGuard.mark low out (max (span.1 + 1) low) (min span.2 (high + 1))) out)[p - low]? =
          some b ∧
      (b = true ↔ out[p - low]? = some true ∨
        ∃ span ∈ spans, span.1 < p ∧ p < span.2 ∧ p ≤ high) := by
  induction spans generalizing out with
  | nil => exact ⟨out[p - low], List.getElem?_eq_getElem hp, by simp [List.getElem?_eq_getElem hp]⟩
  | cons span spans ih =>
      obtain ⟨b, hb, hiff⟩ := getElem?_foldl_set low
        (List.range' (max (span.1 + 1) low) (min span.2 (high + 1) - max (span.1 + 1) low)) out hp
      have hlen : p - low < (LiteralGuard.mark low out (max (span.1 + 1) low)
          (min span.2 (high + 1))).length := (List.getElem?_eq_some_iff.mp hb).1
      obtain ⟨b', hb', hiff'⟩ := ih _ hlen
      refine ⟨b', hb', hiff'.trans ?_⟩
      have hmark : (LiteralGuard.mark low out (max (span.1 + 1) low)
          (min span.2 (high + 1)))[p - low]? = some b := hb
      have hrange : (∃ q ∈ List.range' (max (span.1 + 1) low)
          (min span.2 (high + 1) - max (span.1 + 1) low), q - low = p - low) ↔
            span.1 < p ∧ p < span.2 ∧ p ≤ high := by
        constructor
        · rintro ⟨q, hq, hqp⟩
          rw [List.mem_range'_1] at hq
          omega
        · rintro ⟨h1, h2, h3⟩
          exact ⟨p, by rw [List.mem_range'_1]; omega, rfl⟩
      rw [hmark, Option.some.injEq, hiff, hrange, List.exists_mem_cons_iff, or_assoc]

/-- The Rust guard forbids the positions inside a literal. -/
theorem forbidden_windowOf (literals : List Text) (hlow : low ≤ high)
    (hlo : lo ≤ low - ((LiteralGuard.new literals).lmax - 1))
    (hhi : min t.length (high + ((LiteralGuard.new literals).lmax - 1)) ≤ hi) (ht : hi ≤ t.length) :
    ∃ out, (LiteralGuard.new literals).forbidden A (windowOf t lo hi) low high = .ok out ∧
      ∀ p, low ≤ p → p ≤ high → ∃ b, out[p - low]? = some b ∧ (b = true ↔ Inside literals t p) := by
  unfold LiteralGuard.forbidden
  rw [minus_of_le (by omega), ok_bind]
  by_cases hshort : (LiteralGuard.new literals).matcher = none ∨ (LiteralGuard.new literals).lmax < 2
  · rw [if_pos hshort]
    refine ⟨_, rfl, fun p h1 h2 => ⟨false, ?_, ?_⟩⟩
    · rw [List.getElem?_replicate, if_pos (by omega)]
    · simp only [Bool.false_eq_true, false_iff]
      rintro ⟨w, hw, a, hocc, ha, hp⟩
      have hne : w ≠ [] := by
        rintro rfl
        rw [List.length_nil] at hp
        omega
      rcases hshort with hnone | hlmax
      · exact hne (eq_nil_of_matcher_eq_none hnone hw)
      · have := length_le_lmax hw hne
        omega
  · rw [if_neg hshort]
    have htwo : 2 ≤ (LiteralGuard.new literals).lmax := by
      by_contra h
      exact hshort (Or.inr (by omega))
    have hstop : high + (LiteralGuard.new literals).lmax - 1 =
        high + ((LiteralGuard.new literals).lmax - 1) := by omega
    obtain ⟨found, hfound, hmem⟩ := occurrences_windowOf A literals hlo hhi ht
    have htotal : (windowOf t lo hi).total = t.length := rfl
    simp only [htotal, hstop, hfound, ok_bind]
    refine ⟨_, rfl, fun p h1 h2 => ?_⟩
    obtain ⟨b, hb, hiff⟩ := getElem?_foldl_mark high found
      (List.replicate (high + 1 - low) false) h1 (by rw [List.length_replicate]; omega)
    refine ⟨b, hb, hiff.trans ?_⟩
    rw [List.getElem?_replicate]
    constructor
    · rintro (h | ⟨⟨first, last⟩, hspan, hfirst, hlast, -⟩)
      · split at h <;> simp at h
      · obtain ⟨w, hw, hne, -, hocc, rfl⟩ := (hmem first last).mp hspan
        exact ⟨w, hw, first, hocc.of_take, hfirst, hlast⟩
    · intro hinside
      obtain ⟨w, hw, hne, a, hocc, ha, hp⟩ := inside_iff_touches.mp hinside
      obtain ⟨hstart, htake⟩ := occursAt_reach low high
        (length_le_lmax hw hne) hne hocc (by omega) (by omega)
      exact Or.inr ⟨(a, a + w.length), (hmem _ _).mpr ⟨w, hw, hne, hstart, htake, rfl⟩, ha, hp, h2⟩

/-- The Rust guard reports the spans an occurrence meets. -/
theorem touches_windowOf (literals : List Text)
    (hlo : lo ≤ low - ((LiteralGuard.new literals).lmax - 1))
    (hhi : min t.length (high + ((LiteralGuard.new literals).lmax - 1)) ≤ hi) (ht : hi ≤ t.length) :
    ∃ b, (LiteralGuard.new literals).touches A (windowOf t lo hi) low high = .ok b ∧
      (b = true ↔ Touches literals t low high) := by
  unfold LiteralGuard.touches
  by_cases hnone : (LiteralGuard.new literals).matcher = none
  · rw [if_pos hnone]
    refine ⟨false, rfl, ?_⟩
    simp only [Bool.false_eq_true, false_iff]
    rintro ⟨w, hw, hne, -⟩
    exact hne (eq_nil_of_matcher_eq_none hnone hw)
  · rw [if_neg hnone]
    obtain ⟨found, hfound, hmem⟩ := occurrences_windowOf A literals hlo hhi ht
    have htotal : (windowOf t lo hi).total = t.length := rfl
    simp only [htotal, hfound, ok_bind]
    refine ⟨_, rfl, ?_⟩
    rw [List.any_eq_true]
    constructor
    · rintro ⟨⟨first, last⟩, hspan, htest⟩
      obtain ⟨w, hw, hne, -, hocc, rfl⟩ := (hmem first last).mp hspan
      simp only [Bool.and_eq_true, decide_eq_true_eq] at htest
      exact ⟨w, hw, hne, first, hocc.of_take, htest.1, htest.2⟩
    · rintro ⟨w, hw, hne, a, hocc, ha, hp⟩
      obtain ⟨hstart, htake⟩ := occursAt_reach low high
        (length_le_lmax hw hne) hne hocc ha hp
      exact ⟨(a, a + w.length), (hmem _ _).mpr ⟨w, hw, hne, hstart, htake, rfl⟩, by simp [ha, hp]⟩

end

/-! ## The Python guard -/

namespace Py

theorem before_eq_true {a b : Text} : LiteralGuard.before a b = true ↔
    b.length < a.length ∨ a.length = b.length ∧ a ≤ b := by
  simp [LiteralGuard.before]

/-- The alternatives of the pattern come longest first. -/
theorem pairwise_alternatives (literals : List Text) :
    ((literals.filter (· ≠ [])).dedup.mergeSort LiteralGuard.before).Pairwise
      fun a b => b.length ≤ a.length := by
  have htrans : ∀ a b c : Text, LiteralGuard.before a b = true → LiteralGuard.before b c = true →
      LiteralGuard.before a c = true := by
    intro a b c hab hbc
    rw [before_eq_true] at hab hbc ⊢
    rcases hab with hab | ⟨hab, hle⟩ <;> rcases hbc with hbc | ⟨hbc, hle'⟩
    · exact Or.inl (by omega)
    · exact Or.inl (by omega)
    · exact Or.inl (by omega)
    · exact Or.inr ⟨by omega, le_trans hle hle'⟩
  have htotal : ∀ a b : Text, (LiteralGuard.before a b || LiteralGuard.before b a) = true := by
    intro a b
    rw [Bool.or_eq_true, before_eq_true, before_eq_true]
    rcases Nat.lt_trichotomy a.length b.length with h | h | h
    · exact Or.inr (Or.inl h)
    · rcases le_total a b with hle | hle
      · exact Or.inl (Or.inr ⟨h, hle⟩)
      · exact Or.inr (Or.inr ⟨h.symm, hle⟩)
    · exact Or.inl (Or.inl h)
  refine (List.pairwise_mergeSort htrans htotal _).imp fun {a b} hab => ?_
  rcases before_eq_true.mp hab with h | ⟨h, -⟩ <;> omega

/-- A guard either has no pattern and no literal, or its pattern is made of the literals,
longest first. -/
theorem pattern_eq (literals : List Text) :
    ((LiteralGuard.new literals).pattern = none ∧ ∀ w ∈ literals, w = []) ∨
      ∃ ws, (LiteralGuard.new literals).pattern = some ws ∧
        (∀ w, w ∈ ws ↔ w ∈ literals ∧ w ≠ []) ∧ ws.Pairwise fun a b => b.length ≤ a.length := by
  unfold LiteralGuard.new
  dsimp only
  by_cases hempty : (literals.filter (· ≠ [])).dedup.mergeSort LiteralGuard.before = []
  · refine Or.inl ⟨if_pos hempty, fun w hw => ?_⟩
    by_contra hne
    have hmem := mem_alternatives.mpr ⟨hw, hne⟩
    rw [hempty] at hmem
    cases hmem
  · exact Or.inr ⟨_, if_neg hempty, fun w => mem_alternatives, pairwise_alternatives literals⟩

/-- Every match is an occurrence of an alternative, and every occurrence of an alternative
starts a match that is at least as long. -/
theorem mem_finditer {ws : List Text} {start stop first : ℕ} {w : Text}
    (h : (first, w) ∈ LiteralGuard.finditer ws t start stop) :
    start ≤ first ∧ w ∈ ws ∧ OccursAt w (t.take stop) first := by
  unfold LiteralGuard.finditer at h
  rw [List.mem_filterMap] at h
  obtain ⟨a, ha, hmap⟩ := h
  obtain ⟨w', hfind, heq⟩ := Option.map_eq_some_iff.mp hmap
  cases heq
  have hocc := List.find?_some hfind
  exact ⟨(List.mem_range'_1.mp ha).1, List.mem_of_find?_eq_some hfind, of_decide_eq_true hocc⟩

theorem exists_mem_finditer {ws : List Text} (hws : ws.Pairwise fun a b => b.length ≤ a.length)
    {start stop first : ℕ} {w : Text} (hfirst : start ≤ first) (hle : first ≤ stop) (hw : w ∈ ws)
    (hocc : OccursAt w (t.take stop) first) :
    ∃ w', (first, w') ∈ LiteralGuard.finditer ws t start stop ∧ w.length ≤ w'.length := by
  obtain ⟨w', hfind⟩ : ∃ w', ws.find? (fun w => decide (OccursAt w (t.take stop) first)) = some w' := by
    rw [← Option.isSome_iff_exists, List.find?_isSome]
    exact ⟨w, hw, decide_eq_true hocc⟩
  refine ⟨w', ?_, ?_⟩
  · unfold LiteralGuard.finditer
    rw [List.mem_filterMap]
    exact ⟨first, by rw [List.mem_range'_1]; omega, by rw [hfind]; rfl⟩
  · -- the alternatives before the first that fits do not fit
    obtain ⟨-, as, bs, rfl, has⟩ := List.find?_eq_some_iff_append.mp hfind
    rw [List.mem_append, List.mem_cons] at hw
    rcases hw with hw | rfl | hw
    · have := has w hw
      simp [hocc] at this
    · exact le_rfl
    · exact (List.pairwise_cons.mp (List.pairwise_append.mp hws).2.1).1 w hw

theorem pairwise_finditer (ws : List Text) (t : Text) (start stop : ℕ) :
    (LiteralGuard.finditer ws t start stop).Pairwise fun a b => a.1 ≤ b.1 := by
  unfold LiteralGuard.finditer
  rw [List.pairwise_filterMap]
  have hlt : (List.range' start (stop + 1 - start)).Pairwise (· < ·) := List.pairwise_lt_range'
  refine hlt.imp fun {a b} hab x hx y hy => ?_
  obtain ⟨w, -, rfl⟩ := Option.map_eq_some_iff.mp hx
  obtain ⟨w', -, rfl⟩ := Option.map_eq_some_iff.mp hy
  exact Nat.le_of_lt hab

/-- Stopping at the first match behind the span loses none that meets it. -/
theorem anyTouches_eq {found : List (ℕ × Text)} (h : found.Pairwise fun a b => a.1 ≤ b.1) :
    LiteralGuard.anyTouches low high found = true ↔
      ∃ x ∈ found, x.1 < high ∧ low < x.1 + x.2.length := by
  induction found with
  | nil => simp [LiteralGuard.anyTouches]
  | cons x found ih =>
      obtain ⟨hx, hrest⟩ := List.pairwise_cons.mp h
      obtain ⟨first, w⟩ := x
      unfold LiteralGuard.anyTouches
      by_cases hhigh : high ≤ first
      · rw [if_pos hhigh]
        simp only [Bool.false_eq_true, false_iff]
        rintro ⟨y, hy, hlt, -⟩
        rcases List.mem_cons.mp hy with rfl | hy
        · exact absurd hlt (by omega)
        · have := hx y hy
          omega
      · rw [if_neg hhigh]
        by_cases hlow : low < first + w.length
        · rw [if_pos hlow]
          exact ⟨fun _ => ⟨(first, w), by simp, by simp only; omega, hlow⟩, fun _ => rfl⟩
        · rw [if_neg hlow, ih hrest, List.exists_mem_cons_iff]
          exact ⟨Or.inr, fun h => h.resolve_left fun hc => hlow hc.2⟩

/-- The Python guard forbids the positions inside a literal. -/
theorem mem_forbidden (hlow : low ≤ p) (hhigh : p ≤ high) :
    p ∈ (LiteralGuard.new literals).forbidden t low high ↔ Inside literals t p := by
  have hlmax := lmax_eq literals
  unfold LiteralGuard.forbidden
  rcases pattern_eq literals with ⟨hnone, hall⟩ | ⟨ws, hsome, hmem, hsorted⟩
  · rw [hnone]
    refine ⟨fun h => (by cases h), ?_⟩
    rintro ⟨w, hw, a, -, ha, hp⟩
    rw [hall w hw, List.length_nil] at hp
    omega
  · rw [hsome]
    dsimp only
    rw [hlmax]
    by_cases hshort : (Chunked.LiteralGuard.new literals).lmax < 2
    · rw [if_pos hshort]
      refine ⟨fun h => (by cases h), ?_⟩
      intro hinside
      obtain ⟨w, hw, hne, a, -, ha, hp⟩ := inside_iff_touches.mp hinside
      have := length_le_lmax hw hne
      omega
    · rw [if_neg hshort, List.mem_flatMap]
      constructor
      · rintro ⟨⟨first, w⟩, hfound, hrange⟩
        obtain ⟨-, hw, hocc⟩ := mem_finditer hfound
        rw [List.mem_range'_1] at hrange
        dsimp only at hrange
        exact ⟨w, ((hmem w).mp hw).1, first, hocc.of_take, by omega, by omega⟩
      · intro hinside
        obtain ⟨w, hw, hne, a, hocc, ha, hp⟩ := inside_iff_touches.mp hinside
        have hlen := length_le_lmax hw hne
        have hle := hocc.le_length hne
        obtain ⟨hstart, htake⟩ := occursAt_reach low high hlen hne hocc
          (by omega) (by omega)
        obtain ⟨w', hfound, hlonger⟩ := exists_mem_finditer hsorted
          (show low + 1 - (Chunked.LiteralGuard.new literals).lmax ≤ a by omega)
          (show a ≤ min t.length (high + (Chunked.LiteralGuard.new literals).lmax - 1) by omega)
          ((hmem w).mpr ⟨hw, hne⟩) (by rwa [show high + (Chunked.LiteralGuard.new literals).lmax - 1 =
            high + ((Chunked.LiteralGuard.new literals).lmax - 1) by omega])
        refine ⟨(a, w'), hfound, ?_⟩
        rw [List.mem_range'_1]
        dsimp only
        omega

/-- The Python guard reports the spans an occurrence meets. -/
theorem touches_eq_true :
    (LiteralGuard.new literals).touches t low high = true ↔ Touches literals t low high := by
  have hlmax := lmax_eq literals
  unfold LiteralGuard.touches
  rcases pattern_eq literals with ⟨hnone, hall⟩ | ⟨ws, hsome, hmem, hsorted⟩
  · rw [hnone]
    refine ⟨fun h => (by cases h), ?_⟩
    rintro ⟨w, hw, hne, -⟩
    exact absurd (hall w hw) hne
  · rw [hsome]
    dsimp only
    rw [hlmax, anyTouches_eq (pairwise_finditer ws t _ _)]
    constructor
    · rintro ⟨⟨first, w⟩, hfound, hfirst, hlast⟩
      obtain ⟨-, hw, hocc⟩ := mem_finditer hfound
      exact ⟨w, ((hmem w).mp hw).1, ((hmem w).mp hw).2, first, hocc.of_take, hfirst, hlast⟩
    · rintro ⟨w, hw, hne, a, hocc, ha, hp⟩
      have hlen := length_le_lmax hw hne
      have hpos := List.length_pos_iff.mpr hne
      have hle := hocc.le_length hne
      obtain ⟨hstart, htake⟩ := occursAt_reach low high hlen hne hocc ha hp
      obtain ⟨w', hfound, hlonger⟩ := exists_mem_finditer hsorted
        (show low + 1 - (Chunked.LiteralGuard.new literals).lmax ≤ a by omega)
        (show a ≤ min t.length (high + (Chunked.LiteralGuard.new literals).lmax - 1) by omega)
        ((hmem w).mpr ⟨hw, hne⟩) (by rwa [show high + (Chunked.LiteralGuard.new literals).lmax - 1 =
          high + ((Chunked.LiteralGuard.new literals).lmax - 1) by omega])
      exact ⟨(a, w'), hfound, ha, by simp only; omega⟩

end Py

end Toktier.Chunked
