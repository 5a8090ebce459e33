import Toktier.Routing.WindowedSearch
import Toktier.StoreCore.LazySpansLaws
import Toktier.StoreCore.SealCuts

/-!
# Seals at the boundaries found

The engine of a session names the cuts that its tail is sealed at: with the plain search where the
spans are in memory, and with the windowed one where they have to be rebuilt.

## Main definitions

* `lastCertifiedBoundary`: the query of the engine.
* `FoundIn`: the cuts that one of the searches returns.

## Main results

* `lastCertifiedBoundary_eq`: the query does not depend on how the spans are stored.
* `sealTail_found`: a seal at a cut that was found.
-/
namespace Toktier.Routing

open Toktier.Lib Toktier.StoreCore

/-! ## The query -/

/-- The cut, as the store has it. -/
def BpeBoundaryCut.toBoundaryCut (cut : BpeBoundaryCut) : BoundaryCut := ⟨cut.cutTokens, cut.cutChar⟩

/-- A fault of a fetch is one of the search. -/
def joinFault {α ε : Type} : Decode (Fault ε) α → Decode ε α
  | .ok a => .ok a
  | .error (.Reject fault) => .error fault
  | .error .Panic => .error .Panic

/-- The last certified cut in `(floorChar, ceilChar]` of a tail. -/
def lastCertifiedBoundary (boundary : BpeSyncBoundary) (tail : StoredTail)
    (floorChar ceilChar : ℕ) : Decode StoreError (Option BoundaryCut) :=
  if tail.spansMaterialized then do
    let ((spanStarts, spanEnds), tail) ← tail.forcedSpans
    return (boundary.lastBoundary tail.text tail.textChars spanStarts spanEnds floorChar
      ceilChar).map BpeBoundaryCut.toBoundaryCut
  else do
    let found ← joinFault (boundary.lastBoundaryWindowed tail.spanWindow tail.text tail.textChars
      tail.ids.length floorChar ceilChar SPAN_CHECKPOINT_STRIDE).1
    return found.map BpeBoundaryCut.toBoundaryCut

/-! ## Cuts that were found -/

namespace BpeSyncBoundary

variable {b : BpeSyncBoundary} {starts ends : List ℕ} {textChars floor ceiling right : ℕ}
  {cursor : ReverseCharCursor} {cut : BpeBoundaryCut}

/-- A cut that the search finds is in front of a token, behind the end of the one before. -/
theorem searchBack_found
    (h : b.searchBack textChars starts ends floor ceiling right cursor = some cut) :
    0 < cut.cutTokens ∧ cut.cutTokens ≤ right ∧ starts.getD cut.cutTokens 0 = cut.cutChar ∧
      ends.getD (cut.cutTokens - 1) 0 ≤ cut.cutChar := by
  induction right using Nat.strong_induction_on generalizing cursor with
  | h right ih =>
      rw [searchBack] at h
      by_cases hzero : right = 0
      · rw [if_pos hzero] at h
        cases h
      rw [if_neg hzero] at h
      dsimp only at h
      have hle := groupStart_le starts (starts.getD right 0) right
      have hsame := (groupStart_spec starts (starts.getD right 0) right).1
      generalize groupStart starts (starts.getD right 0) right = group at h hle hsame
      have hstart : starts.getD group 0 = starts.getD right 0 := by
        obtain heq | hlt := hle.eq_or_lt
        · rw [heq]
        · exact hsame group le_rfl hlt
      by_cases hfloor : starts.getD right 0 ≤ floor
      · rw [if_pos hfloor] at h
        cases h
      rw [if_neg hfloor] at h
      cases hread : b.probe textChars ceiling group (starts.getD right 0)
          (ends.getD (group - 1) 0) cursor with
      | none =>
          rw [hread] at h
          cases h
      | some read =>
          rw [hread] at h
          obtain ⟨accepted, cursor'⟩ := read
          cases accepted with
          | true =>
              cases h
              by_cases htest : starts.getD right 0 ≤ ceiling ∧ starts.getD right 0 > 0 ∧
                  starts.getD right 0 < textChars ∧ group > 0 ∧
                    ends.getD (group - 1) 0 ≤ starts.getD right 0
              · exact ⟨htest.2.2.2.1, hle, hstart, htest.2.2.2.2⟩
              · rw [probe, if_neg htest] at hread
                cases hread
          | false =>
              dsimp only at h
              split_ifs at h with hfirst
              obtain ⟨hpos, hcut, hrest⟩ := ih (group - 1) (by omega) h
              exact ⟨hpos, by omega, hrest⟩

/-- One of the two searches over the spans of the tail returned the cut. -/
inductive FoundIn (b : BpeSyncBoundary) (t : TailState) (cut : BpeBoundaryCut) : Prop
  | plain {floor ceil : ℕ}
      (h : b.lastBoundary t.text t.textChars t.spanStarts t.spanEnds floor ceil = some cut)
  | windowed {ε : Type} {floor ceil window : ℕ} {fetch : ℕ → ℕ → Except ε (List ℕ × List ℕ)}
      (hfetch : ∀ lo hi, lo ≤ hi → hi ≤ t.nTokens →
        fetch lo hi = .ok (rowsWindow (t.spanStarts, t.spanEnds) lo hi))
      (h : (b.lastBoundaryWindowed fetch t.text t.textChars t.nTokens floor ceil window).1 =
        .ok (some cut))

/-- The starts behind the cut do not go down, and the plain search finds it if it does not look at
the ones before. -/
theorem FoundIn.exists_searchBack {t : TailState} (h : b.FoundIn t cut) :
    (t.spanStarts.drop cut.cutTokens).Pairwise (· ≤ ·) ∧ ∃ floor ceiling cursor,
      b.searchBack t.textChars t.spanStarts t.spanEnds floor ceiling (t.nTokens - 1) cursor =
        some cut := by
  have hn : t.spanStarts.length = t.nTokens := t.starts_length
  cases h with
  | plain h =>
      rw [lastBoundary, hn] at h
      split_ifs at h with _ hdown
      refine ⟨?_, _, _, _, h⟩
      exact (descends_eq_false.mp (Bool.eq_false_of_not_eq_true hdown)).sublist
        (List.drop_sublist _ _)
  | windowed hfetch h =>
      rename_i floor ceil window fetch
      obtain ⟨answer, spans, hsearch, -, -, hfound⟩ :=
        b.lastBoundaryWindowed_spec t floor ceil window hfetch
      rw [hsearch] at h
      cases h
      obtain ⟨hmono, hplain⟩ := hfound cut rfl
      exact ⟨hmono, _, _, _, hplain⟩

/-- A tail can be sealed at a cut that was found. -/
theorem FoundIn.sealable {t : TailState} (h : b.FoundIn t cut) :
    Sealable t cut.toBoundaryCut := by
  obtain ⟨hmono, floor, ceiling, cursor, hsearch⟩ := h.exists_searchBack
  obtain ⟨hpos, hle, hstart, hend⟩ := searchBack_found hsearch
  have hlt : cut.cutTokens < t.nTokens := by omega
  obtain ⟨start, stop, hgetStart, -⟩ := t.span_at hlt
  rw [List.getD_eq_getElem?_getD, hgetStart, Option.getD_some] at hstart
  subst hstart
  refine ⟨hpos, hlt, hgetStart, fun stop hstop => ?_, fun other hother => ?_⟩
  · have hstop : t.spanEnds[cut.cutTokens - 1]? = some stop := hstop
    rwa [List.getD_eq_getElem?_getD, hstop, Option.getD_some] at hend
  · obtain ⟨hlength, hget⟩ := List.getElem?_eq_some_iff.mp hgetStart
    have hother : other ∈ t.spanStarts.drop cut.cutTokens := hother
    rw [List.drop_eq_getElem_cons hlength, hget] at hmono hother
    obtain rfl | hother := List.mem_cons.mp hother
    · exact le_rfl
    · exact (List.pairwise_cons.mp hmono).1 other hother

end BpeSyncBoundary

/-! ## The query, over any storage -/

/-- What the query answers does not depend on how the spans are stored, as long as starts do not
go down; and the cuts it answers with were found. -/
theorem lastCertifiedBoundary_eq (boundary : BpeSyncBoundary) {tail : StoredTail} {t : TailState}
    (h : tail.Shows t) (floorChar ceilChar : ℕ) :
    ∃ found : Option BpeBoundaryCut, lastCertifiedBoundary boundary tail floorChar ceilChar =
        .ok (found.map BpeBoundaryCut.toBoundaryCut) ∧ (∀ cut ∈ found, boundary.FoundIn t cut) ∧
      (t.spanStarts.Pairwise (· ≤ ·) → found = boundary.lastBoundary t.text t.textChars
        t.spanStarts t.spanEnds floorChar ceilChar) := by
  rw [lastCertifiedBoundary]
  split_ifs with hstored
  · obtain ⟨tail', hforced, h'⟩ := h.forcedSpans
    rw [hforced, ok_bind]
    dsimp only
    rw [h'.text_eq, h'.chars_eq]
    exact ⟨_, rfl, fun cut hcut => .plain hcut, fun _ => rfl⟩
  · have hfetch (lo hi : ℕ) (hle : lo ≤ hi) (hhi : hi ≤ t.nTokens) :
        tail.spanWindow lo hi = .ok (rowsWindow (t.spanStarts, t.spanEnds) lo hi) := by
      rw [h.spanWindow, TailState.spanWindow, if_neg (by omega)]
      rfl
    obtain ⟨answer, spans, hsearch, -, hplain, -⟩ := boundary.lastBoundaryWindowed_spec t floorChar
      ceilChar SPAN_CHECKPOINT_STRIDE hfetch
    rw [h.text_eq, h.chars_eq, h.ids_eq, ← TailState.nTokens, ← TailState.textChars, hsearch]
    refine ⟨answer, rfl, fun cut hcut => ?_, hplain⟩
    exact .windowed hfetch (by rw [hsearch, Option.mem_def.mp hcut])

/-! ## Seals -/

/-- A seal at a cut that was found succeeds: stream and text of the session stay as they are, no
position behind the cut is before it, and the rest of the tail starts at its own origin, with
spans that do not go down. -/
theorem sealTail_found (b : BpeSyncBoundary) (w : Work) (cut : BpeBoundaryCut)
    (h : b.FoundIn w.sess.tail cut) :
    ∃ w', (sealTail cut.toBoundaryCut).run w = .ok () w' ∧
      CleanSeal cut.toBoundaryCut w.sess w'.sess ∧
        w'.sess.tail.spanStarts.head? = some 0 ∧ w'.sess.tail.spanStarts.Pairwise (· ≤ ·) ∧
          (w.sess.tail.spanEnds.Pairwise (· ≤ ·) → w'.sess.tail.spanEnds.Pairwise (· ≤ ·)) := by
  have hsealable := h.sealable
  have hmono := h.exists_searchBack.1
  obtain ⟨w', hrun, hseal⟩ := hsealable.sealTail
  have hshift {row : List ℕ} (hrow : row.Pairwise (· ≤ ·)) :
      (row.map (· - cut.cutChar)).Pairwise (· ≤ ·) :=
    hrow.map _ fun _ _ hle => Nat.sub_le_sub_right hle _
  refine ⟨w', hrun, hseal, ?_, ?_, fun hends => ?_⟩
  · rw [hseal.tail_starts, List.head?_map, List.head?_drop, hsealable.starts, Option.map_some]
    exact congrArg some (Nat.sub_self _)
  · rw [hseal.tail_starts]
    exact hshift hmono
  · rw [hseal.tail_ends]
    exact hshift (hends.sublist (List.drop_sublist _ _))

/-- A session whose tail has two tokens. -/
def gapWork : Work where
  sess := { Session.fresh 0 .BpeSyncTransition 0 with tail := BpeSyncBoundary.gapTail }
  nodes := ∅
  stats := .zero

theorem foundIn_gapTail : BpeSyncBoundary.letters.FoundIn gapWork.sess.tail ⟨1, 2⟩ := by
  have hsearch : BpeSyncBoundary.letters.lastBoundary gapWork.sess.tail.text
      gapWork.sess.tail.text.length gapWork.sess.tail.spanStarts gapWork.sess.tail.spanEnds 0 3 =
        _ := BpeSyncBoundary.lastBoundary_eq (by decide) rfl
  exact .plain (hsearch.trans (by decide))

theorem sealTail_found_gapWork :
    ∃ w', (sealTail ⟨1, 2⟩).run gapWork = .ok () w' ∧ CleanSeal ⟨1, 2⟩ gapWork.sess w'.sess ∧
      w'.sess.tail.spanStarts.head? = some 0 ∧ w'.sess.tail.spanStarts.Pairwise (· ≤ ·) ∧
        (gapWork.sess.tail.spanEnds.Pairwise (· ≤ ·) → w'.sess.tail.spanEnds.Pairwise (· ≤ ·)) :=
  sealTail_found BpeSyncBoundary.letters gapWork ⟨1, 2⟩ foundIn_gapTail

end Toktier.Routing
