import Mathlib.Data.List.Chain
import Toktier.Lib.Decode
import Toktier.Routing.BoundarySearch
import Toktier.StoreCore.LazySpans

/-!
# The windowed boundary search

Where the spans of a tail have to be rebuilt, the boundary search fetches them in windows, from
the end of the tail on and only as far as it goes. The windows are aligned to their size; a group
of tokens may lie in several of them.

The fetched windows and the requests for them are the state of the search; the search also keeps
whether the starts that it has seen go down anywhere, and gives up then.

## Main definitions

* `WindowedSpans`, with `ensure` and `bounds`: the spans that were fetched.
* `BpeSyncBoundary.lastBoundaryWindowed`: the search.

## Main results

* `lastBoundaryWindowed_eq`: it finds what the plain search finds, and requests only windows of
  the tail.
-/
namespace Toktier.Routing

open Toktier.Lib Toktier.StoreCore

/-! ## Fetched windows -/

/-- A window of both rows that was fetched, from token `lo` on. -/
structure SpanChunk where
  lo : ℕ
  starts : List ℕ
  ends : List ℕ

/-- What was fetched: the tokens from `coveredLo` on, in chunks, the last ones first. `requests` are
the windows asked for. -/
structure WindowedSpans where
  window : ℕ
  chunks : List SpanChunk
  coveredLo : ℕ
  monotone : Bool
  requests : List (ℕ × ℕ)

namespace WindowedSpans

variable {ε : Type} (fetch : ℕ → ℕ → Except ε (List ℕ × List ℕ))

def new (window nTokens : ℕ) : WindowedSpans := ⟨max window 1, [], nTokens, true, []⟩

/-- The first token of the window that the token before `hi` is in. -/
def windowLo (window hi : ℕ) : ℕ := (hi - 1) - (hi - 1) % window

/-- Some start in the window, or the first one behind it, is smaller than the one before it. -/
def seam (starts : List ℕ) (chunks : List SpanChunk) : Bool :=
  match starts.getLast?, chunks.getLast? with
  | some last, some right => right.starts.head?.any fun first => decide (last > first)
  | _, _ => false

/-- A window that was fetched. -/
def push (w : WindowedSpans) (lo : ℕ) (rows : List ℕ × List ℕ) : WindowedSpans :=
  { w with
    chunks := w.chunks ++ [⟨lo, rows.1, rows.2⟩]
    coveredLo := lo
    monotone := w.monotone && !descends rows.1 && !seam rows.1 w.chunks }

def request (w : WindowedSpans) (lo hi : ℕ) : WindowedSpans :=
  { w with requests := w.requests ++ [(lo, hi)] }

/-- Fetch windows until the token is covered; whether no start was seen to go down. -/
def ensure (w : WindowedSpans) (index : ℕ) : Except ε Bool × WindowedSpans :=
  if w.coveredLo > index then
    let hi := w.coveredLo
    let lo := windowLo w.window hi
    match fetch lo hi with
    | .error e => (.error e, w.request lo hi)
    | .ok rows => ensure ((w.request lo hi).push lo rows) index
  else (.ok w.monotone, w)
termination_by w.coveredLo
decreasing_by
  simp only [push, windowLo]
  omega

/-- Start and end of a token that is covered. -/
def bounds (w : WindowedSpans) (index : ℕ) : Decode ε (ℕ × ℕ) :=
  match w.chunks.reverse.find? fun chunk =>
      decide (chunk.lo ≤ index ∧ index - chunk.lo < chunk.starts.length) with
  | none => .error .Panic
  | some chunk => do
      let start ← getAt chunk.starts (index - chunk.lo)
      let stop ← getAt chunk.ends (index - chunk.lo)
      return (start, stop)

end WindowedSpans

/-! ## The search -/

section Search

variable {ε : Type} (fetch : ℕ → ℕ → Except ε (List ℕ × List ℕ))

/-- The first token of the group of tokens before `index` that start at the boundary; nothing when
a start was seen to go down. -/
def groupStartWindowed (boundary : ℕ) : ℕ → WindowedSpans → Decode ε (Option ℕ) × WindowedSpans
  | 0, w => (.ok (some 0), w)
  | g + 1, w =>
      match w.ensure fetch g with
      | (.error e, w) => (.error (.Reject e), w)
      | (.ok false, w) => (.ok none, w)
      | (.ok true, w) =>
          match w.bounds g with
          | .error e => (.error e, w)
          | .ok bound =>
              if bound.1 = boundary then groupStartWindowed boundary g w
              else (.ok (some (g + 1)), w)

theorem groupStartWindowed_le {boundary index g : ℕ} {w w' : WindowedSpans}
    (h : groupStartWindowed fetch boundary index w = (.ok (some g), w')) : g ≤ index := by
  induction index generalizing w with
  | zero =>
      cases h
      exact le_rfl
  | succ index ih =>
      rw [groupStartWindowed] at h
      split at h
      · cases h
      · cases h
      · split at h
        · cases h
        · split_ifs at h
          · exact (ih h).trans (Nat.le_succ index)
          · cases h
            exact le_rfl

namespace BpeSyncBoundary

variable (b : BpeSyncBoundary)

/-- Where the token before a group ends, if the test of the boundary looks at it. -/
def lastEnd (w : WindowedSpans) (textChars ceiling group boundary : ℕ) : Decode ε ℕ :=
  if boundary ≤ ceiling ∧ boundary > 0 ∧ boundary < textChars ∧ group > 0 then
    (w.bounds (group - 1)).map Prod.snd
  else .ok 0

/-- The groups backward from the one of token `rightIndex`. -/
def searchBackWindowed (textChars floor ceiling rightIndex : ℕ) (cursor : ReverseCharCursor)
    (w : WindowedSpans) : Decode ε (Option BpeBoundaryCut) × WindowedSpans :=
  if rightIndex = 0 then (.ok none, w)
  else
    match w.ensure fetch rightIndex with
    | (.error e, w) => (.error (.Reject e), w)
    | (.ok false, w) => (.ok none, w)
    | (.ok true, w) =>
        match w.bounds rightIndex with
        | .error e => (.error e, w)
        | .ok (boundary, _) =>
            match _hgroup : groupStartWindowed fetch boundary rightIndex w with
            | (.error e, w) => (.error e, w)
            | (.ok none, w) => (.ok none, w)
            | (.ok (some group), w) =>
                if boundary ≤ floor then (.ok none, w)
                else
                  match lastEnd w textChars ceiling group boundary with
                  | .error e => (.error e, w)
                  | .ok lastEnd =>
                      match b.probe textChars ceiling group boundary lastEnd cursor with
                      | none => (.ok none, w)
                      | some (true, _) => (.ok (some ⟨group, boundary⟩), w)
                      | some (false, cursor) =>
                          if group = 0 then (.ok none, w)
                          else searchBackWindowed textChars floor ceiling (group - 1) cursor w
termination_by rightIndex
decreasing_by
  have := groupStartWindowed_le fetch _hgroup
  omega

/-- The last clean token boundary in `(floor, ceil]`, of a tail whose spans are fetched. -/
def lastBoundaryWindowed (text : Text) (textChars nTokens floor ceil windowTokens : ℕ) :
    Decode ε (Option BpeBoundaryCut) × WindowedSpans :=
  if nTokens < 2 then (.ok none, .new windowTokens nTokens)
  else
    b.searchBackWindowed fetch textChars floor (min ceil textChars) (nTokens - 1)
      (ReverseCharCursor.new text textChars) (.new windowTokens nTokens)

end BpeSyncBoundary

end Search

/-! ## The windows of a tail -/

section Fetched

variable {ε : Type} {fetch : ℕ → ℕ → Except ε (List ℕ × List ℕ)} {starts ends : List ℕ}
  {w : WindowedSpans}

/-- The windows are those of two rows, and the flag is that the starts covered do not go down. -/
structure Fetched (starts ends : List ℕ) (w : WindowedSpans) : Prop where
  window_pos : 0 < w.window
  covered_le : w.coveredLo ≤ starts.length
  bounds_eq {ε : Type} : ∀ i, w.coveredLo ≤ i → i < starts.length →
    (w.bounds i : Decode ε (ℕ × ℕ)) = .ok (starts.getD i 0, ends.getD i 0)
  head_eq : (w.chunks.getLast?.bind fun right => right.starts.head?) = starts[w.coveredLo]?
  monotone : w.monotone = true ↔ (starts.drop w.coveredLo).Pairwise (· ≤ ·)
  requests_in : ∀ r ∈ w.requests, r.1 < r.2 ∧ r.2 ≤ starts.length

theorem fetched_new (starts ends : List ℕ) (window : ℕ) :
    Fetched starts ends (.new window starts.length) where
  window_pos := Nat.lt_of_lt_of_le Nat.zero_lt_one (le_max_right _ _)
  covered_le := le_rfl
  bounds_eq _ hle hlt := absurd hlt (Nat.not_lt.mpr hle)
  head_eq := (List.getElem?_eq_none le_rfl).symm
  monotone := iff_of_true rfl (by
    rw [WindowedSpans.new, List.drop_length]
    exact .nil)
  requests_in := nofun

/-- The starts behind a covered token do not go down unless the flag says so. -/
theorem Fetched.mono (h : Fetched starts ends w) (hmonotone : w.monotone = true) {g : ℕ}
    (hcovered : w.coveredLo ≤ g) : (starts.drop g).Pairwise (· ≤ ·) := by
  have hdrop : starts.drop g = (starts.drop w.coveredLo).drop (g - w.coveredLo) := by
    rw [List.drop_drop, Nat.add_sub_cancel' hcovered]
  rw [hdrop]
  exact (h.monotone.mp hmonotone).sublist (List.drop_sublist _ _)

theorem windowLo_lt {window hi : ℕ} (hpos : 0 < hi) : WindowedSpans.windowLo window hi < hi := by
  unfold WindowedSpans.windowLo
  omega

/-- The row of a window. -/
theorem getElem?_window {row : List ℕ} {lo hi i : ℕ} :
    ((row.take hi).drop lo)[i]? = if lo + i < hi then row[lo + i]? else none := by
  rw [List.getElem?_drop, List.getElem?_take]

/-- The chunk that holds a token of the newest window, or an older one. -/
theorem find?_chunk {chunks : List SpanChunk} {lo i : ℕ} {starts ends : List ℕ} :
    (chunks ++ [(⟨lo, starts, ends⟩ : SpanChunk)]).reverse.find?
        (fun chunk => decide (chunk.lo ≤ i ∧ i - chunk.lo < chunk.starts.length)) =
      if lo ≤ i ∧ i - lo < starts.length then some ⟨lo, starts, ends⟩
      else chunks.reverse.find?
        fun chunk => decide (chunk.lo ≤ i ∧ i - chunk.lo < chunk.starts.length) := by
  rw [List.reverse_append, List.reverse_singleton, List.singleton_append, List.find?_cons]
  split_ifs with hin
  · rw [decide_eq_true hin]
  · rw [decide_eq_false hin]

theorem seam_eq_false {starts : List ℕ} {chunks : List SpanChunk} :
    WindowedSpans.seam starts chunks = false ↔ ∀ last ∈ starts.getLast?,
      ∀ first ∈ chunks.getLast?.bind fun right => right.starts.head?, last ≤ first := by
  unfold WindowedSpans.seam
  cases starts.getLast? with
  | none => exact iff_of_true rfl nofun
  | some last =>
      cases chunks.getLast? with
      | none => exact iff_of_true rfl fun _ _ => nofun
      | some right =>
          dsimp only [Option.bind_some]
          cases right.starts.head? with
          | none => exact iff_of_true rfl fun _ _ => nofun
          | some first =>
              rw [Option.any_some, decide_eq_false_iff_not, not_lt]
              constructor
              · rintro hle _ ⟨⟩ _ ⟨⟩
                exact hle
              · exact fun h => h last rfl first rfl

/-- Starts go on not going down in front of the ones covered if they do not in the window, nor at
the seam. -/
theorem monotone_window {lo hi : ℕ} (hlo : lo ≤ hi) (hhi : hi ≤ starts.length)
    {chunks : List SpanChunk}
    (hhead : (chunks.getLast?.bind fun right => right.starts.head?) = starts[hi]?) :
    (starts.drop lo).Pairwise (· ≤ ·) ↔ (starts.drop hi).Pairwise (· ≤ ·) ∧
      descends ((starts.take hi).drop lo) = false ∧
        WindowedSpans.seam ((starts.take hi).drop lo) chunks = false := by
  have hsplit : starts.drop lo = (starts.take hi).drop lo ++ starts.drop hi := by
    rw [← List.drop_append_of_le_length (by rw [List.length_take]; omega), List.take_append_drop]
  rw [hsplit, ← List.isChain_iff_pairwise, List.isChain_append, List.isChain_iff_pairwise,
    List.isChain_iff_pairwise, descends_eq_false, seam_eq_false, hhead, List.head?_drop]
  exact ⟨fun ⟨hwindow, hrest, hseam⟩ => ⟨hrest, hwindow, hseam⟩,
    fun ⟨hrest, hwindow, hseam⟩ => ⟨hwindow, hrest, hseam⟩⟩

/-- One more window is fetched. -/
theorem Fetched.push (h : Fetched starts ends w) (hlength : starts.length = ends.length) {lo : ℕ}
    (hlo : lo < w.coveredLo) :
    Fetched starts ends ((w.request lo w.coveredLo).push lo
      (rowsWindow (starts, ends) lo w.coveredLo)) := by
  have hle := h.covered_le
  have hrow (row : List ℕ) (i : ℕ) (hlolei : lo ≤ i) (hlt : i < row.length)
      (hi : i < w.coveredLo) {ε : Type} :
      (getAt ((row.take w.coveredLo).drop lo) (i - lo) : Decode ε ℕ) = .ok (row.getD i 0) := by
    refine getAt_of_some ?_
    rw [getElem?_window, Nat.add_sub_cancel' hlolei, if_pos hi, List.getElem?_eq_getElem hlt,
      List.getD_eq_getElem?_getD, List.getElem?_eq_getElem hlt]
    rfl
  refine ⟨h.window_pos, hlo.le.trans hle, fun i hi hlt => ?_, ?_, ?_, fun r hr => ?_⟩
  · have hi : lo ≤ i := hi
    unfold WindowedSpans.bounds WindowedSpans.push
    dsimp only [WindowedSpans.request, rowsWindow]
    have hsize : ((starts.take w.coveredLo).drop lo).length = w.coveredLo - lo := by
      rw [List.length_drop, List.length_take, min_eq_left hle]
    rw [find?_chunk, hsize]
    by_cases hin : i < w.coveredLo
    · rw [if_pos ⟨hi, by omega⟩]
      dsimp only
      rw [hrow starts i hi hlt hin, ok_bind, hrow ends i hi (by omega) hin]
      rfl
    · rw [if_neg (by omega)]
      exact h.bounds_eq i (Nat.le_of_not_lt hin) hlt
  · dsimp only [WindowedSpans.push, WindowedSpans.request, rowsWindow]
    rw [List.getLast?_concat, Option.bind_some, List.head?_eq_getElem?, getElem?_window,
      Nat.add_zero, if_pos hlo]
  · dsimp only [WindowedSpans.push, WindowedSpans.request, rowsWindow]
    rw [monotone_window hlo.le hle h.head_eq, ← h.monotone, Bool.and_eq_true, Bool.and_eq_true,
      Bool.not_eq_true', Bool.not_eq_true', and_assoc]
  · obtain hr | hr := List.mem_append.mp hr
    · exact h.requests_in r hr
    · obtain rfl := List.mem_singleton.mp hr
      exact ⟨hlo, hle⟩

/-- The windows that can be fetched are those of two rows of the same length. -/
structure FetchesRows (fetch : ℕ → ℕ → Except ε (List ℕ × List ℕ)) (starts ends : List ℕ) :
    Prop where
  fetch_eq : ∀ lo hi, lo ≤ hi → hi ≤ starts.length →
    fetch lo hi = .ok (rowsWindow (starts, ends) lo hi)
  length_eq : starts.length = ends.length

/-- A token is covered once it was asked for. -/
theorem ensure_spec (hrows : FetchesRows fetch starts ends) (h : Fetched starts ends w)
    (index : ℕ) :
    ∃ w', w.ensure fetch index = (.ok w'.monotone, w') ∧ Fetched starts ends w' ∧
      w'.coveredLo ≤ index := by
  generalize hn : w.coveredLo = n
  induction n using Nat.strong_induction_on generalizing w with
  | h n ih =>
      subst hn
      rw [WindowedSpans.ensure]
      split_ifs with hlt
      · have hlo : WindowedSpans.windowLo w.window w.coveredLo < w.coveredLo :=
          windowLo_lt (Nat.zero_lt_of_lt hlt)
        dsimp only
        rw [hrows.fetch_eq _ _ hlo.le h.covered_le]
        exact ih _ hlo (h.push hrows.length_eq hlo) rfl
      · exact ⟨w, rfl, h, Nat.le_of_not_lt hlt⟩

/-- The group of a token is the one in the rows, unless starts were seen to go down; the token
before it is covered. -/
theorem groupStartWindowed_spec (hrows : FetchesRows fetch starts ends)
    (h : Fetched starts ends w) (boundary : ℕ) {index : ℕ} (hlt : index < starts.length) :
    ∃ answer w', groupStartWindowed fetch boundary index w = (.ok answer, w') ∧
      Fetched starts ends w' ∧
        (answer = none ∧ w'.monotone = false ∨
          answer = some (groupStart starts boundary index) ∧
            (groupStart starts boundary index = 0 ∨ w'.monotone = true ∧
              w'.coveredLo ≤ groupStart starts boundary index - 1)) := by
  induction index generalizing w with
  | zero => exact ⟨_, w, rfl, h, .inr ⟨rfl, .inl rfl⟩⟩
  | succ g ih =>
      obtain ⟨w', hensure, h', hcovered⟩ := ensure_spec hrows h g
      rw [groupStartWindowed, hensure]
      cases hmonotone : w'.monotone with
      | false => exact ⟨none, w', rfl, h', .inl ⟨rfl, hmonotone⟩⟩
      | true =>
          dsimp only
          rw [h'.bounds_eq g hcovered (by omega), groupStart]
          dsimp only
          split_ifs with heq
          · exact ih h' (by omega)
          · exact ⟨_, w', rfl, h', .inr ⟨rfl, .inr ⟨hmonotone, hcovered⟩⟩⟩

namespace BpeSyncBoundary

/-- The test of a boundary reads the end of the token before it only where it looks at it. -/
theorem probe_lastEnd (b : BpeSyncBoundary) (textChars ceiling : ℕ) (cursor : ReverseCharCursor)
    (h : Fetched starts ends w) (hlength : starts.length = ends.length)
    {group : ℕ} (boundary : ℕ) (hlt : group < starts.length)
    (hcovered : group = 0 ∨ w.coveredLo ≤ group - 1) :
    ∃ stop, (lastEnd w textChars ceiling group boundary : Decode ε ℕ) = .ok stop ∧
      b.probe textChars ceiling group boundary stop cursor =
        b.probe textChars ceiling group boundary (ends.getD (group - 1) 0) cursor := by
  rw [lastEnd]
  split_ifs with htest
  · refine ⟨ends.getD (group - 1) 0, ?_, rfl⟩
    rw [h.bounds_eq (group - 1) (hcovered.resolve_left (by omega)) (by omega)]
    rfl
  · refine ⟨0, rfl, ?_⟩
    rw [probe, probe, if_neg fun h => htest ⟨h.1, h.2.1, h.2.2.1, h.2.2.2.1⟩,
      if_neg fun h => htest ⟨h.1, h.2.1, h.2.2.1, h.2.2.2.1⟩]

/-- The search answers as the plain one does as long as starts are not seen to go down, and finds
a cut only in front of tokens whose starts do not. -/
theorem searchBackWindowed_spec (b : BpeSyncBoundary) (textChars floor ceiling : ℕ)
    (cursor : ReverseCharCursor) (hrows : FetchesRows fetch starts ends) (h : Fetched starts ends w) (right : ℕ) (hright : right < starts.length) :
    ∃ answer w', b.searchBackWindowed fetch textChars floor ceiling right cursor w =
        (.ok answer, w') ∧ Fetched starts ends w' ∧
      (w'.monotone = true →
        answer = b.searchBack textChars starts ends floor ceiling right cursor) ∧
      ∀ cut ∈ answer, w'.monotone = true ∧ w'.coveredLo ≤ cut.cutTokens := by
  induction right using Nat.strong_induction_on generalizing cursor w with
  | h right ih =>
      rw [searchBackWindowed, searchBack]
      by_cases hzero : right = 0
      · rw [if_pos hzero, if_pos hzero]
        exact ⟨_, w, rfl, h, fun _ => rfl, by simp⟩
      rw [if_neg hzero, if_neg hzero]
      obtain ⟨w₁, hensure, h₁, hcovered⟩ := ensure_spec hrows h right
      rw [hensure]
      by_cases hmonotone : w₁.monotone = true
      case neg =>
          rw [Bool.eq_false_of_not_eq_true hmonotone]
          exact ⟨none, w₁, rfl, h₁, fun h => absurd h hmonotone, by simp⟩
      rw [hmonotone]
      dsimp only
      rw [h₁.bounds_eq right hcovered hright]
      dsimp only
      generalize starts.getD right 0 = boundary
      obtain ⟨answer, w₂, hgroup, h₂, hanswer⟩ :=
        groupStartWindowed_spec hrows h₁ boundary hright
      have hle := groupStart_le starts boundary right
      rw [hgroup]
      obtain ⟨rfl, hdown⟩ | ⟨rfl, hbefore⟩ := hanswer
      · refine ⟨none, w₂, rfl, h₂, fun h => ?_, by simp⟩
        exact absurd (hdown.symm.trans h) Bool.false_ne_true
      dsimp only
      generalize groupStart starts boundary right = group at hbefore hle ⊢
      by_cases hfloor : boundary ≤ floor
      · rw [if_pos hfloor, if_pos hfloor]
        exact ⟨none, w₂, rfl, h₂, fun _ => rfl, by simp⟩
      rw [if_neg hfloor, if_neg hfloor]
      obtain ⟨stop, hstop, hprobe⟩ := probe_lastEnd (ε := ε) b textChars ceiling cursor h₂
        hrows.length_eq boundary (hle.trans_lt hright) (hbefore.imp_right And.right)
      rw [hstop]
      dsimp only
      rw [hprobe]
      cases hread : b.probe textChars ceiling group boundary (ends.getD (group - 1) 0) cursor with
      | none => exact ⟨none, w₂, rfl, h₂, fun _ => rfl, by simp⟩
      | some read =>
          obtain ⟨accepted, cursor'⟩ := read
          cases accepted with
          | true =>
              have hpos : 0 < group := by
                by_contra hnot
                rw [probe, if_neg fun h => hnot h.2.2.2.1] at hread
                cases hread
              obtain ⟨hmono, hcover⟩ := hbefore.resolve_left hpos.ne'
              refine ⟨_, w₂, rfl, h₂, fun _ => rfl, ?_⟩
              rintro _ ⟨⟩
              exact ⟨hmono, hcover.trans (Nat.sub_le _ _)⟩
          | false =>
              dsimp only
              split_ifs with hfirst
              · exact ⟨none, w₂, rfl, h₂, fun _ => rfl, by simp⟩
              · exact ih (group - 1) (by omega) cursor' h₂ (by omega)

end BpeSyncBoundary

end Fetched

namespace BpeSyncBoundary

/-- The search over the spans of a tail. -/
theorem lastBoundaryWindowed_spec {ε : Type} (b : BpeSyncBoundary) (t : TailState)
    (floor ceil window : ℕ) {fetch : ℕ → ℕ → Except ε (List ℕ × List ℕ)}
    (hfetch : ∀ lo hi, lo ≤ hi → hi ≤ t.nTokens →
      fetch lo hi = .ok (rowsWindow (t.spanStarts, t.spanEnds) lo hi)) :
    ∃ answer spans, b.lastBoundaryWindowed fetch t.text t.textChars t.nTokens floor ceil window =
        (.ok answer, spans) ∧ Fetched t.spanStarts t.spanEnds spans ∧
      ((t.spanStarts.Pairwise (· ≤ ·)) →
        answer = b.lastBoundary t.text t.textChars t.spanStarts t.spanEnds floor ceil) ∧
      ∀ cut ∈ answer, (t.spanStarts.drop cut.cutTokens).Pairwise (· ≤ ·) ∧
        b.searchBack t.textChars t.spanStarts t.spanEnds floor (min ceil t.textChars)
          (t.nTokens - 1) (ReverseCharCursor.new t.text t.textChars) = some cut := by
  have hn : t.spanStarts.length = t.nTokens := t.starts_length
  have hlength : t.spanStarts.length = t.spanEnds.length :=
    t.starts_length.trans t.ends_length.symm
  rw [← hn] at hfetch ⊢
  have hnew := fetched_new t.spanStarts t.spanEnds window
  rw [lastBoundaryWindowed, lastBoundary]
  by_cases hshort : t.spanStarts.length < 2
  · rw [if_pos hshort, if_pos (.inr hshort)]
    exact ⟨_, _, rfl, hnew, fun _ => rfl, by simp⟩
  · rw [if_neg hshort, if_neg fun h => hshort (h.resolve_left (not_not.mpr hlength))]
    obtain ⟨answer, spans, hsearch, hspans, hplain, hcut⟩ := searchBackWindowed_spec b t.textChars
      floor (min ceil t.textChars) (ReverseCharCursor.new t.text t.textChars) ⟨hfetch, hlength⟩ hnew
      (t.spanStarts.length - 1) (by omega)
    refine ⟨answer, spans, hsearch, hspans, fun hmono => ?_, fun cut hmem => ?_⟩
    · rw [descends_eq_false.mpr hmono, if_neg Bool.false_ne_true]
      exact hplain (hspans.monotone.mpr (hmono.sublist (List.drop_sublist _ _)))
    · obtain ⟨hmonotone, hcovered⟩ := hcut cut hmem
      exact ⟨hspans.mono hmonotone hcovered, (hplain hmonotone).symm.trans hmem⟩

/-- Over a tail whose starts do not go down, and whose windows are those of its spans, the search
finds what the plain one finds, and asks for windows of the tail only. -/
theorem lastBoundaryWindowed_eq {ε : Type} (b : BpeSyncBoundary) (t : TailState)
    (floor ceil window : ℕ) (fetch : ℕ → ℕ → Except ε (List ℕ × List ℕ))
    (hfetch : ∀ lo hi, lo ≤ hi → hi ≤ t.nTokens →
      fetch lo hi = .ok (rowsWindow (t.spanStarts, t.spanEnds) lo hi))
    (hstarts : t.spanStarts.Pairwise (· ≤ ·)) :
    ∃ spans, b.lastBoundaryWindowed fetch t.text t.textChars t.nTokens floor ceil window =
        (.ok (b.lastBoundary t.text t.textChars t.spanStarts t.spanEnds floor ceil), spans) ∧
      ∀ r ∈ spans.requests, r.1 < r.2 ∧ r.2 ≤ t.nTokens := by
  obtain ⟨answer, spans, hsearch, hspans, hplain, -⟩ :=
    b.lastBoundaryWindowed_spec t floor ceil window hfetch
  obtain rfl := hplain hstarts
  have hn : t.spanStarts.length = t.nTokens := t.starts_length
  exact ⟨spans, hsearch, hn ▸ hspans.requests_in⟩

/-- Two tokens, each in a window of its own. -/
theorem lastBoundaryWindowed_eq_gapTail :
    ∃ spans, letters.lastBoundaryWindowed (ε := Unit)
        (fun lo hi => .ok (rowsWindow (gapTail.spanStarts, gapTail.spanEnds) lo hi)) gapTail.text
        gapTail.textChars gapTail.nTokens 0 3 1 =
      (.ok (letters.lastBoundary gapTail.text gapTail.textChars gapTail.spanStarts gapTail.spanEnds
        0 3), spans) ∧ ∀ r ∈ spans.requests, r.1 < r.2 ∧ r.2 ≤ gapTail.nTokens :=
  lastBoundaryWindowed_eq letters gapTail 0 3 1 _ (fun _ _ _ _ => rfl) (by decide)

end BpeSyncBoundary

end Toktier.Routing
