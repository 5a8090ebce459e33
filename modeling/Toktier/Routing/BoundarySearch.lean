import Mathlib.Data.Nat.Find
import Toktier.Routing.Boundary

/-!
# The boundary search

A session is sealed at the last place in a range of its tail where a token starts, no token
before it reaches further, and the synchronizing predicate accepts the characters that meet
there. The search goes backward over groups of tokens that start at one character, and reads the
characters of the text backward as it goes.

## Main definitions

* `ReverseCharCursor`, with `charAt`: the characters of a text, backward.
* `BpeSyncBoundary.lastBoundary`: the search.
* `BpeSyncBoundary.Certified`: a place where a tail may be cut.

## Main results

* `lastBoundary_eq`: the search finds the last token that satisfies a test.
* `lastBoundary_exact`: the search returns the last certified cut in the range, if there is one.
-/
namespace Toktier.Routing

open Toktier.Lib Toktier.StoreCore

/-- A token and character split that the search returns. -/
structure BpeBoundaryCut where
  cutTokens : ℕ
  cutChar : ℕ
  deriving DecidableEq

/-! ## Characters, backward -/

/-- The characters before `nextIndex`, last one first, and the one that was read last. -/
structure ReverseCharCursor where
  iter : List Char
  nextIndex : ℕ
  cached : Option (ℕ × Char)

namespace ReverseCharCursor

def new (text : Text) (textChars : ℕ) : ReverseCharCursor := ⟨text.reverse, textChars, none⟩

/-- Read backward until the target is read, or the text ends; whether it was read. -/
def back (target : ℕ) : List Char → ℕ → Option (ℕ × Char) → Bool × ReverseCharCursor
  | [], nextIndex, cached => (decide (nextIndex ≤ target), ⟨[], nextIndex, cached⟩)
  | value :: iter, nextIndex, cached =>
      if nextIndex > target then
        back target iter (nextIndex - 1) (some (nextIndex - 1, value))
      else (true, ⟨value :: iter, nextIndex, cached⟩)

/-- The character at the target, when the cursor has not passed it. -/
def charAt (c : ReverseCharCursor) (target : ℕ) : Option Char × ReverseCharCursor :=
  let read : Option Char × ReverseCharCursor :=
    let (found, c) := back target c.iter c.nextIndex c.cached
    if found then
      (c.cached.bind fun entry => if entry.1 = target then some entry.2 else none, c)
    else (none, c)
  match c.cached with
  | some (index, value) =>
      if index = target then (some value, c)
      else if target > index then (none, c)
      else read
  | none => read

/-- The cursor has read the characters from `nextIndex` on. -/
structure On (text : Text) (c : ReverseCharCursor) : Prop where
  le_length : c.nextIndex ≤ text.length
  iter_eq : c.iter = (text.take c.nextIndex).reverse
  cached_eq : c.cached = text[c.nextIndex]?.map fun value => (c.nextIndex, value)

theorem on_new (text : Text) : On text (new text text.length) where
  le_length := le_rfl
  iter_eq := congrArg List.reverse List.take_length.symm
  cached_eq := congrArg (Option.map fun value => (text.length, value))
    (List.getElem?_eq_none le_rfl).symm

section On

variable {text : Text} {target : ℕ} {iter : List Char} {nextIndex : ℕ} {cached : Option (ℕ × Char)}

theorem back_spec (h : On text ⟨iter, nextIndex, cached⟩) (hle : target ≤ nextIndex) :
    ∃ c, back target iter nextIndex cached = (true, c) ∧ On text c ∧ c.nextIndex = target := by
  induction iter generalizing nextIndex cached with
  | nil =>
      have hempty : text.take nextIndex = [] := List.reverse_eq_nil_iff.mp h.iter_eq.symm
      have hzero : nextIndex = 0 := by
        have hlength := congrArg List.length hempty
        have hle : nextIndex ≤ text.length := h.le_length
        rwa [List.length_take, min_eq_left hle] at hlength
      obtain rfl : target = 0 := by omega
      exact ⟨_, by rw [back, hzero]; rfl, hzero ▸ h, rfl⟩
  | cons value iter ih =>
      rw [back]
      split_ifs with hlt
      · obtain ⟨n, rfl⟩ : ∃ n, nextIndex = n + 1 := ⟨nextIndex - 1, by omega⟩
        have hn : n < text.length := h.le_length
        have hiter : value :: iter = (text.take (n + 1)).reverse := h.iter_eq
        rw [List.take_succ_eq_append_getElem hn, List.reverse_append] at hiter
        obtain ⟨rfl, rfl⟩ := List.cons.inj hiter
        refine ih ⟨hn.le, rfl, ?_⟩ (by omega)
        rw [Nat.add_sub_cancel, List.getElem?_eq_getElem hn]
        rfl
      · obtain rfl : nextIndex = target := by omega
        exact ⟨_, rfl, h, rfl⟩

/-- A character that the cursor has not passed is read. -/
theorem charAt_spec {c : ReverseCharCursor} (h : On text c) (hle : target ≤ c.nextIndex)
    (hlt : target < text.length) :
    ∃ c', c.charAt target = (text[target]?, c') ∧ On text c' ∧ c'.nextIndex = target := by
  obtain ⟨iter, nextIndex, cached⟩ := c
  obtain ⟨c', hback, hon, rfl⟩ := back_spec h hle
  have hcached : cached = text[nextIndex]?.map fun value => (nextIndex, value) := h.cached_eq
  have hread : (c'.cached.bind fun entry => if entry.1 = c'.nextIndex then some entry.2 else none) =
      text[c'.nextIndex]? := by
    rw [hon.cached_eq, List.getElem?_eq_getElem hlt, Option.map_some, Option.bind_some, if_pos rfl]
  rw [charAt]
  dsimp only
  rw [hback]
  dsimp only
  rw [if_pos rfl, hread]
  cases hget : text[nextIndex]? with
  | none =>
      rw [hcached, hget]
      exact ⟨c', rfl, hon, rfl⟩
  | some value =>
      rw [hcached, hget]
      dsimp only [Option.map_some]
      split_ifs with heq hgt
      · subst heq
        exact ⟨_, by rw [hget, hcached, hget]; rfl, h, rfl⟩
      · exact absurd hgt (Nat.not_lt.mpr hle)
      · exact ⟨c', rfl, hon, rfl⟩

end On

end ReverseCharCursor

/-! ## The search -/

/-- A row goes down somewhere. -/
def descends : List ℕ → Bool
  | a :: b :: rest => decide (a > b) || descends (b :: rest)
  | _ => false

/-- The first token of the group of tokens before `index` that start at the boundary. -/
def groupStart (starts : List ℕ) (boundary : ℕ) : ℕ → ℕ
  | 0 => 0
  | g + 1 => if starts.getD g 0 = boundary then groupStart starts boundary g else g + 1

theorem groupStart_le (starts : List ℕ) (boundary index : ℕ) :
    groupStart starts boundary index ≤ index := by
  induction index with
  | zero => exact le_rfl
  | succ g ih =>
      rw [groupStart]
      split_ifs
      · exact ih.trans (Nat.le_succ g)
      · exact le_rfl

namespace BpeSyncBoundary

variable (b : BpeSyncBoundary)

/-- The test of one boundary, at the first token `group` of its group, behind a token that ends at
`lastEnd`; nothing when the text has no such characters. -/
def probe (textChars ceiling group boundary lastEnd : ℕ) (cursor : ReverseCharCursor) :
    Option (Bool × ReverseCharCursor) :=
  if boundary ≤ ceiling ∧ boundary > 0 ∧ boundary < textChars ∧ group > 0 ∧ lastEnd ≤ boundary then
    match cursor.charAt boundary with
    | (none, _) => none
    | (some current, cursor) =>
        match cursor.charAt (boundary - 1) with
        | (none, _) => none
        | (some previous, cursor) => some (b.accepts previous current, cursor)
  else some (false, cursor)

/-- The groups backward from the one of token `rightIndex`. -/
def searchBack (textChars : ℕ) (starts ends : List ℕ) (floor ceiling rightIndex : ℕ)
    (cursor : ReverseCharCursor) : Option BpeBoundaryCut :=
  if rightIndex = 0 then none
  else
    let boundary := starts.getD rightIndex 0
    let group := groupStart starts boundary rightIndex
    if boundary ≤ floor then none
    else
      match b.probe textChars ceiling group boundary (ends.getD (group - 1) 0) cursor with
      | none => none
      | some (true, _) => some ⟨group, boundary⟩
      | some (false, cursor) =>
          if group = 0 then none
          else searchBack textChars starts ends floor ceiling (group - 1) cursor
termination_by rightIndex
decreasing_by
  have := groupStart_le starts (starts.getD rightIndex 0) rightIndex
  omega

/-- The last clean token boundary in `(floor, ceil]`. -/
def lastBoundary (text : Text) (textChars : ℕ) (spanStarts spanEnds : List ℕ) (floor ceil : ℕ) :
    Option BpeBoundaryCut :=
  if spanStarts.length ≠ spanEnds.length ∨ spanStarts.length < 2 then none
  else if descends spanStarts then none
  else
    b.searchBack textChars spanStarts spanEnds floor (min ceil textChars) (spanStarts.length - 1)
      (ReverseCharCursor.new text textChars)

/-! ## What the search finds -/

/-- The predicate accepts the characters around a position. -/
def acceptsAt (text : Text) (p : ℕ) : Bool :=
  match text[p - 1]?, text[p]? with
  | some previous, some current => decide (0 < p) && b.accepts previous current
  | _, _ => false

theorem acceptsAt_iff {text : Text} {p : ℕ} : b.acceptsAt text p = true ↔ b.AcceptsAt text p := by
  rw [acceptsAt]
  constructor
  · intro h
    cases hprevious : text[p - 1]? with
    | none => simp [hprevious] at h
    | some x =>
        cases hcurrent : text[p]? with
        | none => simp [hprevious, hcurrent] at h
        | some y =>
            simp only [hprevious, hcurrent, Bool.and_eq_true, decide_eq_true_iff] at h
            exact ⟨x, y, h.1, hprevious, hcurrent, h.2⟩
  · rintro ⟨x, y, hp, hprevious, hcurrent, haccepts⟩
    simp only [hprevious, hcurrent, haccepts, hp, decide_true, Bool.and_self]

/-- A token begins a group where the tail may be cut, in the range. -/
def CutsAt (text : Text) (starts ends : List ℕ) (floor ceil g : ℕ) : Prop :=
  0 < g ∧ starts.getD (g - 1) 0 ≠ starts.getD g 0 ∧ floor < starts.getD g 0 ∧
    starts.getD g 0 ≤ ceil ∧ ends.getD (g - 1) 0 ≤ starts.getD g 0 ∧
      b.acceptsAt text (starts.getD g 0) = true

instance (text : Text) (starts ends : List ℕ) (floor ceil : ℕ) :
    DecidablePred (b.CutsAt text starts ends floor ceil) := fun g => by
  unfold CutsAt
  infer_instance

/-- The cut in front of a token; there is none in front of the first one. -/
def cutBefore (starts : List ℕ) (g : ℕ) : Option BpeBoundaryCut :=
  if g = 0 then none else some ⟨g, starts.getD g 0⟩

end BpeSyncBoundary

theorem descends_eq_false {starts : List ℕ} :
    descends starts = false ↔ starts.Pairwise (· ≤ ·) := by
  induction starts with
  | nil => exact iff_of_true rfl .nil
  | cons a rest ih =>
      cases rest with
      | nil => exact iff_of_true rfl (List.pairwise_singleton _ _)
      | cons b rest =>
          rw [descends, Bool.or_eq_false_iff, ih, decide_eq_false_iff_not, not_lt]
          constructor
          · rintro ⟨hle, hrest⟩
            refine List.pairwise_cons.mpr ⟨List.forall_mem_cons.mpr ⟨hle, fun c hc => ?_⟩, hrest⟩
            exact hle.trans ((List.pairwise_cons.mp hrest).1 c hc)
          · intro h
            obtain ⟨hhead, hrest⟩ := List.pairwise_cons.mp h
            exact ⟨hhead b List.mem_cons_self, hrest⟩

section Search

variable {starts : List ℕ} {g index : ℕ}

theorem getD_mono (hmono : starts.Pairwise (· ≤ ·)) (hle : g ≤ index) (hlt : index < starts.length) :
    starts.getD g 0 ≤ starts.getD index 0 := by
  obtain rfl | hg := hle.eq_or_lt
  · exact le_rfl
  · rw [List.getD_eq_getElem?_getD, List.getD_eq_getElem?_getD, List.getElem?_eq_getElem hlt,
      List.getElem?_eq_getElem (hg.trans hlt)]
    exact List.pairwise_iff_getElem.mp hmono g index (hg.trans hlt) hlt hg

/-- All tokens of the group start at the boundary, and the token before the group does not. -/
theorem groupStart_spec (starts : List ℕ) (boundary index : ℕ) :
    (∀ j, groupStart starts boundary index ≤ j → j < index → starts.getD j 0 = boundary) ∧
      (groupStart starts boundary index = 0 ∨
        starts.getD (groupStart starts boundary index - 1) 0 ≠ boundary) := by
  induction index with
  | zero => exact ⟨fun _ _ hlt => absurd hlt (Nat.not_lt_zero _), .inl rfl⟩
  | succ index ih =>
      rw [groupStart]
      split_ifs with heq
      · refine ⟨fun j hle hlt => ?_, ih.2⟩
        obtain rfl | hlt := Nat.eq_or_lt_of_le (Nat.le_of_lt_succ hlt)
        · exact heq
        · exact ih.1 j hle hlt
      · exact ⟨fun j hle hlt => by omega, .inr heq⟩

/-- A search from the right passes what does not pass the test. -/
theorem findGreatest_pass {p : ℕ → Prop} [DecidablePred p] (hle : g ≤ index)
    (hnot : ∀ j, g < j → j ≤ index → ¬p j) : Nat.findGreatest p index = Nat.findGreatest p g := by
  induction index, hle using Nat.le_induction with
  | base => rfl
  | succ index hle ih =>
      rw [Nat.findGreatest_of_not (hnot _ (by omega) le_rfl)]
      exact ih fun j hlt hle => hnot j hlt (by omega)

end Search

namespace BpeSyncBoundary

section Probe

variable {b : BpeSyncBoundary} {text : Text} {starts ends : List ℕ} {floor ceil : ℕ}
  {cursor : ReverseCharCursor}

/-- What a test answers: whether the place is in the range, behind the token before it, and
accepted by the predicate. -/
theorem probe_spec (ceil group lastEnd : ℕ) {boundary : ℕ} (hon : cursor.On text)
    (hcursor : min boundary text.length ≤ cursor.nextIndex) :
    ∃ accepted cursor', b.probe text.length (min ceil text.length) group boundary lastEnd cursor =
        some (accepted, cursor') ∧ cursor'.On text ∧
      min (boundary - 1) text.length ≤ cursor'.nextIndex ∧
      (accepted = true ↔ 0 < group ∧ boundary ≤ ceil ∧ lastEnd ≤ boundary ∧
        b.acceptsAt text boundary = true) := by
  rw [probe]
  split_ifs with htest
  · obtain ⟨hceil, hpos, hlt, hgroup, hend⟩ := htest
    obtain ⟨c, hc, hon', hindex⟩ := ReverseCharCursor.charAt_spec hon (by omega) hlt
    obtain ⟨c', hc', hon'', hindex'⟩ := ReverseCharCursor.charAt_spec hon'
      (show boundary - 1 ≤ c.nextIndex by omega) (by omega)
    rw [hc, List.getElem?_eq_getElem hlt]
    dsimp only
    rw [hc', List.getElem?_eq_getElem (by omega)]
    refine ⟨_, c', rfl, hon'', by omega, ?_⟩
    rw [acceptsAt, List.getElem?_eq_getElem (by omega), List.getElem?_eq_getElem hlt]
    simp only [hgroup, hpos, hend, le_min_iff.mp hceil, decide_true, Bool.true_and, true_and]
  · refine ⟨false, cursor, rfl, hon, by omega, iff_of_false nofun ?_⟩
    rintro ⟨hgroup, hceil, hend, haccepts⟩
    have hat := (acceptsAt_iff b).mp haccepts
    have := hat.lt_length
    exact htest ⟨by omega, hat.pos, this, hgroup, hend⟩

/-- The search finds the last token before which the tail may be cut. -/
theorem searchBack_eq (hmono : starts.Pairwise (· ≤ ·)) (right : ℕ) (hright : right < starts.length)
    (hon : cursor.On text) (hcursor : min (starts.getD right 0) text.length ≤ cursor.nextIndex) :
    b.searchBack text.length starts ends floor (min ceil text.length) right cursor =
      cutBefore starts (Nat.findGreatest (b.CutsAt text starts ends floor ceil) right) := by
  induction right using Nat.strong_induction_on generalizing cursor with
  | h right ih =>
      rw [searchBack]
      by_cases hzero : right = 0
      · subst hzero
        rw [if_pos rfl, Nat.findGreatest_zero]
        rfl
      rw [if_neg hzero]
      dsimp only
      generalize hboundary : starts.getD right 0 = boundary at hcursor ⊢
      have hgle := groupStart_le starts boundary right
      obtain ⟨hsame, hfirst⟩ := groupStart_spec starts boundary right
      generalize groupStart starts boundary right = g at hgle hsame hfirst ⊢
      -- all tokens of the group start at the boundary
      have hgroup (j : ℕ) (hj : g ≤ j) (hle : j ≤ right) : starts.getD j 0 = boundary := by
        obtain rfl | hlt := hle.eq_or_lt
        · exact hboundary
        · exact hsame j hj hlt
      have hstart := hgroup g le_rfl hgle
      rw [findGreatest_pass hgle fun j hlt hle hcut =>
        hcut.2.1 ((hgroup (j - 1) (by omega) (by omega)).trans (hgroup j (by omega) hle).symm)]
      by_cases hfloor : boundary ≤ floor
      · rw [if_pos hfloor, Nat.findGreatest_eq_zero_iff.mpr fun k _ hk hcut => ?_]
        · rfl
        · have := hcut.2.2.1
          have := getD_mono hmono hk (by omega)
          omega
      rw [if_neg hfloor]
      obtain ⟨accepted, cursor', hprobe, hon', hindex', haccepted⟩ :=
        b.probe_spec ceil g (ends.getD (g - 1) 0) hon hcursor
      have hcut : accepted = true ↔ b.CutsAt text starts ends floor ceil g := by
        rw [haccepted, CutsAt, hstart]
        constructor
        · rintro ⟨hg, hceil, hend, hat⟩
          exact ⟨hg, hfirst.resolve_left (by omega), Nat.lt_of_not_le hfloor, hceil, hend, hat⟩
        · rintro ⟨hg, -, -, hceil, hend, hat⟩
          exact ⟨hg, hceil, hend, hat⟩
      rw [hprobe]
      cases accepted with
      | true =>
          have hg := hcut.mp rfl
          rw [Nat.findGreatest_eq hg, cutBefore, if_neg hg.1.ne', hstart]
      | false =>
          have hg : ¬b.CutsAt text starts ends floor ceil g := fun h => nomatch hcut.mpr h
          cases g with
          | zero =>
              rw [Nat.findGreatest_zero]
              rfl
          | succ k =>
              have hbefore := getD_mono hmono (show k ≤ k + 1 by omega) (by omega)
              have hne := hfirst.resolve_left (Nat.succ_ne_zero k)
              rw [Nat.add_sub_cancel] at hne
              rw [Nat.findGreatest_of_not hg]
              exact ih k (by omega) (by omega) hon' (by omega)

theorem lastBoundary_eq (hmono : starts.Pairwise (· ≤ ·)) (hlength : starts.length = ends.length) :
    b.lastBoundary text text.length starts ends floor ceil =
      cutBefore starts
        (Nat.findGreatest (b.CutsAt text starts ends floor ceil) (starts.length - 1)) := by
  rw [lastBoundary]
  split_ifs with hshort hdescends
  · have hzero : starts.length - 1 = 0 := by omega
    rw [hzero, Nat.findGreatest_zero]
    rfl
  · rw [descends_eq_false.mpr hmono] at hdescends
    cases hdescends
  · exact searchBack_eq hmono _ (by omega) (ReverseCharCursor.on_new text) (min_le_right _ _)

end Probe

/-! ## Certified cuts -/

/-- A place where a tail may be cut: the token is the first one that starts there, no token before
it reaches further, and the predicate accepts the characters that meet there. -/
structure Certified (b : BpeSyncBoundary) (t : TailState) (cut : BpeBoundaryCut) : Prop where
  pos : 0 < cut.cutTokens
  starts_at : t.spanStarts[cut.cutTokens]? = some cut.cutChar
  first : ∀ i < cut.cutTokens, ∀ start ∈ t.spanStarts[i]?, start < cut.cutChar
  behind : ∀ i < cut.cutTokens, ∀ stop ∈ t.spanEnds[i]?, stop ≤ cut.cutChar
  accepts : b.AcceptsAt t.text cut.cutChar

section Certified

variable {b : BpeSyncBoundary} {t : TailState} {floor ceil : ℕ} {cut : BpeBoundaryCut}

theorem certified_iff (cut : BpeBoundaryCut) (hstarts : t.spanStarts.Pairwise (· ≤ ·))
    (hends : t.spanEnds.Pairwise (· ≤ ·)) :
    (b.Certified t cut ∧ floor < cut.cutChar ∧ cut.cutChar ≤ ceil) ↔
      b.CutsAt t.text t.spanStarts t.spanEnds floor ceil cut.cutTokens ∧
        cut.cutTokens < t.spanStarts.length ∧ t.spanStarts.getD cut.cutTokens 0 = cut.cutChar := by
  obtain ⟨g, p⟩ := cut
  have hlength : t.spanStarts.length = t.spanEnds.length :=
    t.starts_length.trans t.ends_length.symm
  dsimp only
  constructor
  · rintro ⟨⟨hpos, hat, hfirst, hbehind, haccepts⟩, hfloor, hceil⟩
    dsimp only at hpos hat hfirst hbehind haccepts
    obtain ⟨hlt, rfl⟩ := List.getElem?_eq_some_iff.mp hat
    have hg : t.spanStarts.getD g 0 = t.spanStarts[g] := by
      rw [List.getD_eq_getElem?_getD, hat]
      rfl
    refine ⟨⟨hpos, ?_, hg ▸ hfloor, hg ▸ hceil, ?_, ?_⟩, hlt, hg⟩
    · have := hfirst (g - 1) (by omega) _ (List.getElem?_eq_getElem (by omega))
      rw [hg, List.getD_eq_getElem?_getD, List.getElem?_eq_getElem (by omega)]
      exact this.ne
    · have := hbehind (g - 1) (by omega) _ (List.getElem?_eq_getElem (by omega))
      rw [hg, List.getD_eq_getElem?_getD, List.getElem?_eq_getElem (by omega)]
      exact this
    · rw [hg]
      exact (b.acceptsAt_iff).mpr haccepts
  · rintro ⟨⟨hpos, hne, hfloor, hceil, hend, haccepts⟩, hlt, rfl⟩
    refine ⟨⟨hpos, ?_, fun i hi start hstart => ?_, fun i hi stop hstop => ?_,
      (b.acceptsAt_iff).mp haccepts⟩, hfloor, hceil⟩
    · dsimp only
      rw [List.getD_eq_getElem?_getD, List.getElem?_eq_getElem hlt]
      rfl
    · dsimp only at hi ⊢
      have hle := getD_mono hstarts (show i ≤ g - 1 by omega) (by omega)
      have hle' := getD_mono hstarts (show g - 1 ≤ g by omega) hlt
      rw [List.getD_eq_getElem?_getD, Option.mem_def.mp hstart, Option.getD_some] at hle
      omega
    · dsimp only at hi ⊢
      have hle := getD_mono hends (show i ≤ g - 1 by omega) (by omega)
      rw [List.getD_eq_getElem?_getD, Option.mem_def.mp hstop, Option.getD_some] at hle
      omega

theorem cutBefore_eq_some {starts : List ℕ} {g : ℕ} :
    cutBefore starts g = some cut ↔ g ≠ 0 ∧ cut = ⟨g, starts.getD g 0⟩ := by
  rw [cutBefore]
  split_ifs with hzero
  · exact iff_of_false nofun fun h => h.1 hzero
  · rw [Option.some_inj, and_iff_right hzero, eq_comm]

end Certified

/-- The search is exact: it returns a cut exactly when the range has a certified one, and then the
last one. -/
theorem lastBoundary_exact (b : BpeSyncBoundary) (t : TailState) (floor ceil : ℕ)
    (hstarts : t.spanStarts.Pairwise (· ≤ ·)) (hends : t.spanEnds.Pairwise (· ≤ ·)) :
    ((∃ cut, b.lastBoundary t.text t.textChars t.spanStarts t.spanEnds floor ceil = some cut) ↔
      ∃ cut, b.Certified t cut ∧ floor < cut.cutChar ∧ cut.cutChar ≤ ceil) ∧
    ∀ cut, b.lastBoundary t.text t.textChars t.spanStarts t.spanEnds floor ceil = some cut →
      b.Certified t cut ∧ floor < cut.cutChar ∧ cut.cutChar ≤ ceil ∧
        ∀ other, b.Certified t other → other.cutChar ≤ ceil → other.cutChar ≤ cut.cutChar := by
  have hlength : t.spanStarts.length = t.spanEnds.length :=
    t.starts_length.trans t.ends_length.symm
  rw [TailState.textChars, lastBoundary_eq hstarts hlength]
  generalize hm : Nat.findGreatest (b.CutsAt t.text t.spanStarts t.spanEnds floor ceil)
    (t.spanStarts.length - 1) = m
  have hmle : m ≤ t.spanStarts.length - 1 := hm ▸ Nat.findGreatest_le _
  -- the last token that passes the test is behind every certified cut in the range
  have hlast {other : BpeBoundaryCut} (h : b.Certified t other) (hfloor : floor < other.cutChar)
      (hceil : other.cutChar ≤ ceil) : other.cutTokens ≤ m ∧ 0 < other.cutTokens ∧
        t.spanStarts.getD other.cutTokens 0 = other.cutChar := by
    obtain ⟨hcuts, hlt, hat⟩ := (certified_iff other hstarts hends).mp ⟨h, hfloor, hceil⟩
    exact ⟨hm ▸ Nat.le_findGreatest (by omega) hcuts, h.pos, hat⟩
  have hfound (hne : m ≠ 0) : b.Certified t ⟨m, t.spanStarts.getD m 0⟩ ∧
      floor < t.spanStarts.getD m 0 ∧ t.spanStarts.getD m 0 ≤ ceil := by
    have hlt : m < t.spanStarts.length := by omega
    exact (certified_iff ⟨m, t.spanStarts.getD m 0⟩ hstarts hends).mpr
      ⟨Nat.findGreatest_of_ne_zero hm hne, hlt, rfl⟩
  refine ⟨⟨fun ⟨cut, hcut⟩ => ?_, fun ⟨other, h, hfloor, hceil⟩ => ?_⟩, fun cut hcut => ?_⟩
  · exact ⟨_, hfound (cutBefore_eq_some.mp hcut).1⟩
  · have := hlast h hfloor hceil
    exact ⟨_, cutBefore_eq_some.mpr ⟨by omega, rfl⟩⟩
  · obtain ⟨hne, rfl⟩ := cutBefore_eq_some.mp hcut
    obtain ⟨hcertified, hfloor, hceil⟩ := hfound hne
    refine ⟨hcertified, hfloor, hceil, fun other h hle => ?_⟩
    by_cases hother : floor < other.cutChar
    · obtain ⟨htokens, -, hat⟩ := hlast h hother hle
      rw [← hat]
      exact getD_mono hstarts htokens (by omega)
    · dsimp only at hfloor ⊢
      omega

/-! ### A gap -/

/-- Letters and digits. -/
def letters : BpeSyncBoundary := ⟨fun c => if c.isDigit then .N else .L⟩

/-- Two tokens with a character between them. -/
def gapTail : TailState where
  text := "ab1".toList
  tailIds := .Owned [0, 1]
  spanStarts := [0, 2]
  spanEnds := [1, 3]
  chars_lt := by decide
  starts_length := rfl
  ends_length := rfl
  spans_within := by simp [SpansWithin]

theorem lastBoundary_exact_gapTail :
    ∃ cut, letters.lastBoundary gapTail.text gapTail.textChars gapTail.spanStarts gapTail.spanEnds
      0 3 = some cut := by
  refine (lastBoundary_exact letters gapTail 0 3 (by decide) (by decide)).1.mpr
    ⟨⟨1, 2⟩, (certified_iff _ (by decide) (by decide)).mpr ⟨?_, by decide, rfl⟩⟩
  decide

/-- The token before a cut need not end where the next one starts. -/
theorem lastBoundary_behind_gap :
    ¬∀ (b : BpeSyncBoundary) (t : TailState) (floor ceil : ℕ), t.spanStarts.Pairwise (· ≤ ·) →
      t.spanEnds.Pairwise (· ≤ ·) →
        ((∃ cut, b.lastBoundary t.text t.textChars t.spanStarts t.spanEnds floor ceil = some cut) ↔
          ∃ cut, b.Certified t cut ∧ t.spanEnds[cut.cutTokens - 1]? = some cut.cutChar ∧
            floor < cut.cutChar ∧ cut.cutChar ≤ ceil) := by
  intro hall
  have hsearch : letters.lastBoundary gapTail.text gapTail.text.length gapTail.spanStarts
      gapTail.spanEnds 0 3 = _ := lastBoundary_eq (by decide) rfl
  have hfound : letters.lastBoundary gapTail.text gapTail.textChars gapTail.spanStarts
      gapTail.spanEnds 0 3 = some ⟨1, 2⟩ := hsearch.trans (by decide)
  obtain ⟨⟨g, p⟩, h, hend, -⟩ := (hall letters gapTail 0 3 (by decide) (by decide)).mp ⟨_, hfound⟩
  obtain ⟨hlt, hat⟩ := List.getElem?_eq_some_iff.mp h.starts_at
  have hpos := h.pos
  have hlength : gapTail.spanStarts.length = 2 := rfl
  obtain rfl : g = 1 := by
    dsimp only at hlt hpos
    omega
  cases hat
  cases hend

end BpeSyncBoundary

end Toktier.Routing
