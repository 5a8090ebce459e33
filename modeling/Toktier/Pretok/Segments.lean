import Toktier.Lib.Regex
import Toktier.Pretok.Runs

/-!
# Segments and the shared alternatives

The rules see a text one segment at a time: a stretch between two marks of the
`dstart` channel. Runs, look-back and the end of the text are those of the segment.
The patterns of the rule sets share their last alternatives, the ones for
punctuation and for white space.

## Main results

* `Segment.exists_run`: the run of a character of a segment.
* `Segment.spaceRule_iff`: the marks of a white run of a segment.
* `segment_of_isPiece`: a mask and its maximum scan make segments.
* `first_spaces_newline`, `first_spaces_end`, `first_spaces_keep`, `first_spaces_one`: what the
  white space alternatives match.
-/
namespace Toktier.Pretok

open Lib Pattern

variable {γ : Type} {b : Buffers γ} {rc : γ → γ} {wsf : γ → Bool} {tab : ℕ → γ}
  {lo hi rs re i j : ℕ}

/-! ### Segments -/

/-- The characters from `lo` up to `hi` are one segment. -/
structure Segment (b : Buffers γ) (lo hi : ℕ) : Prop where
  lt : lo < hi
  le : hi ≤ b.n
  start : lo = 0 ∨ b.dstart lo = true
  inner : ∀ j, lo < j → j < hi → b.dstart j = false
  stop : hi = b.n ∨ b.dstart hi = true
  dso : ∀ j, lo ≤ j → j < hi → b.dso j = lo

/-- A run of a segment. -/
structure RunIn (b : Buffers γ) (rc : γ → γ) (lo hi rs re : ℕ) : Prop where
  isRun : IsRun b.head b.n rs re
  lo_le : lo ≤ rs
  le_hi : re ≤ hi
  same : ∀ j, rs ≤ j → j < re → rc (b.cls j) = rc (b.cls rs)
  before : rs = lo ∨ rc (b.cls (rs - 1)) ≠ rc (b.cls rs)
  after : re = hi ∨ rc (b.cls re) ≠ rc (b.cls rs)

/-- A run starts where the class changes. -/
theorem RunIn.start_eq (hr : RunIn b rc lo hi rs re) (h1 : rs ≤ i) (h2 : i < re)
    (h : i = lo ∨ rc (b.cls (i - 1)) ≠ rc (b.cls i)) : rs = i := by
  by_contra hne
  have hlo := hr.lo_le
  rcases h with h | h
  · omega
  · exact h ((hr.same (i - 1) (by omega) (by omega)).trans (hr.same i h1 h2).symm)

namespace Segment

variable (hs : Segment b lo hi)

include hs

theorem not_start (h1 : lo < j) (h2 : j < hi) : ¬ (j = 0 ∨ b.dstart j = true) := by
  rw [hs.inner j h1 h2]
  rintro (h | h)
  · omega
  · exact Bool.noConfusion h

variable (hb : Filled b rc wsf tab)

include hb

theorem head_iff (h1 : lo < j) (h2 : j < hi) :
    b.head j = true ↔ rc (b.cls (j - 1)) ≠ rc (b.cls j) := by
  rw [hb.head, ← or_assoc, or_iff_right (hs.not_start h1 h2)]

/-- Every character of a segment is in a run of the segment. -/
theorem exists_run (h1 : lo ≤ i) (h2 : i < hi) :
    ∃ rs re, RunIn b rc lo hi rs re ∧ rs ≤ i ∧ i < re := by
  have hle := hs.le
  obtain ⟨rs, re, hr, hi1, hi2⟩ := hb.exists_run (show i < b.n by omega)
  have hlo : lo ≤ rs := by
    by_contra hlt
    have hh : b.head lo = true := (hb.head lo).2 (by rcases hs.start with h | h <;> simp [h])
    rw [hr.inner lo (by omega) (by omega)] at hh
    exact Bool.noConfusion hh
  have hhi : re ≤ hi := by
    by_contra hlt
    rcases hs.stop with h | h
    · have := hr.le
      omega
    · have hh : b.head hi = true := (hb.head hi).2 (Or.inr (Or.inl h))
      rw [hr.inner hi (by omega) (by omega)] at hh
      exact Bool.noConfusion hh
  refine ⟨rs, re, ⟨hr, hlo, hhi, fun j h3 h4 => hb.rc_eq hr h3 h4, ?_, ?_⟩, hi1, hi2⟩
  · rcases Nat.eq_or_lt_of_le hlo with h | h
    · exact Or.inl h.symm
    · exact Or.inr ((hs.head_iff hb h (by omega)).1 hr.start)
  · rcases Nat.eq_or_lt_of_le hhi with h | h
    · exact Or.inl h
    · right
      have hlt := hr.lt
      have hh := (hs.head_iff hb (show lo < re by omega) h).1 (hr.stop.resolve_left (by omega))
      rw [hb.rc_eq hr (show rs ≤ re - 1 by omega) (by omega)] at hh
      exact hh.symm

/-- The marks of a white run of a segment. -/
theorem spaceRule_iff [DecidableEq γ] (punct : γ) (hr : RunIn b rc lo hi rs re)
    (hw : ∀ j, rs ≤ j → j < re → wsf (b.cls j) = true) :
    ∃ eff tail, SpaceRun b.cp (lo < rs ∧ b.cls (rs - 1) = punct) rs re eff tail ∧
      ∀ i, rs ≤ i → i < re → (spaceRule b punct i = true ↔
        i = eff ∨ i = tail ∨ (i + 1 = re ∧ tail + 2 ≤ re ∧ re < hi)) := by
  have hlt := hr.isRun.lt
  have hlo := hr.lo_le
  have hhi := hr.le_hi
  have hdso := hs.dso rs hlo (by omega)
  obtain ⟨eff, tail, h, hmark⟩ := hb.spaceRule_iff punct hr.isRun hw
    fun j h1 h2 => by rw [hs.dso j (by omega) (by omega), hdso]
  rw [hdso] at h
  refine ⟨eff, tail, h, fun i h1 h2 => ?_⟩
  have hle := hs.le
  have hend : (re < b.n ∧ b.dstart re = false) ↔ re < hi := by
    constructor
    · rintro ⟨h3, h4⟩
      refine Nat.lt_of_le_of_ne hhi fun heq => ?_
      rcases hs.stop with h5 | h5
      · omega
      · rw [← heq, h4] at h5
        exact Bool.noConfusion h5
    · intro h3
      exact ⟨by omega, hs.inner re (by omega) h3⟩
  rw [hmark i h1 h2, hend]

end Segment

/-! ### The segments of a mask -/

section Mask

variable {f : ℕ → ℕ}

theorem inclusiveMax_le (hf : ∀ k, f k ≤ k) (i : ℕ) : inclusiveMax f i ≤ i := by
  induction i with
  | zero => exact hf 0
  | succ i ih => exact max_le (ih.trans (Nat.le_succ i)) (hf (i + 1))

/-- A head is its own maximum. -/
theorem inclusiveMax_head (hf : ∀ k, f k ≤ k) (h : f i = i) : inclusiveMax f i = i := by
  cases i with
  | zero => exact h
  | succ i =>
      rw [inclusiveMax, h]
      exact max_eq_right ((inclusiveMax_le hf i).trans (Nat.le_succ i))

/-- A member that is no head keeps the head before it. -/
theorem inclusiveMax_member (h : f (i + 1) = 0) : inclusiveMax f (i + 1) = inclusiveMax f i := by
  rw [inclusiveMax, h]
  exact max_eq_left (Nat.zero_le _)

/-- The marks of a mask cut the text into segments; `dso` holds the last mark. -/
theorem segment_of_isPiece [DecidableEq γ] {B : ℕ → Bool} {cp ars mem : ℕ → ℕ} {order : List ℕ}
    {n a e : ℕ} (hp : IsPiece (fun j => B j = true) 0 n a e) :
    Segment (buffers rc wsf tab cp n B (inclusiveMax (kDsoSeed B)) ars mem order) a e where
  lt := hp.lt
  le := hp.le
  start := Or.inr hp.start
  inner := fun j h1 h2 => eq_false_of_ne_true (hp.inner j h1 h2)
  stop := hp.stop
  dso := fun j h1 h2 => by
    change inclusiveMax (kDsoSeed B) j = a
    induction j, h1 using Nat.le_induction with
    | base =>
        refine inclusiveMax_head (fun k => ?_) (if_pos hp.start)
        rw [kDsoSeed]
        split <;> omega
    | succ j h1 ih =>
        rw [inclusiveMax_member (if_neg (hp.inner (j + 1) (by omega) h2)), ih (by omega)]

end Mask

/-- Nothing before position `k` of the segment takes a punctuation character that stands there. -/
def Free (b : Buffers γ) (punct : γ) (lo k : ℕ) : Prop :=
  k = lo ∨ (b.cls (k - 1) ≠ punct ∧ b.cp (k - 1) ≠ 32)

/-! ### Punctuation and words -/

section Alternatives

variable {text : ℕ → ℕ} {stop e f t : ℕ} {p q white nl : ℕ → Bool}

/-- `[p]+[nl]*` -/
def punctuation (p nl : ℕ → Bool) : Pattern ℕ := many1 p ++ many nl

/-- `[q]?[p]+` -/
def word (q p : ℕ → Bool) : Pattern ℕ := opt q ++ many1 p

theorem first_many1 (hie : i < e) (he : e ≤ stop) (hall : ∀ j, i ≤ j → j < e → p (text j) = true)
    (hend : e = stop ∨ ¬ p (text e) = true) : first text stop (many1 p) i = some e := by
  have h : first text stop (many1 p) i = some (i + (e - i)) :=
    first_rep (takes_run hie.le he hall hend) (by omega)
  rwa [show i + (e - i) = e by omega] at h

theorem first_many1_none (h : stop ≤ i ∨ ¬ p (text i) = true) :
    first text stop (many1 p) i = none :=
  first_rep_none (takes_zero h) Nat.zero_lt_one

/-- Punctuation takes its run and the newlines after it. -/
theorem first_punctuation (hie : i < e) (hef : e ≤ f) (hf : f ≤ stop)
    (hp : ∀ j, i ≤ j → j < e → p (text j) = true) (hpe : e = stop ∨ ¬ p (text e) = true)
    (hnl : ∀ j, e ≤ j → j < f → nl (text j) = true) (hend : f = stop ∨ ¬ nl (text f) = true) :
    first text stop (punctuation p nl) i = some f := by
  refine first_rep_seq (takes_run hie.le (hef.trans hf) hp hpe) (k := e - i) (by omega) le_rfl ?_
    fun j h1 h2 => by omega
  have h : first text stop (many nl) e = some (e + (f - e)) :=
    first_rep (takes_run hef hf hnl hend) (Nat.zero_le _)
  rw [show i + (e - i) = e by omega]
  rwa [show e + (f - e) = f by omega] at h

theorem first_punctuation_none (h : stop ≤ i ∨ ¬ p (text i) = true) :
    first text stop (punctuation p nl) i = none :=
  first_rep_seq_none_of_zero (takes_zero h) Nat.zero_lt_one

/-- A word with its prefix character. -/
theorem first_word_prefix (hq : q (text i) = true) (hie : i + 1 < e) (he : e ≤ stop)
    (hall : ∀ j, i + 1 ≤ j → j < e → p (text j) = true) (hend : e = stop ∨ ¬ p (text e) = true) :
    first text stop (word q p) i = some e :=
  first_opt_seq (by omega) hq (first_many1 hie he hall hend)

/-- A word at one of its characters, which may serve as the prefix. -/
theorem first_word (hie : i < e) (he : e ≤ stop)
    (hall : ∀ j, i ≤ j → j < e → p (text j) = true) (hend : e = stop ∨ ¬ p (text e) = true) :
    first text stop (word q p) i = some e := by
  by_cases h : q (text i) = true ∧ i + 1 < e
  · exact first_word_prefix h.1 h.2 he (fun j h1 h2 => hall j (by omega) h2) hend
  · have hskip : i < stop → q (text i) = true → first text stop (many1 p) (i + 1) = none := by
      intro _ hq
      obtain rfl : e = i + 1 := by
        by_contra hne
        exact h ⟨hq, by omega⟩
      exact first_many1_none (hend.imp_left fun h => h.ge)
    rw [word, first_opt_seq_skip hskip]
    exact first_many1 hie he hall hend

theorem first_word_none (hp : ¬ p (text i) = true)
    (h : q (text i) = true → stop ≤ i + 1 ∨ ¬ p (text (i + 1)) = true) :
    first text stop (word q p) i = none := by
  rw [word, first_opt_seq_skip fun _ hq => first_many1_none (h hq)]
  exact first_many1_none (Or.inr hp)

/-! ### White space -/

/-- `\s*[\r\n]+|\s+(?!\S)|\s+` -/
def spaces (white nl : ℕ → Bool) : Pattern ℕ :=
  many white ++ many1 nl <|> many1 white ++ notAhead (fun c => !white c) <|> many1 white

theorem first_spaces_none (hw : ∀ c, nl c = true → white c = true)
    (h : ¬ white (text i) = true) : first text stop (spaces white nl) i = none := by
  have h0 : ∀ o, Takes text stop white o i 0 := fun o => takes_zero (Or.inr h)
  have h1 : first text stop (many white ++ many1 nl) i = none := by
    refine first_rep_seq_none (h0 none) fun j _ h2 => ?_
    rw [Nat.le_zero.1 h2, Nat.add_zero]
    exact first_many1_none (Or.inr fun h' => h (hw _ h'))
  have h2 : first text stop (many1 white ++ notAhead (fun c => !white c)) i = none :=
    first_rep_seq_none_of_zero (h0 none) Nat.zero_lt_one
  rw [spaces, first_alt_right h1, first_alt_right h2]
  exact first_many1_none (Or.inr h)

/-- A white run up to `re` in which no newline follows position `t`. -/
structure WhiteFrom (text : ℕ → ℕ) (stop : ℕ) (white nl : ℕ → Bool) (i t re : ℕ) : Prop where
  nl_white : ∀ c, nl c = true → white c = true
  lt : i < re
  le : re ≤ stop
  le_re : t ≤ re
  all : ∀ j, i ≤ j → j < re → white (text j) = true
  rest : ∀ j, t ≤ j → j < re → ¬ nl (text j) = true
  after : re = stop ∨ ¬ white (text re) = true

variable (hw : WhiteFrom text stop white nl i t re)

include hw

theorem WhiteFrom.takes : Takes text stop white none i (re - i) :=
  takes_run hw.lt.le hw.le hw.all hw.after

theorem WhiteFrom.no_newline (h1 : t ≤ j) (h2 : j ≤ re) :
    stop ≤ j ∨ ¬ nl (text j) = true := by
  rcases Nat.eq_or_lt_of_le h2 with rfl | h2
  · rcases hw.after with h | h
    · exact Or.inl h.ge
    · exact Or.inr fun hn => h (hw.nl_white _ hn)
  · exact Or.inr (hw.rest j h1 h2)

/-- White space with a newline is taken up to its last newline. -/
theorem first_spaces_newline (hit : i < t) (hnl : nl (text (t - 1)) = true) :
    first text stop (spaces white nl) i = some t := by
  have hle := hw.le_re
  have hst := hw.le
  refine first_alt_left (first_rep_seq hw.takes (k := t - 1 - i) (Nat.zero_le _) (by omega) ?_ ?_)
  · rw [show i + (t - 1 - i) = t - 1 by omega]
    refine first_many1 (by omega) (by omega) (fun j h1 h2 => ?_) ?_
    · rwa [show j = t - 1 by omega]
    · rcases hw.no_newline le_rfl hle with h | h
      · exact Or.inl (by omega)
      · exact Or.inr h
  · intro j h1 h2
    exact first_many1_none (hw.no_newline (by omega) (by omega))

variable (hti : t ≤ i)

include hti

theorem first_spaces_skip : first text stop (spaces white nl) i =
    (first text stop (many1 white ++ notAhead (fun c => !white c)) i).or (some re) := by
  have hlt := hw.lt
  have h : first text stop (many white ++ many1 nl) i = none :=
    first_rep_seq_none hw.takes fun j _ h2 =>
      first_many1_none (hw.no_newline (by omega) (by omega))
  rw [spaces, first_alt_right h, first_alt, first_many1 hw.lt hw.le hw.all hw.after]

/-- Without newlines it is taken whole at the end of the segment. -/
theorem first_spaces_end (hre : re = stop) : first text stop (spaces white nl) i = some re := by
  have hlt := hw.lt
  have h : first text stop (many1 white ++ notAhead (fun c => !white c)) i = some re := by
    refine first_rep_seq hw.takes (k := re - i) (by omega) le_rfl ?_ fun j h1 h2 => by omega
    rw [show i + (re - i) = re by omega]
    exact first_notAhead (Or.inl hre.ge)
  rw [first_spaces_skip hw hti, h]
  rfl

omit hti in
/-- The last space before another character is refused by the lookahead. -/
theorem notAhead_last (hre : re < stop) (hj : i + j = re) :
    first text stop (notAhead (fun c => !white c)) (i + j) = none := by
  have hwh := hw.after.resolve_left (by omega)
  rw [hj]
  exact first_notAhead_none hre (by simp [hwh])

/-- Before another character its last one is left. -/
theorem first_spaces_keep (hre : re < stop) (h2 : i + 2 ≤ re) :
    first text stop (spaces white nl) i = some (re - 1) := by
  have h : first text stop (many1 white ++ notAhead (fun c => !white c)) i = some (re - 1) := by
    refine first_rep_seq hw.takes (k := re - 1 - i) (by omega) (by omega) ?_
      fun j h3 h4 => notAhead_last hw hre (by omega)
    have hwh := hw.all (re - 1) (by omega) (by omega)
    rw [show i + (re - 1 - i) = re - 1 by omega]
    exact first_notAhead (Or.inr (by simp [hwh]))
  rw [first_spaces_skip hw hti, h]
  rfl

/-- A single space before another character is taken. -/
theorem first_spaces_one (hre : re < stop) (h1 : i + 1 = re) :
    first text stop (spaces white nl) i = some re := by
  have h : first text stop (many1 white ++ notAhead (fun c => !white c)) i = none :=
    first_rep_seq_none hw.takes fun j h3 h4 => notAhead_last hw hre (by omega)
  rw [first_spaces_skip hw hti, h]
  rfl

end Alternatives

/-! ### From mark to mark -/

section Steps

variable {cp : ℕ → ℕ} {white : ℕ → Bool} {mark : ℕ → Prop} {absorb : Prop} {r : Pattern ℕ}
  {eff tail p f s : ℕ}

/-- From `i` the match ends at `e`: nothing in between is marked, and `e` is unless the
segment ends there. -/
def Ends (mark : ℕ → Prop) (hi i e : ℕ) : Prop :=
  i < e ∧ e ≤ hi ∧ (∀ j, i < j → j < e → ¬ mark j) ∧ (e < hi → mark e)

/-- A white run from `rs` to `re` and its marks. -/
structure WhiteRun (cp : ℕ → ℕ) (white : ℕ → Bool) (mark : ℕ → Prop) (hi : ℕ) (absorb : Prop)
    (rs re eff tail : ℕ) : Prop extends SpaceRun cp absorb rs re eff tail where
  lt : rs < re
  le : re ≤ hi
  all : ∀ j, rs ≤ j → j < re → white (cp j) = true
  after : re = hi ∨ ¬ white (cp re) = true
  mark_iff : ∀ i, rs ≤ i → i < re →
    (mark i ↔ i = eff ∨ i = tail ∨ (i + 1 = re ∧ tail + 2 ≤ re ∧ re < hi))

variable (hw : ∀ c, crlf c = true → white c = true)
  (h : WhiteRun cp white mark hi absorb rs re eff tail)

include hw h

theorem WhiteRun.whiteFrom (h1 : rs ≤ i) (h2 : i < re) :
    WhiteFrom cp hi white crlf i tail re where
  nl_white := hw
  lt := h2
  le := h.le
  le_re := h.tail_le
  all := fun j h3 h4 => h.all j (h1.trans h3) h4
  rest := fun j h3 h4 => by
    rw [h.rest j h3 h4]
    exact Bool.false_ne_true
  after := h.after

/-- A match from a marked character of a white run: up to the last newline, all but the
last character of what follows it, or that character. The pattern matters only where the
last character may prefix something. -/
theorem WhiteRun.step (hskip : ∀ i, rs ≤ i → i < re → (i + 1 = re → re < hi → crlf (cp i) = true) →
      first cp hi r i = first cp hi (spaces white crlf) i)
    (hlast : ∀ i, rs ≤ i → tail ≤ i → i + 1 = re → re < hi →
      ∃ e, first cp hi r i = some e ∧ Ends mark hi i e)
    (hnewline : re < hi → crlf (cp (re - 1)) = true → mark re)
    (h1 : rs ≤ i) (h2 : i < re) (hm : mark i) :
    ∃ e, first cp hi r i = some e ∧ Ends mark hi i e := by
  have hle := h.le
  have htail := h.tail_le
  have heff := h.le_eff
  have het := h.eff_le
  have hwhite := h.whiteFrom hw h1 h2
  by_cases hl : i + 1 = re ∧ tail ≤ i ∧ re < hi
  · exact hlast i h1 hl.2.1 hl.1 hl.2.2
  have hi' := (h.mark_iff i h1 h2).1 hm
  rcases Nat.lt_or_ge i tail with hit | hit
  · -- the newlines of the run, up to the last one
    obtain rfl : i = eff := by omega
    have hnl := h.newline hit
    refine ⟨tail, ?_, hit, by omega, fun j h3 h4 hj => ?_, fun hlt => ?_⟩
    · rw [hskip i h1 h2 fun h3 _ => by rwa [show i = tail - 1 by omega]]
      exact first_spaces_newline hwhite hit hnl
    · have := (h.mark_iff j (by omega) (by omega)).1 hj
      omega
    · rcases Nat.eq_or_lt_of_le htail with rfl | h3
      · exact hnewline hlt hnl
      · exact (h.mark_iff tail (by omega) h3).2 (Or.inr (Or.inl rfl))
  · rcases Nat.eq_or_lt_of_le hle with rfl | hlt
    · -- the segment ends with the run
      have hit' : i = tail ∨ i + 1 = re := by omega
      refine ⟨re, ?_, h2, le_rfl, fun j h3 h4 hj => ?_, fun h3 => by omega⟩
      · rw [hskip i h1 h2 fun _ h4 => by omega]
        exact first_spaces_end hwhite hit rfl
      · have := (h.mark_iff j (by omega) h4).1 hj
        omega
    · -- the rest of the run, without its last character before another one
      obtain rfl : i = tail := by omega
      have hlong : i + 2 ≤ re := by omega
      refine ⟨re - 1, ?_, by omega, by omega, fun j h3 h4 hj => ?_, fun _ => ?_⟩
      · rw [hskip i h1 h2 fun h3 => by omega]
        exact first_spaces_keep hwhite le_rfl hlt hlong
      · have := (h.mark_iff j (by omega) (by omega)).1 hj
        omega
      · exact (h.mark_iff (re - 1) (by omega) (by omega)).2
          (Or.inr (Or.inr ⟨by omega, hlong, hlt⟩))

omit h

/-- A match of punctuation from `s`, which `i` starts or is the space before: the newlines that
it takes from the white run behind it are not marked, and what follows them is. -/
theorem punctuation_step {punct : ℕ → Bool} (hs : s < hi) (hc : punct (cp s) = true)
    (hi' : i = s ∨ (i + 1 = s ∧ ¬ mark s))
    (hinner : ∀ j, s < j → j < hi → punct (cp (j - 1)) = true → punct (cp j) = true → ¬ mark j)
    (hrun : ∀ p, s < p → p < hi → punct (cp (p - 1)) = true → white (cp p) = true →
      ∃ absorb re eff tail, WhiteRun cp white mark hi absorb p re eff tail ∧ absorb)
    (hother : ∀ p, s < p → p < hi → (∀ k, s ≤ k → k < p → punct (cp k) = true) →
      ¬ punct (cp p) = true → ¬ white (cp p) = true → mark p)
    (hafter : ∀ e, s < e → e < hi → crlf (cp (e - 1)) = true → ¬ white (cp e) = true → mark e) :
    ∃ f, first cp hi (punctuation punct crlf) s = some f ∧ Ends mark hi i f := by
  obtain ⟨p, hsp, hp, hall, hend⟩ := exists_run cp punct hs.le
  obtain ⟨f, hpf, hf, hnl, hfe⟩ := exists_run cp crlf hp
  replace hsp : s < p := by
    rcases hend with h | h
    · omega
    · exact Nat.lt_of_le_of_ne hsp fun heq => h (heq ▸ hc)
  have hP := hall (p - 1) (by omega) (by omega)
  have hno : ∀ j, s < j → j < f → ¬ mark j := fun j h1 h2 hm => by
    rcases Nat.lt_or_ge j p with h3 | h3
    · exact hinner j h1 (by omega) (hall (j - 1) (by omega) (by omega)) (hall j h1.le h3) hm
    · obtain ⟨absorb, re, eff, tail, h, habs⟩ := hrun p hsp (by omega) hP
        (hw _ (hnl p le_rfl (by omega)))
      have h4 := h.tail_le
      have h5 := h.eff_le
      have hre : f ≤ re := by
        by_contra hlt
        exact h.after.resolve_left (by omega) (hw _ (hnl re h.lt.le (by omega)))
      have := (h.mark_iff j h3 (by omega)).1 hm
      have h6 := h.eff_other habs
      have h7 := hnl eff h.le_eff
      by_cases h8 : eff < f
      · rw [h7 h8] at h6
        exact Bool.noConfusion (h6 (by omega))
      · omega
  refine ⟨f, first_punctuation hsp hpf hf hall hend hnl hfe, by omega, hf, fun j h1 h2 => ?_,
    fun hlt => ?_⟩
  · rcases Nat.lt_or_ge s j with h | h
    · exact hno j h h2
    · rcases hi' with rfl | ⟨h3, h4⟩
      · omega
      · rwa [show j = s by omega]
  · have hfc := hfe.resolve_left (by omega)
    by_cases hwf : white (cp f) = true
    · -- the run of `f` starts at `p`
      have hwp : white (cp p) = true := by
        rcases Nat.eq_or_lt_of_le hpf with rfl | h
        · exact hwf
        · exact hw _ (hnl p le_rfl h)
      obtain ⟨absorb, re, eff, tail, h, habs⟩ := hrun p hsp (by omega) hP hwp
      have h4 := h.tail_le
      have h5 := h.eff_le
      have hre : f < re := by
        by_contra hge
        refine h.after.resolve_left (by omega) ?_
        rcases Nat.eq_or_lt_of_le (Nat.le_of_not_lt hge) with heq | hlt'
        · rwa [heq]
        · exact hw _ (hnl re h.lt.le hlt')
      refine (h.mark_iff f hpf hre).2 (Or.inl ?_)
      rcases Nat.lt_trichotomy eff f with h6 | h6 | h6
      · have := h.eff_other habs (by omega)
        rw [hnl eff h.le_eff h6] at this
        exact Bool.noConfusion this
      · exact h6.symm
      · exact absurd (h.absorbed f hpf h6) hfc
    · rcases Nat.eq_or_lt_of_le hpf with rfl | h
      · exact hother p hsp hlt hall (hend.resolve_left (by omega)) hwf
      · exact hafter f (by omega) hlt (hnl (f - 1) (by omega) (by omega)) hwf

end Steps

end Toktier.Pretok
