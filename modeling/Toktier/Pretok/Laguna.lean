import Toktier.Pretok.Cl100k

/-!
# The Laguna rules cut like two splitters

The pre-tokenizer is a sequence of two splitters: one cuts before every run of newlines, and the
GPT-style one cuts each piece that it leaves. The kernels mark the cuts of the first in the `B`
channel and run the rules of the second on the segments between them.

## Main definitions

* `newlines`: the pattern of the first splitter.
* `NewlineStart`: what the mask looks for in a window of two characters.

## Main results

* `mem_newline_starts`: that is where the matches start.
* `kLagBMask_eq`: and what the mask marks inside a document.
* `rulesCl100k_congr`: the marks of a segment are those of its text alone.
* `laguna_starts`: the marks of a text are the pieces of the sequence.
-/
namespace Toktier.Pretok

open Lib Pattern

/-! ### Runs of newlines -/

/-- `\r?\n` -/
def newline : Pattern ℕ := opt (· = 13) ++ one (· = 10)

/-- `(?:\r?\n)+`, in a text of `n` characters. -/
def newlines (n : ℕ) : Pattern ℕ := repeated newline n

/-- A newline starts here: LF, or CR and LF. -/
def NewlineAt (text : ℕ → ℕ) (stop i : ℕ) : Prop :=
  i < stop ∧ text i = 10 ∨ i + 1 < stop ∧ text i = 13 ∧ text (i + 1) = 10

/-- A run of newlines starts here: no newline ends before it, and CR does not precede its LF. -/
def NewlineStart (text : ℕ → ℕ) (lo stop i : ℕ) : Prop :=
  NewlineAt text stop i ∧
    (lo < i → text (i - 1) ≠ 10 ∧ ¬ (text i = 10 ∧ text (i - 1) = 13))

section Newlines

variable {text : ℕ → ℕ} {lo stop i j k e : ℕ}

/-- A newline ends in one way. -/
theorem ends_newline : ends text stop newline i =
    if i < stop ∧ text i = 10 then [i + 1]
    else if i + 1 < stop ∧ text i = 13 ∧ text (i + 1) = 10 then [i + 2] else [] := by
  have hseq : ends text stop newline i =
      (ends text stop (opt (· = 13)) i).flatMap (ends text stop (one (· = 10))) := rfl
  by_cases hcr : i < stop ∧ text i = 13
  · have htakes : Takes text stop (· = 13) (some 1) i 1 := takes_one hcr.1 (decide_eq_true hcr.2)
    rw [Takes] at htakes
    have hopt : ends text stop (opt (· = 13)) i = [i + 1, i] := by
      rw [opt, ends, htakes]
      rfl
    have hlf : ¬ (i < stop ∧ text i = 10) := by omega
    rw [hseq, hopt, if_neg hlf, List.flatMap_cons, List.flatMap_singleton, ends_one, ends_one]
    simp [hcr.2]
  · have htakes : Takes text stop (· = 13) (some 1) i 0 := takes_zero (by
      rcases Nat.lt_or_ge i stop with hi | hi
      · exact Or.inr fun h => hcr ⟨hi, of_decide_eq_true h⟩
      · exact Or.inl hi)
    rw [Takes] at htakes
    have hopt : ends text stop (opt (· = 13)) i = [i] := by
      rw [opt, ends, htakes]
      rfl
    have hno : ¬ (i + 1 < stop ∧ text i = 13 ∧ text (i + 1) = 10) := fun h => hcr ⟨by omega, h.2.1⟩
    rw [hseq, hopt, if_neg hno, List.flatMap_singleton, ends_one]
    simp

/-- A run of newlines up to `e`: every character in it follows a newline or is the LF of one. -/
structure NewlineRun (text : ℕ → ℕ) (stop i e : ℕ) : Prop where
  lt : i < e
  le : e ≤ stop
  last : text (e - 1) = 10
  inner : ∀ j, i < j → j < e → text (j - 1) = 10 ∨ text j = 10 ∧ text (j - 1) = 13

/-- One newline. -/
theorem newlineRun_of_ends (h : e ∈ ends text stop newline i) : NewlineRun text stop i e := by
  rw [ends_newline] at h
  split_ifs at h with hlf hcr
  · obtain rfl := List.mem_singleton.1 h
    exact ⟨by omega, by omega, hlf.2, fun j h1 h2 => by omega⟩
  · obtain rfl := List.mem_singleton.1 h
    refine ⟨by omega, by omega, hcr.2.2, fun j h1 h2 => ?_⟩
    obtain rfl : j = i + 1 := by omega
    exact Or.inr ⟨hcr.2.2, hcr.2.1⟩
  · exact absurd h List.not_mem_nil

theorem NewlineRun.trans {f : ℕ} (h : NewlineRun text stop i e) (h' : NewlineRun text stop e f) :
    NewlineRun text stop i f where
  lt := h.lt.trans h'.lt
  le := h'.le
  last := h'.last
  inner := fun j h1 h2 => by
    rcases Nat.lt_trichotomy j e with h3 | rfl | h3
    · exact h.inner j h1 h3
    · exact Or.inl h.last
    · exact h'.inner j h3 h2

theorem newlineAt_iff : NewlineAt text stop i ↔ ∃ e, ends text stop newline i = [e] := by
  rw [ends_newline, NewlineAt]
  split_ifs with hlf hcr
  · exact iff_of_true (Or.inl hlf) ⟨_, rfl⟩
  · exact iff_of_true (Or.inr hcr) ⟨_, rfl⟩
  · exact iff_of_false (fun h => h.elim hlf hcr) (by simp)

theorem first_newlines_none (h : ¬ NewlineAt text stop i) :
    first text stop (newlines k) i = none := by
  have hnil : ends text stop newline i = [] := by
    rw [newlineAt_iff, ends_newline] at h
    rw [ends_newline]
    split_ifs at h ⊢
    · exact absurd ⟨_, rfl⟩ h
    · exact absurd ⟨_, rfl⟩ h
    · rfl
  rw [newlines]
  cases k with
  | zero => rw [repeated, first, hnil]; rfl
  | succ k =>
    rw [repeated, first_alt, first_seq, hnil, first, hnil]
    rfl

/-- The match from a newline is the whole run of newlines. -/
theorem first_newlines (h : NewlineAt text stop i) : ∃ e, first text stop (newlines k) i = some e ∧
    NewlineRun text stop i e ∧ (stop - i ≤ k → ¬ NewlineAt text stop e) := by
  induction k generalizing i with
  | zero =>
    obtain ⟨e, he⟩ := newlineAt_iff.1 h
    have hrun := newlineRun_of_ends (he ▸ List.mem_singleton_self e)
    have hlt := hrun.lt
    have hle := hrun.le
    refine ⟨e, ?_, hrun, fun hk => by omega⟩
    rw [newlines, repeated, first, he]
    rfl
  | succ k ih =>
    obtain ⟨e, he⟩ := newlineAt_iff.1 h
    have hrun := newlineRun_of_ends (he ▸ List.mem_singleton_self e)
    have hlt := hrun.lt
    have hone : first text stop newline i = some e := by
      rw [first, he]
      rfl
    have hmore : first text stop (newline ++ newlines k) i = first text stop (newlines k) e := by
      rw [first_seq, he, List.findSome?_singleton]
    have hsucc : newlines (k + 1) = ((newline ++ newlines k) <|> newline) := rfl
    rw [hsucc]
    by_cases hnext : NewlineAt text stop e
    · obtain ⟨f, hf, hrun', hstop⟩ := ih hnext
      exact ⟨f, first_alt_left (hmore.trans hf), hrun.trans hrun', fun hk => hstop (by omega)⟩
    · refine ⟨e, ?_, hrun, fun _ => hnext⟩
      rw [first_alt_right (hmore.trans (first_newlines_none hnext)), hone]

/-- The matches start where the runs of newlines do. -/
theorem mem_newline_starts (hk : stop - lo ≤ k) (h1 : lo ≤ j) (h2 : j < stop) :
    j ∈ matchStarts text (newlines k) lo stop ↔ NewlineStart text lo stop j := by
  refine mem_matchStarts_iff (NewlineStart text lo stop)
    (fun i => lo ≤ i ∧ (NewlineAt text stop i → NewlineStart text lo stop i)) (fun i hi hinv => ?_)
    ⟨le_rfl, fun h => ⟨h, fun hlt => by omega⟩⟩ h1 h2
  obtain ⟨hlo, hmark⟩ := hinv
  by_cases hat : NewlineAt text stop i
  · obtain ⟨e, he, hrun, hstop⟩ := first_newlines hat
    have hlt := hrun.lt
    refine Or.inl ⟨e, he, hlt, hmark hat, fun j h3 h4 hj => ?_, by omega,
      fun h => absurd h (hstop (by omega))⟩
    obtain ⟨hne, hno⟩ := hj.2 (by omega)
    exact (hrun.inner j h3 h4).elim hne hno
  · refine Or.inr ⟨first_newlines_none hat, fun h => hat h.1, by omega, fun h => ⟨h, fun _ => ?_⟩⟩
    -- a newline that ended at `i` would have been found there
    rw [Nat.add_sub_cancel]
    refine ⟨fun hlf => hat (Or.inl ⟨hi, hlf⟩), fun hcr => hat (Or.inr ⟨?_, hcr.2, hcr.1⟩)⟩
    rcases h with h | h <;> omega

end Newlines

/-! ### The mask -/

section Mask

variable {cp : ℕ → ℕ} {doc : ℕ → Bool} {n a e j : ℕ}

/-- A document starts here. -/
def DocStart (doc : ℕ → Bool) (j : ℕ) : Prop := j = 0 ∨ doc j = true

theorem docStart_zero (doc : ℕ → Bool) : DocStart doc 0 := Or.inl rfl

/-- Inside a document the window of two characters finds the starts of the runs. -/
theorem kLagBMask_eq (hp : IsPiece (DocStart doc) 0 n a e) (h1 : a ≤ j) (h2 : j < e) :
    kLagBMask cp doc n j = true ↔ j = a ∨ NewlineStart cp a e j := by
  have hle := hp.le
  have hn : ¬ j ≥ n := by omega
  rcases Nat.eq_or_lt_of_le h1 with rfl | hlt
  · have hstart : a = 0 ∨ doc a = true := hp.start
    rw [kLagBMask, if_neg hn, if_pos hstart]
    exact iff_of_true rfl (Or.inl rfl)
  · have hnot : ¬ (j = 0 ∨ doc j = true) := hp.inner j hlt h2
    have hnext : j + 1 < n ∧ ¬ doc (j + 1) = true ↔ j + 1 < e := by
      constructor
      · rintro ⟨h3, h4⟩
        refine Nat.lt_of_le_of_ne h2 fun heq => ?_
        rcases hp.stop with h5 | h5
        · omega
        · rcases heq ▸ h5 with h6 | h6
          · omega
          · exact h4 h6
      · intro h3
        exact ⟨by omega, fun h => hp.inner (j + 1) (by omega) h3 (Or.inr h)⟩
    rw [kLagBMask, if_neg hn, if_neg hnot, NewlineStart, NewlineAt,
      or_iff_right (show ¬ j = a by omega)]
    dsimp only
    split_ifs with hlf hcr
    · rw [decide_eq_true_iff]
      simp [hlf, h2, hlt, and_comm]
    · rw [decide_eq_true_iff, ← and_assoc, hnext]
      simp [hcr, hlt, and_assoc]
    · simp [hlf, hcr]

/-- The mask marks the documents and, in each of them, the matches. -/
theorem kLagBMask_iff : kLagBMask cp doc n j = true ↔ j < n ∧ (DocStart doc j ∨
    ∃ a e, IsPiece (DocStart doc) 0 n a e ∧ j ∈ matchStarts cp (newlines n) a e) := by
  by_cases hj : j < n
  swap
  · rw [kLagBMask, if_pos (by omega)]
    exact iff_of_false Bool.false_ne_true fun h => hj h.1
  obtain ⟨a, e, hp, h1, h2⟩ := exists_isPiece (docStart_zero doc) (Nat.zero_le j) hj
  have hle := hp.le
  -- the piece of a character is the only one that it is in
  have hmem : (∃ a e, IsPiece (DocStart doc) 0 n a e ∧ j ∈ matchStarts cp (newlines n) a e) ↔
      j ∈ matchStarts cp (newlines n) a e := by
    refine ⟨?_, fun h => ⟨a, e, hp, h⟩⟩
    rintro ⟨a', e', hp', h⟩
    have hin : a' ≤ j ∧ j < e' := mem_matchStartsFrom h
    obtain ⟨rfl, rfl⟩ := hp'.unique hp hin.1 hin.2 h1 h2
    exact h
  rw [and_iff_right hj, hmem, kLagBMask_eq hp h1 h2, mem_newline_starts (by omega) h1 h2]
  refine or_congr ⟨fun h => h ▸ hp.start, fun h => ?_⟩ Iff.rfl
  rcases Nat.eq_or_lt_of_le h1 with h3 | h3
  · exact h3.symm
  · exact absurd h (hp.inner j h3 h2)

end Mask

/-! ### A segment and its text alone -/

section Alone

variable {tab : ℕ → Cls} {b b' : Buffers Cls} {dmax lo len k rs re rs' re' : ℕ}

/-- Two buffers with the same `len` characters: a segment from `lo` on, and a whole text. -/
structure Alike (tab : ℕ → Cls) (b b' : Buffers Cls) (lo len : ℕ) : Prop where
  filled : Filled b id (· = .S) tab
  filled' : Filled b' id (· = .S) tab
  segment : Segment b lo (lo + len)
  segment' : Segment b' 0 len
  cp : ∀ k < len, b.cp (lo + k) = b'.cp k

variable (h : Alike tab b b' lo len)

include h

theorem Alike.cls (hk : k < len) : b.cls (lo + k) = b'.cls k := by
  rw [h.filled.cls, h.filled'.cls, h.cp k hk]

theorem Alike.free_iff (hk : k < len) : Free b .P lo (lo + k) ↔ Free b' .P 0 k := by
  rcases Nat.eq_zero_or_pos k with rfl | hpos
  · exact iff_of_true (Or.inl rfl) (Or.inl rfl)
  · have hprev : lo + k - 1 = lo + (k - 1) := by omega
    rw [Free, Free, hprev, h.cls (by omega), h.cp (k - 1) (by omega)]
    exact or_congr (by omega) Iff.rfl

/-- The runs of a character are the same. -/
theorem Alike.run_eq (hr : RunIn b id lo (lo + len) rs re) (hr' : RunIn b' id 0 len rs' re')
    (h1 : rs ≤ lo + k) (h2 : lo + k < re) (h3 : rs' ≤ k) (h4 : k < re') :
    rs = lo + rs' ∧ re = lo + re' := by
  have hlo := hr.lo_le
  have hle := hr.le_hi
  have hle' := hr'.le_hi
  -- the classes inside a run of either are one
  have hsame {x : ℕ} (hx1 : rs ≤ lo + x) (hx2 : lo + x < re) : b'.cls x = b.cls rs := by
    rw [← h.cls (by omega)]
    exact hr.same (lo + x) hx1 hx2
  have hsame' {x : ℕ} (hx1 : rs' ≤ x) (hx2 : x < re') : b.cls (lo + x) = b'.cls rs' := by
    rw [h.cls (by omega)]
    exact hr'.same x hx1 hx2
  constructor
  · rcases Nat.lt_trichotomy rs (lo + rs') with hlt | heq | hlt
    · refine absurd ?_ (hr'.before.resolve_left (by omega))
      exact (hsame (by omega) (by omega)).trans (hsame (by omega) (by omega)).symm
    · exact heq
    · obtain ⟨x, rfl⟩ := Nat.exists_eq_add_of_le hlo
      refine absurd ?_ (hr.before.resolve_left (by omega))
      have hprev : lo + x - 1 = lo + (x - 1) := by omega
      rw [hprev]
      exact (hsame' (by omega) (by omega)).trans (hsame' (by omega) (by omega)).symm
  · rcases Nat.lt_trichotomy re (lo + re') with hlt | heq | hlt
    · obtain ⟨x, rfl⟩ := Nat.exists_eq_add_of_le (show lo ≤ re by omega)
      refine absurd ?_ (hr.after.resolve_left (by omega))
      have hk : b.cls rs = b'.cls k := (hsame h1 h2).symm
      exact (hsame' (by omega) (by omega)).trans ((hr'.same k h3 h4).symm.trans hk.symm)
    · exact heq
    · refine absurd ?_ (hr'.after.resolve_left (by omega))
      have hk : b.cls (lo + k) = b'.cls rs' := hsame' h3 h4
      exact (hsame (by omega) (by omega)).trans ((hr.same _ h1 h2).symm.trans hk)

/-- What the white runs of the two absorb and leave is the same. -/
theorem Alike.space_eq {absorb absorb' : Prop} {eff tail eff' tail' : ℕ}
    (hw : SpaceRun b.cp absorb (lo + rs') (lo + re') eff tail)
    (hw' : SpaceRun b'.cp absorb' rs' re' eff' tail') (habs : absorb ↔ absorb') (hre : re' ≤ len) :
    eff = lo + eff' ∧ tail = lo + tail' := by
  have h1 := hw.le_eff
  have h2 := hw.eff_le
  have h3 := hw.tail_le
  have h1' := hw'.le_eff
  have h2' := hw'.eff_le
  have h3' := hw'.tail_le
  have heff : eff = lo + eff' := by
    by_cases ha : absorb
    · rcases Nat.lt_trichotomy eff (lo + eff') with hlt | heq | hlt
      · obtain ⟨x, rfl⟩ := Nat.exists_eq_add_of_le (show lo ≤ eff by omega)
        have hother := hw.eff_other ha (by omega)
        rw [h.cp x (by omega), hw'.absorbed x (by omega) (by omega)] at hother
        exact Bool.noConfusion hother
      · exact heq
      · have hother := hw'.eff_other (habs.1 ha) (by omega)
        rw [← h.cp eff' (by omega), hw.absorbed (lo + eff') (by omega) hlt] at hother
        exact Bool.noConfusion hother
    · rw [hw.eff_eq ha, hw'.eff_eq (mt habs.2 ha)]
  refine ⟨heff, ?_⟩
  rcases Nat.lt_trichotomy tail (lo + tail') with hlt | heq | hlt
  · have hnl := hw'.newline (by omega)
    rw [← h.cp (tail' - 1) (by omega), hw.rest _ (by omega) (by omega)] at hnl
    exact Bool.noConfusion hnl
  · exact heq
  · obtain ⟨x, rfl⟩ := Nat.exists_eq_add_of_le (show lo ≤ tail by omega)
    have hnl := hw.newline (by omega)
    have hprev : lo + x - 1 = lo + (x - 1) := by omega
    rw [hprev, h.cp (x - 1) (by omega), hw'.rest _ (by omega) (by omega)] at hnl
    exact Bool.noConfusion hnl

/-- The marks of a segment are those of its text alone. -/
theorem rulesCl100k_congr (hk : k < len) : rulesCl100k b dmax (lo + k) = rulesCl100k b' dmax k := by
  have hb := h.filled
  have hb' := h.filled'
  have hs := h.segment
  have hs' := h.segment'
  have hcls := h.cls hk
  rw [Bool.eq_iff_iff]
  rcases Nat.eq_zero_or_pos k with rfl | hpos
  · exact iff_of_true (marked_start hs) (marked_start hs')
  have hprev : lo + k - 1 = lo + (k - 1) := by omega
  have hcls1 : b.cls (lo + k - 1) = b'.cls (k - 1) := by rw [hprev, h.cls (by omega)]
  have hcp1 : b.cp (lo + k - 1) = b'.cp (k - 1) := by rw [hprev, h.cp _ (by omega)]
  have hfree1 : Free b .P lo (lo + k - 1) ↔ Free b' .P 0 (k - 1) := by
    rw [hprev, h.free_iff (by omega)]
  obtain ⟨rs, re, hr, h1, h2⟩ := hs.exists_run hb (show lo ≤ lo + k by omega) (by omega)
  obtain ⟨rs', re', hr', h3, h4⟩ := hs'.exists_run hb' (Nat.zero_le k) hk
  obtain ⟨rfl, rfl⟩ := h.run_eq hr hr' h1 h2 h3 h4
  have hle' := hr'.le_hi
  cases hc : b'.cls k with
  | P =>
    rw [marked_P hb hs (by omega) (by omega) (hcls.trans hc), marked_P hb' hs' (by omega) hk hc,
      h.free_iff hk]
  | L =>
    by_cases hp : b'.cls (k - 1) = .L
    · rw [marked_L_inner hb hs (by omega) (by omega) (hcls.trans hc) (hcls1.trans hp),
        marked_L_inner hb' hs' (by omega) hk hc hp, hcp1]
      refine or_congr ?_ ?_
      · rw [Nat.zero_add, Nat.add_le_add_iff_left]
        refine and_congr_right fun hk2 => ?_
        have hprev2 : lo + k - 2 = lo + (k - 2) := by omega
        rw [hprev2, h.cp _ (by omega), h.free_iff (by omega)]
      · rw [Nat.zero_add, Nat.add_le_add_iff_left]
        refine and_congr_right fun hk3 => ?_
        have hprev2 : lo + k - 2 = lo + (k - 2) := by omega
        have hprev3 : lo + k - 3 = lo + (k - 3) := by omega
        rw [hprev2, hprev3, h.cp _ (by omega), h.cp _ (by omega), h.cls (by omega),
          h.free_iff (by omega)]
    · rw [marked_L_head hb hs (by omega) (by omega) (hcls.trans hc) (by rwa [hcls1]),
        marked_L_head hb' hs' (by omega) hk hc hp, hcls1, hcp1, hfree1]
  | N =>
    have hN : b'.cls rs' = .N := (hr'.same k h3 h4).symm.trans hc
    rw [marked_N hb hs hr h1 h2 ((h.cls (by omega)).trans hN), marked_N hb' hs' hr' h3 h4 hN,
      Nat.add_sub_add_left]
  | S =>
    have hS : b'.cls rs' = .S := (hr'.same k h3 h4).symm.trans hc
    obtain ⟨eff, tail, hw⟩ := marked_S dmax hb hs hr ((h.cls (by omega)).trans hS)
    obtain ⟨eff', tail', hw'⟩ := marked_S dmax hb' hs' hr' hS
    have habs : (lo < lo + rs' ∧ b.cls (lo + rs' - 1) = .P) ↔ (0 < rs' ∧ b'.cls (rs' - 1) = .P) := by
      rcases Nat.eq_zero_or_pos rs' with rfl | hpos
      · exact iff_of_false (fun h => by omega) fun h => by omega
      · have hprev' : lo + rs' - 1 = lo + (rs' - 1) := by omega
        rw [hprev', h.cls (by omega)]
        exact and_congr (by omega) Iff.rfl
    obtain ⟨rfl, rfl⟩ := h.space_eq hw.toSpaceRun hw'.toSpaceRun habs hle'
    refine (hw.mark_iff _ h1 h2).trans (Iff.trans ?_ (hw'.mark_iff _ h3 h4).symm)
    omega

end Alone

/-! ### Whole texts -/

/-- The mask of a text, as the list of the segment starts. -/
def lagunaSegments (text : List ℕ) (doc : ℕ → Bool) : List ℕ :=
  (List.range text.length).filter (kLagBMask (text.getD · 0) doc text.length)

/-- The mask marks the documents and the runs of newlines in them. On every segment between two
marks the rules mark what they mark on its characters alone, whatever the table is; and with a
table that classifies white space, the apostrophe and the letters of the contractions as such,
those are the starts of its pieces. -/
theorem laguna_starts (tab : ℕ → Cls) (dmax : ℕ) (text : List ℕ) (doc : ℕ → Bool) (mem : ℕ → ℕ)
    (order : List ℕ) (horder : order.Perm (List.range text.length)) :
    (∀ j, kLagBMask (text.getD · 0) doc text.length j = true ↔ j < text.length ∧ (DocStart doc j ∨
      ∃ a e, IsPiece (DocStart doc) 0 text.length a e ∧
        j ∈ matchStarts (text.getD · 0) (newlines text.length) a e)) ∧
    (text.length ≤ fncInit →
      (∀ a e,
        IsPiece (fun j => kLagBMask (text.getD · 0) doc text.length j = true) 0 text.length a e →
          ∀ (mem' : ℕ → ℕ) (order' : List ℕ), order'.Perm (List.range (e - a)) →
            ∀ j, a ≤ j → j < e →
              pretokStartsLaguna tab dmax (text.getD · 0) text.length doc mem order j =
                pretokStarts tab dmax (((text.drop a).take (e - a)).getD · 0) (e - a) mem' order'
                  (j - a)) ∧
      (Cl100kTable tab → 1 ≤ dmax → ∀ j,
        (j < text.length ∧
            pretokStartsLaguna tab dmax (text.getD · 0) text.length doc mem order j = true) ↔
          j ∈ splitEach (text.getD · 0) (cl100kPattern tab dmax) text.length
            (lagunaSegments text doc))) := by
  refine ⟨fun j => kLagBMask_iff, fun hn => ?_⟩
  have hb : Filled (lagunaBuffers tab (text.getD · 0) text.length doc mem order) id (· = .S) tab :=
    buffers_filled hn horder
  refine ⟨fun a e hp mem' order' horder' j h1 h2 => ?_, fun ht hd j => ?_⟩
  · have hlt := hp.lt
    have hle := hp.le
    have halike : Alike tab (lagunaBuffers tab (text.getD · 0) text.length doc mem order)
        (cl100kBuffers tab (((text.drop a).take (e - a)).getD · 0) (e - a) (fun _ => false)
          (fun _ => 0) mem' order') a (e - a) := by
      refine ⟨hb, buffers_filled (by omega) horder', ?_, segment_whole tab _ (by omega) mem' order',
        fun k hk => ?_⟩
      · rw [Nat.add_sub_cancel' hlt.le]
        exact segment_of_isPiece hp
      · change text.getD (a + k) 0 = ((text.drop a).take (e - a)).getD k 0
        rw [List.getD_eq_getElem?_getD, List.getD_eq_getElem?_getD, List.getElem?_take_of_lt hk,
          List.getElem?_drop]
    have hmark : rulesCl100k _ dmax _ = _ := rulesCl100k_congr halike (show j - a < e - a by omega)
    rwa [Nat.add_sub_cancel' h1] at hmark
  · rcases Nat.eq_zero_or_pos text.length with h0 | hpos
    · rw [List.length_eq_zero_iff] at h0
      subst h0
      exact iff_of_false (fun h => Nat.not_lt_zero j h.1) List.not_mem_nil
    have hzero : kLagBMask (text.getD · 0) doc text.length 0 = true :=
      kLagBMask_iff.2 ⟨hpos, Or.inl (Or.inl rfl)⟩
    have hsegments : StartsOf (fun j => kLagBMask (text.getD · 0) doc text.length j = true) 0
        text.length (lagunaSegments text doc) := by
      refine ⟨List.Pairwise.filter _ List.pairwise_lt_range, fun j => ?_⟩
      rw [lagunaSegments, List.mem_filter, List.mem_range]
      simp
    have hmain := hsegments.splitEach (r := cl100kPattern tab dmax) hpos hzero fun a e hp j h1 h2 =>
      cl100k_segment ht hb (segment_of_isPiece hp) hd h1 h2
    refine Iff.trans ?_ (hmain.mem_iff j).symm
    exact ⟨fun h => ⟨Nat.zero_le j, h⟩, fun h => h.2⟩

/-- In `a`, CR and LF twice, and `b` the second segment begins at the first CR. -/
theorem laguna_starts_crlf :
    (∀ j, kLagBMask ([97, 13, 10, 13, 10, 98].getD · 0) (fun _ => false) 6 j = true ↔
      j < 6 ∧ (DocStart (fun _ => false) j ∨
        ∃ a e, IsPiece (DocStart fun _ => false) 0 6 a e ∧
          j ∈ matchStarts ([97, 13, 10, 13, 10, 98].getD · 0) (newlines 6) a e)) ∧
    pretokStartsLaguna asciiCls 3 ([97, 13, 10, 13, 10, 98].getD · 0) 6 (fun _ => false)
        (fun _ => 0) (List.range 6) 5 =
      pretokStarts asciiCls 3 ([13, 10, 13, 10, 98].getD · 0) 5 (fun _ => 0) (List.range 5) 4 ∧
    ((5 < 6 ∧ pretokStartsLaguna asciiCls 3 ([97, 13, 10, 13, 10, 98].getD · 0) 6
        (fun _ => false) (fun _ => 0) (List.range 6) 5 = true) ↔ 5 ∈ [0, 1, 5]) := by
  obtain ⟨hmask, hrest⟩ := laguna_starts asciiCls 3 [97, 13, 10, 13, 10, 98]
    (fun _ => false) (fun _ => 0) (List.range 6) (List.Perm.refl _)
  obtain ⟨halone, hpieces⟩ := hrest (by decide)
  have hinner : ∀ j < 6, 1 < j →
      ¬ kLagBMask ([97, 13, 10, 13, 10, 98].getD · 0) (fun _ => false) 6 j = true := by decide
  have hp : IsPiece (fun j => kLagBMask ([97, 13, 10, 13, 10, 98].getD · 0) (fun _ => false) 6 j =
      true) 0 6 1 6 :=
    ⟨by decide, by decide, le_rfl, by decide, fun j h1 h2 => hinner j h2 h1, Or.inl rfl⟩
  refine ⟨hmask, halone 1 6 hp (fun _ => 0) (List.range 5) (List.Perm.refl _) 5 (by decide)
    (by decide), ?_⟩
  have hstarts : splitEach ([97, 13, 10, 13, 10, 98].getD · 0) (cl100kPattern asciiCls 3) 6
      (lagunaSegments [97, 13, 10, 13, 10, 98] fun _ => false) = [0, 1, 5] := by decide
  rw [← hstarts]
  exact hpieces asciiCls_table (by decide) 5

/-- With an arbitrary table the marks are not the pieces of the pattern: a contraction whose
letter is punctuation is cut by the pattern alone. -/
theorem laguna_starts_any_table : ¬ ∀ (tab : ℕ → Cls) (dmax : ℕ), 1 ≤ dmax →
    ∀ (text : List ℕ) (doc : ℕ → Bool) (mem : ℕ → ℕ) (order : List ℕ),
      order.Perm (List.range text.length) → ∀ j,
        (j < text.length ∧
            pretokStartsLaguna tab dmax (text.getD · 0) text.length doc mem order j = true) ↔
          j ∈ splitEach (text.getD · 0) (cl100kPattern tab dmax) text.length
            (lagunaSegments text doc) := by
  intro h
  have h2 := (h (fun c => if c = 10 ∨ c = 13 ∨ c = 32 then .S else .P) 1 le_rfl [39, 115, 39]
    (fun _ => false) (fun _ => 0) (List.range 3) (List.Perm.refl _) 2).2 (by decide)
  exact absurd h2.2 (by decide)

end Toktier.Pretok
