import Toktier.Pretok.Segments

/-!
# The DeepSeek rules cut like three splitters

The pre-tokenizer is a sequence of three splitters: digit groups, runs of the CJK
ranges, and a main pattern, each applied to every piece the one before leaves. The
kernels mark the cuts of the first two in the `B` channel and evaluate the third in
one pass over the segments between them.

## Main definitions

* `deepSeekPattern`: the main pattern.
* `deepSeekPieces`: the three splitters in sequence.

## Main results

* `deepSeek_segment`: the marks of a segment are the pieces of the main pattern.
* `deepSeek_starts`: the marks of a text are the pieces of the sequence.
-/
namespace Toktier.Pretok

open Lib Pattern

/-! ### The splitters -/

/-- `[^\r\n\p{L}\p{P}\p{S}]` -/
def dsWordPrefix (tab : ℕ → DsCls) (c : ℕ) : Bool := !crlf c && tab c ≠ .L && tab c ≠ .PS

/-- `[\p{L}\p{M}]` -/
def dsLetter (tab : ℕ → DsCls) (c : ℕ) : Bool := tab c = .L || tab c = .M

/-- `\s` -/
def dsWhite (tab : ℕ → DsCls) (c : ℕ) : Bool := tab c = .WS || tab c = .CRLF

/-- An ASCII punctuation character and the ASCII letters behind it. -/
def asciiWord : Pattern ℕ := one dsApunct ++ many1 dsAlpha

/-- The main pattern. -/
def deepSeekPattern (tab : ℕ → DsCls) : Pattern ℕ :=
  asciiWord <|>
    word (dsWordPrefix tab) (dsLetter tab) <|>
    opt (· = 32) ++ punctuation (tab · = .PS) crlf <|>
    spaces (dsWhite tab) crlf

/-- `\p{N}{1,dmax}` -/
def digitGroup (tab : ℕ → DsCls) (dmax : ℕ) : Pattern ℕ := rep (tab · = .N) 1 (some dmax)

/-- The starts of the pieces after the three splitters. -/
def deepSeekPieces (tab : ℕ → DsCls) (dmax : ℕ) (text : ℕ → ℕ) (n : ℕ) : List ℕ :=
  splitEach text (deepSeekPattern tab) n
    (splitEach text (many1 dsCjk) n
      (splitEach text (digitGroup tab dmax) n [0]))

/-- The classes the rules take for granted: CR and LF, the ASCII space, punctuation and letters. -/
structure DsTable (tab : ℕ → DsCls) : Prop where
  newline : ∀ c, tab c = .CRLF ↔ c = 10 ∨ c = 13
  space : tab 32 = .WS
  apunct : ∀ c, dsApunct c = true → tab c = .PS
  alpha : ∀ c, dsAlpha c = true → tab c = .L ∨ tab c = .M

/-! ### The marks of a segment -/

section Marks

variable {tab : ℕ → DsCls} {b : Buffers DsCls} {lo hi i j e h s rs re : ℕ}

/-- White space of the run information. -/
def dsWsf (c : DsCls) : Bool := c = .WS ∨ c = .CRLF

/-- A segment that the prepass cuts: digits stay among themselves, and `ars` holds the first
of the ASCII letters a letter stands in. -/
structure DsSegment (b : Buffers DsCls) (lo hi : ℕ) : Prop extends Segment b lo hi where
  digit : ∀ j, lo < j → j < hi → (b.cls j = .N ↔ b.cls (j - 1) = .N)
  ars : ∀ j, lo ≤ j → j < hi → dsAlpha (b.cp j) = true → lo ≤ b.ars j ∧ b.ars j ≤ j ∧
    (∀ k, b.ars j ≤ k → k ≤ j → dsAlpha (b.cp k) = true) ∧
    (b.ars j = lo ∨ ¬ dsAlpha (b.cp (b.ars j - 1)) = true)

/-- The class is a letter or a mark. -/
def IsLM (c : DsCls) : Prop := c = .L ∨ c = .M

instance (c : DsCls) : Decidable (IsLM c) := inferInstanceAs (Decidable (_ ∨ _))

/-- The rules mark the character. -/
abbrev DsMarked (b : Buffers DsCls) (j : ℕ) : Prop := rulesDeepSeek b j = true

theorem DsTable.crlf_iff (ht : DsTable tab) (c : ℕ) : crlf c = true ↔ tab c = .CRLF := by
  rw [ht.newline, crlf, Bool.or_eq_true, decide_eq_true_iff, decide_eq_true_iff]

theorem DsTable.white_of_crlf (ht : DsTable tab) (c : ℕ) (hc : crlf c = true) :
    dsWhite tab c = true := by
  rw [dsWhite, (ht.crlf_iff c).1 hc]
  rfl

variable (ht : DsTable tab) (hb : Filled b dsRc dsWsf tab) (hs : DsSegment b lo hi)

section Classes

include hb

theorem dsLetter_iff (j : ℕ) : dsLetter tab (b.cp j) = true ↔ IsLM (b.cls j) := by
  rw [dsLetter, hb.cls, Bool.or_eq_true, decide_eq_true_iff, decide_eq_true_iff, IsLM]

theorem dsWhite_iff (j : ℕ) : dsWhite tab (b.cp j) = true ↔ dsWsf (b.cls j) = true := by
  rw [dsWhite, dsWsf, hb.cls, Bool.or_eq_true, decide_eq_true_iff, decide_eq_true_iff,
    decide_eq_true_iff]

theorem dsPunct_iff (j : ℕ) : decide (tab (b.cp j) = .PS) = true ↔ b.cls j = .PS := by
  rw [decide_eq_true_iff, hb.cls]

include ht

theorem crlf_iff_cls (j : ℕ) : crlf (b.cp j) = true ↔ b.cls j = .CRLF := by
  rw [ht.crlf_iff, hb.cls]

theorem isLM_of_alpha (hj : dsAlpha (b.cp j) = true) : IsLM (b.cls j) := by
  rw [hb.cls]
  exact ht.alpha _ hj

theorem cls_of_apunct (hj : dsApunct (b.cp j) = true) : b.cls j = .PS := by
  rw [hb.cls, ht.apunct _ hj]

theorem cls_of_32 (hj : b.cp j = 32) : b.cls j = .WS := by rw [hb.cls, hj, ht.space]

end Classes

include hs

theorem ds_marked_start : DsMarked b lo := by
  rw [DsMarked, rulesDeepSeek, if_pos hs.start]

/-- The letters from `h` on belong to the punctuation character before them. -/
theorem dsA1Trig_iff (h1 : lo < h) (h2 : h < hi) :
    dsA1Trig h b.cp b.cls b.dstart = true ↔ dsAlpha (b.cp h) = true ∧ b.cls (h - 1) = .PS ∧
      dsApunct (b.cp (h - 1)) = true ∧ Free b .PS lo (h - 1) := by
  have hB : b.dstart h = false := hs.inner h h1 h2
  have hB' : h - 1 ≠ lo → b.dstart (h - 1) = false := fun hne => hs.inner _ (by omega) (by omega)
  unfold dsA1Trig
  rw [hB]
  by_cases ha : dsAlpha (b.cp h) = true
  · rw [if_neg (by rintro (h | h | h); exacts [by omega, Bool.noConfusion h, h ha])]
    by_cases hp : b.cls (h - 1) = .PS ∧ dsApunct (b.cp (h - 1)) = true
    · rw [if_neg (by rintro (h | h); exacts [h hp.1, h hp.2])]
      simp only [ha, hp.1, hp.2, true_and, Free, Nat.sub_sub, Nat.reduceAdd]
      by_cases heq : h - 1 = lo
      · rcases hs.start with h3 | h3 <;> simp [heq, h3]
      · have h3 := hB' heq
        obtain ⟨m, rfl⟩ : ∃ m, h = m + 2 := ⟨h - 2, by omega⟩
        rw [Nat.add_succ_sub_one] at h3 heq
        by_cases h5 : b.cls m = .PS
        · simp [heq, h3, h5]
        · simp [heq, h3, h5]
    · rw [if_pos (by rw [not_and_or] at hp; exact hp)]
      refine iff_of_false Bool.false_ne_true fun h => hp ⟨h.2.1, h.2.2.1⟩
  · rw [if_pos (Or.inr (Or.inr ha))]
    exact iff_of_false Bool.false_ne_true fun h => ha h.1

theorem dsA1Trig_start : dsA1Trig lo b.cp b.cls b.dstart = false := by
  unfold dsA1Trig
  refine if_pos ?_
  rcases hs.start with h | h
  · exact Or.inl (by omega)
  · exact Or.inr (Or.inl h)

theorem ds_segment_end (h1 : lo ≤ j) (h2 : j < hi) :
    (j + 1 < b.n ∧ ¬ b.dstart (j + 1) = true) ↔ j + 1 < hi := by
  have hle := hs.le
  constructor
  · rintro ⟨h3, h4⟩
    refine Nat.lt_of_le_of_ne h2 fun heq => ?_
    rcases hs.stop with h5 | h5
    · omega
    · exact h4 (heq ▸ h5)
  · intro h3
    exact ⟨by omega, by rw [hs.inner (j + 1) (by omega) h3]; exact Bool.false_ne_true⟩

include hb

theorem ds_head_iff (h1 : lo < j) (h2 : j < hi) :
    b.head j = true ↔ dsRc (b.cls (j - 1)) ≠ dsRc (b.cls j) := hs.toSegment.head_iff hb h1 h2

theorem ds_marked_LM_head (h1 : lo < j) (h2 : j < hi) (hc : IsLM (b.cls j))
    (hp : ¬ IsLM (b.cls (j - 1))) : DsMarked b j ↔
      ¬ (b.cls (j - 1) = .WS ∨ b.cls (j - 1) = .O ∨ b.cls (j - 1) = .N) ∧
        ¬ dsA1Trig j b.cp b.cls b.dstart = true := by
  have hh : b.head j = true := (ds_head_iff hb hs h1 h2).2 (by
    rcases hc with hc | hc <;> rw [hc] <;> revert hp <;> cases b.cls (j - 1) <;> decide)
  rw [DsMarked, rulesDeepSeek, if_neg (hs.not_start h1 h2)]
  dsimp only
  rw [if_pos (show b.cls j = .L ∨ b.cls j = .M from hc), if_pos hh, decide_eq_true_iff]

theorem ds_marked_LM_inner (h1 : lo < j) (h2 : j < hi) (hc : IsLM (b.cls j))
    (hp : IsLM (b.cls (j - 1))) : DsMarked b j ↔
      ¬ dsAlpha (b.cp j) = true ∧ dsAlpha (b.cp (j - 1)) = true ∧
        dsA1Trig (b.ars (j - 1)) b.cp b.cls b.dstart = true := by
  have hh : ¬ b.head j = true := fun h => (ds_head_iff hb hs h1 h2).1 h (by
    rcases hc with hc | hc <;> rcases hp with hp | hp <;> simp [hc, hp, dsRc])
  rw [DsMarked, rulesDeepSeek, if_neg (hs.not_start h1 h2)]
  dsimp only
  rw [if_pos (show b.cls j = .L ∨ b.cls j = .M from hc), if_neg hh]
  split
  · rename_i h
    exact ⟨fun h' => ⟨h.1, h.2, h'⟩, fun h' => h'.2.2⟩
  · rename_i h
    exact iff_of_false Bool.false_ne_true fun h' => h ⟨h'.1, h'.2.1⟩

theorem ds_marked_PS (h1 : lo ≤ j) (h2 : j < hi) (hc : b.cls j = .PS) :
    DsMarked b j ↔ Free b .PS lo j := by
  rcases Nat.eq_or_lt_of_le h1 with rfl | h1
  · exact iff_of_true (ds_marked_start hs) (Or.inl rfl)
  · rw [DsMarked, rulesDeepSeek, if_neg (hs.not_start h1 h2), Free, or_iff_right (by omega : ¬ j = lo)]
    simp only [hc, decide_eq_true_eq, ds_head_iff hb hs h1 h2, reduceCtorEq, or_self, if_false,
      if_true]
    refine and_congr_left fun _ => not_congr ?_
    cases b.cls (j - 1) <;> decide

theorem ds_marked_O (h1 : lo < j) (h2 : j < hi) (hc : b.cls j = .O) :
    DsMarked b j ↔ b.cls (j - 1) ≠ .O ∨ (j + 1 < hi ∧ IsLM (b.cls (j + 1))) := by
  rw [DsMarked, rulesDeepSeek, if_neg (hs.not_start h1 h2), ← ds_segment_end hs h1.le h2]
  simp only [hc, decide_eq_true_eq, ds_head_iff hb hs h1 h2, reduceCtorEq, or_self, if_false,
    if_true, and_assoc, IsLM]
  refine or_congr (not_congr ?_) Iff.rfl
  cases b.cls (j - 1) <;> decide

omit hb in
theorem ds_not_marked_N (h1 : lo < j) (h2 : j < hi) (hc : b.cls j = .N) : ¬ DsMarked b j := by
  rw [DsMarked, rulesDeepSeek, if_neg (hs.not_start h1 h2)]
  simp [hc]

/-- The marks of a white run. -/
theorem ds_marked_white (hr : RunIn b dsRc lo hi rs re) (hc : dsWsf (b.cls rs) = true) :
    ∃ eff tail, WhiteRun b.cp (dsWhite tab) (DsMarked b) hi (lo < rs ∧ b.cls (rs - 1) = .PS)
      rs re eff tail := by
  have hlo := hr.lo_le
  have hhi := hr.le_hi
  have hrc : ∀ c, dsRc c = .WS ↔ dsWsf c = true := by
    intro c
    cases c <;> decide
  have hall : ∀ j, rs ≤ j → j < re → dsWsf (b.cls j) = true := fun j h1 h2 =>
    (hrc _).1 ((hr.same j h1 h2).trans ((hrc _).2 hc))
  obtain ⟨eff, tail, h, hmark⟩ := hs.toSegment.spaceRule_iff hb DsCls.PS hr hall
  refine ⟨eff, tail, ⟨h, hr.isRun.lt, hhi, fun j h1 h2 => (dsWhite_iff hb j).2 (hall j h1 h2), ?_,
    fun i h1 h2 => ?_⟩⟩
  · refine hr.after.imp_right fun h1 h2 => h1 ?_
    rw [(hrc _).2 ((dsWhite_iff hb re).1 h2), (hrc _).2 hc]
  · rcases Nat.eq_or_lt_of_le (hlo.trans h1) with rfl | h3
    · have heff : eff = lo := by
        rw [h.eff_eq (by omega)]
        omega
      exact iff_of_true (ds_marked_start hs) (Or.inl heff.symm)
    · rw [← hmark i h1 h2, DsMarked, rulesDeepSeek, if_neg (hs.not_start h3 (by omega))]
      have hi' : b.cls i = .WS ∨ b.cls i = .CRLF := of_decide_eq_true (hall i h1 h2)
      rcases hi' with hi' | hi' <;> simp [hi']

/-- White space after anything but punctuation starts a piece. -/
theorem ds_marked_head_white (h1 : lo ≤ e) (h2 : e < hi) (hc : dsWsf (b.cls e) = true)
    (hp : e = lo ∨ (¬ dsWsf (b.cls (e - 1)) = true ∧ b.cls (e - 1) ≠ .PS)) : DsMarked b e := by
  obtain ⟨rs, re, hr, h3, h4⟩ := hs.toSegment.exists_run hb h1 h2
  have hne : ∀ c c', ¬ dsWsf c = true → dsWsf c' = true → dsRc c ≠ dsRc c' := by
    intro c c'
    cases c <;> cases c' <;> decide
  obtain rfl := hr.start_eq h3 h4 (hp.imp_right fun h => hne _ _ h.1 hc)
  obtain ⟨eff, tail, h⟩ := ds_marked_white hb hs hr hc
  refine (h.mark_iff rs h3 h4).2 (Or.inl (h.eff_eq fun habs => ?_).symm)
  rcases hp with hp | hp
  · omega
  · exact hp.2 habs.2

omit hb in
theorem not_N_of_head (h1 : lo < e) (h2 : e < hi) (hne : b.cls (e - 1) ≠ .N) : b.cls e ≠ .N :=
  fun h => hne ((hs.digit e h1 h2).1 h)

include ht

/-- After letters, a character of another class starts a piece. -/
theorem ds_marked_after_LM (h1 : lo < e) (h2 : e < hi) (hc : IsLM (b.cls (e - 1)))
    (hne : ¬ IsLM (b.cls e)) : DsMarked b e := by
  have hcl : ∀ c, IsLM c → c ≠ .O ∧ c ≠ .PS ∧ c ≠ .N ∧ c ≠ .WS ∧ ¬ dsWsf c = true := by
    intro c
    cases c <;> decide
  obtain ⟨hO, hPS, hN, hWS, hw⟩ := hcl _ hc
  cases he : b.cls e with
  | O => exact (ds_marked_O hb hs h1 h2 he).2 (Or.inl hO)
  | L => exact absurd (Or.inl he) hne
  | M => exact absurd (Or.inr he) hne
  | N => exact absurd he (not_N_of_head hs h1 h2 hN)
  | PS =>
      exact (ds_marked_PS hb hs h1.le h2 he).2 (Or.inr ⟨hPS, fun h => hWS (cls_of_32 ht hb h)⟩)
  | WS => exact ds_marked_head_white hb hs h1.le h2 (by rw [he]; rfl) (Or.inr ⟨hw, hPS⟩)
  | CRLF => exact ds_marked_head_white hb hs h1.le h2 (by rw [he]; rfl) (Or.inr ⟨hw, hPS⟩)

/-- After a newline that ends its run, the next character starts a piece. -/
theorem ds_marked_after_newline (h1 : lo < e) (h2 : e < hi) (hn : crlf (b.cp (e - 1)) = true)
    (he : ¬ dsWsf (b.cls e) = true) : DsMarked b e := by
  have hc := (crlf_iff_cls ht hb _).1 hn
  have hLM : IsLM (b.cls e) → DsMarked b e := fun h => by
    refine (ds_marked_LM_head hb hs h1 h2 h (by rw [hc]; decide)).2 ⟨by rw [hc]; decide, fun h' => ?_⟩
    rw [((dsA1Trig_iff hs h1 h2).1 h').2.1] at hc
    exact absurd hc (by decide)
  cases he' : b.cls e with
  | O => exact (ds_marked_O hb hs h1 h2 he').2 (Or.inl (by rw [hc]; decide))
  | L => exact hLM (Or.inl he')
  | M => exact hLM (Or.inr he')
  | N => exact absurd he' (not_N_of_head hs h1 h2 (by rw [hc]; decide))
  | PS =>
      refine (ds_marked_PS hb hs h1.le h2 he').2 (Or.inr ⟨by rw [hc]; decide, fun h => ?_⟩)
      rw [cls_of_32 ht hb h] at hc
      exact absurd hc (by decide)
  | WS => exact absurd (by rw [he']; rfl) he
  | CRLF => exact absurd (by rw [he']; rfl) he

/-! ### Words -/

omit hs ht in
/-- The letters and marks from `s` on, up to the end of their run. -/
theorem exists_LM (h2 : s < hi) (hc : IsLM (b.cls s)) :
    ∃ e, s < e ∧ e ≤ hi ∧ (∀ k, s ≤ k → k < e → IsLM (b.cls k)) ∧ (e = hi ∨ ¬ IsLM (b.cls e)) := by
  obtain ⟨e, h3, h4, hall, hend⟩ := exists_run b.cp (dsLetter tab) h2.le
  refine ⟨e, ?_, h4, fun k h5 h6 => (dsLetter_iff hb k).1 (hall k h5 h6),
    hend.imp_right (mt (dsLetter_iff hb e).2)⟩
  refine Nat.lt_of_le_of_ne h3 fun heq => ?_
  rcases hend with h | h
  · omega
  · exact h (heq ▸ (dsLetter_iff hb s).2 hc)

omit ht in
/-- A mark inside the letters from `s` on closes ASCII letters that began at or before `s`
behind a punctuation character. -/
theorem ds_word_inner (h1 : lo ≤ s) (hsj : s < j) (h2 : j < hi)
    (hL : ∀ k, s ≤ k → k ≤ j → IsLM (b.cls k)) (hm : DsMarked b j) :
    dsAlpha (b.cp s) = true ∧ ((lo < s ∧ dsA1Trig s b.cp b.cls b.dstart = true) ∨
      (lo < s ∧ dsAlpha (b.cp (s - 1)) = true)) := by
  obtain ⟨_, ha, ht'⟩ := (ds_marked_LM_inner hb hs (by omega) h2 (hL j hsj.le le_rfl)
    (hL (j - 1) (by omega) (by omega))).1 hm
  obtain ⟨h3, h4, h5, _⟩ := hs.ars (j - 1) (by omega) (by omega) ha
  have hlo : lo < b.ars (j - 1) := by
    refine Nat.lt_of_le_of_ne h3 fun heq => ?_
    rw [← heq, dsA1Trig_start hs] at ht'
    exact Bool.noConfusion ht'
  have hP := ((dsA1Trig_iff hs hlo (by omega)).1 ht').2.1
  have hle : b.ars (j - 1) ≤ s := by
    by_contra hgt
    have := hL (b.ars (j - 1) - 1) (by omega) (by omega)
    rw [hP] at this
    exact absurd this (by decide)
  refine ⟨h5 s hle (by omega), ?_⟩
  rcases Nat.eq_or_lt_of_le hle with heq | hlt
  · exact Or.inl ⟨by omega, heq ▸ ht'⟩
  · exact Or.inr ⟨by omega, h5 (s - 1) (by omega) (by omega)⟩

omit hs in
theorem first_asciiWord_none (hc : b.cls i ≠ .PS) : first b.cp hi asciiWord i = none :=
  first_one_seq_none (Or.inr fun h => hc (cls_of_apunct ht hb h))

/-- A word behind a prefix character, when its first letter is not marked. -/
theorem ds_prefixed_word (h1 : lo ≤ i) (h2 : i + 1 < hi) (hp : dsWordPrefix tab (b.cp i) = true)
    (hc : ¬ IsLM (b.cls i)) (hPS : b.cls i ≠ .PS) (hL : IsLM (b.cls (i + 1)))
    (hm : ¬ DsMarked b (i + 1)) :
    ∃ e, first b.cp hi (word (dsWordPrefix tab) (dsLetter tab)) i = some e ∧
      Ends (DsMarked b) hi i e := by
  obtain ⟨e, hie, he, hall, hend⟩ := exists_LM hb h2 hL
  refine ⟨e, first_word_prefix hp hie he (fun j h3 h4 => (dsLetter_iff hb j).2 (hall j h3 h4))
    (hend.imp_right (mt (dsLetter_iff hb e).1)), by omega, he, fun j h3 h4 hj => ?_, fun hehi => ?_⟩
  · rcases Nat.eq_or_lt_of_le (Nat.succ_le_of_lt h3) with rfl | h3
    · exact hm hj
    · obtain ⟨_, h5⟩ := ds_word_inner hb hs (by omega) h3 (by omega)
        (fun k h5 h6 => hall k h5 (by omega)) hj
      rcases h5 with ⟨h5, h6⟩ | ⟨_, h6⟩
      · exact hPS ((dsA1Trig_iff hs h5 h2).1 h6).2.1
      · exact hc (isLM_of_alpha ht hb h6)
  · exact ds_marked_after_LM ht hb hs (by omega) hehi (hall (e - 1) (by omega) (by omega))
      (hend.resolve_left (by omega))

/-- A match from a marked letter. -/
theorem ds_step_LM (h1 : lo ≤ i) (h2 : i < hi) (hc : IsLM (b.cls i)) (hm : DsMarked b i) :
    ∃ e, first b.cp hi (deepSeekPattern tab) i = some e ∧ Ends (DsMarked b) hi i e := by
  obtain ⟨e, hie, he, hall, hend⟩ := exists_LM hb h2 hc
  have hPS : b.cls i ≠ .PS := fun h => by
    rw [h] at hc
    exact absurd hc (by decide)
  refine ⟨e, ?_, hie, he, fun j h3 h4 hj => ?_, fun hehi => ?_⟩
  · rw [deepSeekPattern, first_alt_right (first_asciiWord_none ht hb hPS)]
    exact first_alt_left (first_word hie he
      (fun j h3 h4 => (dsLetter_iff hb j).2 (hall j h3 h4))
      (hend.imp_right (mt (dsLetter_iff hb e).1)))
  · -- the punctuation character would have taken the letter at `i`
    obtain ⟨ha, h5⟩ := ds_word_inner hb hs h1 h3 (by omega) (fun k h5 h6 => hall k h5 (by omega)) hj
    rcases h5 with ⟨h5, h6⟩ | ⟨h5, h6⟩
    · have hP := ((dsA1Trig_iff hs h5 h2).1 h6).2.1
      exact ((ds_marked_LM_head hb hs h5 h2 hc (by rw [hP]; decide)).1 hm).2 h6
    · exact ((ds_marked_LM_inner hb hs h5 h2 hc (isLM_of_alpha ht hb h6)).1 hm).1 ha
  · exact ds_marked_after_LM ht hb hs (by omega) hehi (hall (e - 1) (by omega) (by omega))
      (hend.resolve_left (by omega))

/-! ### Punctuation -/

/-- A single ASCII punctuation character takes the ASCII letters behind it. -/
theorem ds_asciiWord (h1 : lo ≤ i) (h2 : i + 1 < hi) (hm : DsMarked b i)
    (hp : dsApunct (b.cp i) = true) (ha : dsAlpha (b.cp (i + 1)) = true) :
    ∃ e, first b.cp hi asciiWord i = some e ∧ Ends (DsMarked b) hi i e := by
  have hPS := cls_of_apunct ht hb hp
  have hfree := (ds_marked_PS hb hs h1 (by omega) hPS).1 hm
  have htrig : dsA1Trig (i + 1) b.cp b.cls b.dstart = true :=
    (dsA1Trig_iff hs (by omega) h2).2 ⟨ha, hPS, hp, hfree⟩
  obtain ⟨e, h3, he, hall, hend⟩ := exists_run b.cp dsAlpha h2.le
  replace h3 : i + 1 < e := by
    rcases hend with h | h
    · omega
    · exact Nat.lt_of_le_of_ne h3 fun heq => h (heq ▸ ha)
  have hLM : ∀ k, i + 1 ≤ k → k < e → IsLM (b.cls k) := fun k h4 h5 =>
    isLM_of_alpha ht hb (hall k h4 h5)
  refine ⟨e, ?_, by omega, he, fun j h4 h5 hj => ?_, fun hehi => ?_⟩
  · rw [asciiWord, first_one_seq (by omega) hp]
    exact first_many1 h3 he hall hend
  · rcases Nat.eq_or_lt_of_le (Nat.succ_le_of_lt h4) with rfl | h4
    · exact ((ds_marked_LM_head hb hs (by omega) h2 (hLM _ le_rfl h3)
        (by rw [show i.succ - 1 = i by omega, hPS]; decide)).1 hj).2 htrig
    · exact ((ds_marked_LM_inner hb hs (by omega) (by omega) (hLM j (by omega) h5)
        (hLM (j - 1) (by omega) (by omega))).1 hj).1 (hall j (by omega) h5)
  · have hprev := hall (e - 1) (by omega) (by omega)
    by_cases hc : IsLM (b.cls e)
    · -- the letters stop being ASCII inside their run
      refine (ds_marked_LM_inner hb hs (by omega) hehi hc (hLM (e - 1) (by omega) (by omega))).2
        ⟨hend.resolve_left (by omega), hprev, ?_⟩
      obtain ⟨h4, h5, h6, h7⟩ := hs.ars (e - 1) (by omega) (by omega) hprev
      have hge : i + 1 ≤ b.ars (e - 1) := by
        by_contra hlt
        have := isLM_of_alpha ht hb (h6 i (by omega) (by omega))
        rw [hPS] at this
        exact absurd this (by decide)
      have heq : b.ars (e - 1) = i + 1 := by
        by_contra hne
        rcases h7 with h7 | h7
        · omega
        · exact h7 (hall _ (by omega) (by omega))
      rw [heq]
      exact htrig
    · exact ds_marked_after_LM ht hb hs (by omega) hehi (hLM (e - 1) (by omega) (by omega)) hc

/-- Punctuation from `s` on with the newlines after it, which `i` starts or is the space before. -/
theorem ds_first_punctuation_ends (h1 : lo ≤ s) (h2 : s < hi) (hc : b.cls s = .PS)
    (hi' : i = s ∨ (i + 1 = s ∧ ¬ DsMarked b s))
    (hL : ∀ p, s < p → p < hi → (∀ k, s ≤ k → k < p → b.cls k = .PS) →
      ¬ dsA1Trig p b.cp b.cls b.dstart = true) :
    ∃ f, first b.cp hi (punctuation (tab · = .PS) crlf) s = some f ∧
      Ends (DsMarked b) hi i f := by
  refine punctuation_step ht.white_of_crlf h2 ((dsPunct_iff hb s).2 hc) hi'
    (fun j h3 h4 h5 h6 hm => ?_) (fun p h3 h4 h5 h6 => ?_) (fun p h3 h4 h5 h6 h7 => ?_)
    fun e h3 h4 h5 h6 => ds_marked_after_newline ht hb hs (by omega) h4 h5
      (mt (dsWhite_iff hb e).2 h6)
  · rcases (ds_marked_PS hb hs (by omega) h4 ((dsPunct_iff hb j).1 h6)).1 hm with h7 | h7
    · omega
    · exact h7.1 ((dsPunct_iff hb _).1 h5)
  · have hP := (dsPunct_iff hb _).1 h5
    have hW := (dsWhite_iff hb p).1 h6
    obtain ⟨rs, re, hr, h7, h8⟩ := hs.toSegment.exists_run hb (show lo ≤ p by omega) h4
    have hne : ∀ c, dsWsf c = true → dsRc .PS ≠ dsRc c := by
      intro c
      cases c <;> decide
    obtain rfl := hr.start_eq h7 h8 (Or.inr (by rw [hP]; exact hne _ hW))
    obtain ⟨eff, tail, h⟩ := ds_marked_white hb hs hr hW
    exact ⟨_, re, eff, tail, h, by omega, hP⟩
  · have hP := (dsPunct_iff hb _).1 (h5 (p - 1) (by omega) (by omega))
    have hLM : IsLM (b.cls p) → DsMarked b p := fun h =>
      (ds_marked_LM_head hb hs (by omega) h4 h (by rw [hP]; decide)).2
        ⟨by rw [hP]; decide, hL p h3 h4 fun k h8 h9 => (dsPunct_iff hb k).1 (h5 k h8 h9)⟩
    cases hcp : b.cls p with
    | O => exact (ds_marked_O hb hs (by omega) h4 hcp).2 (Or.inl (by rw [hP]; decide))
    | L => exact hLM (Or.inl hcp)
    | M => exact hLM (Or.inr hcp)
    | N => exact absurd hcp (not_N_of_head hs (by omega) h4 (by rw [hP]; decide))
    | PS => exact absurd ((dsPunct_iff hb p).2 hcp) h6
    | WS => exact absurd ((dsWhite_iff hb p).2 (by rw [hcp]; rfl)) h7
    | CRLF => exact absurd ((dsWhite_iff hb p).2 (by rw [hcp]; rfl)) h7

omit hs ht in
theorem dsLetter_not (h : ¬ IsLM (b.cls i)) : ¬ dsLetter tab (b.cp i) = true :=
  mt (dsLetter_iff hb i).1 h

/-- A match from a marked punctuation character. -/
theorem ds_step_PS (h1 : lo ≤ i) (h2 : i < hi) (hc : b.cls i = .PS) (hm : DsMarked b i) :
    ∃ e, first b.cp hi (deepSeekPattern tab) i = some e ∧ Ends (DsMarked b) hi i e := by
  by_cases hA : dsApunct (b.cp i) = true ∧ i + 1 < hi ∧ dsAlpha (b.cp (i + 1)) = true
  · obtain ⟨e, he, hends⟩ := ds_asciiWord ht hb hs h1 hA.2.1 hm hA.1 hA.2.2
    exact ⟨e, first_alt_left he, hends⟩
  obtain ⟨f, hf, hends⟩ := ds_first_punctuation_ends (i := i) ht hb hs h1 h2 hc (Or.inl rfl)
    fun p h3 h4 h5 h6 => by
      obtain ⟨ha, _, hap, hfree⟩ := (dsA1Trig_iff hs (by omega) h4).1 h6
      rcases Nat.eq_or_lt_of_le (Nat.succ_le_of_lt h3) with rfl | h3
      · exact hA ⟨hap, h4, ha⟩
      · rcases hfree with h | h
        · omega
        · exact h.1 (h5 (p - 1 - 1) (by omega) (by omega))
  refine ⟨f, ?_, hends⟩
  have hno : first b.cp hi asciiWord i = none := by
    rw [asciiWord, first_one_seq_eq]
    split
    · rename_i h
      refine first_many1_none ?_
      by_cases h' : i + 1 < hi
      · exact Or.inr fun ha => hA ⟨h.2, h', ha⟩
      · exact Or.inl (by omega)
    · rfl
  have hcp : tab (b.cp i) = .PS := by rw [← hb.cls, hc]
  have hopt : first b.cp hi (opt (· = 32) ++ punctuation (tab · = .PS) crlf) i = some f := by
    refine (first_opt_seq_skip fun _ h => ?_).trans hf
    have := cls_of_32 ht hb (of_decide_eq_true h)
    rw [hc] at this
    exact absurd this (by decide)
  rw [deepSeekPattern, first_alt_right hno, first_alt_right (first_word_none
    (dsLetter_not hb (by rw [hc]; decide)) fun h => absurd h (by simp [dsWordPrefix, hcp]))]
  exact first_alt_left hopt

/-! ### White space -/

omit hs in
/-- White space that prefixes neither a word nor punctuation is left to the last alternatives. -/
theorem ds_first_of_space (hc : dsWsf (b.cls i) = true)
    (hL : crlf (b.cp i) = false → i + 1 < hi → ¬ IsLM (b.cls (i + 1)))
    (hP : b.cp i = 32 → i + 1 < hi → b.cls (i + 1) ≠ .PS) :
    first b.cp hi (deepSeekPattern tab) i =
      first b.cp hi (spaces (dsWhite tab) crlf) i := by
  have hcl : ∀ c, dsWsf c = true → c ≠ .PS ∧ ¬ IsLM c := by
    intro c
    cases c <;> decide
  obtain ⟨hPS, hLM⟩ := hcl _ hc
  have hopt : first b.cp hi (opt (· = 32) ++ punctuation (tab · = .PS) crlf) i = none := by
    refine (first_opt_seq_skip fun _ h => ?_).trans
      (first_punctuation_none (Or.inr (mt (dsPunct_iff hb i).1 hPS)))
    refine first_punctuation_none ?_
    rcases Nat.lt_or_ge (i + 1) hi with h' | h'
    · exact Or.inr (mt (dsPunct_iff hb _).1 (hP (of_decide_eq_true h) h'))
    · exact Or.inl h'
  rw [deepSeekPattern, first_alt_right (first_asciiWord_none ht hb hPS),
    first_alt_right (first_word_none (dsLetter_not hb hLM) fun h => ?_), first_alt_right hopt]
  rcases Nat.lt_or_ge (i + 1) hi with h' | h'
  · refine Or.inr (dsLetter_not hb (hL ?_ h'))
    simp only [dsWordPrefix, Bool.and_eq_true, Bool.not_eq_true'] at h
    exact h.1.1
  · exact Or.inl h'

/-- A match from the last character of a white run that is not a newline, before another
character. -/
theorem ds_step_white_last {eff tail : ℕ}
    (h : WhiteRun b.cp (dsWhite tab) (DsMarked b) hi (lo < rs ∧ b.cls (rs - 1) = .PS) rs re eff tail)
    (hlo : lo ≤ rs) (h1 : rs ≤ i) (htail : tail ≤ i) (h2 : i + 1 = re) (hlt : re < hi) :
    ∃ e, first b.cp hi (deepSeekPattern tab) i = some e ∧ Ends (DsMarked b) hi i e := by
  subst h2
  have hcr := h.rest i htail (Nat.lt_succ_self i)
  have hW := (dsWhite_iff hb i).1 (h.all i h1 (Nat.lt_succ_self i))
  have hWS : b.cls i = .WS := by
    rcases (of_decide_eq_true hW : b.cls i = .WS ∨ b.cls i = .CRLF) with h' | h'
    · exact h'
    · rw [(crlf_iff_cls ht hb i).2 h'] at hcr
      exact Bool.noConfusion hcr
  have hcp : tab (b.cp i) = .WS := by rw [← hb.cls, hWS]
  have hnw : ¬ dsWsf (b.cls (i + 1)) = true := fun h' =>
    h.after.resolve_left (by omega) ((dsWhite_iff hb _).2 h')
  by_cases hL : IsLM (b.cls (i + 1))
  · obtain ⟨e, he, hends⟩ := ds_prefixed_word ht hb hs (by omega) hlt
      (by simp [dsWordPrefix, hcr, hcp]) (by rw [hWS]; decide) (by rw [hWS]; decide) hL fun hm =>
        ((ds_marked_LM_head hb hs (by omega) hlt hL (by
          rw [Nat.add_sub_cancel, hWS]
          decide)).1 hm).1 (Or.inl hWS)
    refine ⟨e, ?_, hends⟩
    rw [deepSeekPattern, first_alt_right (first_asciiWord_none ht hb (by rw [hWS]; decide))]
    exact first_alt_left he
  by_cases hP : b.cp i = 32 ∧ b.cls (i + 1) = .PS
  · have hfree : ¬ Free b .PS lo (i + 1) := fun h => by
      rcases h with h | h
      · omega
      · exact h.2 hP.1
    obtain ⟨f, hf, hends⟩ := ds_first_punctuation_ends ht hb hs (by omega) hlt hP.2
      (Or.inr ⟨rfl, mt (ds_marked_PS hb hs (by omega) hlt hP.2).1 hfree⟩) fun p h3 h4 h5 h6 => by
        obtain ⟨_, _, _, h7⟩ := (dsA1Trig_iff hs (by omega) h4).1 h6
        rcases Nat.eq_or_lt_of_le (Nat.succ_le_of_lt h3) with rfl | h3
        · exact hfree h7
        · rcases h7 with h7 | h7
          · omega
          · exact h7.1 (h5 (p - 1 - 1) (by omega) (by omega))
    refine ⟨f, ?_, hends⟩
    rw [deepSeekPattern, first_alt_right (first_asciiWord_none ht hb (by rw [hWS]; decide)),
      first_alt_right (first_word_none (dsLetter_not hb (by rw [hWS]; decide))
        fun _ => Or.inr (dsLetter_not hb hL))]
    exact first_alt_left (first_opt_seq (by omega) (decide_eq_true hP.1) hf)
  · refine ⟨i + 1, ?_, by omega, hlt.le, fun j h3 h4 => by omega, fun _ => ?_⟩
    · rw [ds_first_of_space ht hb hW (fun _ _ => hL) fun h _ h' => hP ⟨h, h'⟩]
      exact first_spaces_one (h.whiteFrom ht.white_of_crlf h1 (by omega)) htail hlt rfl
    · cases hce : b.cls (i + 1) with
      | O => exact (ds_marked_O hb hs (by omega) hlt hce).2 (Or.inl (by
          rw [Nat.add_sub_cancel, hWS]
          decide))
      | L => exact absurd (Or.inl hce) hL
      | M => exact absurd (Or.inr hce) hL
      | N => exact absurd hce (not_N_of_head hs (by omega) hlt (by
          rw [Nat.add_sub_cancel, hWS]
          decide))
      | PS => exact (ds_marked_PS hb hs (by omega) hlt hce).2 (Or.inr ⟨by
          rw [Nat.add_sub_cancel, hWS]
          decide, fun h => hP ⟨h, hce⟩⟩)
      | WS => exact absurd (by rw [hce]; rfl) hnw
      | CRLF => exact absurd (by rw [hce]; rfl) hnw

/-- A match from marked white space. -/
theorem ds_step_white (h1 : lo ≤ i) (h2 : i < hi) (hc : dsWsf (b.cls i) = true)
    (hm : DsMarked b i) :
    ∃ e, first b.cp hi (deepSeekPattern tab) i = some e ∧ Ends (DsMarked b) hi i e := by
  obtain ⟨rs, re, hr, h3, h4⟩ := hs.toSegment.exists_run hb h1 h2
  have hlo := hr.lo_le
  have hrc : ∀ c c', dsRc c = dsRc c' → dsWsf c = true → dsWsf c' = true := by
    intro c c'
    cases c <;> cases c' <;> decide
  obtain ⟨eff, tail, h⟩ := ds_marked_white hb hs hr (hrc _ _ (hr.same i h3 h4) hc)
  have hall : ∀ j, rs ≤ j → j < re → dsWsf (b.cls j) = true := fun j h5 h6 =>
    (dsWhite_iff hb j).1 (h.all j h5 h6)
  have hcl : ∀ c, dsWsf c = true → ¬ IsLM c ∧ c ≠ .PS := by
    intro c
    cases c <;> decide
  refine h.step ht.white_of_crlf (fun k h5 h6 hlast => ?_)
    (fun k h5 h6 h7 h8 => ds_step_white_last ht hb hs h hlo h5 h6 h7 h8) (fun h5 h6 => ?_) h3 h4 hm
  · -- a newline that the last alternatives leave prefixes nothing
    refine ds_first_of_space ht hb (hall k h5 h6) (fun hcr h7 => ?_) fun hsp h7 => ?_
    · refine (hcl _ (hall (k + 1) (by omega) ?_)).1
      by_contra hge
      rw [hlast (by omega) (by omega)] at hcr
      exact Bool.noConfusion hcr
    · refine (hcl _ (hall (k + 1) (by omega) ?_)).2
      by_contra hge
      have := hlast (by omega) (by omega)
      rw [hsp] at this
      exact absurd this (by decide)
  · exact ds_marked_after_newline ht hb hs (by omega) h5 h6 fun h' =>
      h.after.resolve_left (by omega) ((dsWhite_iff hb re).2 h')

/-! ### Segments -/

omit hs in
/-- Nothing matches at a digit, or at another character that is not followed by a letter. -/
theorem ds_first_none (hc : b.cls i = .O ∨ b.cls i = .N)
    (hL : i + 1 < hi → ¬ IsLM (b.cls (i + 1))) : first b.cp hi (deepSeekPattern tab) i = none := by
  have hcl : ∀ c, c = DsCls.O ∨ c = .N → c ≠ .PS ∧ c ≠ .WS ∧ ¬ IsLM c ∧ ¬ dsWsf c = true := by
    intro c
    cases c <;> decide
  obtain ⟨hPS, hWS, hLM, hw⟩ := hcl _ hc
  have hopt : first b.cp hi (opt (· = 32) ++ punctuation (tab · = .PS) crlf) i = none := by
    refine (first_opt_seq_skip fun _ h => ?_).trans
      (first_punctuation_none (Or.inr (mt (dsPunct_iff hb i).1 hPS)))
    exact absurd (cls_of_32 ht hb (of_decide_eq_true h)) hWS
  rw [deepSeekPattern, first_alt_right (first_asciiWord_none ht hb hPS),
    first_alt_right (first_word_none (dsLetter_not hb hLM) fun _ => ?_), first_alt_right hopt]
  · exact first_spaces_none ht.white_of_crlf (mt (dsWhite_iff hb i).1 hw)
  · rcases Nat.lt_or_ge (i + 1) hi with h' | h'
    · exact Or.inr (dsLetter_not hb (hL h'))
    · exact Or.inl h'

/-- After an unmatched character, one that is neither unmatched itself nor a letter starts a
piece. -/
theorem ds_marked_after_gap (h1 : lo < i) (h2 : i < hi) (hprev : b.cls (i - 1) = .O)
    (hO : b.cls i ≠ .O) (hL : ¬ IsLM (b.cls i)) : DsMarked b i := by
  cases hc : b.cls i with
  | O => exact absurd hc hO
  | L => exact absurd (Or.inl hc) hL
  | M => exact absurd (Or.inr hc) hL
  | N => exact absurd hc (not_N_of_head hs h1 h2 (by rw [hprev]; decide))
  | PS =>
      refine (ds_marked_PS hb hs h1.le h2 hc).2 (Or.inr ⟨by rw [hprev]; decide, fun h => ?_⟩)
      rw [cls_of_32 ht hb h] at hprev
      exact absurd hprev (by decide)
  | WS =>
      exact ds_marked_head_white hb hs h1.le h2 (by rw [hc]; rfl)
        (Or.inr ⟨by rw [hprev]; decide, by rw [hprev]; decide⟩)
  | CRLF =>
      exact ds_marked_head_white hb hs h1.le h2 (by rw [hc]; rfl)
        (Or.inr ⟨by rw [hprev]; decide, by rw [hprev]; decide⟩)

/-- What the splitter knows at a position: a piece starts here, or the character before is
unmatched and this one is no letter. -/
def DsAt (b : Buffers DsCls) (lo hi : ℕ) (gap : Bool) (i : ℕ) : Prop :=
  lo ≤ i ∧ (gap = false → i < hi → DsMarked b i) ∧
    (gap = true → lo < i ∧ (b.cls (i - 1) = .O ∨ b.cls (i - 1) = .N) ∧
      (i < hi → ¬ IsLM (b.cls i)))

/-- From every position the splitter cuts as the marks say. -/
theorem ds_cuts {gap : Bool} (hi' : i < hi) (hat : DsAt b lo hi gap i) :
    Cuts b.cp hi (deepSeekPattern tab) (DsMarked b) (DsAt b lo hi) gap i := by
  obtain ⟨hlo, hm, hgap⟩ := hat
  by_cases hun : (b.cls i = .O ∨ b.cls i = .N) ∧ (i + 1 < hi → ¬ IsLM (b.cls (i + 1)))
  · -- unmatched: the character starts a piece unless it follows another one
    refine Or.inr ⟨ds_first_none ht hb hun.1 hun.2, ?_, by omega, fun h => Bool.noConfusion h,
      fun _ => ⟨by omega, hun.1, hun.2⟩⟩
    cases gap with
    | false => exact iff_of_true rfl (hm rfl hi')
    | true =>
        obtain ⟨h1, h2, _⟩ := hgap rfl
        refine iff_of_false Bool.noConfusion ?_
        rcases hun.1 with hc | hc
        · have hprev : b.cls (i - 1) = .O := h2.resolve_right fun h => by
            rw [(hs.digit i h1 hi').2 h] at hc
            exact absurd hc (by decide)
          rw [ds_marked_O hb hs h1 hi' hc, hprev]
          rintro (h | h)
          · exact h rfl
          · exact hun.2 h.1 h.2
        · exact ds_not_marked_N hs h1 hi' hc
  left
  have hends : ∀ e, Ends (DsMarked b) hi i e → i < e ∧ (∀ j, i < j → j < e → ¬ DsMarked b j) ∧
      DsAt b lo hi false e := fun e h =>
    ⟨h.1, h.2.2.1, by have := h.1; omega, fun _ => h.2.2.2, fun h => Bool.noConfusion h⟩
  have hfin : DsMarked b i → (∃ e, first b.cp hi (deepSeekPattern tab) i = some e ∧
      Ends (DsMarked b) hi i e) → ∃ e, first b.cp hi (deepSeekPattern tab) i = some e ∧ i < e ∧
        DsMarked b i ∧ (∀ j, i < j → j < e → ¬ DsMarked b j) ∧ DsAt b lo hi false e := by
    rintro hmi ⟨e, he, h⟩
    obtain ⟨h1, h2, h3⟩ := hends e h
    exact ⟨e, he, h1, hmi, h2, h3⟩
  have hmark : b.cls i ≠ .O → b.cls i ≠ .N → DsMarked b i := fun hO hN => by
    cases gap with
    | false => exact hm rfl hi'
    | true =>
        obtain ⟨h1, h2, h3⟩ := hgap rfl
        exact ds_marked_after_gap ht hb hs h1 hi'
          (h2.resolve_right fun h => hN ((hs.digit i h1 hi').2 h)) hO (h3 hi')
  have hLM : IsLM (b.cls i) → b.cls i ≠ .O ∧ b.cls i ≠ .N := by
    cases b.cls i <;> decide
  have hnext : b.cls i = .O ∨ b.cls i = .N → i + 1 < hi ∧ IsLM (b.cls (i + 1)) := fun h => by
    by_contra hno
    exact hun ⟨h, fun h1 h2 => hno ⟨h1, h2⟩⟩
  cases hc : b.cls i with
  | O =>
      obtain ⟨h1, h2⟩ := hnext (Or.inl hc)
      have hmi : DsMarked b i := by
        rcases Nat.eq_or_lt_of_le hlo with rfl | hlt
        · exact ds_marked_start hs
        · exact (ds_marked_O hb hs hlt hi' hc).2 (Or.inr ⟨h1, h2⟩)
      have hcp : tab (b.cp i) = .O := by rw [← hb.cls, hc]
      have hcr : crlf (b.cp i) = false := by
        by_contra h
        rw [(crlf_iff_cls ht hb i).1 (by simpa using h)] at hc
        exact absurd hc (by decide)
      obtain ⟨e, he, h⟩ := ds_prefixed_word ht hb hs hlo h1 (by simp [dsWordPrefix, hcr, hcp])
        (by rw [hc]; decide) (by rw [hc]; decide) h2 fun hm' =>
          ((ds_marked_LM_head hb hs (by omega) h1 h2 (by
            rw [Nat.add_sub_cancel, hc]
            decide)).1 hm').1 (Or.inr (Or.inl hc))
      refine hfin hmi ⟨e, ?_, h⟩
      rw [deepSeekPattern, first_alt_right (first_asciiWord_none ht hb (by rw [hc]; decide))]
      exact first_alt_left he
  | L =>
      have h := hLM (Or.inl hc)
      exact hfin (hmark h.1 h.2) (ds_step_LM ht hb hs hlo hi' (Or.inl hc) (hmark h.1 h.2))
  | M =>
      have h := hLM (Or.inr hc)
      exact hfin (hmark h.1 h.2) (ds_step_LM ht hb hs hlo hi' (Or.inr hc) (hmark h.1 h.2))
  | N =>
      obtain ⟨h1, h2⟩ := hnext (Or.inr hc)
      have := (hs.digit (i + 1) (by omega) h1).2 hc
      rw [this] at h2
      exact absurd h2 (by decide)
  | PS =>
      have h := hmark (by rw [hc]; decide) (by rw [hc]; decide)
      exact hfin h (ds_step_PS ht hb hs hlo hi' hc h)
  | WS =>
      have h := hmark (by rw [hc]; decide) (by rw [hc]; decide)
      exact hfin h (ds_step_white ht hb hs hlo hi' (by rw [hc]; rfl) h)
  | CRLF =>
      have h := hmark (by rw [hc]; decide) (by rw [hc]; decide)
      exact hfin h (ds_step_white ht hb hs hlo hi' (by rw [hc]; rfl) h)

/-- The marks of a segment are the starts of the pieces of the main pattern. -/
theorem deepSeek_segment (h1 : lo ≤ j) (h2 : j < hi) :
    j ∈ pieces b.cp (deepSeekPattern tab) lo hi ↔ DsMarked b j :=
  mem_pieces_iff (DsMarked b) (DsAt b lo hi) (fun _ _ hi' hat => ds_cuts ht hb hs hi' hat)
    ⟨le_rfl, fun _ _ => ds_marked_start hs, fun h => Bool.noConfusion h⟩ h1 h2

end Marks

/-! ### The prepass -/

section Stages

variable {tab : ℕ → DsCls} {dmax : ℕ} {cp : ℕ → ℕ} {n i j a e : ℕ}

/-- No marks besides the start of the text. -/
def noDoc (_ : ℕ) : Bool := false

/-- The start of the digits a digit stands in. -/
def digitStart (tab : ℕ → DsCls) (cp : ℕ → ℕ) : ℕ → ℕ := inclusiveMax (kDsSeedN cp tab noDoc)

theorem kDsSeedN_le (k : ℕ) : kDsSeedN cp tab noDoc k ≤ k := by
  unfold kDsSeedN
  split
  · exact le_rfl
  · split <;> omega

theorem digitStart_le (k : ℕ) : digitStart tab cp k ≤ k := inclusiveMax_le kDsSeedN_le k

theorem digitStart_head (h : i = 0 ∨ tab (cp (i - 1)) ≠ .N) : digitStart tab cp i = i := by
  refine inclusiveMax_head kDsSeedN_le ?_
  unfold kDsSeedN
  split
  · rfl
  · rw [if_pos (h.imp_right Or.inr)]

theorem digitStart_succ (h : tab (cp (i + 1)) = .N) (hp : tab (cp i) = .N) :
    digitStart tab cp (i + 1) = digitStart tab cp i := by
  refine inclusiveMax_member ?_
  unfold kDsSeedN
  rw [if_neg (not_not_intro h), if_neg]
  rintro (h' | h' | h')
  · omega
  · exact Bool.noConfusion h'
  · exact h' hp

/-- The cuts of the digit groups: the group starts and the ends of the digits. -/
def DigitCut (tab : ℕ → DsCls) (dmax : ℕ) (cp : ℕ → ℕ) (i : ℕ) : Prop :=
  i = 0 ∨ (tab (cp i) = .N ∧ (i - digitStart tab cp i) % dmax = 0) ∨
    (tab (cp i) ≠ .N ∧ 0 < i ∧ tab (cp (i - 1)) = .N)

theorem dsB_iff : dsB tab dmax cp noDoc i = true ↔
    DigitCut tab dmax cp i ∨ (0 < i ∧ dsCjk (cp i) ≠ dsCjk (cp (i - 1))) := by
  rw [dsB, kDsBMask, DigitCut]
  simp only [decide_eq_true_eq, noDoc, Bool.false_eq_true, false_or]
  change i = 0 ∨ (_ ∧ (i - digitStart tab cp i) % dmax = 0) ∨ _ ↔ _
  rcases Nat.eq_zero_or_pos i with rfl | hpos
  · simp
  · have hne : i ≠ 0 := hpos.ne'
    cases dsCjk (cp i) <;> cases dsCjk (cp (i - 1)) <;> simp [hpos, hne]

/-- Digits from a cut on: all but the multiples of the bound stay uncut. -/
theorem digitStart_run (hN : ∀ k, i ≤ k → k ≤ j → tab (cp k) = .N) (hij : i ≤ j) :
    digitStart tab cp j = digitStart tab cp i := by
  induction hij with
  | refl => rfl
  | @step j hij ih =>
      rw [digitStart_succ (hN (j + 1) (Nat.le_succ_of_le hij) le_rfl) (hN j hij (Nat.le_succ j))]
      exact ih fun k h1 h2 => hN k h1 (Nat.le_succ_of_le h2)

/-- The first splitter cuts at the digit cuts. -/
theorem mem_digit_pieces (hd : 1 ≤ dmax) (hj : j < n) :
    j ∈ pieces cp (digitGroup tab dmax) 0 n ↔ DigitCut tab dmax cp j := by
  refine mem_pieces_iff (DigitCut tab dmax cp)
    (fun gap i => (gap = true → 0 < i ∧ tab (cp (i - 1)) ≠ .N) ∧
      (gap = false → i < n → DigitCut tab dmax cp i))
    (fun gap i hi hinv => ?_) ⟨fun h => Bool.noConfusion h, fun _ _ => Or.inl rfl⟩ (Nat.zero_le j) hj
  obtain ⟨hgap, hcut⟩ := hinv
  by_cases hc : tab (cp i) = .N
  · have hmark : DigitCut tab dmax cp i := by
      cases gap with
      | false => exact hcut rfl hi
      | true =>
          rw [DigitCut, digitStart_head (Or.inr (hgap rfl).2), Nat.sub_self, Nat.zero_mod]
          exact Or.inr (Or.inl ⟨hc, rfl⟩)
    have hmod : (i - digitStart tab cp i) % dmax = 0 := by
      rcases hmark with rfl | h | h
      · rw [Nat.zero_sub, Nat.zero_mod]
      · exact h.2
      · exact absurd hc h.1
    have hds : digitStart tab cp i ≤ i := digitStart_le i
    obtain ⟨re, h1, h2, hall, hend⟩ := exists_run cp (tab · = .N) hi.le
    have hall' : ∀ k, i ≤ k → k < re → tab (cp k) = .N := fun k h3 h4 =>
      of_decide_eq_true (hall k h3 h4)
    have hlt : i < re := by
      refine Nat.lt_of_le_of_ne h1 fun heq => ?_
      rcases hend with h | h
      · omega
      · exact h (decide_eq_true (heq ▸ hc))
    have htakes : Takes cp n (tab · = .N) (some dmax) i (min (i + dmax) re - i) := by
      refine takes_bounded (by omega) (by omega) (by omega)
        (fun k h3 h4 => hall k h3 (by omega)) ?_
      rcases Nat.le_total (i + dmax) re with h | h
      · exact Or.inl (by omega)
      · rw [Nat.min_eq_right h]
        exact Or.inr hend
    refine Or.inl ⟨min (i + dmax) re, ?_, by omega, hmark, fun k h3 h4 hk => ?_,
      fun h => Bool.noConfusion h, fun _ hen => ?_⟩
    · rw [digitGroup, first_rep htakes (by omega)]
      exact congrArg some (by omega)
    · have hkN := hall' k h3.le (by omega)
      have hrun := digitStart_run (fun l h5 h6 => hall' l h5 (by omega)) h3.le
      rcases hk with hk | hk | hk
      · omega
      · rw [hrun, show k - digitStart tab cp i = (i - digitStart tab cp i) + (k - i) by omega,
          Nat.add_mod, hmod, Nat.zero_add, Nat.mod_mod, Nat.mod_eq_of_lt (by omega)] at hk
        omega
      · exact hk.1 hkN
    · by_cases he : tab (cp (min (i + dmax) re)) = .N
      · have hle : i + dmax ≤ re := by
          by_contra hgt
          rw [Nat.min_eq_right (by omega)] at he hen
          exact hend.resolve_left (by omega) (decide_eq_true he)
        rw [Nat.min_eq_left hle] at he ⊢
        have hrun : digitStart tab cp (i + dmax) = digitStart tab cp i := by
          refine digitStart_run (fun l h5 h6 => ?_) (by omega)
          rcases Nat.lt_or_ge l re with h7 | h7
          · exact hall' l h5 h7
          · rwa [show l = i + dmax by omega]
        refine Or.inr (Or.inl ⟨he, ?_⟩)
        rw [hrun, show i + dmax - digitStart tab cp i = (i - digitStart tab cp i) + dmax by omega,
          Nat.add_mod_right, hmod]
      · exact Or.inr (Or.inr ⟨he, by omega, hall' _ (by omega) (by omega)⟩)
  · have hnone : first cp n (digitGroup tab dmax) i = none :=
      first_rep_none (takes_zero (Or.inr fun h => hc (of_decide_eq_true h))) Nat.zero_lt_one
    refine Or.inr ⟨hnone, ?_, fun _ => ⟨Nat.succ_pos i, hc⟩, fun h => Bool.noConfusion h⟩
    cases gap with
    | false => exact iff_of_true rfl (hcut rfl hi)
    | true =>
        refine iff_of_false Bool.noConfusion ?_
        obtain ⟨h1, h2⟩ := hgap rfl
        rintro (h | h | h)
        · omega
        · exact hc h.1
        · exact h2 h.2.2

/-- The second splitter adds the ends of the CJK runs. -/
theorem mem_cjk_pieces (hp : IsPiece (DigitCut tab dmax cp) 0 n a e) (h1 : a ≤ j) (h2 : j < e) :
    j ∈ pieces cp (many1 dsCjk) a e ↔ dsB tab dmax cp noDoc j = true := by
  refine mem_pieces_iff (fun j => dsB tab dmax cp noDoc j = true)
    (fun gap i => a ≤ i ∧ (gap = true → a < i ∧ dsCjk (cp (i - 1)) = false) ∧
      (gap = false → i < e → dsB tab dmax cp noDoc i = true))
    (fun gap i hi hinv => ?_)
    ⟨le_rfl, fun h => Bool.noConfusion h, fun _ _ => dsB_iff.2 (Or.inl hp.start)⟩ h1 h2
  obtain ⟨hai, hgap, hcut⟩ := hinv
  cases hc : dsCjk (cp i) with
  | true =>
      obtain ⟨re, h3, h4, hall, hend⟩ := exists_run cp dsCjk hi.le
      have hlt : i < re := by
        refine Nat.lt_of_le_of_ne h3 fun heq => ?_
        rcases hend with h | h
        · omega
        · exact h (heq ▸ hc)
      refine Or.inl ⟨re, first_many1 hlt h4 hall hend, hlt, ?_, fun k h5 h6 hk => ?_, by omega,
        fun h => Bool.noConfusion h, fun _ hre => ?_⟩
      · cases gap with
        | false => exact hcut rfl hi
        | true =>
            obtain ⟨h5, h6⟩ := hgap rfl
            exact dsB_iff.2 (Or.inr ⟨by omega, by rw [hc, h6]; decide⟩)
      · rcases dsB_iff.1 hk with h | h
        · exact hp.inner k (by omega) (by omega) h
        · rw [hall k h5.le h6, hall (k - 1) (by omega) (by omega)] at h
          exact h.2 rfl
      · refine dsB_iff.2 (Or.inr ⟨by omega, ?_⟩)
        rw [hall (re - 1) (by omega) (by omega)]
        exact hend.resolve_left (by omega)
  | false =>
      have hnone : first cp e (many1 dsCjk) i = none :=
        first_many1_none (Or.inr (by rw [hc]; exact Bool.false_ne_true))
      refine Or.inr ⟨hnone, ?_, by omega, fun _ => ⟨by omega, hc⟩, fun h => Bool.noConfusion h⟩
      cases gap with
      | false => exact iff_of_true rfl (hcut rfl hi)
      | true =>
          obtain ⟨h5, h6⟩ := hgap rfl
          refine iff_of_false Bool.noConfusion fun hk => ?_
          rcases dsB_iff.1 hk with h | h
          · exact hp.inner i h5 hi h
          · rw [hc, h6] at h
            exact h.2 rfl

/-- Inside a segment digits stay among themselves. -/
theorem digit_iff (h : ¬ DigitCut tab dmax cp j) : tab (cp j) = .N ↔ tab (cp (j - 1)) = .N := by
  rw [DigitCut, not_or, not_or] at h
  constructor
  · intro h1
    by_contra h2
    refine h.2.1 ⟨h1, ?_⟩
    rw [digitStart_head (Or.inr h2), Nat.sub_self, Nat.zero_mod]
  · intro h1
    by_contra h2
    exact h.2.2 ⟨h2, by omega, h1⟩

/-- The seed of the letter runs. -/
theorem dsArs_seed (k : ℕ) : (kDsBMask cp tab noDoc (digitStart tab cp) dmax k).2 =
    if ¬ dsAlpha (cp k) = true then k
    else if k = 0 ∨ dsB tab dmax cp noDoc k = true ∨ ¬ dsAlpha (cp (k - 1)) = true then k else 0 :=
  rfl

theorem dsArs_head (h : j = 0 ∨ dsB tab dmax cp noDoc j = true ∨ ¬ dsAlpha (cp (j - 1)) = true) :
    dsArs tab dmax cp noDoc j = j := by
  refine inclusiveMax_head (fun k => ?_) ?_
  · change (kDsBMask cp tab noDoc (digitStart tab cp) dmax k).2 ≤ k
    rw [dsArs_seed]
    split
    · exact le_rfl
    · split <;> omega
  · change (kDsBMask cp tab noDoc (digitStart tab cp) dmax j).2 = j
    rw [dsArs_seed, if_pos h, ite_self]

theorem dsArs_succ (h : dsAlpha (cp (j + 1)) = true) (hp : dsAlpha (cp j) = true)
    (hB : ¬ dsB tab dmax cp noDoc (j + 1) = true) :
    dsArs tab dmax cp noDoc (j + 1) = dsArs tab dmax cp noDoc j := by
  refine inclusiveMax_member ?_
  change (kDsBMask cp tab noDoc (digitStart tab cp) dmax (j + 1)).2 = 0
  rw [dsArs_seed, if_neg (not_not_intro h), if_neg]
  rintro (h' | h' | h')
  · omega
  · exact hB h'
  · exact h' hp

/-- The segments that the prepass cuts. -/
theorem dsSegment_of_isPiece (mem : ℕ → ℕ) (order : List ℕ)
    (hp : IsPiece (fun j => dsB tab dmax cp noDoc j = true) 0 n a e) :
    DsSegment (deepSeekBuffers tab dmax cp n noDoc mem order) a e where
  toSegment := segment_of_isPiece hp
  digit := fun j h1 h2 => digit_iff fun h => hp.inner j h1 h2 (dsB_iff.2 (Or.inl h))
  ars := fun j h1 h2 ha => by
    change dsAlpha (cp j) = true at ha
    change a ≤ dsArs tab dmax cp noDoc j ∧ dsArs tab dmax cp noDoc j ≤ j ∧
      (∀ k, dsArs tab dmax cp noDoc j ≤ k → k ≤ j → dsAlpha (cp k) = true) ∧
      (dsArs tab dmax cp noDoc j = a ∨ ¬ dsAlpha (cp (dsArs tab dmax cp noDoc j - 1)) = true)
    induction j, h1 using Nat.le_induction with
    | base =>
        rw [dsArs_head (Or.inr (Or.inl hp.start))]
        exact ⟨le_rfl, le_rfl, fun k h3 h4 => by rwa [show k = a by omega], Or.inl rfl⟩
    | succ j h1 ih =>
        by_cases hprev : dsAlpha (cp j) = true
        · obtain ⟨h3, h4, h5, h6⟩ := ih (by omega) hprev
          rw [dsArs_succ ha hprev (hp.inner (j + 1) (by omega) h2)]
          refine ⟨h3, by omega, fun k h7 h8 => ?_, h6⟩
          rcases Nat.eq_or_lt_of_le h8 with rfl | h8
          · exact ha
          · exact h5 k h7 (by omega)
        · rw [dsArs_head (Or.inr (Or.inr hprev))]
          exact ⟨by omega, le_rfl, fun k h3 h4 => by rwa [show k = j + 1 by omega], Or.inr hprev⟩

/-- The marked characters of a text are the starts of the pieces of the three splitters, for
every table that classifies newlines, the space and the ASCII characters as such. -/
theorem deepSeek_starts (ht : DsTable tab) (hd : 1 ≤ dmax) (text : List ℕ)
    (hn : text.length ≤ fncInit) (mem : ℕ → ℕ) (order : List ℕ)
    (horder : order.Perm (List.range text.length)) (j : ℕ) :
    (j < text.length ∧ pretokStartsDs tab dmax (text.getD · 0) text.length mem order j = true) ↔
      j ∈ deepSeekPieces tab dmax (text.getD · 0) text.length := by
  rcases Nat.eq_zero_or_pos text.length with h0 | hpos
  · rw [List.length_eq_zero_iff] at h0
    subst h0
    exact iff_of_false (fun h => Nat.not_lt_zero j h.1) List.not_mem_nil
  have hb : Filled (deepSeekBuffers tab dmax (text.getD · 0) text.length noDoc mem order) dsRc dsWsf
      tab := buffers_filled hn horder
  have hdigit : StartsOf (DigitCut tab dmax (text.getD · 0)) 0 text.length
      (splitEach (text.getD · 0) (digitGroup tab dmax) text.length [0]) :=
    startsOf_pieces fun j _ h2 => mem_digit_pieces hd h2
  have hcjk := hdigit.splitEach (r := many1 dsCjk) hpos (Or.inl rfl) fun a e hp j h1 h2 =>
    mem_cjk_pieces hp h1 h2
  have hmain := hcjk.splitEach (r := deepSeekPattern tab) hpos (dsB_iff.2 (Or.inl (Or.inl rfl)))
    fun a e hp j h1 h2 => deepSeek_segment ht hb (dsSegment_of_isPiece mem order hp) h1 h2
  refine Iff.trans ?_ (hmain.mem_iff j).symm
  exact ⟨fun h => ⟨Nat.zero_le j, h⟩, fun h => h.2⟩

/-- The classes of ASCII, and the first CJK range as letters. -/
def dsAsciiCls (c : ℕ) : DsCls :=
  if c = 10 ∨ c = 13 then .CRLF
  else if c ∈ [9, 11, 12, 32] then .WS
  else if dsAlpha c ∨ (0x4E00 ≤ c ∧ c ≤ 0x9FA5) then .L
  else if 48 ≤ c ∧ c ≤ 57 then .N
  else if dsApunct c then .PS
  else .O

theorem dsAsciiCls_table : DsTable dsAsciiCls where
  newline := fun c => by
    unfold dsAsciiCls
    split
    · rename_i h
      exact iff_of_true rfl h
    · rename_i h
      refine iff_of_false ?_ h
      split_ifs <;> decide
  space := rfl
  apunct := fun c h => by
    have h' := h
    simp only [dsApunct, ge_iff_le, Bool.or_eq_true, Bool.and_eq_true, decide_eq_true_eq] at h'
    have hws : c ∉ [9, 11, 12, 32] := by
      simp only [List.mem_cons, List.not_mem_nil, or_false]
      omega
    have hal : ¬ (dsAlpha c = true ∨ (0x4E00 ≤ c ∧ c ≤ 0x9FA5)) := by
      simp only [dsAlpha, ge_iff_le, Bool.or_eq_true, Bool.and_eq_true, decide_eq_true_eq]
      omega
    rw [dsAsciiCls, if_neg (by omega), if_neg hws, if_neg hal, if_neg (by omega), if_pos h]
  alpha := fun c h => by
    have h' := h
    simp only [dsAlpha, ge_iff_le, Bool.or_eq_true, Bool.and_eq_true, decide_eq_true_eq] at h'
    have hws : c ∉ [9, 11, 12, 32] := by
      simp only [List.mem_cons, List.not_mem_nil, or_false]
      omega
    rw [dsAsciiCls, if_neg (by omega), if_neg hws, if_pos (Or.inl h)]
    exact Or.inl rfl

/-- In `!a`, a CJK character, a digit and a space the CJK character starts a piece. -/
theorem deepSeek_starts_small :
    (2 < 5 ∧ pretokStartsDs dsAsciiCls 3 ([33, 97, 0x4E2D, 49, 32].getD · 0) 5 (fun _ => 0)
      (List.range 5) 2 = true) ↔ 2 ∈ [0, 2, 3, 4] := by
  have h := deepSeek_starts dsAsciiCls_table (by decide : 1 ≤ 3) [33, 97, 0x4E2D, 49, 32]
    (by decide) (fun _ => 0) (List.range 5) (List.Perm.refl _) 2
  rwa [show deepSeekPieces dsAsciiCls 3 ([33, 97, 0x4E2D, 49, 32].getD · 0)
    [33, 97, 0x4E2D, 49, 32].length = [0, 2, 3, 4] by decide] at h

/-- With an arbitrary table the two differ: an ASCII punctuation character that the table does
not class as punctuation takes letters in the pattern, and none in the rules. -/
theorem deepSeek_starts_any_table : ¬ ∀ (tab : ℕ → DsCls) (text : List ℕ) (mem : ℕ → ℕ)
    (order : List ℕ), order.Perm (List.range text.length) → ∀ j,
      (j < text.length ∧
          pretokStartsDs tab 3 (text.getD · 0) text.length mem order j = true) ↔
        j ∈ deepSeekPieces tab 3 (text.getD · 0) text.length := by
  intro h
  have h2 := (h (fun c => if c = 33 then .O else .L) [33, 97, 0xE9] (fun _ => 0) (List.range 3)
    (List.Perm.refl _) 2).2 (by decide)
  exact absurd h2.2 (by decide)

end Stages

end Toktier.Pretok
