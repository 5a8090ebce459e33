import Toktier.Pretok.Segments

/-!
# The GPT-style rules cut like their regular expression

`rulesCl100k` marks in every segment exactly the starts of the pieces that repeated
leftmost-first matching of the pattern finds there. The proof follows the matcher:
from a marked character its match ends at a marked character or at the end of the
segment, and nothing is marked in between.

## Main definitions

* `cl100kPattern`: the seven alternatives.

## Main results

* `cl100k_segment`: the marks of a segment are the starts of its pieces.
* `cl100k_starts`: the same for a whole text.
-/
namespace Toktier.Pretok

open Lib Pattern

/-! ### The pattern -/

/-- A letter under case folding: either case, and U+017F for s. -/
def folds (c x : ℕ) : Bool := x = c || x + 32 = c || (c = 0x73 && x = 0x17F)

def folded (c : ℕ) : Pattern ℕ := one (folds c)

/-- `'(?i:s|t|re|ve|m|ll|d)` -/
def contraction : Pattern ℕ :=
  one (· = 39) ++ (folded 0x73 <|> folded 0x74 <|> folded 0x72 ++ folded 0x65 <|>
    folded 0x76 ++ folded 0x65 <|> folded 0x6D <|> folded 0x6C ++ folded 0x6C <|> folded 0x64)

/-- `[^\r\n\p{L}\p{N}]` -/
def wordPrefix (tab : ℕ → Cls) (c : ℕ) : Bool := !crlf c && tab c ≠ .L && tab c ≠ .N

/-- `[^\s\p{L}\p{N}]` -/
def other (tab : ℕ → Cls) (c : ℕ) : Bool := tab c ≠ .S && tab c ≠ .L && tab c ≠ .N

/-- The alternatives of the GPT-style splitter. -/
def cl100kPattern (tab : ℕ → Cls) (dmax : ℕ) : Pattern ℕ :=
  contraction <|>
    word (wordPrefix tab) (tab · = .L) <|>
    rep (tab · = .N) 1 (some dmax) <|>
    opt (· = 32) ++ punctuation (other tab) crlf <|>
    spaces (tab · = .S) crlf

/-- The classes the rules take for granted: white space, the apostrophe and the letters of
the contractions. -/
structure Cl100kTable (tab : ℕ → Cls) : Prop where
  white : ∀ c, c = 10 ∨ c = 13 ∨ c = 32 → tab c = .S
  apostrophe : tab 39 = .P
  letter : ∀ c x, c ∈ [0x73, 0x74, 0x72, 0x65, 0x76, 0x6D, 0x6C, 0x64] → folds c x = true →
    tab x = .L

/-- The letters of the contractions, folded. -/
theorem fold_eq_iff {c x : ℕ} (hc : c ∈ [0x73, 0x74, 0x72, 0x65, 0x76, 0x6D, 0x6C, 0x64]) :
    folds c x = true ↔ fold x = c := by
  simp only [List.mem_cons, List.not_mem_nil, or_false] at hc
  unfold fold folds
  simp only [Bool.or_eq_true, Bool.and_eq_true, decide_eq_true_eq]
  split
  · omega
  · split <;> omega

/-- The one-letter contractions. -/
def Single (x : ℕ) : Prop := fold x = 0x73 ∨ fold x = 0x74 ∨ fold x = 0x6D ∨ fold x = 0x64

/-- The two-letter contractions. -/
def Double (x y : ℕ) : Prop :=
  (fold x = 0x72 ∧ fold y = 0x65) ∨ (fold x = 0x76 ∧ fold y = 0x65) ∨
    (fold x = 0x6C ∧ fold y = 0x6C)

instance (x : ℕ) : Decidable (Single x) :=
  inferInstanceAs (Decidable (_ ∨ _))

instance (x y : ℕ) : Decidable (Double x y) :=
  inferInstanceAs (Decidable (_ ∨ _))

theorem Single.not_double {x y : ℕ} (h : Single x) : ¬ Double x y := by
  unfold Single at h
  unfold Double
  omega

section Contraction

variable {text : ℕ → ℕ} {stop i : ℕ}

theorem first_contraction (text : ℕ → ℕ) (stop i : ℕ) :
    first text stop contraction i =
      if i < stop ∧ text i = 39 then
        if i + 1 < stop ∧ Single (text (i + 1)) then some (i + 2)
        else if i + 2 < stop ∧ Double (text (i + 1)) (text (i + 2)) then some (i + 3)
        else none
      else none := by
  have hf : ∀ c, c ∈ [0x73, 0x74, 0x72, 0x65, 0x76, 0x6D, 0x6C, 0x64] → ∀ j,
      first text stop (folded c) j =
        if j < stop ∧ fold (text j) = c then some (j + 1) else none := fun c hc j => by
    rw [folded, first_one_eq]
    simp only [fold_eq_iff hc]
  have hfs : ∀ c, c ∈ [0x73, 0x74, 0x72, 0x65, 0x76, 0x6D, 0x6C, 0x64] → ∀ r j,
      first text stop (folded c ++ r) j =
        if j < stop ∧ fold (text j) = c then first text stop r (j + 1) else none :=
    fun c hc r j => by
      rw [folded, first_one_seq_eq]
      simp only [fold_eq_iff hc]
  rw [contraction, first_one_seq_eq]
  simp only [decide_eq_true_eq]
  split
  · simp only [first_alt, hf 0x73 (by decide), hf 0x74 (by decide), hf 0x6D (by decide),
      hf 0x64 (by decide), hfs 0x72 (by decide), hfs 0x76 (by decide), hfs 0x6C (by decide),
      hf 0x65 (by decide), hf 0x6C (by decide), Single, Double]
    by_cases h1 : i + 1 < stop
    · -- the first letter decides which alternative can match
      by_cases hr : fold (text (i + 1)) = 0x72
      · simp [hr, h1]
      by_cases hv : fold (text (i + 1)) = 0x76
      · simp [hv, h1]
      by_cases hl : fold (text (i + 1)) = 0x6C
      · simp [hl, h1]
      by_cases hx : Single (text (i + 1))
      · rcases hx with h | h | h | h <;> simp [h, h1]
      · simp only [Single, not_or] at hx
        simp [hr, hv, hl, hx]
    · have h2 : ¬ i + 2 < stop := by omega
      simp [h1, h2]
  · rfl

end Contraction

/-! ### The marks -/

section Marks

variable {tab : ℕ → Cls} {b : Buffers Cls} {dmax lo hi i j e s rs re : ℕ}

theorem Cl100kTable.white_of_crlf (ht : Cl100kTable tab) {c : ℕ} (h : crlf c = true) :
    tab c = .S := by
  refine ht.white c ?_
  simp only [crlf, Bool.or_eq_true, decide_eq_true_eq] at h
  omega

theorem Cl100kTable.crlf_white (ht : Cl100kTable tab) (c : ℕ) (h : crlf c = true) :
    decide (tab c = .S) = true := decide_eq_true (ht.white_of_crlf h)

/-- The rules mark the character. -/
abbrev Marked (b : Buffers Cls) (dmax j : ℕ) : Prop := rulesCl100k b dmax j = true

variable (ht : Cl100kTable tab) (hb : Filled b id (· = .S) tab) (hs : Segment b lo hi)

include hs

theorem marked_start : rulesCl100k b dmax lo = true := by
  unfold rulesCl100k
  rw [if_pos hs.start]

include hb

theorem marked_P (h1 : lo ≤ j) (h2 : j < hi) (hc : b.cls j = .P) :
    rulesCl100k b dmax j = true ↔ Free b .P lo j := by
  rcases Nat.eq_or_lt_of_le h1 with rfl | h1
  · exact iff_of_true (marked_start hs) (Or.inl rfl)
  · unfold rulesCl100k
    rw [if_neg (hs.not_start h1 h2), hc, Free, or_iff_right (by omega : ¬ j = lo)]
    simp only [decide_eq_true_eq, hs.head_iff hb h1 h2, hc, id_eq]

theorem marked_L_head (h1 : lo < j) (h2 : j < hi) (hc : b.cls j = .L)
    (hp : b.cls (j - 1) ≠ .L) : rulesCl100k b dmax j = true ↔
      ¬ ((b.cls (j - 1) = .S ∧ crlf (b.cp (j - 1)) = false) ∨
        (b.cls (j - 1) = .P ∧ Free b .P lo (j - 1))) := by
  have hh : b.head j = true := (hs.head_iff hb h1 h2).2 (by rw [hc]; exact hp)
  unfold rulesCl100k
  rw [if_neg (hs.not_start h1 h2), hc, hs.dso j h1.le h2]
  simp only [hh, if_true, decide_eq_true_eq, Bool.not_eq_true, Free]
  have heq : (j - lo < 2) ↔ j - 1 = lo := by omega
  rw [heq, ← or_and_left, Nat.sub_sub]

theorem marked_L_inner (h1 : lo < j) (h2 : j < hi) (hc : b.cls j = .L)
    (hp : b.cls (j - 1) = .L) : rulesCl100k b dmax j = true ↔
      (lo + 2 ≤ j ∧ b.cp (j - 2) = 39 ∧ Free b .P lo (j - 2) ∧ Single (b.cp (j - 1))) ∨
      (lo + 3 ≤ j ∧ b.cp (j - 3) = 39 ∧ b.cls (j - 2) = .L ∧ Free b .P lo (j - 3) ∧
        Double (b.cp (j - 2)) (b.cp (j - 1))) := by
  have hh : ¬ b.head j = true := fun h => (hs.head_iff hb h1 h2).1 h (by rw [hc, hp])
  unfold rulesCl100k
  rw [if_neg (hs.not_start h1 h2), hc, hs.dso j h1.le h2]
  simp only [hh, if_false, decide_eq_true_eq, Bool.false_eq_true, Free, Single, Double]
  refine or_congr ?_ ?_
  · rw [show j - lo ≥ 2 ↔ lo + 2 ≤ j by omega]
    refine and_congr_right fun h => and_congr_right fun _ => ?_
    rw [show j - lo < 3 ↔ j - 2 = lo by omega, ← and_assoc, ← or_and_left, Nat.sub_sub]
  · rw [show j - lo ≥ 3 ↔ lo + 3 ≤ j by omega]
    refine and_congr_right fun h => and_congr_right fun _ => and_congr_right fun _ => ?_
    rw [show j - lo < 4 ↔ j - 3 = lo by omega, ← and_assoc, ← or_and_left, Nat.sub_sub]

theorem marked_N (hr : RunIn b id lo hi rs re) (h1 : rs ≤ j) (h2 : j < re)
    (hc : b.cls rs = .N) : rulesCl100k b dmax j = true ↔ (j - rs) % dmax = 0 := by
  have hlo := hr.lo_le
  have hhi := hr.le_hi
  have hj : b.cls j = .N := (hr.same j h1 h2).trans hc
  rcases Nat.eq_or_lt_of_le (hlo.trans h1) with rfl | h3
  · rw [show rs = lo by omega, Nat.sub_self, Nat.zero_mod]
    exact iff_of_true (marked_start hs) rfl
  · unfold rulesCl100k
    rw [if_neg (hs.not_start h3 (by omega)), hj, hb.runStart hr.isRun h1 h2]
    exact decide_eq_true_iff

variable (dmax) in
/-- The marks of a white run. -/
theorem marked_S (hr : RunIn b id lo hi rs re) (hc : b.cls rs = .S) :
    ∃ eff tail, WhiteRun b.cp (tab · = .S) (Marked b dmax) hi (lo < rs ∧ b.cls (rs - 1) = .P)
      rs re eff tail := by
  have hlo := hr.lo_le
  have hhi := hr.le_hi
  have hall : ∀ j, rs ≤ j → j < re → b.cls j = .S := fun j h1 h2 => (hr.same j h1 h2).trans hc
  obtain ⟨eff, tail, h, hmark⟩ := hs.spaceRule_iff hb Cls.P hr
    fun j h1 h2 => decide_eq_true (hall j h1 h2)
  refine ⟨eff, tail, ⟨h, hr.isRun.lt, hhi, fun j h1 h2 => ?_, ?_, fun i h1 h2 => ?_⟩⟩
  · rw [decide_eq_true_iff, ← hb.cls, hall j h1 h2]
  · refine hr.after.imp_right fun h1 h2 => h1 ?_
    rw [id, hb.cls, of_decide_eq_true h2, id, hc]
  · rcases Nat.eq_or_lt_of_le (hlo.trans h1) with rfl | h3
    · have heff : eff = lo := by
        rw [h.eff_eq (by omega)]
        omega
      exact iff_of_true (marked_start hs) (Or.inl heff.symm)
    · rw [← hmark i h1 h2, Marked, rulesCl100k, if_neg (hs.not_start h3 (by omega)), hall i h1 h2]

theorem marked_head_N (h1 : lo ≤ e) (h2 : e < hi) (hc : b.cls e = .N)
    (hp : e = lo ∨ b.cls (e - 1) ≠ .N) : rulesCl100k b dmax e = true := by
  obtain ⟨rs, re, hr, h3, h4⟩ := hs.exists_run hb h1 h2
  obtain rfl := hr.start_eq h3 h4 (by rwa [hc])
  rw [marked_N hb hs hr h3 h4 hc, Nat.sub_self, Nat.zero_mod]

/-- White space after anything but punctuation starts a piece. -/
theorem marked_head_S (h1 : lo ≤ e) (h2 : e < hi) (hc : b.cls e = .S)
    (hp : e = lo ∨ (b.cls (e - 1) ≠ .S ∧ b.cls (e - 1) ≠ .P)) : rulesCl100k b dmax e = true := by
  obtain ⟨rs, re, hr, h3, h4⟩ := hs.exists_run hb h1 h2
  obtain rfl := hr.start_eq h3 h4 (hp.imp_right fun h => by rw [hc]; exact h.1)
  obtain ⟨eff, tail, h⟩ := marked_S dmax hb hs hr hc
  refine (h.mark_iff rs h3 h4).2 (Or.inl (h.eff_eq fun habs => ?_).symm)
  rcases hp with hp | hp
  · omega
  · exact hp.2 habs.2

include ht

omit hs in
theorem cp_ne_32 (h : b.cls j ≠ .S) : b.cp j ≠ 32 := fun h' =>
  h (by rw [hb.cls, h', ht.white 32 (by omega)])

omit hs in
theorem cls_of_39 (h : b.cp j = 39) : b.cls j = .P := by rw [hb.cls, h, ht.apostrophe]

/-- After letters or digits, a character of another class starts a piece. -/
theorem marked_after (h1 : lo < e) (h2 : e < hi) (hc : b.cls (e - 1) = .L ∨ b.cls (e - 1) = .N)
    (hne : b.cls (e - 1) ≠ b.cls e) : rulesCl100k b dmax e = true := by
  have hS : b.cls (e - 1) ≠ .S := by rcases hc with h | h <;> simp [h]
  have hP : b.cls (e - 1) ≠ .P := by rcases hc with h | h <;> simp [h]
  cases he : b.cls e with
  | P =>
      rw [marked_P hb hs h1.le h2 he]
      exact Or.inr ⟨hP, cp_ne_32 ht hb hS⟩
  | L =>
      rw [marked_L_head hb hs h1 h2 he (he ▸ hne)]
      rintro (h | h)
      · exact hS h.1
      · exact hP h.1
  | N => exact marked_head_N hb hs h1.le h2 he (Or.inr (he ▸ hne))
  | S => exact marked_head_S hb hs h1.le h2 he (Or.inr ⟨hS, hP⟩)

/-- After a newline that ends its run, the next character starts a piece. -/
theorem marked_after_newline (h1 : lo < e) (h2 : e < hi) (hn : crlf (b.cp (e - 1)) = true)
    (he : b.cls e ≠ .S) : rulesCl100k b dmax e = true := by
  have hS : b.cls (e - 1) = .S := by rw [hb.cls, ht.white_of_crlf hn]
  cases hc : b.cls e with
  | P =>
      rw [marked_P hb hs h1.le h2 hc]
      refine Or.inr ⟨by simp [hS], fun h => ?_⟩
      rw [h] at hn
      exact absurd hn (by decide)
  | L =>
      rw [marked_L_head hb hs h1 h2 hc (by simp [hS])]
      rintro (h | h)
      · rw [hn] at h
        exact Bool.noConfusion h.2
      · rw [hS] at h
        exact absurd h.1 (by decide)
  | N => exact marked_head_N hb hs h1.le h2 hc (Or.inr (by simp [hS]))
  | S => exact absurd hc he

/-- A mark inside the letters from `s` on is the rest of a contraction that began before `s`. -/
theorem word_inner (h1 : lo ≤ s) (hsj : s < j) (h2 : j < hi)
    (hL : ∀ k, s ≤ k → k ≤ j → b.cls k = .L) (hm : rulesCl100k b dmax j = true) :
    (lo < s ∧ b.cp (s - 1) = 39 ∧ Free b .P lo (s - 1) ∧
      ((j = s + 1 ∧ Single (b.cp s)) ∨ (j = s + 2 ∧ Double (b.cp s) (b.cp (s + 1))))) ∨
    (lo + 2 ≤ s ∧ b.cls (s - 1) = .L ∧ b.cp (s - 2) = 39 ∧ Double (b.cp (s - 1)) (b.cp s)) := by
  have hno : ∀ k, s ≤ k → k ≤ j → b.cp k ≠ 39 := fun k h3 h4 h5 => by
    have := cls_of_39 ht hb h5
    rw [hL k h3 h4] at this
    exact absurd this (by decide)
  rw [marked_L_inner hb hs (by omega) h2 (hL j hsj.le le_rfl) (hL (j - 1) (by omega) (by omega))]
    at hm
  rcases hm with ⟨h3, h4, h5, h6⟩ | ⟨h3, h4, h5, h6, h7⟩
  · have hj : j = s + 1 := by
      by_contra hne
      exact hno (j - 2) (by omega) (by omega) h4
    subst hj
    rw [show s + 1 - 2 = s - 1 by omega] at h4 h5
    exact Or.inl ⟨by omega, h4, h5, Or.inl ⟨rfl, h6⟩⟩
  · have hj : j = s + 1 ∨ j = s + 2 := by
      by_contra hne
      exact hno (j - 3) (by omega) (by omega) h4
    rcases hj with rfl | rfl
    · rw [show s + 1 - 3 = s - 2 by omega] at h4
      rw [show s + 1 - 2 = s - 1 by omega] at h5 h7
      exact Or.inr ⟨by omega, h5, h4, h7⟩
    · rw [show s + 2 - 3 = s - 1 by omega] at h4 h6
      exact Or.inl ⟨by omega, h4, h6, Or.inr ⟨rfl, h7⟩⟩

/-! ### One match -/

omit hs ht in
theorem not_39 (ht : Cl100kTable tab) (h : b.cls i ≠ .P) : ¬ (i < hi ∧ b.cp i = 39) :=
  fun h' => h (cls_of_39 ht hb h'.2)

omit hs in
theorem first_contraction_none (h : b.cls i ≠ .P) : first b.cp hi contraction i = none := by
  rw [first_contraction, if_neg (not_39 hb ht h)]

omit ht in
/-- The letters from `s` on, up to the end of their run. -/
theorem exists_letters (h1 : lo ≤ s) (h2 : s < hi) (hc : b.cls s = .L) :
    ∃ e, s < e ∧ e ≤ hi ∧ (∀ k, s ≤ k → k < e → b.cls k = .L) ∧ (e = hi ∨ b.cls e ≠ .L) := by
  obtain ⟨rs, re, hr, h3, h4⟩ := hs.exists_run hb h1 h2
  have hL : b.cls rs = .L := (hr.same s h3 h4).symm.trans hc
  refine ⟨re, h4, hr.le_hi, fun k h5 h6 => (hr.same k (by omega) h6).trans hL, ?_⟩
  exact hr.after.imp_right fun h h' => h (h'.trans hL.symm)

omit hs ht in
theorem isL_iff (j : ℕ) : decide (tab (b.cp j) = .L) = true ↔ b.cls j = .L := by
  rw [decide_eq_true_iff, hb.cls]

/-- A letter match from a marked letter. -/
theorem step_L (h1 : lo ≤ i) (h2 : i < hi) (hc : b.cls i = .L)
    (hm : rulesCl100k b dmax i = true) :
    ∃ e, first b.cp hi (cl100kPattern tab dmax) i = some e ∧ Ends (Marked b dmax) hi i e := by
  obtain ⟨e, hie, he, hall, hend⟩ := exists_letters hb hs h1 h2 hc
  refine ⟨e, ?_, hie, he, fun j h3 h4 hj => ?_, fun hehi => ?_⟩
  · rw [cl100kPattern, first_alt_right (first_contraction_none ht hb (by simp [hc]))]
    refine first_alt_left (first_word hie he (fun j h3 h4 => ?_) ?_)
    · exact (isL_iff hb j).2 (hall j h3 h4)
    · exact hend.imp_right fun h => mt (isL_iff hb e).1 h
  · -- a mark inside would be the rest of a contraction that has taken the letter at `i`
    rcases word_inner ht hb hs h1 h3 (by omega) (fun k h5 h6 => hall k h5 (by omega)) hj with
      ⟨h5, h6, h7, _⟩ | ⟨h5, h6, h7, h8⟩
    · have hP := cls_of_39 ht hb h6
      rw [marked_L_head hb hs h5 h2 hc (by rw [hP]; decide)] at hm
      exact hm (Or.inr ⟨hP, h7⟩)
    · rw [marked_L_inner hb hs (by omega) h2 hc h6] at hm
      rcases hm with ⟨_, _, _, h9⟩ | ⟨_, _, h9, _⟩
      · exact h9.not_double h8
      · rw [cls_of_39 ht hb h7] at h9
        exact absurd h9 (by decide)
  · have hL := hall (e - 1) (by omega) (by omega)
    refine marked_after ht hb hs (by omega) hehi (Or.inl hL) ?_
    rw [hL]
    exact (hend.resolve_left (by omega)).symm

/-- A digit group from a marked digit. -/
theorem step_N (hd : 1 ≤ dmax) (h1 : lo ≤ i) (h2 : i < hi) (hc : b.cls i = .N)
    (hm : rulesCl100k b dmax i = true) :
    ∃ e, first b.cp hi (cl100kPattern tab dmax) i = some e ∧ Ends (Marked b dmax) hi i e := by
  obtain ⟨rs, re, hr, h3, h4⟩ := hs.exists_run hb h1 h2
  have hlo := hr.lo_le
  have hhi := hr.le_hi
  have hN : b.cls rs = .N := (hr.same i h3 h4).symm.trans hc
  have hall : ∀ j, rs ≤ j → j < re → b.cls j = .N := fun j h5 h6 => (hr.same j h5 h6).trans hN
  have hafter : re = hi ∨ b.cls re ≠ .N := hr.after.imp_right fun h h' => h (h'.trans hN.symm)
  rw [marked_N hb hs hr h3 h4 hN] at hm
  have hcp : tab (b.cp i) = .N := by rw [← hb.cls, hc]
  refine ⟨min (i + dmax) re, ?_, by omega, by omega, fun j h5 h6 hj => ?_, fun hehi => ?_⟩
  · have hq : ∀ j, decide (tab (b.cp j) = .N) = true ↔ b.cls j = .N := fun j => by
      rw [decide_eq_true_iff, hb.cls]
    have hw : ¬ decide (tab (b.cp i) = .L) = true := by simp [hcp]
    rw [cl100kPattern, first_alt_right (first_contraction_none ht hb (by simp [hc])),
      first_alt_right (first_word_none hw fun h => absurd h (by simp [wordPrefix, hcp]))]
    have htakes : Takes b.cp hi (tab · = .N) (some dmax) i (min (i + dmax) re - i) := by
      refine takes_bounded (by omega) (by omega) (by omega)
        (fun j h5 h6 => (hq j).2 (hall j (by omega) (by omega))) ?_
      rcases Nat.le_total (i + dmax) re with h | h
      · exact Or.inl (by omega)
      · rw [Nat.min_eq_right h]
        exact Or.inr (hafter.imp_right fun h => mt (hq re).1 h)
    refine first_alt_left ?_
    rw [first_rep htakes (by omega)]
    exact congrArg some (by omega)
  · rw [Marked, marked_N hb hs hr (by omega) (by omega) hN, show j - rs = (i - rs) + (j - i) by omega,
      Nat.add_mod, hm, Nat.zero_add, Nat.mod_mod, Nat.mod_eq_of_lt (by omega)] at hj
    omega
  · rcases Nat.lt_or_ge (i + dmax) re with h | h
    · rw [Nat.min_eq_left h.le, Marked, marked_N hb hs hr (by omega) h hN,
        show i + dmax - rs = (i - rs) + dmax by omega, Nat.add_mod_right]
      exact hm
    · rw [Nat.min_eq_right h] at hehi ⊢
      have hl := hall (re - 1) (by omega) (by omega)
      refine marked_after ht hb hs (by omega) hehi (Or.inr hl) ?_
      rw [hl]
      exact (hafter.resolve_left (by omega)).symm

omit hb hs in
theorem letter_of_single {x : ℕ} (h : Single x) : tab x = .L := by
  rcases h with h | h | h | h
  · exact ht.letter 0x73 x (by decide) ((fold_eq_iff (by decide)).2 h)
  · exact ht.letter 0x74 x (by decide) ((fold_eq_iff (by decide)).2 h)
  · exact ht.letter 0x6D x (by decide) ((fold_eq_iff (by decide)).2 h)
  · exact ht.letter 0x64 x (by decide) ((fold_eq_iff (by decide)).2 h)

omit hb hs in
theorem letter_of_double {x y : ℕ} (h : Double x y) : tab x = .L ∧ tab y = .L := by
  have hc : ∀ c, c ∈ [0x73, 0x74, 0x72, 0x65, 0x76, 0x6D, 0x6C, 0x64] → ∀ z, fold z = c →
      tab z = .L := fun c hc z hz => ht.letter c z hc ((fold_eq_iff hc).2 hz)
  rcases h with ⟨h1, h2⟩ | ⟨h1, h2⟩ | ⟨h1, h2⟩
  · exact ⟨hc _ (by decide) x h1, hc _ (by decide) y h2⟩
  · exact ⟨hc _ (by decide) x h1, hc _ (by decide) y h2⟩
  · exact ⟨hc _ (by decide) x h1, hc _ (by decide) y h2⟩

omit ht in
/-- The letter after a marked punctuation character belongs to its piece. -/
theorem not_marked_after_P (h1 : lo ≤ i) (h2 : i + 1 < hi) (hc : b.cls i = .P)
    (hm : rulesCl100k b dmax i = true) (hL : b.cls (i + 1) = .L) :
    ¬ rulesCl100k b dmax (i + 1) = true := by
  have hf := (marked_P hb hs h1 (by omega) hc).1 hm
  rw [marked_L_head hb hs (by omega) h2 hL (by simp [hc])]
  exact not_not_intro (Or.inr ⟨hc, hf⟩)

/-- After the letters of a contraction a piece starts. -/
theorem ends_contraction (h1 : lo ≤ i) (hc : b.cls i = .P) (hm : rulesCl100k b dmax i = true)
    (h39 : b.cp i = 39) (he : e ≤ hi)
    (h : (e = i + 2 ∧ Single (b.cp (i + 1))) ∨
      (e = i + 3 ∧ Double (b.cp (i + 1)) (b.cp (i + 2)))) : Ends (Marked b dmax) hi i e := by
  have hf := (marked_P hb hs h1 (by omega) hc).1 hm
  have hL : ∀ k, i < k → k < e → b.cls k = .L := fun k h3 h4 => by
    rw [hb.cls]
    rcases h with ⟨he, h⟩ | ⟨he, h⟩
    · rw [show k = i + 1 by omega]
      exact letter_of_single ht h
    · rcases (by omega : k = i + 1 ∨ k = i + 2) with rfl | rfl
      · exact (letter_of_double ht h).1
      · exact (letter_of_double ht h).2
  refine ⟨by omega, he, fun j h3 h4 hj => ?_, fun hehi => ?_⟩
  · rcases Nat.eq_or_lt_of_le (Nat.succ_le_of_lt h3) with rfl | h3
    · exact not_marked_after_P hb hs h1 (by omega) hc hm (hL _ h3 h4) hj
    · obtain ⟨he, h⟩ : e = i + 3 ∧ Double (b.cp (i + 1)) (b.cp (i + 2)) :=
        h.resolve_left (by omega)
      obtain rfl : j = i + 2 := by omega
      rw [Marked, marked_L_inner hb hs (by omega) (by omega) (hL _ (by omega) h4)
        (hL (i + 1) (by omega) (by omega))] at hj
      rcases hj with ⟨_, _, _, h5⟩ | ⟨_, _, h5, _⟩
      · exact h5.not_double h
      · rw [show i + 2 - 2 = i by omega, hc] at h5
        exact absurd h5 (by decide)
  · have hl := hL (e - 1) (by omega) (by omega)
    by_cases hce : b.cls e = .L
    · rw [Marked, marked_L_inner hb hs (by omega) hehi hce hl]
      rcases h with ⟨rfl, h⟩ | ⟨rfl, h⟩
      · exact Or.inl ⟨by omega, h39, hf, h⟩
      · exact Or.inr ⟨by omega, h39, hL (i + 1) (by omega) (by omega), hf, h⟩
    · exact marked_after ht hb hs (by omega) hehi (Or.inl hl) (by rw [hl]; exact Ne.symm hce)

/-- A word behind a prefix character, when its first letter is not marked and no contraction
ends in it. -/
theorem first_prefixed_word (h1 : lo ≤ i) (h2 : i + 1 < hi) (hcr : crlf (b.cp i) = false)
    (hc : tab (b.cp i) ≠ .L ∧ tab (b.cp i) ≠ .N) (hL : b.cls (i + 1) = .L)
    (hm : ¬ rulesCl100k b dmax (i + 1) = true)
    (hno : b.cp i = 39 → ¬ (Single (b.cp (i + 1)) ∨
      (i + 2 < hi ∧ Double (b.cp (i + 1)) (b.cp (i + 2))))) :
    ∃ e, first b.cp hi (word (wordPrefix tab) (tab · = .L)) i = some e ∧ Ends (Marked b dmax) hi i e := by
  obtain ⟨e, hie, he, hall, hend⟩ := exists_letters hb hs (by omega) h2 hL
  refine ⟨e, first_word_prefix (by simp [wordPrefix, hcr, hc]) hie he (fun j h3 h4 => ?_) ?_, by omega, he,
    fun j h3 h4 hj => ?_, fun hehi => ?_⟩
  · exact (isL_iff hb j).2 (hall j h3 h4)
  · exact hend.imp_right fun h => mt (isL_iff hb e).1 h
  · rcases Nat.eq_or_lt_of_le (Nat.succ_le_of_lt h3) with rfl | h3
    · exact hm hj
    · rcases word_inner ht hb hs (by omega) h3 (by omega)
        (fun k h5 h6 => hall k h5 (by omega)) hj with ⟨_, h6, _, h7⟩ | ⟨_, h6, _⟩
      · rcases h7 with ⟨_, h7⟩ | ⟨_, h7⟩
        · exact hno h6 (Or.inl h7)
        · exact hno h6 (Or.inr ⟨by omega, h7⟩)
      · rw [show i.succ - 1 = i by omega, hb.cls] at h6
        exact hc.1 h6
  · have hl := hall (e - 1) (by omega) (by omega)
    refine marked_after ht hb hs (by omega) hehi (Or.inl hl) ?_
    rw [hl]
    exact (hend.resolve_left (by omega)).symm

omit hs ht in
theorem isP_iff (j : ℕ) : other tab (b.cp j) = true ↔ b.cls j = .P := by
  rw [hb.cls, other]
  cases tab (b.cp j) <;> decide

/-- Punctuation from `s` on with the newlines after it, which `i` starts or is the space before. -/
theorem first_punctuation_ends (h1 : lo ≤ s) (h2 : s < hi) (hc : b.cls s = .P)
    (hi' : i = s ∨ (i + 1 = s ∧ ¬ Marked b dmax s))
    (hL : ∀ p, s < p → p < hi → (∀ k, s ≤ k → k < p → b.cls k = .P) → b.cls p = .L →
      ¬ Free b .P lo (p - 1)) :
    ∃ f, first b.cp hi (punctuation (other tab) crlf) s = some f ∧ Ends (Marked b dmax) hi i f := by
  refine punctuation_step ht.crlf_white h2 ((isP_iff hb s).2 hc) hi' (fun j h3 h4 h5 h6 hm => ?_) (fun p h3 h4 h5 h6 => ?_)
    (fun p h3 h4 h5 h6 h7 => ?_) fun e h3 h4 h5 h6 => ?_
  · rcases (marked_P hb hs (by omega) h4 ((isP_iff hb j).1 h6)).1 hm with h7 | h7
    · omega
    · exact h7.1 ((isP_iff hb _).1 h5)
  · have hP := (isP_iff hb _).1 h5
    have hS : b.cls p = .S := by rw [hb.cls, of_decide_eq_true h6]
    obtain ⟨rs, re, hr, h7, h8⟩ := hs.exists_run hb (show lo ≤ p by omega) h4
    obtain rfl := hr.start_eq h7 h8 (Or.inr (by rw [hP, hS]; decide))
    obtain ⟨eff, tail, h⟩ := marked_S dmax hb hs hr hS
    exact ⟨_, re, eff, tail, h, by omega, hP⟩
  · have hP := (isP_iff hb _).1 (h5 (p - 1) (by omega) (by omega))
    cases hcp : b.cls p with
    | P => exact absurd ((isP_iff hb p).2 hcp) h6
    | L =>
        rw [Marked, marked_L_head hb hs (by omega) h4 hcp (by rw [hP]; decide), hP]
        rintro (h | h)
        · exact absurd h.1 (by decide)
        · exact hL p h3 h4 (fun k h8 h9 => (isP_iff hb k).1 (h5 k h8 h9)) hcp h.2
    | N => exact marked_head_N hb hs (by omega) h4 hcp (Or.inr (by rw [hP]; decide))
    | S => exact absurd (decide_eq_true (by rw [← hb.cls, hcp])) h7
  · refine marked_after_newline ht hb hs (by omega) h4 h5 fun h => h6 ?_
    rw [decide_eq_true_iff, ← hb.cls, h]

/-- A match from a marked punctuation character: a contraction, a word with a prefix, or
the punctuation itself. -/
theorem step_P (h1 : lo ≤ i) (h2 : i < hi) (hc : b.cls i = .P)
    (hm : rulesCl100k b dmax i = true) :
    ∃ e, first b.cp hi (cl100kPattern tab dmax) i = some e ∧ Ends (Marked b dmax) hi i e := by
  have hcp : tab (b.cp i) = .P := by rw [← hb.cls, hc]
  by_cases hs1 : b.cp i = 39 ∧ i + 1 < hi ∧ Single (b.cp (i + 1))
  · refine ⟨i + 2, first_alt_left ?_, ends_contraction ht hb hs h1 hc hm hs1.1 (by omega)
      (Or.inl ⟨rfl, hs1.2.2⟩)⟩
    rw [first_contraction, if_pos ⟨h2, hs1.1⟩, if_pos hs1.2]
  by_cases hs2 : b.cp i = 39 ∧ i + 2 < hi ∧ Double (b.cp (i + 1)) (b.cp (i + 2))
  · refine ⟨i + 3, first_alt_left ?_, ends_contraction ht hb hs h1 hc hm hs2.1 (by omega)
      (Or.inr ⟨rfl, hs2.2.2⟩)⟩
    rw [first_contraction, if_pos ⟨h2, hs2.1⟩, if_neg fun h => hs1 ⟨hs2.1, h⟩, if_pos hs2.2]
  have hno : first b.cp hi contraction i = none := by
    rw [first_contraction]
    split
    · rename_i h
      rw [if_neg fun h' => hs1 ⟨h.2, h'⟩, if_neg fun h' => hs2 ⟨h.2, h'⟩]
    · rfl
  rw [cl100kPattern, first_alt_right hno]
  have hcr : crlf (b.cp i) = false := by
    by_contra h
    rw [ht.white_of_crlf (by simpa using h)] at hcp
    exact absurd hcp (by decide)
  by_cases hL : i + 1 < hi ∧ b.cls (i + 1) = .L
  · obtain ⟨e, he, hends⟩ := first_prefixed_word ht hb hs h1 hL.1 hcr (by simp [hcp]) hL.2
      (not_marked_after_P hb hs h1 hL.1 hc hm hL.2)
      fun h39 h => h.elim (fun h => hs1 ⟨h39, hL.1, h⟩) fun h => hs2 ⟨h39, h⟩
    exact ⟨e, first_alt_left he, hends⟩
  · obtain ⟨f, hf, hends⟩ := first_punctuation_ends (i := i) ht hb hs h1 h2 hc (Or.inl rfl)
      fun p h3 h4 h5 h6 hfree => by
        rcases Nat.eq_or_lt_of_le (Nat.succ_le_of_lt h3) with rfl | h3
        · exact hL ⟨h4, h6⟩
        · rcases hfree with h | h
          · omega
          · exact h.1 (h5 (p - 1 - 1) (by omega) (by omega))
    refine ⟨f, ?_, hends⟩
    have hw : ¬ decide (tab (b.cp i) = .L) = true := by simp [hcp]
    have hn : ¬ decide (tab (b.cp i) = .N) = true := by simp [hcp]
    have hopt : first b.cp hi (opt (· = 32) ++ punctuation (other tab) crlf) i = some f := by
      refine (first_opt_seq_skip fun _ h => ?_).trans hf
      exact absurd (of_decide_eq_true h) (cp_ne_32 ht hb (by rw [hc]; decide))
    rw [first_alt_right (first_word_none hw fun _ => ?_),
      first_alt_right (first_rep_none (takes_zero (Or.inr hn)) Nat.zero_lt_one)]
    · exact first_alt_left hopt
    · by_cases h : i + 1 < hi
      · exact Or.inr fun h' => hL ⟨h, (isL_iff hb _).1 h'⟩
      · exact Or.inl (by omega)

omit hs in
/-- White space that prefixes neither a word nor punctuation is left to the last alternatives. -/
theorem first_of_space (hc : b.cls i = .S)
    (hL : crlf (b.cp i) = false → i + 1 < hi → b.cls (i + 1) ≠ .L)
    (hP : b.cp i = 32 → i + 1 < hi → b.cls (i + 1) ≠ .P) :
    first b.cp hi (cl100kPattern tab dmax) i = first b.cp hi (spaces (tab · = .S) crlf) i := by
  have hcp : tab (b.cp i) = .S := by rw [← hb.cls, hc]
  have hw : ¬ decide (tab (b.cp i) = .L) = true := by simp [hcp]
  have hn : ¬ decide (tab (b.cp i) = .N) = true := by simp [hcp]
  have hp := mt (isP_iff hb i).1 (by rw [hc]; decide)
  have hout : ∀ j, (j < hi → ¬ b.cls j = .P) → hi ≤ j ∨ ¬ other tab (b.cp j) = true := fun j h => by
    rcases Nat.lt_or_ge j hi with h' | h'
    · exact Or.inr (mt (isP_iff hb j).1 (h h'))
    · exact Or.inl h'
  have hopt : first b.cp hi (opt (· = 32) ++ punctuation (other tab) crlf) i = none := by
    refine (first_opt_seq_skip fun _ h => ?_).trans (first_punctuation_none (Or.inr hp))
    exact first_punctuation_none (hout (i + 1) (hP (of_decide_eq_true h)))
  rw [cl100kPattern, first_alt_right (first_contraction_none ht hb (by simp [hc])),
    first_alt_right (first_word_none hw fun h => ?_),
    first_alt_right (first_rep_none (takes_zero (Or.inr hn)) Nat.zero_lt_one),
    first_alt_right hopt]
  · rcases Nat.lt_or_ge (i + 1) hi with h' | h'
    · refine Or.inr (mt (isL_iff hb _).1 (hL ?_ h'))
      simp only [wordPrefix, Bool.and_eq_true, Bool.not_eq_true'] at h
      exact h.1.1
    · exact Or.inl h'

/-- A match from the last character of a white run that is not a newline, before another
character. -/
theorem step_S_last {eff tail : ℕ}
    (h : WhiteRun b.cp (tab · = .S) (Marked b dmax) hi (lo < rs ∧ b.cls (rs - 1) = .P)
      rs re eff tail)
    (hlo : lo ≤ rs) (h1 : rs ≤ i) (htail : tail ≤ i) (h2 : i + 1 = re) (hlt : re < hi) :
    ∃ e, first b.cp hi (cl100kPattern tab dmax) i = some e ∧ Ends (Marked b dmax) hi i e := by
  have hcp : tab (b.cp i) = .S := of_decide_eq_true (h.all i h1 (by omega))
  have hi' : b.cls i = .S := by rw [hb.cls, hcp]
  have hwhite := h.whiteFrom ht.crlf_white h1 (by omega)
  subst h2
  have hne : b.cls (i + 1) ≠ .S := fun h' => h.after.resolve_left (by omega) (by
    rw [decide_eq_true_iff, ← hb.cls, h'])
  have hcr := h.rest i htail (Nat.lt_succ_self i)
  by_cases hL : b.cls (i + 1) = .L
  · have hm : ¬ Marked b dmax (i + 1) := by
      rw [Marked, marked_L_head hb hs (by omega) hlt hL (by simp [hi'])]
      exact not_not_intro (Or.inl ⟨hi', hcr⟩)
    obtain ⟨e, he, hends⟩ := first_prefixed_word ht hb hs (by omega) hlt hcr (by simp [hcp]) hL hm
      fun h39 => by
        have := cls_of_39 ht hb h39
        rw [hi'] at this
        exact absurd this (by decide)
    refine ⟨e, ?_, hends⟩
    rw [cl100kPattern, first_alt_right (first_contraction_none ht hb (by simp [hi']))]
    exact first_alt_left he
  by_cases hP : b.cp i = 32 ∧ b.cls (i + 1) = .P
  · have hfree : ¬ Free b .P lo (i + 1) := fun h => by
      rcases h with h | h
      · omega
      · exact h.2 hP.1
    obtain ⟨f, hf, hends⟩ := first_punctuation_ends ht hb hs (by omega) hlt hP.2
      (Or.inr ⟨rfl, mt (marked_P hb hs (by omega) hlt hP.2).1 hfree⟩) fun p h3 h4 h5 _ h7 => by
        rcases Nat.eq_or_lt_of_le (Nat.succ_le_of_lt h3) with rfl | h3
        · exact hfree h7
        · rcases h7 with h7 | h7
          · omega
          · exact h7.1 (h5 (p - 1 - 1) (by omega) (by omega))
    refine ⟨f, ?_, hends⟩
    have hw : ¬ decide (tab (b.cp i) = .L) = true := by simp [hcp]
    have hn : ¬ decide (tab (b.cp i) = .N) = true := by simp [hcp]
    rw [cl100kPattern, first_alt_right (first_contraction_none ht hb (by simp [hi'])),
      first_alt_right (first_word_none hw fun _ => Or.inr (mt (isL_iff hb _).1 hL)),
      first_alt_right (first_rep_none (takes_zero (Or.inr hn)) Nat.zero_lt_one)]
    exact first_alt_left (first_opt_seq (by omega) (decide_eq_true hP.1) hf)
  · refine ⟨i + 1, ?_, by omega, hlt.le, fun j h3 h4 => by omega, fun _ => ?_⟩
    · rw [first_of_space ht hb hi' (fun _ _ => hL) fun h _ h' => hP ⟨h, h'⟩]
      exact first_spaces_one hwhite htail hlt rfl
    · cases hce : b.cls (i + 1) with
      | P =>
          rw [Marked, marked_P hb hs (by omega) hlt hce]
          exact Or.inr ⟨by simp [hi'], fun h => hP ⟨h, hce⟩⟩
      | L => exact absurd hce hL
      | N => exact marked_head_N hb hs (by omega) hlt hce (Or.inr (by simp [hi']))
      | S => exact absurd hce hne

/-- A match from marked white space. -/
theorem step_S (h1 : lo ≤ i) (h2 : i < hi) (hc : b.cls i = .S)
    (hm : rulesCl100k b dmax i = true) :
    ∃ e, first b.cp hi (cl100kPattern tab dmax) i = some e ∧ Ends (Marked b dmax) hi i e := by
  obtain ⟨rs, re, hr, h3, h4⟩ := hs.exists_run hb h1 h2
  have hlo := hr.lo_le
  obtain ⟨eff, tail, h⟩ :=
    marked_S dmax hb hs hr ((hr.same i h3 h4).symm.trans hc)
  have hall : ∀ j, rs ≤ j → j < re → b.cls j = .S := fun j h5 h6 => by
    rw [hb.cls, of_decide_eq_true (h.all j h5 h6)]
  refine h.step ht.crlf_white (fun k h5 h6 hlast => ?_)
    (fun k h5 h6 h7 h8 => step_S_last ht hb hs h hlo h5 h6 h7 h8) (fun h5 h6 => ?_) h3 h4 hm
  · -- a newline that the last alternatives leave prefixes nothing
    refine first_of_space ht hb (hall k h5 h6) (fun hcr h7 => ?_) fun hsp h7 => ?_
    · rw [hall (k + 1) (by omega) (by
        by_contra hge
        rw [hlast (by omega) (by omega)] at hcr
        exact Bool.noConfusion hcr)]
      decide
    · rw [hall (k + 1) (by omega) (by
        by_contra hge
        have := hlast (by omega) (by omega)
        rw [hsp] at this
        exact absurd this (by decide))]
      decide
  · refine marked_after_newline ht hb hs (by omega) h5 h6 fun h' => ?_
    exact h.after.resolve_left (by omega) (by rw [decide_eq_true_iff, ← hb.cls, h'])

/-- The marks of a segment are the starts of its pieces. -/
theorem cl100k_segment (hd : 1 ≤ dmax) (h1 : lo ≤ j) (h2 : j < hi) :
    j ∈ pieces b.cp (cl100kPattern tab dmax) lo hi ↔ rulesCl100k b dmax j = true := by
  refine mem_pieces_iff (Marked b dmax)
    (fun gap i => gap = false ∧ lo ≤ i ∧ (i < hi → rulesCl100k b dmax i = true))
    (fun gap i hi' hinv => ?_) ⟨rfl, le_rfl, fun _ => marked_start hs⟩ h1 h2
  obtain ⟨rfl, hlo, hm⟩ := hinv
  have hstep : ∃ e, first b.cp hi (cl100kPattern tab dmax) i = some e ∧ Ends (Marked b dmax) hi i e := by
    cases hc : b.cls i with
    | P => exact step_P ht hb hs hlo hi' hc (hm hi')
    | L => exact step_L ht hb hs hlo hi' hc (hm hi')
    | N => exact step_N ht hb hs hd hlo hi' hc (hm hi')
    | S => exact step_S ht hb hs hlo hi' hc (hm hi')
  obtain ⟨e, he, hie, hle, hno, hend⟩ := hstep
  exact Or.inl ⟨e, he, hie, hm hi', hno, rfl, by omega, hend⟩

end Marks

/-! ### Whole texts -/

/-- A text without marks is one segment. -/
theorem segment_whole (tab : ℕ → Cls) (cp : ℕ → ℕ) {n : ℕ} (hn : 0 < n) (mem : ℕ → ℕ)
    (order : List ℕ) :
    Segment (cl100kBuffers tab cp n (fun _ => false) (fun _ => 0) mem order) 0 n where
  lt := hn
  le := le_rfl
  start := Or.inl rfl
  inner := fun _ _ _ => rfl
  stop := Or.inl rfl
  dso := fun _ _ _ => rfl

/-- The marked characters of a text are the starts of its pieces, for every table that
classifies white space, the apostrophe and the letters of the contractions as such. -/
theorem cl100k_starts {tab : ℕ → Cls} {dmax : ℕ} (ht : Cl100kTable tab) (hd : 1 ≤ dmax)
    (text : List ℕ) (hn : text.length ≤ fncInit) (mem : ℕ → ℕ) (order : List ℕ)
    (horder : order.Perm (List.range text.length)) (j : ℕ) :
    (j < text.length ∧ pretokStarts tab dmax (text.getD · 0) text.length mem order j = true) ↔
      j ∈ pieces (text.getD · 0) (cl100kPattern tab dmax) 0 text.length := by
  by_cases hj : j < text.length
  · have hb : Filled (cl100kBuffers tab (text.getD · 0) text.length (fun _ => false) (fun _ => 0)
        mem order) id (· = .S) tab := buffers_filled hn horder
    have hs := segment_whole tab (text.getD · 0) (show 0 < text.length by omega) mem order
    rw [and_iff_right hj]
    exact (cl100k_segment ht hb hs hd (Nat.zero_le j) hj).symm
  · exact iff_of_false (fun h => hj h.1) fun h => hj (lt_of_mem_piecesFrom h)

/-- The classes of ASCII, and U+017F as a letter. -/
def asciiCls (c : ℕ) : Cls :=
  if c ∈ [9, 10, 11, 12, 13, 32] then .S
  else if 48 ≤ c ∧ c ≤ 57 then .N
  else if (65 ≤ c ∧ c ≤ 90) ∨ (97 ≤ c ∧ c ≤ 122) ∨ c = 0x17F then .L
  else .P

theorem asciiCls_table : Cl100kTable asciiCls where
  white := by
    rintro c (rfl | rfl | rfl) <;> rfl
  apostrophe := rfl
  letter := fun c x hc hx => by
    simp only [List.mem_cons, List.not_mem_nil, or_false] at hc
    simp only [folds, Bool.or_eq_true, Bool.and_eq_true, decide_eq_true_eq] at hx
    have hwhite : x ∉ [9, 10, 11, 12, 13, 32] := by
      simp only [List.mem_cons, List.not_mem_nil, or_false]
      omega
    rw [asciiCls, if_neg hwhite, if_neg (by omega), if_pos (by omega)]

/-- The contraction of `it's a` starts a piece. -/
theorem cl100k_starts_its :
    (2 < 6 ∧ pretokStarts asciiCls 3 ([105, 116, 39, 115, 32, 97].getD · 0) 6 (fun _ => 0)
      (List.range 6) 2 = true) ↔ 2 ∈ [0, 2, 4] := by
  have h := cl100k_starts asciiCls_table (by decide : 1 ≤ 3) [105, 116, 39, 115, 32, 97]
    (by decide) (fun _ => 0) (List.range 6) (List.Perm.refl _) 2
  rwa [show pieces ([105, 116, 39, 115, 32, 97].getD · 0) (cl100kPattern asciiCls 3) 0
    [105, 116, 39, 115, 32, 97].length = [0, 2, 4] by decide] at h

/-- With an arbitrary table the two differ: where every other character is punctuation, the
pattern still cuts a contraction, and the marks follow the run. -/
theorem cl100k_starts_any_table : ¬ ∀ (tab : ℕ → Cls) (dmax : ℕ),
    (∀ c, c = 10 ∨ c = 13 ∨ c = 32 → tab c = .S) → 1 ≤ dmax → ∀ (text : List ℕ) (mem : ℕ → ℕ)
      (order : List ℕ), order.Perm (List.range text.length) → ∀ j,
        (j < text.length ∧
            pretokStarts tab dmax (text.getD · 0) text.length mem order j = true) ↔
          j ∈ pieces (text.getD · 0) (cl100kPattern tab dmax) 0 text.length := by
  intro h
  have h2 := (h (fun c => if c = 10 ∨ c = 13 ∨ c = 32 then .S else .P) 1 (fun c hc => if_pos hc)
    le_rfl [39, 115, 39] (fun _ => 0) (List.range 3) (List.Perm.refl _) 2).2 (by decide)
  exact absurd h2.2 (by decide)

end Toktier.Pretok
