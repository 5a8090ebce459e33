import Mathlib.Data.List.Perm.Basic
import Mathlib.Data.List.Range
import Mathlib.Order.MinMax
import Mathlib.Tactic.Common
import Toktier.Pretok.Kernel

/-!
# What the passes before the rules compute

Runs are the stretches between two heads. The prefix sum numbers them, and after
`k_runinfo` each run's entries hold its start, its first character other than CR and
LF and its last CR or LF, in whatever order the threads ran.

## Main results

* `buffers_runStart`, `buffers_runEnd`: the run of a character as the rules look it up.
* `spaceRule_iff`: the rule for white space in terms of the run.
-/
namespace Toktier.Pretok

variable {γ : Type}

/-! ### Numbering the runs -/

section Heads

variable {head : ℕ → Bool} {n rs re i j k : ℕ}

theorem inclusiveSum_mono (f : ℕ → Bool) (h : i ≤ j) : inclusiveSum f i ≤ inclusiveSum f j := by
  induction h with
  | refl => exact le_rfl
  | step _ ih => exact ih.trans (Nat.le_add_right _ _)

theorem inclusiveSum_pos (h0 : head 0 = true) (i : ℕ) : 1 ≤ inclusiveSum head i := by
  have h : inclusiveSum head 0 = 1 := by rw [inclusiveSum, h0]; rfl
  exact h ▸ inclusiveSum_mono head (Nat.zero_le i)

theorem inclusiveSum_succ_head (h : head (i + 1) = true) :
    inclusiveSum head (i + 1) = inclusiveSum head i + 1 := by
  rw [inclusiveSum, h]
  rfl

/-- A head opens a new number. -/
theorem inclusiveSum_lt (hij : i < j) (h : head j = true) :
    inclusiveSum head i < inclusiveSum head j := by
  obtain ⟨j, rfl⟩ : ∃ k, j = k + 1 := ⟨j - 1, by omega⟩
  rw [inclusiveSum_succ_head h]
  exact Nat.lt_succ_of_le (inclusiveSum_mono head (by omega))

/-- Between two heads the number stays. -/
theorem inclusiveSum_eq (hij : i ≤ j) (h : ∀ k, i < k → k ≤ j → head k = false) :
    inclusiveSum head j = inclusiveSum head i := by
  induction hij with
  | refl => rfl
  | @step j hij ih =>
      rw [inclusiveSum, h (j + 1) (Nat.lt_succ_of_le hij) le_rfl,
        ih fun k h1 h2 => h k h1 (Nat.le_succ_of_le h2)]
      rfl

/-- The characters from `rs` up to `re` are one run of a text of `n` characters. -/
structure IsRun (head : ℕ → Bool) (n rs re : ℕ) : Prop where
  lt : rs < re
  le : re ≤ n
  start : head rs = true
  inner : ∀ j, rs < j → j < re → head j = false
  stop : re = n ∨ head re = true

/-- Every character is in a run. -/
theorem exists_isRun (h0 : head 0 = true) (hi : i < n) :
    ∃ rs re, IsRun head n rs re ∧ rs ≤ i ∧ i < re := by
  obtain ⟨rs, hrs, hle, hno⟩ : ∃ rs, head rs = true ∧ rs ≤ i ∧
      ∀ j, rs < j → j ≤ i → head j = false := by
    clear hi
    induction i with
    | zero => exact ⟨0, h0, le_rfl, fun j h1 h2 => by omega⟩
    | succ i ih =>
        cases hh : head (i + 1) with
        | true => exact ⟨i + 1, hh, le_rfl, fun j h1 h2 => by omega⟩
        | false =>
            obtain ⟨rs, hrs, hle, hno⟩ := ih
            refine ⟨rs, hrs, by omega, fun j h1 h2 => ?_⟩
            rcases Nat.eq_or_lt_of_le h2 with rfl | h2
            · exact hh
            · exact hno j h1 (by omega)
  obtain ⟨re, hre, hstop, hno'⟩ : ∃ re, i < re ∧ (re ≤ n ∧ (re = n ∨ head re = true)) ∧
      ∀ j, i < j → j < re → head j = false := by
    obtain ⟨k, rfl⟩ : ∃ k, n = i + 1 + k := ⟨n - (i + 1), by omega⟩
    clear hle hno hi
    induction k generalizing i with
    | zero => exact ⟨i + 1, by omega, ⟨by omega, Or.inl rfl⟩, fun j h1 h2 => by omega⟩
    | succ k ih =>
        cases hh : head (i + 1) with
        | true => exact ⟨i + 1, by omega, ⟨by omega, Or.inr hh⟩, fun j h1 h2 => by omega⟩
        | false =>
            obtain ⟨re, h1, ⟨h2, h3⟩, h4⟩ := ih (i := i + 1)
            refine ⟨re, by omega, ⟨by omega, ?_⟩, fun j h5 h6 => ?_⟩
            · rw [show i + 1 + (k + 1) = i + 1 + 1 + k by omega]
              exact h3
            · rcases Nat.eq_or_lt_of_le (Nat.succ_le_of_lt h5) with rfl | h5
              · exact hh
              · exact h4 j h5 h6
  refine ⟨rs, re, ⟨by omega, hstop.1, hrs, fun j h1 h2 => ?_, hstop.2⟩, hle, hre⟩
  rcases Nat.lt_or_ge i j with h | h
  · exact hno' j h h2
  · exact hno j h1 h

namespace IsRun

variable (hr : IsRun head n rs re)

include hr

/-- All characters of a run have its number. -/
theorem inclusiveSum_eq (h1 : rs ≤ i) (h2 : i < re) : inclusiveSum head i = inclusiveSum head rs :=
  Pretok.inclusiveSum_eq h1 fun k h3 h4 => hr.inner k h3 (by omega)

/-- Only the characters of a run have its number. -/
theorem mem_of_inclusiveSum_eq (hj : j < n) (h : inclusiveSum head j = inclusiveSum head rs) :
    rs ≤ j ∧ j < re := by
  constructor
  · by_contra hlt
    have := inclusiveSum_lt (Nat.lt_of_not_le hlt) hr.start
    omega
  · by_contra hge
    rcases hr.stop with hn | hh
    · omega
    · have h1 := inclusiveSum_lt hr.lt hh
      have h2 := inclusiveSum_mono head (Nat.le_of_not_lt hge)
      omega

end IsRun

end Heads

/-! ### The run tables -/

section Tables

variable {wsf : γ → Bool} {cp : ℕ → ℕ} {cls : ℕ → γ} {head : ℕ → Bool} {rid : ℕ → ℕ}

theorem runInfoThread_runStart (t : RunInfo) (i : ℕ) :
    (runInfoThread wsf cp cls head rid t i).runStart =
      if head i then Function.update t.runStart (rid i - 1) i else t.runStart := by
  unfold runInfoThread
  dsimp only
  split <;> split <;> try split
  all_goals rfl

theorem runInfoThread_fnc (t : RunInfo) (i : ℕ) :
    (runInfoThread wsf cp cls head rid t i).fnc =
      if wsf (cls i) ∧ ¬ crlf (cp i) then
        Function.update t.fnc (rid i - 1) (min (t.fnc (rid i - 1)) i) else t.fnc := by
  unfold runInfoThread
  dsimp only
  cases head i <;> cases wsf (cls i) <;> cases crlf (cp i) <;> rfl

theorem runInfoThread_lc (t : RunInfo) (i : ℕ) :
    (runInfoThread wsf cp cls head rid t i).lc =
      if wsf (cls i) ∧ crlf (cp i) then
        Function.update t.lc (rid i - 1) (max (t.lc (rid i - 1)) i) else t.lc := by
  unfold runInfoThread
  dsimp only
  cases head i <;> cases wsf (cls i) <;> cases crlf (cp i) <;> rfl

/-- Only the head of a run writes its start. -/
theorem kRunInfo_runStart {order : List ℕ} {t : RunInfo} {r v : ℕ}
    (huniq : ∀ i ∈ order, head i = true → rid i - 1 = r → i = v)
    (hv : v ∈ order ∧ head v = true ∧ rid v - 1 = r ∨ t.runStart r = v) :
    (kRunInfo wsf cp cls head rid order t).runStart r = v := by
  induction order generalizing t with
  | nil =>
      rcases hv with h | h
      · exact absurd h.1 List.not_mem_nil
      · exact h
  | cons i order ih =>
      refine ih (fun j hj => huniq j (List.mem_cons_of_mem _ hj)) ?_
      rw [runInfoThread_runStart]
      rcases hv with ⟨hmem, hh, hr⟩ | h
      · rcases List.mem_cons.1 hmem with rfl | hmem
        · right
          rw [if_pos hh, hr, Function.update_self]
        · exact Or.inl ⟨hmem, hh, hr⟩
      · right
        split
        · rename_i hh
          by_cases hr : rid i - 1 = r
          · rw [hr, Function.update_self]
            exact huniq i (List.mem_cons_self) hh hr
          · rw [Function.update_of_ne (Ne.symm hr)]
            exact h
        · exact h

/-- `fnc` is the greatest lower bound of the initial value and the run's characters other
than CR and LF. -/
theorem le_kRunInfo_fnc {order : List ℕ} {t : RunInfo} {r x : ℕ} :
    x ≤ (kRunInfo wsf cp cls head rid order t).fnc r ↔
      x ≤ t.fnc r ∧ ∀ i ∈ order, wsf (cls i) = true → crlf (cp i) = false → rid i - 1 = r →
        x ≤ i := by
  induction order generalizing t with
  | nil => simp [kRunInfo]
  | cons i order ih =>
      change x ≤ (kRunInfo wsf cp cls head rid order _).fnc r ↔ _
      rw [ih, runInfoThread_fnc, List.forall_mem_cons, ← and_assoc]
      refine and_congr_left fun _ => ?_
      by_cases hw : wsf (cls i) = true ∧ ¬ crlf (cp i) = true
      · rw [if_pos hw]
        have hc : crlf (cp i) = false := by simpa using hw.2
        by_cases hr : rid i - 1 = r
        · rw [hr, Function.update_self, le_min_iff]
          simp [hw.1, hc]
        · rw [Function.update_of_ne (Ne.symm hr)]
          simp [hr]
      · rw [if_neg hw]
        refine (and_iff_left fun h1 h2 _ => absurd ⟨h1, ?_⟩ hw).symm
        simp [h2]

/-- `lc` is the least upper bound of the initial value and the run's CR and LF. -/
theorem kRunInfo_lc_le {order : List ℕ} {t : RunInfo} {r : ℕ} {x : ℤ} :
    (kRunInfo wsf cp cls head rid order t).lc r ≤ x ↔
      t.lc r ≤ x ∧ ∀ i ∈ order, wsf (cls i) = true → crlf (cp i) = true → rid i - 1 = r →
        (i : ℤ) ≤ x := by
  induction order generalizing t with
  | nil => simp [kRunInfo]
  | cons i order ih =>
      change (kRunInfo wsf cp cls head rid order _).lc r ≤ x ↔ _
      rw [ih, runInfoThread_lc, List.forall_mem_cons, ← and_assoc]
      refine and_congr_left fun _ => ?_
      by_cases hw : wsf (cls i) = true ∧ crlf (cp i) = true
      · rw [if_pos hw]
        by_cases hr : rid i - 1 = r
        · rw [hr, Function.update_self, max_le_iff]
          simp [hw.1, hw.2]
        · rw [Function.update_of_ne (Ne.symm hr)]
          simp [hr]
      · rw [if_neg hw]
        exact (and_iff_left fun h1 h2 _ => absurd ⟨h1, h2⟩ hw).symm

end Tables

/-! ### The buffers of the rules -/

section Buffers

variable {rc : γ → γ} {wsf : γ → Bool} {tab : ℕ → γ} {cp : ℕ → ℕ} {n : ℕ}
  {dstart : ℕ → Bool} {dso ars mem : ℕ → ℕ} {order : List ℕ}

/-- The buffers are those of a text of `n` characters, its threads run once each. -/
structure Filled (b : Buffers γ) (rc : γ → γ) (wsf : γ → Bool) (tab : ℕ → γ) : Prop where
  small : b.n ≤ fncInit
  cls : ∀ i, b.cls i = tab (b.cp i)
  head : ∀ i, b.head i = true ↔ i = 0 ∨ b.dstart i = true ∨ rc (b.cls (i - 1)) ≠ rc (b.cls i)
  rid : b.rid = inclusiveSum b.head
  R : b.R = b.rid (b.n - 1)
  info : ∃ mem order, order.Perm (List.range b.n) ∧
    b.info = kRunInfo wsf b.cp b.cls b.head b.rid order (.init mem)

theorem buffers_filled [DecidableEq γ] (hn : n ≤ fncInit) (horder : order.Perm (List.range n)) :
    Filled (buffers rc wsf tab cp n dstart dso ars mem order) rc wsf tab where
  small := hn
  cls := fun _ => rfl
  head := fun i => by
    change (if i = 0 ∨ dstart i = true then true else
      decide (rc (tab (cp (i - 1))) ≠ rc (tab (cp i)))) = true ↔ _
    by_cases h : i = 0 ∨ dstart i = true
    · rw [if_pos h]
      exact iff_of_true rfl (h.imp_right Or.inl)
    · rw [if_neg h, decide_eq_true_iff]
      rw [not_or] at h
      exact ⟨fun h' => Or.inr (Or.inr h'), fun h' => (h'.resolve_left h.1).resolve_left h.2⟩
  rid := rfl
  R := rfl
  info := ⟨mem, order, horder, rfl⟩

namespace Filled

variable {b : Buffers γ} {rs re i j : ℕ} (hb : Filled b rc wsf tab)

include hb

theorem head_zero : b.head 0 = true := (hb.head 0).2 (Or.inl rfl)

theorem rid_pos (i : ℕ) : 1 ≤ b.rid i := by
  rw [hb.rid]
  exact inclusiveSum_pos hb.head_zero i

theorem exists_run (hi : i < b.n) : ∃ rs re, IsRun b.head b.n rs re ∧ rs ≤ i ∧ i < re :=
  exists_isRun hb.head_zero hi

/-- Inside a run there is no mark and the class by which runs are cut stays. -/
theorem inner (hr : IsRun b.head b.n rs re) (h1 : rs < j) (h2 : j < re) :
    b.dstart j = false ∧ rc (b.cls (j - 1)) = rc (b.cls j) := by
  have h := hr.inner j h1 h2
  have hn := mt (hb.head j).2 (by rw [h]; exact Bool.false_ne_true)
  rw [not_or, not_or, not_not] at hn
  exact ⟨by simpa using hn.2.1, hn.2.2⟩

theorem rc_eq (hr : IsRun b.head b.n rs re) (h1 : rs ≤ j) (h2 : j < re) :
    rc (b.cls j) = rc (b.cls rs) := by
  induction h1 with
  | refl => rfl
  | @step j hj ih => exact (hb.inner hr (Nat.lt_succ_of_le hj) h2).2.symm.trans (ih (by omega))

/-- The run start at a run's number is its first character. -/
theorem runStart_of_rid {v r : ℕ} (hv : v < b.n) (hh : b.head v = true) (hr : b.rid v - 1 = r) :
    b.info.runStart r = v := by
  obtain ⟨mem, order, horder, hinfo⟩ := hb.info
  rw [hinfo]
  have hmem : v ∈ order := horder.mem_iff.2 (List.mem_range.2 hv)
  refine kRunInfo_runStart (fun i _ hi hri => ?_) (Or.inl ⟨hmem, hh, hr⟩)
  have h1 := hb.rid_pos i
  have h2 := hb.rid_pos v
  have heq : b.rid i = b.rid v := by omega
  rw [hb.rid] at heq
  rcases Nat.lt_trichotomy i v with h | h | h
  · have := inclusiveSum_lt h hh
    omega
  · exact h
  · have := inclusiveSum_lt h hi
    omega

theorem runStart (hr : IsRun b.head b.n rs re) (h1 : rs ≤ i) (h2 : i < re) :
    b.info.runStart (b.rid i - 1) = rs := by
  refine hb.runStart_of_rid (hr.lt.trans_le hr.le) hr.start ?_
  rw [hb.rid, hr.inclusiveSum_eq h1 h2]

/-- The next run starts where the run ends, if there is one. -/
theorem runEnd (hr : IsRun b.head b.n rs re) (h1 : rs ≤ i) (h2 : i < re) :
    (if b.rid i - 1 + 1 < b.R then b.info.runStart (b.rid i - 1 + 1) else b.n) = re := by
  have hpos := hb.rid_pos i
  have hi : b.rid i = inclusiveSum b.head rs := by rw [hb.rid, hr.inclusiveSum_eq h1 h2]
  have hR : b.R = inclusiveSum b.head (b.n - 1) := by rw [hb.R, hb.rid]
  rw [Nat.sub_add_cancel hpos]
  have hlt := hr.lt
  have hle := hr.le
  by_cases hn : re = b.n
  · have hlast := hr.inclusiveSum_eq (i := b.n - 1) (by omega) (by omega)
    rw [if_neg (by omega), hn]
  · have hh := hr.stop.resolve_left hn
    have hsucc : b.rid re = b.rid i + 1 := by
      obtain ⟨k, rfl⟩ : ∃ k, re = k + 1 := ⟨re - 1, by omega⟩
      rw [hi, hb.rid, inclusiveSum_succ_head hh, hr.inclusiveSum_eq (by omega) (Nat.lt_succ_self k)]
    have hlast : b.rid re ≤ b.R := by
      rw [hR, hb.rid]
      exact inclusiveSum_mono _ (by omega)
    rw [if_pos (by omega)]
    exact hb.runStart_of_rid (by omega) hh (by omega)

theorem rid_eq_iff (hr : IsRun b.head b.n rs re) (h1 : rs ≤ i) (h2 : i < re) (hj : j < b.n) :
    b.rid j - 1 = b.rid i - 1 ↔ rs ≤ j ∧ j < re := by
  have hi : b.rid i = inclusiveSum b.head rs := by rw [hb.rid, hr.inclusiveSum_eq h1 h2]
  have hpi := hb.rid_pos i
  have hpj := hb.rid_pos j
  constructor
  · intro h
    refine hr.mem_of_inclusiveSum_eq hj ?_
    rw [← hi, ← hb.rid]
    omega
  · rintro ⟨h3, h4⟩
    rw [hb.rid, hr.inclusiveSum_eq h1 h2, hr.inclusiveSum_eq h3 h4]

theorem le_fnc {x : ℕ} (hr : IsRun b.head b.n rs re) (h1 : rs ≤ i) (h2 : i < re) :
    x ≤ b.info.fnc (b.rid i - 1) ↔ x ≤ fncInit ∧
      ∀ j, rs ≤ j → j < re → wsf (b.cls j) = true → crlf (b.cp j) = false → x ≤ j := by
  obtain ⟨mem, order, horder, hinfo⟩ := hb.info
  rw [hinfo, le_kRunInfo_fnc]
  refine and_congr_right fun _ => ⟨fun h j h3 h4 hw hc => ?_, fun h j hj hw hc hrid => ?_⟩
  · have hjn : j < b.n := h4.trans_le hr.le
    exact h j (horder.mem_iff.2 (List.mem_range.2 hjn)) hw hc
      ((hb.rid_eq_iff hr h1 h2 hjn).2 ⟨h3, h4⟩)
  · have hjn : j < b.n := List.mem_range.1 (horder.mem_iff.1 hj)
    have := (hb.rid_eq_iff hr h1 h2 hjn).1 hrid
    exact h j this.1 this.2 hw hc

theorem lc_le {x : ℤ} (hr : IsRun b.head b.n rs re) (h1 : rs ≤ i) (h2 : i < re) :
    b.info.lc (b.rid i - 1) ≤ x ↔ -1 ≤ x ∧
      ∀ j, rs ≤ j → j < re → wsf (b.cls j) = true → crlf (b.cp j) = true → (j : ℤ) ≤ x := by
  obtain ⟨mem, order, horder, hinfo⟩ := hb.info
  rw [hinfo, kRunInfo_lc_le]
  refine and_congr_right fun _ => ⟨fun h j h3 h4 hw hc => ?_, fun h j hj hw hc hrid => ?_⟩
  · have hjn : j < b.n := h4.trans_le hr.le
    exact h j (horder.mem_iff.2 (List.mem_range.2 hjn)) hw hc
      ((hb.rid_eq_iff hr h1 h2 hjn).2 ⟨h3, h4⟩)
  · have hjn : j < b.n := List.mem_range.1 (horder.mem_iff.1 hj)
    have := (hb.rid_eq_iff hr h1 h2 hjn).1 hrid
    exact h j this.1 this.2 hw hc

end Filled

/-! ### White runs -/

/-- The parts of a white run from `rs` to `re`: what the punctuation before it takes ends at
`eff`, and `tail` follows the last CR or LF from there on. -/
structure SpaceRun (cp : ℕ → ℕ) (absorb : Prop) (rs re eff tail : ℕ) : Prop where
  le_eff : rs ≤ eff
  eff_le : eff ≤ tail
  tail_le : tail ≤ re
  absorbed : ∀ j, rs ≤ j → j < eff → crlf (cp j) = true
  eff_eq : ¬ absorb → eff = rs
  eff_other : absorb → eff < re → crlf (cp eff) = false
  newline : eff < tail → crlf (cp (tail - 1)) = true
  rest : ∀ j, tail ≤ j → j < re → crlf (cp j) = false

/-- The first other character of a white run, the end of the run if there is none. -/
def firstOther (b : Buffers γ) (rs re : ℕ) : ℕ := min (b.info.fnc (b.rid rs - 1)) re

namespace Filled

variable {b : Buffers γ} {rs re : ℕ} (hb : Filled b rc wsf tab) (hr : IsRun b.head b.n rs re)
  (hw : ∀ j, rs ≤ j → j < re → wsf (b.cls j) = true)

include hb hr hw

theorem le_firstOther (x : ℕ) :
    x ≤ firstOther b rs re ↔ x ≤ re ∧ ∀ j, rs ≤ j → j < re → crlf (b.cp j) = false → x ≤ j := by
  rw [firstOther, le_min_iff, hb.le_fnc hr le_rfl hr.lt]
  constructor
  · rintro ⟨⟨_, h⟩, hx⟩
    exact ⟨hx, fun j h1 h2 hc => h j h1 h2 (hw j h1 h2) hc⟩
  · rintro ⟨hx, h⟩
    exact ⟨⟨hx.trans (hr.le.trans hb.small), fun j h1 h2 _ hc => h j h1 h2 hc⟩, hx⟩

theorem firstOther_absorbed {j : ℕ} (h1 : rs ≤ j) (h2 : j < firstOther b rs re) :
    crlf (b.cp j) = true := by
  by_contra hc
  have hf := (hb.le_firstOther hr hw _).1 le_rfl
  have := hf.2 j h1 (by omega) (by simpa using hc)
  omega

theorem firstOther_not_crlf (h : firstOther b rs re < re) :
    crlf (b.cp (firstOther b rs re)) = false := by
  by_contra hc
  have hf := (hb.le_firstOther hr hw _).1 le_rfl
  have := (hb.le_firstOther hr hw (firstOther b rs re + 1)).2 ⟨h, fun j h1 h2 hj => by
    have hle := hf.2 j h1 h2 hj
    have hne : j ≠ firstOther b rs re := fun heq => hc (heq ▸ hj)
    omega⟩
  omega

omit hw in
/-- The last newline of a white run is a newline of the run, when there is one. -/
theorem lc_mem (h : 0 ≤ b.info.lc (b.rid rs - 1)) :
    ∃ l : ℕ, b.info.lc (b.rid rs - 1) = l ∧ rs ≤ l ∧ l < re ∧ crlf (b.cp l) = true := by
  obtain ⟨l, hl⟩ := Int.eq_ofNat_of_zero_le h
  refine ⟨l, hl, ?_⟩
  by_contra hno
  have hub := (hb.lc_le (x := b.info.lc (b.rid rs - 1)) hr le_rfl hr.lt).1 le_rfl
  have : b.info.lc (b.rid rs - 1) ≤ l - 1 := by
    refine (hb.lc_le hr le_rfl hr.lt).2 ⟨by omega, fun j h1 h2 hwj hc => ?_⟩
    have hle := hub.2 j h1 h2 hwj hc
    have hne : j ≠ l := fun heq => hno (heq ▸ ⟨h1, h2, hc⟩)
    omega
  omega

theorem not_crlf_of_lc_lt {j : ℕ} (h1 : rs ≤ j) (h2 : j < re)
    (h : b.info.lc (b.rid rs - 1) < j) : crlf (b.cp j) = false := by
  by_contra hc
  have hub := (hb.lc_le (x := b.info.lc (b.rid rs - 1)) hr le_rfl hr.lt).1 le_rfl
  have := hub.2 j h1 h2 (hw j h1 h2) (by simpa using hc)
  omega

end Filled

/-- The rule for white space marks the first character that is not absorbed, the first
after the last newline, and a last space that the run can spare. -/
theorem Filled.spaceRule_iff [DecidableEq γ] {b : Buffers γ} {rs re : ℕ}
    (hb : Filled b rc wsf tab) (punct : γ) (hr : IsRun b.head b.n rs re) (hw : ∀ j, rs ≤ j → j < re → wsf (b.cls j) = true)
    (hd : ∀ j, rs ≤ j → j < re → b.dso j = b.dso rs) :
    ∃ eff tail, SpaceRun b.cp (b.dso rs < rs ∧ b.cls (rs - 1) = punct) rs re eff tail ∧
      ∀ i, rs ≤ i → i < re → (spaceRule b punct i = true ↔
        (i = eff) ∨ (i = tail) ∨
        (i + 1 = re ∧ tail + 2 ≤ re ∧ re < b.n ∧ b.dstart re = false)) := by
  have hlt := hr.lt
  obtain ⟨hfle, hff⟩ := (hb.le_firstOther hr hw (firstOther b rs re)).1 le_rfl
  have hrsf : rs ≤ firstOther b rs re :=
    (hb.le_firstOther hr hw rs).2 ⟨hlt.le, fun j h1 _ _ => h1⟩
  set f := firstOther b rs re with hf
  set l := b.info.lc (b.rid rs - 1) with hl
  obtain ⟨eff, heff⟩ : ∃ eff, eff = if b.dso rs < rs ∧ b.cls (rs - 1) = punct then f else rs :=
    ⟨_, rfl⟩
  obtain ⟨tail, htail⟩ : ∃ tail, tail = if l ≥ eff then (l + 1).toNat else eff := ⟨_, rfl⟩
  have hle : rs ≤ eff ∧ eff ≤ re := by
    rw [heff]
    split
    · exact ⟨hrsf, hfle⟩
    · exact ⟨le_rfl, hlt.le⟩
  -- past the last newline there is none, whether or not it is absorbed
  have hnl : (l ≥ eff → ∃ k : ℕ, l = k ∧ eff ≤ k ∧ k < re ∧ crlf (b.cp k) = true) := by
    intro h
    obtain ⟨k, hk, h1, h2, h3⟩ := hb.lc_mem hr (show 0 ≤ l by omega)
    exact ⟨k, hk, by omega, h2, h3⟩
  refine ⟨eff, tail, ⟨hle.1, ?_, ?_, ?_, ?_, ?_, ?_, ?_⟩, ?_⟩
  · rw [htail]
    split
    · omega
    · exact le_rfl
  · rw [htail]
    split
    · rename_i h
      obtain ⟨k, hk, h1, h2, h3⟩ := hnl h
      omega
    · exact hle.2
  · intro j h1 h2
    rw [heff] at h2
    split at h2
    · exact hb.firstOther_absorbed hr hw h1 h2
    · omega
  · intro h
    rw [heff, if_neg h]
  · intro h h1
    rw [heff, if_pos h] at h1 ⊢
    exact hb.firstOther_not_crlf hr hw h1
  · intro h
    rw [htail] at h ⊢
    split at h
    · rename_i hge
      obtain ⟨k, hk, h1, h2, h3⟩ := hnl hge
      rw [if_pos hge, show (l + 1).toNat - 1 = k by omega]
      exact h3
    · omega
  · intro j h1 h2
    refine hb.not_crlf_of_lc_lt hr hw ?_ h2 ?_
    · rw [htail] at h1
      split at h1 <;> omega
    · change l < j
      rw [htail] at h1
      split at h1 <;> omega
  · intro i h1 h2
    have hrid : b.rid i = b.rid rs := by
      rw [hb.rid, hr.inclusiveSum_eq h1 h2]
    have hre := hb.runEnd hr h1 h2
    have hrs := hb.runStart hr h1 h2
    rw [hrid] at hre hrs
    unfold spaceRule
    simp only [hrid, hre, hrs, hd i h1 h2, gt_iff_lt, Nat.sub_pos_iff_lt]
    have hfeq : (if re < b.info.fnc (b.rid rs - 1) then re else b.info.fnc (b.rid rs - 1)) = f := by
      rw [hf, firstOther]
      split <;> omega
    rw [hfeq, ← hl, ← heff, ← htail]
    rw [decide_eq_true_iff, not_or, Bool.not_eq_true, not_le]
    have htl : l ≥ eff → eff < re := fun h => by
      obtain ⟨k, hk, h1, h2, h3⟩ := hnl h
      omega
    have htl' : ¬ l ≥ eff → tail = eff := fun h => by rw [htail, if_neg h]
    constructor
    · rintro (⟨_, h⟩ | ⟨_, h⟩ | ⟨h3, h4, h5⟩)
      · exact Or.inl h
      · exact Or.inr (Or.inl h)
      · exact Or.inr (Or.inr ⟨by omega, by omega, h4⟩)
    · rintro (h | h | ⟨h3, h4, h5⟩)
      · by_cases hge : l ≥ eff
        · exact Or.inl ⟨hge, h⟩
        · have := htl' hge
          exact Or.inr (Or.inl ⟨by omega, by omega⟩)
      · exact Or.inr (Or.inl ⟨by omega, h⟩)
      · exact Or.inr (Or.inr ⟨by omega, h5, by omega⟩)

end Buffers

end Toktier.Pretok
