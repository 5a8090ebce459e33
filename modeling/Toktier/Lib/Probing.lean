import Mathlib.Data.Nat.Bitwise
import Mathlib.Data.Nat.Find
import Mathlib.Logic.Function.Basic
import Mathlib.Tactic.Common

/-!
# Linear probing

A table of `2 ^ k` slots is searched from the home slot of a key, one slot after the other and
around the end. A key goes into the first empty slot of its walk. Slots are never emptied, so
the walk of a stored key meets no empty slot before it, and as long as one slot stays empty
every search ends.

## Main definitions

* `walk`: the loop of a search or an insertion.
* `Probed`: a table that insertions have built.

## Main results

* `walk_eq_some`: a walk answers at the first slot that has an answer.
* `Probed.insert`: an insertion keeps the table.
* `Probed.walk_stored`, `Probed.walk_absent`: what a search finds.
-/
namespace Toktier.Lib

variable {β κ ν : Type} {f : ℕ → Option β} {size k h i n fuel : ℕ} {r : β}

/-- Go from slot `i` to the first slot with an answer, for at most `fuel` slots. -/
def walk (f : ℕ → Option β) (mask : ℕ) : ℕ → ℕ → Option β
  | 0, _ => none
  | fuel + 1, i =>
    match f i with
    | some r => some r
    | none => walk f mask fuel ((i + 1) &&& mask)

/-- The `n`-th slot of the walk from `h`. -/
def slot (size h n : ℕ) : ℕ := (h + n) % size

theorem slot_lt (hsize : 0 < size) (h n : ℕ) : slot size h n < size := Nat.mod_lt _ hsize

theorem slot_succ (size h n : ℕ) : slot size ((h + 1) % size) n = slot size h (n + 1) := by
  rw [slot, slot, Nat.mod_add_mod, Nat.add_assoc, Nat.add_comm 1 n]

/-- A mask of low bits takes the remainder. -/
theorem and_mask (hsize : size = 2 ^ k) (i : ℕ) : i &&& (size - 1) = i % size := by
  rw [hsize]
  exact Nat.and_two_pow_sub_one_eq_mod i k

/-- A walk answers at the first slot that has an answer. -/
theorem walk_eq_some (hsize : size = 2 ^ k) (hh : h < size)
    (hskip : ∀ m < n, f (slot size h m) = none) (hr : f (slot size h n) = some r)
    (hfuel : n < fuel) : walk f (size - 1) fuel h = some r := by
  induction n generalizing h fuel with
  | zero =>
    obtain ⟨fuel, rfl⟩ : ∃ m, fuel = m + 1 := ⟨fuel - 1, by omega⟩
    rw [slot, Nat.add_zero, Nat.mod_eq_of_lt hh] at hr
    rw [walk, hr]
  | succ n ih =>
    obtain ⟨fuel, rfl⟩ : ∃ m, fuel = m + 1 := ⟨fuel - 1, by omega⟩
    have hfirst : f h = none := by
      have := hskip 0 (Nat.succ_pos n)
      rwa [slot, Nat.add_zero, Nat.mod_eq_of_lt hh] at this
    rw [walk, hfirst]
    dsimp only
    rw [and_mask hsize]
    refine ih (Nat.mod_lt _ (by omega)) (fun m hm => ?_) ?_ (by omega)
    · rw [slot_succ]
      exact hskip (m + 1) (by omega)
    · rwa [slot_succ]

/-- A walk that answers has met no answer before. -/
theorem exists_of_walk (hsize : size = 2 ^ k) (hh : h < size)
    (hw : walk f (size - 1) fuel h = some r) :
    ∃ n < fuel, f (slot size h n) = some r ∧ ∀ m < n, f (slot size h m) = none := by
  induction fuel generalizing h with
  | zero => cases hw
  | succ fuel ih =>
    have hzero : slot size h 0 = h := by rw [slot, Nat.add_zero, Nat.mod_eq_of_lt hh]
    rw [walk] at hw
    cases hf : f h with
    | some r' =>
      rw [hf] at hw
      refine ⟨0, Nat.succ_pos fuel, ?_, fun m hm => absurd hm (Nat.not_lt_zero m)⟩
      rw [hzero, hf]
      exact hw
    | none =>
      rw [hf] at hw
      dsimp only at hw
      rw [and_mask hsize] at hw
      obtain ⟨n, hn, hr, hskip⟩ := ih (Nat.mod_lt _ (by omega)) hw
      refine ⟨n + 1, by omega, by rwa [slot_succ] at hr, fun m hm => ?_⟩
      cases m with
      | zero => rwa [hzero]
      | succ m =>
        rw [← slot_succ]
        exact hskip m (by omega)

/-- Every slot is on the walk from any home. -/
theorem exists_slot (h : ℕ) (hi : i < size) : ∃ n < size, slot size h n = i := by
  refine ⟨(i + (size - h % size)) % size, Nat.mod_lt _ (by omega), ?_⟩
  have hlt : h % size < size := Nat.mod_lt _ (by omega)
  rw [slot, Nat.add_mod, Nat.mod_mod, ← Nat.add_mod, ← Nat.mod_add_mod,
    show h % size + (i + (size - h % size)) = i + size by omega, Nat.add_mod_right,
    Nat.mod_eq_of_lt hi]

/-- The first slot of a walk with a property, when some slot has it. -/
theorem exists_first {p : ℕ → Prop} (h : ℕ) (hi : i < size) (hp : p i) :
    ∃ n < size, p (slot size h n) ∧ ∀ m < n, ¬p (slot size h m) := by
  classical
  obtain ⟨n, hn, hslot⟩ := exists_slot h hi
  have hex : ∃ n, p (slot size h n) := ⟨n, by rwa [hslot]⟩
  have hle : Nat.find hex ≤ n := Nat.find_min' hex (by rwa [hslot])
  exact ⟨Nat.find hex, hle.trans_lt hn, Nat.find_spec hex, fun m hm => Nat.find_min hex hm⟩

/-! ### Tables -/

variable [DecidableEq κ]

/-- A table of keys and values in which the pairs of the list have been put: `e` marks an empty
slot, no key is there twice, and no slot before a key on its walk is empty. -/
structure Probed (size : ℕ) (home : κ → ℕ) (e : κ) (K : ℕ → κ) (V : ℕ → ν)
    (stored : List (κ × ν)) : Prop where
  mem : ∀ i < size, K i ≠ e → (K i, V i) ∈ stored
  placed : ∀ p ∈ stored, ∃ n < size, K (slot size (home p.1) n) = p.1 ∧
    V (slot size (home p.1) n) = p.2 ∧
    ∀ m < n, K (slot size (home p.1) m) ≠ e ∧ K (slot size (home p.1) m) ≠ p.1
  real : ∀ p ∈ stored, p.1 ≠ e
  count : ((List.range size).countP fun i => decide (K i ≠ e)) ≤ stored.length

variable {home : κ → ℕ} {e key : κ} {K : ℕ → κ} {V : ℕ → ν} {v : ν} {stored : List (κ × ν)}

theorem Probed.empty (size : ℕ) (home : κ → ℕ) (e : κ) (V : ℕ → ν) :
    Probed size home e (fun _ => e) V [] := by
  refine ⟨fun i _ hi => absurd rfl hi, fun p hp => ?_, fun p hp => ?_, ?_⟩
  · exact absurd hp List.not_mem_nil
  · exact absurd hp List.not_mem_nil
  · simp

/-- One write makes at most one more slot not empty. -/
theorem countP_update_le (i : ℕ) (key : κ) {l : List ℕ} (hl : l.Nodup) :
    (l.countP fun j => decide (Function.update K i key j ≠ e)) ≤
      (l.countP fun j => decide (K j ≠ e)) + 1 := by
  induction l with
  | nil => simp
  | cons j l ih =>
    obtain ⟨hj, hl⟩ := List.nodup_cons.mp hl
    by_cases hji : j = i
    · have hrest : (l.countP fun j => decide (Function.update K i key j ≠ e)) =
          l.countP fun j => decide (K j ≠ e) :=
        List.countP_congr fun x hx => by
          have hxi : x ≠ i := by
            rintro rfl
            exact hj (hji ▸ hx)
          rw [Function.update_of_ne hxi]
      rw [List.countP_cons, List.countP_cons, hrest]
      split_ifs <;> omega
    · have := ih hl
      rw [List.countP_cons, List.countP_cons, Function.update_of_ne hji]
      omega

/-- A key goes into the first empty slot of its walk. -/
theorem Probed.insert (h : Probed size home e K V stored) (hn : n < size) (hkey : key ≠ e)
    (hempty : K (slot size (home key) n) = e)
    (hskip : ∀ m < n, K (slot size (home key) m) ≠ e ∧ K (slot size (home key) m) ≠ key) (v : ν) :
    Probed size home e (Function.update K (slot size (home key) n) key)
      (Function.update V (slot size (home key) n) v) (stored ++ [(key, v)]) := by
  set i := slot size (home key) n with hi
  -- A slot that was not empty is as it was.
  have hother {α : Type} (g : ℕ → α) (x : α) {j : ℕ} (hj : K j ≠ e) :
      Function.update g i x j = g j := by
    have hji : j ≠ i := by
      rintro rfl
      exact hj hempty
    exact Function.update_of_ne hji x g
  refine ⟨fun j hj hne => ?_, fun p hp => ?_, fun p hp => ?_, ?_⟩
  · by_cases hji : j = i
    · subst hji
      simp
    · rw [Function.update_of_ne hji] at hne ⊢
      rw [Function.update_of_ne hji]
      exact List.mem_append_left _ (h.mem j hj hne)
  · rcases List.mem_append.mp hp with hp | hp
    · obtain ⟨m, hm, hK, hV, hbefore⟩ := h.placed p hp
      have hne : K (slot size (home p.1) m) ≠ e := by
        rw [hK]
        exact h.real p hp
      refine ⟨m, hm, (hother K key hne).trans hK, (hother V v hne).trans hV, fun l hl => ?_⟩
      rw [hother K key (hbefore l hl).1]
      exact hbefore l hl
    · obtain rfl := List.mem_singleton.mp hp
      refine ⟨n, hn, ?_, ?_, fun l hl => ?_⟩
      · rw [← hi, Function.update_self]
      · rw [← hi, Function.update_self]
      · rw [hother K key (hskip l hl).1]
        exact hskip l hl
  · rcases List.mem_append.mp hp with hp | hp
    · exact h.real p hp
    · obtain rfl := List.mem_singleton.mp hp
      exact hkey
  · rw [List.length_append, List.length_singleton]
    exact (countP_update_le i key List.nodup_range).trans (Nat.add_le_add_right h.count 1)

/-- Fewer keys than slots leave a slot empty. -/
theorem Probed.exists_empty (h : Probed size home e K V stored) (hlt : stored.length < size) :
    ∃ i < size, K i = e := by
  by_contra hnone
  have hfull : ∀ i < size, K i ≠ e := fun i hi hempty => hnone ⟨i, hi, hempty⟩
  have hall : ((List.range size).countP fun i => decide (K i ≠ e)) = size := by
    rw [List.countP_eq_length.mpr fun i hi => decide_eq_true (hfull i (List.mem_range.mp hi)),
      List.length_range]
  have := h.count
  omega

/-- A search that stops at its key finds the value stored for it. -/
theorem Probed.walk_stored (h : Probed size home e K V stored) (hsize : size = 2 ^ k)
    (hhome : home key < size) (hmem : (key, v) ∈ stored)
    (hskip : ∀ i, K i ≠ e → K i ≠ key → f i = none)
    (hstop : ∀ i, K i = key → V i = v → f i = some r) (hfuel : size ≤ fuel) :
    walk f (size - 1) fuel (home key) = some r := by
  obtain ⟨n, hn, hK, hV, hbefore⟩ := h.placed _ hmem
  exact walk_eq_some hsize hhome (fun m hm => hskip _ (hbefore m hm).1 (hbefore m hm).2)
    (hstop _ hK hV) (hn.trans_le hfuel)

/-- A search that stops at no key stops at the first empty slot. -/
theorem Probed.walk_absent (h : Probed size home e K V stored) (hsize : size = 2 ^ k)
    (hlt : stored.length < size) {start : ℕ} (hstart : start < size)
    (hskip : ∀ i < size, K i ≠ e → f i = none) (hstop : ∀ i, K i = e → f i = some r)
    (hfuel : size ≤ fuel) : walk f (size - 1) fuel start = some r := by
  obtain ⟨i, hi, hempty⟩ := h.exists_empty hlt
  obtain ⟨n, hn, hfirst, hbefore⟩ := exists_first (p := fun i => K i = e) start hi hempty
  exact walk_eq_some hsize hstart
    (fun m hm => hskip _ (slot_lt (by omega) start m) (hbefore m hm)) (hstop _ hfirst)
    (hn.trans_le hfuel)

end Toktier.Lib
