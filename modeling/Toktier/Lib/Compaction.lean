import Mathlib.Data.List.Range
import Mathlib.Logic.Function.Basic
import Mathlib.Order.Nat

/-!
# Compaction by threads

A compaction keeps the values of the flagged positions in their order. Done in parallel, a thread
for each position writes its value to the slot that counts the flagged positions before it. No two
threads share a slot, so the order in which they run does not matter.

## Main definitions

* `rank`: the number of flagged positions below one.
* `scatter`: the threads, in some order.
* `latest`: the last flagged position up to one.

## Main results

* `foldl_slot`, `foldl_own`: what threads leave in a slot.
* `map_scatter`: the slots hold the values of the flagged positions in order.
-/
namespace Toktier.Lib

/-! ### Threads -/

section Threads

variable {σ β : Type*} {thread : σ → ℕ → σ} {order : List ℕ} {i : ℕ}

/-- A slot that a thread sets, and that the others leave alone once it is set. -/
theorem foldl_slot (slot : σ → β) {v : β} (hmem : i ∈ order)
    (hset : ∀ m, slot (thread m i) = v)
    (hkeep : ∀ m j, slot m = v → slot (thread m j) = v) (m : σ) :
    slot (order.foldl thread m) = v := by
  have hrest (order : List ℕ) (m : σ) (hm : slot m = v) : slot (order.foldl thread m) = v := by
    induction order generalizing m with
    | nil => exact hm
    | cons j order ih => exact ih (thread m j) (hkeep m j hm)
  induction order generalizing m with
  | nil => exact absurd hmem List.not_mem_nil
  | cons j order ih =>
    rcases List.mem_cons.mp hmem with rfl | htail
    · exact hrest order _ (hset m)
    · exact ih htail (thread m j)

/-- A slot that only its own thread changes, from what was in it. -/
theorem foldl_own (slot : σ → β) (f : β → β)
    (hown : ∀ m, slot (thread m i) = f (slot m))
    (hother : ∀ m j, j ≠ i → slot (thread m j) = slot m) (hnodup : order.Nodup) (hmem : i ∈ order)
    (m : σ) : slot (order.foldl thread m) = f (slot m) := by
  have hrest (order : List ℕ) (m : σ) (hnot : i ∉ order) :
      slot (order.foldl thread m) = slot m := by
    induction order generalizing m with
    | nil => rfl
    | cons j order ih =>
      rw [List.mem_cons, not_or] at hnot
      exact (ih (thread m j) hnot.2).trans (hother m j (Ne.symm hnot.1))
  induction order generalizing m with
  | nil => exact absurd hmem List.not_mem_nil
  | cons j order ih =>
    rw [List.nodup_cons] at hnodup
    rcases List.mem_cons.mp hmem with rfl | htail
    · exact (hrest order _ hnodup.1).trans (hown m)
    · have hne : j ≠ i := fun h => hnodup.1 (h ▸ htail)
      exact (ih hnodup.2 htail (thread m j)).trans (congrArg f (hother m j hne))

end Threads

/-! ### Slots -/

variable {β : Type*} {p : ℕ → Bool} {i j n : ℕ}

/-- The flagged positions below `i`. -/
def rank (p : ℕ → Bool) (i : ℕ) : ℕ := (List.range i).countP p

/-- The thread of a flagged position writes to its slot. -/
def scatterThread (p : ℕ → Bool) (val : ℕ → β) (mem : ℕ → β) (i : ℕ) : ℕ → β :=
  if p i then Function.update mem (rank p i) (val i) else mem

/-- The threads, in the order `order`. -/
def scatter (p : ℕ → Bool) (val : ℕ → β) (mem : ℕ → β) (order : List ℕ) : ℕ → β :=
  order.foldl (scatterThread p val) mem

theorem rank_succ (p : ℕ → Bool) (i : ℕ) : rank p (i + 1) = rank p i + (p i).toNat := by
  rw [rank, List.range_succ, List.countP_append, ← rank]
  cases h : p i <;> simp [h]

theorem rank_mono (h : i ≤ j) : rank p i ≤ rank p j := by
  induction j, h using Nat.le_induction with
  | base => exact le_rfl
  | succ j _ ih =>
    rw [rank_succ]
    omega

/-- A flagged position moves the slots after it. -/
theorem rank_lt (hi : p i = true) (h : i < j) : rank p i < rank p j := by
  have hsucc := rank_succ p i
  rw [hi] at hsucc
  have hmono := rank_mono (p := p) (show i + 1 ≤ j from h)
  have hone : true.toNat = 1 := rfl
  omega

/-- No two flagged positions share a slot. -/
theorem rank_inj (hi : p i = true) (hj : p j = true) (h : rank p i = rank p j) : i = j := by
  rcases Nat.lt_trichotomy i j with hlt | heq | hlt
  · exact absurd h (rank_lt hi hlt).ne
  · exact heq
  · exact absurd h (rank_lt hj hlt).ne'

theorem rank_le (p : ℕ → Bool) (n : ℕ) : rank p n ≤ n := by
  have h := List.countP_le_length (p := p) (l := List.range n)
  rwa [List.length_range] at h

/-- The last flagged position up to one; the first counts as flagged. -/
def latest (p : ℕ → Bool) : ℕ → ℕ
  | 0 => 0
  | i + 1 => if p (i + 1) then i + 1 else latest p i

theorem latest_le (p : ℕ → Bool) (i : ℕ) : latest p i ≤ i := by
  induction i with
  | zero => exact le_rfl
  | succ i ih =>
    rw [latest]
    split_ifs
    · exact le_rfl
    · omega

theorem latest_flagged (hfirst : p 0 = true) (i : ℕ) : p (latest p i) = true := by
  induction i with
  | zero => exact hfirst
  | succ i ih =>
    rw [latest]
    split_ifs with h
    · exact h
    · exact ih

/-- Its slot is the last one in use. -/
theorem rank_latest (hfirst : p 0 = true) (i : ℕ) : rank p (i + 1) = rank p (latest p i) + 1 := by
  induction i with
  | zero => rw [rank_succ, latest, hfirst, Bool.toNat_true]
  | succ i ih =>
    rw [rank_succ, latest]
    split_ifs with h
    · rw [h, Bool.toNat_true]
    · rw [Bool.not_eq_true _ |>.mp h, Bool.toNat_false, ih]

/-- Every flagged position that ran has its value in its slot. -/
theorem scatter_rank {val mem : ℕ → β} {order : List ℕ} (hmem : i ∈ order) (hi : p i = true) :
    scatter p val mem order (rank p i) = val i := by
  refine foldl_slot (fun mem : ℕ → β => mem (rank p i)) hmem (fun mem => ?_) ?_ mem
  · rw [scatterThread, if_pos hi, Function.update_self]
  · -- another thread has another slot
    intro mem j hval
    rw [scatterThread]
    split_ifs with hj
    · rw [Function.update_apply]
      split_ifs with heq
      · rw [rank_inj hi hj heq]
      · exact hval
    · exact hval

/-- Slots that hold the values of the flagged positions hold them in order. -/
theorem map_slots {f g : ℕ → β} (h : ∀ i < n, p i = true → f (rank p i) = g i) :
    (List.range (rank p n)).map f = ((List.range n).filter p).map g := by
  induction n with
  | zero => rfl
  | succ n ih =>
    have hprev := ih fun i hi => h i (by omega)
    rw [rank_succ, List.range_succ (n := n), List.filter_append, List.map_append, ← hprev]
    cases hn : p n with
    | false => simp [hn]
    | true =>
      have hone : rank p n + true.toNat = rank p n + 1 := rfl
      rw [hone, List.range_succ, List.map_append, List.map_singleton, h n (by omega) hn]
      simp [hn]

/-- What the threads leave in the slots. -/
theorem map_scatter (val mem : ℕ → β) {order : List ℕ} (horder : order.Perm (List.range n)) :
    (List.range (rank p n)).map (scatter p val mem order) =
      ((List.range n).filter p).map val :=
  map_slots fun _ hi hp => scatter_rank (horder.mem_iff.mpr (List.mem_range.mpr hi)) hp

end Toktier.Lib
