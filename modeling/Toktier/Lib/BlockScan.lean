import Mathlib.Algebra.BigOperators.Group.Finset.Basic

/-!
# Scans by blocks

An inclusive prefix sum in parallel: a block of threads sums its own stretch of the input, the sums
of the blocks are scanned in turn, and what comes before its block is added to each entry.

## Main definitions

* `BlockScan`: the collective that the threads of one block call.
* `padded`: an input with zeros after its end.

## Main results

* `sum_blocks_add`: a prefix sum is that of its block and the sums of the blocks before it.
-/
namespace Toktier.Lib

open Finset

variable {α : Type*} [AddCommMonoid α] {n k m : ℕ}

/-- The collective of a block: each thread gets the sum of the values up to its own. -/
structure BlockScan (α : Type*) [AddCommMonoid α] (threads : ℕ) where
  inclusiveSum : (ℕ → α) → ℕ → α
  inclusiveSum_eq (f : ℕ → α) {t : ℕ} (h : t < threads) :
    inclusiveSum f t = ∑ s ∈ range (t + 1), f s

/-- The input `f` of length `n`, and zeros after it. -/
def padded (n : ℕ) (f : ℕ → α) (i : ℕ) : α := if i < n then f i else 0

theorem sum_padded (f : ℕ → α) (h : k ≤ n) :
    ∑ j ∈ range k, padded n f j = ∑ j ∈ range k, f j :=
  sum_congr rfl fun _ hj => if_pos (lt_of_lt_of_le (mem_range.mp hj) h)

theorem sum_pairs (f : ℕ → α) (k : ℕ) :
    ∑ s ∈ range k, (f (2 * s) + f (2 * s + 1)) = ∑ j ∈ range (2 * k), f j := by
  induction k with
  | zero => rfl
  | succ k ih => rw [sum_range_succ, ih, Nat.mul_succ, sum_range_succ, sum_range_succ, add_assoc]

theorem sum_blocks (f : ℕ → α) (k m : ℕ) :
    ∑ b ∈ range k, ∑ j ∈ range m, f (b * m + j) = ∑ j ∈ range (k * m), f j := by
  induction k with
  | zero => simp
  | succ k ih => rw [sum_range_succ, ih, Nat.succ_mul, sum_range_add]

/-- The prefix sum at `i` is that of its block after the sums of the blocks before it. -/
theorem sum_blocks_add (f : ℕ → α) (i m : ℕ) :
    ∑ b ∈ range (i / m), ∑ j ∈ range m, f (b * m + j) +
      ∑ j ∈ range (i % m + 1), f (i / m * m + j) = ∑ j ∈ range (i + 1), f j := by
  have hsplit : i + 1 = i / m * m + (i % m + 1) := by
    rw [← add_assoc, Nat.div_add_mod']
  rw [sum_blocks, ← sum_range_add, ← hsplit]

end Toktier.Lib
