import Mathlib.Algebra.BigOperators.Group.List.Basic
import Mathlib.Algebra.Ring.Nat
import Mathlib.Data.List.AList

/-!
# Totals over a table

The sum of a measure over the values of an association list, and how it moves when one key is
put in or taken out.

## Main results

* `total_insert`, `total_of_lookup`: one key against the rest of the table.
* `exists_of_total_pos`: a total that is not zero has a value that is not.
-/
namespace Toktier.Lib

variable {κ ν : Type} [DecidableEq κ]

/-- The sum of `f` over the values. -/
def total (f : ν → ℕ) (t : AList fun _ : κ => ν) : ℕ := (t.entries.map fun e => f e.2).sum

variable (f : ν → ℕ) {t : AList fun _ : κ => ν} {k : κ} {v : ν}

omit [DecidableEq κ] in
@[simp] theorem total_empty : total f (∅ : AList fun _ : κ => ν) = 0 := rfl

theorem total_insert (t : AList fun _ : κ => ν) (k : κ) (v : ν) :
    total f (t.insert k v) = f v + total f (t.erase k) := by
  have hentries : (t.insert k v).entries = ⟨k, v⟩ :: (t.erase k).entries := rfl
  rw [total, hentries, List.map_cons, List.sum_cons, total]

/-- The value at a key, and the rest. -/
theorem total_of_lookup (h : t.lookup k = some v) : total f t = f v + total f (t.erase k) := by
  have hkeys : k ∈ t.entries.keys := AList.lookup_isSome.mp (by rw [h]; rfl)
  obtain ⟨b, l₁, l₂, -, hl, hk⟩ := List.exists_of_kerase hkeys
  have hmem : (⟨k, b⟩ : Sigma fun _ : κ => ν) ∈ t.entries := by
    rw [hl]
    simp
  have hb : b = v := by
    have hlookup : t.lookup k = some b := AList.mem_lookup_iff.mpr hmem
    exact Option.some.inj (hlookup.symm.trans h)
  have herase : (t.erase k).entries = l₁ ++ l₂ := hk
  unfold total
  rw [herase, hl, hb]
  simp only [List.map_append, List.map_cons, List.sum_append, List.sum_cons]
  omega

theorem total_erase_insert (t : AList fun _ : κ => ν) (k : κ) (v : ν) :
    total f ((t.insert k v).erase k) = total f (t.erase k) := by
  have hall := total_insert f t k v
  rw [total_of_lookup f (AList.lookup_insert t)] at hall
  exact Nat.add_left_cancel hall

theorem erase_of_lookup_none (h : t.lookup k = none) : t.erase k = t := by
  apply AList.ext
  apply List.kerase_of_notMem_keys
  exact AList.lookup_eq_none.mp h

theorem total_erase_le (t : AList fun _ : κ => ν) (k : κ) : total f (t.erase k) ≤ total f t := by
  cases h : t.lookup k with
  | none => rw [erase_of_lookup_none h]
  | some v =>
    rw [total_of_lookup f h]
    omega

/-- A total that is not zero has a value that is not. -/
theorem exists_of_total_pos (h : 0 < total f t) : ∃ k v, t.lookup k = some v ∧ 0 < f v := by
  by_contra hall
  have hzero : ∀ n ∈ t.entries.map fun e => f e.2, n = 0 := by
    intro n hn
    obtain ⟨e, he, rfl⟩ := List.mem_map.mp hn
    by_contra hpos
    exact hall ⟨e.1, e.2, AList.mem_lookup_iff.mpr he, Nat.pos_of_ne_zero hpos⟩
  unfold total at h
  rw [List.sum_eq_zero hzero] at h
  omega

omit [DecidableEq κ] in
theorem total_le_length {f : ν → ℕ} (h : ∀ v, f v ≤ 1) (t : AList fun _ : κ => ν) :
    total f t ≤ t.entries.length := by
  unfold total
  induction t.entries with
  | nil => exact le_rfl
  | cons e es ih =>
    have := h e.2
    simp only [List.map_cons, List.sum_cons, List.length_cons]
    omega

end Toktier.Lib
