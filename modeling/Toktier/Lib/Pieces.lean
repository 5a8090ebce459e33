import Mathlib.Data.List.Basic
import Mathlib.Data.List.Range
import Mathlib.Order.Lattice

/-!
# Binary search, and pieces of a row

A row is cut into pieces by an array of offsets, and a second array places the pieces. A range of
places whose ends are in the second array is a range of pieces, and its part of the row lies between
two offsets.

## Main definitions

* `binarySearch`: the search of the standard library.
* `piece`, `segment`: the part of a row between two offsets.

## Main results

* `binarySearch_eq_some`: in a row that goes up, the search finds what is there.
* `flatMap_piece`: pieces that follow each other are one segment.
* `filter_within`: the pieces within a range whose ends are places.
-/
namespace Toktier.Lib

/-! ## Binary search -/

section Search

variable {α : Type*} [LinearOrder α] {xs : List α} {key : α} {base size i k : ℕ}

/-- The loop: `base` is the first place of the part that is left. -/
def searchLoop (xs : List α) (key : α) (base size : ℕ) : ℕ :=
  if size ≤ 1 then base
  else
    let half := size / 2
    let mid := base + half
    searchLoop xs key (if xs[mid]?.any (key < ·) then base else mid) (size - half)
termination_by size
decreasing_by omega

/-- A place of the key in the row. -/
def binarySearch (xs : List α) (key : α) : Option ℕ :=
  let base := searchLoop xs key 0 xs.length
  if xs[base]? = some key then some base else none

theorem getElem?_of_binarySearch (h : binarySearch xs key = some i) : xs[i]? = some key := by
  unfold binarySearch at h
  dsimp only at h
  split_ifs at h with hkey
  cases h
  exact hkey

/-- The place of the key stays in the part that is left. -/
theorem searchLoop_eq (hup : xs.Pairwise (· < ·)) (hk : xs[k]? = some key) (hbase : base ≤ k)
    (hlt : k < base + size) (hsize : base + size ≤ xs.length) :
    searchLoop xs key base size = k := by
  induction size using Nat.strong_induction_on generalizing base with
  | h size ih =>
    rw [searchLoop]
    by_cases hsmall : size ≤ 1
    · rw [if_pos hsmall]
      omega
    · rw [if_neg hsmall]
      dsimp only
      obtain ⟨hklt, hkey⟩ := List.getElem?_eq_some_iff.mp hk
      have hmid : base + size / 2 < xs.length := by omega
      rw [List.getElem?_eq_getElem hmid, Option.any_some]
      obtain hleft | hright := Nat.lt_or_ge k (base + size / 2)
      · have habove : key < xs[base + size / 2] :=
          hkey ▸ List.pairwise_iff_getElem.mp hup k _ hklt hmid hleft
        rw [if_pos (decide_eq_true habove)]
        exact ih _ (by omega) hbase (by omega) (by omega)
      · have hle : ¬key < xs[base + size / 2] := by
          obtain heq | hlt' := hright.eq_or_lt
          · rw [← hkey]
            simp [heq]
          · exact (hkey ▸ List.pairwise_iff_getElem.mp hup _ k hmid hklt hlt').not_gt
        rw [if_neg (by simpa using hle)]
        exact ih _ (by omega) hright (by omega) (by omega)

/-- In a row that goes up the search finds the place of a key that is there. -/
theorem binarySearch_eq_some (hup : xs.Pairwise (· < ·)) :
    binarySearch xs key = some i ↔ xs[i]? = some key := by
  refine ⟨getElem?_of_binarySearch, fun hi => ?_⟩
  have hlt := (List.getElem?_eq_some_iff.mp hi).1
  unfold binarySearch
  rw [searchLoop_eq hup hi (Nat.zero_le i) (by omega) (by omega)]
  dsimp only
  rw [if_pos hi]

end Search

/-! ## Pieces -/

section Pieces

variable {α β : Type*} {lo hi n : ℕ}

/-- The elements from one offset to another. -/
def segment (xs : List α) (lo hi : ℕ) : List α := (xs.take hi).drop lo

/-- The elements between two offsets that follow each other. -/
def piece (xs : List α) (cut : ℕ → ℕ) (k : ℕ) : List α := segment xs (cut k) (cut (k + 1))

@[simp] theorem segment_self (xs : List α) (lo : ℕ) : segment xs lo lo = [] :=
  List.drop_of_length_le (List.length_take_le _ _)

theorem segment_all (xs : List α) : segment xs 0 xs.length = xs := by
  rw [segment, List.take_length, List.drop_zero]

/-- Two segments that meet are one. -/
theorem segment_append (xs : List α) {lo mid hi : ℕ} (hlo : lo ≤ mid) (hhi : mid ≤ hi) :
    segment xs lo mid ++ segment xs mid hi = segment xs lo hi := by
  unfold segment
  obtain hmid | hmid := Nat.lt_or_ge mid xs.length
  · have hsplit : xs.take hi = xs.take mid ++ (xs.take hi).drop mid := by
      rw [← List.take_append_drop mid (xs.take hi), List.take_take, min_eq_left hhi,
        List.drop_left' (by rw [List.length_take]; omega)]
    have hdrop : (xs.take mid ++ (xs.take hi).drop mid).drop lo =
        (xs.take mid).drop lo ++ (xs.take hi).drop mid :=
      List.drop_append_of_le_length (by rw [List.length_take]; omega)
    rw [← hdrop, ← hsplit]
  · rw [List.take_of_length_le hmid, List.take_of_length_le (hmid.trans hhi),
      List.drop_of_length_le hmid, List.append_nil]

/-- Pieces that follow each other are one segment. -/
theorem flatMap_piece (xs : List α) (cut : ℕ → ℕ) (hle : lo ≤ hi)
    (hmono : ∀ k, lo ≤ k → k < hi → cut k ≤ cut (k + 1)) :
    (List.range' lo (hi - lo)).flatMap (piece xs cut) = segment xs (cut lo) (cut hi) ∧
      cut lo ≤ cut hi := by
  induction hi, hle using Nat.le_induction with
  | base =>
    rw [Nat.sub_self]
    exact ⟨(segment_self xs _).symm, le_rfl⟩
  | succ hi hle ih =>
    obtain ⟨hsegment, hcut⟩ := ih fun k hk hlt => hmono k hk (hlt.trans (Nat.lt_succ_self hi))
    have hnext := hmono hi hle (Nat.lt_succ_self hi)
    have hrange : List.range' lo (hi + 1 - lo) = List.range' lo (hi - lo) ++ [hi] := by
      rw [Nat.succ_sub hle, List.range'_1_concat, Nat.add_sub_cancel' hle]
    rw [hrange, List.flatMap_append, hsegment, List.flatMap_singleton, piece,
      segment_append xs hcut hnext]
    exact ⟨rfl, hcut.trans hnext⟩

/-- In places that go up, a place is behind another where its number is. -/
theorem place_le_iff [LinearOrder β] {place : ℕ → β} (hup : ∀ k < n, place k < place (k + 1))
    {i j : ℕ} (hi : i ≤ n) (hj : j ≤ n) : place i ≤ place j ↔ i ≤ j := by
  have hlt {i j : ℕ} (hij : i < j) (hj : j ≤ n) : place i < place j := by
    induction j, hij using Nat.le_induction with
    | base => exact hup i (by omega)
    | succ j hij ih => exact (ih (by omega)).trans (hup j (by omega))
  constructor
  · intro hle
    by_contra hji
    exact absurd hle (hlt (not_le.mp hji) hi).not_ge
  · intro hij
    obtain rfl | hij := hij.eq_or_lt
    · exact le_rfl
    · exact (hlt hij hj).le

/-- The pieces within a range whose ends are places are those from one end to the other. -/
theorem filter_within [LinearOrder β] {place : ℕ → β} (hup : ∀ k < n, place k < place (k + 1))
    (hlo : lo ≤ hi) (hhi : hi ≤ n) :
    ((List.range n).filter fun k => decide (place lo ≤ place k ∧ place (k + 1) ≤ place hi)) =
      List.range' lo (hi - lo) := by
  have hwithin : ((List.range n).filter fun k =>
      decide (place lo ≤ place k ∧ place (k + 1) ≤ place hi)) =
        (List.range n).filter fun k => decide (lo ≤ k ∧ k < hi) := by
    refine List.filter_congr fun k hk => ?_
    have hk := List.mem_range.mp hk
    exact decide_eq_decide.mpr
      (and_congr (place_le_iff hup (by omega) hk.le) (place_le_iff hup hk hhi))
  have hsplit : List.range n =
      List.range' 0 lo ++ (List.range' lo (hi - lo) ++ List.range' hi (n - hi)) := by
    have hrest : List.range' lo (hi - lo) ++ List.range' hi (n - hi) = List.range' lo (n - lo) := by
      have happend := List.range'_append_1 (s := lo) (m := hi - lo) (n := n - hi)
      rw [Nat.add_sub_cancel' hlo] at happend
      rw [happend]
      congr 1
      omega
    have happend := List.range'_append_1 (s := 0) (m := lo) (n := n - lo)
    rw [Nat.zero_add] at happend
    rw [hrest, happend, List.range_eq_range']
    congr 1
    omega
  have hnone (start count : ℕ) (hout : ∀ k, start ≤ k → k < start + count → ¬(lo ≤ k ∧ k < hi)) :
      (List.range' start count).filter (fun k => decide (lo ≤ k ∧ k < hi)) = [] := by
    refine List.filter_eq_nil_iff.mpr fun k hk => ?_
    obtain ⟨hstart, hstop⟩ := List.mem_range'_1.mp hk
    exact fun h => hout k hstart hstop (of_decide_eq_true h)
  have hall : (List.range' lo (hi - lo)).filter (fun k => decide (lo ≤ k ∧ k < hi)) =
      List.range' lo (hi - lo) := by
    refine List.filter_eq_self.mpr fun k hk => ?_
    have hk := List.mem_range'_1.mp hk
    exact decide_eq_true ⟨hk.1, by omega⟩
  rw [hwithin, hsplit, List.filter_append, List.filter_append, hall,
    hnone 0 lo fun k _ hk => by omega, hnone hi (n - hi) fun k hk _ => by omega, List.nil_append,
    List.append_nil]

end Pieces

end Toktier.Lib
