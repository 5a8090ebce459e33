import Mathlib.Data.List.Chain
import Mathlib.Data.List.Nodup
import Mathlib.Logic.Function.Basic
import Mathlib.Tactic.Common

/-!
# Doubly linked cells

The cells of an array that are still in use, linked forth and back by two arrays of positions.
A cell is taken out by two writes, and the other links stay.

## Main definitions

* `Linked`: these positions, in ascending order, are linked.

## Main results

* `Linked.next_eq`, `Linked.prev_eq`: what the links of a cell say.
* `Linked.unlink`: taking out the cell behind another one.
-/
namespace Toktier.Lib

variable {next prev next' prev' : ℕ → ℕ} {first last n i d p : ℕ} {u v ps : List ℕ}

theorem isChain_and {R S : ℕ → ℕ → Prop} (h : ps.IsChain R) (h' : ps.IsChain S) :
    ps.IsChain fun p q => R p q ∧ S p q :=
  List.isChain_iff_getElem.mpr fun i hi => ⟨h.getElem i hi, h'.getElem i hi⟩

/-- The positions are ascending, each one is linked forth to the following one and back to the
one before; the links past the two ends are `first` and `last`. -/
structure Linked (next prev : ℕ → ℕ) (first last : ℕ) (ps : List ℕ) : Prop where
  sorted : ps.Pairwise (· < ·)
  links : ps.IsChain fun p q => next p = q ∧ prev q = p
  head : ∀ p ∈ ps.head?, prev p = first
  tail : ∀ p ∈ ps.getLast?, next p = last

namespace Linked

theorem nodup (h : Linked next prev first last ps) : ps.Nodup :=
  h.sorted.imp fun h => ne_of_lt h

/-- The forth link of a cell is the following cell, or `last`. -/
theorem next_eq (h : Linked next prev first last (u ++ i :: v)) :
    next i = v.head?.getD last := by
  cases v with
  | nil => exact h.tail i (by simp)
  | cons w v => exact (List.isChain_append_cons_cons.mp h.links).2.1.1

/-- The back link of a cell is the cell before, or `first`. -/
theorem prev_eq (h : Linked next prev first last (u ++ i :: v)) :
    prev i = u.getLast?.getD first := by
  rcases u.eq_nil_or_concat with rfl | ⟨u, w, rfl⟩
  · exact h.head i (by simp)
  · have hlinks := h.links
    rw [List.concat_eq_append, List.append_assoc, List.singleton_append] at hlinks
    have hback := (List.isChain_append_cons_cons.mp hlinks).2.1.2
    simpa using hback

/-- The cells behind the first one are linked. -/
theorem of_cons (h : Linked next prev first last (p :: ps)) :
    ∃ first', Linked next prev first' last ps := by
  cases ps with
  | nil => exact ⟨0, .nil, .nil, by simp, by simp⟩
  | cons q ps =>
    refine ⟨p, (List.pairwise_cons.mp h.sorted).2, h.links.tail, fun w hw => ?_, fun w hw => ?_⟩
    · obtain rfl : q = w := by simpa using hw
      exact (List.isChain_cons_cons.mp h.links).1.2
    · exact h.tail w (by simpa using hw)

/-- All cells of an array, linked in order. -/
theorem range (hn : 0 < n) (hnext : ∀ i, i + 1 < n → next i = i + 1)
    (hprev : ∀ i, i + 1 < n → prev (i + 1) = i) (hfirst : prev 0 = first)
    (hlast : next (n - 1) = last) : Linked next prev first last (List.range n) where
  sorted := List.pairwise_lt_range
  links := by
    rw [List.isChain_iff_getElem]
    intro i hi
    rw [List.length_range] at hi
    rw [List.getElem_range, List.getElem_range]
    exact ⟨hnext i hi, hprev i hi⟩
  head := by
    intro p hp
    obtain ⟨n, rfl⟩ : ∃ m, n = m + 1 := ⟨n - 1, by omega⟩
    rw [List.range_succ_eq_map, List.head?_cons, Option.mem_some_iff] at hp
    subst hp
    exact hfirst
  tail := by
    intro p hp
    obtain ⟨n, rfl⟩ : ∃ m, n = m + 1 := ⟨n - 1, by omega⟩
    rw [List.range_succ, List.getLast?_append, List.getLast?_singleton, Option.or,
      Option.mem_some_iff] at hp
    subst hp
    exact hlast

/-- The cell `d` behind `i` is taken out: `i` is linked to what followed `d`. -/
theorem unlink (h : Linked next prev first last (u ++ i :: d :: v)) (hi : next' i = next d)
    (hnext : ∀ p, p ≠ i → p ≠ d → next' p = next p) (hback : ∀ q ∈ v.head?, prev' q = i)
    (hprev : ∀ p, p ∉ v.head? → p ≠ d → prev' p = prev p) :
    Linked next' prev' first last (u ++ i :: v) := by
  have hnodup := h.nodup
  rw [List.nodup_append, List.nodup_cons, List.nodup_cons] at hnodup
  obtain ⟨-, ⟨hiv, hdv, hv⟩, hdisj⟩ := hnodup
  have hne {p : ℕ} (hp : p ∈ u) : p ≠ i ∧ p ≠ d :=
    ⟨hdisj p hp i List.mem_cons_self, hdisj p hp d (List.mem_cons_of_mem i List.mem_cons_self)⟩
  have hback_ne {p : ℕ} (hp : p ∈ u ++ [i]) : prev' p = prev p := by
    refine hprev p (fun hq => ?_) ?_
    · have hpv := List.mem_of_mem_head? hq
      rcases List.mem_append.mp hp with hp | hp
      · exact hdisj p hp p (List.mem_cons_of_mem i (List.mem_cons_of_mem d hpv)) rfl
      · obtain rfl := List.mem_singleton.mp hp
        exact hiv (List.mem_cons_of_mem d hpv)
    · rcases List.mem_append.mp hp with hp | hp
      · exact (hne hp).2
      · obtain rfl := List.mem_singleton.mp hp
        exact fun hid => hiv (hid ▸ List.mem_cons_self)
  obtain ⟨hfront, -, hrest⟩ := List.isChain_append_cons_cons.mp h.links
  refine ⟨?_, ?_, ?_, ?_⟩
  · exact h.sorted.sublist ((List.Sublist.refl u).append ((List.sublist_cons_self d v).cons_cons i))
  · refine List.isChain_split.mpr ⟨?_, ?_⟩
    · refine hfront.imp_of_mem_imp fun p q hp hq hpq => ?_
      refine ⟨?_, (hback_ne hq).trans hpq.2⟩
      have hpu : p ∈ u ∨ p = i := by simpa using hp
      rcases hpu with hpu | rfl
      · exact (hnext p (hne hpu).1 (hne hpu).2).trans hpq.1
      · -- `i` is the last of these cells, so it has no link among them
        have hlt : q ∈ u ++ [p] → q ≤ p := fun hq => by
          rcases List.mem_append.mp hq with hq | hq
          · exact ((List.pairwise_append.mp h.sorted).2.2 q hq p List.mem_cons_self).le
          · exact (List.mem_singleton.mp hq).le
        have hd : next p = d := (List.isChain_append_cons_cons.mp h.links).2.1.1
        have hpd : p < d :=
          (List.pairwise_cons.mp (List.pairwise_append.mp h.sorted).2.1).1 d List.mem_cons_self
        have := hlt hq
        omega
    · refine List.IsChain.cons ?_ fun q hq => ?_
      · refine hrest.tail.imp_of_mem_tail_imp fun p q hp hq hpq => ?_
        have hpi : p ≠ i := fun he => hiv (List.mem_cons_of_mem d (he ▸ hp))
        have hpd : p ≠ d := fun he => hdv (he ▸ hp)
        have hqd : q ≠ d := fun he => hdv (he ▸ List.mem_of_mem_tail hq)
        refine ⟨(hnext p hpi hpd).trans hpq.1, (hprev q (fun hh => ?_) hqd).trans hpq.2⟩
        -- the first of these cells is not behind another one
        obtain ⟨w, v, rfl⟩ : ∃ w t, v = w :: t := by
          cases v with
          | nil => simp at hp
          | cons w t => exact ⟨w, t, rfl⟩
        rw [List.head?_cons, Option.mem_some_iff] at hh
        subst hh
        exact (List.nodup_cons.mp hv).1 hq
      · exact ⟨hi.trans (hrest.rel_head? hq).1, hback q hq⟩
  · intro p hp
    refine (hback_ne ?_).trans (h.head p ?_)
    · cases u with
      | nil => simpa using hp.symm
      | cons w u => simp only [List.cons_append, List.head?_cons, Option.mem_some_iff] at hp; simp [hp]
    · cases u <;> simpa using hp
  · intro p hp
    cases v with
    | nil =>
      obtain rfl : i = p := by simpa using hp
      exact hi.trans (h.tail d (by simp))
    | cons w v =>
      have hpv : p ∈ (w :: v).getLast? := by simpa using hp
      have hmem := List.mem_of_getLast? hpv
      have hpi : p ≠ i := fun he => hiv (List.mem_cons_of_mem d (he ▸ hmem))
      have hpd : p ≠ d := fun he => hdv (he ▸ hmem)
      exact (hnext p hpi hpd).trans (h.tail p (by simpa using hp))

end Linked

end Toktier.Lib
