import Mathlib.Data.List.Infix
import Mathlib.Order.Basic

/-!
# Canonical equivalence of texts

Every symbol has a decomposition and a combining class. A text is decomposed symbol by symbol,
and then every mark moves in front of the marks of higher class right before it. Two texts are
equivalent when this leaves the same text. The order is the one of an insertion sort that stops
at symbols of class zero, so a common beginning can be cancelled.

A normalizer to a composed form picks one text of each class, and every piece of a text it picks
is picked as well. From this alone it follows when the normal form of a concatenation is the
concatenation of the normal forms.

## Main definitions

* `insertMark`, `decomposed`: canonical ordering, and the decomposition in canonical order.
* `Normalizes`: a normalizer to a composed form.
-/
namespace Toktier.Lib

variable {α : Type*} {ccc : α → ℕ} {decompose : α → List α} {r s t u v x y z : List α} {a b : α}

/-! ## Canonical order -/

/-- Put a symbol in front of an ordered text: behind the marks of lower class it starts with. -/
def insertMark (ccc : α → ℕ) (a : α) : List α → List α
  | [] => [a]
  | b :: t => if 0 < ccc b ∧ ccc b < ccc a then b :: insertMark ccc a t else a :: b :: t

/-- The decomposition of a text, in canonical order. -/
def decomposed (ccc : α → ℕ) (decompose : α → List α) (t : List α) : List α :=
  (t.flatMap decompose).foldr (insertMark ccc) []

@[simp] theorem length_insertMark (a : α) (t : List α) :
    (insertMark ccc a t).length = t.length + 1 := by
  induction t with
  | nil => rfl
  | cons b t ih =>
      unfold insertMark
      split_ifs
      · rw [List.length_cons, ih, List.length_cons]
      · rfl

/-- What was inserted can be taken out again. -/
theorem insertMark_injective (a : α) : Function.Injective (insertMark ccc a) := by
  intro s t h
  have hlen := congrArg List.length h
  rw [length_insertMark, length_insertMark] at hlen
  induction s generalizing t with
  | nil => exact (List.eq_nil_of_length_eq_zero (by simpa using hlen.symm)).symm
  | cons b s ih =>
      obtain ⟨c, t, rfl⟩ := List.exists_cons_of_length_pos (l := t) (by simp at hlen; omega)
      unfold insertMark at h
      split_ifs at h with hb hc hc
      · obtain ⟨rfl, hrest⟩ := List.cons.inj h
        rw [ih hrest (by simpa using hlen)]
      · obtain ⟨rfl, -⟩ := List.cons.inj h
        exact absurd hb.2 (lt_irrefl _)
      · obtain ⟨rfl, -⟩ := List.cons.inj h
        exact absurd hc.2 (lt_irrefl _)
      · exact (List.cons.inj h).2

/-- Marks of different classes pass each other. -/
theorem insertMark_comm (hb : 0 < ccc b) (hlt : ccc b < ccc a) (t : List α) :
    insertMark ccc a (insertMark ccc b t) = insertMark ccc b (insertMark ccc a t) := by
  have hba : ¬(0 < ccc a ∧ ccc a < ccc b) := fun h => absurd h.2 (Nat.lt_asymm hlt)
  induction t with
  | nil => simp [insertMark, hb, hlt, hba]
  | cons c t ih =>
      by_cases hc : 0 < ccc c ∧ ccc c < ccc b
      · have hca : 0 < ccc c ∧ ccc c < ccc a := ⟨hc.1, Nat.lt_trans hc.2 hlt⟩
        rw [insertMark, if_pos hc, insertMark, if_pos hca, insertMark, if_pos hca, insertMark,
          if_pos hc, ih]
      · rw [insertMark, if_neg hc, insertMark, if_pos ⟨hb, hlt⟩]
        by_cases hca : 0 < ccc c ∧ ccc c < ccc a
        · rw [insertMark, if_pos hca, insertMark, if_neg hc]
        · rw [insertMark, if_neg hca, insertMark, if_neg hba]

/-- Ordering the symbols of a text first does not change where they go. -/
theorem foldr_insertMark_insertMark (a : α) (s r : List α) :
    (insertMark ccc a s).foldr (insertMark ccc) r =
      insertMark ccc a (s.foldr (insertMark ccc) r) := by
  induction s with
  | nil => rfl
  | cons b s ih =>
      by_cases hb : 0 < ccc b ∧ ccc b < ccc a
      · rw [insertMark, if_pos hb, List.foldr_cons, ih, ← insertMark_comm hb.1 hb.2, List.foldr_cons]
      · rw [insertMark, if_neg hb, List.foldr_cons]

theorem foldr_insertMark_foldr (s r : List α) :
    (s.foldr (insertMark ccc) []).foldr (insertMark ccc) r = s.foldr (insertMark ccc) r := by
  induction s with
  | nil => rfl
  | cons a s ih => rw [List.foldr_cons, foldr_insertMark_insertMark, ih, List.foldr_cons]

theorem foldr_insertMark_injective (s : List α) :
    Function.Injective fun r => s.foldr (insertMark ccc) r := by
  induction s with
  | nil => exact fun _ _ h => h
  | cons a s ih => exact fun _ _ h => ih (insertMark_injective a h)

/-! ## Equivalence -/

theorem decomposed_append (s t : List α) : decomposed ccc decompose (s ++ t) =
    (s.flatMap decompose).foldr (insertMark ccc) (decomposed ccc decompose t) := by
  rw [decomposed, List.flatMap_append, List.foldr_append, decomposed]

/-- Equivalence is a congruence. -/
theorem decomposed_append_congr (hs : decomposed ccc decompose s = decomposed ccc decompose u)
    (ht : decomposed ccc decompose t = decomposed ccc decompose v) :
    decomposed ccc decompose (s ++ t) = decomposed ccc decompose (u ++ v) := by
  rw [decomposed_append, decomposed_append, ht, ← foldr_insertMark_foldr,
    ← foldr_insertMark_foldr (u.flatMap decompose)]
  exact congrArg (fun r => r.foldr (insertMark ccc) (decomposed ccc decompose v)) hs

/-- A common beginning cancels. -/
theorem decomposed_append_cancel
    (h : decomposed ccc decompose (s ++ t) = decomposed ccc decompose (s ++ u)) :
    decomposed ccc decompose t = decomposed ccc decompose u := by
  rw [decomposed_append, decomposed_append] at h
  exact foldr_insertMark_injective _ h

theorem length_foldr_insertMark (s r : List α) :
    (s.foldr (insertMark ccc) r).length = s.length + r.length := by
  induction s with
  | nil => simp
  | cons a s ih =>
      rw [List.foldr_cons, length_insertMark, ih, List.length_cons]
      omega

/-- Only the empty text is equivalent to the empty text. -/
theorem decomposed_eq_nil (hne : ∀ c, decompose c ≠ []) :
    decomposed ccc decompose t = [] ↔ t = [] := by
  rw [← List.length_eq_zero_iff, decomposed, length_foldr_insertMark, List.length_nil, Nat.add_zero,
    List.length_eq_zero_iff, List.flatMap_eq_nil_iff]
  constructor
  · intro h
    exact List.eq_nil_iff_forall_not_mem.mpr fun c hc => hne c (h c hc)
  · rintro rfl c hc
    cases hc

/-! ## Normal forms -/

/-- What a cut behind `x` leaves is cut where the whole text is. -/
theorem rest_of_cuts {N : List α → List α} (hx : N (x ++ y ++ z) = N x ++ N (y ++ z))
    (hy : N (x ++ y ++ z) = N (x ++ y) ++ N z) (hxy : N (x ++ y) = N x ++ N y) :
    N (y ++ z) = N y ++ N z := by
  rw [hx, hxy, List.append_assoc] at hy
  exact List.append_cancel_left hy

/-- A normalizer to a composed form: it picks one text of each class of equivalent texts, and
every piece of a text it picks is picked. -/
structure Normalizes (ccc : α → ℕ) (decompose : α → List α) (N : List α → List α) : Prop where
  /-- No symbol decomposes to nothing. -/
  decompose_ne_nil : ∀ c, decompose c ≠ []
  equivalent : ∀ t, decomposed ccc decompose (N t) = decomposed ccc decompose t
  congr : ∀ s t, decomposed ccc decompose s = decomposed ccc decompose t → N s = N t
  piece : ∀ w t, w <:+: N t → N w = w

namespace Normalizes

variable {N : List α → List α} (hN : Normalizes ccc decompose N)
include hN

theorem eq_nil (h : N t = []) : t = [] := by
  have hequiv := hN.equivalent t
  rw [h] at hequiv
  exact (decomposed_eq_nil hN.decompose_ne_nil).mp hequiv.symm

/-- Normalizing the parts first does not change the normal form. -/
theorem append (x y : List α) : N (N x ++ N y) = N (x ++ y) :=
  hN.congr _ _ (decomposed_append_congr (hN.equivalent x) (hN.equivalent y))

/-- Two parts whose normal forms stand side by side in some normal form meet there. -/
theorem append_of_piece (h : N x ++ N y <:+: N t) : N (x ++ y) = N x ++ N y := by
  rw [← hN.append, hN.piece _ t h]

/-- If a text can be cut behind `x`, and its rest behind `y`, then `x ++ y` can be cut. -/
theorem cut_of_rest (hx : N (x ++ y ++ z) = N x ++ N (y ++ z)) (hy : N (y ++ z) = N y ++ N z) :
    N (x ++ y) = N x ++ N y := by
  refine hN.append_of_piece (t := x ++ y ++ z) ⟨[], N z, ?_⟩
  rw [hx, hy, List.nil_append, List.append_assoc]

/-- If a text can be cut behind `x` and behind `x ++ y`, then `x ++ y` can be cut. -/
theorem cut_of_whole (hx : N (x ++ y ++ z) = N x ++ N (y ++ z))
    (hy : N (x ++ y ++ z) = N (x ++ y) ++ N z) (hne : y ≠ []) : N (x ++ y) = N x ++ N y := by
  have hx' : N x <+: N (x ++ y ++ z) := ⟨_, hx.symm⟩
  have hy' : N (x ++ y) <+: N (x ++ y ++ z) := ⟨_, hy.symm⟩
  rcases List.prefix_or_prefix_of_prefix hx' hy' with ⟨w, hw⟩ | ⟨v, hv⟩
  · -- what follows the normal form of `x` is a normal text equivalent to `y`
    have hcancel : decomposed ccc decompose w = decomposed ccc decompose y := by
      refine decomposed_append_cancel (s := x) ?_
      rw [← hN.equivalent (x ++ y), ← hw]
      exact decomposed_append_congr (hN.equivalent x).symm rfl
    rw [← hw, ← hN.piece w (x ++ y) ⟨N x, [], by rw [List.append_nil, hw]⟩,
      hN.congr w y hcancel]
  · -- the normal form of `x` would hold that of `x ++ y` and more
    have hcancel : decomposed ccc decompose (y ++ v) = decomposed ccc decompose [] := by
      refine decomposed_append_cancel (s := x) ?_
      rw [List.append_nil, ← hN.equivalent x, ← hv, ← List.append_assoc]
      exact decomposed_append_congr (hN.equivalent (x ++ y)).symm rfl
    have hnil := (decomposed_eq_nil hN.decompose_ne_nil).mp (hcancel.trans rfl)
    exact absurd (List.append_eq_nil_iff.mp hnil).1 hne

end Normalizes

end Toktier.Lib
