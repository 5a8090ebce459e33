import Mathlib.Data.List.Infix

/-!
# Occurrences of words in a text

A word occurs at a position of a text when the text goes on with it there. A position is
inside a set of words when it lies strictly within an occurrence of one of them, so that
cutting the text there would cut the occurrence. Occurrences of a piece of a text are
occurrences of the text, and an occurrence of the text that fits into a piece is one of the
piece.

## Main definitions

* `OccursAt w t a`: the word `w` occurs in `t` at position `a`.
* `Inside words t p`: position `p` cuts an occurrence of one of the words.
* `Touches words t low high`: an occurrence of one of the words meets the span.
-/
namespace Toktier.Lib

variable {α : Type*} {w t : List α} {words : List (List α)} {a n p : ℕ}

/-- `t` goes on with `w` at position `a`. -/
def OccursAt (w t : List α) (a : ℕ) : Prop := w <+: t.drop a

instance [DecidableEq α] (w t : List α) (a : ℕ) : Decidable (OccursAt w t a) := by
  unfold OccursAt
  infer_instance

/-- Position `p` lies strictly within an occurrence of one of the words. -/
def Inside (words : List (List α)) (t : List α) (p : ℕ) : Prop :=
  ∃ w ∈ words, ∃ a, OccursAt w t a ∧ a < p ∧ p < a + w.length

/-- An occurrence of one of the words meets the span `[low, high)`. -/
def Touches (words : List (List α)) (t : List α) (low high : ℕ) : Prop :=
  ∃ w ∈ words, w ≠ [] ∧ ∃ a, OccursAt w t a ∧ a < high ∧ low < a + w.length

/-- What is strictly within an occurrence is the empty span that it meets. -/
theorem inside_iff_touches : Inside words t p ↔ Touches words t p p := by
  constructor
  · rintro ⟨w, hw, a, hocc, ha, hp⟩
    refine ⟨w, hw, ?_, a, hocc, ha, hp⟩
    rintro rfl
    rw [List.length_nil] at hp
    omega
  · rintro ⟨w, hw, -, a, hocc, ha, hp⟩
    exact ⟨w, hw, a, hocc, ha, hp⟩

/-- An occurrence ends within the text, unless it is of the empty word. -/
theorem OccursAt.le_length (h : OccursAt w t a) (hw : w ≠ []) : a + w.length ≤ t.length := by
  have hle := h.length_le
  have hpos := List.length_pos_iff.mpr hw
  rw [List.length_drop] at hle
  omega

theorem occursAt_iff_take (h : a + w.length ≤ n) : OccursAt w (t.take n) a ↔ OccursAt w t a := by
  unfold OccursAt
  rw [List.drop_take]
  constructor
  · exact fun hw => hw.trans (List.take_prefix _ _)
  · intro hw
    rw [List.prefix_take_iff]
    exact ⟨hw, by omega⟩

/-- An occurrence of an initial piece is one of the text. -/
theorem OccursAt.of_take (h : OccursAt w (t.take n) a) : OccursAt w t a := by
  unfold OccursAt at h ⊢
  rw [List.drop_take] at h
  exact h.trans (List.take_prefix _ _)

theorem occursAt_drop : OccursAt w (t.drop n) a ↔ OccursAt w t (n + a) := by
  unfold OccursAt
  rw [List.drop_drop]

theorem Inside.of_take (h : Inside words (t.take n) p) : Inside words t p := by
  obtain ⟨w, hw, a, hocc, ha, hp⟩ := h
  exact ⟨w, hw, a, hocc.of_take, ha, hp⟩

theorem Inside.of_drop (h : Inside words (t.drop n) p) : Inside words t (n + p) := by
  obtain ⟨w, hw, a, hocc, ha, hp⟩ := h
  exact ⟨w, hw, n + a, occursAt_drop.mp hocc, by omega, by omega⟩

/-- What is inside a word of a prefix is inside it in the whole text. -/
theorem Inside.append_right {r : List α} (h : Inside words t p) : Inside words (t ++ r) p := by
  obtain ⟨w, hw, a, hocc, ha, hp⟩ := h
  refine ⟨w, hw, a, ?_, ha, hp⟩
  have hne : w ≠ [] := by
    rintro rfl
    rw [List.length_nil] at hp
    omega
  have hle := hocc.le_length hne
  unfold OccursAt at hocc ⊢
  rw [List.drop_append_of_le_length (by omega)]
  exact hocc.trans (List.prefix_append _ _)

end Toktier.Lib
