import Mathlib.Data.List.Chain
import Mathlib.Logic.Relation
import Mathlib.Tactic.Common

/-!
# Merging adjacent pairs by rank

Rules that replace two adjacent symbols by one, each with a rank of its own. The run that
merges the leftmost pair of the lowest rank, one at a time, has one outcome. A round that
merges every leftmost non-overlapping occurrence of a pair does not change that outcome when
no rule of a lower rank uses the symbol it makes.

## Main definitions

* `PairRules`, `MergeStep`, `Merged`: the rules, one merge, a whole run.
* `mergeAll`, `mergeFirst`: the two kinds of round.

## Main results

* `Merged.unique`: a run has one outcome.
* `merged_mergeAll`: a round of `mergeAll` keeps the outcome.
-/
namespace Toktier.Lib

open Relation

/-- Rules that replace an adjacent pair by one symbol; a rank belongs to one pair. -/
structure PairRules (α : Type*) where
  rule : α → α → Option (ℕ × α)
  rank_inj : ∀ {a b c d : α} {r : ℕ} {z w : α},
    rule a b = some (r, z) → rule c d = some (r, w) → a = c ∧ b = d

namespace PairRules

variable {α : Type*} (R : PairRules α) {r : ℕ} {a b z : α} {l l' u v out : List α}

/-- No adjacent pair of `l` has a rank below `r`. -/
def AllGe (r : ℕ) (l : List α) : Prop := l.IsChain fun x y => ∀ p ∈ R.rule x y, r ≤ p.1

/-- No adjacent pair of `l` merges. -/
def Irreducible (l : List α) : Prop := l.IsChain fun x y => R.rule x y = none

/-- Merge the leftmost of the pairs of the lowest rank. -/
inductive MergeStep : List α → List α → Prop
  | merge {u v : List α} {a b z : α} {r : ℕ} (rule : R.rule a b = some (r, z))
      (lowest : R.AllGe r (u ++ a :: b :: v))
      (leftmost : (u ++ [a]).IsChain fun x y => ¬(x = a ∧ y = b)) :
      MergeStep (u ++ a :: b :: v) (u ++ z :: v)

/-- Merging `l` one pair at a time, until no pair merges, gives `out`. -/
def Merged (l out : List α) : Prop := ReflTransGen R.MergeStep l out ∧ R.Irreducible out

/-- No rule of a rank below `r` uses `z`. -/
def Safe (r : ℕ) (z : α) : Prop := ∀ y, ∀ p, p ∈ R.rule z y ∨ p ∈ R.rule y z → r ≤ p.1

variable {R}

/-! ### One outcome -/

theorem AllGe.le (h : R.AllGe r (u ++ a :: b :: v)) {p : ℕ × α} (hp : p ∈ R.rule a b) :
    r ≤ p.1 :=
  (List.isChain_append_cons_cons.mp h).2.1 p hp

/-- A pair met before the leftmost occurrence is not that pair. -/
theorem leftmost_length_le {u' v' : List α}
    (leftmost : (u ++ [a]).IsChain fun x y => ¬(x = a ∧ y = b))
    (h : u ++ a :: b :: v = u' ++ a :: b :: v') : u.length ≤ u'.length := by
  by_contra hlt
  rw [Nat.not_le] at hlt
  obtain ⟨w, rfl⟩ : u' <+: u :=
    List.prefix_of_prefix_length_le (List.prefix_append u' _)
      (h ▸ List.prefix_append u _) (Nat.le_of_lt hlt)
  rw [List.append_assoc, List.append_cancel_left_eq] at h
  rcases w with - | ⟨x, - | ⟨y, w⟩⟩
  · simp at hlt
  · obtain ⟨rfl, rfl, -⟩ : x = a ∧ a = b ∧ _ := by simpa using h
    rw [List.append_assoc] at leftmost
    exact (List.isChain_append_cons_cons.mp leftmost).2.1 ⟨rfl, rfl⟩
  · obtain ⟨rfl, rfl, -⟩ : x = a ∧ y = b ∧ _ := by simpa using h
    rw [List.append_assoc] at leftmost
    exact (List.isChain_append_cons_cons.mp leftmost).2.1 ⟨rfl, rfl⟩

theorem MergeStep.deterministic {l₁ l₂ : List α} (h₁ : R.MergeStep l l₁)
    (h₂ : R.MergeStep l l₂) : l₁ = l₂ := by
  cases h₁ with
  | @merge u v a b z r rule lowest leftmost =>
    generalize hl : u ++ a :: b :: v = l at h₂
    cases h₂ with
    | @merge u' v' a' b' z' r' rule' lowest' leftmost' =>
      -- each pair stands in the list of the other, so the ranks agree
      obtain rfl : r = r' :=
        Nat.le_antisymm ((hl ▸ lowest).le rule') ((hl.symm ▸ lowest').le rule)
      obtain ⟨rfl, rfl⟩ := R.rank_inj rule rule'
      obtain rfl : z = z' := by
        rw [rule] at rule'
        exact (Prod.mk.inj (Option.some.inj rule')).2
      have hlen : u.length = u'.length :=
        Nat.le_antisymm (leftmost_length_le leftmost hl) (leftmost_length_le leftmost' hl.symm)
      obtain ⟨rfl, hv⟩ := List.append_inj hl hlen
      obtain rfl : v = v' := by simpa using hv
      rfl

theorem Irreducible.not_step (h : R.Irreducible l) : ¬R.MergeStep l l' := by
  rintro ⟨rule, -, -⟩
  simp [(List.isChain_append_cons_cons.mp h).2.1] at rule

/-- A run that starts with a step goes on from where that step leads. -/
theorem Merged.of_step (hs : R.MergeStep l l') (h : R.Merged l out) : R.Merged l' out := by
  refine ⟨?_, h.2⟩
  rcases h.1.cases_head with rfl | ⟨m, hm, hrest⟩
  · exact absurd hs h.2.not_step
  · rwa [hs.deterministic hm]

theorem Merged.step (hs : R.MergeStep l l') (h : R.Merged l' out) : R.Merged l out :=
  ⟨h.1.head hs, h.2⟩

theorem merged_congr (h : ReflTransGen R.MergeStep l l') :
    R.Merged l out ↔ R.Merged l' out := by
  induction h with
  | refl => rfl
  | tail _ hs ih => exact ih.trans ⟨Merged.of_step hs, Merged.step hs⟩

theorem Irreducible.merged_iff (h : R.Irreducible l) : R.Merged l out ↔ out = l := by
  refine ⟨fun ho => ?_, fun ho => by subst ho; exact ⟨.refl, h⟩⟩
  rcases ho.1.cases_head with rfl | ⟨m, hm, -⟩
  · rfl
  · exact absurd hm h.not_step

/-- A run has one outcome. -/
theorem Merged.unique {out' : List α} (h : R.Merged l out) (h' : R.Merged l out') :
    out = out' :=
  (h'.2.merged_iff.mp ((merged_congr h'.1).mp h))

/-! ### The two rounds -/

variable [DecidableEq α]

/-- Merge every leftmost non-overlapping occurrence of `a b` into `z`. -/
def mergeAll (a b z : α) : List α → List α
  | x :: y :: l => if x = a ∧ y = b then z :: mergeAll a b z l else x :: mergeAll a b z (y :: l)
  | l => l

/-- Merge the leftmost occurrence of `a b` into `z`. -/
def mergeFirst (a b z : α) : List α → List α
  | x :: y :: l => if x = a ∧ y = b then z :: l else x :: mergeFirst a b z (y :: l)
  | l => l

/-- Put `c` on the stack `s`, merging `a b` into `z` for as long as it is on top. -/
def absorb (a b z : α) : List α → α → List α
  | x :: s, c => if x = a ∧ c = b then absorb a b z s z else c :: x :: s
  | [], c => [c]

/-! ### Merging with a stack -/

theorem absorb_of_ne {s : List α} {c : α} (h : c ≠ b ∨ s.head? ≠ some a) :
    absorb a b z s c = c :: s := by
  cases s with
  | nil => rfl
  | cons x s =>
    rw [absorb, if_neg]
    rintro ⟨rfl, rfl⟩
    simp at h

theorem absorb_absorb_self (a : α) (s : List α) :
    absorb a a a (absorb a a a s a) a = absorb a a a s a := by
  induction s with
  | nil => simp [absorb]
  | cons x s ih =>
    rw [absorb]
    split_ifs with h
    · exact ih
    · rw [absorb, if_pos ⟨rfl, rfl⟩, absorb_of_ne (.inr fun hx => h ⟨by simpa using hx, rfl⟩)]

/-- A round leads the stack where the list itself does. When the pair is one symbol twice and
`z` another, an occurrence must not start on the stack. -/
theorem foldl_absorb_mergeAll {s : List α}
    (hst : a = b → z ≠ a → s.head? = some a → l.head? ≠ some a) :
    (mergeAll a b z l).foldl (absorb a b z) s = l.foldl (absorb a b z) s := by
  fun_induction mergeAll a b z l generalizing s with
  | case1 x y l h ih =>
    obtain ⟨rfl, rfl⟩ := h
    have hpair : absorb x y z (absorb x y z s x) y = absorb x y z s z := by
      by_cases hxy : x = y
      · subst hxy
        by_cases hz : z = x
        · rw [hz]
          exact absorb_absorb_self x s
        · rw [absorb_of_ne (.inr fun h => hst rfl hz h rfl), absorb, if_pos ⟨rfl, rfl⟩]
      · rw [absorb_of_ne (.inl hxy), absorb, if_pos ⟨rfl, rfl⟩]
    rw [List.foldl_cons, List.foldl_cons, List.foldl_cons, hpair]
    refine ih fun hxy hz htop => ?_
    rw [absorb_of_ne (.inl (hxy ▸ hz))] at htop
    exact absurd (Option.some.inj htop) hz
  | case2 x y l h ih =>
    rw [List.foldl_cons, List.foldl_cons]
    refine ih fun hab hz htop hy => ?_
    by_cases hx : x = a
    · exact h ⟨hx, hab ▸ Option.some.inj hy⟩
    · rw [absorb_of_ne (.inl (hab ▸ hx))] at htop
      exact hx (Option.some.inj htop)
  | case3 l h => rfl

omit [DecidableEq α] in
theorem AllGe.merge (safe : R.Safe r z) (h : R.AllGe r (u ++ a :: b :: v)) :
    R.AllGe r (u ++ z :: v) := by
  obtain ⟨hu, -, hv⟩ := List.isChain_append_cons_cons.mp h
  refine List.isChain_split.mpr ⟨?_, ?_⟩
  · refine hu.left_of_append.append (.singleton z) fun x _ y hy p hp => ?_
    obtain rfl : z = y := by simpa using hy
    exact safe x p (.inr hp)
  · exact hv.tail.cons fun y _ p hp => safe y p (.inl hp)

/-- The reversed stack and what is left of the list are what the merges have reached. -/
theorem absorb_steps (rule : R.rule a b = some (r, z)) (safe : R.Safe r z) {s : List α}
    {c : α} (hge : R.AllGe r (s.reverse ++ c :: l))
    (hst : s.reverse.IsChain fun x y => ¬(x = a ∧ y = b)) :
    ReflTransGen R.MergeStep (s.reverse ++ c :: l) ((absorb a b z s c).reverse ++ l) ∧
      R.AllGe r ((absorb a b z s c).reverse ++ l) ∧
      (absorb a b z s c).reverse.IsChain fun x y => ¬(x = a ∧ y = b) := by
  induction s generalizing c with
  | nil => exact ⟨.refl, hge, .singleton c⟩
  | cons x s ih =>
    rw [absorb]
    rw [List.reverse_cons] at hst
    split_ifs with h
    · obtain ⟨rfl, rfl⟩ := h
      rw [List.reverse_cons, List.append_assoc, List.singleton_append] at hge ⊢
      obtain ⟨hs, hrest⟩ := ih (hge.merge safe) hst.left_of_append
      exact ⟨hs.head ⟨rule, hge, hst⟩, hrest⟩
    · rw [List.reverse_cons (a := c), List.reverse_cons, List.append_assoc _ [c],
        List.singleton_append]
      rw [List.reverse_cons] at hge
      refine ⟨.refl, hge, ?_⟩
      refine hst.append (.singleton c) fun y hy w hw => ?_
      obtain rfl : x = y := by simpa using hy
      obtain rfl : c = w := by simpa using hw
      exact h

/-- Merging one pair of rank `r` after another is a run of the stack. -/
theorem foldl_absorb_steps (rule : R.rule a b = some (r, z)) (safe : R.Safe r z) {s : List α}
    (hge : R.AllGe r (s.reverse ++ l))
    (hst : s.reverse.IsChain fun x y => ¬(x = a ∧ y = b)) :
    ReflTransGen R.MergeStep (s.reverse ++ l) (l.foldl (absorb a b z) s).reverse := by
  induction l generalizing s with
  | nil =>
    rw [List.append_nil]
    exact .refl
  | cons c l ih =>
    obtain ⟨hs, hge', hst'⟩ := absorb_steps rule safe hge hst
    exact hs.trans (ih hge' hst')

theorem AllGe.mergeAll (safe : R.Safe r z) (h : R.AllGe r (u ++ l)) :
    R.AllGe r (u ++ PairRules.mergeAll a b z l) := by
  fun_induction PairRules.mergeAll a b z l generalizing u with
  | case1 x y l hxy ih =>
    have := ih (u := u ++ [z]) (by simpa using h.merge safe)
    simpa using this
  | case2 x y l hxy ih =>
    have := ih (u := u ++ [x]) (by simpa using h)
    simpa using this
  | case3 l hl => exact h

/-- **A round that merges every leftmost non-overlapping occurrence of a pair of the lowest
rank keeps the outcome**, when no rule of a lower rank uses the symbol it makes. -/
theorem merged_mergeAll (rule : R.rule a b = some (r, z)) (safe : R.Safe r z)
    (hge : R.AllGe r l) : R.Merged (mergeAll a b z l) out ↔ R.Merged l out := by
  have hl := foldl_absorb_steps (s := []) rule safe hge .nil
  have hm := foldl_absorb_steps (s := []) rule safe
    (hge.mergeAll (u := []) (a := a) (b := b) safe) .nil
  rw [foldl_absorb_mergeAll fun _ _ h => by simp at h] at hm
  exact (merged_congr hm).trans (merged_congr hl).symm

theorem mergeFirst_append (leftmost : (u ++ [a]).IsChain fun x y => ¬(x = a ∧ y = b)) :
    mergeFirst a b z (u ++ a :: b :: v) = u ++ z :: v := by
  induction u with
  | nil => simp [mergeFirst]
  | cons x u ih =>
    rw [List.cons_append, List.isChain_cons] at leftmost
    obtain ⟨hx, hu⟩ := leftmost
    cases u with
    | nil =>
      rw [List.cons_append, List.nil_append, mergeFirst, if_neg (hx a (by simp))]
      exact congrArg _ (ih hu)
    | cons y u =>
      rw [List.cons_append, List.cons_append, mergeFirst, if_neg (hx y (by simp))]
      exact congrArg _ (ih hu)

/-- A list that holds a pair has a leftmost occurrence of it. -/
theorem exists_leftmost (hmem : ¬l.IsChain fun x y => ¬(x = a ∧ y = b)) :
    ∃ u v, l = u ++ a :: b :: v ∧ (u ++ [a]).IsChain fun x y => ¬(x = a ∧ y = b) := by
  induction l with
  | nil => exact absurd .nil hmem
  | cons x l ih =>
    cases l with
    | nil => exact absurd (.singleton x) hmem
    | cons y l =>
      by_cases hxy : x = a ∧ y = b
      · obtain ⟨rfl, rfl⟩ := hxy
        exact ⟨[], l, rfl, .singleton x⟩
      · obtain ⟨u, v, heq, hu⟩ := ih fun h => hmem (h.cons_cons hxy)
        refine ⟨x :: u, v, by rw [heq, List.cons_append], hu.cons fun w hw => ?_⟩
        have hy : (u ++ [a]).head? = some y := by
          have := congrArg List.head? heq
          cases u <;> simpa using this.symm
        rw [hy, Option.mem_some_iff] at hw
        exact hw ▸ hxy

/-- A round that merges the leftmost occurrence of a pair of the lowest rank is one step. -/
theorem merged_mergeFirst (rule : R.rule a b = some (r, z)) (hge : R.AllGe r l)
    (hmem : ¬l.IsChain fun x y => ¬(x = a ∧ y = b)) :
    R.Merged (mergeFirst a b z l) out ↔ R.Merged l out := by
  obtain ⟨u, v, rfl, hu⟩ := exists_leftmost hmem
  rw [mergeFirst_append hu]
  exact (merged_congr (.single ⟨rule, hge, hu⟩)).symm

/-! ### A round shortens the list -/

theorem length_mergeFirst_lt (hmem : ¬l.IsChain fun x y => ¬(x = a ∧ y = b)) :
    (mergeFirst a b z l).length < l.length := by
  obtain ⟨u, v, rfl, hu⟩ := exists_leftmost hmem
  rw [mergeFirst_append hu]
  simp

theorem length_mergeAll_le (a b z : α) (l : List α) : (mergeAll a b z l).length ≤ l.length := by
  fun_induction mergeAll a b z l with
  | case1 x y l h ih => exact Nat.succ_le_succ (Nat.le_succ_of_le ih)
  | case2 x y l h ih => exact Nat.succ_le_succ ih
  | case3 l h => exact Nat.le_refl _

theorem length_mergeAll_lt (hmem : ¬l.IsChain fun x y => ¬(x = a ∧ y = b)) :
    (mergeAll a b z l).length < l.length := by
  fun_induction mergeAll a b z l with
  | case1 x y l h ih => exact Nat.succ_lt_succ (Nat.lt_succ_of_le (length_mergeAll_le a b z l))
  | case2 x y l h ih => exact Nat.succ_lt_succ (ih fun hc => hmem (hc.cons_cons h))
  | case3 l h =>
    rcases l with - | ⟨x, - | ⟨y, l⟩⟩
    · exact absurd .nil hmem
    · exact absurd (.singleton x) hmem
    · exact absurd rfl (h x y l)

end PairRules

end Toktier.Lib
