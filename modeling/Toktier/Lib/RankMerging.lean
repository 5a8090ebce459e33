import Toktier.Lib.PairMerging

/-!
# Merging the first pair of the lowest rank

Rules that replace two adjacent symbols by one, where several pairs may share a rank. Of the
pairs of the lowest rank the leftmost one merges, whichever pairs they are. Every list has one
outcome, and a function that computes it. When a rank belongs to one pair, this is the run of
`PairRules`.

## Main definitions

* `firstMerge`, `merge`: one merge, and merging until no pair merges.
* `MergeStep`, `Merged`: the same as relations.

## Main results

* `firstMerge_eq_some`: the function takes the steps of the relation.
* `merged_iff`: a list has one outcome, the one that `merge` computes.
* `merged_pairRules`: with a rank for each pair, this is `PairRules.Merged`.
-/
namespace Toktier.Lib

open Relation

namespace RankMerging

variable {α : Type*} (rule : α → α → Option (ℕ × α)) {l l' out u v : List α} {a b z : α} {r s : ℕ}

/-- No adjacent pair of `l` merges. -/
def Irreducible (l : List α) : Prop := l.IsChain fun x y => rule x y = none

/-- The pair with the rank `r` merges: the pairs before it have higher ranks, the ones behind it
no lower ones. -/
inductive MergeStep (r : ℕ) : List α → List α → Prop
  | merge {u v : List α} {a b z : α} (hit : rule a b = some (r, z))
      (before : (u ++ [a]).IsChain fun x y => ∀ p ∈ rule x y, r < p.1)
      (behind : (b :: v).IsChain fun x y => ∀ p ∈ rule x y, r ≤ p.1) :
      MergeStep r (u ++ a :: b :: v) (u ++ z :: v)

/-- Merging `l` one pair at a time, until no pair merges, gives `out`. -/
def Merged (l out : List α) : Prop :=
  ReflTransGen (fun l l' => ∃ r, MergeStep rule r l l') l out ∧ Irreducible rule out

/-- The lowest rank of a pair of `l`, and `l` with the first such pair merged. -/
def firstMerge : List α → Option (ℕ × List α)
  | x :: y :: l =>
    match rule x y, firstMerge (y :: l) with
    | some (r, z), some (s, l') => if r ≤ s then some (r, z :: l) else some (s, x :: l')
    | some (r, z), none => some (r, z :: l)
    | none, some (s, l') => some (s, x :: l')
    | none, none => none
  | _ => none

/-- Merge at most `fuel` pairs. -/
def mergeFuel : ℕ → List α → List α
  | 0, l => l
  | fuel + 1, l =>
    match firstMerge rule l with
    | none => l
    | some (_, l') => mergeFuel fuel l'

/-- Merge until no pair merges. -/
def merge (l : List α) : List α := mergeFuel rule l.length l

variable {rule}

/-! ### One merge -/

theorem firstMerge_eq_none : firstMerge rule l = none ↔ Irreducible rule l := by
  fun_induction firstMerge rule l with
  | case1 x y l r z s l' hrest hxy hle ih => simp [Irreducible, hxy]
  | case2 x y l r z s l' hrest hxy hle ih => simp [Irreducible, hxy]
  | case3 x y l r z hrest hxy ih => simp [Irreducible, hxy]
  | case4 x y l s l' hrest hxy ih =>
    simp only [reduceCtorEq, false_iff]
    intro h
    exact absurd (ih.mpr (List.isChain_cons_cons.mp h).2) (by simp [hrest])
  | case5 x y l hrest hxy ih => simpa [Irreducible, hxy] using ih.mp hrest
  | case6 l h =>
    simp only [true_iff]
    rcases l with - | ⟨x, - | ⟨y, l⟩⟩
    · exact .nil
    · exact .singleton x
    · exact absurd rfl (h x y l)

/-- The pair that merges is in front, or behind the first symbol. -/
theorem firstMerge_induction {P : ℕ → List α → List α → Prop}
    (front : ∀ x y l r z, rule x y = some (r, z) →
      (∀ s l', firstMerge rule (y :: l) = some (s, l') → r ≤ s ∧ P s (y :: l) l') →
      P r (x :: y :: l) (z :: l))
    (behind : ∀ x y l s l', (∀ p ∈ rule x y, s < p.1) → firstMerge rule (y :: l) = some (s, l') →
      P s (y :: l) l' → P s (x :: y :: l) (x :: l'))
    (h : firstMerge rule l = some (r, l')) : P r l l' := by
  fun_induction firstMerge rule l generalizing r l' with
  | case1 x y l r' z s l'' hrest hxy hle ih =>
    cases h
    refine front x y l r' z hxy fun s' m hm => ?_
    rw [hrest] at hm
    cases hm
    exact ⟨hle, ih hrest⟩
  | case2 x y l r' z s l'' hrest hxy hle ih =>
    cases h
    refine behind x y l s l'' (fun p hp => ?_) hrest (ih hrest)
    rw [hxy] at hp
    obtain rfl := Option.some.inj hp
    exact not_le.mp hle
  | case3 x y l r' z hrest hxy ih =>
    cases h
    refine front x y l r' z hxy fun s m hm => ?_
    rw [hrest] at hm
    cases hm
  | case4 x y l s l'' hrest hxy ih =>
    cases h
    exact behind x y l s l'' (fun p hp => by simp [hxy] at hp) hrest (ih hrest)
  | case5 => cases h
  | case6 => cases h

/-- The rank of the pair that merges is the rank of a pair. -/
theorem exists_of_firstMerge {R : α → α → Prop} (h : firstMerge rule l = some (r, l'))
    (hl : l.IsChain R) : ∃ x y z, R x y ∧ rule x y = some (r, z) := by
  revert hl
  refine firstMerge_induction (P := fun r l _ => l.IsChain R → ∃ x y z, R x y ∧
    rule x y = some (r, z)) (fun x y l r z hxy _ hl => ?_) (fun x y l s l' _ _ ih hl => ?_) h
  · exact ⟨x, y, z, (List.isChain_cons_cons.mp hl).1, hxy⟩
  · exact ih (List.isChain_cons_cons.mp hl).2

theorem le_of_firstMerge (h : firstMerge rule l = some (r, l'))
    (hl : l.IsChain fun x y => ∀ p ∈ rule x y, s ≤ p.1) : s ≤ r := by
  obtain ⟨x, y, z, hxy, hrule⟩ := exists_of_firstMerge h hl
  exact hxy (r, z) hrule

/-- No pair has a rank below a bound on the rank that merges. -/
theorem isChain_of_forall (h : ∀ s l', firstMerge rule l = some (s, l') →
      r ≤ s ∧ l.IsChain fun x y => ∀ p ∈ rule x y, s ≤ p.1) :
    l.IsChain fun x y => ∀ p ∈ rule x y, r ≤ p.1 := by
  cases hfirst : firstMerge rule l with
  | none => exact (firstMerge_eq_none.mp hfirst).imp fun _ _ hw p hp => by simp [hw] at hp
  | some next =>
    obtain ⟨hle, hchain⟩ := h next.1 next.2 hfirst
    exact hchain.imp fun _ _ hw p hp => hle.trans (hw p hp)

/-- Every pair has at least the rank of the one that merges. -/
theorem isChain_of_firstMerge (h : firstMerge rule l = some (r, l')) :
    l.IsChain fun x y => ∀ p ∈ rule x y, r ≤ p.1 := by
  refine firstMerge_induction (P := fun r l _ => l.IsChain fun x y => ∀ p ∈ rule x y, r ≤ p.1)
    (fun x y l r z hxy hrest => ?_) (fun x y l s l' hlt _ ih => ?_) h
  · refine List.isChain_cons_cons.mpr ⟨fun p hp => ?_, isChain_of_forall hrest⟩
    rw [hxy] at hp
    obtain rfl := Option.some.inj hp
    exact le_rfl
  · exact List.isChain_cons_cons.mpr ⟨fun p hp => (hlt p hp).le, ih⟩

theorem mergeStep_of_firstMerge (h : firstMerge rule l = some (r, l')) :
    MergeStep rule r l l' := by
  refine firstMerge_induction (P := MergeStep rule) (fun x y l r z hxy hrest => ?_)
    (fun x y l s l' hlt hrest ih => ?_) h
  · refine .merge (u := []) hxy (.singleton x) (isChain_of_forall fun s l' hfirst => ?_)
    exact ⟨(hrest s l' hfirst).1, isChain_of_firstMerge hfirst⟩
  · generalize hy : y :: l = m at ih
    cases ih with
    | @merge u v a b w hit before behind =>
      refine .merge (u := x :: u) hit (before.cons fun y' hy' => ?_) behind
      have hhead : some y = some y' := by
        rw [← hy', ← List.head?_cons (a := y) (l := l), hy]
        cases u <;> simp
      obtain rfl := Option.some.inj hhead
      exact hlt

/-- The function takes the steps of the relation. -/
theorem firstMerge_eq_some : firstMerge rule l = some (r, l') ↔ MergeStep rule r l l' := by
  refine ⟨mergeStep_of_firstMerge, fun h => ?_⟩
  cases h with
  | @merge u v a b z hit before behind =>
    induction u with
    | nil =>
      rw [List.nil_append, firstMerge, hit]
      cases hrest : firstMerge rule (b :: v) with
      | none => rfl
      | some next => exact if_pos (le_of_firstMerge hrest behind)
    | cons x u ih =>
      obtain ⟨hx, hu⟩ := List.isChain_cons.mp before
      obtain ⟨y, t, hyt⟩ : ∃ y t, u ++ a :: b :: v = y :: t := by
        cases u with
        | nil => exact ⟨a, b :: v, rfl⟩
        | cons y u => exact ⟨y, u ++ a :: b :: v, rfl⟩
      have hy : y ∈ (u ++ [a]).head? := by
        cases u with
        | nil => simpa using (List.cons.inj hyt).1
        | cons w u => simpa using (List.cons.inj hyt).1
      have hrest := ih hu
      rw [hyt] at hrest
      rw [List.cons_append, hyt, firstMerge, hrest]
      cases hxy : rule x y with
      | none => rfl
      | some p => exact if_neg (not_le.mpr (hx y hy p hxy))

/-! ### Whole runs -/

theorem length_of_firstMerge (h : firstMerge rule l = some (r, l')) :
    l.length = l'.length + 1 := by
  cases firstMerge_eq_some.mp h with
  | merge hit before behind => simp; omega

/-- A run that starts with a step goes on from where that step leads. -/
theorem Merged.step (h : MergeStep rule r l l') : Merged rule l out ↔ Merged rule l' out := by
  refine ⟨fun ho => ⟨?_, ho.2⟩, fun ho => ⟨ho.1.head ⟨r, h⟩, ho.2⟩⟩
  have hfirst := firstMerge_eq_some.mpr h
  rcases ho.1.cases_head with rfl | ⟨m, ⟨s, hm⟩, hrest⟩
  · exact absurd (firstMerge_eq_none.mpr ho.2) (by simp [hfirst])
  · rw [firstMerge_eq_some.mpr hm] at hfirst
    cases hfirst
    exact hrest

theorem Irreducible.merged_iff (h : Irreducible rule l) : Merged rule l out ↔ out = l := by
  refine ⟨fun ho => ?_, fun ho => by subst ho; exact ⟨.refl, h⟩⟩
  rcases ho.1.cases_head with rfl | ⟨m, ⟨s, hm⟩, -⟩
  · rfl
  · have := firstMerge_eq_some.mpr hm
    rw [firstMerge_eq_none.mpr h] at this
    cases this

theorem merged_mergeFuel {fuel : ℕ} (h : l.length ≤ fuel) :
    Merged rule l out ↔ out = mergeFuel rule fuel l := by
  induction fuel generalizing l with
  | zero =>
    obtain rfl : l = [] := List.length_eq_zero_iff.mp (Nat.le_zero.mp h)
    exact Irreducible.merged_iff .nil
  | succ fuel ih =>
    rw [mergeFuel]
    cases hfirst : firstMerge rule l with
    | none => exact (firstMerge_eq_none.mp hfirst).merged_iff
    | some next =>
      have hlen := length_of_firstMerge hfirst
      exact (Merged.step (firstMerge_eq_some.mp hfirst)).trans (ih (by omega))

/-- **Every list has one outcome, the one that `merge` computes.** -/
theorem merged_iff : Merged rule l out ↔ out = merge rule l := merged_mergeFuel le_rfl

/-- A step does not change the outcome. -/
theorem merge_step (h : MergeStep rule r l l') : merge rule l = merge rule l' :=
  merged_iff.mp ((Merged.step h).mp (merged_iff.mpr rfl))

theorem Irreducible.merge_eq (h : Irreducible rule l) : merge rule l = l :=
  h.merged_iff.mp (RankMerging.merged_iff.mpr rfl)

/-! ### A rank for each pair -/

variable {R : PairRules α}

theorem mergeStep_pairRules : (∃ r, MergeStep R.rule r l l') ↔ R.MergeStep l l' := by
  constructor
  · rintro ⟨r, hstep⟩
    cases hstep with
    | @merge u v a b z hit before behind =>
      refine .merge hit ?_ (before.imp fun x y hxy => ?_)
      · refine List.isChain_append_cons_cons.mpr ⟨?_, fun p hp => ?_, behind⟩
        · exact before.imp fun _ _ hw p hp => (hw p hp).le
        · rw [hit] at hp
          obtain rfl := Option.some.inj hp
          exact le_rfl
      · rintro ⟨rfl, rfl⟩
        exact absurd (hxy _ hit) (lt_irrefl r)
  · intro hstep
    cases hstep with
    | @merge u v a b z r rule lowest leftmost =>
      obtain ⟨hu, -, hv⟩ := List.isChain_append_cons_cons.mp lowest
      refine ⟨r, .merge rule ?_ hv⟩
      refine (List.isChain_iff_getElem.mpr fun i hi => ?_)
      intro p hp
      refine lt_of_le_of_ne ((List.isChain_iff_getElem.mp hu) i hi p hp) fun heq => ?_
      have hpair := R.rank_inj rule (show R.rule _ _ = some (r, p.2) by rw [heq]; exact hp)
      exact (List.isChain_iff_getElem.mp leftmost) i hi ⟨hpair.1.symm, hpair.2.symm⟩

/-- With a rank for each pair, the runs are those of `PairRules`. -/
theorem merged_pairRules : Merged R.rule l out ↔ R.Merged l out := by
  have hsteps : (fun l l' => ∃ r, MergeStep R.rule r l l') = R.MergeStep :=
    funext fun l => funext fun l' => propext mergeStep_pairRules
  rw [Merged, hsteps]
  rfl

end RankMerging

end Toktier.Lib
