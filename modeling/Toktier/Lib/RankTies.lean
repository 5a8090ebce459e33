import Mathlib.Data.List.Chain
import Toktier.Lib.RankMerging

/-!
# Ranks that tie

Two rules with the same pairs merge alike when one only breaks the ties of the other, as long as
no tie matters: pairs of the same rank do not overlap, and what they make has only higher ranks.
Then all pairs of the lowest rank merge before any other pair does, in whichever order.

## Main definitions

* `BreaksTies`: a rule with the same pairs, up to a renaming, whose ranks refine the order.
* `Harmless`: no tie of a rule matters.

## Main results

* `merge_map`: a rule that breaks harmless ties merges alike.
-/
namespace Toktier.Lib

namespace RankMerging

variable {α β : Type*} {rule : α → α → Option (ℕ × α)} {rule' : β → β → Option (ℕ × β)} {f : α → β}
  {l l' u v : List α} {a b z : α} {r : ℕ}

/-- The same pairs, up to a renaming, in an order that keeps the one of `rule`. -/
structure BreaksTies (rule : α → α → Option (ℕ × α)) (rule' : β → β → Option (ℕ × β))
    (f : α → β) : Prop where
  out : ∀ a b, (rule' (f a) (f b)).map Prod.snd = (rule a b).map fun p => f p.2
  lt : ∀ a b c d p q p' q', rule a b = some p → rule c d = some q → rule' (f a) (f b) = some p' →
    rule' (f c) (f d) = some q' → p.1 < q.1 → p'.1 < q'.1

/-- Pairs that share a rank do not overlap, and make tokens that only have higher ranks. -/
def Harmless (rule : α → α → Option (ℕ × α)) : Prop :=
  ∀ a b c d p q, rule a b = some p → rule c d = some q → p.1 = q.1 → (a, b) ≠ (c, d) →
    b ≠ c ∧ ∀ y s, rule p.2 y = some s ∨ rule y p.2 = some s → p.1 < s.1

/-- Several pairs have the rank. -/
def Tied (rule : α → α → Option (ℕ × α)) (r : ℕ) : Prop :=
  ∃ a b c d p q, rule a b = some p ∧ rule c d = some q ∧ p.1 = r ∧ q.1 = r ∧ (a, b) ≠ (c, d)

/-- A pair of the rank that several pairs have makes a token of higher ranks. -/
theorem Harmless.safe (h : Harmless rule) (ht : Tied rule r) (hit : rule a b = some (r, z)) (y : α)
    (s : ℕ × α) (hs : rule z y = some s ∨ rule y z = some s) : r < s.1 := by
  obtain ⟨a₁, b₁, a₂, b₂, p, q, hp, hq, hpr, hqr, hne⟩ := ht
  -- one of the two is another pair
  by_cases hsame : (a, b) = (a₁, b₁)
  · exact (h a b a₂ b₂ (r, z) q hit hq hqr.symm (hsame ▸ hne)).2 y s hs
  · exact (h a b a₁ b₁ (r, z) p hit hp hpr.symm hsame).2 y s hs

/-! ### All pairs of one rank -/

/-- Merge the pairs of the rank, from left to right. -/
def mergeRank (rule : α → α → Option (ℕ × α)) (r : ℕ) : List α → List α
  | x :: y :: l =>
    match rule x y with
    | some (s, z) => if s = r then z :: mergeRank rule r l else x :: mergeRank rule r (y :: l)
    | none => x :: mergeRank rule r (y :: l)
  | [x] => [x]
  | [] => []

/-- The pair does not have the rank. -/
def NotOf (rule : α → α → Option (ℕ × α)) (r : ℕ) (x y : α) : Prop := ∀ p ∈ rule x y, p.1 ≠ r

theorem mergeRank_hit (hit : rule a b = some (r, z)) :
    mergeRank rule r (a :: b :: l) = z :: mergeRank rule r l := by
  rw [mergeRank, hit]
  exact if_pos rfl

theorem mergeRank_skip (h : ∀ y ∈ l.head?, NotOf rule r a y) :
    mergeRank rule r (a :: l) = a :: mergeRank rule r l := by
  cases l with
  | nil => rfl
  | cons y l =>
    rw [mergeRank]
    have hy := h y rfl
    cases hxy : rule a y with
    | none => rfl
    | some p => exact if_neg (hy p hxy)

/-- A place that no pair of the rank crosses splits the scan. -/
theorem mergeRank_append (h : ∀ x ∈ u.getLast?, ∀ y ∈ v.head?, NotOf rule r x y) :
    mergeRank rule r (u ++ v) = mergeRank rule r u ++ mergeRank rule r v := by
  fun_induction mergeRank rule r u with
  | case1 x y l z hit ih =>
    rw [List.cons_append, List.cons_append, mergeRank_hit hit, List.cons_append]
    refine congrArg _ (ih fun w hw => ?_)
    cases l with
    | nil => cases hw
    | cons c l => exact h w (by simpa using hw)
  | case2 x y l s z hit hs ih =>
    have hskip : ∀ w ∈ (y :: l ++ v).head?, NotOf rule r x w := by
      intro w hw
      obtain rfl : y = w := Option.some.inj hw
      intro p hp
      rw [hit] at hp
      obtain rfl := Option.some.inj hp
      exact hs
    rw [List.cons_append, mergeRank_skip hskip, List.cons_append]
    exact congrArg _ (ih fun w hw => h w (by simpa using hw))
  | case3 x y l hnone ih =>
    have hskip : ∀ w ∈ (y :: l ++ v).head?, NotOf rule r x w := by
      intro w hw
      obtain rfl : y = w := Option.some.inj hw
      intro p hp
      rw [hnone] at hp
      cases hp
    rw [List.cons_append, mergeRank_skip hskip, List.cons_append]
    exact congrArg _ (ih fun w hw => h w (by simpa using hw))
  | case4 x => exact mergeRank_skip (h x rfl)
  | case5 => rfl

theorem mergeRank_of_notOf (h : l.IsChain (NotOf rule r)) : mergeRank rule r l = l := by
  induction l with
  | nil => rfl
  | cons x l ih =>
    obtain ⟨hx, hl⟩ := List.isChain_cons.mp h
    rw [mergeRank_skip hx, ih hl]

theorem length_mergeRank_le (l : List α) : (mergeRank rule r l).length ≤ l.length := by
  generalize hn : l.length = n
  induction n using Nat.strong_induction_on generalizing l with
  | _ n ih =>
    rcases l with - | ⟨x, - | ⟨y, l⟩⟩
    · exact Nat.zero_le n
    · exact hn.le
    · by_cases hxy : NotOf rule r x y
      · have hskip : mergeRank rule r (x :: y :: l) = x :: mergeRank rule r (y :: l) :=
          mergeRank_skip fun w hw => by
            obtain rfl : y = w := Option.some.inj hw
            exact hxy
        have hrest := ih (y :: l).length (by simp [← hn]) (y :: l) rfl
        rw [hskip, List.length_cons]
        rw [List.length_cons] at hn
        omega
      · unfold NotOf at hxy
        push Not at hxy
        obtain ⟨⟨s, z⟩, hit, hs⟩ := hxy
        obtain rfl : s = r := hs
        rw [List.length_cons, List.length_cons] at hn
        have hrest := ih l.length (by omega) l rfl
        rw [mergeRank_hit hit, List.length_cons]
        omega

/-- The pairs have at least the rank. -/
def AtLeast (rule : α → α → Option (ℕ × α)) (r : ℕ) (l : List α) : Prop :=
  l.IsChain fun x y => ∀ p ∈ rule x y, r ≤ p.1

variable (rule r) in
/-- A pair of the lowest rank that no pair of the rank overlaps from the left. -/
structure Free (u v : List α) (a b z : α) : Prop where
  hit : rule a b = some (r, z)
  left : ∀ x ∈ u.getLast?, NotOf rule r x a
  atLeast : AtLeast rule r (u ++ a :: b :: v)

/-- **Such a pair may merge first**: the scan does not see the difference. -/
theorem Free.mergeRank (hfree : Free rule r u v a b z) (h : Harmless rule) (ht : Tied rule r) :
    mergeRank rule r (u ++ z :: v) = mergeRank rule r (u ++ a :: b :: v) := by
  have hsafe := h.safe ht hfree.hit
  rw [mergeRank_append fun x hx y hy => ?_, mergeRank_append fun x hx y hy => ?_,
    mergeRank_hit hfree.hit, mergeRank_skip fun y _ p hp => (hsafe y p (.inl hp)).ne']
  · obtain rfl : a = y := Option.some.inj hy
    exact hfree.left x hx
  · obtain rfl : z = y := Option.some.inj hy
    exact fun p hp => (hsafe x p (.inr hp)).ne'

/-- The rank stays the lowest one. -/
theorem Free.atLeast_merged (hfree : Free rule r u v a b z) (h : Harmless rule) (ht : Tied rule r) :
    AtLeast rule r (u ++ z :: v) := by
  have hsafe := h.safe ht hfree.hit
  obtain ⟨hu, hab, -⟩ := List.isChain_append.mp hfree.atLeast
  obtain ⟨-, hbv⟩ := List.isChain_cons.mp hab
  obtain ⟨-, hv⟩ := List.isChain_cons.mp hbv
  refine List.isChain_append.mpr ⟨hu, List.isChain_cons.mpr ⟨fun y _ p hp => ?_, hv⟩, ?_⟩
  · exact (hsafe y p (.inl hp)).le
  · intro x _ y hy p hp
    obtain rfl : z = y := Option.some.inj hy
    exact (hsafe x p (.inr hp)).le

theorem Free.length_mergeRank_lt (hfree : Free rule r u v a b z) (h : Harmless rule)
    (ht : Tied rule r) :
    (RankMerging.mergeRank rule r (u ++ a :: b :: v)).length < (u ++ a :: b :: v).length := by
  have hle : (RankMerging.mergeRank rule r (u ++ z :: v)).length ≤ (u ++ z :: v).length :=
    length_mergeRank_le _
  rw [hfree.mergeRank h ht] at hle
  simp only [List.length_append, List.length_cons] at hle ⊢
  omega

theorem exists_of_not_isChain (h : ¬l.IsChain (NotOf rule r)) :
    ∃ c d w, rule c d = some (r, w) ∧ ∀ R : α → α → Prop, l.IsChain R → R c d := by
  rw [List.isChain_iff_getElem] at h
  push Not at h
  obtain ⟨i, hi, hpair⟩ := h
  unfold NotOf at hpair
  push Not at hpair
  obtain ⟨p, hp, hr⟩ := hpair
  exact ⟨l[i], l[i + 1], p.2, by rw [← hr]; exact hp, fun R hR => List.isChain_iff_getElem.mp hR i hi⟩

/-- A step of the rule merges a pair that may merge first. -/
theorem free_of_mergeStep (h : MergeStep rule r l l') :
    ∃ u v a b z, l = u ++ a :: b :: v ∧ l' = u ++ z :: v ∧ Free rule r u v a b z := by
  have hge : AtLeast rule r l := isChain_of_firstMerge (firstMerge_eq_some.mpr h)
  cases h with
  | @merge u v a b z hit before behind =>
    refine ⟨u, v, a, b, z, rfl, rfl, hit, fun x hx p hp => ?_, hge⟩
    have hlast := (List.isChain_append.mp before).2.2 x hx a rfl p hp
    exact hlast.ne'

/-- The rule may merge all pairs of a tied rank first. -/
theorem merge_mergeRank (h : Harmless rule) (ht : Tied rule r) (hge : AtLeast rule r l) :
    merge rule (mergeRank rule r l) = merge rule l := by
  generalize hn : l.length = n
  induction n using Nat.strong_induction_on generalizing l with
  | _ n ih =>
    by_cases hnot : l.IsChain (NotOf rule r)
    · rw [mergeRank_of_notOf hnot]
    obtain ⟨c, d, w, hcd, hadj⟩ := exists_of_not_isChain hnot
    cases hfirst : firstMerge rule l with
    | none =>
      have hnone := hadj _ (firstMerge_eq_none.mp hfirst)
      rw [hcd] at hnone
      cases hnone
    | some next =>
      obtain ⟨s, l'⟩ := next
      obtain rfl : s = r := Nat.le_antisymm
        (hadj _ (isChain_of_firstMerge hfirst) (r, w) hcd) (le_of_firstMerge hfirst hge)
      have hstep := firstMerge_eq_some.mp hfirst
      have hlen := length_of_firstMerge hfirst
      obtain ⟨u, v, a, b, z, rfl, rfl, hfree⟩ := free_of_mergeStep hstep
      rw [merge_step hstep, ← hfree.mergeRank h ht]
      exact ih _ (by omega) (hfree.atLeast_merged h ht) rfl

theorem BreaksTies.exists_rule (hb : BreaksTies rule rule' f) {p' : ℕ × β}
    (hp' : rule' (f a) (f b) = some p') : ∃ p, rule a b = some p ∧ f p.2 = p'.2 := by
  have hout := hb.out a b
  rw [hp', Option.map_some, eq_comm, Option.map_eq_some_iff] at hout
  exact hout

/-- A step of a rule that breaks the ties merges a pair that may merge first. -/
theorem BreaksTies.free (hb : BreaksTies rule rule' f) (h : Harmless rule)
    (hge : AtLeast rule r l) (hnot : ¬l.IsChain (NotOf rule r)) {s : ℕ} {out : List β}
    (hstep : MergeStep rule' s (l.map f) out) :
    ∃ u v a b z, l = u ++ a :: b :: v ∧ out = (u ++ z :: v).map f ∧ Free rule r u v a b z := by
  obtain ⟨c, d, w, hcd, hadj⟩ := exists_of_not_isChain hnot
  have hge' := isChain_of_firstMerge (firstMerge_eq_some.mpr hstep)
  rw [List.isChain_map] at hge'
  generalize hm : l.map f = m at hstep
  cases hstep with
  | @merge u' v' a' b' z' hit before behind =>
    obtain ⟨u, rest, rfl, rfl, hrest⟩ := List.map_eq_append_iff.mp hm
    obtain ⟨a, rest', rfl, rfl, hrest'⟩ := List.map_eq_cons_iff.mp hrest
    obtain ⟨b, v, rfl, rfl, rfl⟩ := List.map_eq_cons_iff.mp hrest'
    -- the pair of `rule` that merges has the lowest rank
    obtain ⟨p, hp, hz⟩ := hb.exists_rule hit
    dsimp only at hz
    have hrank : p.1 = r := by
      refine Nat.le_antisymm (not_lt.mp fun hlt => ?_) ?_
      · have hcd' := hb.out c d
        rw [hcd, Option.map_some, Option.map_eq_some_iff] at hcd'
        obtain ⟨q', hq', -⟩ := hcd'
        have hbefore := hb.lt c d a b (r, w) p q' (s, z') hcd hp hq' hit hlt
        exact absurd (hadj _ hge' q' hq') (not_le.mpr hbefore)
      · exact (List.isChain_cons_cons.mp (List.isChain_append.mp hge).2.1).1 p hp
    subst hrank
    refine ⟨u, v, a, b, p.2, rfl, by rw [List.map_append, List.map_cons, hz], hp, ?_, hge⟩
    intro x hx q hq hsame
    have hxa := hb.out x a
    rw [hq, Option.map_some, Option.map_eq_some_iff] at hxa
    obtain ⟨q', hq', -⟩ := hxa
    have hlast := (List.isChain_append.mp before).2.2 (f x) (by
      rw [List.getLast?_map, hx]; rfl) (f a) rfl q' hq'
    -- an overlap would be with the same pair, which comes later
    by_cases heq : (x, a) = (a, b)
    · obtain ⟨rfl, rfl⟩ := Prod.mk.inj heq
      rw [hit] at hq'
      obtain rfl := Option.some.inj hq'
      exact lt_irrefl _ hlast
    · exact (h x a a b q p hq hp hsame heq).1 rfl

/-- A rule that breaks the ties may merge all pairs of a tied rank first. -/
theorem BreaksTies.merge_mergeRank (hb : BreaksTies rule rule' f) (h : Harmless rule)
    (ht : Tied rule r) (hge : AtLeast rule r l) :
    merge rule' ((mergeRank rule r l).map f) = merge rule' (l.map f) := by
  generalize hn : l.length = n
  induction n using Nat.strong_induction_on generalizing l with
  | _ n ih =>
    by_cases hnot : l.IsChain (NotOf rule r)
    · rw [mergeRank_of_notOf hnot]
    obtain ⟨c, d, w, hcd, hadj⟩ := exists_of_not_isChain hnot
    cases hfirst : firstMerge rule' (l.map f) with
    | none =>
      have hnone := firstMerge_eq_none.mp hfirst
      rw [Irreducible, List.isChain_map] at hnone
      have hout := hb.out c d
      rw [hadj _ hnone, hcd] at hout
      cases hout
    | some next =>
      have hstep := firstMerge_eq_some.mp hfirst
      obtain ⟨u, v, a, b, z, rfl, hnext, hfree⟩ := hb.free h hge hnot hstep
      rw [merge_step hstep, hnext, ← hfree.mergeRank h ht]
      refine ih _ ?_ (hfree.atLeast_merged h ht) rfl
      rw [← hn]
      simp

/-- A pair that does not share its rank merges in both orders. -/
theorem BreaksTies.mergeStep (hb : BreaksTies rule rule' f) (ht : ¬Tied rule r)
    (h : MergeStep rule r l l') : ∃ s, MergeStep rule' s (l.map f) (l'.map f) := by
  cases h with
  | @merge u v a b z hit before behind =>
    have hout := hb.out a b
    rw [hit, Option.map_some, Option.map_eq_some_iff] at hout
    obtain ⟨⟨s, z'⟩, hit', rfl⟩ := hout
    rw [List.map_append, List.map_append, List.map_cons, List.map_cons, List.map_cons]
    refine ⟨s, .merge hit' ?_ ?_⟩
    · have hmap : (u.map f) ++ [f a] = (u ++ [a]).map f := by simp
      rw [hmap, List.isChain_map]
      refine before.imp fun x y hxy p' hp' => ?_
      obtain ⟨p, hp, -⟩ := hb.exists_rule hp'
      exact hb.lt a b x y (r, z) p _ p' hit hp hit' hp' (hxy p hp)
    · rw [← List.map_cons, List.isChain_map]
      refine behind.imp fun x y hxy p' hp' => ?_
      obtain ⟨p, hp, -⟩ := hb.exists_rule hp'
      rcases Nat.lt_or_eq_of_le (hxy p hp) with hlt | heq
      · exact (hb.lt a b x y (r, z) p _ p' hit hp hit' hp' hlt).le
      · have hsame : (a, b) = (x, y) := by
          by_contra hne
          exact ht ⟨a, b, x, y, (r, z), p, hit, hp, rfl, heq.symm, hne⟩
        obtain ⟨rfl, rfl⟩ := Prod.mk.inj hsame
        rw [hit'] at hp'
        obtain rfl := Option.some.inj hp'
        exact le_rfl

/-- **Ties that do not matter may be broken in any way.** -/
theorem BreaksTies.merge_map (hb : BreaksTies rule rule' f) (h : Harmless rule) (l : List α) :
    merge rule' (l.map f) = (merge rule l).map f := by
  generalize hn : l.length = n
  induction n using Nat.strong_induction_on generalizing l with
  | _ n ih =>
    cases hfirst : firstMerge rule l with
    | none =>
      have hirr := firstMerge_eq_none.mp hfirst
      have hirr' : Irreducible rule' (l.map f) := by
        rw [Irreducible, List.isChain_map]
        refine hirr.imp fun x y hxy => ?_
        have hout := hb.out x y
        rwa [hxy, Option.map_none, Option.map_eq_none_iff] at hout
      rw [hirr.merge_eq, hirr'.merge_eq]
    | some next =>
      obtain ⟨r, l'⟩ := next
      have hge : AtLeast rule r l := isChain_of_firstMerge hfirst
      have hstep := firstMerge_eq_some.mp hfirst
      have hlen := length_of_firstMerge hfirst
      by_cases ht : Tied rule r
      · obtain ⟨u, v, a, b, z, rfl, -, hfree⟩ := free_of_mergeStep hstep
        rw [← hb.merge_mergeRank h ht hge, ← RankMerging.merge_mergeRank h ht hge]
        exact ih _ (hn ▸ hfree.length_mergeRank_lt h ht) _ rfl
      · -- the rank is of one pair, so both rules merge the same place
        obtain ⟨s, hstep'⟩ := hb.mergeStep ht hstep
        rw [merge_step hstep, merge_step hstep']
        exact ih l'.length (by omega) l' rfl

end RankMerging

end Toktier.Lib
