import Toktier.Chunked.PlanLaws
import Toktier.Lib.Canonical

/-!
# A cut survives in what a later cut leaves

A cut is certified on the whole text. When the text is cut at a later certified position, the
cut is certified on the part before it as well: its pair of characters and its literals are the
same, and for the normalization rule the later cut takes the place of the anchor it hides.

## Main definitions

* `LeftAnchor`, `RightAnchor`: where the rule looks for the ends of its slice.
* `NormCut`: what the rule accepts.

## Main results

* `accepts_eq_true`: the rule accepts these cuts and no others.
* `NormCut.take`, `Certified.take`: the survival of a cut.
-/
namespace Toktier.Chunked

open Toktier.Lib Toktier.StoreCore Toktier.Routing

/-! ## Anchors -/

section
variable {stab : Char → Bool} {t : Text} {p q left left' right right' i : ℕ}

/-- The character at an index is stable. -/
def StableAt (stab : Char → Bool) (t : Text) (i : ℕ) : Prop := ∃ c, t[i]? = some c ∧ stab c = true

/-- The last stable character before a position, or the start of the text. -/
structure LeftAnchor (stab : Char → Bool) (t : Text) (p left : ℕ) : Prop where
  lt : left < p
  stable : left = 0 ∨ StableAt stab t left
  between : ∀ i, left < i → i < p → ¬StableAt stab t i

/-- The first stable character behind the one at a position, or the end of the text. -/
structure RightAnchor (stab : Char → Bool) (t : Text) (p right : ℕ) : Prop where
  lt : p < right
  le : right ≤ t.length
  stable : right = t.length ∨ StableAt stab t right
  between : ∀ i, p < i → i < right → ¬StableAt stab t i

theorem LeftAnchor.unique (h : LeftAnchor stab t p left) (h' : LeftAnchor stab t p left') :
    left = left' := by
  have hlt := h.lt
  have hlt' := h'.lt
  rcases Nat.lt_trichotomy left left' with hlt | heq | hlt
  · exact absurd (h'.stable.resolve_left (by omega)) (h.between _ hlt (by omega))
  · exact heq
  · exact absurd (h.stable.resolve_left (by omega)) (h'.between _ hlt (by omega))

theorem RightAnchor.unique (h : RightAnchor stab t p right) (h' : RightAnchor stab t p right') :
    right = right' := by
  have hlt := h.lt
  have hlt' := h'.lt
  have hle := h.le
  have hle' := h'.le
  rcases Nat.lt_trichotomy right right' with hlt | heq | hlt
  · exact absurd (h.stable.resolve_left (by omega)) (h'.between _ (by omega) hlt)
  · exact heq
  · exact absurd (h'.stable.resolve_left (by omega)) (h.between _ (by omega) hlt)

theorem stableAt_take : StableAt stab (t.take q) i ↔ i < q ∧ StableAt stab t i := by
  unfold StableAt
  rw [List.getElem?_take]
  split_ifs with h
  · simp [h]
  · simp [h]

theorem LeftAnchor.take (h : LeftAnchor stab t p left) (hpq : p < q) :
    LeftAnchor stab (t.take q) p left where
  lt := h.lt
  stable := h.stable.imp_right fun hs => stableAt_take.mpr ⟨Nat.lt_trans h.lt hpq, hs⟩
  between i h1 h2 hs := h.between i h1 h2 (stableAt_take.mp hs).2

/-- No stable character before `q` leaves the anchor of `q` where that of `p` is. -/
theorem LeftAnchor.later (h : LeftAnchor stab t p left) (hpq : p ≤ q)
    (hun : ∀ i, p ≤ i → i < q → ¬StableAt stab t i) : LeftAnchor stab t q left where
  lt := Nat.lt_of_lt_of_le h.lt hpq
  stable := h.stable
  between i h1 h2 := by
    by_cases hip : i < p
    · exact h.between i h1 hip
    · exact hun i (by omega) h2

theorem RightAnchor.later (h : RightAnchor stab t p right) (hpq : p ≤ q) (hq : q < right) :
    RightAnchor stab t q right where
  lt := hq
  le := h.le
  stable := h.stable
  between i h1 h2 := h.between i (by omega) h2

theorem slice_take (ht : right ≤ q) : Py.slice (t.take q) left right = Py.slice t left right := by
  rw [Py.slice, Py.slice, List.take_take, min_eq_left ht]

theorem slice_append (h1 : left ≤ p) (h2 : p ≤ right) :
    Py.slice t left p ++ Py.slice t p right = Py.slice t left right := by
  unfold Py.slice
  have hsplit : t.take right = t.take p ++ (t.take right).drop p := by
    conv_lhs => rw [← List.take_append_drop p (t.take right), List.take_take, min_eq_left h2]
  by_cases hle : left ≤ (t.take p).length
  · rw [hsplit, List.drop_append_of_le_length hle, ← hsplit]
  · rw [List.length_take] at hle
    rw [List.drop_eq_nil_of_le (by rw [List.length_take]; omega),
      List.drop_eq_nil_of_le (by rw [List.length_take]; omega),
      List.drop_eq_nil_of_le (by rw [List.length_take]; omega), List.nil_append]

theorem slice_ne_nil (h : left < right) (ht : right ≤ t.length) : Py.slice t left right ≠ [] := by
  rw [← List.length_pos_iff, Py.slice, List.length_drop, List.length_take]
  omega

theorem Touches.of_take {words : List Text} (h : Touches words (t.take q) left right)
    (hle : right ≤ right') : Touches words t left right' := by
  obtain ⟨w, hw, hne, a, hocc, ha, hlow⟩ := h
  exact ⟨w, hw, hne, a, hocc.of_take, by omega, hlow⟩

end

/-! ## What the rule accepts -/

/-- The normal forms of two texts meet at a boundary. -/
def Meets (N : Text → Text) (b : BpeSyncBoundary) (x y : Text) : Prop :=
  N (x ++ y) = N x ++ N y ∧ ∃ last first, (N x).getLast? = some last ∧ (N y).head? = some first ∧
    b.accepts last first = true

/-- Everything around the cut is stable. -/
def AllStable (stab : Char → Bool) (t : Text) (p : ℕ) : Prop :=
  ∀ i, p - 1 ≤ i → i < p + 2 → i < t.length → StableAt stab t i

/-- The cut has its anchors within reach, touches no literal between them, and the normal forms
of the two halves meet at a boundary. -/
structure NormCut (N : Text → Text) (b : BpeSyncBoundary) (literals : List Text)
    (stab : Char → Bool) (t : Text) (p left right : ℕ) : Prop where
  leftAnchor : LeftAnchor stab t p left
  rightAnchor : RightAnchor stab t p right
  nearLeft : p - ANCHOR_SCAN ≤ left
  nearRight : right < p + 1 + ANCHOR_SCAN ∨ right = t.length ∧ right ≤ p + 1 + ANCHOR_SCAN
  untouched : ¬Touches literals t left right
  meets : Meets N b (Py.slice t left p) (Py.slice t p right)

section
variable {b : BpeSyncBoundary} {reference : ReferenceEngine} {literals : List Text}
  {stab : Char → Bool} {N : Text → Text} {t : Text} {p q left right : ℕ}

theorem allM_eq_all {α ε : Type} {f : α → Except ε Bool} {g : α → Bool} {xs : List α}
    (h : ∀ x ∈ xs, f x = .ok (g x)) : xs.allM f = .ok (xs.all g) := by
  induction xs with
  | nil => rfl
  | cons x xs ih =>
      rw [List.allM, h x (by simp), ok_bind, List.all_cons, ih fun y hy => h y (by simp [hy])]
      cases g x <;> rfl

/-- With a normalizer that does not fail, the stability test does not fail. -/
theorem exists_stable (b : BpeSyncBoundary) (literals : List Text)
    (hnorm : ∀ text, reference.normalize text = .ok (N text)) :
    ∃ stab : Char → Bool, ∀ c, (pyRule b literals reference).stable c = .ok (stab c) := by
  have htotal : ∀ c, ∃ verdict, (pyRule b literals reference).stable c = .ok verdict := by
    intro c
    unfold Py.NfcRule.stable
    split_ifs
    · exact ⟨_, rfl⟩
    · exact ⟨_, rfl⟩
    · refine ⟨_, allM_eq_all (g := fun text => N text == text) fun text _ => ?_⟩
      rw [show (pyRule b literals reference).normalize = reference.normalize from rfl, hnorm]
      rfl
  choose stab hstab using htotal
  exact ⟨stab, hstab⟩

variable (hstab : ∀ c, (pyRule b literals reference).stable c = .ok (stab c))
include hstab

theorem stableAt_cases {i : ℕ} (h : i < t.length) :
    ((pyRule b literals reference).stableAt t i = .ok true ∧ StableAt stab t i) ∨
      ((pyRule b literals reference).stableAt t i = .ok false ∧ ¬StableAt stab t i) := by
  have hi := List.getElem?_eq_getElem h
  rw [Py.NfcRule.stableAt, getAt_of_some hi, ok_bind, hstab, checked_ok]
  unfold StableAt
  rw [hi]
  cases hs : stab t[i] <;> simp [hs]

theorem walkLeft_spec {floorIndex n : ℕ} (h : floorIndex + n ≤ t.length) :
    ((pyRule b literals reference).walkLeft t floorIndex n = .ok none ∧
        ∀ i, floorIndex ≤ i → i < floorIndex + n → ¬StableAt stab t i) ∨
      ∃ left, (pyRule b literals reference).walkLeft t floorIndex n = .ok (some left) ∧
        floorIndex ≤ left ∧ left < floorIndex + n ∧ StableAt stab t left ∧
        ∀ i, left < i → i < floorIndex + n → ¬StableAt stab t i := by
  induction n with
  | zero => exact Or.inl ⟨rfl, fun i h1 h2 => absurd h2 (by omega)⟩
  | succ n ih =>
      rw [Py.NfcRule.walkLeft]
      rcases stableAt_cases hstab (show floorIndex + n < t.length by omega) with
        ⟨heq, hs⟩ | ⟨heq, hs⟩
      · rw [heq]
        exact Or.inr ⟨_, rfl, by omega, by omega, hs, fun i h1 h2 => absurd h2 (by omega)⟩
      · rw [heq]
        -- the position is passed, and the walk goes on below it
        have hpass : ∀ i, i < floorIndex + (n + 1) → (i < floorIndex + n → ¬StableAt stab t i) →
            ¬StableAt stab t i := by
          intro i hi hbelow
          by_cases hin : i < floorIndex + n
          · exact hbelow hin
          · rwa [show i = floorIndex + n by omega]
        rcases ih (by omega) with ⟨hnone, hun⟩ | ⟨left, hsome, h1, h2, hl, hun⟩
        · exact Or.inl ⟨hnone, fun i hi1 hi2 => hpass i hi2 (hun i hi1)⟩
        · exact Or.inr ⟨left, hsome, h1, by omega, hl, fun i hi1 hi2 => hpass i hi2 (hun i hi1)⟩

theorem walkRight_spec {start n : ℕ} (h : start + n ≤ t.length) :
    ∃ right, (pyRule b literals reference).walkRight t n start = .ok right ∧ start ≤ right ∧
      right ≤ start + n ∧ (right < start + n → StableAt stab t right) ∧
      ∀ i, start ≤ i → i < right → ¬StableAt stab t i := by
  induction n generalizing start with
  | zero => exact ⟨start, rfl, le_rfl, le_rfl, fun hlt => absurd hlt (by omega),
      fun i h1 h2 => absurd h2 (by omega)⟩
  | succ n ih =>
      rw [Py.NfcRule.walkRight]
      rcases stableAt_cases hstab (show start < t.length by omega) with ⟨heq, hs⟩ | ⟨heq, hs⟩
      · rw [heq]
        exact ⟨start, rfl, le_rfl, by omega, fun _ => hs, fun i h1 h2 => absurd h2 (by omega)⟩
      · rw [heq]
        obtain ⟨right, hright, h1, h2, hr, hun⟩ := ih (show start + 1 + n ≤ t.length by omega)
        refine ⟨right, hright, by omega, by omega, fun hlt => hr (by omega), fun i hi1 hi2 => ?_⟩
        by_cases hi : i = start
        · rwa [hi]
        · exact hun i (by omega) hi2

theorem around_eq (t : Text) (p : ℕ) :
    checked ((Py.slice t (p - 1) (p + 2)).allM (pyRule b literals reference).stable) =
        (.ok ((Py.slice t (p - 1) (p + 2)).all stab) : Decode EngineError Bool) ∧
      ((Py.slice t (p - 1) (p + 2)).all stab = true ↔ AllStable stab t p) := by
  refine ⟨by rw [allM_eq_all fun c _ => hstab c]; rfl, ?_⟩
  rw [List.all_eq_true]
  constructor
  · intro h i h1 h2 hi
    refine ⟨t[i], List.getElem?_eq_getElem hi, h _ ?_⟩
    rw [List.mem_iff_getElem?]
    refine ⟨i - (p - 1), ?_⟩
    rw [Py.slice, List.getElem?_drop, List.getElem?_take, if_pos (by omega),
      show p - 1 + (i - (p - 1)) = i by omega, List.getElem?_eq_getElem hi]
  · intro h c hc
    obtain ⟨j, hj⟩ := List.mem_iff_getElem?.mp hc
    rw [Py.slice, List.getElem?_drop, List.getElem?_take] at hj
    split_ifs at hj with hlt
    obtain ⟨c', hc', hs⟩ := h _ (by omega) hlt (List.getElem?_eq_some_iff.mp hj).1
    rw [hj] at hc'
    cases hc'
    exact hs

/-- The walk to the left finds the anchor if it is near. -/
theorem walkLeft_anchor (hlt : p < t.length) (hpos : 0 < p) :
    ∃ anchor, (pyRule b literals reference).walkLeft t (p - ANCHOR_SCAN) (p - (p - ANCHOR_SCAN)) =
        .ok anchor ∧
      ((anchor = none ∧ 0 < p - ANCHOR_SCAN ∧
          ∀ left, LeftAnchor stab t p left → left < p - ANCHOR_SCAN) ∨
        (¬(anchor = none ∧ 0 < p - ANCHOR_SCAN) ∧ LeftAnchor stab t p (anchor.getD 0) ∧
          p - ANCHOR_SCAN ≤ anchor.getD 0)) := by
  have hfloor : p - ANCHOR_SCAN ≤ p := Nat.sub_le _ _
  generalize p - ANCHOR_SCAN = floorIndex at *
  rcases walkLeft_spec hstab (show floorIndex + (p - floorIndex) ≤ t.length by omega) with
    ⟨hnone, hun⟩ | ⟨left, hsome, h1, h2, hs, hun⟩
  · refine ⟨none, hnone, ?_⟩
    by_cases hzero : 0 < floorIndex
    · refine Or.inl ⟨rfl, hzero, fun left hl => ?_⟩
      by_contra hge
      have hlt := hl.lt
      exact hun left (by omega) (by omega) (hl.stable.resolve_left (by omega))
    · refine Or.inr ⟨fun h => hzero h.2, ⟨hpos, Or.inl rfl, fun i _ h2 => ?_⟩, by omega⟩
      exact hun i (by omega) (by omega)
  · refine ⟨some left, hsome, Or.inr ⟨fun h => (by cases h.1), ⟨?_, Or.inr hs, ?_⟩, h1⟩⟩
    · show left < p
      omega
    · intro i hi1 hi2
      exact hun i hi1 (by omega)

/-- The walk to the right finds the anchor if it is near. -/
theorem walkRight_anchor (hlt : p < t.length) :
    ∃ right, (pyRule b literals reference).walkRight t
        (min t.length (p + 1 + ANCHOR_SCAN) - (p + 1)) (p + 1) = .ok right ∧
      ((right = min t.length (p + 1 + ANCHOR_SCAN) ∧ min t.length (p + 1 + ANCHOR_SCAN) < t.length ∧
          ∀ right', RightAnchor stab t p right' →
            ¬(right' < p + 1 + ANCHOR_SCAN ∨ right' = t.length ∧ right' ≤ p + 1 + ANCHOR_SCAN)) ∨
        (¬(right = min t.length (p + 1 + ANCHOR_SCAN) ∧
            min t.length (p + 1 + ANCHOR_SCAN) < t.length) ∧ RightAnchor stab t p right ∧
          (right < p + 1 + ANCHOR_SCAN ∨ right = t.length ∧ right ≤ p + 1 + ANCHOR_SCAN))) := by
  generalize ANCHOR_SCAN = scan at *
  obtain ⟨right, hright, h1, h2, hs, hun⟩ := walkRight_spec hstab
    (show p + 1 + (min t.length (p + 1 + scan) - (p + 1)) ≤ t.length by omega)
  refine ⟨right, hright, ?_⟩
  by_cases hend : right = min t.length (p + 1 + scan) ∧ min t.length (p + 1 + scan) < t.length
  · refine Or.inl ⟨hend.1, hend.2, fun right' hr hnear => ?_⟩
    have hr1 := hr.lt
    exact hun right' (by omega) (by omega) (hr.stable.resolve_left (by omega))
  · refine Or.inr ⟨hend, ⟨by omega, by omega, ?_, fun i hi1 hi2 => hun i (by omega) hi2⟩, by omega⟩
    by_cases hlast : right = t.length
    · exact Or.inl hlast
    · exact Or.inr (hs (by omega))

/-- The rule accepts a cut whose surroundings are stable, or one between anchors. -/
theorem accepts_eq_true (hnorm : ∀ text, reference.normalize text = .ok (N text))
    (hpos : 0 < p) (hlt : p < t.length) :
    (pyRule b literals reference).accepts t p = .ok true ↔
      AllStable stab t p ∨ ∃ left right, NormCut N b literals stab t p left right := by
  obtain ⟨haround, hall⟩ := around_eq hstab t p
  unfold Py.NfcRule.accepts
  rw [haround, ok_bind, show Py.ANCHOR_SCAN = ANCHOR_SCAN from rfl]
  by_cases hstable : AllStable stab t p
  · rw [hall.mpr hstable]
    exact iff_of_true rfl (Or.inl hstable)
  rw [if_neg (by rwa [hall])]
  obtain ⟨anchor, hanchor, hleft⟩ := walkLeft_anchor hstab hlt hpos
  dsimp only
  rw [hanchor, ok_bind]
  rcases hleft with ⟨hnone, hzero, hfar⟩ | ⟨hcont, hla, hnearL⟩
  · rw [if_pos ⟨hnone, hzero⟩]
    refine iff_of_false (fun h => (by cases h)) ?_
    rintro (h | ⟨left, right, h⟩)
    · exact hstable h
    · exact absurd h.nearLeft (Nat.not_le.mpr (hfar left h.leftAnchor))
  rw [if_neg hcont]
  generalize anchor.getD 0 = left at *
  obtain ⟨right, hright, hcase⟩ := walkRight_anchor hstab hlt
  rw [hright, ok_bind]
  rcases hcase with ⟨hr1, hr2, hfar⟩ | ⟨hcont', hra, hnearR⟩
  · rw [if_pos ⟨hr1, hr2⟩]
    refine iff_of_false (fun h => (by cases h)) ?_
    rintro (h | ⟨left', right', h⟩)
    · exact hstable h
    · exact hfar right' h.rightAnchor h.nearRight
  rw [if_neg hcont']
  -- the anchors are the only ones
  have hcut : (AllStable stab t p ∨ ∃ left right, NormCut N b literals stab t p left right) ↔
      ¬Touches literals t left right ∧ Meets N b (Py.slice t left p) (Py.slice t p right) := by
    constructor
    · rintro (h | ⟨left', right', h⟩)
      · exact absurd h hstable
      · obtain rfl := h.leftAnchor.unique hla
        obtain rfl := h.rightAnchor.unique hra
        exact ⟨h.untouched, h.meets⟩
    · rintro ⟨h1, h2⟩
      exact Or.inr ⟨left, right, hla, hra, hnearL, hnearR, h1, h2⟩
  rw [hcut]
  have htouches : (pyRule b literals reference).guard.touches t left right = true ↔
      Touches literals t left right := Py.touches_eq_true
  by_cases htouched : Touches literals t left right
  · rw [if_pos (htouches.mpr htouched)]
    exact iff_of_false (fun h => (by cases h)) fun h => h.1 htouched
  rw [if_neg (fun h => htouched (htouches.mp h))]
  have hwhole := slice_append (t := t) (Nat.le_of_lt hla.lt) (Nat.le_of_lt hra.lt)
  simp only [show (pyRule b literals reference).normalize = reference.normalize from rfl, hnorm,
    checked_ok, ok_bind]
  unfold Meets
  rw [hwhole]
  cases hlast : (N (Py.slice t left p)).getLast? with
  | none => simp [pure, Except.pure]
  | some last =>
      cases hfirst : (N (Py.slice t p right)).head? with
      | none => simp [pure, Except.pure]
      | some first =>
          dsimp only
          split_ifs with hne
          · simp [hne, pure, Except.pure]
          · rw [not_not] at hne
            simp [hne, htouched, pairOk_eq, pyRule, pure, Except.pure]

end

/-! ## Survival -/

section
variable {b : BpeSyncBoundary} {literals : List Text} {stab : Char → Bool} {N : Text → Text}
  {t : Text} {p q left right left' right' : ℕ}

theorem AllStable.take (h : AllStable stab t p) : AllStable stab (t.take q) p := by
  intro i h1 h2 hi
  rw [List.length_take] at hi
  exact stableAt_take.mpr ⟨by omega, h i h1 h2 (by omega)⟩

/-- With its right anchor in what is left, a cut keeps both anchors. -/
theorem NormCut.take_of_le (h : NormCut N b literals stab t p left right) (hq : q < t.length)
    (hright : right ≤ q) : NormCut N b literals stab (t.take q) p left right := by
  have hlt := h.rightAnchor.lt
  have hnear := h.nearRight
  have hlen : (t.take q).length = q := by
    rw [List.length_take]
    omega
  refine ⟨h.leftAnchor.take (by omega), ⟨hlt, by omega, ?_, ?_⟩, h.nearLeft, ?_, ?_, ?_⟩
  · rw [hlen]
    by_cases hrq : right = q
    · exact Or.inl hrq
    · exact Or.inr (stableAt_take.mpr ⟨by omega, h.rightAnchor.stable.resolve_left (by omega)⟩)
  · exact fun i h1 h2 hs => h.rightAnchor.between i h1 h2 (stableAt_take.mp hs).2
  · rw [hlen]
    omega
  · exact fun ht => h.untouched (Touches.of_take ht le_rfl)
  · rw [slice_take (by omega), slice_take hright]
    exact h.meets

/-- A cut before its right anchor hides it: the later cut has the same right anchor, and as its
left anchor either the earlier cut or that cut's left anchor. -/
theorem NormCut.anchors_later (h : NormCut N b literals stab t p left right)
    (h' : NormCut N b literals stab t q left' right') (hpq : p < q) (hq : q < right) :
    right' = right ∧ (left' = p ∨ left' = left) := by
  have hun : ∀ i, p < i → i < q → ¬StableAt stab t i := fun i h1 h2 =>
    h.rightAnchor.between i h1 (by omega)
  refine ⟨h'.rightAnchor.unique (h.rightAnchor.later (by omega) hq), ?_⟩
  by_cases hp : StableAt stab t p
  · exact Or.inl (h'.leftAnchor.unique ⟨hpq, Or.inr hp, hun⟩)
  · refine Or.inr (h'.leftAnchor.unique (h.leftAnchor.later (by omega) fun i h1 h2 => ?_))
    by_cases hi : i = p
    · rwa [hi]
    · exact hun i (by omega) h2

variable {ccc : Char → ℕ} {decompose : Char → List Char}

/-- Two texts that meet at a boundary before a third still meet without it, if the third can
be cut off. -/
theorem Meets.of_cuts (hN : Normalizes ccc decompose N) {x y z : Text} (hne : y ≠ [])
    (h : Meets N b x (y ++ z))
    (hcut : N (y ++ z) = N y ++ N z ∨ N (x ++ y ++ z) = N (x ++ y) ++ N z) : Meets N b x y := by
  obtain ⟨happend, last, first, hlast, hfirst, hok⟩ := h
  rw [← List.append_assoc] at happend
  have hxy : N (x ++ y) = N x ++ N y := by
    rcases hcut with hcut | hcut
    · exact hN.cut_of_rest happend hcut
    · exact hN.cut_of_whole happend hcut hne
  have hyz : N (y ++ z) = N y ++ N z := by
    rcases hcut with hcut | hcut
    · exact hcut
    · exact rest_of_cuts happend hcut hxy
  refine ⟨hxy, last, first, hlast, ?_, hok⟩
  obtain ⟨c, s, hs⟩ := List.exists_cons_of_ne_nil fun hnil => hne (hN.eq_nil hnil)
  rw [hyz, hs, List.cons_append, List.head?_cons] at hfirst
  rwa [hs, List.head?_cons]

/-- A cut survives in front of a later one that hides its right anchor. -/
theorem NormCut.take_of_lt (hN : Normalizes ccc decompose N)
    (h : NormCut N b literals stab t p left right) (h' : NormCut N b literals stab t q left' right')
    (hpq : p < q) (hqt : q < t.length) (hq : q < right) :
    NormCut N b literals stab (t.take q) p left q := by
  obtain ⟨rfl, hleft⟩ := h.anchors_later h' hpq hq
  have hnear := h.nearRight
  have hle := h.rightAnchor.le
  have hl := h.leftAnchor.lt
  have hlen : (t.take q).length = q := by
    rw [List.length_take]
    omega
  refine ⟨h.leftAnchor.take hpq, ⟨hpq, by omega, Or.inl hlen.symm, ?_⟩, h.nearLeft, ?_, ?_, ?_⟩
  · exact fun i h1 h2 hs => h.rightAnchor.between i h1 (by omega) (stableAt_take.mp hs).2
  · exact Or.inr ⟨hlen.symm, by omega⟩
  · exact fun ht => h.untouched (Touches.of_take ht (by omega))
  · rw [slice_take (by omega), slice_take le_rfl]
    refine Meets.of_cuts hN (z := Py.slice t q right') (slice_ne_nil hpq (by omega)) ?_ ?_
    · rw [slice_append (by omega) (by omega)]
      exact h.meets
    · obtain ⟨hwhole, -⟩ := h'.meets
      rcases hleft with rfl | rfl
      · exact Or.inl hwhole
      · have hjoin : Py.slice t left' p ++ Py.slice t p q = Py.slice t left' q :=
          slice_append (by omega) (by omega)
        rw [hjoin]
        exact Or.inr hwhole

end

section
variable {A : AhoCorasick} {b : BpeSyncBoundary} {literals : List Text}
  {rule : Option ReferenceEngine} {refusal : Option String} {t : Text} {p q : ℕ}

/-- The engine normalizes to a composed form, and never fails to. -/
def Composes (reference : ReferenceEngine) : Prop :=
  ∃ (ccc : Char → ℕ) (decompose : Char → List Char) (N : Text → Text),
    (∀ text, reference.normalize text = .ok (N text)) ∧ Normalizes ccc decompose N

theorem Certified.pos (h : Certified A (rustPlanner b literals rule refusal) literals t p) :
    0 < p ∧ p < t.length := by
  obtain ⟨previous, current, hpos, -, hcur, -⟩ := h.boundary
  exact ⟨hpos, (List.getElem?_eq_some_iff.mp hcur).1⟩

/-- A certified cut is one of what a later certified cut leaves before it. -/
theorem Certified.take (hrule : ∀ reference, rule = some reference → Composes reference)
    (h : Certified A (rustPlanner b literals rule refusal) literals t p)
    (h' : Certified A (rustPlanner b literals rule refusal) literals t q) (hpq : p < q) :
    Certified A (rustPlanner b literals rule refusal) literals (t.take q) p := by
  obtain ⟨hpos, hpt⟩ := h.pos
  obtain ⟨hqpos, hqt⟩ := h'.pos
  have hlen : (t.take q).length = q := by
    rw [List.length_take]
    omega
  refine ⟨?_, fun hin => h.outside hin.of_take, fun r hr => ?_⟩
  · obtain ⟨previous, current, -, hprev, hcur, hok⟩ := h.boundary
    refine ⟨previous, current, hpos, ?_, ?_, hok⟩
    · rw [List.getElem?_take, if_pos (by omega), hprev]
    · rw [List.getElem?_take, if_pos hpq, hcur]
  · cases rule with
    | none => cases hr
    | some reference =>
        cases hr
        obtain ⟨ccc, decompose, N, hnorm, hN⟩ := hrule reference rfl
        obtain ⟨stab, hstab⟩ := exists_stable b literals hnorm
        -- over the whole text, the window holds what the rule reads
        have haccepts : ∀ {s : Text} {i : ℕ}, 0 < i → i < s.length →
            (NfcRule.accepts A ⟨reference⟩ b (LiteralGuard.new literals) (windowOf s 0 s.length) i =
              .ok true ↔ AllStable stab s i ∨ ∃ left right, NormCut N b literals stab s i left right) := by
          intro s i h1 h2
          rw [accepts_windowOf A h1 h2 (Nat.zero_le _) (Nat.min_le_left _ _) le_rfl,
            accepts_eq_true hstab hnorm h1 h2]
        refine (haccepts hpos (by omega)).mpr ?_
        rcases (haccepts hpos hpt).mp (h.normalized _ rfl) with hall | ⟨left, right, hcut⟩
        · exact Or.inl hall.take
        by_cases hright : right ≤ q
        · exact Or.inr ⟨left, right, hcut.take_of_le hqt hright⟩
        rcases (haccepts hqpos hqt).mp (h'.normalized _ rfl) with hall | ⟨left', right', hcut'⟩
        · -- the character behind the later cut is between the anchors
          exact absurd (hall q (by omega) (by omega) hqt)
            (hcut.rightAnchor.between q hpq (by omega))
        · exact Or.inr ⟨left, q, hcut.take_of_lt hN hcut' hpq hqt (by omega)⟩

end

end Toktier.Chunked
