import Mathlib.Data.List.Chain
import Toktier.Chunked.Agreement

/-!
# What a chunk plan is

A plan covers the text by consecutive spans, none behind a cut shorter than the floor, and
cuts it at certified positions only. The search keeps this after every target, and it never
leaves its window. The only way to fail is a failing normalizer, except that for some chunk
counts the default floor divides by zero: its divisor is a machine product that can wrap.

## Main definitions

* `Covers`: consecutive spans between two positions.
* `Certified`: a position the boundary table, the literals and the rule all allow.
* `ValidPlan`: a plan that is what the planner promises.

## Main results

* `planCounted_valid`: the planner returns a valid plan, unless the divisor wraps to zero.
* `planCounted_agrees`: the two planners agree where no product wraps.
-/
namespace Toktier.Chunked

open Toktier.Lib Toktier.StoreCore Toktier.Routing

/-- Consecutive spans from one position to another. -/
inductive Covers : ℕ → ℕ → List (ℕ × ℕ) → Prop
  | last {a b : ℕ} (h : a ≤ b) : Covers a b [(a, b)]
  | cons {a b c : ℕ} {rest : List (ℕ × ℕ)} (h : a < b) (hrest : Covers b c rest) :
      Covers a c ((a, b) :: rest)

theorem covers_zip {cuts : List ℕ} {a c : ℕ} (h : (a :: cuts ++ [c]).IsChain (· < ·)) :
    Covers a c ((a :: cuts ++ [c]).zip (cuts ++ [c])) := by
  induction cuts generalizing a with
  | nil =>
      have hac : a < c := by simpa using h
      exact .last (Nat.le_of_lt hac)
  | cons b cuts ih =>
      rw [List.cons_append, List.cons_append, List.isChain_cons_cons] at h
      exact .cons h.1 (ih h.2)

/-- Neighbours in a chain are related. -/
theorem rel_of_mem_zip_tail {R : ℕ → ℕ → Prop} {l : List ℕ} (h : l.IsChain R) {s : ℕ × ℕ}
    (hs : s ∈ l.zip l.tail) : R s.1 s.2 := by
  induction l with
  | nil => cases hs
  | cons a l ih =>
      cases l with
      | nil => cases hs
      | cons b l =>
          rw [List.isChain_cons_cons] at h
          rw [List.tail_cons, List.zip_cons_cons, List.mem_cons] at hs
          rcases hs with rfl | hs
          · exact h.1
          · exact ih h.2 hs

/-! ## The Python planner does not fail by itself -/

/-- The error is one the normalizer raises. -/
def Raised (normalize : Text → Except EngineError Text) (e : EngineError) : Prop :=
  ∃ text, normalize text = .error e

theorem allM_eq_error {α ε : Type} {f : α → Except ε Bool} {xs : List α} {e : ε}
    (h : xs.allM f = .error e) : ∃ x ∈ xs, f x = .error e := by
  induction xs with
  | nil => cases h
  | cons x xs ih =>
      rw [List.allM] at h
      cases hx : f x with
      | error e' =>
          rw [hx] at h
          cases h
          exact ⟨x, by simp, hx⟩
      | ok verdict =>
          rw [hx, ok_bind] at h
          cases verdict with
          | false => cases h
          | true =>
              obtain ⟨y, hy, hfy⟩ := ih h
              exact ⟨y, by simp [hy], hfy⟩

section
variable {rule : Py.NfcRule} {t : Text}

theorem stable_eq_error {c : Char} {e : EngineError} (h : rule.stable c = .error e) :
    Raised rule.normalize e := by
  unfold Py.NfcRule.stable at h
  split_ifs at h
  obtain ⟨text, -, htext⟩ := allM_eq_error h
  cases hn : rule.normalize text with
  | error e' =>
      rw [hn] at htext
      cases htext
      exact ⟨text, hn⟩
  | ok s =>
      rw [hn] at htext
      cases htext

theorem endsIn_stableAt {i : ℕ} (h : i < t.length) :
    EndsIn (fun _ => True) (Raised rule.normalize) (rule.stableAt t i) := by
  rw [Py.NfcRule.stableAt, getAt_of_some (List.getElem?_eq_getElem h), ok_bind]
  exact endsIn_checked (fun _ _ => trivial) fun e => stable_eq_error

theorem endsIn_walkLeft {floorIndex n : ℕ} (h : floorIndex + n ≤ t.length) :
    EndsIn (fun _ => True) (Raised rule.normalize) (rule.walkLeft t floorIndex n) := by
  induction n with
  | zero => exact endsIn_pure trivial
  | succ n ih =>
      rw [Py.NfcRule.walkLeft]
      refine (endsIn_stableAt (by omega)).bind fun stable _ _ => ?_
      cases stable with
      | true => exact endsIn_pure trivial
      | false => exact ih (by omega)

theorem endsIn_walkRight {right n : ℕ} (h : right + n ≤ t.length) :
    EndsIn (fun _ => True) (Raised rule.normalize) (rule.walkRight t n right) := by
  induction n generalizing right with
  | zero => exact endsIn_pure trivial
  | succ n ih =>
      rw [Py.NfcRule.walkRight]
      refine (endsIn_stableAt (by omega)).bind fun stable _ _ => ?_
      cases stable with
      | true => exact endsIn_pure trivial
      | false => exact ih (by omega)

theorem endsIn_normalize (text : Text) :
    EndsIn (fun _ => True) (Raised rule.normalize) (checked (rule.normalize text)) :=
  endsIn_checked (fun _ _ => trivial) fun _ h => ⟨text, h⟩

theorem endsIn_accepts {position : ℕ} (hlt : position < t.length) :
    EndsIn (fun _ => True) (Raised rule.normalize) (rule.accepts t position) := by
  unfold Py.NfcRule.accepts
  generalize Py.ANCHOR_SCAN = scan
  refine EndsIn.bind (P := fun _ => True)
    (endsIn_checked (fun _ _ => trivial) fun e he => ?_) fun allStable _ _ => ?_
  · obtain ⟨c, -, hc⟩ := allM_eq_error he
    exact stable_eq_error hc
  cases allStable with
  | true => exact endsIn_pure trivial
  | false =>
      simp only [Bool.false_eq_true, if_false]
      refine (endsIn_walkLeft (by omega)).bind fun left _ _ => ?_
      by_cases hleft : left = none ∧ 0 < position - scan
      · rw [if_pos hleft]
        exact endsIn_pure trivial
      rw [if_neg hleft]
      refine (endsIn_walkRight (by omega)).bind fun right _ _ => ?_
      by_cases hright : right = min t.length (position + 1 + scan) ∧
          min t.length (position + 1 + scan) < t.length
      · rw [if_pos hright]
        exact endsIn_pure trivial
      rw [if_neg hright]
      by_cases htouches : rule.guard.touches t (left.getD 0) right = true
      · rw [if_pos htouches]
        exact endsIn_pure trivial
      rw [if_neg htouches]
      refine (endsIn_normalize _).bind fun before _ _ => ?_
      refine (endsIn_normalize _).bind fun after _ _ => ?_
      cases before.getLast? with
      | none => exact endsIn_pure trivial
      | some last =>
          cases after.head? with
          | none => exact endsIn_pure trivial
          | some first =>
              refine (endsIn_normalize _).bind fun whole _ _ => ?_
              by_cases hwhole : whole ≠ before ++ after
              · rw [if_pos hwhole]
                exact endsIn_pure trivial
              · rw [if_neg hwhole]
                exact endsIn_pure trivial

end

/-! ## What the search keeps -/

section
variable (b : BpeSyncBoundary) (literals : List Text) (rule : Option ReferenceEngine)
  (refusal : Option Py.Refusal)

/-- The error is one the normalizer in force raises. -/
def RaisedBy (rule : Option ReferenceEngine) (e : EngineError) : Prop :=
  ∃ reference, rule = some reference ∧ Raised reference.normalize e

/-- The boundary table, the literals and the rule of the Python planner allow the cut. -/
structure PyCertified (t : Text) (p : ℕ) : Prop where
  boundary : Py.boundaryOk b.classes t p = .ok true
  outside : ¬Inside literals t p
  normalized : ∀ reference, rule = some reference →
    (pyRule b literals reference).accepts t p = .ok true

variable {t : Text} {low high p : ℕ}

theorem endsIn_candidate (hpos : 0 < p) (hlt : p < t.length) (hlow : low ≤ p) (hhigh : p ≤ high)
    (rejects : ℕ × ℕ) :
    EndsIn (fun x => x.1 = true → PyCertified b literals rule t p) (RaisedBy rule)
      ((pyPlanner b literals rule refusal).candidate t
        ((Py.LiteralGuard.new literals).forbidden t low high) p rejects) := by
  unfold Py.Planner.candidate
  have hprev : t[p - 1]? = some t[p - 1] := List.getElem?_eq_getElem (by omega)
  have hcur : t[p]? = some t[p] := List.getElem?_eq_getElem hlt
  obtain ⟨ok, hok⟩ : ∃ ok, Py.boundaryOk b.classes t p = .ok ok := by
    rw [Py.boundaryOk, minus_of_le hpos, ok_bind, getAt_of_some hprev, ok_bind, getAt_of_some hcur,
      ok_bind]
    exact ⟨_, rfl⟩
  rw [show (pyPlanner b literals rule refusal).table = b.classes from rfl, hok, ok_bind]
  cases ok with
  | false => exact endsIn_pure fun h => by cases h
  | true =>
      simp only [if_true]
      by_cases hinside : p ∈ (Py.LiteralGuard.new literals).forbidden t low high
      · rw [if_pos (List.contains_iff_mem.mpr hinside)]
        exact endsIn_pure fun h => by cases h
      · rw [if_neg fun h => hinside (List.contains_iff_mem.mp h)]
        rw [Py.mem_forbidden hlow hhigh] at hinside
        cases rule with
        | none => exact endsIn_pure fun _ => ⟨hok, hinside, fun _ h => by cases h⟩
        | some reference =>
            have haccepts : EndsIn (fun _ => True) (RaisedBy (some reference))
                ((pyRule b literals reference).accepts t p) :=
              (endsIn_accepts hlt).imp (fun _ _ _ => trivial) fun e he => ⟨reference, rfl, he⟩
            refine haccepts.bind fun accepted haccepted _ => ?_
            cases accepted with
            | false => exact endsIn_pure fun h => by cases h
            | true =>
                refine endsIn_pure fun _ => ⟨hok, hinside, fun reference' h => ?_⟩
                cases h
                exact haccepted

theorem endsIn_scanDown {n : ℕ} (hpos : 0 < low) (hhigh : high < t.length) (hn : low + n ≤ high + 1)
    (rejects : ℕ × ℕ) :
    EndsIn (fun x => ∀ p, x.1 = some p → low ≤ p ∧ p ≤ high ∧ PyCertified b literals rule t p)
      (RaisedBy rule)
      ((pyPlanner b literals rule refusal).scanDown t
        ((Py.LiteralGuard.new literals).forbidden t low high) low n rejects) := by
  induction n generalizing rejects with
  | zero => exact endsIn_pure fun p hp => by cases hp
  | succ n ih =>
      rw [Py.Planner.scanDown]
      refine (endsIn_candidate b literals rule refusal (show 0 < low + n by omega) (by omega)
        (show low ≤ low + n by omega) (show low + n ≤ high by omega) rejects).bind ?_
      rintro ⟨certified, rejects'⟩ - hcert
      cases certified with
      | false => exact ih (by omega) rejects'
      | true =>
          refine endsIn_pure fun p hp => ?_
          cases hp
          exact ⟨by omega, by omega, hcert rfl⟩

theorem endsIn_scan (hpos : 0 < low) (hhigh : high < t.length) (rejects : ℕ × ℕ) :
    EndsIn (fun x => ∀ p, x.1 = some p → low ≤ p ∧ p ≤ high ∧ PyCertified b literals rule t p)
      (RaisedBy rule) ((pyPlanner b literals rule refusal).scan t low high rejects) := by
  unfold Py.Planner.scan
  by_cases hempty : high < low
  · rw [if_pos hempty]
    exact endsIn_pure fun p hp => by cases hp
  · rw [if_neg hempty]
    exact endsIn_scanDown b literals rule refusal hpos hhigh (by omega) rejects

theorem endsIn_search {target previous : ℕ} (htarget : target < t.length) (scanBudget : ℕ)
    (rejects : ℕ × ℕ) :
    EndsIn (fun x => ∀ p, x.1 = some p → previous < p ∧ p < t.length ∧ PyCertified b literals rule t p)
      (RaisedBy rule)
      ((pyPlanner b literals rule refusal).search t scanBudget target previous rejects) := by
  unfold Py.Planner.search
  obtain ⟨low, hlow⟩ : ∃ low, max (previous + 1) (target - min Py.QUICK_SCAN scanBudget) = low :=
    ⟨_, rfl⟩
  dsimp only
  rw [hlow]
  refine (endsIn_scan b literals rule refusal (show 0 < low by omega) htarget rejects).bind ?_
  rintro ⟨found, rejects'⟩ - hfound
  dsimp only at hfound ⊢
  by_cases hmore : found = none ∧ scanBudget > min Py.QUICK_SCAN scanBudget ∧ low > previous + 1
  · rw [if_pos hmore]
    refine (endsIn_scan b literals rule refusal (by omega) (by omega) rejects').imp
      (fun x _ hx p hp => ?_) fun e he => he
    obtain ⟨h1, h2, h3⟩ := hx p hp
    exact ⟨by omega, by omega, h3⟩
  · rw [if_neg hmore]
    refine endsIn_pure fun p hp => ?_
    obtain ⟨h1, h2, h3⟩ := hfound p hp
    exact ⟨by omega, by omega, h3⟩

/-- What the search has done after `n` targets. -/
structure SearchInv (t : Text) (floor n : ℕ) (st : Py.Search) : Prop where
  count : st.cuts.length + st.misses = n
  chain : (0 :: st.cuts).IsChain fun a c => a < c ∧ floor ≤ c - a
  last : (0 :: st.cuts).getLast? = some st.previous
  certified : ∀ p ∈ st.cuts, p < t.length ∧ floor ≤ t.length - p ∧ PyCertified b literals rule t p

theorem endsIn_cutAt {target floor n : ℕ} {st : Py.Search} (htarget : target < t.length)
    (scanBudget : ℕ) (h : SearchInv b literals rule t floor n st) :
    EndsIn (SearchInv b literals rule t floor (n + 1)) (RaisedBy rule)
      ((pyPlanner b literals rule refusal).cutAt t floor scanBudget target st) := by
  have hmiss : ∀ rejects, SearchInv b literals rule t floor (n + 1)
      { st with misses := st.misses + 1, rejects := rejects } := fun rejects =>
    ⟨by rw [← h.count, Nat.add_assoc], h.chain, h.last, h.certified⟩
  unfold Py.Planner.cutAt
  by_cases hbehind : target ≤ st.previous
  · rw [if_pos hbehind]
    exact endsIn_ok (hmiss st.rejects)
  rw [if_neg hbehind]
  refine (endsIn_search b literals rule refusal htarget scanBudget st.rejects).bind ?_
  rintro ⟨found, rejects⟩ - hfound
  cases found with
  | none => exact endsIn_pure (hmiss rejects)
  | some p =>
      obtain ⟨h1, h2, h3⟩ := hfound p rfl
      dsimp only
      by_cases hfloor : p - st.previous < floor ∨ t.length - p < floor
      · rw [if_pos hfloor]
        exact endsIn_pure (hmiss rejects)
      · rw [if_neg hfloor]
        refine endsIn_pure ⟨?_, ?_, ?_, ?_⟩
        · rw [List.length_append, List.length_singleton, ← h.count]
          exact Nat.add_right_comm _ _ _
        · rw [← List.cons_append, List.isChain_append]
          refine ⟨h.chain, List.isChain_singleton _, ?_⟩
          intro x hx y hy
          rw [h.last, Option.mem_def, Option.some.injEq] at hx
          rw [List.head?_cons, Option.mem_def, Option.some.injEq] at hy
          subst hx hy
          exact ⟨h1, by omega⟩
        · rw [← List.cons_append, List.getLast?_concat]
        · intro q hq
          rcases List.mem_append.mp hq with hq | hq
          · exact h.certified q hq
          · rw [List.mem_singleton] at hq
            subst hq
            exact ⟨h2, by omega, h3⟩

/-- The whole search. -/
theorem endsIn_cutsBy (floor : ℕ) {k : ℕ} {target : ℕ → ℕ} (scanBudget : ℕ)
    (htarget : ∀ index, 0 < index → index < k → target index < t.length) :
    EndsIn (SearchInv b literals rule t floor (k - 1)) (RaisedBy rule)
      (cutsBy (pyPlanner b literals rule refusal) t k floor scanBudget target) := by
  refine endsIn_foldlM_range' (SearchInv b literals rule t floor) 1 (k - 1)
    ⟨rfl, List.isChain_singleton _, rfl, fun p hp => by cases hp⟩ fun i st hi hst => ?_
  exact endsIn_cutAt b literals rule refusal (htarget (1 + i) (by omega) (by omega)) scanBudget hst

end

/-! ## Planners of a document -/

/-- The normalizer the rule of a document's planner asks, if it has one. -/
def ruleOf (document : Json) (reference : ReferenceEngine) : Option ReferenceEngine :=
  match normalizerMode document with
  | .ok .Nfc => some reference
  | _ => none

theorem new_eq_rustPlanner (document : Json) (literals : List Text) (b : BpeSyncBoundary)
    (reference : ReferenceEngine) : ∃ refusal, ChunkEncoder.new document literals b reference =
      rustPlanner b literals (ruleOf document reference) refusal := by
  unfold ChunkEncoder.new ruleOf rustPlanner
  cases normalizerMode document with
  | error refusal => exact ⟨some refusal, rfl⟩
  | ok mode =>
      cases mode with
      | None => exact ⟨none, rfl⟩
      | Nfc => exact ⟨none, rfl⟩

theorem new_eq_pyPlanner (document : Json) (literals : List Text) (b : BpeSyncBoundary)
    (reference : ReferenceEngine) :
    ∃ refusal, Py.Planner.new document literals b.classes reference.normalize =
      pyPlanner b literals (ruleOf document reference) refusal := by
  have hmode := normalizerMode_eq_ok document
  unfold Py.Planner.new ruleOf pyPlanner
  cases hpy : Py.normalizerMode document with
  | ok mode =>
      rw [(hmode mode).mpr hpy]
      cases mode with
      | None => exact ⟨none, rfl⟩
      | Nfc => exact ⟨none, rfl⟩
  | error refusal =>
      cases hrust : normalizerMode document with
      | ok mode =>
          rw [(hmode mode).mp hrust] at hpy
          cases hpy
      | error _ => exact ⟨some refusal, rfl⟩

/-! ## Valid plans -/

/-- The boundary table, the literals and the rule allow the cut. -/
structure Certified (A : AhoCorasick) (encoder : ChunkEncoder) (literals : List Text) (t : Text)
    (p : ℕ) : Prop where
  boundary : encoder.boundary.AcceptsAt t p
  outside : ¬Inside literals t p
  normalized : ∀ rule, encoder.rule = some rule →
    rule.accepts A encoder.boundary encoder.guard (windowOf t 0 t.length) p = .ok true

/-- The smallest chunk a plan may have. -/
def minChunkOr (total k : ℕ) (minChunk : Option ℕ) : ℕ :=
  minChunk.getD (max 16 (min 1024 (total / (4 * k))))

/-- The plan is what the planner promises of it. -/
structure ValidPlan (A : AhoCorasick) (encoder : ChunkEncoder) (literals : List Text) (t : Text)
    (k : ℕ) (minChunk : Option ℕ) (plan : ChunkPlan) : Prop where
  atMost : plan.spans.length ≤ k
  covers : Covers 0 t.length plan.spans
  bytes : plan.byteSpans = plan.spans.map fun span =>
    (utf8Len (t.take span.1), utf8Len (t.take span.2))
  certified : ∀ p ∈ plan.cuts, Certified A encoder literals t p
  floor : ∀ span ∈ plan.spans, 1 < plan.spans.length →
    minChunkOr t.length k minChunk ≤ span.2 - span.1
  misses : 1 < k → MIN_TEXT_CHARS ≤ t.length → plan.cuts.length + plan.cutMisses = k - 1

section
variable {A : AhoCorasick} {b : BpeSyncBoundary} {literals : List Text}
  {rule : Option ReferenceEngine} {t : Text} {k : ℕ} {minChunk : Option ℕ}

theorem PyCertified.certified {p : ℕ} (h : PyCertified b literals rule t p) (hlt : p < t.length)
    (refusal : Option String) : Certified A (rustPlanner b literals rule refusal) literals t p := by
  have hb := h.boundary
  rw [Py.boundaryOk, bind_eq_ok] at hb
  obtain ⟨before, hbefore, hb⟩ := hb
  have hpos : 0 < p := by
    by_contra hzero
    rw [minus, if_neg (by omega)] at hbefore
    cases hbefore
  have hprev : t[p - 1]? = some t[p - 1] := List.getElem?_eq_getElem (by omega)
  have hcur : t[p]? = some t[p] := List.getElem?_eq_getElem hlt
  rw [minus_of_le hpos] at hbefore
  cases hbefore
  rw [getAt_of_some hprev, ok_bind, getAt_of_some hcur, ok_bind, pairOk_eq] at hb
  refine ⟨⟨_, _, hpos, hprev, hcur, ?_⟩, h.outside, ?_⟩
  · exact Except.ok.inj hb
  · intro r hr
    cases rule with
    | none => cases hr
    | some reference =>
        cases hr
        exact (accepts_windowOf A hpos hlt (Nat.zero_le _) (Nat.min_le_left _ _) le_rfl).trans
          (h.normalized reference rfl)

/-- A text that is not cut. -/
theorem validPlan_single (encoder : ChunkEncoder) (hk : 1 ≤ k)
    (hshort : k ≤ 1 ∨ t.length < MIN_TEXT_CHARS) :
    ValidPlan A encoder literals t k minChunk (ChunkPlan.single t.length (utf8Len t) k) where
  atMost := hk
  covers := .last (Nat.zero_le _)
  bytes := by simp [ChunkPlan.single]
  certified := by simp [ChunkPlan.single, ChunkPlan.cuts]
  floor := by simp [ChunkPlan.single]
  misses := by omega

theorem map_fst_zip_tail (l : List ℕ) : (l.zip l.tail).map Prod.fst = l.dropLast := by
  induction l with
  | nil => rfl
  | cons a l ih =>
      cases l with
      | nil => rfl
      | cons b l =>
          rw [List.tail_cons, List.zip_cons_cons, List.map_cons, List.dropLast_cons_cons, ← ih]
          rfl

/-- The cuts of the plan made of the search's cuts. -/
theorem cuts_planOf (t : Text) (k : ℕ) (st : Py.Search) : (planOf t k st).cuts = st.cuts := by
  have hdrop : (planOf t k st).spans.drop 1 =
      (st.cuts ++ [t.length]).zip (st.cuts ++ [t.length]).tail := by
    simp only [planOf, List.cons_append, List.tail_cons]
    cases st.cuts with
    | nil => rfl
    | cons a cuts => rfl
  rw [ChunkPlan.cuts, hdrop, map_fst_zip_tail, List.dropLast_concat]

theorem length_spans_planOf (t : Text) (k : ℕ) (st : Py.Search) :
    (planOf t k st).spans.length = st.cuts.length + 1 := by
  simp [planOf]

/-- The plan made of what the search leaves. -/
theorem validPlan_planOf {st : Py.Search} {floor : ℕ} (refusal : Option String) (hk : 1 < k)
    (ht : MIN_TEXT_CHARS ≤ t.length) (hfloor : minChunkOr t.length k minChunk ≤ floor)
    (h : SearchInv b literals rule t floor (k - 1) st) :
    ValidPlan A (rustPlanner b literals rule refusal) literals t k minChunk (planOf t k st) := by
  have hpos : 0 < t.length := Nat.lt_of_lt_of_le (by decide) ht
  have hcount := h.count
  -- the end of the text closes the chain of cuts
  have hend : ∀ x ∈ (0 :: st.cuts).getLast?, x < t.length ∧ (st.cuts ≠ [] → floor ≤ t.length - x) := by
    intro x hx
    cases hcuts : st.cuts with
    | nil =>
        rw [hcuts] at hx
        cases hx
        exact ⟨hpos, fun hne => absurd rfl hne⟩
    | cons a cuts =>
        have hmem : x ∈ st.cuts := by
          rw [hcuts] at hx ⊢
          rw [List.getLast?_cons_cons] at hx
          exact List.mem_of_getLast? hx
        obtain ⟨h1, h2, -⟩ := h.certified x hmem
        exact ⟨h1, fun _ => h2⟩
  have hchain : (0 :: st.cuts ++ [t.length]).IsChain
      fun a c => a < c ∧ (st.cuts ≠ [] → floor ≤ c - a) := by
    rw [List.isChain_append]
    refine ⟨h.chain.imp fun a c hac => ⟨hac.1, fun _ => hac.2⟩, List.isChain_singleton _, ?_⟩
    intro x hx y hy
    cases hy
    exact hend x hx
  refine ⟨?_, ?_, rfl, ?_, ?_, ?_⟩
  · rw [length_spans_planOf]
    omega
  · exact covers_zip (hchain.imp fun a c hac => hac.1)
  · intro p hp
    rw [cuts_planOf] at hp
    obtain ⟨hlt, -, hcert⟩ := h.certified p hp
    exact hcert.certified hlt refusal
  · intro span hspan hmany
    rw [length_spans_planOf] at hmany
    have hne : st.cuts ≠ [] := by
      rw [← List.length_pos_iff]
      omega
    exact Nat.le_trans hfloor ((rel_of_mem_zip_tail hchain hspan).2 hne)
  · intro _ _
    rw [cuts_planOf]
    exact hcount

theorem wrappingMul_four_eq_zero : wrappingMul 4 k = 0 ↔ 2 ^ 62 ∣ k := by
  unfold wrappingMul
  omega

/-- The floor the planner computes is at least the one it promises. -/
theorem floorOf_spec (total : ℕ) (h : ¬(minChunk = none ∧ 2 ^ 62 ∣ k)) :
    ∃ floor, ChunkEncoder.floorOf total k minChunk = .ok floor ∧ minChunkOr total k minChunk ≤ floor := by
  cases minChunk with
  | some floor => exact ⟨floor, rfl, le_rfl⟩
  | none =>
      have hpos : 0 < wrappingMul 4 k := by
        rw [Nat.pos_iff_ne_zero, ne_eq, wrappingMul_four_eq_zero]
        exact fun hk => h ⟨rfl, hk⟩
      refine ⟨_, by rw [ChunkEncoder.floorOf, divide_of_pos hpos]; rfl, ?_⟩
      have hshare : total / (4 * k) ≤ total / wrappingMul 4 k :=
        Nat.div_le_div_left (Nat.mod_le _ _) hpos
      simp only [minChunkOr, Option.getD_none]
      omega

theorem floorOf_eq_panic {total : ℕ} (h : 2 ^ 62 ∣ k) :
    ChunkEncoder.floorOf total k none = .error .Panic := by
  rw [ChunkEncoder.floorOf, divide, if_pos (wrappingMul_four_eq_zero.mpr h)]
  rfl

theorem wrappingMul_div_lt {total index : ℕ} (htotal : 0 < total) (hindex : index < k) :
    wrappingMul total index / k < total := by
  rw [Nat.div_lt_iff_lt_mul (by omega)]
  exact Nat.lt_of_le_of_lt (Nat.mod_le _ _) (Nat.mul_lt_mul_of_pos_left hindex htotal)

end

/-- The planner returns a valid plan, or what the normalizer raised, unless its default floor
divides by a product that wraps to zero. -/
theorem endsIn_planCounted (A : AhoCorasick) (document : Json) (literals : List Text)
    (b : BpeSyncBoundary) (reference : ReferenceEngine) (t : Text) {k : ℕ} (hk : 1 ≤ k)
    (minChunk : Option ℕ) (scanBudget : ℕ)
    (hwrap : ¬(1 < k ∧ MIN_TEXT_CHARS ≤ t.length ∧ minChunk = none ∧ 2 ^ 62 ∣ k)) :
    EndsIn (ValidPlan A (ChunkEncoder.new document literals b reference) literals t k minChunk)
      (Raised reference.normalize)
      ((ChunkEncoder.new document literals b reference).planCounted A t (countChars t) k minChunk
        scanBudget) := by
  obtain ⟨refusal, hnew⟩ := new_eq_rustPlanner document literals b reference
  rw [hnew, countChars_eq]
  by_cases hshort : k ≤ 1 ∨ t.length < MIN_TEXT_CHARS
  · rw [ChunkEncoder.planCounted, if_pos hshort]
    exact endsIn_ok (validPlan_single _ hk hshort)
  · have hmany : 1 < k := by omega
    have hlong : MIN_TEXT_CHARS ≤ t.length := by omega
    have hzero : ¬(minChunk = none ∧ 2 ^ 62 ∣ k) := fun h => hwrap ⟨hmany, hlong, h⟩
    rw [planCounted_eq A b literals _ refusal none hmany hlong]
    obtain ⟨floor, hfloor, hle⟩ := floorOf_spec t.length hzero
    rw [hfloor, ok_bind]
    have hpos : 0 < t.length := Nat.lt_of_lt_of_le (by decide) hlong
    have htargets : ∀ index, 0 < index → index < k →
        wrappingMul t.length index / k < t.length := fun index _ hindex =>
      wrappingMul_div_lt hpos hindex
    have hsearch := endsIn_cutsBy b literals (ruleOf document reference) none floor
      scanBudget htargets
    refine (hsearch.imp (fun _ _ h => h) fun e he => ?_).bind fun st _ hst => ?_
    · obtain ⟨reference', hrule, hraised⟩ := he
      unfold ruleOf at hrule
      split at hrule
      · cases hrule
        exact hraised
      · cases hrule
    · exact endsIn_pure (validPlan_planOf refusal hmany hlong hle hst)

theorem planCounted_eq_panic (A : AhoCorasick) (encoder : ChunkEncoder) (t : Text) {k : ℕ}
    (scanBudget : ℕ) (hk : 1 < k) (ht : MIN_TEXT_CHARS ≤ t.length) (hdvd : 2 ^ 62 ∣ k) :
    encoder.planCounted A t (countChars t) k none scanBudget = .error .Panic := by
  rw [countChars_eq, ChunkEncoder.planCounted, if_neg (by omega), floorOf_eq_panic hdvd]
  rfl

/-- The planner returns a valid plan, or what the normalizer raised, exactly when its default
floor does not divide by a product that wraps to zero. -/
theorem planCounted_valid (A : AhoCorasick) (document : Json) (literals : List Text)
    (b : BpeSyncBoundary) (reference : ReferenceEngine) (t : Text) {k : ℕ} (hk : 1 ≤ k)
    (minChunk : Option ℕ) (scanBudget : ℕ) :
    EndsIn (ValidPlan A (ChunkEncoder.new document literals b reference) literals t k minChunk)
        (Raised reference.normalize)
        ((ChunkEncoder.new document literals b reference).planCounted A t (countChars t) k minChunk
          scanBudget) ↔
      ¬(1 < k ∧ MIN_TEXT_CHARS ≤ t.length ∧ minChunk = none ∧ 2 ^ 62 ∣ k) := by
  refine ⟨fun h => ?_, endsIn_planCounted A document literals b reference t hk minChunk scanBudget⟩
  rintro ⟨hmany, hlong, rfl, hdvd⟩
  exact h.noPanic (planCounted_eq_panic A _ t scanBudget hmany hlong hdvd)

/-- A table of letters. -/
def letters : BpeSyncBoundary := ⟨fun _ => .L⟩

/-- A reference engine whose normalizer changes nothing. -/
def plainReference : ReferenceEngine := ⟨fun _ => .error ⟨""⟩, .ok, .error ⟨""⟩⟩

theorem planCounted_valid_four :
    1 ≤ 4 ∧ EndsIn (ValidPlan .naive (ChunkEncoder.new .null [] letters plainReference) []
        (List.replicate 300 'a') 4 none) (Raised plainReference.normalize)
      ((ChunkEncoder.new .null [] letters plainReference).planCounted .naive
        (List.replicate 300 'a') (countChars (List.replicate 300 'a')) 4 none 4096) :=
  ⟨by decide, (planCounted_valid .naive .null [] letters plainReference (List.replicate 300 'a')
    (show 1 ≤ 4 by decide) none 4096).mpr fun h => absurd h.2.2.2 (by decide)⟩

/-- For `2 ^ 62` chunks of 256 characters the divisor of the default floor wraps to zero. -/
theorem planCounted_letters_eq_panic :
    (ChunkEncoder.new .null [] letters plainReference).planCounted .naive (List.replicate 256 'a')
      (countChars (List.replicate 256 'a')) (2 ^ 62) none 4096 = .error .Panic :=
  planCounted_eq_panic _ _ _ _ (by decide) (by rw [List.length_replicate]; decide) (by decide)

theorem planCounted_wraps :
    ¬EndsIn (ValidPlan .naive (ChunkEncoder.new .null [] letters plainReference) []
        (List.replicate 256 'a') (2 ^ 62) none) (Raised plainReference.normalize)
      ((ChunkEncoder.new .null [] letters plainReference).planCounted .naive
        (List.replicate 256 'a') (countChars (List.replicate 256 'a')) (2 ^ 62) none 4096) := by
  rw [planCounted_letters_eq_panic]
  exact fun h => h.noPanic rfl

/-! ## Agreement -/

/-- What both planners report of a plan. -/
def ChunkPlan.reported (plan : ChunkPlan) : Py.ChunkPlan :=
  ⟨plan.spans, plan.k, plan.cutMisses, plan.literalRejects, plan.normRejects⟩

/-- No product of the plan leaves a machine word. -/
def FitsWord (total k : ℕ) (minChunk : Option ℕ) : Prop :=
  (minChunk = none → 4 * k < 2 ^ 64) ∧ total * (k - 1) < 2 ^ 64

theorem cutsBy_congr {planner : Py.Planner} {t : Text} {k floor scanBudget : ℕ}
    {target target' : ℕ → ℕ} (h : ∀ index, 0 < index → index < k → target index = target' index) :
    cutsBy planner t k floor scanBudget target = cutsBy planner t k floor scanBudget target' := by
  unfold cutsBy
  have hagree := Agree.foldlM (R := fun x y => x = y) (List.range' 1 (k - 1))
    (f := fun st index => planner.cutAt t floor scanBudget (target index) st)
    (g := fun st index => planner.cutAt t floor scanBudget (target' index) st)
    (s := ⟨[], 0, (0, 0), 0⟩) rfl fun index hindex st _ heq => by
      rw [List.mem_range'_1] at hindex
      subst heq
      rw [h index (by omega) (by omega)]
      exact Agree.refl _ fun _ _ => rfl
  exact hagree.eq

/-- Where no product wraps, the two planners return the same spans and counters, or fail with
the same error of the normalizer. -/
theorem planCounted_agrees (A : AhoCorasick) (document : Json) (literals : List Text)
    (b : BpeSyncBoundary) (reference : ReferenceEngine) (t : Text) (k : ℕ) (minChunk : Option ℕ)
    (scanBudget : ℕ)
    (h : 1 < k → MIN_TEXT_CHARS ≤ t.length → FitsWord t.length k minChunk) :
    ((ChunkEncoder.new document literals b reference).planCounted A t (countChars t) k minChunk
        scanBudget).map ChunkPlan.reported =
      (Py.Planner.new document literals b.classes reference.normalize).plan t k minChunk
        scanBudget := by
  obtain ⟨refusal, hrust⟩ := new_eq_rustPlanner document literals b reference
  obtain ⟨refusal', hpy⟩ := new_eq_pyPlanner document literals b reference
  rw [hrust, hpy, countChars_eq]
  unfold Py.Planner.plan
  rw [show Py.MIN_TEXT_CHARS = MIN_TEXT_CHARS from rfl]
  by_cases hshort : k ≤ 1 ∨ t.length < MIN_TEXT_CHARS
  · rw [ChunkEncoder.planCounted, if_pos hshort]
    dsimp only
    rw [if_pos hshort]
    rfl
  · obtain ⟨hfour, hproduct⟩ := h (by omega) (by omega)
    have hfloor : ChunkEncoder.floorOf t.length k minChunk = .ok (minChunkOr t.length k minChunk) := by
      cases minChunk with
      | some floor => rfl
      | none =>
          have hword : wrappingMul 4 k = 4 * k := Nat.mod_eq_of_lt (hfour rfl)
          rw [ChunkEncoder.floorOf, hword, divide_of_pos (by omega)]
          rfl
    rw [planCounted_eq A b literals _ refusal refusal' (by omega) (by omega), hfloor, ok_bind]
    dsimp only
    rw [if_neg hshort]
    have htargets : ∀ index, 0 < index → index < k →
        wrappingMul t.length index / k = t.length * index / k := by
      intro index _ hindex
      have hle : t.length * index ≤ t.length * (k - 1) := Nat.mul_le_mul_left _ (by omega)
      rw [wrappingMul, Nat.mod_eq_of_lt (by omega)]
    rw [cutsBy_congr htargets]
    unfold cutsBy minChunkOr
    cases (List.range' 1 (k - 1)).foldlM (fun st index =>
      (pyPlanner b literals (ruleOf document reference) refusal').cutAt t
        (minChunk.getD (max 16 (min 1024 (t.length / (4 * k))))) scanBudget (t.length * index / k) st)
          (⟨[], 0, (0, 0), 0⟩ : Py.Search) <;> rfl

theorem planCounted_agrees_four :
    ((ChunkEncoder.new .null [] letters plainReference).planCounted .naive
        (List.replicate 300 'a') (countChars (List.replicate 300 'a')) 4 none 4096).map
          ChunkPlan.reported =
      (Py.Planner.new .null [] letters.classes plainReference.normalize).plan
        (List.replicate 300 'a') 4 none 4096 :=
  planCounted_agrees .naive .null [] letters plainReference (List.replicate 300 'a') 4 none 4096
    fun _ _ => ⟨fun _ => by decide, by rw [List.length_replicate]; decide⟩

/-- The Python planner never leaves its text. -/
theorem noPanic_plan (document : Json) (literals : List Text) (b : BpeSyncBoundary)
    (reference : ReferenceEngine) (t : Text) (k : ℕ) (minChunk : Option ℕ) (scanBudget : ℕ) :
    NoPanic ((Py.Planner.new document literals b.classes reference.normalize).plan t k minChunk
      scanBudget) := by
  obtain ⟨refusal, hpy⟩ := new_eq_pyPlanner document literals b reference
  rw [hpy]
  unfold Py.Planner.plan
  dsimp only
  by_cases hshort : k ≤ 1 ∨ t.length < Py.MIN_TEXT_CHARS
  · rw [if_pos hshort]
    exact NoPanic.ok _
  · rw [if_neg hshort]
    have hpos : 0 < t.length := by
      have : Py.MIN_TEXT_CHARS = 256 := rfl
      omega
    have htargets : ∀ index, 0 < index → index < k → t.length * index / k < t.length := by
      intro index _ hindex
      rw [Nat.div_lt_iff_lt_mul (by omega)]
      exact Nat.mul_lt_mul_of_pos_left hindex hpos
    exact (endsIn_cutsBy b literals (ruleOf document reference) refusal _ scanBudget
      htargets).noPanic.bind fun st _ => NoPanic.pure _

/-- For `2 ^ 62` chunks the Rust planner panics, and the Python planner does not. -/
theorem planCounted_disagrees :
    ((ChunkEncoder.new .null [] letters plainReference).planCounted .naive
        (List.replicate 256 'a') (countChars (List.replicate 256 'a')) (2 ^ 62) none 4096).map
          ChunkPlan.reported ≠
      (Py.Planner.new .null [] letters.classes plainReference.normalize).plan
        (List.replicate 256 'a') (2 ^ 62) none 4096 := by
  rw [planCounted_letters_eq_panic]
  exact fun h => noPanic_plan .null [] letters plainReference (List.replicate 256 'a') (2 ^ 62) none
    4096 h.symm

end Toktier.Chunked
