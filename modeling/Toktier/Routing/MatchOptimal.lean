import Toktier.Routing.RepairAgreement

/-!
# The best common run

The repair search follows a run from every pair of equal records that no earlier run has covered,
and keeps the longest one, of equally long ones the one that covers more characters. A run that
begins inside an earlier one is shorter than that one, so it could not be better.

The covered characters are a difference of machine integers: `sub`. It does not go below zero where
the records of the window do not go back.

## Main definitions

* `RunAt`, `MatchAt`: runs at two places of the rows, and the matches that speak of them.
* `findMatchBy`, `findMatchAll`: the search, and the one that follows all runs.

## Main results

* `findMatch_optimal`: the search returns a best run, if there is any.
* `findMatchBy_eq_findMatch`: the search over records that do not go back.
-/
namespace Toktier.Routing

open Toktier.Lib Toktier.StoreCore

attribute [local instance] lawfulBEq_positions

/-! ## Runs -/

/-- Equal records stand side by side from two places of the rows on. -/
structure RunAt (left right : List Record) (i j n : ℕ) : Prop where
  pos : 0 < n
  pairs : ∃ l₀ r₀, left[i]? = some l₀ ∧ right[j]? = some r₀ ∧ ∀ k < n, ∃ l r,
    left[i + k]? = some l ∧ right[j + k]? = some r ∧ l.originalIndex = l₀.originalIndex + k ∧
      r.originalIndex = r₀.originalIndex + k ∧ recordKey l = recordKey r

/-- The match is the run at two places of the rows. -/
structure MatchAt (sub : ℕ → ℕ → ℕ) (left right : List Record) (i j : ℕ) (m : Match) : Prop where
  run : RunAt left right i j m.length
  left_start : left[i]?.map Record.originalIndex = some m.leftStart
  right_start : right[j]?.map Record.originalIndex = some m.rightStart
  covered : some m.coveredChars =
    left[i]?.map fun l => sub (runEnd left (i + m.length - 1)) l.globalStart

/-- The best match is at least as good. -/
def Beaten (m : Match) (best : Option Match) : Prop :=
  ∃ b ∈ best, m.length < b.length ∨ (m.length = b.length ∧ m.coveredChars ≤ b.coveredChars)

/-! ## The search -/

section Search

variable (sub : ℕ → ℕ → ℕ) (left right : List Record)

/-- The longest run from a pair of equal records. -/
def candidate (l r : Record × ℕ) : Match :=
  let length := runLength l.1 r.1 1 (left.drop (l.2 + 1)) (right.drop (r.2 + 1))
  ⟨l.1.originalIndex, r.1.originalIndex, length,
    sub (runEnd left (l.2 + length - 1)) l.1.globalStart⟩

/-- The better of two matches; the first one if there is none. -/
def better (best : Option Match) (candidate : Match) : Match :=
  match best with
  | none => candidate
  | some current =>
      if current.length < candidate.length ∨ (current.length = candidate.length ∧
          current.coveredChars < candidate.coveredChars) then candidate
      else current

/-- Follow the run from one pair of equal records, unless an earlier run has covered it. -/
def MatchSearch.tryPairBy (l : Record × ℕ) (st : MatchSearch) (r : Record × ℕ) : MatchSearch :=
  if (l.2, r.2) ∈ st.covered then st
  else
    let found := candidate sub left right l r
    ⟨some (better st.best found),
      st.covered ++ (List.range' 1 (found.length - 1)).map fun n => (l.2 + n, r.2 + n)⟩

/-- The pairs of equal records. -/
def equalPairs : List ((Record × ℕ) × (Record × ℕ)) :=
  left.zipIdx.flatMap fun l =>
    (right.zipIdx.filter fun r => recordKey r.1 = recordKey l.1).map fun r => (l, r)

/-- The longest common run; of two that are equally long, the one that covers more. -/
def findMatchBy : Option Match :=
  (left.zipIdx.foldl (fun st l =>
    (right.zipIdx.filter fun r => recordKey r.1 = recordKey l.1).foldl
      (MatchSearch.tryPairBy sub left right l) st) (⟨none, []⟩ : MatchSearch)).best

/-- The search that follows the runs from all pairs. -/
def findMatchAll : Option Match :=
  left.zipIdx.foldl (fun best l =>
    (right.zipIdx.filter fun r => recordKey r.1 = recordKey l.1).foldl
      (fun best r => some (better best (candidate sub left right l r))) best) none

theorem findMatch_eq : findMatch left right = findMatchBy (· - ·) left right := rfl

theorem findMatchBy_eq_foldl : findMatchBy sub left right =
    ((equalPairs left right).foldl (fun st p => MatchSearch.tryPairBy sub left right p.1 st p.2)
      ⟨none, []⟩).best := by
  rw [findMatchBy, equalPairs, List.foldl_flatMap]
  simp only [List.foldl_map]

theorem findMatchAll_eq_foldl : findMatchAll sub left right =
    (equalPairs left right).foldl
      (fun best p => some (better best (candidate sub left right p.1 p.2))) none := by
  rw [findMatchAll, equalPairs, List.foldl_flatMap]
  simp only [List.foldl_map]

end Search

/-! ## Better matches -/

section Better

variable {m : Match} {best : Option Match}

theorem beaten_self (m : Match) : Beaten m (some m) := ⟨m, rfl, .inr ⟨rfl, le_rfl⟩⟩

theorem Beaten.length_le {b : Match} (h : Beaten m (some b)) : m.length ≤ b.length := by
  obtain ⟨_, ⟨⟩, hlt | ⟨heq, -⟩⟩ := h
  · exact hlt.le
  · exact heq.le

theorem Beaten.trans {b : Match} (h : Beaten m (some b)) (h' : Beaten b best) : Beaten m best := by
  obtain ⟨_, ⟨⟩, h⟩ := h
  obtain ⟨c, hc, h'⟩ := h'
  exact ⟨c, hc, by omega⟩

theorem beaten_better (best : Option Match) (m : Match) : Beaten m (some (better best m)) := by
  unfold better
  cases best with
  | none => exact beaten_self m
  | some current =>
      dsimp only
      split_ifs with hbetter
      · exact beaten_self m
      · exact ⟨current, rfl, by omega⟩

theorem Beaten.better (h : Beaten m best) (candidate : Match) :
    Beaten m (some (better best candidate)) := by
  obtain ⟨current, rfl, h⟩ := h
  unfold Routing.better
  dsimp only
  split_ifs with hbetter
  · exact ⟨candidate, rfl, by omega⟩
  · exact ⟨current, rfl, h⟩

/-- A match that is shorter than the best one changes nothing. -/
theorem better_of_length_lt {b : Match} (h : m.length < b.length) : better (some b) m = b := by
  unfold better
  exact if_neg (by omega)

/-- The best of matches is one of them, and at least as good as all. -/
theorem foldl_better (xs : List Match) (best : Option Match) :
    (∀ m, Beaten m best ∨ m ∈ xs →
      Beaten m (xs.foldl (fun best m => some (better best m)) best)) ∧
    ∀ m ∈ xs.foldl (fun best m => some (better best m)) best, m ∈ best ∨ m ∈ xs := by
  induction xs generalizing best with
  | nil => exact ⟨fun m h => h.resolve_right List.not_mem_nil, fun m h => .inl h⟩
  | cons x xs ih =>
      obtain ⟨hbeaten, hmem⟩ := ih (some (better best x))
      rw [List.foldl_cons]
      refine ⟨fun m hm => hbeaten m ?_, fun m hm => ?_⟩
      · obtain h | h := hm
        · exact .inl (h.better x)
        obtain rfl | h := List.mem_cons.mp h
        · exact .inl (beaten_better best m)
        · exact .inr h
      · obtain h | h := hmem m hm
        · obtain rfl := Option.some.inj h
          unfold better
          cases best with
          | none => exact .inr List.mem_cons_self
          | some current =>
              dsimp only
              split_ifs
              · exact .inr List.mem_cons_self
              · exact .inl rfl
        · exact .inr (List.mem_cons_of_mem x h)

end Better

/-! ## Runs and pairs -/

section Pairs

variable (sub : ℕ → ℕ → ℕ) {left right : List Record} {l r : Record × ℕ} {i j k n : ℕ}

theorem mem_equalPairs : (l, r) ∈ equalPairs left right ↔
    left[l.2]? = some l.1 ∧ right[r.2]? = some r.1 ∧ recordKey r.1 = recordKey l.1 := by
  rw [equalPairs, List.mem_flatMap]
  constructor
  · rintro ⟨l', hl, hpair⟩
    obtain ⟨r', hr, heq⟩ := List.mem_map.mp hpair
    cases heq
    obtain ⟨hr, hkey⟩ := List.mem_filter.mp hr
    exact ⟨List.mem_zipIdx_iff_getElem?.mp hl, List.mem_zipIdx_iff_getElem?.mp hr,
      of_decide_eq_true hkey⟩
  · rintro ⟨hl, hr, hkey⟩
    refine ⟨l, List.mem_zipIdx_iff_getElem?.mpr hl, List.mem_map_of_mem (List.mem_filter.mpr ?_)⟩
    exact ⟨List.mem_zipIdx_iff_getElem?.mpr hr, decide_eq_true hkey⟩

/-- A run begins with a pair of equal records. -/
theorem RunAt.exists_pair (h : RunAt left right i j n) :
    ∃ l r, ((l, i), (r, j)) ∈ equalPairs left right := by
  obtain ⟨l₀, r₀, -, -, hpairs⟩ := h.pairs
  obtain ⟨l, r, hl, hr, -, -, hkey⟩ := hpairs 0 h.pos
  exact ⟨l, r, mem_equalPairs.mpr ⟨hl, hr, hkey.symm⟩⟩

theorem RunAt.le_length (h : RunAt left right i j n) : i + n ≤ left.length ∧ j + n ≤ right.length := by
  obtain ⟨l₀, r₀, -, -, hpairs⟩ := h.pairs
  have hpos := h.pos
  obtain ⟨l, r, hl, hr, -⟩ := hpairs (n - 1) (by omega)
  have hlt := (List.getElem?_eq_some_iff.mp hl).1
  have hlt' := (List.getElem?_eq_some_iff.mp hr).1
  omega

/-- A run that begins inside another one goes on with that one. -/
theorem RunAt.extend (h : RunAt left right i j n) (hk : k < n) {m : ℕ}
    (h' : RunAt left right (i + k) (j + k) m) : RunAt left right i j (k + m) := by
  obtain ⟨l₀, r₀, hl₀, hr₀, hpairs⟩ := h.pairs
  obtain ⟨l₁, r₁, hl₁, hr₁, hpairs'⟩ := h'.pairs
  obtain ⟨l, r, hl, hr, hlIndex, hrIndex, -⟩ := hpairs k hk
  obtain rfl := Option.some.inj (hl.symm.trans hl₁)
  obtain rfl := Option.some.inj (hr.symm.trans hr₁)
  refine ⟨by have := h'.pos; omega, l₀, r₀, hl₀, hr₀, fun k' hk' => ?_⟩
  by_cases hin : k' < n
  · exact hpairs k' hin
  · obtain ⟨l', r', hl', hr', hlIndex', hrIndex', hkey⟩ := hpairs' (k' - k) (by omega)
    rw [show i + k + (k' - k) = i + k' by omega] at hl'
    rw [show j + k + (k' - k) = j + k' by omega] at hr'
    exact ⟨l', r', hl', hr', by omega, by omega, hkey⟩

/-- The runs from a pair are those that the search can follow. -/
theorem runAt_iff (h : (l, r) ∈ equalPairs left right) :
    RunAt left right l.2 r.2 n ↔ 0 < n ∧ n ≤ (candidate sub left right l r).length := by
  obtain ⟨hl, hr, hkey⟩ := mem_equalPairs.mp h
  constructor
  · intro hrun
    refine ⟨hrun.pos, (le_runLength_iff _ _ _ _ _ hrun.pos).mpr fun k hk hlt => ?_⟩
    obtain ⟨l₀, r₀, hl₀, hr₀, hpairs⟩ := hrun.pairs
    obtain rfl := Option.some.inj (hl.symm.trans hl₀)
    obtain rfl := Option.some.inj (hr.symm.trans hr₀)
    obtain ⟨l', r', hl', hr', hrest⟩ := hpairs k hlt
    refine ⟨l', r', ?_, ?_, hrest⟩
    · rw [List.getElem?_drop, show l.2 + 1 + (k - 1) = l.2 + k by omega, hl']
    · rw [List.getElem?_drop, show r.2 + 1 + (k - 1) = r.2 + k by omega, hr']
  · rintro ⟨hpos, hle⟩
    refine ⟨hpos, l.1, r.1, hl, hr, fun k hk => ?_⟩
    obtain rfl | hne := Nat.eq_zero_or_pos k
    · exact ⟨l.1, r.1, hl, hr, rfl, rfl, hkey.symm⟩
    · obtain ⟨l', r', hl', hr', hrest⟩ := runLength_get l.1 r.1 hne (hk.trans_le hle)
      rw [List.getElem?_drop, show l.2 + 1 + (k - 1) = l.2 + k by omega] at hl'
      rw [List.getElem?_drop, show r.2 + 1 + (k - 1) = r.2 + k by omega] at hr'
      exact ⟨l', r', hl', hr', hrest⟩

theorem matchAt_candidate (h : (l, r) ∈ equalPairs left right) :
    MatchAt sub left right l.2 r.2 (candidate sub left right l r) := by
  obtain ⟨hl, hr, -⟩ := mem_equalPairs.mp h
  refine ⟨(runAt_iff sub h).mpr ⟨?_, le_rfl⟩, ?_, ?_, ?_⟩
  · exact le_runLength _ _ _ _ _
  · rw [hl]
    rfl
  · rw [hr]
    rfl
  · rw [hl]
    rfl

/-- The longest run from a pair is at least as good as every run from it. -/
theorem MatchAt.beaten_candidate {sub : ℕ → ℕ → ℕ} {m : Match} (h : (l, r) ∈ equalPairs left right)
    (hm : MatchAt sub left right l.2 r.2 m) :
    Beaten m (some (candidate sub left right l r)) := by
  have hle := ((runAt_iff sub h).mp hm.run).2
  refine ⟨_, rfl, ?_⟩
  obtain hlt | heq := hle.lt_or_eq
  · exact .inl hlt
  · have hcovered := (matchAt_candidate sub h).covered
    rw [← heq, ← hm.covered] at hcovered
    exact .inr ⟨heq, (Option.some.inj hcovered).ge⟩

/-! ## Covered pairs -/

/-- Every run from a covered pair is shorter than the best one. -/
def Skips (left right : List Record) (st : MatchSearch) : Prop :=
  ∀ c ∈ st.covered, ∀ n, RunAt left right c.1 c.2 n → ∃ b ∈ st.best, n < b.length

/-- A pair that is passed over would not have changed the best match. -/
theorem Skips.tryPairBy {st : MatchSearch} (hst : Skips left right st)
    (h : (l, r) ∈ equalPairs left right) :
    (st.tryPairBy sub left right l r).best = some (better st.best (candidate sub left right l r)) ∧
      Skips left right (st.tryPairBy sub left right l r) := by
  have hrun := (matchAt_candidate sub h).run
  rw [MatchSearch.tryPairBy]
  split_ifs with hcovered
  · obtain ⟨b, hb, hlt⟩ := hst _ hcovered _ hrun
    have hbest : st.best = some b := hb
    rw [hbest, better_of_length_lt hlt]
    exact ⟨rfl, hst⟩
  · refine ⟨rfl, fun c hc n hn => ⟨_, rfl, ?_⟩⟩
    obtain hc | hc := List.mem_append.mp hc
    · obtain ⟨b, hb, hlt⟩ := hst c hc n hn
      have hbest : st.best = some b := hb
      rw [hbest]
      exact hlt.trans_le ((beaten_self b).better _).length_le
    · obtain ⟨k, hk, rfl⟩ := List.mem_map.mp hc
      rw [List.mem_range'_1] at hk
      have hlong := ((runAt_iff sub h).mp (hrun.extend (by omega) hn)).2
      have := (beaten_better st.best (candidate sub left right l r)).length_le
      omega

/-- Passing over covered pairs loses nothing. -/
theorem findMatchBy_eq_findMatchAll (left right : List Record) :
    findMatchBy sub left right = findMatchAll sub left right := by
  rw [findMatchBy_eq_foldl, findMatchAll_eq_foldl]
  have hfold (xs : List ((Record × ℕ) × (Record × ℕ))) (hxs : xs ⊆ equalPairs left right)
      (st : MatchSearch) (hst : Skips left right st) :
      (xs.foldl (fun st p => MatchSearch.tryPairBy sub left right p.1 st p.2) st).best =
        xs.foldl (fun best p => some (better best (candidate sub left right p.1 p.2))) st.best := by
    induction xs generalizing st with
    | nil => rfl
    | cons p xs ih =>
        obtain ⟨hp, hxs⟩ := List.cons_subset.mp hxs
        obtain ⟨hbest, hnext⟩ := hst.tryPairBy sub hp
        rw [List.foldl_cons, List.foldl_cons, ih hxs _ hnext, hbest]
  exact hfold _ (fun _ h => h) ⟨none, []⟩ nofun

/-- The search that follows all runs returns the match of a pair that is at least as good as
that of every pair. -/
theorem findMatchAll_spec (left right : List Record) :
    (∀ l r, (l, r) ∈ equalPairs left right →
      Beaten (candidate sub left right l r) (findMatchAll sub left right)) ∧
    ∀ m ∈ findMatchAll sub left right,
      ∃ l r, (l, r) ∈ equalPairs left right ∧ candidate sub left right l r = m := by
  let found (p : (Record × ℕ) × (Record × ℕ)) : Match := candidate sub left right p.1 p.2
  have hfold : findMatchAll sub left right = ((equalPairs left right).map found).foldl
      (fun best m => some (better best m)) none := by
    rw [findMatchAll_eq_foldl, List.foldl_map]
  obtain ⟨hbeaten, hmem⟩ := foldl_better ((equalPairs left right).map found) none
  rw [hfold]
  refine ⟨fun l r h => hbeaten _ (.inr (List.mem_map_of_mem (f := found) h)), fun m hm => ?_⟩
  obtain h | h := hmem m hm
  · cases h
  · obtain ⟨⟨l, r⟩, hp, rfl⟩ := List.mem_map.mp h
    exact ⟨l, r, hp, rfl⟩

/-- A run of records of an encoding is a run of its tokens. -/
theorem RunAt.le_ids (h : RunAt left right i j n) {ids : List UInt32} {spans : List (ℕ × ℕ)}
    {base overlapStart overlapEnd start : ℕ} {records : List Record}
    (hbuild : buildRecords ids spans base overlapStart overlapEnd = .ok records) :
    (records = left → left[i]?.map Record.originalIndex = some start → start + n ≤ ids.length) ∧
      (records = right → right[j]?.map Record.originalIndex = some start →
        start + n ≤ ids.length) := by
  obtain ⟨l₀, r₀, hl₀, hr₀, hpairs⟩ := h.pairs
  have hpos := h.pos
  obtain ⟨l, r, hl, hr, hlIndex, hrIndex, -⟩ := hpairs (n - 1) (by omega)
  constructor
  · rintro rfl hstart
    rw [hl₀] at hstart
    cases hstart
    have hid := (buildRecords_ok hbuild l (List.mem_of_getElem? hl)).id
    have := (List.getElem?_eq_some_iff.mp hid).1
    omega
  · rintro rfl hstart
    rw [hr₀] at hstart
    cases hstart
    have hid := (buildRecords_ok hbuild r (List.mem_of_getElem? hr)).id
    have := (List.getElem?_eq_some_iff.mp hid).1
    omega

end Pairs

/-! ## The best run -/

/-- The search is optimal, whatever the difference of positions is: it returns a common run at
least as good as every other one, nothing only where no records are common, and what it would
return without passing over any pair. The run lies in both rows, and in the ids that the records
were built from. -/
theorem findMatch_optimal (sub : ℕ → ℕ → ℕ) (left right : List Record) :
    (∀ m, findMatchBy sub left right = some m →
      (∃ i j, MatchAt sub left right i j m ∧ i + m.length ≤ left.length ∧
        j + m.length ≤ right.length) ∧
      (∀ i j other, MatchAt sub left right i j other → other.length < m.length ∨
        (other.length = m.length ∧ other.coveredChars ≤ m.coveredChars)) ∧
      ∀ ids spans base overlapStart overlapEnd,
        (buildRecords ids spans base overlapStart overlapEnd = .ok left →
          m.leftStart + m.length ≤ ids.length) ∧
        (buildRecords ids spans base overlapStart overlapEnd = .ok right →
          m.rightStart + m.length ≤ ids.length)) ∧
    (findMatchBy sub left right = none ↔ ∀ l ∈ left, ∀ r ∈ right, recordKey l ≠ recordKey r) ∧
    findMatchBy sub left right = findMatchAll sub left right := by
  have hall := findMatchBy_eq_findMatchAll sub left right
  obtain ⟨hbeaten, hmem⟩ := findMatchAll_spec sub left right
  rw [← hall] at hbeaten hmem
  refine ⟨fun m hm => ?_, ⟨fun hnone l hl r hr hkey => ?_, fun hne => ?_⟩, hall⟩
  · obtain ⟨l, r, hp, rfl⟩ := hmem m hm
    have hat := matchAt_candidate sub hp
    refine ⟨⟨l.2, r.2, hat, hat.run.le_length⟩, fun i j other hother => ?_,
      fun ids spans base overlapStart overlapEnd => ⟨fun h => ?_, fun h => ?_⟩⟩
    · obtain ⟨l', r', hp'⟩ := hother.run.exists_pair
      have hbest := (hother.beaten_candidate hp').trans (hbeaten _ _ hp')
      rw [hm] at hbest
      obtain ⟨_, ⟨⟩, h⟩ := hbest
      exact h
    · exact (hat.run.le_ids h).1 rfl hat.left_start
    · exact (hat.run.le_ids h).2 rfl hat.right_start
  · obtain ⟨i, hi⟩ := List.mem_iff_getElem?.mp hl
    obtain ⟨j, hj⟩ := List.mem_iff_getElem?.mp hr
    obtain ⟨b, hb, -⟩ := hbeaten (l, i) (r, j) (mem_equalPairs.mpr ⟨hi, hj, hkey.symm⟩)
    exact nomatch hnone.symm.trans hb
  · rw [Option.eq_none_iff_forall_ne_some]
    intro m hm
    obtain ⟨l, r, hp, -⟩ := hmem m hm
    obtain ⟨hl, hr, hkey⟩ := mem_equalPairs.mp hp
    exact hne l.1 (List.mem_of_getElem? hl) r.1 (List.mem_of_getElem? hr) hkey.symm

/-- Where the records of the window do not go back, a run ends behind its start, so that the
covered characters are the difference of the positions. -/
theorem findMatchBy_eq_findMatch {sub : ℕ → ℕ → ℕ} (hsub : ∀ a b, b ≤ a → sub a b = a - b)
    (left : List Record) {right : List Record} (hright : RunsForward right) :
    findMatchBy sub left right = findMatch left right := by
  have hcandidate (p : (Record × ℕ) × (Record × ℕ)) (hp : p ∈ equalPairs left right) :
      candidate sub left right p.1 p.2 = candidate (· - ·) left right p.1 p.2 := by
    obtain ⟨hl, hr, hkey⟩ := mem_equalPairs.mp hp
    unfold candidate
    dsimp only
    rw [hsub _ _ (start_le_runEnd hright hl hr hkey)]
  rw [findMatch_eq, findMatchBy_eq_findMatchAll, findMatchBy_eq_findMatchAll,
    findMatchAll_eq_foldl, findMatchAll_eq_foldl]
  refine List.foldl_ext _ _ none fun best p hp => ?_
  rw [hcandidate p hp]

end Toktier.Routing
