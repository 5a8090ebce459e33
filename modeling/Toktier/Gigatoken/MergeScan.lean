import Mathlib.Data.List.GetD
import Mathlib.Data.List.Perm.Subperm
import Toktier.Gigatoken.Merge
import Toktier.Lib.LinkedCells

/-!
# The scanned merge loops are exact

A round of a scanned loop takes one step of the textbook merge: the scan finds the first of the
lowest ranks, and the round keeps every rank that it does not refresh.

## Main definitions

* `Holds`: the positions that are left, with the ranks of their pairs.

## Main results

* `mergeSlice_eq`: the scanned loop computes the textbook merge.
-/
namespace Toktier.Gigatoken

open Toktier.Lib

/-- The rule with ranks as numbers. -/
def natRule (rule : Rule) (a b : TokenId) : Option (ℕ × TokenId) :=
  (rule a b).map fun p => (p.1.toNat, p.2)

/-- The textbook merge of a rule. -/
def textbook (rule : Rule) (symbols : List TokenId) : List TokenId :=
  RankMerging.merge (natRule rule) symbols

theorem natRule_eq_some {rule : Rule} {a b : TokenId} {p : ℕ × TokenId} :
    natRule rule a b = some p ↔ ∃ rank, rule a b = some (rank, p.2) ∧ rank.toNat = p.1 := by
  obtain ⟨r, z⟩ := p
  unfold natRule
  cases rule a b with
  | none => simp
  | some q =>
    obtain ⟨rank, merged⟩ := q
    simp only [Option.map_some, Option.some.injEq, Prod.mk.injEq]
    exact ⟨fun ⟨hr, hz⟩ => ⟨rank, ⟨rfl, hz⟩, hr⟩, fun ⟨rank', ⟨hr, hz⟩, h⟩ => ⟨hr ▸ h, hz⟩⟩

theorem natRule_eq_none {rule : Rule} {a b : TokenId} :
    natRule rule a b = none ↔ rule a b = none := Option.map_eq_none_iff

variable {rule : Rule} {n fuel i k write : ℕ} {next prev : ℕ → ℕ} {stop : ℕ → Bool}
  {symbols : ℕ → TokenId} {ps u v : List ℕ} {first last : ℕ}

/-! ### Compaction -/

variable (symbols) in
theorem collect_eq (h : Linked next prev first last ps) (hstop : ∀ p ∈ ps, stop p = false)
    (hlast : stop last = true) (hfuel : ps.length ≤ fuel) :
    collect next stop symbols fuel (ps.head?.getD last) = ps.map symbols := by
  induction ps generalizing fuel first with
  | nil =>
    cases fuel with
    | zero => rfl
    | succ fuel => exact if_pos hlast
  | cons p ps ih =>
    obtain ⟨fuel, rfl⟩ : ∃ m, fuel = m + 1 := ⟨fuel - 1, by rw [List.length_cons] at hfuel; omega⟩
    obtain ⟨first', hrest⟩ := h.of_cons
    have hnext : next p = ps.head?.getD last := h.next_eq (u := [])
    rw [List.head?_cons, Option.getD_some, collect, hstop p List.mem_cons_self, hnext,
      ih hrest (fun q hq => hstop q (List.mem_cons_of_mem p hq)) (Nat.le_of_succ_le_succ hfuel)]
    rfl

/-- Writes never overtake reads. -/
theorem compact_eq {s : ℕ → TokenId} {k : ℕ} (h : Linked next prev first last ps) (hstop : ∀ p ∈ ps, stop p = false)
    (hlast : stop last = true) (hfuel : ps.length ≤ fuel) (hwrite : ∀ p ∈ ps, k ≤ p) :
    (compact next stop fuel s k (ps.head?.getD last)).2 = k + ps.length ∧
      (List.range' k ps.length).map
        (compact next stop fuel s k (ps.head?.getD last)).1 = ps.map s ∧
      ∀ p < k, (compact next stop fuel s k (ps.head?.getD last)).1 p = s p := by
  induction ps generalizing fuel first s k with
  | nil =>
    cases fuel with
    | zero => exact ⟨rfl, rfl, fun _ _ => rfl⟩
    | succ fuel =>
      rw [List.head?_nil, Option.getD_none, compact, if_pos hlast]
      exact ⟨rfl, rfl, fun _ _ => rfl⟩
  | cons p ps ih =>
    obtain ⟨fuel, rfl⟩ : ∃ m, fuel = m + 1 := ⟨fuel - 1, by rw [List.length_cons] at hfuel; omega⟩
    obtain ⟨first', hrest⟩ := h.of_cons
    have hnext : next p = ps.head?.getD last := h.next_eq (u := [])
    have hp : k ≤ p := hwrite p List.mem_cons_self
    have hlt : ∀ q ∈ ps, p < q := (List.pairwise_cons.mp h.sorted).1
    have hsame : ps.map (Function.update s k (s p)) = ps.map s := by
      refine List.map_congr_left fun q hq => Function.update_of_ne ?_ _ _
      have := hlt q hq
      omega
    rw [List.head?_cons, Option.getD_some, compact, hstop p List.mem_cons_self, hnext]
    obtain ⟨hcount, hmap, hkeep⟩ := ih (s := Function.update s k (s p))
      (k := k + 1) hrest (fun q hq => hstop q (List.mem_cons_of_mem p hq))
      (Nat.le_of_succ_le_succ hfuel) fun q hq => by have := hlt q hq; omega
    refine ⟨?_, ?_, fun q hq => ?_⟩
    · exact hcount.trans (by rw [List.length_cons]; omega)
    · rw [List.length_cons, List.range'_succ, List.map_cons, List.map_cons]
      refine congrArg₂ List.cons ?_ (hmap.trans hsame)
      exact (hkeep k (Nat.lt_succ_self _)).trans (Function.update_self ..)
    · exact (hkeep q (by omega)).trans (Function.update_of_ne (by omega) _ _)

/-- What is left after truncation are the symbols at the linked positions. -/
theorem truncated_eq (h : Linked next prev first last ps) (hstart : ps.head? = some 0)
    (hstop : ∀ p ∈ ps, stop p = false) (hlast : stop last = true) (hlen : ps.length ≤ n) :
    truncated next stop n symbols = ps.map symbols := by
  have hc := compact_eq (s := symbols) (k := 0) h hstop hlast hlen
    fun _ _ => Nat.zero_le _
  rw [hstart, Option.getD_some] at hc
  rw [truncated]
  dsimp only
  rw [hc.1, Nat.zero_add, List.range_eq_range', hc.2.1]

/-! ### The scan -/

/-- The scan finds the first of the lowest ranks. -/
theorem bestPair_spec (ranks : ℕ → UInt32) (k : ℕ) :
    (∀ j < k, (bestPair ranks k).1 ≤ ranks j) ∧
      ((bestPair ranks k).1 = NO_RANK ∨ (bestPair ranks k).2 < k ∧
        ranks (bestPair ranks k).2 = (bestPair ranks k).1 ∧
        ∀ j < (bestPair ranks k).2, (bestPair ranks k).1 < ranks j) := by
  induction k with
  | zero => exact ⟨fun _ h => absurd h (Nat.not_lt_zero _), .inl rfl⟩
  | succ k ih =>
    obtain ⟨hle, hbest⟩ := ih
    rw [bestPair]
    dsimp only
    split_ifs with hlt
    · refine ⟨fun j hj => ?_, .inr ⟨Nat.lt_succ_self k, rfl, fun j hj => ?_⟩⟩
      · rcases Nat.lt_succ_iff_lt_or_eq.mp hj with hj | rfl
        · exact UInt32.le_of_lt (UInt32.lt_of_lt_of_le hlt (hle j hj))
        · exact UInt32.le_refl _
      · exact UInt32.lt_of_lt_of_le hlt (hle j hj)
    · refine ⟨fun j hj => ?_, hbest.imp id fun h => ⟨h.1.trans (Nat.lt_succ_self k), h.2⟩⟩
      rcases Nat.lt_succ_iff_lt_or_eq.mp hj with hj | rfl
      · exact hle j hj
      · exact UInt32.not_lt.mp hlt

/-! ### One round -/

/-- The positions `ps` are left, in order, with the merged tokens and the ranks of their pairs;
no other position has a rank. -/
structure Holds (rule : Rule) (n : ℕ) (c : Cells) (ps : List ℕ) : Prop where
  linked : Linked c.next c.prev 255 n ps
  start : ps.head? = some 0
  bound : ∀ p ∈ ps, p < n
  pairs : ps.IsChain fun p q =>
    (c.merged p, c.ranks p) = pairRank rule (c.symbols p) (c.symbols q)
  idle : ∀ p, p ∉ ps ∨ p ∈ ps.getLast? → c.ranks p = NO_RANK

theorem pairRank_of_ne {a b : TokenId} {p : TokenId × UInt32} (h : p = pairRank rule a b)
    (hne : p.2 ≠ NO_RANK) : rule a b = some (p.2, p.1) := by
  subst h
  unfold pairRank at hne ⊢
  cases hrule : rule a b with
  | none => simp [hrule] at hne
  | some q => rfl

/-- Every rank of a pair is at least the one that the array has. -/
theorem rank_of_rule {a b : TokenId} {p : TokenId × UInt32} (h : p = pairRank rule a b)
    {q : ℕ × TokenId} (hq : q ∈ natRule rule a b) : q.1 = p.2.toNat := by
  obtain ⟨rank, hrule, hrank⟩ := natRule_eq_some.mp hq
  rw [h, pairRank, hrule]
  exact hrank.symm

/-- Where the scan finds a rank, a pair of the positions begins. -/
theorem Holds.exists_pair {c : Cells} (h : Holds rule n c ps) (hi : c.ranks i ≠ NO_RANK) :
    ∃ u d v, ps = u ++ i :: d :: v := by
  have hmem : i ∈ ps := by
    by_contra hi'
    exact hi (h.idle i (.inl hi'))
  obtain ⟨u, v, rfl⟩ := List.append_of_mem hmem
  cases v with
  | nil => exact absurd (h.idle i (.inr (by simp))) hi
  | cons d v => exact ⟨u, d, v, rfl⟩

section Round

variable {c : Cells} {d right left : ℕ}

variable (rule) in
theorem round_ranks (hdead : c.next i = d) (hright : c.next d = right)
    (hleft : (if right < n then Function.update c.prev right i else c.prev) i = left) (p : ℕ) :
    (c.round rule n i).ranks p =
      if left < n ∧ p = left then
        (pairRank rule (Function.update c.symbols i (c.merged i) left) (c.merged i)).2
      else if p = i then
        if right < n then
          (pairRank rule (c.merged i) (Function.update c.symbols i (c.merged i) right)).2
        else NO_RANK
      else if p = d then NO_RANK else c.ranks p := by
  unfold Cells.round
  dsimp only
  rw [hdead, hright, hleft, Function.update_self]
  split_ifs with h1 h2 h2 h3 h4 h5 h6 h7 <;> simp_all [Function.update_apply]

variable (rule) in
theorem round_merged (hdead : c.next i = d) (hright : c.next d = right)
    (hleft : (if right < n then Function.update c.prev right i else c.prev) i = left) (p : ℕ) :
    (c.round rule n i).merged p =
      if left < n ∧ p = left then
        (pairRank rule (Function.update c.symbols i (c.merged i) left) (c.merged i)).1
      else if right < n ∧ p = i then
        (pairRank rule (c.merged i) (Function.update c.symbols i (c.merged i) right)).1
      else c.merged p := by
  unfold Cells.round
  dsimp only
  rw [hdead, hright, hleft, Function.update_self]
  split_ifs with h1 h2 h2 h3 h4 h5 h6 h7 <;> simp_all [Function.update_apply]

/-- The cells around the pair that begins at `i`, and where the links lead. -/
structure Around (n : ℕ) (c : Cells) (u : List ℕ) (i d : ℕ) (v : List ℕ) : Prop where
  before : ∀ p ∈ u, p < i
  mid : i < d
  behind : ∀ p ∈ v, d < p
  lt : ∀ p ∈ v, p < n
  dead : c.next i = d
  right : c.next d = v.head?.getD n
  left : (if v.head?.getD n < n then Function.update c.prev (v.head?.getD n) i else c.prev) i =
    u.getLast?.getD 255

theorem Holds.around (h : Holds rule n c (u ++ i :: d :: v)) : Around n c u i d v := by
  have hsorted := List.pairwise_append.mp h.linked.sorted
  have hid := List.pairwise_cons.mp hsorted.2.1
  have hlt : ∀ p ∈ v, d < p := (List.pairwise_cons.mp hid.2).1
  have hdead : c.next i = d := h.linked.next_eq
  have hright : c.next d = v.head?.getD n := by
    have := h.linked
    rw [← List.singleton_append, ← List.append_assoc] at this
    exact this.next_eq
  refine ⟨fun p hp => hsorted.2.2 p hp i List.mem_cons_self, hid.1 d List.mem_cons_self, hlt,
    fun p hp => h.bound p (by simp [hp]), hdead, hright, ?_⟩
  rw [← h.linked.prev_eq (u := u)]
  split_ifs with hr
  · refine Function.update_of_ne (fun he => ?_) _ _
    have hmem : i ∈ d :: v := by
      cases v with
      | nil => simp at hr
      | cons w v => simp [he]
    exact absurd (hid.1 i hmem) (lt_irrefl i)
  · rfl

theorem left_ne (hn : n ≤ 255) {p : ℕ} (hp : p ∉ u.getLast?) :
    ¬(u.getLast?.getD 255 < n ∧ p = u.getLast?.getD 255) := by
  rintro ⟨hlt, he⟩
  cases hu : u.getLast? with
  | none =>
    rw [hu, Option.getD_none] at hlt
    omega
  | some w =>
    rw [hu, Option.getD_some] at he
    exact hp (by rw [hu, he]; rfl)

theorem Around.notMem_left (ha : Around n c u i d v) {p : ℕ} (hp : i ≤ p) : p ∉ u.getLast? := by
  intro hl
  have := ha.before p (List.mem_of_getLast? hl)
  omega

variable (rule) in
/-- A round changes nothing at the cells that stay as they are. -/
theorem Around.kept (ha : Around n c u i d v) (hn : n ≤ 255) {p : ℕ} (hi : p ≠ i) (hd : p ≠ d)
    (hl : p ∉ u.getLast?) :
    (c.round rule n i).ranks p = c.ranks p ∧ (c.round rule n i).merged p = c.merged p := by
  have hleft := left_ne hn hl
  rw [round_ranks _ ha.dead ha.right ha.left, round_merged _ ha.dead ha.right ha.left, if_neg hleft,
    if_neg hi, if_neg hd, if_neg hleft, if_neg fun h => hi h.2]
  exact ⟨rfl, rfl⟩

theorem symbols_round (p : ℕ) : (c.round rule n i).symbols p =
    Function.update c.symbols i (c.merged i) p := rfl

theorem symbols_round_of_ne {p : ℕ} (hp : p ≠ i) : (c.round rule n i).symbols p = c.symbols p :=
  Function.update_of_ne hp _ _

theorem linked_round (h : Holds rule n c (u ++ i :: d :: v)) (ha : Around n c u i d v) :
    Linked (c.round rule n i).next (c.round rule n i).prev 255 n (u ++ i :: v) := by
  refine h.linked.unlink ?_ (fun p hp _ => ?_) (fun q hq => ?_) fun p hp _ => ?_
  · unfold Cells.round
    dsimp only
    rw [Function.update_self, ha.dead]
  · unfold Cells.round
    dsimp only
    exact Function.update_of_ne hp _ _
  · have hqv := List.mem_of_mem_head? hq
    rw [Option.mem_def] at hq
    unfold Cells.round
    dsimp only
    rw [ha.dead, ha.right, hq, Option.getD_some, if_pos (ha.lt q hqv), Function.update_self]
  · unfold Cells.round
    dsimp only
    rw [ha.dead, ha.right]
    split_ifs with hr
    · refine Function.update_of_ne (fun he => hp ?_) _ _
      cases v with
      | nil => simp at hr
      | cons w v => simp [he]
    · rfl

/-- A round keeps the ranks of the pairs in order. -/
theorem Holds.round (h : Holds rule n c (u ++ i :: d :: v)) (hn : n ≤ 255) :
    Holds rule n (c.round rule n i) (u ++ i :: v) := by
  have ha := h.around
  obtain ⟨hfront, -, hback⟩ := List.isChain_append_cons_cons.mp h.pairs
  have hbound : ∀ p ∈ u ++ i :: v, p < n := fun p hp => h.bound p (by
    rcases List.mem_append.mp hp with hp | hp
    · exact List.mem_append_left _ hp
    · rcases List.mem_cons.mp hp with rfl | hp <;> simp_all)
  have hin : i < n := hbound i (by simp)
  refine ⟨linked_round h ha, ?_, hbound, List.isChain_split.mpr ⟨?_, ?_⟩, fun p hp => ?_⟩
  · have hstart := h.start
    cases u <;> simpa using hstart
  · -- the pairs before `i`: only the last of them has changed
    rcases u.eq_nil_or_concat with rfl | ⟨u, w, rfl⟩
    · exact .singleton i
    · rw [List.concat_eq_append] at *
      rw [List.append_assoc, List.singleton_append, List.isChain_append_cons_cons]
      have hw : w < i := ha.before w (by simp)
      have hlast : (u ++ [w]).getLast? = some w := by simp
      refine ⟨?_, ?_, .singleton i⟩
      · have hsorted : (u ++ [w]).IsChain (· < ·) :=
          (List.pairwise_append.mp h.linked.sorted).1.isChain
        have hchain : (u ++ [w]).IsChain fun p q =>
            (c.merged p, c.ranks p) = pairRank rule (c.symbols p) (c.symbols q) :=
          hfront.left_of_append
        refine (isChain_and hchain hsorted).imp_of_mem_imp fun p q hp hq hpq => ?_
        have hqi : q < i := ha.before q hq
        have hqw : q ≤ w := by
          rcases List.mem_append.mp hq with hq | hq
          · have := (List.pairwise_append.mp (List.pairwise_append.mp h.linked.sorted).1).2.2
            exact (this q hq w (List.mem_singleton_self w)).le
          · exact (List.mem_singleton.mp hq).le
        have hpq' : p < q := hpq.2
        have hmid := ha.mid
        have hkept := ha.kept rule hn (p := p) (by omega) (by omega)
          (by rw [hlast, Option.mem_some_iff]; omega)
        rw [hkept.1, hkept.2, symbols_round_of_ne (by omega), symbols_round_of_ne (by omega)]
        exact hpq.1
      · have hleft : (u ++ [w]).getLast?.getD 255 = w := by rw [hlast, Option.getD_some]
        rw [round_ranks _ ha.dead ha.right ha.left, round_merged _ ha.dead ha.right ha.left, hleft,
          if_pos ⟨hw.trans hin, rfl⟩, if_pos ⟨hw.trans hin, rfl⟩, symbols_round, symbols_round,
          Function.update_self]
  · -- the pairs from `i` on: only the first of them has changed
    cases v with
    | nil => exact .singleton i
    | cons w v =>
      have hwn := ha.lt w List.mem_cons_self
      have hdw := ha.behind w List.mem_cons_self
      have hmid := ha.mid
      have hleft := left_ne hn (ha.notMem_left le_rfl)
      refine List.isChain_cons_cons.mpr ⟨?_, ?_⟩
      · have hrank := round_ranks rule ha.dead ha.right ha.left i
        have hmerged := round_merged rule ha.dead ha.right ha.left i
        rw [List.head?_cons, Option.getD_some, if_neg hleft] at hrank hmerged
        rw [hrank, hmerged, if_pos rfl, if_pos hwn, if_pos ⟨hwn, rfl⟩, symbols_round, symbols_round,
          Function.update_self]
      · refine hback.tail.imp_of_mem_imp fun p q hp hq hpq => ?_
        have hp' := ha.behind p hp
        have hq' := ha.behind q hq
        have hkept := ha.kept rule hn (p := p) (by omega) (by omega)
          (ha.notMem_left (by omega))
        rw [hkept.1, hkept.2, symbols_round_of_ne (by omega), symbols_round_of_ne (by omega)]
        exact hpq
  · have hmid := ha.mid
    by_cases hpd : p = d
    · -- the right symbol of the pair has gone
      rw [round_ranks _ ha.dead ha.right ha.left, hpd,
        if_neg (left_ne hn (ha.notMem_left hmid.le)), if_neg hmid.ne', if_pos rfl]
    by_cases hpi : p = i
    · -- the merged symbol is the last one
      subst hpi
      have hv : v = [] := by
        rcases hp with hp | hp
        · exact absurd (by simp) hp
        · cases v with
          | nil => rfl
          | cons w v =>
            have hpv : p ∈ (w :: v).getLast? := by simpa using hp
            have := ha.behind p (List.mem_of_getLast? hpv)
            omega
      rw [round_ranks _ ha.dead ha.right ha.left, if_neg (left_ne hn (ha.notMem_left le_rfl)),
        if_pos rfl, hv, List.head?_nil, Option.getD_none, if_neg (lt_irrefl n)]
    have hpu : p ∉ u.getLast? := by
      intro hl
      have hmem := List.mem_of_getLast? hl
      rcases hp with hp | hp
      · exact hp (List.mem_append_left _ hmem)
      · have hlt := ha.before p hmem
        cases v with
        | nil => simp at hp; omega
        | cons w v =>
          have hpv : p ∈ (w :: v).getLast? := by simpa using hp
          have := ha.behind p (List.mem_of_getLast? hpv)
          omega
    rw [(ha.kept rule hn hpi hpd hpu).1]
    refine h.idle p ?_
    rcases hp with hp | hp
    · refine .inl fun hmem => hp ?_
      rcases List.mem_append.mp hmem with hmem | hmem
      · exact List.mem_append_left _ hmem
      · simp_all
    · right
      cases v with
      | nil => exact absurd (by simpa using hp.symm) hpi
      | cons w v => simpa using hp

/-- A round at the first of the lowest ranks is a step of the textbook merge. -/
theorem Holds.mergeStep (h : Holds rule n c (u ++ i :: d :: v)) (hi : c.ranks i ≠ NO_RANK)
    (hle : ∀ j < n - 1, c.ranks i ≤ c.ranks j) (hlt : ∀ j < i, c.ranks i < c.ranks j) :
    RankMerging.MergeStep (natRule rule) (c.ranks i).toNat ((u ++ i :: d :: v).map c.symbols)
      ((u ++ i :: v).map (c.round rule n i).symbols) := by
  have ha := h.around
  have hmid := ha.mid
  obtain ⟨hfront, hpair, hback⟩ := List.isChain_append_cons_cons.mp h.pairs
  have hhit : natRule rule (c.symbols i) (c.symbols d) = some ((c.ranks i).toNat, c.merged i) :=
    natRule_eq_some.mpr ⟨c.ranks i, pairRank_of_ne hpair hi, rfl⟩
  have hu : u.map (c.round rule n i).symbols = u.map c.symbols :=
    List.map_congr_left fun p hp => symbols_round_of_ne (ha.before p hp).ne
  have hv : v.map (c.round rule n i).symbols = v.map c.symbols :=
    List.map_congr_left fun p hp => symbols_round_of_ne (by have := ha.behind p hp; omega)
  have hmerged : (c.round rule n i).symbols i = c.merged i := by
    rw [symbols_round, Function.update_self]
  rw [List.map_append, List.map_append, List.map_cons, List.map_cons, List.map_cons, hu, hv,
    hmerged]
  refine .merge hhit ?_ ?_
  · have hsorted : (u ++ [i]).IsChain (· < ·) := by
      have := h.linked.sorted
      rw [← List.singleton_append, ← List.append_assoc] at this
      exact (List.pairwise_append.mp this).1.isChain
    rw [← List.map_singleton (f := c.symbols), ← List.map_append, List.isChain_map]
    refine (isChain_and hfront hsorted).imp_of_mem_imp fun p q hp hq hpq r hr => ?_
    have hqi : q ≤ i := by
      rcases List.mem_append.mp hq with hq | hq
      · exact (ha.before q hq).le
      · exact (List.mem_singleton.mp hq).le
    rw [rank_of_rule hpq.1 hr]
    exact UInt32.lt_iff_toNat_lt.mp (hlt p (lt_of_lt_of_le hpq.2 hqi))
  · have hsorted : (d :: v).IsChain (· < ·) := by
      have := h.linked.sorted
      exact (List.pairwise_cons.mp (List.pairwise_append.mp this).2.1).2.isChain
    rw [← List.map_cons, List.isChain_map]
    refine (isChain_and hback hsorted).imp_of_mem_imp fun p q hp hq hpq r hr => ?_
    have hqn : q < n := h.bound q (by simp_all)
    have hpq' : p < q := hpq.2
    rw [rank_of_rule hpq.1 hr]
    exact UInt32.le_iff_toNat_le.mp (hle p (by omega))

end Round

/-! ### The loop -/

/-- No rule has the rank that stands for no merge. -/
def Real (rule : Rule) : Prop := ∀ a b p, rule a b = some p → p.1 ≠ NO_RANK

theorem real_rankRule (getRank : TokenId → TokenId → UInt32) : Real (rankRule getRank) := by
  intro a b p hp
  unfold rankRule at hp
  split_ifs at hp with h
  obtain rfl := Option.some.inj hp
  exact h

/-- Without a rank there is no pair to merge. -/
theorem Holds.irreducible {c : Cells} (h : Holds rule n c ps) (hreal : Real rule)
    (hnone : ∀ j < n - 1, c.ranks j = NO_RANK) :
    RankMerging.Irreducible (natRule rule) (ps.map c.symbols) := by
  unfold RankMerging.Irreducible
  rw [List.isChain_map]
  refine (isChain_and h.pairs h.linked.sorted.isChain).imp_of_mem_imp fun p q _ hq hpq => ?_
  have hqn := h.bound q hq
  have hpq' : p < q := hpq.2
  rw [natRule_eq_none, Option.eq_none_iff_forall_ne_some]
  intro r hr
  refine hreal _ _ r hr ?_
  have hrank := hnone p (by omega)
  have := congrArg Prod.snd hpq.1
  rw [pairRank, hr] at this
  exact this.symm.trans hrank

/-- The loop ends with the textbook merge. -/
theorem Holds.mergeCells {c : Cells} (h : Holds rule n c ps) (hn : n ≤ 255) (hreal : Real rule)
    (hfuel : ps.length ≤ fuel) : ∃ ps', Holds rule n (mergeCells rule n fuel c) ps' ∧
      ps'.map (Gigatoken.mergeCells rule n fuel c).symbols = textbook rule (ps.map c.symbols) := by
  induction fuel generalizing c ps with
  | zero =>
    obtain rfl := List.length_eq_zero_iff.mp (Nat.le_zero.mp hfuel)
    exact absurd h.start (by simp)
  | succ fuel ih =>
    obtain ⟨hle, hbest⟩ := bestPair_spec c.ranks (n - 1)
    rw [Gigatoken.mergeCells]
    dsimp only
    split_ifs with hnone
    · refine ⟨ps, h, (RankMerging.Irreducible.merge_eq (h.irreducible hreal fun j hj => ?_)).symm⟩
      have hj := hle j hj
      rw [hnone, UInt32.le_iff_toNat_le] at hj
      have hlt := (c.ranks j).toNat_lt
      refine UInt32.toNat_inj.mp ?_
      have hmax : NO_RANK.toNat = 2 ^ 32 - 1 := rfl
      omega
    · obtain ⟨hin, hrank, hfirst⟩ := hbest.resolve_left hnone
      obtain ⟨u, d, v, rfl⟩ := h.exists_pair (by rw [hrank]; exact hnone)
      have hstep := h.mergeStep (by rw [hrank]; exact hnone) (by rwa [hrank]) (by rwa [hrank])
      obtain ⟨ps', hps, hmap⟩ := ih (h.round hn) (by simp at hfuel ⊢; omega)
      exact ⟨ps', hps, hmap.trans (RankMerging.merge_step hstep).symm⟩

variable (rule symbols) in
theorem holds_seed (hn : 0 < n) (hbyte : n ≤ 255) :
    Holds rule n (.seed rule symbols n) (List.range n) where
  linked := by
    refine Linked.range hn (fun i hi => ?_) (fun i hi => ?_) ?_ ?_
    · exact if_pos (by omega)
    · refine (if_pos hi).trans ?_
      omega
    · exact if_pos hn
    · refine (if_pos (by omega)).trans ?_
      omega
  start := by
    obtain ⟨n, rfl⟩ : ∃ m, n = m + 1 := ⟨n - 1, by omega⟩
    rw [List.range_succ_eq_map]
    rfl
  bound p hp := List.mem_range.mp hp
  pairs := by
    rw [List.isChain_iff_getElem]
    intro i hi
    rw [List.length_range] at hi
    rw [List.getElem_range, List.getElem_range]
    unfold Cells.seed
    dsimp only
    rw [if_pos hi, if_pos hi]
  idle := by
    intro p hp
    refine if_neg ?_
    rcases hp with hp | hp
    · rw [List.mem_range] at hp
      omega
    · obtain ⟨n, rfl⟩ : ∃ m, n = m + 1 := ⟨n - 1, by omega⟩
      rw [List.range_succ, List.getLast?_append, List.getLast?_singleton, Option.or,
        Option.mem_some_iff] at hp
      omega

theorem map_symbolsAt (symbols : List TokenId) :
    (List.range symbols.length).map (symbolsAt symbols) = symbols := by
  refine List.ext_getElem (by simp) fun i h h' => ?_
  rw [List.getElem_map, List.getElem_range, symbolsAt, List.getD_eq_getElem _ _ h']

/-- **A scanned loop computes the textbook merge**, whatever the symbols, as far as a byte holds
their positions. -/
theorem mergeSlice_eq (hreal : Real rule) (symbols : List TokenId) (hpos : symbols ≠ [])
    (hbyte : symbols.length ≤ 255) : mergeSlice rule symbols = textbook rule symbols := by
  have hseed := holds_seed rule (symbolsAt symbols) (List.length_pos_of_ne_nil hpos) hbyte
  obtain ⟨ps, hps, hmap⟩ := hseed.mergeCells hbyte hreal (le_of_eq List.length_range)
  have hlen : ps.length ≤ symbols.length := by
    have hsub : ps ⊆ List.range symbols.length := fun p hp => List.mem_range.mpr (hps.bound p hp)
    simpa using (hps.linked.nodup.subperm hsub).length_le
  rw [mergeSlice, truncated_eq hps.linked hps.start (fun p hp => decide_eq_false (not_le.mpr (hps.bound p hp)))
    (decide_eq_true le_rfl) hlen, hmap]
  exact congrArg _ (map_symbolsAt symbols)

end Toktier.Gigatoken
