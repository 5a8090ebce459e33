import Mathlib.Algebra.Group.Nat.Defs
import Mathlib.Order.MinMax
import Toktier.Gigatoken.MergeScan

/-!
# The merge loop with a heap is exact

Entries of the heap go stale when a symbol is merged away or gets another neighbour, and are
skipped when they are popped. Every pair that can merge has an entry with its rank, so the lowest
entry that is not stale is the first pair of the lowest rank.

## Main definitions

* `HeapCode.Exact`: entries are ordered by rank and position, and are read back.
* `HeapHolds`: the positions that are left, with an entry for each pair.

## Main results

* `bpeMergeSymbolsByRank_eq`, `bpeMergeSymbolsRanked_eq`: the merges of the encoder compute the
  textbook merge.
-/
namespace Toktier.Gigatoken

open Toktier.Lib

variable {ε : Type} {code : HeapCode ε} {rule : Rule} {n fuel i d : ℕ}
  {c : HeapCells ε} {ps u v : List ℕ} {e : ε} {rank : UInt32} {z : TokenId}

/-- Entries for positions below `n` are read back and come in the order of rank and position. -/
structure HeapCode.Exact [LinearOrder ε] (code : HeapCode ε) (n : ℕ) : Prop where
  rank : ∀ r, ∀ p < n, code.rank (code.pack r p) = r.toNat
  pos : ∀ r, ∀ p < n, code.pos (code.pack r p) = p
  le : ∀ r r', ∀ p < n, ∀ p' < n, code.pack r p ≤ code.pack r' p' →
    r.toNat < r'.toNat ∨ r = r' ∧ p ≤ p'
  none : n ≤ code.NONE
  forget : ∀ prev d p, p ≠ d → code.forget prev d p = prev p

/-- The positions `ps` are left, in order; a symbol that has gone has no neighbour; the entries
are of positions of the array; and each pair that merges has its entry. -/
structure HeapHolds (code : HeapCode ε) (rule : Rule) (n : ℕ) (c : HeapCells ε) (ps : List ℕ) :
    Prop where
  linked : Linked c.next c.prev code.NONE code.NONE ps
  start : ps.head? = some 0
  bound : ∀ p ∈ ps, p < n
  gone : ∀ p < n, p ∉ ps → c.next p = code.NONE
  packed : ∀ e ∈ c.heap, ∃ r, ∃ p < n, e = code.pack r p
  pairs : ps.IsChain fun p q =>
    ∀ r z, rule (c.symbols p) (c.symbols q) = some (r, z) → code.pack r p ∈ c.heap

/-! ### Entries that are skipped -/

/-- An entry that no pair has can be dropped. -/
theorem HeapHolds.skip [LinearOrder ε] (h : HeapHolds code rule n c ps) (hx : code.Exact n)
    (hstale : ∀ p q z, p < n → c.next p = q → q ≠ code.NONE →
      rule (c.symbols p) (c.symbols q) = some (rank, z) → e ≠ code.pack rank p)
    (he : ∃ p < n, e = code.pack rank p) :
    HeapHolds code rule n { c with heap := c.heap.erase e } ps := by
  refine ⟨h.linked, h.start, h.bound, h.gone, fun e' he' => h.packed e' (List.mem_of_mem_erase he'),
    ?_⟩
  obtain ⟨p₀, hp₀, rfl⟩ := he
  refine (isChain_and h.pairs h.linked.links).imp_of_mem_imp fun p q hp hq hpq r z hrule => ?_
  refine (List.mem_erase_of_ne fun heq => ?_).mpr (hpq.1 r z hrule)
  have hpn := h.bound p hp
  have hp' : p = p₀ := by
    rw [← hx.pos r p hpn, heq, hx.pos rank p₀ hp₀]
  have hr : r = rank := by
    refine UInt32.toNat_inj.mp ?_
    rw [← hx.rank r p hpn, heq, hx.rank rank p₀ hp₀]
  subst hp' hr
  have hqn := h.bound q hq
  have hnone := hx.none
  exact hstale p q z hpn hpq.2.1 (by omega) hrule rfl

/-! ### Entries that are applied -/

theorem mem_pairEntry {a b : TokenId} {pos : ℕ} (h : rule a b = some (rank, z)) :
    code.pack rank pos ∈ pairEntry code rule a b pos := by
  rw [pairEntry, h]
  exact List.mem_singleton_self _

theorem of_mem_pairEntry {a b : TokenId} {pos : ℕ} (h : e ∈ pairEntry code rule a b pos) :
    ∃ r, e = code.pack r pos := by
  rw [pairEntry] at h
  cases hrule : rule a b with
  | none => simp [hrule] at h
  | some p =>
    obtain ⟨r, z⟩ := p
    rw [hrule] at h
    exact ⟨r, List.mem_singleton.mp h⟩

theorem length_pairEntry_le (a b : TokenId) (pos : ℕ) :
    (pairEntry code rule a b pos).length ≤ 1 := by
  rw [pairEntry]
  cases rule a b <;> simp

/-- Where the links of the pair at `i` lead. -/
structure Neighbours (code : HeapCode ε) (n : ℕ) (c : HeapCells ε) (u : List ℕ) (i d : ℕ)
    (v : List ℕ) : Prop where
  before : ∀ p ∈ u, p < i
  mid : i < d
  behind : ∀ p ∈ v, d < p
  lt : ∀ p ∈ u ++ i :: d :: v, p < n
  right : c.next i = d
  rightRight : c.next d = v.head?.getD code.NONE
  left : c.prev i = u.getLast?.getD code.NONE

theorem HeapHolds.neighbours (h : HeapHolds code rule n c (u ++ i :: d :: v)) :
    Neighbours code n c u i d v := by
  have hsorted := List.pairwise_append.mp h.linked.sorted
  have hid := List.pairwise_cons.mp hsorted.2.1
  have hdead : c.next d = v.head?.getD code.NONE := by
    have := h.linked
    rw [← List.singleton_append, ← List.append_assoc] at this
    exact this.next_eq
  exact ⟨fun p hp => hsorted.2.2 p hp i List.mem_cons_self, hid.1 d List.mem_cons_self,
    (List.pairwise_cons.mp hid.2).1, h.bound, h.linked.next_eq, hdead, h.linked.prev_eq⟩

section Apply

variable [LinearOrder ε] {heap : List ε}

omit [LinearOrder ε] in
theorem symbols_apply (p : ℕ) :
    (c.apply code rule i z heap).symbols p = Function.update c.symbols i z p := rfl

omit [LinearOrder ε] in
theorem symbols_apply_of_ne {p : ℕ} (hp : p ≠ i) :
    (c.apply code rule i z heap).symbols p = c.symbols p := Function.update_of_ne hp _ _

variable (rule z heap) in
omit [LinearOrder ε] in
theorem Neighbours.next_apply (hn : Neighbours code n c u i d v) (p : ℕ) :
    (c.apply code rule i z heap).next p =
      if p = d then code.NONE else if p = i then v.head?.getD code.NONE else c.next p := by
  unfold HeapCells.apply
  dsimp only
  rw [hn.right, hn.rightRight, Function.update_apply, Function.update_apply]

theorem Neighbours.prev_apply (hn : Neighbours code n c u i d v) (hx : code.Exact n) {p : ℕ}
    (hp : p ≠ d) : (c.apply code rule i z heap).prev p =
      if p ∈ v.head? then i else c.prev p := by
  have hnone := hx.none
  unfold HeapCells.apply
  dsimp only
  rw [hn.right, hn.rightRight, hx.forget _ _ _ hp]
  cases hv : v.head? with
  | none => simp
  | some w =>
    have hw : w < n := hn.lt w (by simp [List.mem_of_mem_head? hv])
    rw [Option.getD_some, if_neg (by omega), Function.update_apply]
    simp [eq_comm]

/-- The links after a merge. -/
theorem Neighbours.linked (hn : Neighbours code n c u i d v) (hx : code.Exact n)
    (h : Linked c.next c.prev code.NONE code.NONE (u ++ i :: d :: v)) :
    Linked (c.apply code rule i z heap).next (c.apply code rule i z heap).prev code.NONE code.NONE
      (u ++ i :: v) := by
  have hmid := hn.mid
  refine h.unlink ?_ (fun p hpi hpd => ?_) (fun q hq => ?_) fun p hp hpd => ?_
  · rw [hn.next_apply _ _ _, if_neg hmid.ne, if_pos rfl, hn.rightRight]
  · rw [hn.next_apply _ _ _, if_neg hpd, if_neg hpi]
  · rw [hn.prev_apply hx (hn.behind q (List.mem_of_mem_head? hq)).ne', if_pos hq]
  · rw [hn.prev_apply hx hpd, if_neg hp]

variable (rule z heap) in
/-- The entries after a merge: one for the pair on each side, and the others. -/
theorem Neighbours.heap_apply (hn : Neighbours code n c u i d v) (hx : code.Exact n) :
    (c.apply code rule i z heap).heap =
      (v.head?.elim [] fun w => pairEntry code rule z (c.symbols w) i) ++
      ((u.getLast?.elim [] fun w => pairEntry code rule (c.symbols w) z w) ++ heap) := by
  have hmid := hn.mid
  have hnone := hx.none
  have hi := hn.lt i (by simp)
  have hleft : (c.apply code rule i z heap).prev i = u.getLast?.getD code.NONE := by
    rw [hn.prev_apply hx hmid.ne, if_neg, hn.left]
    intro hv
    have := hn.behind i (List.mem_of_mem_head? hv)
    omega
  have hright := hn.next_apply rule z heap i
  rw [if_neg hmid.ne, if_pos rfl] at hright
  unfold HeapCells.apply at hleft hright ⊢
  dsimp only at hleft hright ⊢
  rw [hleft, hright, Function.update_self]
  have hv : ∀ w ∈ v.head?, w ≠ code.NONE ∧ w ≠ i := fun w hw => by
    have hw := List.mem_of_mem_head? hw
    have := hn.behind w hw
    have := hn.lt w (by simp [hw])
    omega
  have hu : ∀ w ∈ u.getLast?, w ≠ code.NONE ∧ w ≠ i := fun w hw => by
    have hw := List.mem_of_getLast? hw
    have := hn.before w hw
    omega
  cases hv' : v.head? with
  | none => cases hu' : u.getLast? with
    | none => simp
    | some w =>
      obtain ⟨hne, hwi⟩ := hu w hu'
      simp [hne, Function.update_of_ne hwi]
  | some w =>
    obtain ⟨hne, hwi⟩ := hv w hv'
    cases hu' : u.getLast? with
    | none => simp [hne, Function.update_of_ne hwi]
    | some w' =>
      obtain ⟨hne', hwi'⟩ := hu w' hu'
      simp [hne, Function.update_of_ne hwi, hne', Function.update_of_ne hwi']

variable (rule z heap) in
theorem Neighbours.length_heap_apply (hn : Neighbours code n c u i d v) (hx : code.Exact n) :
    (c.apply code rule i z heap).heap.length ≤ heap.length + 2 := by
  have hside (o : Option ℕ) (f : ℕ → List ε) (hf : ∀ w, (f w).length ≤ 1) :
      (o.elim [] f).length ≤ 1 := by
    cases o with
    | none => exact Nat.zero_le 1
    | some w => exact hf w
  have hv := hside v.head? (fun w => pairEntry code rule z (c.symbols w) i)
    fun w => length_pairEntry_le _ _ _
  have hu := hside u.getLast? (fun w => pairEntry code rule (c.symbols w) z w)
    fun w => length_pairEntry_le _ _ _
  rw [hn.heap_apply _ _ _ hx, List.length_append, List.length_append]
  omega

/-- A merge keeps an entry for each pair. -/
theorem HeapHolds.apply (h : HeapHolds code rule n c (u ++ i :: d :: v)) (hx : code.Exact n)
    (he : ∀ e ∈ c.heap, e ≠ code.pack rank i → e ∈ heap) (hsub : heap ⊆ c.heap) :
    HeapHolds code rule n (c.apply code rule i z heap) (u ++ i :: v) := by
  have hn := h.neighbours
  have hmid := hn.mid
  have hin := hn.lt i (by simp)
  have hbound : ∀ p ∈ u ++ i :: v, p < n := fun p hp => hn.lt p (by
    rcases List.mem_append.mp hp with hp | hp
    · exact List.mem_append_left _ hp
    · rcases List.mem_cons.mp hp with rfl | hp <;> simp_all)
  have hheap := hn.heap_apply rule z heap hx
  -- the entry of another position is still there
  have hkeep : ∀ r, ∀ p < n, p ≠ i → code.pack r p ∈ c.heap →
      code.pack r p ∈ (c.apply code rule i z heap).heap := by
    intro r p hp hpi hmem
    rw [hheap]
    refine List.mem_append_right _ (List.mem_append_right _ (he _ hmem fun heq => ?_))
    exact hpi (by rw [← hx.pos r p hp, heq, hx.pos rank i hin])
  obtain ⟨hfront, -, hback⟩ := List.isChain_append_cons_cons.mp h.pairs
  refine ⟨hn.linked hx h.linked, ?_, hbound, fun p hp hgone => ?_, fun e hmem => ?_,
    List.isChain_split.mpr ⟨?_, ?_⟩⟩
  · have hstart := h.start
    cases u <;> simpa using hstart
  · rw [hn.next_apply _ _ _]
    split_ifs with hpd hpi
    · rfl
    · exact absurd (by simp [hpi]) hgone
    · refine h.gone p hp fun hmem => hgone ?_
      simpa [hpd] using hmem
  · rw [hheap, List.mem_append, List.mem_append] at hmem
    rcases hmem with hmem | hmem | hmem
    · cases hv : v.head? with
      | none => simp [hv] at hmem
      | some w =>
        rw [hv] at hmem
        obtain ⟨r, rfl⟩ := of_mem_pairEntry hmem
        exact ⟨r, i, hin, rfl⟩
    · cases hu : u.getLast? with
      | none => simp [hu] at hmem
      | some w =>
        rw [hu] at hmem
        obtain ⟨r, rfl⟩ := of_mem_pairEntry hmem
        exact ⟨r, w, hbound w (List.mem_append_left _ (List.mem_of_getLast? hu)), rfl⟩
    · exact h.packed e (hsub hmem)
  · -- the pairs before `i`: only the last of them is new
    rcases u.eq_nil_or_concat with rfl | ⟨u, w, rfl⟩
    · exact .singleton i
    · rw [List.concat_eq_append] at *
      rw [List.append_assoc, List.singleton_append, List.isChain_append_cons_cons]
      have hw : w < i := hn.before w (by simp)
      refine ⟨?_, fun r z' hrule => ?_, .singleton i⟩
      · have hchain : (u ++ [w]).IsChain fun p q =>
            ∀ r z, rule (c.symbols p) (c.symbols q) = some (r, z) → code.pack r p ∈ c.heap :=
          hfront.left_of_append
        refine hchain.imp_of_mem_imp fun p q hp hq hpq r z' hrule => ?_
        have hpi := hn.before p hp
        have hqi := hn.before q hq
        rw [symbols_apply_of_ne hpi.ne, symbols_apply_of_ne hqi.ne] at hrule
        exact hkeep r p (by omega) hpi.ne (hpq r z' hrule)
      · rw [symbols_apply_of_ne hw.ne, symbols_apply, Function.update_self] at hrule
        rw [hheap]
        refine List.mem_append_right _ (List.mem_append_left _ ?_)
        rw [List.getLast?_append, List.getLast?_singleton, Option.some_or, Option.elim_some]
        exact mem_pairEntry hrule
  · -- the pairs from `i` on: only the first of them is new
    cases v with
    | nil => exact .singleton i
    | cons w v =>
      have hwd := hn.behind w List.mem_cons_self
      refine List.isChain_cons_cons.mpr ⟨fun r z' hrule => ?_, ?_⟩
      · rw [symbols_apply, Function.update_self, symbols_apply_of_ne (by omega)] at hrule
        rw [hheap]
        refine List.mem_append_left _ ?_
        rw [List.head?_cons, Option.elim_some]
        exact mem_pairEntry hrule
      · refine hback.tail.imp_of_mem_imp fun p q hp hq hpq r z' hrule => ?_
        have hpd := hn.behind p hp
        have hqd := hn.behind q hq
        have hpn := hbound p (List.mem_append_right _ (List.mem_cons_of_mem i hp))
        rw [symbols_apply_of_ne (by omega), symbols_apply_of_ne (by omega)] at hrule
        exact hkeep r p hpn (by omega) (hpq r z' hrule)

/-- The lowest entry, when it is not stale, is the pair that the textbook merges. -/
theorem HeapHolds.mergeStep (h : HeapHolds code rule n c (u ++ i :: d :: v)) (hx : code.Exact n)
    (hrule : rule (c.symbols i) (c.symbols d) = some (rank, z))
    (hmin : ∀ e ∈ c.heap, code.pack rank i ≤ e) :
    RankMerging.MergeStep (natRule rule) rank.toNat ((u ++ i :: d :: v).map c.symbols)
      ((u ++ i :: v).map (c.apply code rule i z heap).symbols) := by
  have hn := h.neighbours
  have hmid := hn.mid
  have hin := hn.lt i (by simp)
  obtain ⟨hfront, -, hback⟩ := List.isChain_append_cons_cons.mp h.pairs
  have hlinks := List.isChain_append_cons_cons.mp h.linked.links
  have hu : u.map (c.apply code rule i z heap).symbols = u.map c.symbols :=
    List.map_congr_left fun p hp => symbols_apply_of_ne (hn.before p hp).ne
  have hv : v.map (c.apply code rule i z heap).symbols = v.map c.symbols :=
    List.map_congr_left fun p hp => symbols_apply_of_ne (by have := hn.behind p hp; omega)
  have hmerged : (c.apply code rule i z heap).symbols i = z := Function.update_self ..
  -- what the order of the entries says of a pair
  have hpair : ∀ p < n, ∀ q, (∀ r z, rule (c.symbols p) (c.symbols q) = some (r, z) →
      code.pack r p ∈ c.heap) → ∀ r ∈ natRule rule (c.symbols p) (c.symbols q),
      rank.toNat < r.1 ∨ rank.toNat = r.1 ∧ i ≤ p := by
    intro p hp q hpq r hr
    obtain ⟨r', hr', hrank⟩ := natRule_eq_some.mp hr
    rcases hx.le rank r' i hin p hp (hmin _ (hpq r' r.2 hr')) with hlt | ⟨rfl, hle⟩
    · exact .inl (hrank ▸ hlt)
    · exact .inr ⟨hrank, hle⟩
  rw [List.map_append, List.map_append, List.map_cons, List.map_cons, List.map_cons, hu, hv,
    hmerged]
  refine .merge (natRule_eq_some.mpr ⟨rank, hrule, rfl⟩) ?_ ?_
  · rw [← List.map_singleton (f := c.symbols), ← List.map_append, List.isChain_map]
    have hsorted : (u ++ [i]).IsChain (· < ·) := by
      have := h.linked.sorted
      rw [← List.singleton_append, ← List.append_assoc] at this
      exact (List.pairwise_append.mp this).1.isChain
    refine (isChain_and hfront hsorted).imp_of_mem_imp fun p q hp hq hpq r hr => ?_
    have hqi : q ≤ i := by
      rcases List.mem_append.mp hq with hq | hq
      · exact (hn.before q hq).le
      · exact (List.mem_singleton.mp hq).le
    have hpi : p < i := lt_of_lt_of_le hpq.2 hqi
    rcases hpair p (by omega) q hpq.1 r hr with hlt | ⟨-, hle⟩
    · exact hlt
    · omega
  · rw [← List.map_cons, List.isChain_map]
    refine hback.imp_of_mem_imp fun p q hp hq hpq r hr => ?_
    rcases hpair p (hn.lt p (by simp_all)) q hpq r hr with hlt | ⟨heq, -⟩
    · exact hlt.le
    · exact heq.le

end Apply

/-! ### The loop -/

/-- A position with a neighbour is one of those that are left. -/
theorem HeapHolds.exists_pair (h : HeapHolds code rule n c ps) (hi : i < n)
    (hnext : c.next i ≠ code.NONE) : ∃ u v, ps = u ++ i :: c.next i :: v := by
  have hmem : i ∈ ps := by
    by_contra hgone
    exact hnext (h.gone i hi hgone)
  obtain ⟨u, v, rfl⟩ := List.append_of_mem hmem
  have hlink := h.linked.next_eq
  cases v with
  | nil => exact absurd hlink hnext
  | cons d v => exact ⟨u, v, by rw [hlink]; rfl⟩

/-- Without an entry there is no pair to merge. -/
theorem HeapHolds.irreducible (h : HeapHolds code rule n c ps) (hempty : c.heap = []) :
    RankMerging.Irreducible (natRule rule) (ps.map c.symbols) := by
  unfold RankMerging.Irreducible
  rw [List.isChain_map]
  refine h.pairs.imp fun p q hpq => ?_
  rw [natRule_eq_none, Option.eq_none_iff_forall_ne_some]
  rintro ⟨r, z⟩ hrule
  have := hpq r z hrule
  simp [hempty] at this

section Drain

variable [LinearOrder ε]

/-- Handling the lowest entry drops it, or takes one step. -/
theorem HeapHolds.handle (h : HeapHolds code rule n c ps) (hx : code.Exact n)
    (hmem : e ∈ c.heap) (hmin : ∀ e' ∈ c.heap, e ≤ e') :
    ∃ ps', HeapHolds code rule n (c.handle code rule e) ps' ∧
      (c.handle code rule e).heap.length + 3 * ps'.length < c.heap.length + 3 * ps.length ∧
      textbook rule (ps'.map (c.handle code rule e).symbols) = textbook rule (ps.map c.symbols) := by
  obtain ⟨rank, i, hi, rfl⟩ := h.packed e hmem
  have hlen : (c.heap.erase (code.pack rank i)).length + 1 = c.heap.length := by
    have := List.length_erase_of_mem hmem
    have := List.length_pos_of_mem hmem
    omega
  have hskip (hstale : ∀ z, c.next i ≠ code.NONE →
      rule (c.symbols i) (c.symbols (c.next i)) ≠ some (rank, z)) :
      HeapHolds code rule n { c with heap := c.heap.erase (code.pack rank i) } ps := by
    refine h.skip hx (fun p q z hp hq hne hrule heq => ?_) ⟨i, hi, rfl⟩
    obtain rfl : i = p := by rw [← hx.pos rank i hi, heq, hx.pos rank p hp]
    subst hq
    exact hstale z hne hrule
  unfold HeapCells.handle
  dsimp only
  rw [hx.pos rank i hi, hx.rank rank i hi]
  split_ifs with hnext
  · exact ⟨ps, hskip fun z hne => absurd hnext hne, by dsimp only; omega, rfl⟩
  cases hrule : rule (c.symbols i) (c.symbols (c.next i)) with
  | none => exact ⟨ps, hskip fun z _ hr => by simp [hrule] at hr, by dsimp only; omega, rfl⟩
  | some p =>
    obtain ⟨rank', z⟩ := p
    dsimp only
    split_ifs with hrank
    · obtain rfl := UInt32.toNat_inj.mp hrank
      obtain ⟨u, v, hps⟩ := h.exists_pair hi hnext
      generalize c.next i = d at *
      subst hps
      have hkeep : ∀ e ∈ c.heap, e ≠ code.pack rank' i → e ∈ c.heap.erase (code.pack rank' i) :=
        fun e he hne => (List.mem_erase_of_ne hne).mpr he
      refine ⟨u ++ i :: v, h.apply hx hkeep List.erase_subset, ?_, ?_⟩
      · have := h.neighbours.length_heap_apply rule z
          (c.heap.erase (code.pack rank' i)) hx
        simp only [List.length_append, List.length_cons]
        omega
      · exact (RankMerging.merge_step (h.mergeStep hx hrule hmin)).symm
    · refine ⟨ps, hskip fun z' _ hr => ?_, by dsimp only; omega, rfl⟩
      rw [hrule] at hr
      exact hrank (by rw [(Prod.mk.inj (Option.some.inj hr)).1])

theorem min?_spec {heap : List ε} (h : heap.min? = some e) : e ∈ heap ∧ ∀ e' ∈ heap, e ≤ e' := by
  have : Std.LawfulOrderMin ε := .of_le_min_iff (fun _ _ _ => le_min_iff) fun _ _ => min_choice _ _
  exact List.min?_eq_some_iff.mp h

variable (fuel) in
/-- The loop ends with the textbook merge. -/
theorem HeapHolds.drainHeap (h : HeapHolds code rule n c ps) (hx : code.Exact n)
    (hfuel : c.heap.length + 3 * ps.length ≤ fuel) :
    ∃ ps', HeapHolds code rule n (drainHeap code rule fuel c) ps' ∧
      ps'.map (Gigatoken.drainHeap code rule fuel c).symbols =
        textbook rule (ps.map c.symbols) := by
  induction fuel generalizing c ps with
  | zero =>
    obtain rfl : ps = [] := List.length_eq_zero_iff.mp (by omega)
    exact absurd h.start (by simp)
  | succ fuel ih =>
    rw [Gigatoken.drainHeap]
    cases hmin : c.heap.min? with
    | none =>
      have hempty := List.min?_eq_none_iff.mp hmin
      exact ⟨ps, h, (RankMerging.Irreducible.merge_eq (h.irreducible hempty)).symm⟩
    | some e =>
      obtain ⟨hmem, hle⟩ := min?_spec hmin
      obtain ⟨ps', hps', hless, hsame⟩ := h.handle hx hmem hle
      obtain ⟨ps'', hps'', hmap⟩ := ih hps' (by omega)
      exact ⟨ps'', hps'', hmap.trans hsame⟩

end Drain

/-! ### The entries of the two heaps -/

theorem packMergeEntry_eq {merged : TokenId} {pos : ℕ} (hpos : pos < 2 ^ 32) :
    packMergeEntry merged pos = merged.toNat * 2 ^ 32 + pos := by
  rw [packMergeEntry, ← Nat.shiftLeft_add_eq_or_of_lt hpos, Nat.shiftLeft_eq]

/-- Packed words are in the order of rank and position. -/
theorem packedCode_exact (hn : n < 2 ^ 32) : packedCode.Exact n where
  rank r p hp := by
    change packMergeEntry r p >>> 32 = r.toNat
    rw [packMergeEntry_eq (by omega), Nat.shiftRight_eq_div_pow]
    omega
  pos r p hp := by
    change packMergeEntry r p &&& 0xFFFFFFFF = p
    rw [packMergeEntry_eq (by omega)]
    exact (Nat.and_two_pow_sub_one_eq_mod _ 32).trans (by omega)
  le r r' p hp p' hp' hle := by
    change packMergeEntry r p ≤ packMergeEntry r' p' at hle
    rw [packMergeEntry_eq (by omega), packMergeEntry_eq (by omega)] at hle
    rw [← UInt32.toNat_inj]
    omega
  none := by
    change n ≤ 0xFFFFFFFF
    omega
  forget _ _ _ _ := rfl

theorem pairCode_exact (hn : n < 2 ^ 64) : pairCode.Exact n where
  rank _ _ _ := rfl
  pos _ _ _ := rfl
  le r r' p hp p' hp' hle := by
    rw [← UInt32.toNat_inj]
    exact Prod.Lex.toLex_le_toLex.mp hle
  none := by
    change n ≤ 0xFFFFFFFFFFFFFFFF
    omega
  forget _ _ _ hp := Function.update_of_ne hp _ _

/-! ### Whole merges -/

theorem length_flatMap_le {f : ℕ → List ε} (hf : ∀ i, (f i).length ≤ 1) (l : List ℕ) :
    (l.flatMap f).length ≤ l.length := by
  induction l with
  | nil => exact Nat.le_refl 0
  | cons i l ih =>
    have := hf i
    rw [List.flatMap_cons, List.length_append, List.length_cons]
    omega

variable [LinearOrder ε] {symbols : ℕ → TokenId}

variable (rule symbols) in
theorem heapHolds_seed (hx : code.Exact n) (hn : 0 < n) :
    HeapHolds code rule n (.seed code rule symbols n) (List.range n) where
  linked := by
    refine Linked.range hn (fun i hi => if_pos hi) (fun i hi => ?_) ?_ ?_
    · unfold HeapCells.seed
      dsimp only
      rw [if_pos (Nat.succ_pos i), Nat.add_sub_cancel]
    · unfold HeapCells.seed
      dsimp only
      rw [if_neg (lt_irrefl 0)]
    · exact if_neg (by omega)
  start := by
    obtain ⟨n, rfl⟩ : ∃ m, n = m + 1 := ⟨n - 1, by omega⟩
    rw [List.range_succ_eq_map]
    rfl
  bound p hp := List.mem_range.mp hp
  gone p hp hgone := absurd (List.mem_range.mpr hp) hgone
  packed e he := by
    obtain ⟨i, hi, hmem⟩ := List.mem_flatMap.mp he
    obtain ⟨r, rfl⟩ := of_mem_pairEntry hmem
    have := List.mem_range.mp hi
    exact ⟨r, i, by omega, rfl⟩
  pairs := by
    rw [List.isChain_iff_getElem]
    intro i hi r z hrule
    rw [List.length_range] at hi
    rw [List.getElem_range, List.getElem_range] at hrule
    rw [List.getElem_range]
    exact List.mem_flatMap.mpr ⟨i, List.mem_range.mpr (by omega), mem_pairEntry hrule⟩

variable (rule) in
/-- Draining the heap leaves the symbols of the textbook merge at linked positions. -/
theorem mergeHeap_spec {symbols : List TokenId} (hx : code.Exact symbols.length)
    (hpos : symbols ≠ []) : ∃ ps, ps.length ≤ symbols.length ∧
      HeapHolds code rule symbols.length (mergeHeap code rule symbols) ps ∧
      ps.map (mergeHeap code rule symbols).symbols = textbook rule symbols := by
  have hseed := heapHolds_seed rule (symbolsAt symbols) hx
    (List.length_pos_of_ne_nil hpos)
  have hheap : (HeapCells.seed code rule (symbolsAt symbols) symbols.length).heap.length ≤
      symbols.length - 1 :=
    (length_flatMap_le (fun i => length_pairEntry_le _ _ _) _).trans_eq List.length_range
  obtain ⟨ps, hps, hmap⟩ := hseed.drainHeap (4 * symbols.length) hx
    (by rw [List.length_range]; omega)
  refine ⟨ps, ?_, hps, hmap.trans (congrArg _ (map_symbolsAt symbols))⟩
  have hsub : ps ⊆ List.range symbols.length := fun p hp => List.mem_range.mpr (hps.bound p hp)
  simpa using (hps.linked.nodup.subperm hsub).length_le

omit [LinearOrder ε] in
/-- There is nothing to merge in fewer than two symbols. -/
theorem textbook_short {symbols : List TokenId} (h : symbols.length < 2) :
    textbook rule symbols = symbols := by
  refine RankMerging.Irreducible.merge_eq ?_
  rcases symbols with - | ⟨x, - | ⟨y, l⟩⟩
  · exact .nil
  · exact .singleton x
  · exact absurd h (by simp)

omit [LinearOrder ε] in
/-- **Merging with a merge table computes the textbook merge.** -/
theorem bpeMergeSymbolsRanked_eq (hreal : Real rule) (symbols : List TokenId)
    (hlen : symbols.length < 2 ^ 64) :
    bpeMergeSymbolsRanked rule symbols = textbook rule symbols := by
  rw [bpeMergeSymbolsRanked]
  dsimp only
  split_ifs with hshort hsmall
  · exact (textbook_short hshort).symm
  · refine mergeSlice_eq hreal symbols (List.ne_nil_of_length_pos (by omega)) ?_
    rw [SMALL_MERGE_MAX] at hsmall
    omega
  · obtain ⟨ps, hle, hps, hmap⟩ := mergeHeap_spec rule (pairCode_exact hlen)
      (List.ne_nil_of_length_pos (by omega))
    have hnone := (pairCode_exact hlen).none
    have hstop : ∀ p ∈ ps, decide (p = pairCode.NONE) = false := fun p hp =>
      decide_eq_false (by have := hps.bound p hp; omega)
    have hall := collect_eq (mergeHeap pairCode rule symbols).symbols hps.linked hstop
      (decide_eq_true rfl) hle
    rw [hps.start, Option.getD_some] at hall
    exact hall.trans hmap

omit [LinearOrder ε] in
/-- **Merging with the merged id as the rank computes the textbook merge**, as far as 32 bits hold
the positions. -/
theorem bpeMergeSymbolsByRank_eq (getRank : TokenId → TokenId → UInt32) (symbols : List TokenId)
    (hlen : symbols.length < 2 ^ 32) :
    bpeMergeSymbolsByRank getRank symbols = textbook (rankRule getRank) symbols := by
  rw [bpeMergeSymbolsByRank]
  dsimp only
  split_ifs with hshort hsmall
  · exact (textbook_short hshort).symm
  · refine mergeSlice_eq (real_rankRule getRank) symbols (List.ne_nil_of_length_pos (by omega)) ?_
    rw [SMALL_MERGE_MAX] at hsmall
    omega
  · obtain ⟨ps, hle, hps, hmap⟩ := mergeHeap_spec (rankRule getRank) (packedCode_exact hlen)
      (List.ne_nil_of_length_pos (by omega))
    have hnone := (packedCode_exact hlen).none
    have hstop : ∀ p ∈ ps, decide (p = packedCode.NONE) = false := fun p hp =>
      decide_eq_false (by have := hps.bound p hp; omega)
    exact (truncated_eq hps.linked hps.start hstop (decide_eq_true rfl) hle).trans hmap

/-! ### All loops -/

end Toktier.Gigatoken
