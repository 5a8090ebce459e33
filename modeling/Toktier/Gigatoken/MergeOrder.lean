import Toktier.Bpe.MemoRuns
import Toktier.Gigatoken.MergeHeap
import Toktier.Gigatoken.PairRank
import Toktier.Lib.RankTies

/-!
# The order of the merges

The loader of the CPU tokenizer and the exporter of the kernels read one merge list. The loader
ranks a pair by its merged id when the ids are in the order of the list, and else, as the kernels
do, by its place. Both merge alike when no tie between pairs of one id matters.

Maps are lists in the order of their iteration.

## Main definitions

* `mergesOf`, `rankedOf`: the two maps of a merge list.
* `loadedMerge`: the merge loop with the map that the loader makes.
* `HarmlessTies`: the condition on the pairs that make one token.

## Main results

* `loadedMerge_kernels`: the merge loops and the merge routines of the kernels agree.
-/
namespace Toktier.Gigatoken

open Toktier.Lib Toktier.Bpe

/-! ### The maps of the loader -/

/-- An entry of the merge list: two ids and the id of what they make. -/
abbrev MergeEntry := (TokenId × TokenId) × TokenId

/-- `merges.entry((a, b)).or_insert(merged)` -/
def Merges.orInsert (merges : Merges) (e : MergeEntry) : Merges :=
  if h : e.1 ∈ merges.entries.map Prod.fst then merges
  else ⟨merges.entries ++ [e], by
    rw [List.map_append, List.map_singleton]
    exact merges.nodup.append (List.nodup_singleton _) fun _ hx hy =>
      h (List.mem_singleton.mp hy ▸ hx)⟩

def Merges.empty : Merges := ⟨[], List.nodup_nil⟩

def mergesOf (entries : List MergeEntry) : Merges := entries.foldl Merges.orInsert .empty

/-- Merge priorities of their own, for ids that are in no merge order. -/
abbrev RankedMerges := UInt64 → Option (TokenId × UInt32)

def rankedMergeKey (a b : TokenId) : UInt64 := a.toUInt64 <<< 32 ||| b.toUInt64

def rankedRule (merges : RankedMerges) : Rule := fun a b =>
  (merges (rankedMergeKey a b)).map fun p => (p.2, p.1)

def rankedOf (entries : List MergeEntry) : RankedMerges :=
  entries.zipIdx.foldl (fun merges e =>
    let key := rankedMergeKey e.1.1.1 e.1.1.2
    if merges key = none then Function.update merges key (some (e.1.2, e.2.toUInt32)) else merges)
    fun _ => none

/-- The merged ids are in the order of the list. -/
def idOrderOk (entries : List MergeEntry) : Bool := decide (entries.IsChain fun e e' => e.2 ≤ e'.2)

/-- Merge with the map that the loader makes. `order` is the order in which a map is iterated. -/
def loadedMerge (order : Merges → Merges) (entries : List MergeEntry) (symbols : List TokenId) :
    List TokenId :=
  if idOrderOk entries then bpeMergeSymbols (order (mergesOf entries)).get symbols
  else bpeMergeSymbolsRanked (rankedRule (rankedOf entries)) symbols

variable {E : List MergeEntry} {p : TokenId × TokenId}

/-! ### The first entry of a pair -/

/-- The first entry of a pair, with its place. -/
def firstAt (E : List MergeEntry) (p : TokenId × TokenId) : Option (MergeEntry × ℕ) :=
  E.zipIdx.find? fun e => e.1.1 = p

theorem lookup_map_firstAt {κ ν : Type} [BEq κ] [LawfulBEq κ] (k : TokenId × TokenId → κ)
    (hk : Function.Injective k) (g : MergeEntry × ℕ → ν) (l : List (MergeEntry × ℕ)) :
    (l.map fun e => (k e.1.1, g e)).lookup (k p) = (l.find? fun e => e.1.1 = p).map g := by
  induction l with
  | nil => rfl
  | cons e l ih =>
    rw [List.map_cons, List.lookup_cons, List.find?_cons]
    by_cases he : e.1.1 = p
    · simp [he]
    · have hne : k p ≠ k e.1.1 := fun h => he (hk h).symm
      rw [beq_false_of_ne hne]
      simp [he, ih]

theorem lookup_firstAt : E.lookup p = (firstAt E p).map fun e => e.1.2 := by
  have hmap : (E.zipIdx.map fun e => (id e.1.1, e.1.2)) = E := List.zipIdx_map_fst 0 E
  exact (congrArg (List.lookup p) hmap).symm.trans
    (lookup_map_firstAt id Function.injective_id (fun e => e.1.2) E.zipIdx)

/-- What is found is an entry of the pair. -/
theorem of_firstAt {e : MergeEntry × ℕ} (h : firstAt E p = some e) :
    E[e.2]? = some e.1 ∧ e.1.1 = p :=
  ⟨List.mem_zipIdx_iff_getElem?.mp (List.mem_of_find?_eq_some h), by simpa using List.find?_some h⟩

/-! ### What the maps hold -/

theorem get_orInsert (merges : Merges) (e : MergeEntry) (a b : TokenId) :
    (merges.orInsert e).get a b = (merges.get a b).or (if e.1 = (a, b) then some e.2 else none) := by
  rw [Merges.get, Merges.get, Merges.orInsert]
  split_ifs with hmem he he
  · -- the pair is there already
    obtain ⟨e', he', hsame⟩ := List.mem_map.mp hmem
    cases hlookup : merges.entries.lookup (a, b) with
    | none =>
      have := List.lookup_eq_none_iff.mp hlookup e' he'
      simp [hsame, he] at this
    | some m => rfl
  · exact (Option.or_none).symm
  · rw [List.lookup_append, List.lookup_cons, he]
    simp
  · rw [List.lookup_append, List.lookup_cons, beq_false_of_ne (Ne.symm he)]
    rfl

theorem get_mergesOf (E : List MergeEntry) (a b : TokenId) :
    (mergesOf E).get a b = E.lookup (a, b) := by
  have hfold : ∀ (l : List MergeEntry) (merges : Merges), (l.foldl Merges.orInsert merges).get a b =
      (merges.get a b).or (l.lookup (a, b)) := by
    intro l
    induction l with
    | nil => exact fun merges => (Option.or_none).symm
    | cons e l ih =>
      intro merges
      rw [List.foldl_cons, ih, get_orInsert, Option.or_assoc, List.lookup_cons]
      by_cases he : e.1 = (a, b)
      · simp [he]
      · rw [if_neg he, beq_false_of_ne (Ne.symm he), Option.none_or]
  exact hfold E .empty

theorem lookup_iff_mem {κ ν : Type} [BEq κ] [LawfulBEq κ] {l : List (κ × ν)}
    (h : (l.map Prod.fst).Nodup) {k : κ} {v : ν} : l.lookup k = some v ↔ (k, v) ∈ l := by
  have hmem {v' : ν} (hlookup : l.lookup k = some v') : (k, v') ∈ l := by
    obtain ⟨pre, post, heq, -⟩ := List.lookup_eq_some_iff.mp hlookup
    rw [heq]
    simp
  refine ⟨hmem, fun hv => ?_⟩
  cases hlookup : l.lookup k with
  | none => simpa using List.lookup_eq_none_iff.mp hlookup _ hv
  | some v' =>
    have := List.inj_on_of_nodup_map h (hmem hlookup) hv rfl
    exact congrArg some (Prod.mk.inj this).2

/-- The order of the entries does not matter. -/
theorem get_perm {merges merges' : Merges} (h : merges.entries.Perm merges'.entries) :
    merges.get = merges'.get := by
  funext a b
  refine Option.ext fun m => ?_
  rw [Merges.get, Merges.get, lookup_iff_mem merges.nodup, lookup_iff_mem merges'.nodup, h.mem_iff]

theorem rankedMergeKey_inj {a b c d : TokenId} (h : rankedMergeKey a b = rankedMergeKey c d) :
    (a, b) = (c, d) := by
  have hkey (x y : TokenId) : (rankedMergeKey x y).toNat = x.toNat * 2 ^ 32 + y.toNat := by
    have hx := x.toNat_lt
    have hy := y.toNat_lt
    rw [rankedMergeKey, UInt64.toNat_or, UInt64.toNat_shiftLeft, UInt32.toNat_toUInt64,
      UInt32.toNat_toUInt64]
    have hshift : x.toNat <<< ((32 : UInt64).toNat % 64) % 2 ^ 64 = x.toNat <<< 32 :=
      Nat.mod_eq_of_lt (by
        change x.toNat <<< 32 < _
        rw [Nat.shiftLeft_eq]
        omega)
    rw [hshift, ← Nat.shiftLeft_add_eq_or_of_lt hy, Nat.shiftLeft_eq]
  have hnat := congrArg UInt64.toNat h
  rw [hkey, hkey] at hnat
  have hb := b.toNat_lt
  have hd := d.toNat_lt
  exact Prod.ext (UInt32.toNat_inj.mp (show a.toNat = c.toNat by omega))
    (UInt32.toNat_inj.mp (show b.toNat = d.toNat by omega))

theorem rankedOf_eq (E : List MergeEntry) (a b : TokenId) : rankedOf E (rankedMergeKey a b) =
    (firstAt E (a, b)).map fun e => (e.1.2, e.2.toUInt32) := by
  have hfold : ∀ (l : List (MergeEntry × ℕ)) (merges : RankedMerges),
      (l.foldl (fun merges e =>
        let key := rankedMergeKey e.1.1.1 e.1.1.2
        if merges key = none then Function.update merges key (some (e.1.2, e.2.toUInt32))
        else merges) merges) (rankedMergeKey a b) = (merges (rankedMergeKey a b)).or
        ((l.find? fun e => e.1.1 = (a, b)).map fun e => (e.1.2, e.2.toUInt32)) := by
    intro l
    induction l with
    | nil => exact fun merges => (Option.or_none).symm
    | cons e l ih =>
      intro merges
      rw [List.foldl_cons, ih, List.find?_cons]
      by_cases he : e.1.1 = (a, b)
      · cases hm : merges (rankedMergeKey a b) <;> simp [hm, he]
      · have hkey : rankedMergeKey a b ≠ rankedMergeKey e.1.1.1 e.1.1.2 := fun hkey =>
          he (rankedMergeKey_inj hkey).symm
        have hstep : (let key := rankedMergeKey e.1.1.1 e.1.1.2
            if merges key = none then Function.update merges key (some (e.1.2, e.2.toUInt32))
            else merges) (rankedMergeKey a b) = merges (rankedMergeKey a b) := by
          dsimp only
          split_ifs
          · exact Function.update_of_ne hkey _ _
          · rfl
        rw [hstep]
        simp [he]
  exact hfold E.zipIdx _

/-! ### Two orders of one list -/

/-- Of the pairs that make one token, none overlaps another, and the token is only in pairs that
make tokens of higher ids. -/
def HarmlessTies (E : List MergeEntry) : Prop :=
  ∀ e ∈ E, ∀ e' ∈ E, e.2 = e'.2 → e.1 ≠ e'.1 → e.1.2 ≠ e'.1.1 ∧
    ∀ g ∈ E, g.1.1 = e.2 ∨ g.1.2 = e.2 → e.2 < g.2

instance (E : List MergeEntry) : Decidable (HarmlessTies E) :=
  decidable_of_iff (E.all (fun e => E.all fun e' => decide (e.2 = e'.2 → e.1 ≠ e'.1 →
    e.1.2 ≠ e'.1.1 ∧ E.all (fun g => decide (g.1.1 = e.2 ∨ g.1.2 = e.2 → e.2 < g.2)) = true)) = true)
    (by simp only [HarmlessTies, List.all_eq_true, decide_eq_true_eq])

/-- The rule of a list with a rank for each entry. -/
def entryRule (E : List MergeEntry) (rank : MergeEntry × ℕ → ℕ) (a b : TokenId) :
    Option (ℕ × TokenId) := (firstAt E (a, b)).map fun e => (rank e, e.1.2)

theorem harmless_ids (h : HarmlessTies E) :
    RankMerging.Harmless (entryRule E fun e => e.1.2.toNat) := by
  intro a b c d p q hp hq hrank hne
  obtain ⟨e, he, rfl⟩ := Option.map_eq_some_iff.mp hp
  obtain ⟨e', he', rfl⟩ := Option.map_eq_some_iff.mp hq
  obtain ⟨hmem, hpair⟩ := of_firstAt he
  obtain ⟨hmem', hpair'⟩ := of_firstAt he'
  obtain ⟨hoverlap, hsafe⟩ := h e.1 (List.mem_of_getElem? hmem) e'.1 (List.mem_of_getElem? hmem')
    (UInt32.toNat_inj.mp hrank) (by rw [hpair, hpair']; exact hne)
  rw [hpair, hpair'] at hoverlap
  refine ⟨hoverlap, fun y s hs => ?_⟩
  rcases hs with hs | hs
  · obtain ⟨g, hg, rfl⟩ := Option.map_eq_some_iff.mp hs
    obtain ⟨hgmem, hgpair⟩ := of_firstAt hg
    exact UInt32.lt_iff_toNat_lt.mp (hsafe g.1 (List.mem_of_getElem? hgmem) (.inl (by rw [hgpair])))
  · obtain ⟨g, hg, rfl⟩ := Option.map_eq_some_iff.mp hs
    obtain ⟨hgmem, hgpair⟩ := of_firstAt hg
    exact UInt32.lt_iff_toNat_lt.mp (hsafe g.1 (List.mem_of_getElem? hgmem) (.inr (by rw [hgpair])))

/-- Two entries at one place are one entry. -/
theorem harmless_places : RankMerging.Harmless (entryRule E fun e => e.2) := by
  intro a b c d p q hp hq hrank hne
  obtain ⟨e, he, rfl⟩ := Option.map_eq_some_iff.mp hp
  obtain ⟨e', he', rfl⟩ := Option.map_eq_some_iff.mp hq
  obtain ⟨hmem, hpair⟩ := of_firstAt he
  obtain ⟨hmem', hpair'⟩ := of_firstAt he'
  dsimp only at hrank
  rw [hrank, hmem', Option.some.injEq] at hmem
  exact absurd (hpair.symm.trans (hmem ▸ hpair')) hne

/-- In a list in the order of the ids, the places break the ties of the ids. -/
theorem place_lt_of_id_lt (h : E.IsChain fun e e' => e.2 ≤ e'.2) {e e' : MergeEntry × ℕ}
    (he : E[e.2]? = some e.1) (he' : E[e'.2]? = some e'.1) (hlt : e.1.2.toNat < e'.1.2.toNat) :
    e.2 < e'.2 := by
  by_contra hle
  have hpair := List.pairwise_iff_getElem.mp (List.isChain_iff_pairwise.mp
    (h.imp fun _ _ hab => UInt32.le_iff_toNat_le.mp hab) :
      E.Pairwise fun e e' => e.2.toNat ≤ e'.2.toNat)
  obtain ⟨hlen, hget⟩ := List.getElem?_eq_some_iff.mp he
  obtain ⟨hlen', hget'⟩ := List.getElem?_eq_some_iff.mp he'
  rcases Nat.lt_or_eq_of_le (not_lt.mp hle) with hlt' | heq
  · have := hpair e'.2 e.2 hlen' hlen hlt'
    rw [hget, hget'] at this
    omega
  · rw [heq, he, Option.some.injEq] at he'
    rw [he'] at hlt
    exact lt_irrefl _ hlt

/-- A lookup that has the entries with their places breaks the ties of ranks in the same order. -/
theorem breaksTies_places {rank : MergeEntry × ℕ → ℕ} {lookup : ℕ → ℕ → Option (ℕ × ℕ)}
    (hlookup : ∀ a b : TokenId, lookup a.toNat b.toNat =
      (firstAt E (a, b)).map fun e => (e.2, e.1.2.toNat))
    (hrank : ∀ e e' : MergeEntry × ℕ, E[e.2]? = some e.1 → E[e'.2]? = some e'.1 →
      rank e < rank e' → e.2 < e'.2) :
    RankMerging.BreaksTies (entryRule E rank) lookup UInt32.toNat where
  out a b := by
    rw [hlookup, entryRule]
    cases firstAt E (a, b) <;> rfl
  lt a b c d p q p' q' hp hq hp' hq' hlt := by
    rw [hlookup] at hp' hq'
    obtain ⟨e, he, rfl⟩ := Option.map_eq_some_iff.mp hp
    obtain ⟨e', he', rfl⟩ := Option.map_eq_some_iff.mp hq
    rw [he, Option.map_some, Option.some.injEq] at hp'
    rw [he', Option.map_some, Option.some.injEq] at hq'
    rw [← hp', ← hq']
    exact hrank e e' (of_firstAt he).1 (of_firstAt he').1 hlt

/-! ### The rules of the loader -/

theorem natRule_ids (hE : ∀ e ∈ E, e.2 ≠ NO_RANK) {get : TokenId → TokenId → Option TokenId}
    (hget : ∀ a b, get a b = E.lookup (a, b)) :
    natRule (rankRule (mergedId get)) = entryRule E fun e => e.1.2.toNat := by
  funext a b
  rw [natRule, rankRule, mergedId, hget, lookup_firstAt, entryRule]
  cases hfirst : firstAt E (a, b) with
  | none => rfl
  | some e =>
    have hne := hE e.1 (List.mem_of_getElem? (of_firstAt hfirst).1)
    rw [Option.map_some, Option.getD_some, if_neg hne]
    rfl

theorem rankedRule_eq (E : List MergeEntry) (a b : TokenId) : rankedRule (rankedOf E) a b =
    (firstAt E (a, b)).map fun e => (e.2.toUInt32, e.1.2) := by
  rw [rankedRule, rankedOf_eq, Option.map_map]
  rfl

theorem place_lt {e : MergeEntry × ℕ} (h : firstAt E p = some e) : e.2 < E.length :=
  (List.getElem?_eq_some_iff.mp (of_firstAt h).1).1

theorem natRule_places (hlen : E.length < 2 ^ 32) :
    natRule (rankedRule (rankedOf E)) = entryRule E fun e => e.2 := by
  funext a b
  rw [natRule, rankedRule_eq, entryRule, Option.map_map]
  cases hfirst : firstAt E (a, b) with
  | none => rfl
  | some e =>
    have hplace : e.2.toUInt32.toNat = e.2 :=
      Nat.mod_eq_of_lt ((place_lt hfirst).trans hlen)
    rw [Option.map_some, Option.map_some, Function.comp_apply, hplace]

theorem real_places (hlen : E.length < 2 ^ 32 - 1) : Real (rankedRule (rankedOf E)) := by
  intro a b q hq hno
  rw [rankedRule_eq] at hq
  obtain ⟨e, he, rfl⟩ := Option.map_eq_some_iff.mp hq
  have hlt := place_lt he
  have hplace : e.2.toUInt32.toNat = e.2 := Nat.mod_eq_of_lt (by omega)
  have hnat := congrArg UInt32.toNat hno
  rw [hplace] at hnat
  have : NO_RANK.toNat = 2 ^ 32 - 1 := rfl
  omega

/-! ### The merge list of the kernels -/

variable {D : Bpe.Tables} {T : MergeTable} {piece : List UInt8} {symbols : List TokenId}

/-- The merge list, as the loader has it. -/
def entriesOf (T : MergeTable) : List MergeEntry :=
  T.pairs.map fun e => ((e.1.1.toUInt32, e.1.2.toUInt32), e.2.2.toUInt32)

/-- The ids fit 32 bits, and none that a merge makes means no rank. -/
def Narrow (T : MergeTable) : Prop :=
  ∀ e ∈ T.pairs, e.1.1 < 2 ^ 32 ∧ e.1.2 < 2 ^ 32 ∧ e.2.2 < 2 ^ 32 - 1

/-- The ranks of the exported pairs are their places. -/
theorem pairs_place (T : MergeTable) :
    T.pairs = T.pairs.zipIdx.map fun e => (e.1.1, (e.2, e.1.2.2)) := by
  have hsome : ∀ m ∈ T.merges, ∃ ids : (ℕ × ℕ) × ℕ, T.vocab m.1 = some ids.1.1 ∧
      T.vocab m.2 = some ids.1.2 ∧ T.vocab (m.1 ++ m.2) = some ids.2 := by
    intro m hm
    obtain ⟨hl, hr, hlr⟩ := T.known m hm
    obtain ⟨a, ha⟩ := Option.isSome_iff_exists.mp hl
    obtain ⟨b, hb⟩ := Option.isSome_iff_exists.mp hr
    obtain ⟨z, hz⟩ := Option.isSome_iff_exists.mp hlr
    exact ⟨((a, b), z), ha, hb, hz⟩
  choose! ids hids using hsome
  have hpairs : T.pairs = T.merges.zipIdx.map fun m => ((ids m.1).1, (m.2, (ids m.1).2)) := by
    rw [MergeTable.pairs, MergeTable.rules, ← List.filterMap_eq_map']
    refine List.filterMap_congr fun m hm => ?_
    obtain ⟨ha, hb, hz⟩ := hids m.1 (List.mem_of_getElem? (List.mem_zipIdx_iff_getElem?.mp hm))
    rw [ha, hb, hz]
    rfl
  rw [hpairs, List.zipIdx_map, List.map_map]
  refine List.ext_getElem (by simp) fun i h₁ h₂ => ?_
  simp

/-- The kernels find the first entry of a pair, with its place. -/
theorem Narrow.pairLookup (h : Narrow T) (a b : TokenId) : T.pairLookup a.toNat b.toNat =
    (firstAt (entriesOf T) (a, b)).map fun e => (e.2, e.1.2.toNat) := by
  have hpairs : T.pairs = (entriesOf T).zipIdx.map fun e =>
      ((e.1.1.1.toNat, e.1.1.2.toNat), (e.2, e.1.2.toNat)) := by
    rw [entriesOf, List.zipIdx_map, List.map_map]
    refine (pairs_place T).trans (List.map_congr_left fun e he => ?_)
    obtain ⟨ha, hb, hz⟩ := h e.1 (List.mem_of_getElem? (List.mem_zipIdx_iff_getElem?.mp he))
    have hnat {x : ℕ} (hx : x < 2 ^ 32) : x.toUInt32.toNat = x := Nat.mod_eq_of_lt hx
    simp [hnat ha, hnat hb, hnat (hz.trans (by decide))]
  rw [MergeTable.pairLookup, hpairs, firstAt]
  refine lookup_map_firstAt (p := (a, b)) (fun p => (p.1.toNat, p.2.toNat)) (fun p q hpq => ?_)
    (fun e => (e.2, e.1.2.toNat)) (entriesOf T).zipIdx
  obtain ⟨h1, h2⟩ := Prod.mk.inj hpq
  exact Prod.ext (UInt32.toNat_inj.mp h1) (UInt32.toNat_inj.mp h2)

theorem Narrow.ne_noRank (h : Narrow T) : ∀ e ∈ entriesOf T, e.2 ≠ NO_RANK := by
  intro e he hno
  obtain ⟨e', he', rfl⟩ := List.mem_map.mp he
  obtain ⟨-, -, hz⟩ := h e' he'
  have hnat : e'.2.2 % 2 ^ 32 = 2 ^ 32 - 1 := congrArg UInt32.toNat hno
  omega

theorem length_entriesOf_lt (T : MergeTable) : (entriesOf T).length < 2 ^ 32 - 1 := by
  have := T.merges_lt
  have hle : T.pairs.length ≤ T.rules.length := List.length_filterMap_le _ _
  rw [MergeTable.rules, List.length_zipIdx] at hle
  rw [entriesOf, List.length_map]
  omega

/-- The merge loop of the loaded map is the textbook merge of the kernels' pairs. -/
theorem Narrow.merged_loadedMerge (h : Narrow T) {order : Merges → Merges}
    (horder : ∀ merges, (order merges).entries.Perm merges.entries)
    (hties : idOrderOk (entriesOf T) = true → HarmlessTies (entriesOf T))
    (hlen : symbols.length < 2 ^ 32) : T.pairRules.Merged (symbols.map UInt32.toNat)
      ((loadedMerge order (entriesOf T) symbols).map UInt32.toNat) := by
  rw [← RankMerging.merged_pairRules, RankMerging.merged_iff]
  unfold loadedMerge
  cases hok : idOrderOk (entriesOf T) with
  | true =>
    have hget (a b : TokenId) :
        (order (mergesOf (entriesOf T))).get a b = (entriesOf T).lookup (a, b) := by
      rw [get_perm (horder _), get_mergesOf]
    have hrule := natRule_ids h.ne_noRank hget
    rw [if_pos rfl, bpeMergeSymbols, bpeMergeSymbolsByRank_eq _ symbols hlen, textbook, hrule]
    refine ((breaksTies_places h.pairLookup fun e e' he he' hlt => ?_).merge_map
      (harmless_ids (hties hok)) symbols).symm
    exact place_lt_of_id_lt (of_decide_eq_true hok) he he' hlt
  | false =>
    have hreal := real_places (length_entriesOf_lt T)
    rw [if_neg Bool.false_ne_true, bpeMergeSymbolsRanked_eq hreal symbols (by omega), textbook,
      natRule_places ((length_entriesOf_lt T).trans (by decide))]
    exact ((breaksTies_places h.pairLookup fun _ _ _ _ hlt => hlt).merge_map harmless_places
      symbols).symm

/-- Two pairs make the token of three letters. -/
def tieVocab : List (Text × ℕ) := [(['a'], 0), (['b'], 1), (['c'], 2), (['a', 'b'], 3),
  (['b', 'c'], 4), (['a', 'b', 'c'], 5)]

def tieTables : Bpe.Tables where
  table := {
    vocab := fun t => tieVocab.lookup t
    merges := [(['a'], ['b']), (['b'], ['c']), (['a', 'b'], ['c']), (['a'], ['b', 'c'])]
    known := by decide
    vocab_inj := lookup_inj tieVocab (by decide)
    merges_nodup := by decide
    merges_lt := by decide }
  byteId b := if b = 97 then some 0 else if b = 98 then some 1 else if b = 99 then some 2 else none
  ignoreMerges := false
  vocabLookup _ := none

end Toktier.Gigatoken
