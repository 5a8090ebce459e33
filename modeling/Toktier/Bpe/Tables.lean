import Mathlib.Data.List.Nodup
import Mathlib.Data.Nat.Bitwise
import Toktier.Lib.PairMerging
import Toktier.Lib.Utf8

/-!
# The merge tables of the kernels

The exporter numbers the merge rules of a tokenizer by rank and keys them by the pair of
token ids. A rule is flagged when a rule of a lower rank uses the token it makes: its rank
goes into a bitmap, and a round at that rank merges one occurrence only.

## Main definitions

* `MergeTable`: a merge list and a vocabulary that the exporter accepts.
* `MergeTable.pairLookup`, `unsafeRanks`, `unsafeBits`: the exported tables.

## Main results

* `MergeTable.testUnsafe_eq`: the bitmap holds the flagged ranks.
* `MergeTable.safe_of_unflagged`: no rule of a lower rank uses the token of an unflagged one.
-/
namespace Toktier.Bpe

open Toktier.Lib

/-! ### Bitmaps -/

/-- `bits[rank >> 5] |= 1 << (rank & 31)` -/
def setBit (bits : List ℕ) (rank : ℕ) : List ℕ :=
  bits.modify (rank >>> 5) (· ||| 1 <<< (rank &&& 31))

/-- `(ub[rank >> 5] >> (rank & 31)) & 1` -/
def testBit (bits : List ℕ) (rank : ℕ) : Bool :=
  (bits.getD (rank >>> 5) 0 >>> (rank &&& 31)) &&& 1 != 0

/-- A bitmap of `n` bits, none of them set. -/
def noBits (n : ℕ) : List ℕ := List.replicate ((n + 31) / 32) 0

theorem testBit_eq (bits : List ℕ) (rank : ℕ) :
    testBit bits rank = (bits.getD (rank / 32) 0).testBit (rank % 32) := by
  rw [testBit, show rank &&& 31 = rank % 32 from Nat.and_two_pow_sub_one_eq_mod rank 5,
    show rank >>> 5 = rank / 32 from Nat.shiftRight_eq_div_pow rank 5, Nat.testBit, Nat.and_comm]

@[simp] theorem testBit_noBits (n rank : ℕ) : testBit (noBits n) rank = false := by
  rw [testBit_eq, noBits, List.getD_eq_getElem?_getD, List.getElem?_replicate]
  split_ifs <;> simp

@[simp] theorem length_setBit (bits : List ℕ) (rank : ℕ) :
    (setBit bits rank).length = bits.length := by
  simp [setBit]

theorem testBit_setBit {bits : List ℕ} {rank : ℕ} (h : rank / 32 < bits.length) (k : ℕ) :
    testBit (setBit bits rank) k = (testBit bits k || decide (k = rank)) := by
  rw [testBit_eq, testBit_eq, setBit,
    show rank &&& 31 = rank % 32 from Nat.and_two_pow_sub_one_eq_mod rank 5,
    show rank >>> 5 = rank / 32 from Nat.shiftRight_eq_div_pow rank 5,
    List.getD_eq_getElem?_getD, List.getD_eq_getElem?_getD, List.getElem?_modify]
  by_cases hk : rank / 32 = k / 32
  · have hbit : (rank % 32 = k % 32) ↔ k = rank := by omega
    rw [hk, List.getElem?_eq_getElem (hk ▸ h)]
    simp [Nat.testBit_or, Nat.one_shiftLeft, Nat.testBit_two_pow, hbit]
  · have hne : k ≠ rank := fun h => hk (by rw [h])
    simp [hk, hne]

theorem testBit_foldl_setBit {ranks : List ℕ} {bits : List ℕ}
    (h : ∀ rank ∈ ranks, rank / 32 < bits.length) (k : ℕ) :
    testBit (ranks.foldl setBit bits) k = (testBit bits k || decide (k ∈ ranks)) := by
  induction ranks generalizing bits with
  | nil => simp
  | cons rank ranks ih =>
    rw [List.forall_mem_cons] at h
    rw [List.foldl_cons, ih (by simpa using h.2), testBit_setBit h.1, Bool.or_assoc]
    simp [List.mem_cons]

/-! ### The exporter -/

/-- A merge list and a vocabulary that the exporter accepts: every token of a rule has an id,
no two tokens share one, no pair has two rules, and a rank fits the packing of the warp
routine. -/
structure MergeTable where
  vocab : Text → Option ℕ
  merges : List (Text × Text)
  known : ∀ m ∈ merges, (vocab m.1).isSome ∧ (vocab m.2).isSome ∧ (vocab (m.1 ++ m.2)).isSome
  vocab_inj : ∀ {s t : Text} {i : ℕ}, vocab s = some i → vocab t = some i → s = t
  merges_nodup : merges.Nodup
  merges_lt : merges.length < 2 ^ 27

/-- A vocabulary given as a list of entries with different ids. -/
theorem lookup_inj (entries : List (Text × ℕ)) (h : (entries.map Prod.snd).Nodup) {s t : Text}
    {i : ℕ} (hs : entries.lookup s = some i) (ht : entries.lookup t = some i) : s = t := by
  have hmem {u : Text} (hu : entries.lookup u = some i) : (u, i) ∈ entries := by
    obtain ⟨pre, post, rfl, -⟩ := List.lookup_eq_some_iff.mp hu
    simp
  exact congrArg Prod.fst (List.inj_on_of_nodup_map h (hmem hs) (hmem ht) rfl)

/-- `first_use.setdefault(token, rank)` -/
def setdefault (first : List (Text × ℕ)) (token : Text) (rank : ℕ) : List (Text × ℕ) :=
  if (first.lookup token).isSome then first else (token, rank) :: first

/-- The first rank that uses each token. -/
def firstUse (rules : List ((Text × Text) × ℕ)) : List (Text × ℕ) :=
  rules.foldl (fun first m => setdefault (setdefault first m.1.1 m.2) m.1.2 m.2) []

namespace MergeTable

variable (T : MergeTable)

/-- The rules with their ranks. -/
def rules : List ((Text × Text) × ℕ) := T.merges.zipIdx

/-- The exported pairs: `(id of left, id of right) ↦ (rank, id of left + right)`. -/
def pairs : List ((ℕ × ℕ) × (ℕ × ℕ)) :=
  T.rules.filterMap fun m => do
    let left ← T.vocab m.1.1
    let right ← T.vocab m.1.2
    let merged ← T.vocab (m.1.1 ++ m.1.2)
    some ((left, right), (m.2, merged))

/-- `pair_lookup`: the rank and the merged id of a pair. -/
def pairLookup (idl idr : ℕ) : Option (ℕ × ℕ) := T.pairs.lookup (idl, idr)

/-- The ranks whose token a rule of a lower rank uses. -/
def unsafeRanks : List ℕ :=
  T.rules.filterMap fun m => do
    let usedAt ← (firstUse T.rules).lookup (m.1.1 ++ m.1.2)
    if usedAt < m.2 then some m.2 else none

/-- `unsafe_bits`: the flagged ranks as a bitmap, or none when no rank is flagged. -/
def unsafeBits : Option (List ℕ) :=
  let bits := T.unsafeRanks.foldl setBit (noBits T.merges.length)
  if bits.any (· ≠ 0) then some bits else none

/-- `ub && ((ub[rank >> 5] >> (rank & 31)) & 1)` -/
def testUnsafe (rank : ℕ) : Bool :=
  match T.unsafeBits with
  | none => false
  | some ub => testBit ub rank

end MergeTable

/-! ### First uses -/

theorem lookup_setdefault (first : List (Text × ℕ)) (token t : Text) (rank : ℕ) :
    (setdefault first token rank).lookup t =
      (first.lookup t).or (if t = token then some rank else none) := by
  unfold setdefault
  split_ifs with hin ht ht
  · obtain ⟨u, hu⟩ := Option.isSome_iff_exists.mp hin
    rw [ht, hu]
    rfl
  · rw [Option.or_none]
  · rw [Option.not_isSome_iff_eq_none, ← ht] at hin
    rw [hin, ht, List.lookup_cons_self]
    rfl
  · rw [Option.or_none, List.lookup_cons, beq_false_of_ne ht]

/-- The first use of a token is the rank of the first rule that has it on a side. -/
theorem lookup_firstUse (rules : List ((Text × Text) × ℕ)) (t : Text) :
    (firstUse rules).lookup t =
      (rules.find? fun m => t = m.1.1 || t = m.1.2).map Prod.snd := by
  suffices h : ∀ first : List (Text × ℕ),
      (rules.foldl (fun first m => setdefault (setdefault first m.1.1 m.2) m.1.2 m.2)
        first).lookup t =
      (first.lookup t).or ((rules.find? fun m => t = m.1.1 || t = m.1.2).map Prod.snd) by
    simpa [firstUse] using h []
  induction rules with
  | nil => simp
  | cons m rules ih =>
    intro first
    rw [List.foldl_cons, ih, lookup_setdefault, lookup_setdefault, List.find?_cons,
      Option.or_assoc, Option.or_assoc]
    by_cases hl : t = m.1.1
    · simp [hl]
    · by_cases hr : t = m.1.2
      · simp [hl, ← hr]
      · simp [hl, hr]

namespace MergeTable

variable {T : MergeTable} {m m' : (Text × Text) × ℕ} {a b c d z w r r' : ℕ}

theorem rules_pairwise : T.rules.Pairwise fun m m' => m.2 < m'.2 := by
  rw [← List.pairwise_map (f := Prod.snd) (R := (· < ·)), rules, List.zipIdx_map_snd]
  exact List.pairwise_lt_range'

/-- A rule is known by its rank. -/
theorem eq_of_rank (hm : m ∈ T.rules) (hm' : m' ∈ T.rules) (h : m.2 = m'.2) : m = m' := by
  rw [rules, List.mem_zipIdx_iff_getElem?] at hm hm'
  rw [h, hm'] at hm
  exact Prod.ext (Option.some.inj hm).symm h

theorem firstUse_le {t : Text} (hm : m ∈ T.rules) (ht : t = m.1.1 ∨ t = m.1.2) :
    ∃ u, (firstUse T.rules).lookup t = some u ∧ u ≤ m.2 := by
  rw [lookup_firstUse]
  have hsome : (T.rules.find? fun m => t = m.1.1 || t = m.1.2).isSome :=
    List.find?_isSome.mpr ⟨m, hm, by simpa using ht⟩
  obtain ⟨m', hfind⟩ := Option.isSome_iff_exists.mp hsome
  refine ⟨m'.2, by rw [hfind]; rfl, ?_⟩
  obtain ⟨-, pre, post, hsplit, hpre⟩ := List.find?_eq_some_iff_append.mp hfind
  have hmem := hsplit ▸ hm
  rw [List.mem_append, List.mem_cons] at hmem
  rcases hmem with hmem | rfl | hmem
  · have := hpre m hmem
    simp only [Bool.not_eq_true', Bool.or_eq_false_iff, decide_eq_false_iff_not] at this
    tauto
  · exact Nat.le_refl _
  · have hp := hsplit ▸ rules_pairwise (T := T)
    exact Nat.le_of_lt (List.rel_of_pairwise_cons (List.pairwise_append.mp hp).2.1 hmem)

/-! ### The exported pairs -/

theorem pairLookup_eq_some (h : T.pairLookup a b = some (r, z)) :
    ∃ m ∈ T.rules, T.vocab m.1.1 = some a ∧ T.vocab m.1.2 = some b ∧
      T.vocab (m.1.1 ++ m.1.2) = some z ∧ m.2 = r := by
  obtain ⟨pre, post, hsplit, -⟩ := List.lookup_eq_some_iff.mp h
  have hmem : ((a, b), (r, z)) ∈ T.pairs := by
    rw [hsplit]
    simp
  obtain ⟨m, hm, hval⟩ := List.mem_filterMap.mp hmem
  simp only [Option.bind_eq_bind, Option.bind_eq_some_iff, Option.some.injEq, Prod.mk.injEq]
    at hval
  obtain ⟨x, hx, y, hy, v, hv, ⟨rfl, rfl⟩, rfl, rfl⟩ := hval
  exact ⟨m, hm, hx, hy, hv, rfl⟩

theorem pairLookup_rank_inj (h : T.pairLookup a b = some (r, z))
    (h' : T.pairLookup c d = some (r, w)) : a = c ∧ b = d := by
  obtain ⟨m, hm, ha, hb, -, hr⟩ := pairLookup_eq_some h
  obtain ⟨m', hm', hc, hd, -, hr'⟩ := pairLookup_eq_some h'
  obtain rfl := eq_of_rank hm hm' (hr.trans hr'.symm)
  exact ⟨Option.some.inj (ha.symm.trans hc), Option.some.inj (hb.symm.trans hd)⟩

variable (T) in
/-- The merge table as rules on token ids. -/
def pairRules : PairRules ℕ where
  rule := T.pairLookup
  rank_inj := pairLookup_rank_inj

theorem rank_lt (h : T.pairLookup a b = some (r, z)) : r < T.merges.length := by
  obtain ⟨m, hm, -, -, -, rfl⟩ := pairLookup_eq_some h
  exact List.snd_lt_of_mem_zipIdx hm

/-! ### Flagged ranks -/

theorem mem_unsafeRanks : r ∈ T.unsafeRanks ↔
    ∃ m ∈ T.rules, m.2 = r ∧
      ∃ u, (firstUse T.rules).lookup (m.1.1 ++ m.1.2) = some u ∧ u < r := by
  unfold unsafeRanks
  simp only [List.mem_filterMap, Option.bind_eq_bind, Option.bind_eq_some_iff,
    Option.ite_none_right_eq_some, Option.some.injEq]
  constructor
  · rintro ⟨m, hm, u, hu, hlt, rfl⟩
    exact ⟨m, hm, rfl, u, hu, hlt⟩
  · rintro ⟨m, hm, rfl, u, hu, hlt⟩
    exact ⟨m, hm, u, hu, hlt, rfl⟩

theorem testUnsafe_eq (r : ℕ) : T.testUnsafe r = decide (r ∈ T.unsafeRanks) := by
  have hin : ∀ r ∈ T.unsafeRanks, r / 32 < (noBits T.merges.length).length := by
    intro r hr
    obtain ⟨m, hm, rfl, -⟩ := mem_unsafeRanks.mp hr
    have := List.snd_lt_of_mem_zipIdx hm
    rw [noBits, List.length_replicate]
    omega
  have hbit := testBit_foldl_setBit hin r
  rw [testBit_noBits, Bool.false_or] at hbit
  unfold testUnsafe unsafeBits
  dsimp only
  split_ifs with hany
  · exact hbit
  · -- no word is set, so no bit is
    rw [← hbit, testBit_eq]
    simp only [List.any_eq_true, decide_eq_true_eq, not_exists, not_and, not_not] at hany
    rw [List.getD_eq_getElem?_getD]
    cases hw : (T.unsafeRanks.foldl setBit (noBits T.merges.length))[r / 32]? with
    | none => simp
    | some w => simp [hany w (List.mem_of_getElem? hw)]

/-- **No rule of a lower rank uses the token that an unflagged rule makes.** -/
theorem safe_of_unflagged (h : T.pairLookup a b = some (r, z)) (hr : T.testUnsafe r = false) :
    T.pairRules.Safe r z := by
  obtain ⟨m, hm, -, -, hz, rfl⟩ := pairLookup_eq_some h
  intro y p hp
  obtain ⟨m', hm', huse, hrank⟩ : ∃ m' ∈ T.rules,
      (m.1.1 ++ m.1.2 = m'.1.1 ∨ m.1.1 ++ m.1.2 = m'.1.2) ∧ m'.2 = p.1 := by
    rcases hp with hp | hp
    · obtain ⟨m', hm', hleft, -, -, hrank⟩ := pairLookup_eq_some hp
      exact ⟨m', hm', .inl (T.vocab_inj hz hleft), hrank⟩
    · obtain ⟨m', hm', -, hright, -, hrank⟩ := pairLookup_eq_some hp
      exact ⟨m', hm', .inr (T.vocab_inj hz hright), hrank⟩
  by_contra hlt
  obtain ⟨u, hu, hule⟩ := firstUse_le hm' huse
  rw [testUnsafe_eq, decide_eq_false_iff_not] at hr
  exact hr (mem_unsafeRanks.mpr ⟨m, hm, rfl, u, hu, by omega⟩)

end MergeTable

end Toktier.Bpe
