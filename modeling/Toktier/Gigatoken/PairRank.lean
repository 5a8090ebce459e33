import Mathlib.Data.List.Nodup
import Mathlib.Data.List.Perm.Subperm
import Mathlib.Data.Nat.Log
import Mathlib.Data.Nat.Size
import Toktier.Gigatoken.Merge
import Toktier.Lib.Probing

/-!
# The pair-rank table

The merges of a vocabulary in two flat arrays: a grid for the pairs of small ids, and a table of
all pairs with linear probing. A vocabulary with large ids, or one that clusters, has no table.

## Main definitions

* `ByteRemapping`: the token of each byte.
* `Merges`: the merges map.
* `PairRankTable`, `PairRankTable.build`, `PairRankTable.rank`: the table and its lookup.

## Main results

* `PairRankTable.build_exact`: the table looks up what the map holds.
-/
namespace Toktier.Gigatoken

open Toktier.Lib

/-! ### The tokens of the bytes -/

structure ByteRemapping where
  mapping : UInt8 → TokenId

/-- The bytes in ascending order. -/
def allBytes : List UInt8 := (List.range 256).map Nat.toUInt8

/-! ### The table -/

/-- The smallest power of two that is at least `n`. -/
def nextPowerOfTwo (n : ℕ) : ℕ := 2 ^ Nat.clog 2 n

/-- The merges map, its entries in the order of an iteration. -/
structure Merges where
  entries : List ((TokenId × TokenId) × TokenId)
  nodup : (entries.map Prod.fst).Nodup

def Merges.get (merges : Merges) (a b : TokenId) : Option TokenId := merges.entries.lookup (a, b)

structure PairRankTable where
  dense : ℕ → UInt32
  denseLog2 : ℕ
  slots : ℕ → UInt64
  size : ℕ
  shift : ℕ

def PAIR_ID_BITS : ℕ := 21

/-- `u64::MAX`: an empty slot. -/
def EMPTY_SLOT : UInt64 := 0xFFFFFFFFFFFFFFFF

/-- The key of a pair, 42 bits. -/
def pairKey (a b : TokenId) : UInt64 := a.toUInt64 <<< 21 ||| b.toUInt64

/-- The first slot of a key: the top bits of a product. -/
def pairHome (shift : ℕ) (key : UInt64) : ℕ :=
  ((key * 0x9E3779B97F4A7C15) >>> shift.toUInt64).toNat

def denseIndex (log2 : ℕ) (a b : TokenId) : ℕ := a.toNat <<< log2 ||| b.toNat

/-- Both ids are below the side of the grid. -/
def inGrid (log2 : ℕ) (a b : TokenId) : Bool := (a ||| b) >>> log2.toUInt32 = 0

namespace PairRankTable

/-- Put a pair into its first empty slot, which has to be one of 65. -/
def insert (t : PairRankTable) (a b m : TokenId) : Option PairRankTable :=
  let key := pairKey a b
  match walk (fun i => if t.slots i = EMPTY_SLOT then some i else none) (t.size - 1) 65
    (pairHome t.shift key) with
  | none => none
  | some i => some { t with
      dense := if inGrid t.denseLog2 a b then
        Function.update t.dense (denseIndex t.denseLog2 a b) m else t.dense
      slots := Function.update t.slots i (key <<< 21 ||| m.toUInt64) }

/-- The side of the grid: it covers the initial symbols, between 11 and 11 bits. -/
def gridLog2 (byteRemapping : Option ByteRemapping) : ℕ :=
  let maxInitial := match byteRemapping with
    | none => 255
    | some br => (allBytes.map fun b => (br.mapping b).toNat).foldl max 0
  max 11 (min 11 maxInitial.size)

/-- The number of slots for `n` merges. -/
def slotCount (n : ℕ) : ℕ := max (nextPowerOfTwo (max n 1 * 2)) 64

def new (byteRemapping : Option ByteRemapping) (size : ℕ) : PairRankTable where
  dense _ := NO_RANK
  denseLog2 := gridLog2 byteRemapping
  slots _ := EMPTY_SLOT
  size := size
  shift := 64 - size.log2

/-- The table of a map, none when an id is too large or a walk too long. -/
def build (merges : Merges) (byteRemapping : Option ByteRemapping) (vocabLen : ℕ) :
    Option PairRankTable :=
  let idLimit : UInt32 := 0x200000
  if 1 <<< PAIR_ID_BITS < vocabLen then none
  else if merges.entries.any fun e => idLimit ≤ e.1.1 || idLimit ≤ e.1.2 || idLimit ≤ e.2 then none
  else merges.entries.foldlM (fun t e => t.insert e.1.1 e.1.2 e.2)
    (new byteRemapping (slotCount merges.entries.length))

/-- What a slot says about a key. -/
def visit (t : PairRankTable) (key : UInt64) (i : ℕ) : Option UInt32 :=
  if t.slots i >>> 21 = key then some (t.slots i &&& 0x1FFFFF).toUInt32
  else if t.slots i = EMPTY_SLOT then some NO_RANK
  else none

/-- The merged token of a pair, none when a search goes through all slots. -/
def rank? (t : PairRankTable) (a b : TokenId) : Option UInt32 :=
  if inGrid t.denseLog2 a b then some (t.dense (denseIndex t.denseLog2 a b))
  else
    let key := pairKey a b
    walk (t.visit key) (t.size - 1) t.size (pairHome t.shift key)

/-- The merged token of a pair, or `u32::MAX`. -/
def rank (t : PairRankTable) (a b : TokenId) : UInt32 := (t.rank? a b).getD NO_RANK

end PairRankTable

/-! ### Keys -/

variable {a b c d m : TokenId} {k i : ℕ} {t t' : PairRankTable}
  {stored : List ((TokenId × TokenId) × TokenId)}

/-- The key field of an empty slot. -/
def EMPTY_SLOT_KEY : UInt64 := EMPTY_SLOT >>> 21

theorem toNat_pairKey (hb : b.toNat < 2 ^ 21) : (pairKey a b).toNat = a.toNat * 2 ^ 21 + b.toNat := by
  have ha := a.toNat_lt
  have hshift : (a.toUInt64 <<< 21).toNat = a.toNat <<< 21 := by
    rw [UInt64.toNat_shiftLeft]
    exact Nat.mod_eq_of_lt (by rw [Nat.shiftLeft_eq]; simp; omega)
  rw [pairKey, UInt64.toNat_or, hshift, UInt32.toNat_toUInt64, ← Nat.shiftLeft_add_eq_or_of_lt hb,
    Nat.shiftLeft_eq]

theorem pairKey_inj (hb : b.toNat < 2 ^ 21) (hd : d.toNat < 2 ^ 21)
    (h : pairKey a b = pairKey c d) : a = c ∧ b = d := by
  have := congrArg UInt64.toNat h
  rw [toNat_pairKey hb, toNat_pairKey hd] at this
  rw [← UInt32.toNat_inj, ← UInt32.toNat_inj]
  omega

theorem pairKey_ne_empty (ha : a.toNat < 2 ^ 21) (hb : b.toNat < 2 ^ 21) :
    pairKey a b ≠ EMPTY_SLOT_KEY := by
  intro h
  have := congrArg UInt64.toNat h
  rw [toNat_pairKey hb] at this
  have hmax : EMPTY_SLOT_KEY.toNat = 2 ^ 43 - 1 := by decide
  omega

/-- A slot carries its key and its value. -/
theorem unpackSlot (ha : a.toNat < 2 ^ 21) (hb : b.toNat < 2 ^ 21) (hm : m.toNat < 2 ^ 21) :
    (pairKey a b <<< 21 ||| m.toUInt64) >>> 21 = pairKey a b ∧
      (pairKey a b <<< 21 ||| m.toUInt64) &&& 0x1FFFFF = m.toUInt64 := by
  have hkey := toNat_pairKey (a := a) hb
  have hpack : (pairKey a b <<< 21 ||| m.toUInt64).toNat = (pairKey a b).toNat * 2 ^ 21 + m.toNat := by
    have hshift : (pairKey a b <<< 21).toNat = (pairKey a b).toNat <<< 21 := by
      rw [UInt64.toNat_shiftLeft]
      exact Nat.mod_eq_of_lt (by rw [Nat.shiftLeft_eq]; simp; omega)
    rw [UInt64.toNat_or, hshift, UInt32.toNat_toUInt64, ← Nat.shiftLeft_add_eq_or_of_lt hm,
      Nat.shiftLeft_eq]
  refine ⟨UInt64.toNat_inj.mp ?_, UInt64.toNat_inj.mp ?_⟩
  · rw [UInt64.toNat_shiftRight, hpack, Nat.shiftRight_eq_div_pow]
    simp
    omega
  · rw [UInt64.toNat_and, hpack, UInt32.toNat_toUInt64]
    exact (Nat.and_two_pow_sub_one_eq_mod _ 21).trans (by omega)

theorem inGrid_iff : inGrid 11 a b = true ↔ a.toNat < 2 ^ 11 ∧ b.toNat < 2 ^ 11 := by
  rw [inGrid, decide_eq_true_iff, ← UInt32.toNat_inj, UInt32.toNat_shiftRight, UInt32.toNat_or,
    Nat.shiftRight_or_distrib]
  change (a.toNat >>> 11 ||| b.toNat >>> 11) = 0 ↔ _
  rw [Nat.or_eq_zero_iff, Nat.shiftRight_eq_div_pow, Nat.shiftRight_eq_div_pow]
  omega

theorem denseIndex_inj (hb : b.toNat < 2 ^ 11) (hd : d.toNat < 2 ^ 11)
    (h : denseIndex 11 a b = denseIndex 11 c d) : a = c ∧ b = d := by
  rw [denseIndex, denseIndex, ← Nat.shiftLeft_add_eq_or_of_lt hb,
    ← Nat.shiftLeft_add_eq_or_of_lt hd, Nat.shiftLeft_eq, Nat.shiftLeft_eq] at h
  rw [← UInt32.toNat_inj, ← UInt32.toNat_inj]
  omega

theorem pairHome_lt (hk : k ≤ 64) (hpos : 0 < k) (key : UInt64) : pairHome (64 - k) key < 2 ^ k := by
  rw [pairHome, UInt64.toNat_shiftRight]
  have hshift : (64 - k).toUInt64.toNat = 64 - k :=
    (UInt64.toNat_ofNat').trans (Nat.mod_eq_of_lt (by omega))
  have hlt := (key * 0x9E3779B97F4A7C15).toNat_lt
  rw [hshift, Nat.mod_eq_of_lt (by omega), Nat.shiftRight_eq_div_pow,
    Nat.div_lt_iff_lt_mul (Nat.two_pow_pos _), ← Nat.pow_add, Nat.add_sub_cancel' hk]
  exact hlt

/-! ### The build -/

namespace PairRankTable

/-- The table has the pairs that have been put in: the small ones in the grid, all of them in the
slots. -/
structure Holds (t : PairRankTable) (k : ℕ) (stored : List ((TokenId × TokenId) × TokenId)) :
    Prop where
  log2 : t.denseLog2 = 11
  size : t.size = 2 ^ k
  bits : 0 < k ∧ k ≤ 64
  shift : t.shift = 64 - k
  small : ∀ e ∈ stored, e.1.1.toNat < 2 ^ 21 ∧ e.1.2.toNat < 2 ^ 21 ∧ e.2.toNat < 2 ^ 21
  grid : ∀ a b : TokenId, a.toNat < 2 ^ 11 → b.toNat < 2 ^ 11 →
    t.dense (denseIndex 11 a b) = (stored.lookup (a, b)).getD NO_RANK
  narrow : ∀ i, t.dense i = NO_RANK ∨ (t.dense i).toNat < 2 ^ 21
  empty : ∀ i, t.slots i >>> 21 = EMPTY_SLOT_KEY → t.slots i = EMPTY_SLOT
  probed : Probed t.size (pairHome t.shift) EMPTY_SLOT_KEY (fun i => t.slots i >>> 21)
    (fun i => t.slots i &&& 0x1FFFFF) (stored.map fun e => (pairKey e.1.1 e.1.2, e.2.toUInt64))

theorem lookup_concat (hnew : (a, b) ∉ stored.map Prod.fst) (c d : TokenId) :
    (stored ++ [((a, b), m)]).lookup (c, d) =
      if (c, d) = (a, b) then some m else stored.lookup (c, d) := by
  rw [List.lookup_append, List.lookup_cons, List.lookup_nil]
  split_ifs with h
  · rw [h, List.lookup_eq_none_iff.mpr fun p hp => by
      simpa using fun heq : (a, b) = p.1 => hnew (heq ▸ List.mem_map_of_mem hp)]
    simp
  · rw [beq_false_of_ne h]
    simp

/-- A key in the slots is the key of a stored pair. -/
theorem Holds.mem_of_key (h : Holds t k stored) (hi : i < t.size)
    (hkey : t.slots i >>> 21 = pairKey a b) (ha : a.toNat < 2 ^ 21) (hb : b.toNat < 2 ^ 21) :
    (a, b) ∈ stored.map Prod.fst := by
  have hne : t.slots i >>> 21 ≠ EMPTY_SLOT_KEY := by
    rw [hkey]
    exact pairKey_ne_empty ha hb
  obtain ⟨e, he, heq⟩ := List.mem_map.mp (h.probed.mem i hi hne)
  obtain ⟨rfl, rfl⟩ := pairKey_inj (h.small e he).2.1 hb ((Prod.mk.inj heq).1.trans hkey)
  exact List.mem_map_of_mem he

/-- The walk of an insertion ends at the first empty slot. -/
theorem Holds.walk_insert (h : Holds t k stored) (key : UInt64)
    (hwalk : walk (fun i => if t.slots i = EMPTY_SLOT then some i else none) (t.size - 1) 65
      (pairHome t.shift key) = some i) :
    ∃ n < t.size, i = slot t.size (pairHome t.shift key) n ∧ t.slots i = EMPTY_SLOT ∧
      ∀ m < n, t.slots (slot t.size (pairHome t.shift key) m) ≠ EMPTY_SLOT := by
  have hhome : pairHome t.shift key < t.size := by
    rw [h.shift, h.size]
    exact pairHome_lt h.bits.2 h.bits.1 key
  obtain ⟨n, -, hn, hskip⟩ := exists_of_walk h.size hhome hwalk
  have hempty := Option.ite_none_right_eq_some.mp hn
  have hbefore : ∀ m < n, t.slots (slot t.size (pairHome t.shift key) m) ≠ EMPTY_SLOT := by
    intro m hm hslot
    have := hskip m hm
    rw [if_pos hslot] at this
    cases this
  obtain rfl := Option.some.inj hempty.2
  refine ⟨n, not_le.mp fun hle => ?_, rfl, hempty.1, hbefore⟩
  -- a slot that the walk comes back to has been seen before
  have hback : slot t.size (pairHome t.shift key) (n - t.size) =
      slot t.size (pairHome t.shift key) n := by
    rw [slot, slot, show pairHome t.shift key + n =
      pairHome t.shift key + (n - t.size) + t.size by omega, Nat.add_mod_right]
  exact hbefore (n - t.size) (by omega) (by rw [hback]; exact hempty.1)

/-- A pair goes into the table. -/
theorem Holds.insert (h : Holds t k stored) (ha : a.toNat < 2 ^ 21) (hb : b.toNat < 2 ^ 21)
    (hm : m.toNat < 2 ^ 21) (hnew : (a, b) ∉ stored.map Prod.fst)
    (ht : t.insert a b m = some t') : Holds t' k (stored ++ [((a, b), m)]) := by
  have hhome := pairHome_lt h.bits.2 h.bits.1 (pairKey a b)
  unfold PairRankTable.insert at ht
  dsimp only at ht
  cases hwalk : walk (fun i => if t.slots i = EMPTY_SLOT then some i else none) (t.size - 1) 65
    (pairHome t.shift (pairKey a b)) with
  | none => simp [hwalk] at ht
  | some j =>
    rw [hwalk] at ht
    obtain rfl := Option.some.inj ht
    obtain ⟨n, hn, rfl, hempty, hskip⟩ := h.walk_insert _ hwalk
    obtain ⟨hpackKey, hpackVal⟩ := unpackSlot ha hb hm
    have hK {α : Type} (g : UInt64 → α) : (fun i => g (Function.update t.slots
        (slot t.size (pairHome t.shift (pairKey a b)) n) (pairKey a b <<< 21 ||| m.toUInt64) i)) =
        Function.update (fun i => g (t.slots i)) (slot t.size (pairHome t.shift (pairKey a b)) n)
          (g (pairKey a b <<< 21 ||| m.toUInt64)) := by
      funext i
      rw [Function.update_apply, Function.update_apply]
      split_ifs <;> rfl
    refine ⟨h.log2, h.size, h.bits, h.shift, fun e he => ?_, fun c d hc hd => ?_, fun i => ?_,
      fun i hi => ?_, ?_⟩
    · rcases List.mem_append.mp he with he | he
      · exact h.small e he
      · obtain rfl := List.mem_singleton.mp he
        exact ⟨ha, hb, hm⟩
    · rw [lookup_concat hnew]
      dsimp only
      rw [h.log2]
      split_ifs with hgrid hcd hcd
      · obtain ⟨rfl, rfl⟩ := Prod.mk.inj hcd
        rw [Function.update_self, Option.getD_some]
      · rw [Function.update_of_ne, h.grid c d hc hd]
        intro heq
        obtain ⟨rfl, rfl⟩ := denseIndex_inj hd (inGrid_iff.mp hgrid).2 heq
        exact hcd rfl
      · obtain ⟨rfl, rfl⟩ := Prod.mk.inj hcd
        exact absurd (inGrid_iff.mpr ⟨hc, hd⟩) hgrid
      · exact h.grid c d hc hd
    · dsimp only
      split_ifs
      · rw [Function.update_apply]
        split_ifs
        · exact .inr hm
        · exact h.narrow i
      · exact h.narrow i
    · dsimp only at hi ⊢
      rw [Function.update_apply] at hi ⊢
      split_ifs at hi ⊢ with hslot
      · exact absurd (hpackKey.symm.trans hi) (pairKey_ne_empty ha hb)
      · exact h.empty i hi
    · have hnext := h.probed.insert hn (pairKey_ne_empty ha hb) (by rw [hempty]; rfl)
        (fun l hl => ⟨fun hkey => hskip l hl (h.empty _ hkey), fun hkey => hnew (h.mem_of_key
          (slot_lt (by omega) _ _) hkey ha hb)⟩) m.toUInt64
      rw [List.map_append, List.map_singleton]
      dsimp only
      rw [hK fun s => s >>> 21, hK fun s => s &&& 0x1FFFFF, hpackKey, hpackVal]
      exact hnext

theorem slotCount_eq (n : ℕ) : ∃ k, slotCount n = 2 ^ k ∧ 0 < k ∧ 2 * n ≤ 2 ^ k ∧
    (n ≤ 2 ^ 42 → k ≤ 64) := by
  refine ⟨max (Nat.clog 2 (max n 1 * 2)) 6, ?_, by omega, ?_, fun hn => ?_⟩
  · rw [slotCount, nextPowerOfTwo]
    rcases le_total (Nat.clog 2 (max n 1 * 2)) 6 with h | h
    · rw [max_eq_right h, max_eq_right (Nat.pow_le_pow_right (by decide) h)]
    · rw [max_eq_left h, max_eq_left (Nat.pow_le_pow_right (by decide) h)]
  · have hle := Nat.le_pow_clog (by decide : 1 < 2) (max n 1 * 2)
    have hmono := Nat.pow_le_pow_right (by decide : 0 < 2)
      (le_max_left (Nat.clog 2 (max n 1 * 2)) 6)
    omega
  · have hclog : Nat.clog 2 (max n 1 * 2) ≤ 43 :=
      Nat.clog_le_of_le_pow (by omega)
    omega

theorem gridLog2_eq (byteRemapping : Option ByteRemapping) : gridLog2 byteRemapping = 11 := by
  unfold gridLog2
  dsimp only
  omega

theorem holds_new (byteRemapping : Option ByteRemapping) (hk : 0 < k ∧ k ≤ 64) :
    Holds (new byteRemapping (2 ^ k)) k [] where
  log2 := gridLog2_eq byteRemapping
  size := rfl
  bits := hk
  shift := congrArg (64 - ·) Nat.log2_two_pow
  small _ he := absurd he List.not_mem_nil
  grid _ _ _ _ := rfl
  narrow _ := .inl rfl
  empty _ _ := rfl
  probed := Probed.empty _ _ _ _

theorem Holds.foldlM {rest : List ((TokenId × TokenId) × TokenId)} (h : Holds t k stored)
    (hsmall : ∀ e ∈ rest, e.1.1.toNat < 2 ^ 21 ∧ e.1.2.toNat < 2 ^ 21 ∧ e.2.toNat < 2 ^ 21)
    (hnodup : ((stored ++ rest).map Prod.fst).Nodup)
    (ht : rest.foldlM (fun t e => t.insert e.1.1 e.1.2 e.2) t = some t') :
    Holds t' k (stored ++ rest) := by
  induction rest generalizing t stored with
  | nil =>
    obtain rfl := Option.some.inj ht
    rwa [List.append_nil]
  | cons e rest ih =>
    rw [List.foldlM_cons] at ht
    obtain ⟨next, hnext, ht⟩ := Option.bind_eq_some_iff.mp ht
    obtain ⟨ha, hb, hm⟩ := hsmall e List.mem_cons_self
    have hnew : e.1 ∉ stored.map Prod.fst := by
      rw [List.map_append, List.map_cons, List.nodup_append] at hnodup
      exact fun hmem => hnodup.2.2 _ hmem _ List.mem_cons_self rfl
    have hstep := h.insert ha hb hm hnew hnext
    rw [← List.singleton_append, ← List.append_assoc] at hnodup ⊢
    exact ih hstep (fun e' he' => hsmall e' (List.mem_cons_of_mem e he')) hnodup ht

/-! ### The lookup -/

theorem mem_of_lookup_eq_some {p : TokenId × TokenId} (h : stored.lookup p = some m) :
    (p, m) ∈ stored := by
  obtain ⟨pre, post, rfl, -⟩ := List.lookup_eq_some_iff.mp h
  simp

theorem visit_other {key : UInt64} (hkey : t.slots i >>> 21 ≠ key) (hslot : t.slots i ≠ EMPTY_SLOT) :
    t.visit key i = none := by
  rw [visit, if_neg hkey, if_neg hslot]

/-- The table finds a stored pair, and no other one; no search goes through all slots. -/
theorem Holds.rank? (h : Holds t k stored) (hlt : stored.length < t.size)
    (ha : a.toNat < 2 ^ 21) (hb : b.toNat < 2 ^ 21) :
    t.rank? a b = some ((stored.lookup (a, b)).getD NO_RANK) := by
  have hhome : pairHome t.shift (pairKey a b) < t.size := by
    rw [h.shift, h.size]
    exact pairHome_lt h.bits.2 h.bits.1 _
  have hne := pairKey_ne_empty ha hb
  unfold PairRankTable.rank?
  rw [h.log2]
  split_ifs with hgrid
  · obtain ⟨ha', hb'⟩ := inGrid_iff.mp hgrid
    rw [h.grid a b ha' hb']
  dsimp only
  cases hfind : stored.lookup (a, b) with
  | some m =>
    have hmem := mem_of_lookup_eq_some hfind
    obtain ⟨-, -, hm⟩ := h.small _ hmem
    have hin : (pairKey a b, m.toUInt64) ∈ stored.map fun e => (pairKey e.1.1 e.1.2, e.2.toUInt64) :=
      List.mem_map.mpr ⟨_, hmem, rfl⟩
    have hskip : ∀ i, t.slots i >>> 21 ≠ EMPTY_SLOT_KEY → t.slots i >>> 21 ≠ pairKey a b →
        t.visit (pairKey a b) i = none := fun i hK hkey =>
      visit_other hkey fun hempty => hK (by rw [hempty]; rfl)
    have hstop : ∀ i, t.slots i >>> 21 = pairKey a b → t.slots i &&& 0x1FFFFF = m.toUInt64 →
        t.visit (pairKey a b) i = some m := fun i hkey hval => by
      rw [visit, if_pos hkey, hval, UInt32.toUInt32_toUInt64]
    rw [Option.getD_some]
    exact h.probed.walk_stored h.size hhome hin hskip hstop le_rfl
  | none =>
    refine h.probed.walk_absent h.size (by rwa [List.length_map]) hhome (fun i hi hK => ?_)
      (fun i hK => ?_) le_rfl
    · refine visit_other (fun hkey => ?_) fun hempty => hK (by rw [hempty]; rfl)
      obtain ⟨e, he, heq⟩ := List.mem_map.mp (h.mem_of_key hi hkey ha hb)
      have := List.lookup_eq_none_iff.mp hfind e he
      rw [heq] at this
      simp at this
    · rw [visit, if_neg fun hkey => hne (hkey.symm.trans hK), if_pos (h.empty i hK)]
      rfl

/-- Whatever the table answers, it is no id above its range. -/
theorem Holds.rank_lt (h : Holds t k stored) (a b : TokenId) :
    t.rank a b = NO_RANK ∨ (t.rank a b).toNat < 2 ^ 21 := by
  unfold PairRankTable.rank PairRankTable.rank?
  split_ifs with hgrid
  · exact h.narrow _
  dsimp only
  cases hwalk : walk (t.visit (pairKey a b)) (t.size - 1) t.size (pairHome t.shift (pairKey a b)) with
  | none => exact .inl rfl
  | some r =>
    obtain ⟨n, -, hn, -⟩ := exists_of_walk h.size (by
      rw [h.shift, h.size]
      exact pairHome_lt h.bits.2 h.bits.1 _) hwalk
    rw [Option.getD_some]
    unfold visit at hn
    split_ifs at hn with hkey hempty
    · right
      obtain rfl := Option.some.inj hn
      rw [UInt64.toNat_toUInt32, UInt64.toNat_and]
      have hand := Nat.and_two_pow_sub_one_eq_mod (t.slots (slot t.size (pairHome t.shift
        (pairKey a b)) n)).toNat 21
      change ((t.slots (slot t.size (pairHome t.shift (pairKey a b)) n)).toNat &&& 2 ^ 21 - 1) %
        2 ^ 32 < 2 ^ 21
      omega
    · exact .inl (Option.some.inj hn).symm

/-- **The table of a map looks up what the map holds**, for the ids of its range, and ends every
search; the ids of the map and the ids that it answers are of that range. -/
theorem build_rank {merges : Merges} {byteRemapping : Option ByteRemapping} {vocabLen : ℕ}
    (ht : build merges byteRemapping vocabLen = some t) :
    vocabLen ≤ 2 ^ 21 ∧
      (∀ a b : TokenId, a.toNat < 2 ^ 21 → b.toNat < 2 ^ 21 →
        t.rank? a b = some (mergedId merges.get a b)) ∧
      (∀ a b, t.rank a b = NO_RANK ∨ (t.rank a b).toNat < 2 ^ 21) ∧
      ∀ a b m, merges.get a b = some m → m.toNat < 2 ^ 21 := by
  unfold build at ht
  dsimp only at ht
  split_ifs at ht with hlen hlarge
  have hsmall : ∀ e ∈ merges.entries,
      e.1.1.toNat < 2 ^ 21 ∧ e.1.2.toNat < 2 ^ 21 ∧ e.2.toNat < 2 ^ 21 := by
    intro e he
    rw [List.any_eq_true, not_exists] at hlarge
    have := hlarge e
    simp only [he, true_and, Bool.or_eq_true, decide_eq_true_eq, not_or, UInt32.not_le,
      UInt32.lt_iff_toNat_lt] at this
    exact ⟨this.1.1, this.1.2, this.2⟩
  -- the keys are different and of 42 bits, so there are at most as many
  have hcount : merges.entries.length ≤ 2 ^ 42 := by
    have hnodup : (merges.entries.map fun e => (pairKey e.1.1 e.1.2).toNat).Nodup := by
      refine List.Nodup.map_on (fun e he e' he' heq => ?_) (List.Nodup.of_map _ merges.nodup)
      obtain ⟨h1, h2⟩ := pairKey_inj (hsmall e he).2.1 (hsmall e' he').2.1 (UInt64.toNat_inj.mp heq)
      exact List.inj_on_of_nodup_map merges.nodup he he' (Prod.ext h1 h2)
    have hsub : (merges.entries.map fun e => (pairKey e.1.1 e.1.2).toNat) ⊆ List.range (2 ^ 42) := by
      intro x hx
      obtain ⟨e, he, rfl⟩ := List.mem_map.mp hx
      obtain ⟨ha, hb, -⟩ := hsmall e he
      rw [List.mem_range, toNat_pairKey hb]
      omega
    simpa using (hnodup.subperm hsub).length_le
  obtain ⟨k, hk, hpos, hload, hbits⟩ := slotCount_eq merges.entries.length
  rw [hk] at ht
  have h := (holds_new byteRemapping ⟨hpos, hbits hcount⟩).foldlM hsmall merges.nodup ht
  rw [List.nil_append] at h
  refine ⟨not_lt.mp hlen, fun a b ha hb => ?_, h.rank_lt, fun a b m hm =>
    (hsmall _ (mem_of_lookup_eq_some hm)).2.2⟩
  refine h.rank? ?_ ha hb
  rw [h.size]
  have := Nat.two_pow_pos k
  omega

/-- **A built table is the map**: for any insertion order, every search of a pair of ids in the
range of the table ends, with the merged id of the pair or with no rank; no search answers an id
outside of the range. -/
theorem build_exact (merges : Merges) (byteRemapping : Option ByteRemapping) (vocabLen : ℕ)
    (ht : build merges byteRemapping vocabLen = some t) :
    (∀ a b : TokenId, a.toNat < 2 ^ 21 → b.toNat < 2 ^ 21 → ∃ rank, t.rank? a b = some rank ∧
      (∀ m, merges.get a b = some m → rank = m ∧ rank ≠ NO_RANK) ∧
      (merges.get a b = none → rank = NO_RANK)) ∧
    ∀ a b, t.rank a b = NO_RANK ∨ (t.rank a b).toNat < 2 ^ 21 := by
  obtain ⟨-, hrank, hlt, hids⟩ := build_rank ht
  refine ⟨fun a b ha hb => ⟨_, hrank a b ha hb, fun m hm => ?_, fun hnone => ?_⟩, hlt⟩
  · have hrange := hids a b m hm
    rw [mergedId, hm, Option.getD_some]
    refine ⟨rfl, fun hno => ?_⟩
    rw [hno] at hrange
    exact absurd hrange (by decide)
  · rw [mergedId, hnone, Option.getD_none]

/-- A pair of the grid and a pair of large ids. -/
theorem build_exact_two : ∃ t, build ⟨[((97, 98), 256), ((5000, 256), 5001)], by decide⟩ none 6000 = some t ∧
    t.rank? 5000 256 = some 5001 := by
  cases hbuild : build ⟨[((97, 98), 256), ((5000, 256), 5001)], by decide⟩ none 6000 with
  | none => exact absurd hbuild (by decide)
  | some t =>
    obtain ⟨rank, hrank, hsome, -⟩ :=
      (build_exact _ none 6000 hbuild).1 5000 256 (by decide) (by decide)
    exact ⟨t, rfl, hrank.trans (congrArg some (hsome 5001 (by decide)).1)⟩

end PairRankTable

end Toktier.Gigatoken
