import Mathlib.Data.BitVec
import Mathlib.Data.List.Basic
import Toktier.Bpe.Export
import Toktier.Lib.Decode

/-!
# What the exported tables answer

Linear probing finds every key that the exporter has put in, and ends at an empty slot for any
other. What has been put in is read off the two loops: the rules with their ranks, and the
byte-level tokens with where their bytes stand.

## Main definitions

* `HashTable.Holds`: the table holds the pairs.
* `Model.Merges`, `Model.Token`: the merge rules and the byte-level tokens with their ids.

## Main results

* `buildHash_spec`: a built table holds the pairs it was built from.
* `pairLookup_stored`, `vocabLookup_stored`: the kernels find what the table holds.
* `listed_exportVocab`: the entries of the vocabulary loop.
-/
namespace Toktier.Bpe.Export

open Toktier.Lib

variable {M : Model} {E : Exported} {t t' : HashTable} {n k fuel key value : ℕ}
  {piece raw : List UInt8} {pairs : List (ℕ × ℕ)}

/-! ### Sizes -/

theorem growSize_spec {want size j : ℕ} (hsize : size = 2 ^ j) (hwant : want ≤ fuel + size) :
    ∃ k, growSize want fuel size = 2 ^ k ∧ want ≤ 2 ^ k := by
  induction fuel generalizing size j with
  | zero => exact ⟨j, hsize, by omega⟩
  | succ fuel ih =>
    have hpos : 0 < size := hsize ▸ Nat.two_pow_pos j
    rw [growSize]
    split_ifs with hlt
    · exact ih (hsize ▸ (Nat.pow_succ 2 j).symm) (by omega)
    · exact ⟨j, hsize, by omega⟩

/-- The size is no larger than needed. -/
theorem growSize_le {want size i j : ℕ} (hsize : size = 2 ^ i) (hij : i ≤ j)
    (hwant : want ≤ 2 ^ j) : growSize want fuel size ≤ 2 ^ j := by
  induction fuel generalizing size i with
  | zero => exact hsize ▸ Nat.pow_le_pow_right Nat.two_pos hij
  | succ fuel ih =>
    rw [growSize]
    split_ifs with hlt
    · refine ih (hsize ▸ (Nat.pow_succ 2 i).symm) ?_
      have : 2 ^ i < 2 ^ j := by omega
      exact (Nat.pow_lt_pow_iff_right Nat.one_lt_two).mp this
    · exact hsize ▸ Nat.pow_le_pow_right Nat.two_pos hij

theorem tableSize_spec (n : ℕ) : ∃ k, tableSize n = 2 ^ k ∧ n * 3 ≤ tableSize n := by
  obtain ⟨k, hk, hle⟩ : ∃ k, tableSize n = 2 ^ k ∧ n * 3 ≤ 2 ^ k :=
    growSize_spec (j := 0) rfl (Nat.le_add_right _ _)
  exact ⟨k, hk, by rwa [hk]⟩

theorem tableSize_le_iff (n j : ℕ) : tableSize n ≤ 2 ^ j ↔ n * 3 ≤ 2 ^ j := by
  obtain ⟨k, -, hle⟩ := tableSize_spec n
  exact ⟨hle.trans, growSize_le (i := 0) rfl (Nat.zero_le j)⟩

/-! ### The two hashes -/

theorem and_mask64 (v : ℕ) : v &&& 0xFFFFFFFFFFFFFFFF = v % 2 ^ 64 :=
  Nat.and_two_pow_sub_one_eq_mod v 64

/-- One round of the mixing. -/
theorem toNat_mix (x : BitVec 64) (s m : ℕ) (hm : m < 2 ^ 64) :
    ((x ^^^ (x >>> s)) * BitVec.ofNat 64 m).toNat =
      ((x.toNat ^^^ (x.toNat >>> s)) * m) &&& 0xFFFFFFFFFFFFFFFF := by
  rw [and_mask64, BitVec.toNat_mul, BitVec.toNat_xor, BitVec.toNat_ushiftRight,
    BitVec.toNat_ofNat, Nat.mod_eq_of_lt hm]

/-- The hash of the kernel is that of the exporter. -/
theorem toNat_splitmix64d (x : BitVec 64) : (splitmix64d x).toNat = splitmix64 x.toNat := by
  have hadd : (x + 0x9E3779B97F4A7C15#64).toNat =
      (x.toNat + 0x9E3779B97F4A7C15) &&& 0xFFFFFFFFFFFFFFFF := by
    rw [and_mask64, BitVec.toNat_add, BitVec.toNat_ofNat]
  unfold splitmix64d splitmix64
  dsimp only
  rw [BitVec.toNat_xor, BitVec.toNat_ushiftRight, toNat_mix _ 27 _ (by omega),
    toNat_mix _ 30 _ (by omega), hadd]

theorem toNat_pieceHash (piece : List UInt8) : (pieceHash piece).toNat = fnv1a64 piece := by
  have hstep (h : BitVec 64) (byte : UInt8) :
      ((h ^^^ byte.toBitVec.setWidth 64) * 0x100000001B3#64).toNat =
        ((h.toNat ^^^ byte.toNat) * FNV_PRIME) &&& 0xFFFFFFFFFFFFFFFF := by
    have hbyte : byte.toBitVec.toNat < 2 ^ 64 := byte.toNat_lt.trans (by omega)
    have hprime : (0x100000001B3#64).toNat = FNV_PRIME := rfl
    rw [and_mask64, BitVec.toNat_mul, BitVec.toNat_xor, BitVec.toNat_setWidth,
      Nat.mod_eq_of_lt hbyte, hprime]
    rfl
  have hfold (h : BitVec 64) : (piece.foldl (fun h byte =>
      (h ^^^ byte.toBitVec.setWidth 64) * 0x100000001B3#64) h).toNat =
      piece.foldl (fun value byte => ((value ^^^ byte.toNat) * FNV_PRIME) &&& 0xFFFFFFFFFFFFFFFF)
        h.toNat := by
    induction piece generalizing h with
    | nil => rfl
    | cons byte piece ih => rw [List.foldl_cons, List.foldl_cons, ih, hstep]
  exact hfold _

/-! ### Building a table -/

/-- The slot where the walk of a key begins. -/
def home (size key : ℕ) : ℕ := splitmix64 key &&& (size - 1)

/-- The table holds the pairs. -/
def HashTable.Holds (t : HashTable) (pairs : List (ℕ × ℕ)) : Prop :=
  Probed t.size (home t.size) EMPTY t.keys t.vals pairs

theorem home_lt {size : ℕ} (hsize : size = 2 ^ k) (key : ℕ) : home size key < size := by
  rw [home, and_mask hsize]
  exact Nat.mod_lt _ (hsize ▸ Nat.two_pow_pos k)

/-- A key that went in was not there, and is there now. -/
theorem HashTable.Holds.put (h : t.Holds pairs) (hsize : t.size = 2 ^ k) (hkey : key ≠ EMPTY)
    (hput : t.put key value = .ok t') :
    t'.size = t.size ∧ t'.Holds (pairs ++ [(key, value)]) ∧ key < 2 ^ 64 ∧ value < 2 ^ 64 := by
  unfold HashTable.put at hput
  dsimp only at hput
  split at hput
  · cases hput
  · cases hput
  · rename_i slot hwalk
    split_ifs at hput with hfit
    obtain rfl := Except.ok.inj hput
    obtain ⟨n, hn, hfound, hskip⟩ := exists_of_walk hsize (home_lt hsize key) hwalk
    have hempty : t.keys (Lib.slot t.size (home t.size key) n) = EMPTY ∧
        Lib.slot t.size (home t.size key) n = slot := by
      split_ifs at hfound with hne hdup
      · cases hfound
      · exact ⟨not_not.mp hne, Except.ok.inj (Option.some.inj hfound)⟩
    have hbefore : ∀ m < n, t.keys (Lib.slot t.size (home t.size key) m) ≠ EMPTY ∧
        t.keys (Lib.slot t.size (home t.size key) m) ≠ key := by
      intro m hm
      have := hskip m hm
      split_ifs at this with hne hdup
      exact ⟨hne, hdup⟩
    refine ⟨rfl, ?_, hfit⟩
    obtain ⟨hempty, rfl⟩ := hempty
    exact Probed.insert h hn hkey hempty hbefore value

theorem HashTable.Holds.putAll {old : List (ℕ × ℕ)} (h : t.Holds old) (hsize : t.size = 2 ^ k)
    (hkeys : ∀ p ∈ pairs, p.1 ≠ EMPTY) (hput : t.putAll pairs = .ok t') :
    t'.size = t.size ∧ t'.Holds (old ++ pairs) ∧ ∀ p ∈ pairs, p.1 < 2 ^ 64 ∧ p.2 < 2 ^ 64 := by
  induction pairs generalizing t old with
  | nil =>
    obtain rfl := Except.ok.inj hput
    exact ⟨rfl, by rwa [List.append_nil], fun p hp => absurd hp List.not_mem_nil⟩
  | cons p pairs ih =>
    rw [List.forall_mem_cons] at hkeys
    rw [HashTable.putAll] at hput
    cases hone : t.put p.1 p.2 with
    | error e =>
      rw [hone] at hput
      cases hput
    | ok t₁ =>
      rw [hone] at hput
      obtain ⟨hsize₁, h₁, hfit⟩ := h.put hsize hkeys.1 hone
      obtain ⟨hsize', h', hrest⟩ := ih h₁ (hsize₁.trans hsize) hkeys.2 hput
      rw [List.append_assoc] at h'
      exact ⟨hsize'.trans hsize₁, h', List.forall_mem_cons.mpr ⟨hfit, hrest⟩⟩

/-- A built table holds the pairs it was built from, and keeps slots empty. -/
theorem buildHash_spec (hkeys : ∀ p ∈ pairs, p.1 ≠ EMPTY) (h : buildHash pairs = .ok t) :
    t.size = tableSize pairs.length ∧ t.Holds pairs ∧ ∀ p ∈ pairs, p.1 < 2 ^ 64 ∧ p.2 < 2 ^ 64 := by
  obtain ⟨k, hk, -⟩ := tableSize_spec pairs.length
  have hempty : HashTable.Holds ⟨tableSize pairs.length, fun _ => EMPTY, fun _ => 0⟩ [] :=
    Probed.empty _ _ _ _
  exact hempty.putAll hk hkeys h

theorem size_of_putAll (h : t.putAll pairs = .ok t') : t'.size = t.size := by
  induction pairs generalizing t with
  | nil =>
    obtain rfl := Except.ok.inj h
    rfl
  | cons p pairs ih =>
    rw [HashTable.putAll] at h
    cases hone : t.put p.1 p.2 with
    | error e =>
      rw [hone] at h
      cases h
    | ok t₁ =>
      rw [hone] at h
      refine (ih h).trans ?_
      unfold HashTable.put at hone
      dsimp only at hone
      split at hone
      · cases hone
      · cases hone
      · split_ifs at hone
        obtain rfl := Except.ok.inj hone
        rfl

theorem size_of_buildHash (h : buildHash pairs = .ok t) : t.size = tableSize pairs.length :=
  size_of_putAll h

/-! ### Searching a table -/

/-- The kernel begins where the exporter did, when it gets the mask. -/
theorem start_eq (hsize : t.size = 2 ^ k) {mask : ℕ} (hmask : t.mask = some mask) (x : BitVec 64) :
    mask = t.size - 1 ∧ start x mask = home t.size x.toNat := by
  rw [HashTable.mask] at hmask
  split_ifs at hmask with hlt
  obtain rfl := Option.some.inj hmask
  refine ⟨rfl, ?_⟩
  have hle : 2 ^ k ≤ 2 ^ 32 := by omega
  have hdvd : 2 ^ k ∣ 2 ^ 32 :=
    Nat.pow_dvd_pow 2 ((Nat.pow_le_pow_iff_right Nat.one_lt_two).mp hle)
  rw [start, home, toNat_splitmix64d, and_mask hsize, and_mask hsize, hsize, Nat.mod_mod_of_dvd _ hdvd]

theorem mask_eq_some (h : t.size ≤ 2 ^ 32) : t.mask = some (t.size - 1) := by
  rw [HashTable.mask, if_pos (by omega)]

/-- The key of a pair of ids. -/
def pairKey (idl idr : ℕ) : ℕ := (idl <<< 32) ||| idr

theorem toNat_pairKey (idl idr : BitVec 32) :
    (idl.setWidth 64 <<< 32 ||| idr.setWidth 64).toNat = pairKey idl.toNat idr.toNat := by
  have hl : idl.toNat < 2 ^ 64 := idl.isLt.trans (by omega)
  have hr : idr.toNat < 2 ^ 64 := idr.isLt.trans (by omega)
  have hshift : idl.toNat <<< 32 < 2 ^ 64 := by
    rw [Nat.shiftLeft_eq]
    have := idl.isLt
    omega
  rw [pairKey, BitVec.toNat_or, BitVec.toNat_shiftLeft, BitVec.toNat_setWidth,
    BitVec.toNat_setWidth, Nat.mod_eq_of_lt hl, Nat.mod_eq_of_lt hr, Nat.mod_eq_of_lt hshift]

theorem pairLookup_eq (hsize : t.size = 2 ^ k) (hle : t.size ≤ 2 ^ 32) (fuel : ℕ)
    (idl idr : BitVec 32) : pairLookup t fuel idl idr = walk (fun i =>
      if t.keys i = EMPTY then some (-1)
      else if t.keys i = pairKey idl.toNat idr.toNat then some (BitVec.ofNat 64 (t.vals i)).toInt
      else none) (t.size - 1) fuel (home t.size (pairKey idl.toNat idr.toNat)) := by
  have hmask := mask_eq_some hle
  rw [pairLookup, hmask, Option.bind_eq_bind, Option.bind_some]
  dsimp only
  rw [(start_eq hsize hmask _).2, toNat_pairKey]

theorem pairLookup_stored (h : t.Holds pairs) (hsize : t.size = 2 ^ k) (hle : t.size ≤ 2 ^ 32)
    {idl idr : BitVec 32} (hmem : (pairKey idl.toNat idr.toNat, value) ∈ pairs)
    (hvalue : value < 2 ^ 63) (hfuel : t.size ≤ fuel) :
    pairLookup t fuel idl idr = some (value : ℤ) := by
  rw [pairLookup_eq hsize hle]
  refine Probed.walk_stored h hsize (home_lt hsize _) hmem (fun i hne hkey => ?_)
    (fun i hkey hval => ?_) hfuel
  · rw [if_neg hne, if_neg hkey]
  · rw [if_neg (hkey ▸ Probed.real h _ hmem), if_pos hkey, hval,
      BitVec.toInt_eq_toNat_of_lt (by rw [BitVec.toNat_ofNat]; omega), BitVec.toNat_ofNat,
      Nat.mod_eq_of_lt (by omega)]

theorem pairLookup_absent (h : t.Holds pairs) (hsize : t.size = 2 ^ k) (hle : t.size ≤ 2 ^ 32)
    (hlt : pairs.length < t.size) {idl idr : BitVec 32}
    (habsent : ∀ p ∈ pairs, p.1 ≠ pairKey idl.toNat idr.toNat) (hfuel : t.size ≤ fuel) :
    pairLookup t fuel idl idr = some (-1) := by
  rw [pairLookup_eq hsize hle]
  refine Probed.walk_absent h hsize hlt (home_lt hsize _) (fun i hi hne => ?_) (fun i hempty => ?_)
    hfuel
  · rw [if_neg hne, if_neg (habsent _ (Probed.mem h i hi hne))]
  · rw [if_pos hempty]

/-- What `vocab_lookup` asks of the value at its key. -/
def Matches (blob : List UInt8) (mem : ℕ → UInt8) (piece : List UInt8) (v : ℕ) : Prop :=
  (v >>> 20) &&& 0x3FF = piece.length ∧
    ∀ j < piece.length, blob.getD ((v >>> 30) + j) (mem ((v >>> 30) + j)) = piece.getD j 0

instance (blob : List UInt8) (mem : ℕ → UInt8) (piece : List UInt8) (v : ℕ) :
    Decidable (Matches blob mem piece v) := inferInstanceAs (Decidable (_ ∧ _))

theorem vocabLookup_eq (hsize : t.size = 2 ^ k) (hle : t.size ≤ 2 ^ 32) (blob : List UInt8)
    (mem : ℕ → UInt8) (fuel : ℕ) (piece : List UInt8) :
    vocabLookup t blob mem fuel piece = walk (fun i =>
      if t.keys i = EMPTY then some (-1 : ℤ)
      else if t.keys i = fnv1a64 piece then
        if Matches blob mem piece (t.vals i) then some ((t.vals i &&& 0xFFFFF : ℕ) : ℤ) else none
      else none) (t.size - 1) fuel (home t.size (fnv1a64 piece)) := by
  have hmask := mask_eq_some hle
  rw [vocabLookup, hmask, Option.bind_eq_bind, Option.bind_some]
  dsimp only
  rw [(start_eq hsize hmask _).2, toNat_pieceHash]
  rfl

theorem vocabLookup_stored (h : t.Holds pairs) (hsize : t.size = 2 ^ k) (hle : t.size ≤ 2 ^ 32)
    {blob : List UInt8} {mem : ℕ → UInt8} (hmem : (fnv1a64 piece, value) ∈ pairs)
    (hvalue : Matches blob mem piece value) (hfuel : t.size ≤ fuel) :
    vocabLookup t blob mem fuel piece = some ((value &&& 0xFFFFF : ℕ) : ℤ) := by
  rw [vocabLookup_eq hsize hle]
  refine Probed.walk_stored h hsize (home_lt hsize _) hmem (fun i hne hkey => ?_)
    (fun i hkey hval => ?_) hfuel
  · rw [if_neg hne, if_neg hkey]
  · rw [if_neg (hkey ▸ Probed.real h _ hmem), if_pos hkey, hval, if_pos hvalue]

theorem vocabLookup_absent (h : t.Holds pairs) (hsize : t.size = 2 ^ k) (hle : t.size ≤ 2 ^ 32)
    (hlt : pairs.length < t.size) {blob : List UInt8} {mem : ℕ → UInt8}
    (habsent : ∀ v, (fnv1a64 piece, v) ∈ pairs → ¬Matches blob mem piece v)
    (hfuel : t.size ≤ fuel) : vocabLookup t blob mem fuel piece = some (-1) := by
  rw [vocabLookup_eq hsize hle]
  refine Probed.walk_absent h hsize hlt (home_lt hsize _) (fun i hi hne => ?_) (fun i hempty => ?_)
    hfuel
  · have hstored := Probed.mem h i hi hne
    rw [if_neg hne]
    split_ifs with hkey hvalue
    · exact absurd hvalue (habsent _ (hkey ▸ hstored))
    · rfl
    · rfl
  · rw [if_pos hempty]

/-! ### The merge rules -/

/-- The rule of rank `rank` merges the ids `a` and `b` into `c`. -/
def Model.Merges (M : Model) (a b rank c : ℕ) : Prop :=
  ∃ merge left right, M.merges[rank]? = some merge ∧ merge.parts = some (left, right) ∧
    M.vocab.lookup left = some a ∧ M.vocab.lookup right = some b ∧
    M.vocab.lookup (left ++ right) = some c

/-- The token of the bytes `raw` has the id. -/
def Model.Token (M : Model) (raw : List UInt8) (id : ℕ) : Prop :=
  ∃ token, (token, id) ∈ M.vocab ∧ tokenToRaw token = some raw

/-- The packed value of a rule. -/
def pairValue (rank c : ℕ) : ℕ := (rank <<< 32) ||| c

theorem id_eq_ok {token : Text} {id : ℕ} :
    M.id token = .ok id ↔ M.vocab.lookup token = some id := by
  unfold Model.id
  cases M.vocab.lookup token with
  | none => simp
  | some i => simp

/-- The exported pairs are the rules, from the rank on. -/
theorem mem_exportPairs {rank : ℕ} {merges : List RawMerge}
    (h : M.exportPairs rank merges = .ok pairs) :
    pairs.length = merges.length ∧ ∀ p, p ∈ pairs ↔ ∃ i merge left right a b c,
      merges[i]? = some merge ∧ merge.parts = some (left, right) ∧
      M.vocab.lookup left = some a ∧ M.vocab.lookup right = some b ∧
      M.vocab.lookup (left ++ right) = some c ∧ p = (pairKey a b, pairValue (rank + i) c) := by
  induction merges generalizing rank pairs with
  | nil =>
    obtain rfl := Except.ok.inj h
    exact ⟨rfl, fun p => ⟨fun hp => absurd hp List.not_mem_nil, by simp⟩⟩
  | cons merge merges ih =>
    rw [Model.exportPairs] at h
    cases hparts : merge.parts with
    | none =>
      rw [hparts] at h
      cases h
    | some parts =>
      obtain ⟨left, right⟩ := parts
      rw [hparts] at h
      dsimp only at h
      obtain ⟨a, hl, h⟩ := bind_eq_ok.mp h
      obtain ⟨b, hr, h⟩ := bind_eq_ok.mp h
      obtain ⟨c, hm, h⟩ := bind_eq_ok.mp h
      obtain ⟨rest, hrest, h⟩ := bind_eq_ok.mp h
      obtain rfl := Except.ok.inj h
      obtain ⟨hlen, hmem⟩ := ih hrest
      rw [id_eq_ok] at hl hr hm
      refine ⟨by rw [List.length_cons, List.length_cons, hlen], fun p => ?_⟩
      rw [List.mem_cons, hmem]
      constructor
      · rintro (rfl | ⟨i, merge', left', right', a', b', c', hi, hrule⟩)
        · exact ⟨0, merge, left, right, a, b, c, rfl, hparts, hl, hr, hm, rfl⟩
        · refine ⟨i + 1, merge', left', right', a', b', c', hi, ?_⟩
          rwa [Nat.add_assoc, Nat.add_comm 1 i] at hrule
      · rintro ⟨i, merge', left', right', a', b', c', hi, hrule⟩
        cases i with
        | zero =>
          obtain rfl := Option.some.inj hi
          obtain ⟨hparts', hl', hr', hm', hp⟩ := hrule
          obtain ⟨rfl, rfl⟩ := Prod.mk.inj (Option.some.inj (hparts.symm.trans hparts'))
          obtain rfl := Option.some.inj (hl.symm.trans hl')
          obtain rfl := Option.some.inj (hr.symm.trans hr')
          obtain rfl := Option.some.inj (hm.symm.trans hm')
          exact .inl hp
        | succ i =>
          refine .inr ⟨i, merge', left', right', a', b', c', hi, ?_⟩
          rwa [Nat.add_assoc, Nat.add_comm 1 i]

/-! ### The tokens -/

theorem mem_bytesToUnicode {p : ℕ × ℕ} (h : p ∈ bytesToUnicode) :
    p.1 < 256 ∧ (p.1 ∈ printableBytes ∧ p.2 = p.1 ∨ p.1 ∉ printableBytes ∧
      ∃ n, ((List.range 256).filter (· ∉ printableBytes))[n]? = some p.1 ∧ p.2 = 256 + n) := by
  rw [bytesToUnicode, List.mem_append, List.mem_map, List.mem_map] at h
  rcases h with ⟨byte, hbyte, rfl⟩ | ⟨⟨byte, n⟩, hn, rfl⟩
  · refine ⟨?_, .inl ⟨hbyte, rfl⟩⟩
    simp only [printableBytes, List.mem_append, List.mem_range'_1] at hbyte
    omega
  · have hget := List.mem_zipIdx_iff_getElem?.mp hn
    have hmem := List.mem_filter.mp (List.mem_of_getElem? hget)
    exact ⟨List.mem_range.mp hmem.1, .inr ⟨of_decide_eq_true hmem.2, n, hget, rfl⟩⟩

/-- A byte has one character. -/
theorem bytesToUnicode_inj {p q : ℕ × ℕ} (hp : p ∈ bytesToUnicode) (hq : q ∈ bytesToUnicode)
    (h : p.1 = q.1) : p.2 = q.2 := by
  rcases (mem_bytesToUnicode hp).2 with ⟨hpp, hp2⟩ | ⟨hpp, n, hn, hp2⟩ <;>
    rcases (mem_bytesToUnicode hq).2 with ⟨hqq, hq2⟩ | ⟨hqq, m, hm, hq2⟩
  · rw [hp2, hq2, h]
  · exact absurd (h ▸ hpp) hqq
  · exact absurd (h ▸ hqq) hpp
  · have hnodup : ((List.range 256).filter (· ∉ printableBytes)).Nodup :=
      List.nodup_range.filter _
    rw [← h] at hm
    have hlt := (List.getElem?_eq_some_iff.mp hn).1
    have hnm : n = m := (List.getElem?_inj hlt hnodup).mp (hn.trans hm.symm)
    rw [hp2, hq2, hnm]

theorem unicodeToByte_inj {c c' : Char} {b : UInt8} (h : unicodeToByte c = some b)
    (h' : unicodeToByte c' = some b) : c = c' := by
  obtain ⟨p, hp, rfl⟩ := Option.map_eq_some_iff.mp h
  obtain ⟨q, hq, hqb⟩ := Option.map_eq_some_iff.mp h'
  have hpm := List.mem_of_find?_eq_some hp
  have hqm := List.mem_of_find?_eq_some hq
  have hp2 : p.2 = c.toNat := by simpa using List.find?_some hp
  have hq2 : q.2 = c'.toNat := by simpa using List.find?_some hq
  have hfst : p.1 = q.1 := by
    have := congrArg UInt8.toNat hqb
    rw [UInt8.toNat_ofNat', UInt8.toNat_ofNat', Nat.mod_eq_of_lt (mem_bytesToUnicode hqm).1,
      Nat.mod_eq_of_lt (mem_bytesToUnicode hpm).1] at this
    exact this.symm
  have hcode : c.toNat = c'.toNat := by rw [← hp2, ← hq2, bytesToUnicode_inj hpm hqm hfst]
  exact Char.toNat_inj.mp hcode

/-- The bytes of a token tell which token it is. -/
theorem tokenToRaw_inj {token token' : Text} (h : tokenToRaw token = some raw)
    (h' : tokenToRaw token' = some raw) : token = token' := by
  induction token generalizing token' raw with
  | nil =>
    obtain rfl := Option.some.inj h
    cases token' with
    | nil => rfl
    | cons c' token' =>
      rw [tokenToRaw] at h'
      cases hb : unicodeToByte c' <;> cases hr : tokenToRaw token' <;> simp [hb, hr] at h'
  | cons c token ih =>
    rw [tokenToRaw] at h
    obtain ⟨b, hb, h⟩ := Option.bind_eq_some_iff.mp h
    obtain ⟨rest, hrest, h⟩ := Option.bind_eq_some_iff.mp h
    obtain rfl := Option.some.inj h
    cases token' with
    | nil => cases h'
    | cons c' token' =>
      rw [tokenToRaw] at h'
      obtain ⟨b', hb', h'⟩ := Option.bind_eq_some_iff.mp h'
      obtain ⟨rest', hrest', h'⟩ := Option.bind_eq_some_iff.mp h'
      obtain ⟨rfl, rfl⟩ := List.cons.inj (Option.some.inj h')
      rw [unicodeToByte_inj hb hb', ih hrest hrest']

/-- The entry of a token: its bytes stand at the offset, and both numbers keep their limits. -/
structure IsEntry (all raw : List UInt8) (id : ℕ) (e : ℕ × ℕ) (off : ℕ) : Prop where
  length_lt : raw.length < 1024
  off_lt : off < 2 ^ 34
  bytes : raw <+: all.drop off
  eq : e = (fnv1a64 raw, packed off raw.length id)

/-- What the vocabulary loop has done, with the tokens it has met. -/
structure Listed (referenced : List Text) (vocab : List (Text × ℕ)) (all : List UInt8)
    (entries : List (ℕ × ℕ)) : Prop where
  entry : ∀ e ∈ entries, ∃ token id raw off, (token, id) ∈ vocab ∧ tokenToRaw token = some raw ∧
    IsEntry all raw id e off
  token : ∀ token id raw, (token, id) ∈ vocab → tokenToRaw token = some raw →
    ∃ e ∈ entries, ∃ off, IsEntry all raw id e off
  length : entries.length = vocab.countP fun p => (tokenToRaw p.1).isSome
  decodable : ∀ token id, (token, id) ∈ vocab → token ∈ referenced → (tokenToRaw token).isSome

theorem listed_exportVocab {referenced : List Text} {vocab : List (Text × ℕ)} {blob all : List UInt8}
    {seen : List (ℕ × List UInt8)} {entries : List (ℕ × ℕ)} (hnodup : (vocab.map Prod.fst).Nodup)
    (hseen : ∀ p ∈ seen, ∀ token id, (token, id) ∈ vocab → tokenToRaw token ≠ some p.2)
    (h : exportVocab referenced vocab blob seen = .ok (entries, all)) :
    blob <+: all ∧ Listed referenced vocab all entries := by
  induction vocab generalizing blob seen entries with
  | nil =>
    obtain ⟨rfl, rfl⟩ := Prod.mk.inj (Except.ok.inj h)
    refine ⟨List.prefix_rfl, fun e he => absurd he List.not_mem_nil,
      fun token id raw hmem => absurd hmem List.not_mem_nil, rfl,
      fun token id hmem => absurd hmem List.not_mem_nil⟩
  | cons entry vocab ih =>
    obtain ⟨token, id⟩ := entry
    obtain ⟨hfresh, hnodup⟩ := List.nodup_cons.mp hnodup
    have hseen' : ∀ p ∈ seen, ∀ token id, (token, id) ∈ vocab → tokenToRaw token ≠ some p.2 :=
      fun p hp token' id' hmem => hseen p hp token' id' (List.mem_cons_of_mem _ hmem)
    rw [exportVocab] at h
    cases hraw : tokenToRaw token with
    | none =>
      rw [hraw] at h
      dsimp only at h
      split_ifs at h with href
      obtain ⟨hblob, hlisted⟩ := ih hnodup hseen' h
      refine ⟨hblob, fun e he => ?_, fun token' id' raw hmem hr => ?_, ?_,
        fun token' id' hmem htok => ?_⟩
      · obtain ⟨token', id', raw, off, hmem, hr, hentry⟩ := hlisted.entry e he
        exact ⟨token', id', raw, off, List.mem_cons_of_mem _ hmem, hr, hentry⟩
      · rcases List.mem_cons.mp hmem with heq | hmem
        · obtain ⟨rfl, rfl⟩ := Prod.mk.inj heq
          exact absurd (hraw.symm.trans hr) (by simp)
        · exact hlisted.token token' id' raw hmem hr
      · rw [List.countP_cons_of_neg (by simp [hraw]), hlisted.length]
      · rcases List.mem_cons.mp hmem with heq | hmem
        · obtain ⟨rfl, rfl⟩ := Prod.mk.inj heq
          exact absurd htok href
        · exact hlisted.decodable token' id' hmem htok
    | some raw =>
      rw [hraw] at h
      dsimp only at h
      split_ifs at h with hlimits
      rw [not_or, not_le, not_le] at hlimits
      cases hlookup : seen.lookup (fnv1a64 raw) with
      | some other =>
        rw [hlookup] at h
        dsimp only at h
        split_ifs at h with hother
        -- the bytes of two tokens are different
        obtain rfl := not_not.mp hother
        have hmem : (fnv1a64 other, other) ∈ seen := by
          obtain ⟨pre, post, rfl, -⟩ := List.lookup_eq_some_iff.mp hlookup
          simp
        exact absurd hraw (hseen _ hmem token id List.mem_cons_self)
      | none =>
        rw [hlookup] at h
        dsimp only at h
        cases hrest : exportVocab referenced vocab (blob ++ raw) ((fnv1a64 raw, raw) :: seen) with
        | error e =>
          rw [hrest] at h
          cases h
        | ok result =>
          obtain ⟨entries', all'⟩ := result
          rw [hrest] at h
          obtain ⟨rfl, rfl⟩ := Prod.mk.inj (Except.ok.inj h)
          obtain ⟨hblob, hlisted⟩ := ih hnodup (fun p hp token' id' hmem hr => by
            rcases List.mem_cons.mp hp with rfl | hp
            · obtain rfl := tokenToRaw_inj hraw hr
              exact hfresh (List.mem_map.mpr ⟨(token, id'), hmem, rfl⟩)
            · exact hseen' p hp token' id' hmem hr) hrest
          have hentry : IsEntry all' raw id (fnv1a64 raw, packed blob.length raw.length id)
              blob.length := by
            refine ⟨hlimits.1, by simpa using hlimits.2, ?_, rfl⟩
            obtain ⟨more, rfl⟩ := hblob
            rw [List.append_assoc, List.drop_left]
            exact List.prefix_append _ _
          refine ⟨(List.prefix_append _ _).trans hblob, fun e he => ?_,
            fun token' id' raw' hmem hr => ?_, ?_, fun token' id' hmem htok => ?_⟩
          · rcases List.mem_cons.mp he with rfl | he
            · exact ⟨token, id, raw, _, List.mem_cons_self, hraw, hentry⟩
            · obtain ⟨token', id', raw', off, hmem, hr, hentry'⟩ := hlisted.entry e he
              exact ⟨token', id', raw', off, List.mem_cons_of_mem _ hmem, hr, hentry'⟩
          · rcases List.mem_cons.mp hmem with heq | hmem
            · obtain ⟨rfl, rfl⟩ := Prod.mk.inj heq
              obtain rfl := Option.some.inj (hraw.symm.trans hr)
              exact ⟨_, List.mem_cons_self, _, hentry⟩
            · obtain ⟨e, he, off, hentry'⟩ := hlisted.token token' id' raw' hmem hr
              exact ⟨e, List.mem_cons_of_mem _ he, off, hentry'⟩
          · rw [List.countP_cons_of_pos (by simp [hraw]), List.length_cons, hlisted.length]
          · rcases List.mem_cons.mp hmem with heq | hmem
            · obtain ⟨rfl, rfl⟩ := Prod.mk.inj heq
              rw [hraw]
              rfl
            · exact hlisted.decodable token' id' hmem htok

end Toktier.Bpe.Export
