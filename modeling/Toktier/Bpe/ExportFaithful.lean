import Mathlib.Data.Nat.Bitwise
import Toktier.Bpe.ExportLaws

/-!
# When an export is faithful

What the kernels find is right when the id of every byte-level token leaves the other fields of
its packed value alone and no token has the hash that marks an empty slot. The exporter checks
the length and the offset, but neither of these.

## Main definitions

* `Faithful`: the searches of the kernels answer for the model.
* `Fits`: the ids, the hashes and the sizes of the tables keep their limits.

## Main results

* `faithful_iff`: an export is faithful exactly when the model fits.
-/
namespace Toktier.Bpe.Export

open Toktier.Lib

variable {M : Model} {E : Exported} {raw : List UInt8} {a b c id len off rank : ℕ}

/-! ### The fields of a value -/

theorem shiftLeft_or_eq {x n y : ℕ} (hy : y < 2 ^ n) : (x <<< n) ||| y = x * 2 ^ n + y := by
  rw [← Nat.shiftLeft_add_eq_or_of_lt hy, Nat.shiftLeft_eq]

theorem packed_eq (hlen : len < 1024) (hid : id < 2 ^ 20) :
    packed off len id = off * 2 ^ 30 + len * 2 ^ 20 + id := by
  have hmid : len <<< 20 < 2 ^ 30 := by
    rw [Nat.shiftLeft_eq]
    omega
  have hhigh : (off <<< 30) ||| (len <<< 20) = (off * 2 ^ 10 + len) <<< 20 := by
    rw [shiftLeft_or_eq hmid, Nat.shiftLeft_eq, Nat.shiftLeft_eq]
    omega
  rw [packed, hhigh, shiftLeft_or_eq hid]
  omega

/-- The three fields come back when the id keeps to its own. -/
theorem packed_fields (hlen : len < 1024) (hid : id < 2 ^ 20) :
    packed off len id >>> 30 = off ∧ (packed off len id >>> 20) &&& 0x3FF = len ∧
      packed off len id &&& 0xFFFFF = id := by
  have hten (x : ℕ) : x &&& 0x3FF = x % 2 ^ 10 := Nat.and_two_pow_sub_one_eq_mod x 10
  have htwenty (x : ℕ) : x &&& 0xFFFFF = x % 2 ^ 20 := Nat.and_two_pow_sub_one_eq_mod x 20
  rw [packed_eq hlen hid, hten, htwenty, Nat.shiftRight_eq_div_pow, Nat.shiftRight_eq_div_pow]
  refine ⟨?_, ?_, ?_⟩ <;> omega

theorem pairKey_eq (hb : b < 2 ^ 32) : pairKey a b = a * 2 ^ 32 + b := shiftLeft_or_eq hb

theorem pairKey_inj {a' b' : ℕ} (hb : b < 2 ^ 32) (hb' : b' < 2 ^ 32)
    (h : pairKey a b = pairKey a' b') : a = a' ∧ b = b' := by
  rw [pairKey_eq hb, pairKey_eq hb'] at h
  omega

theorem pairValue_fields (hc : c < 2 ^ 32) :
    pairValue rank c >>> 32 = rank ∧ pairValue rank c &&& 0xFFFFFFFF = c := by
  have hmask (x : ℕ) : x &&& 0xFFFFFFFF = x % 2 ^ 32 := Nat.and_two_pow_sub_one_eq_mod x 32
  rw [hmask, pairValue, shiftLeft_or_eq hc, Nat.shiftRight_eq_div_pow]
  omega

/-! ### Faithful exports -/

/-- The searches of the kernels answer for the model: they end, they find what is there and
nothing else, the fields of a value are what went in, and no key marks an empty slot. -/
structure Faithful (M : Model) (E : Exported) : Prop where
  merge : ∀ (idl idr : BitVec 32) (rank c fuel : ℕ), M.Merges idl.toNat idr.toNat rank c →
    E.pairs.size ≤ fuel → ∃ v : ℕ, pairLookup E.pairs fuel idl idr = some (v : ℤ) ∧
      v >>> 32 = rank ∧ v &&& 0xFFFFFFFF = c
  noMerge : ∀ (idl idr : BitVec 32) (fuel : ℕ),
    (∀ rank c, ¬M.Merges idl.toNat idr.toNat rank c) → E.pairs.size ≤ fuel →
      pairLookup E.pairs fuel idl idr = some (-1)
  token : ∀ (raw : List UInt8) (id : ℕ) (mem : ℕ → UInt8) (fuel : ℕ), M.Token raw id →
    E.vocab.size ≤ fuel → vocabLookup E.vocab E.blob mem fuel raw = some (id : ℤ)
  noToken : ∀ (raw : List UInt8) (mem : ℕ → UInt8) (fuel : ℕ), (∀ id, ¬M.Token raw id) →
    E.vocab.size ≤ fuel → vocabLookup E.vocab E.blob mem fuel raw = some (-1)
  fields : ∀ raw id, M.Token raw id → ∃ i < E.vocab.size, ∃ off,
    E.vocab.keys i = fnv1a64 raw ∧ E.vocab.vals i = packed off raw.length id ∧
      raw <+: E.blob.drop off ∧ E.vocab.vals i >>> 30 = off ∧
      (E.vocab.vals i >>> 20) &&& 0x3FF = raw.length ∧ E.vocab.vals i &&& 0xFFFFF = id
  pairKeys : ∀ a b rank c, M.Merges a b rank c → pairKey a b ≠ EMPTY
  vocabKeys : ∀ raw id, M.Token raw id → fnv1a64 raw ≠ EMPTY

/-- The number of byte-level tokens. -/
def Model.rawTokens (M : Model) : ℕ := M.vocab.countP fun p => (tokenToRaw p.1).isSome

/-- The ids of the byte-level tokens fit their field, none of their hashes marks an empty slot,
and neither table has more slots than a mask can name. -/
structure Fits (M : Model) : Prop where
  id_lt : ∀ raw id, M.Token raw id → id < 2 ^ 20
  hash_ne : ∀ raw id, M.Token raw id → fnv1a64 raw ≠ EMPTY
  pairs_le : 3 * M.merges.length ≤ 2 ^ 32
  vocab_le : 3 * M.rawTokens ≤ 2 ^ 32

/-- What an export has put into its tables. -/
theorem export_spec (h : M.export = .ok E) : ∃ pairs entries,
    M.exportPairs 0 M.merges = .ok pairs ∧ buildHash pairs = .ok E.pairs ∧
      exportVocab M.referenced M.vocab [] [] = .ok (entries, E.blob) ∧
      buildHash entries = .ok E.vocab := by
  rw [Model.export] at h
  obtain ⟨pairs, hpairs, h⟩ := bind_eq_ok.mp h
  obtain ⟨pairTable, htable, h⟩ := bind_eq_ok.mp h
  dsimp only at h
  split_ifs at h
  · cases h
  obtain ⟨⟨entries, blob⟩, hvocab, h⟩ := bind_eq_ok.mp h
  obtain ⟨vocabTable, hentries, h⟩ := bind_eq_ok.mp h
  obtain rfl := Except.ok.inj h
  exact ⟨pairs, entries, hpairs, htable, hvocab, hentries⟩

theorem mem_pairs {pairs : List (ℕ × ℕ)} (h : M.exportPairs 0 M.merges = .ok pairs) {p : ℕ × ℕ} :
    p ∈ pairs ↔ ∃ a b rank c, M.Merges a b rank c ∧ p = (pairKey a b, pairValue rank c) := by
  rw [(mem_exportPairs h).2]
  constructor
  · rintro ⟨rank, merge, left, right, a, b, c, hget, hparts, ha, hb, hc, rfl⟩
    exact ⟨a, b, rank, c, ⟨merge, left, right, hget, hparts, ha, hb, hc⟩, by rw [Nat.zero_add]⟩
  · rintro ⟨a, b, rank, c, ⟨merge, left, right, hget, hparts, ha, hb, hc⟩, rfl⟩
    exact ⟨rank, merge, left, right, a, b, c, hget, hparts, ha, hb, hc, by rw [Nat.zero_add]⟩

theorem mem_of_lookup {token : Text} (h : M.vocab.lookup token = some id) :
    (token, id) ∈ M.vocab := by
  obtain ⟨pre, post, heq, -⟩ := List.lookup_eq_some_iff.mp h
  rw [heq]
  simp

/-- The tokens of a rule are byte-level, or the export stops. -/
theorem tokens_of_merges {entries : List (ℕ × ℕ)} {blob : List UInt8}
    (h : Listed M.referenced M.vocab blob entries) (hmerge : M.Merges a b rank c) :
    (∃ raw, M.Token raw a) ∧ (∃ raw, M.Token raw b) ∧ (∃ raw, M.Token raw c) ∧
      rank < M.merges.length := by
  obtain ⟨merge, left, right, hget, hparts, ha, hb, hc⟩ := hmerge
  have hreal {token : Text} {id : ℕ} (htoken : token ∈ [left, right, left ++ right])
      (hid : M.vocab.lookup token = some id) : ∃ raw, M.Token raw id := by
    have hmem := mem_of_lookup hid
    have href : token ∈ M.referenced := by
      refine List.mem_flatMap.mpr ⟨merge, List.mem_of_getElem? hget, ?_⟩
      rwa [hparts]
    obtain ⟨raw, hraw⟩ := Option.isSome_iff_exists.mp (h.decodable token id hmem href)
    exact ⟨raw, token, hmem, hraw⟩
  exact ⟨hreal (by simp) ha, hreal (by simp) hb, hreal (by simp) hc,
    (List.getElem?_eq_some_iff.mp hget).1⟩

/-- The rule of an export that fits: its ids and its rank are small. -/
theorem Fits.merges_lt {entries : List (ℕ × ℕ)} {blob : List UInt8} (hfits : Fits M)
    (h : Listed M.referenced M.vocab blob entries) (hmerge : M.Merges a b rank c) :
    a < 2 ^ 20 ∧ b < 2 ^ 20 ∧ c < 2 ^ 20 ∧ rank < 2 ^ 31 := by
  obtain ⟨⟨rawa, ha⟩, ⟨rawb, hb⟩, ⟨rawc, hc⟩, hrank⟩ := tokens_of_merges h hmerge
  have := hfits.pairs_le
  exact ⟨hfits.id_lt _ _ ha, hfits.id_lt _ _ hb, hfits.id_lt _ _ hc, by omega⟩

theorem pairKey_ne_empty (hb : b < 2 ^ 20) : pairKey a b ≠ EMPTY := by
  rw [pairKey_eq (by omega), EMPTY]
  omega

/-- A table of an export: its size, and room for a walk to end. -/
theorem size_spec {pairs : List (ℕ × ℕ)} {t : HashTable} (h : buildHash pairs = .ok t)
    (hle : 3 * pairs.length ≤ 2 ^ 32) :
    ∃ k, t.size = 2 ^ k ∧ t.size ≤ 2 ^ 32 ∧ pairs.length < t.size := by
  obtain ⟨k, hk, hroom⟩ := tableSize_spec pairs.length
  have hpos : 0 < 2 ^ k := Nat.two_pow_pos k
  rw [size_of_buildHash h]
  exact ⟨k, hk, (tableSize_le_iff _ _).mpr (by omega), by omega⟩

/-- The value of a token is that of its bytes alone. -/
theorem matches_packed_iff {blob : List UInt8} {mem : ℕ → UInt8} {piece : List UInt8}
    (hlen : raw.length < 1024) (hid : id < 2 ^ 20) (hbytes : raw <+: blob.drop off) :
    Matches blob mem piece (packed off raw.length id) ↔ piece = raw := by
  have hoff : packed off raw.length id >>> 30 = off := (packed_fields hlen hid).1
  have hlength : (packed off raw.length id >>> 20) &&& 0x3FF = raw.length :=
    (packed_fields hlen hid).2.1
  have hget {j : ℕ} (hj : j < raw.length) : blob.getD (off + j) (mem (off + j)) = raw.getD j 0 := by
    obtain ⟨rest, hrest⟩ := hbytes
    have : blob[off + j]? = raw[j]? := by
      rw [← List.getElem?_drop, ← hrest, List.getElem?_append_left hj]
    rw [List.getD_eq_getElem?_getD, List.getD_eq_getElem?_getD, this, List.getElem?_eq_getElem hj]
    rfl
  rw [Matches, hoff, hlength]
  constructor
  · rintro ⟨heq, hall⟩
    refine List.ext_getElem heq.symm fun j hj hj' => ?_
    have := (hall j hj).symm.trans (hget hj')
    rwa [List.getD_eq_getElem _ _ hj, List.getD_eq_getElem _ _ hj'] at this
  · rintro rfl
    exact ⟨rfl, fun j hj => hget hj⟩

/-! ### The exact condition -/

/-- The pair table of a model that fits. -/
theorem Fits.holds_pairs {pairs entries : List (ℕ × ℕ)} {blob : List UInt8} {t : HashTable}
    (hfits : Fits M) (hlisted : Listed M.referenced M.vocab blob entries)
    (hpairs : M.exportPairs 0 M.merges = .ok pairs) (htable : buildHash pairs = .ok t) :
    t.Holds pairs := by
  refine (buildHash_spec (fun p hp => ?_) htable).2.1
  obtain ⟨a, b, rank, c, hmerge, rfl⟩ := (mem_pairs hpairs).mp hp
  obtain ⟨-, hb, -, -⟩ := hfits.merges_lt hlisted hmerge
  exact pairKey_ne_empty hb

/-- The vocabulary table of a model that fits. -/
theorem Fits.holds_vocab {entries : List (ℕ × ℕ)} {blob : List UInt8} {t : HashTable}
    (hfits : Fits M) (hlisted : Listed M.referenced M.vocab blob entries)
    (htable : buildHash entries = .ok t) : t.Holds entries := by
  refine (buildHash_spec (fun e he => ?_) htable).2.1
  obtain ⟨token, id, raw, off, hmem, hraw, hentry⟩ := hlisted.entry e he
  rw [hentry.eq]
  exact hfits.hash_ne raw id ⟨token, hmem, hraw⟩

/-- An export of a model that fits is faithful. -/
theorem Fits.faithful (hfits : Fits M) (h : M.export = .ok E) : Faithful M E := by
  obtain ⟨pairs, entries, hpairs, hpairTable, hvocab, hvocabTable⟩ := export_spec h
  have hlisted := (listed_exportVocab M.vocab_nodup (fun p hp => absurd hp List.not_mem_nil) hvocab).2
  have hholdsP := hfits.holds_pairs hlisted hpairs hpairTable
  have hholdsV := hfits.holds_vocab hlisted hvocabTable
  obtain ⟨k, hkP, hleP, hroomP⟩ := size_spec hpairTable
    (by rw [(mem_exportPairs hpairs).1]; exact hfits.pairs_le)
  obtain ⟨k', hkV, hleV, hroomV⟩ := size_spec hvocabTable
    (by rw [hlisted.length]; exact hfits.vocab_le)
  refine ⟨fun idl idr rank c fuel hmerge hfuel => ?_, fun idl idr fuel hnone hfuel => ?_,
    fun raw id mem fuel htoken hfuel => ?_, fun raw mem fuel hnone hfuel => ?_,
    fun raw id htoken => ?_, fun a b rank c hmerge => ?_, hfits.hash_ne⟩
  · obtain ⟨-, -, hc, hrank⟩ := hfits.merges_lt hlisted hmerge
    refine ⟨pairValue rank c, ?_, pairValue_fields (by omega)⟩
    have hlt : pairValue rank c < 2 ^ 63 := by
      rw [pairValue, shiftLeft_or_eq (by omega)]
      omega
    exact pairLookup_stored hholdsP hkP hleP ((mem_pairs hpairs).mpr ⟨_, _, _, _, hmerge, rfl⟩) hlt
      hfuel
  · refine pairLookup_absent hholdsP hkP hleP hroomP (fun p hp hkey => ?_) hfuel
    obtain ⟨a, b, rank, c, hmerge, rfl⟩ := (mem_pairs hpairs).mp hp
    obtain ⟨-, hb, -, -⟩ := hfits.merges_lt hlisted hmerge
    obtain ⟨rfl, rfl⟩ := pairKey_inj (by omega) idr.isLt hkey
    exact hnone rank c hmerge
  · obtain ⟨token, hmem, hraw⟩ := htoken
    have hid := hfits.id_lt raw id ⟨token, hmem, hraw⟩
    obtain ⟨e, he, off, hentry⟩ := hlisted.token token id raw hmem hraw
    rw [hentry.eq] at he
    rw [vocabLookup_stored hholdsV hkV hleV he
      ((matches_packed_iff hentry.length_lt hid hentry.bytes).mpr rfl) hfuel,
      (packed_fields hentry.length_lt hid).2.2]
  · refine vocabLookup_absent hholdsV hkV hleV hroomV (fun v hv hmatch => ?_) hfuel
    obtain ⟨token, id, raw', off, hmem, hraw, hentry⟩ := hlisted.entry _ hv
    have hid := hfits.id_lt raw' id ⟨token, hmem, hraw⟩
    obtain ⟨-, rfl⟩ := Prod.mk.inj hentry.eq
    obtain rfl := (matches_packed_iff hentry.length_lt hid hentry.bytes).mp hmatch
    exact hnone id ⟨token, hmem, hraw⟩
  · obtain ⟨token, hmem, hraw⟩ := htoken
    have hid := hfits.id_lt raw id ⟨token, hmem, hraw⟩
    obtain ⟨e, he, off, hentry⟩ := hlisted.token token id raw hmem hraw
    rw [hentry.eq] at he
    obtain ⟨n, -, hkey, hval, -⟩ := hholdsV.placed _ he
    dsimp only at hkey hval
    refine ⟨slot E.vocab.size (home E.vocab.size (fnv1a64 raw)) n,
      slot_lt (by rw [hkV]; exact Nat.two_pow_pos k') _ _, off, hkey, hval, hentry.bytes, ?_⟩
    rw [hval]
    exact packed_fields hentry.length_lt hid
  · obtain ⟨-, hb, -, -⟩ := hfits.merges_lt hlisted hmerge
    exact pairKey_ne_empty hb

theorem size_le_of_mask {t : HashTable} {pairs : List (ℕ × ℕ)} (h : buildHash pairs = .ok t)
    (hmask : t.mask ≠ none) : 3 * pairs.length ≤ 2 ^ 32 := by
  rw [HashTable.mask] at hmask
  split_ifs at hmask with hlt
  · rw [size_of_buildHash h] at hlt
    have := (tableSize_le_iff pairs.length 32).mp (by omega)
    omega
  · exact absurd rfl hmask

/-- A model with a faithful export fits. -/
theorem Faithful.fits (hfaithful : Faithful M E) (h : M.export = .ok E) : Fits M := by
  obtain ⟨pairs, entries, hpairs, hpairTable, hvocab, hvocabTable⟩ := export_spec h
  have hlisted := (listed_exportVocab M.vocab_nodup (fun p hp => absurd hp List.not_mem_nil) hvocab).2
  refine ⟨fun raw id htoken => ?_, hfaithful.vocabKeys, ?_, ?_⟩
  · obtain ⟨i, -, -, -, -, -, -, -, hid⟩ := hfaithful.fields raw id htoken
    have : id ≤ 0xFFFFF := hid ▸ Nat.and_le_right
    omega
  · -- a table that is not launched answers no search
    rw [← (mem_exportPairs hpairs).1]
    refine size_le_of_mask hpairTable fun hmask => ?_
    have hnone : pairLookup E.pairs E.pairs.size 0 0 = none := by
      rw [pairLookup, hmask]
      rfl
    by_cases hmerge : ∃ rank c, M.Merges 0 0 rank c
    · obtain ⟨rank, c, hmerge⟩ := hmerge
      obtain ⟨v, hv, -⟩ := hfaithful.merge 0 0 rank c _ hmerge le_rfl
      exact absurd (hnone.symm.trans hv) (by simp)
    · rw [not_exists] at hmerge
      have hv := hfaithful.noMerge 0 0 _ (fun rank c hm => hmerge rank ⟨c, hm⟩) le_rfl
      exact absurd (hnone.symm.trans hv) (by simp)
  · rw [Model.rawTokens, ← hlisted.length]
    refine size_le_of_mask hvocabTable fun hmask => ?_
    have hnone : vocabLookup E.vocab E.blob (fun _ => 0) E.vocab.size [] = none := by
      rw [vocabLookup, hmask]
      rfl
    by_cases htoken : ∃ id, M.Token [] id
    · obtain ⟨id, htoken⟩ := htoken
      exact absurd (hnone.symm.trans (hfaithful.token [] id _ _ htoken le_rfl)) (by simp)
    · rw [not_exists] at htoken
      exact absurd (hnone.symm.trans (hfaithful.noToken [] _ _ htoken le_rfl)) (by simp)

/-- An export is faithful exactly when the model fits. -/
theorem faithful_iff (h : M.export = .ok E) : Faithful M E ↔ Fits M :=
  ⟨fun hfaithful => hfaithful.fits h, fun hfits => hfits.faithful h⟩

theorem eq_ok_of_toOption {ε α : Type} {x : Except ε α} {y : α} (h : x.toOption = some y) :
    x = .ok y := by
  cases x with
  | error e => cases h
  | ok z => rw [Option.some.inj h]

/-- Two bytes and the rule that joins them. -/
def modelAB : Model where
  vocab := [(['a'], 0), (['b'], 1), (['a', 'b'], 2)]
  vocab_nodup := by decide
  merges := [.line ['a', ' ', 'b']]
  ignoreMerges := false

theorem faithful_iff_ab : ∃ E, modelAB.export = .ok E ∧ Faithful modelAB E := by
  have hok : modelAB.export.toOption.isSome := by decide +kernel
  obtain ⟨E, hE⟩ := Option.isSome_iff_exists.mp hok
  have hexport : modelAB.export = .ok E := eq_ok_of_toOption hE
  refine ⟨E, hexport, (faithful_iff hexport).mpr ⟨?_, ?_, by decide, by decide⟩⟩
  · rintro raw id ⟨token, hmem, -⟩
    have : ∀ p ∈ modelAB.vocab, p.2 < 2 ^ 20 := by decide
    exact this _ hmem
  · rintro raw id ⟨token, hmem, hraw⟩
    have : ∀ p ∈ modelAB.vocab, (tokenToRaw p.1).all fun raw => fnv1a64 raw ≠ EMPTY := by
      decide +kernel
    have := this _ hmem
    rw [hraw] at this
    exact of_decide_eq_true this

/-- One token, with an id of 21 bits. -/
def modelWide : Model where
  vocab := [(['a'], 1048576)]
  vocab_nodup := by decide
  merges := []
  ignoreMerges := false

/-- The exporter takes an id of 21 bits, and the kernel finds the id 0 for its bytes. -/
theorem wide_id_not_faithful : ∃ E, modelWide.export = .ok E ∧ modelWide.Token [97] 1048576 ∧
    vocabLookup E.vocab E.blob (fun _ => 0) E.vocab.size [97] = some 0 ∧ ¬Faithful modelWide E := by
  have hfound : (modelWide.export.toOption.bind fun E =>
      vocabLookup E.vocab E.blob (fun _ => 0) E.vocab.size [97]) = some 0 := by decide +kernel
  obtain ⟨E, hE, hlookup⟩ := Option.bind_eq_some_iff.mp hfound
  have hexport : modelWide.export = .ok E := eq_ok_of_toOption hE
  have htoken : modelWide.Token [97] 1048576 := ⟨['a'], List.mem_singleton.mpr rfl, by decide⟩
  refine ⟨E, hexport, htoken, hlookup, fun hfaithful => ?_⟩
  have := hlookup.symm.trans (hfaithful.token _ _ (fun _ => 0) _ htoken le_rfl)
  exact absurd (Option.some.inj this) (by decide)

end Toktier.Bpe.Export
