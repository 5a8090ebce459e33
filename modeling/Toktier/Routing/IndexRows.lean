import Toktier.Lib.Hex
import Toktier.Lib.Utf8Slices
import Toktier.StoreCore.Recovery

/-!
# Rows of the index file

A row of the index writes its digests in hexadecimal. The decoder takes a string of 32 bytes,
cuts it into pairs of bytes and parses each pair with the integer parser, which takes a sign;
a cut inside a character is a panic.

## Main definitions

* `IndexRow`, `fromEntry`, `intoEntry`: a row, from an entry and back.
* `Accepts`, `Cut`: the strings that are decoded, and those that are cut inside a character.
* `Clean`: no string is cut that is reached, and no row that is decoded has a sign.

## Main results

* `intoEntry_fromEntry`: an entry is read back from its row.
* `meets_iff`: when a row is decoded without a panic and from digits alone.
-/
namespace Toktier.Routing

open Toktier.Lib Toktier.Lib.Utf8 Toktier.StoreCore

/-! ### The decoder -/

/-- Hexadecimal digits that fit eight bits. -/
def digits16 (value : ℕ) : Text → Option ℕ
  | [] => some value
  | c :: cs => do
    let digit ← hexValue? c
    if value * 16 + digit < 256 then digits16 (value * 16 + digit) cs else none

/-- `u8::from_str_radix(src, 16)` -/
def fromStrRadix16 : Text → Option ℕ
  | [] => none
  | [c] => if c = '+' ∨ c = '-' then none else digits16 0 [c]
  | c :: cs => if c = '+' then digits16 0 cs else digits16 0 (c :: cs)

/-- One slot of the output; `None` is a rejection. -/
def unhexAt (value : Text) (index : ℕ) : Decode Unit UInt8 := do
  let start := index * 2
  let piece ← strSlice value start (start + 2)
  match fromStrRadix16 piece with
  | some byte => .ok (UInt8.ofNat byte)
  | none => .error (.Reject ())

/-- `unhex16` -/
def unhex16 (value : Text) : Decode Unit Bytes16 := do
  require (utf8Len value = 32) ()
  match h : (List.range' 0 16).mapM (unhexAt value) with
  | .ok output => .ok ⟨output, (mapM_eq_ok h).length_eq.symm⟩
  | .error e => .error e

/-- A row of the index file. -/
structure IndexRow where
  bytes : ℕ
  endDigest : Text
  marks : List (ℕ × Text)

/-- `from_entry` -/
def IndexRow.fromEntry (entry : ContentIndexEntry) : IndexRow where
  bytes := entry.byteLength
  endDigest := hex entry.endDigest.bytes
  marks := entry.marks.map fun mark => (mark.1, hex mark.2.bytes)

/-- A mark of a row. -/
def unhexMark (mark : ℕ × Text) : Decode Unit (ℕ × Bytes16) := do
  let digest ← unhex16 mark.2
  .ok (mark.1, digest)

/-- `into_entry` -/
def IndexRow.intoEntry (row : IndexRow) : Decode Unit ContentIndexEntry := do
  let endDigest ← unhex16 row.endDigest
  let marks ← row.marks.mapM unhexMark
  .ok ⟨row.bytes, endDigest, marks⟩

/-! ### One pair -/

/-- The parser takes the pair: two digits, or a sign and a digit. -/
def pairOk (c d : Char) : Bool := (c = '+' || (hexValue? c).isSome) && (hexValue? d).isSome

variable {c d : Char} {value rest : Text} {i n : ℕ}

theorem hexValue?_spec (h : (hexValue? c).isSome) :
    c.toNat < 128 ∧ ∀ v, hexValue? c = some v → v < 16 := by
  have hle {a b : Char} (hab : a ≤ b) : a.toNat ≤ b.toNat := UInt32.le_iff_toNat_le.mp hab
  unfold hexValue? at h ⊢
  split_ifs at h ⊢ with h0 h1 h2
  · have := hle h0.2
    have : ('9' : Char).toNat = 57 := rfl
    refine ⟨by omega, fun v hv => ?_⟩
    obtain rfl := Option.some.inj hv
    omega
  · have := hle h1.2
    have : ('f' : Char).toNat = 102 := rfl
    refine ⟨by omega, fun v hv => ?_⟩
    obtain rfl := Option.some.inj hv
    omega
  · have := hle h2.2
    have : ('F' : Char).toNat = 70 := rfl
    refine ⟨by omega, fun v hv => ?_⟩
    obtain rfl := Option.some.inj hv
    omega
  · cases h

theorem utf8Size_of_lt (h : c.toNat < 128) : c.utf8Size = 1 := by
  rw [Char.utf8Size_eq_one_iff, UInt32.le_iff_toNat_le]
  have : (127 : UInt32).toNat = 127 := rfl
  have : c.toNat = c.val.toNat := rfl
  omega

theorem utf8Size_of_pairOk (h : pairOk c d = true) : c.utf8Size = 1 ∧ d.utf8Size = 1 := by
  rw [pairOk, Bool.and_eq_true, Bool.or_eq_true, decide_eq_true_eq] at h
  refine ⟨?_, utf8Size_of_lt (hexValue?_spec h.2).1⟩
  rcases h.1 with rfl | hc
  · rfl
  · exact utf8Size_of_lt (hexValue?_spec hc).1

/-- A digit more fits as long as the value before it is one digit. -/
theorem isSome_digits16 {v : ℕ} (hv : v < 16) : (digits16 v [d]).isSome = (hexValue? d).isSome := by
  rw [digits16]
  cases hd : hexValue? d with
  | none => rfl
  | some x =>
    have hx : x < 16 := (hexValue?_spec (by rw [hd]; rfl)).2 x hd
    rw [Option.bind_eq_bind, Option.bind_some, if_pos (by omega)]
    rfl

theorem fromStrRadix16_pair (c d : Char) : fromStrRadix16 [c, d] =
    if c = '+' then digits16 0 [d] else digits16 0 [c, d] := rfl

theorem isSome_fromStrRadix16 : (fromStrRadix16 [c, d]).isSome = pairOk c d := by
  rw [fromStrRadix16_pair, pairOk]
  by_cases hc : c = '+'
  · rw [if_pos hc, isSome_digits16 (by omega), decide_eq_true hc, Bool.true_or, Bool.true_and]
  · rw [if_neg hc, decide_eq_false hc, Bool.false_or, digits16]
    cases hx : hexValue? c with
    | none => rfl
    | some x =>
      have hlt : x < 16 := (hexValue?_spec (by rw [hx]; rfl)).2 x hx
      rw [Option.bind_eq_bind, Option.bind_some, if_pos (by omega), isSome_digits16 (by omega)]
      rfl

theorem fromStrRadix16_singleton (hc : c.utf8Size = 2) : fromStrRadix16 [c] = none := by
  have hnone : hexValue? c = none := by
    by_contra hsome
    have := utf8Size_of_lt (hexValue?_spec (Option.isSome_iff_ne_none.mpr hsome)).1
    omega
  rw [fromStrRadix16, digits16, hnone]
  split_ifs <;> rfl

/-! ### The pairs of a string -/

/-- What the parser makes of a pair. -/
def parsePair (piece : Text) : Decode Unit UInt8 :=
  match fromStrRadix16 piece with
  | some byte => .ok (UInt8.ofNat byte)
  | none => .error (.Reject ())

/-- The pairs of a string, from the left. -/
def unhexPairs : Text → Decode Unit (List UInt8)
  | [] => .ok []
  | [c] => if c.utf8Size = 2 then .error (.Reject ()) else .error .Panic
  | c :: d :: rest =>
    if c.utf8Size = 2 then .error (.Reject ())
    else if c.utf8Size = 1 ∧ d.utf8Size = 1 then do
      let byte ← parsePair [c, d]
      let bytes ← unhexPairs rest
      .ok (byte :: bytes)
    else .error .Panic

/-- Two characters of one byte. -/
theorem takeBytes_pair (hc : c.utf8Size = 1) :
    Utf8.takeBytes (c :: d :: rest) 2 = if d.utf8Size = 1 then some [c, d] else none := by
  have := d.utf8Size_pos
  have hone : Utf8.takeBytes (d :: rest) 1 = if d.utf8Size = 1 then some [d] else none := by
    rw [Utf8.takeBytes]
    split_ifs with hle hd
    · rw [hd, takeBytes_zero]
      rfl
    · omega
    · omega
    · rfl
  rw [Utf8.takeBytes, if_pos (by omega), hc, hone]
  split_ifs <;> rfl

theorem takeBytes_two (hc : c.utf8Size = 2) : Utf8.takeBytes (c :: rest) 2 = some [c] := by
  rw [Utf8.takeBytes, if_pos (by omega), hc, takeBytes_zero]
  rfl

/-- The loop reads the pairs. -/
theorem mapM_unhexAt (h : dropBytes value (i * 2) = some rest) (hlen : utf8Len rest = 2 * n) :
    (List.range' i n).mapM (unhexAt value) = unhexPairs rest := by
  induction n generalizing i rest with
  | zero =>
    cases rest with
    | nil => rfl
    | cons c rest =>
      rw [utf8Len_cons] at hlen
      have := c.utf8Size_pos
      omega
  | succ n ih =>
    have hslice : (strSlice value (i * 2) (i * 2 + 2) : Decode Unit Text) =
        (Utf8.takeBytes rest 2).elim (.error .Panic) .ok := by
      rw [strSlice, strFrom, h, ok_bind, minus_of_le (by omega), ok_bind, Nat.add_sub_cancel_left]
      cases Utf8.takeBytes rest 2 <;> rfl
    have hat : unhexAt value i =
        ((Utf8.takeBytes rest 2).elim (.error .Panic) .ok : Decode Unit Text) >>= parsePair := by
      rw [← hslice]
      rfl
    rw [List.range'_succ, List.mapM_cons, hat]
    cases rest with
    | nil => simp [utf8Len] at hlen
    | cons c rest =>
      rw [utf8Len_cons] at hlen
      rcases Nat.lt_trichotomy c.utf8Size 2 with hsize | hsize | hsize
      · have hone : c.utf8Size = 1 := by
          have := c.utf8Size_pos
          omega
        cases rest with
        | nil =>
          have : utf8Len [] = 0 := rfl
          omega
        | cons d rest =>
          rw [utf8Len_cons] at hlen
          rw [takeBytes_pair hone, unhexPairs]
          by_cases hd : d.utf8Size = 1
          · have hnext : dropBytes value ((i + 1) * 2) = some rest := by
              rw [Nat.succ_mul, dropBytes_add h 2, dropBytes, if_pos (by omega), hone, dropBytes,
                if_pos (by omega), hd]
              cases rest <;> rw [dropBytes]
            rw [if_pos hd, if_neg (by omega), if_pos ⟨hone, hd⟩, ih hnext (by omega)]
            rfl
          · rw [if_neg hd, if_neg (by omega), if_neg fun h => hd h.2]
            rfl
      · rw [takeBytes_two hsize, Option.elim_some, ok_bind, parsePair, fromStrRadix16_singleton hsize]
        cases rest with
        | nil =>
          rw [unhexPairs, if_pos hsize]
          rfl
        | cons d rest =>
          rw [unhexPairs, if_pos hsize]
          rfl
      · rw [Utf8.takeBytes, if_neg (by omega)]
        cases rest with
        | nil =>
          rw [unhexPairs, if_neg (by omega)]
          rfl
        | cons d rest =>
          rw [unhexPairs, if_neg (by omega), if_neg (by omega)]
          rfl

/-! ### The strings that are taken -/

/-- Every pair is one that the parser takes. -/
def pairsOk : Text → Bool
  | [] => true
  | [_] => false
  | c :: d :: rest => pairOk c d && pairsOk rest

/-- A cut inside a character comes before the first pair that the parser refuses. -/
def cutsInside : Text → Bool
  | [] => false
  | [c] => c.utf8Size ≠ 2
  | c :: d :: rest =>
    c.utf8Size ≠ 2 && (c.utf8Size ≠ 1 || d.utf8Size ≠ 1 || pairOk c d && cutsInside rest)

/-- The string is decoded. -/
def Accepts (value : Text) : Prop := utf8Len value = 32 ∧ pairsOk value = true

/-- The string is cut inside a character. -/
def Cut (value : Text) : Prop := utf8Len value = 32 ∧ cutsInside value = true

/-- Exactly 32 hexadecimal digits. -/
def IsDigest (value : Text) : Prop := value.length = 32 ∧ ∀ c ∈ value, (hexValue? c).isSome

theorem parsePair_of_pairOk (h : pairOk c d = true) : ∃ byte, parsePair [c, d] = .ok byte := by
  rw [← isSome_fromStrRadix16] at h
  obtain ⟨v, hv⟩ := Option.isSome_iff_exists.mp h
  exact ⟨UInt8.ofNat v, by rw [parsePair, hv]⟩

theorem parsePair_of_not_pairOk (h : pairOk c d = false) :
    parsePair [c, d] = .error (.Reject ()) := by
  rw [← isSome_fromStrRadix16] at h
  have hnone : fromStrRadix16 [c, d] = none := Option.isSome_eq_false_iff.mp h |> Option.isNone_iff_eq_none.mp
  rw [parsePair, hnone]

/-- The pairs are decoded, cut inside a character, or refused. -/
theorem unhexPairs_spec (value : Text) :
    (pairsOk value = true → ∃ bytes, unhexPairs value = .ok bytes) ∧
      (cutsInside value = true → unhexPairs value = .error .Panic) ∧
      (pairsOk value = false → cutsInside value = false →
        unhexPairs value = .error (.Reject ())) := by
  fun_induction pairsOk value with
  | case1 => exact ⟨fun _ => ⟨[], rfl⟩, by simp [cutsInside], by simp⟩
  | case2 c =>
    refine ⟨fun h => absurd h Bool.false_ne_true, fun h => ?_, fun _ h => ?_⟩
    · rw [unhexPairs, if_neg (by simpa [cutsInside] using h)]
    · rw [unhexPairs, if_pos (by simpa [cutsInside] using h)]
  | case3 c d rest ih =>
    rw [unhexPairs, cutsInside]
    cases hok : pairOk c d with
    | true =>
      obtain ⟨hc, hd⟩ := utf8Size_of_pairOk hok
      obtain ⟨byte, hbyte⟩ := parsePair_of_pairOk hok
      rw [if_neg (by omega), if_pos ⟨hc, hd⟩, hbyte, ok_bind]
      refine ⟨fun h => ?_, fun h => ?_, fun h h' => ?_⟩
      · obtain ⟨bytes, hbytes⟩ := ih.1 (by simpa using h)
        exact ⟨byte :: bytes, by rw [hbytes, ok_bind]⟩
      · rw [ih.2.1 (by simpa [hc, hd] using h)]
        rfl
      · rw [ih.2.2 (by simpa using h) (by simpa [hc, hd] using h')]
        rfl
    | false =>
      refine ⟨by simp, fun h => ?_, fun _ h => ?_⟩
      · have h' : c.utf8Size ≠ 2 ∧ (c.utf8Size ≠ 1 ∨ d.utf8Size ≠ 1) := by simpa using h
        rw [if_neg h'.1, if_neg (by omega)]
      · by_cases hc : c.utf8Size = 2
        · rw [if_pos hc]
        · have h' : c.utf8Size = 1 ∧ d.utf8Size = 1 := by simpa [hc] using h
          rw [if_neg hc, if_pos h', parsePair_of_not_pairOk hok]
          rfl

/-! ### One string -/

theorem unhex16_of_pairs {bytes : List UInt8} (hlen : utf8Len value = 32)
    (h : unhexPairs value = .ok bytes) : ∃ hsize, unhex16 value = .ok ⟨bytes, hsize⟩ := by
  have hloop : (List.range' 0 16).mapM (unhexAt value) = .ok bytes :=
    (mapM_unhexAt (by rw [Nat.zero_mul, dropBytes]) hlen).trans h
  rw [unhex16, require_of hlen, ok_bind]
  split
  · rename_i output hout
    obtain rfl := Except.ok.inj (hloop.symm.trans hout)
    exact ⟨(mapM_eq_ok hout).length_eq.symm, rfl⟩
  · rename_i e he
    exact absurd (hloop.symm.trans he) (by simp)

theorem unhex16_of_error {e : Fault Unit} (hlen : utf8Len value = 32)
    (h : unhexPairs value = .error e) : unhex16 value = .error e := by
  have hloop : (List.range' 0 16).mapM (unhexAt value) = .error e :=
    (mapM_unhexAt (by rw [Nat.zero_mul, dropBytes]) hlen).trans h
  rw [unhex16, require_of hlen, ok_bind]
  split
  · rename_i output hout
    exact absurd (hloop.symm.trans hout) (by simp)
  · rename_i e' he
    obtain rfl := Except.error.inj (hloop.symm.trans he)
    rfl

/-- A string is decoded, cut inside a character, or refused. -/
theorem unhex16_spec (value : Text) :
    (Accepts value → ∃ digest, unhex16 value = .ok digest) ∧
      (Cut value → unhex16 value = .error .Panic) ∧
      (¬Accepts value → ¬Cut value → unhex16 value = .error (.Reject ())) := by
  by_cases hlen : utf8Len value = 32
  · obtain ⟨hok, hcut, hrefused⟩ := unhexPairs_spec value
    refine ⟨fun h => ?_, fun h => unhex16_of_error hlen (hcut h.2), fun h h' => ?_⟩
    · obtain ⟨bytes, hbytes⟩ := hok h.2
      obtain ⟨hsize, hdigest⟩ := unhex16_of_pairs hlen hbytes
      exact ⟨_, hdigest⟩
    · refine unhex16_of_error hlen (hrefused ?_ ?_)
      · exact Bool.eq_false_iff.mpr fun hp => h ⟨hlen, hp⟩
      · exact Bool.eq_false_iff.mpr fun hc => h' ⟨hlen, hc⟩
  · refine ⟨fun h => absurd h.1 hlen, fun h => absurd h.1 hlen, fun _ _ => ?_⟩
    rw [unhex16, require, if_neg hlen]
    rfl

theorem accepts_iff : Accepts value ↔ ∃ digest, unhex16 value = .ok digest := by
  obtain ⟨hok, hcut, hrefused⟩ := unhex16_spec value
  refine ⟨hok, fun ⟨digest, h⟩ => ?_⟩
  by_contra hno
  by_cases hc : Cut value
  · exact absurd ((hcut hc).symm.trans h) (by simp)
  · exact absurd ((hrefused hno hc).symm.trans h) (by simp)

theorem cut_iff : Cut value ↔ unhex16 value = .error .Panic := by
  obtain ⟨hok, hcut, hrefused⟩ := unhex16_spec value
  refine ⟨hcut, fun h => ?_⟩
  by_contra hno
  by_cases ha : Accepts value
  · obtain ⟨digest, hd⟩ := hok ha
    exact absurd (hd.symm.trans h) (by simp)
  · exact absurd ((hrefused ha hno).symm.trans h) (by simp)

/-- A string that is decoded has digits only, but for signs. -/
theorem isDigest_iff (h : Accepts value) : IsDigest value ↔ '+' ∉ value := by
  have hplus : hexValue? '+' = none := by decide
  refine ⟨fun hd hmem => ?_, fun hno => ?_⟩
  · have := hd.2 _ hmem
    rw [hplus] at this
    cases this
  · have hpairs (value : Text) (hok : pairsOk value = true) (hno : '+' ∉ value) :
        utf8Len value = value.length ∧ ∀ c ∈ value, (hexValue? c).isSome := by
      fun_induction pairsOk value with
      | case1 => exact ⟨rfl, by simp⟩
      | case2 c => cases hok
      | case3 c d rest ih =>
        rw [Bool.and_eq_true] at hok
        rw [List.mem_cons, List.mem_cons, not_or, not_or] at hno
        obtain ⟨hlen, hdigits⟩ := ih hok.2 hno.2.2
        obtain ⟨hc, hd⟩ := utf8Size_of_pairOk hok.1
        have hcd : (hexValue? c).isSome = true ∧ (hexValue? d).isSome = true := by
          have hne : c ≠ '+' := fun heq => hno.1 heq.symm
          simpa [pairOk, hne] using hok.1
        refine ⟨?_, ?_⟩
        · rw [utf8Len_cons, utf8Len_cons, hc, hd, hlen, List.length_cons, List.length_cons]
          omega
        · exact List.forall_mem_cons.mpr ⟨hcd.1, List.forall_mem_cons.mpr ⟨hcd.2, hdigits⟩⟩
    obtain ⟨hlen, hdigits⟩ := hpairs value h.2 hno
    exact ⟨hlen ▸ h.1, hdigits⟩

/-! ### What was written is read back -/

/-- The digits of a number are those that the parser takes. -/
theorem digitChar_spec' : ∀ d < 16, (Nat.digitChar d).utf8Size = 1 ∧ Nat.digitChar d ≠ '+' := by
  decide

theorem parsePair_hex (b : UInt8) :
    parsePair [Nat.digitChar (b.toNat / 16), Nat.digitChar (b.toNat % 16)] = .ok b := by
  have hb : b.toNat < 256 := b.toNat_lt
  obtain ⟨hhi, -⟩ := digitChar_spec (b.toNat / 16) (by omega)
  obtain ⟨hlo, -⟩ := digitChar_spec (b.toNat % 16) (by omega)
  have hvalue : (b.toNat / 16) * 16 + b.toNat % 16 = b.toNat := Nat.div_add_mod' _ _
  have hradix : fromStrRadix16 [Nat.digitChar (b.toNat / 16), Nat.digitChar (b.toNat % 16)] =
      some b.toNat := by
    rw [fromStrRadix16_pair, if_neg (digitChar_spec' _ (by omega)).2, digits16, hhi,
      Option.bind_eq_bind, Option.bind_some, if_pos (by omega), digits16, hlo, Option.bind_eq_bind,
      Option.bind_some, Nat.zero_mul, Nat.zero_add, hvalue, if_pos hb, digits16]
  rw [parsePair, hradix]
  dsimp only
  rw [UInt8.ofNat_toNat]

theorem unhexPairs_hex (bs : List UInt8) : unhexPairs (hex bs) = .ok bs ∧
    utf8Len (hex bs) = 2 * bs.length := by
  induction bs with
  | nil => exact ⟨rfl, rfl⟩
  | cons b bs ih =>
    have hb : b.toNat < 256 := b.toNat_lt
    have hhi := (digitChar_spec' (b.toNat / 16) (by omega)).1
    have hlo := (digitChar_spec' (b.toNat % 16) (by omega)).1
    rw [hex, List.flatMap_cons, ← hex, List.cons_append, List.cons_append, List.nil_append]
    constructor
    · rw [unhexPairs, if_neg (by omega), if_pos ⟨hhi, hlo⟩, parsePair_hex, ih.1]
      rfl
    · rw [utf8Len_cons, utf8Len_cons, ih.2, hhi, hlo, List.length_cons]
      omega

/-- A digest is read back. -/
theorem unhex16_hex (digest : Bytes16) : unhex16 (hex digest.bytes) = .ok digest := by
  obtain ⟨hpairs, hlen⟩ := unhexPairs_hex digest.bytes
  obtain ⟨hsize, h⟩ := unhex16_of_pairs (by rw [hlen, digest.size_eq]) hpairs
  exact h

/-- An entry is read back from its row. -/
theorem intoEntry_fromEntry (entry : ContentIndexEntry) :
    (IndexRow.fromEntry entry).intoEntry = .ok entry := by
  have hmarks : (entry.marks.map fun mark => (mark.1, hex mark.2.bytes)).mapM unhexMark =
      .ok entry.marks := by
    rw [List.mapM_map]
    refine (mapM_ok (g := fun mark => mark) fun mark _ => ?_).trans (by rw [List.map_id'])
    rw [Function.comp_apply, unhexMark, unhex16_hex]
    rfl
  rw [IndexRow.intoEntry, IndexRow.fromEntry]
  dsimp only
  rw [unhex16_hex, ok_bind, hmarks]
  rfl

/-! ### Rows -/

/-- The digest strings of a row, in the order in which they are decoded. -/
def IndexRow.digests (row : IndexRow) : List Text := row.endDigest :: row.marks.map Prod.snd

/-- No string is cut inside a character before one is refused. -/
def NoCut : List Text → Prop
  | [] => True
  | value :: values => ¬Cut value ∧ (Accepts value → NoCut values)

/-- The rows that are decoded as they should be: no string is cut inside a character before one
is refused, and when every string is decoded none has a sign. -/
structure Clean (row : IndexRow) : Prop where
  noCut : NoCut row.digests
  noSign : (∀ value ∈ row.digests, Accepts value) → ∀ value ∈ row.digests, '+' ∉ value

/-- A row is decoded or refused, and it is decoded from digits alone. -/
structure Meets (row : IndexRow) : Prop where
  noPanic : NoPanic row.intoEntry
  digits : ∀ entry, row.intoEntry = .ok entry → ∀ value ∈ row.digests, IsDigest value

/-- Decoding a list of strings, one after the other. -/
theorem mapM_unhexMark (marks : List (ℕ × Text)) :
    (NoPanic (marks.mapM unhexMark) ↔ NoCut (marks.map Prod.snd)) ∧
      ((∃ digests, marks.mapM unhexMark = .ok digests) ↔
        ∀ value ∈ marks.map Prod.snd, Accepts value) := by
  induction marks with
  | nil => exact ⟨⟨fun _ => trivial, fun _ => NoPanic.ok _⟩, by simp [pure, Except.pure]⟩
  | cons mark marks ih =>
    rw [List.map_cons, NoCut, List.forall_mem_cons, List.mapM_cons, unhexMark]
    cases hone : unhex16 mark.2 with
    | ok digest =>
      have haccepts : Accepts mark.2 := accepts_iff.mpr ⟨digest, hone⟩
      have hcut : ¬Cut mark.2 := fun h => absurd (hone.symm.trans (cut_iff.mp h)) (by simp)
      rw [ok_bind, ok_bind]
      cases hrest : marks.mapM unhexMark with
      | ok digests =>
        rw [hrest] at ih
        refine ⟨⟨fun _ => ⟨hcut, fun _ => ih.1.mp (NoPanic.ok _)⟩, fun _ => NoPanic.ok _⟩,
          ⟨fun _ => ⟨haccepts, ih.2.mp ⟨_, rfl⟩⟩, fun _ => ⟨_, rfl⟩⟩⟩
      | error e =>
        rw [hrest] at ih
        refine ⟨⟨fun h => ⟨hcut, fun _ => ih.1.mp ?_⟩, fun h he => ?_⟩,
          ⟨fun ⟨_, h⟩ => (nomatch h), fun h => ?_⟩⟩
        · rintro ⟨⟩
          exact h rfl
        · cases he
          exact ih.1.mpr (h.2 haccepts) rfl
        · obtain ⟨_, h⟩ := ih.2.mpr h.2
          cases h
    | error e =>
      have hno : ¬Accepts mark.2 := fun h => by
        obtain ⟨digest, h⟩ := accepts_iff.mp h
        exact absurd (hone.symm.trans h) (by simp)
      refine ⟨⟨fun h => ⟨fun hc => ?_, fun ha => absurd ha hno⟩, fun h he => ?_⟩,
        ⟨fun ⟨_, h⟩ => (nomatch h), fun h => absurd h.1 hno⟩⟩
      · have he : e = .Panic := Except.error.inj (hone.symm.trans (cut_iff.mp hc))
        subst he
        exact h rfl
      · cases he
        exact h.1 (cut_iff.mpr hone)

/-- A row is decoded like a list of marks that begins with the digest of the whole text. -/
theorem intoEntry_eq (row : IndexRow) :
    (NoPanic row.intoEntry ↔ NoPanic (((0, row.endDigest) :: row.marks).mapM unhexMark)) ∧
      ((∃ entry, row.intoEntry = .ok entry) ↔
        ∃ digests, ((0, row.endDigest) :: row.marks).mapM unhexMark = .ok digests) := by
  rw [IndexRow.intoEntry, List.mapM_cons, unhexMark]
  dsimp only
  cases unhex16 row.endDigest with
  | error e => exact ⟨⟨fun h he => h (by cases he; rfl), fun h he => h (by cases he; rfl)⟩,
      ⟨fun ⟨_, h⟩ => (nomatch h), fun ⟨_, h⟩ => (nomatch h)⟩⟩
  | ok digest =>
    rw [ok_bind, ok_bind, ok_bind]
    cases row.marks.mapM unhexMark with
    | error e => exact ⟨⟨fun h he => h (by cases he; rfl), fun h he => h (by cases he; rfl)⟩,
        ⟨fun ⟨_, h⟩ => (nomatch h), fun ⟨_, h⟩ => (nomatch h)⟩⟩
    | ok marks => exact ⟨⟨fun _ => NoPanic.ok _, fun _ => NoPanic.ok _⟩,
        ⟨fun _ => ⟨_, rfl⟩, fun _ => ⟨_, rfl⟩⟩⟩

theorem noPanic_intoEntry_iff (row : IndexRow) : NoPanic row.intoEntry ↔ NoCut row.digests :=
  (intoEntry_eq row).1.trans (mapM_unhexMark _).1

theorem intoEntry_ok_iff (row : IndexRow) :
    (∃ entry, row.intoEntry = .ok entry) ↔ ∀ value ∈ row.digests, Accepts value :=
  (intoEntry_eq row).2.trans (mapM_unhexMark _).2

/-- A row meets its specification exactly when it is clean. -/
theorem meets_iff (row : IndexRow) : Meets row ↔ Clean row := by
  constructor
  · refine fun h => ⟨(noPanic_intoEntry_iff row).mp h.noPanic, fun hall value hmem => ?_⟩
    obtain ⟨entry, hentry⟩ := (intoEntry_ok_iff row).mpr hall
    exact (isDigest_iff (hall value hmem)).mp (h.digits entry hentry value hmem)
  · refine fun h => ⟨(noPanic_intoEntry_iff row).mpr h.noCut, fun entry hentry value hmem => ?_⟩
    have hall := (intoEntry_ok_iff row).mp ⟨entry, hentry⟩
    exact (isDigest_iff (hall value hmem)).mpr (h.noSign hall value hmem)

/-- Rows are decoded as they should be exactly when they are clean, and every entry is read back
from its row. -/
theorem index_rows_exact (row : IndexRow) (entry : ContentIndexEntry) :
    (Meets row ↔ Clean row) ∧ (IndexRow.fromEntry entry).intoEntry = .ok entry :=
  ⟨meets_iff row, intoEntry_fromEntry entry⟩

/-- A row whose digest string has a character of two bytes at an odd offset. -/
def accentRow : IndexRow := ⟨0, 'a' :: 'é' :: List.replicate 29 'a', []⟩

/-- A row whose digest string has a sign in every pair. -/
def signRow : IndexRow := ⟨0, (List.replicate 16 ['+', 'f']).flatten, []⟩

/-- The first row is a panic, and the second one is an entry of fifteens. -/
theorem index_rows_inexact : accentRow.intoEntry = .error .Panic ∧
    signRow.intoEntry = .ok ⟨0, ⟨List.replicate 16 15, rfl⟩, []⟩ ∧
    ¬Meets accentRow ∧ ¬Meets signRow := by
  have hpanic : accentRow.intoEntry = .error .Panic := by decide +kernel
  have hsign : signRow.intoEntry = .ok ⟨0, ⟨List.replicate 16 15, rfl⟩, []⟩ := by decide +kernel
  refine ⟨hpanic, hsign, fun h => h.noPanic hpanic, fun h => ?_⟩
  have := (h.digits _ hsign _ List.mem_cons_self).2 '+' (by decide)
  exact absurd this (by decide)

end Toktier.Routing
