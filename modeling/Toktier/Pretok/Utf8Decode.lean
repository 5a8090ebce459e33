import Mathlib.Data.List.Sort
import Toktier.Lib.Compaction
import Toktier.Lib.Utf8Starts
import Toktier.Pretok.Kernel

/-!
# The UTF-8 decoder of the kernels

A thread for each byte decides whether its byte is a first byte, reads as many bytes after it as
it announces, and writes the value to the slot that the prefix sum of the first bytes gives it.
A thread of a continuation byte does nothing.

## Main definitions

* `leadValue`: what the thread of a first byte makes of its bytes.
* `utf8DecodeImpl`: the decoder, with the byte offsets.

## Main results

* `leadValue_eq_some`: a first byte has a value exactly when its character is there.
* `utf8DecodeImpl_eq`: what the decoder returns, in whatever order the threads run.
* `utf8Decode_exact_iff`: it is exact unless a stray continuation byte is all that is wrong.
-/
namespace Toktier.Pretok

open Lib

/-! ### The kernel -/

/-- `INT32_MAX` -/
def int32Max : ℕ := 2 ^ 31 - 1

inductive Utf8Error where
  /-- The size check. -/
  | tooLong
  | invalid
  deriving DecidableEq

/-- How many bytes the first byte says that follow. -/
def needed (b0 : UInt8) : ℕ :=
  if b0 < 0x80 then 0 else if b0 < 0xE0 then 1 else if b0 < 0xF0 then 2 else 3

/-- The value of the first byte at `i` and the bytes after it; the source has -1 for none. -/
def leadValue (bytes : ℕ → UInt8) (nb i : ℕ) : Option ℕ :=
  let b0 := bytes i
  let need := needed b0
  if b0 < 0xF8 ∧ i + need < nb then
    if ∀ k < need, isCont (bytes (i + (k + 1))) = true then
      let low := fun k => (bytes (i + k)).toNat &&& 0x3F
      let v := match need with
        | 0 => b0.toNat
        | 1 => (b0.toNat &&& 0x1F) <<< 6 ||| low 1
        | 2 => (b0.toNat &&& 0x0F) <<< 12 ||| low 1 <<< 6 ||| low 2
        | _ => (b0.toNat &&& 0x07) <<< 18 ||| low 1 <<< 12 ||| low 2 <<< 6 ||| low 3
      if v > 0x10FFFF then none
      -- the overlong forms, then the surrogates
      else if (need = 1 ∧ v < 0x80) ∨ (need = 2 ∧ v < 0x800) ∨ (need = 3 ∧ v < 0x10000) then none
      else if v ≥ 0xD800 ∧ v ≤ 0xDFFF then none
      else some v
    else none
  else none

/-- The arrays that the kernel writes. -/
structure DecodeMemory where
  cp : ℕ → ℕ
  bo : ℕ → ℕ
  err : Bool

/-- Thread `i` of `k_utf8_decode`; `cpos` is the inclusive sum of the first bytes. -/
def kUtf8Decode (bytes : ℕ → UInt8) (nb : ℕ) (cpos : ℕ → ℕ) (m : DecodeMemory) (i : ℕ) :
    DecodeMemory :=
  if i ≥ nb then m
  else if isCont (bytes i) then m
  else
    let v := leadValue bytes nb i
    { cp := Function.update m.cp (cpos i - 1) (v.getD 0xFFFD)
      bo := Function.update m.bo (cpos i - 1) i
      err := m.err || v.isNone }

/-- `utf8_decode_impl`, its threads taken in the order `order`; the arrays are not initialised. -/
def utf8DecodeImpl (bytes : List UInt8) (cp bo : ℕ → ℕ) (order : List ℕ) :
    Except Utf8Error (List ℕ × List ℕ) :=
  let nb := bytes.length
  if nb ≥ int32Max then .error .tooLong
  else if nb = 0 then .ok ([], [])
  else
    let byte := (bytes.getD · 0)
    let cpos := inclusiveSum fun i => !isCont (byte i)
    let C := cpos (nb - 1)
    let m := order.foldl (kUtf8Decode byte nb cpos) ⟨cp, bo, false⟩
    if m.err then .error .invalid
    else .ok ((List.range C).map m.cp, (List.range C).map m.bo)

/-- `utf8_to_cp` -/
def utf8ToCp (bytes : List UInt8) (cp bo : ℕ → ℕ) (order : List ℕ) : Except Utf8Error (List ℕ) :=
  (utf8DecodeImpl bytes cp bo order).map Prod.fst

/-- `utf8_to_cp_bo` -/
def utf8ToCpBo (bytes : List UInt8) (cp bo : ℕ → ℕ) (order : List ℕ) :
    Except Utf8Error (List ℕ × List ℕ) :=
  utf8DecodeImpl bytes cp bo order

/-! ### The value of a first byte -/

section Value

variable {bytes : List UInt8} {n : ℕ → ℕ} {i v : ℕ} {c : Char}

/-- The value that the numbers of the bytes make. -/
def assemble (n : ℕ → ℕ) : ℕ → ℕ
  | 0 => n 0
  | 1 => n 0 % 32 * 64 + n 1 % 64
  | 2 => n 0 % 16 * 4096 + n 1 % 64 * 64 + n 2 % 64
  | _ => n 0 % 8 * 262144 + n 1 % 64 * 4096 + n 2 % 64 * 64 + n 3 % 64

/-- A scalar value that needs as many bytes. -/
def Shortest (need v : ℕ) : Prop :=
  v ≤ 0x10FFFF ∧ (need = 1 → 0x80 ≤ v) ∧ (need = 2 → 0x800 ≤ v) ∧ (need = 3 → 0x10000 ≤ v) ∧
    ¬ (0xD800 ≤ v ∧ v ≤ 0xDFFF)

theorem needed_lt (b : UInt8) : needed b < 4 := by
  unfold needed
  split_ifs <;> omega

theorem and_mask (x k : ℕ) : x &&& (2 ^ k - 1) = x % 2 ^ k := Nat.and_two_pow_sub_one_eq_mod x k

theorem shift_or {x y k : ℕ} (h : y < 2 ^ k) : x <<< k ||| y = x * 2 ^ k + y := by
  rw [← Nat.shiftLeft_add_eq_or_of_lt h, Nat.shiftLeft_eq]

/-- The bits of two bytes. -/
theorem bits_two (a b : ℕ) : (a &&& 0x1F) <<< 6 ||| (b &&& 0x3F) = a % 32 * 64 + b % 64 := by
  have ha : a &&& 0x1F = a % 32 := and_mask a 5
  have hb : b &&& 0x3F = b % 64 := and_mask b 6
  have hlow : b % 64 < 2 ^ 6 := Nat.mod_lt b (by decide)
  rw [ha, hb, shift_or hlow]
  omega

/-- The bits of three bytes. -/
theorem bits_three (a b c : ℕ) : (a &&& 0x0F) <<< 12 ||| (b &&& 0x3F) <<< 6 ||| (c &&& 0x3F) =
    a % 16 * 4096 + b % 64 * 64 + c % 64 := by
  have ha : a &&& 0x0F = a % 16 := and_mask a 4
  have hb : b &&& 0x3F = b % 64 := and_mask b 6
  have hc : c &&& 0x3F = c % 64 := and_mask c 6
  have hlow : c % 64 < 2 ^ 6 := Nat.mod_lt c (by decide)
  have hmid : b % 64 * 2 ^ 6 + c % 64 < 2 ^ 12 := by omega
  rw [Nat.or_assoc, ha, hb, hc, shift_or hlow, shift_or hmid]
  omega

/-- The bits of four bytes. -/
theorem bits_four (a b c d : ℕ) :
    (a &&& 0x07) <<< 18 ||| (b &&& 0x3F) <<< 12 ||| (c &&& 0x3F) <<< 6 ||| (d &&& 0x3F) =
      a % 8 * 262144 + b % 64 * 4096 + c % 64 * 64 + d % 64 := by
  have ha : a &&& 0x07 = a % 8 := and_mask a 3
  have hb : b &&& 0x3F = b % 64 := and_mask b 6
  have hc : c &&& 0x3F = c % 64 := and_mask c 6
  have hd : d &&& 0x3F = d % 64 := and_mask d 6
  have hlow : d % 64 < 2 ^ 6 := Nat.mod_lt d (by decide)
  have hmid : c % 64 * 2 ^ 6 + d % 64 < 2 ^ 12 := by omega
  have hhigh : b % 64 * 2 ^ 12 + (c % 64 * 2 ^ 6 + d % 64) < 2 ^ 18 := by omega
  rw [Nat.or_assoc, Nat.or_assoc, ha, hb, hc, hd, shift_or hlow, shift_or hmid, shift_or hhigh]
  omega

/-- The thread, in numbers. -/
theorem leadValue_eq_some_iff {bytes : ℕ → UInt8} {nb : ℕ} :
    leadValue bytes nb i = some v ↔ (bytes i).toNat < 248 ∧ i + needed (bytes i) < nb ∧
      (∀ k < needed (bytes i), isCont (bytes (i + (k + 1))) = true) ∧
      v = assemble (fun k => (bytes (i + k)).toNat) (needed (bytes i)) ∧
      Shortest (needed (bytes i)) v := by
  have hb : bytes i < 0xF8 ↔ (bytes i).toNat < 248 := UInt8.lt_iff_toNat_lt
  rw [leadValue]
  dsimp only
  have hvalue : (match needed (bytes i) with
      | 0 => (bytes i).toNat
      | 1 => ((bytes i).toNat &&& 0x1F) <<< 6 ||| ((bytes (i + 1)).toNat &&& 0x3F)
      | 2 => ((bytes i).toNat &&& 0x0F) <<< 12 ||| ((bytes (i + 1)).toNat &&& 0x3F) <<< 6 |||
          ((bytes (i + 2)).toNat &&& 0x3F)
      | _ => ((bytes i).toNat &&& 0x07) <<< 18 ||| ((bytes (i + 1)).toNat &&& 0x3F) <<< 12 |||
          ((bytes (i + 2)).toNat &&& 0x3F) <<< 6 ||| ((bytes (i + 3)).toNat &&& 0x3F)) =
      assemble (fun k => (bytes (i + k)).toNat) (needed (bytes i)) := by
    have hlt := needed_lt (bytes i)
    generalize needed (bytes i) = need at hlt
    match need, hlt with
    | 0, _ => rfl
    | 1, _ => exact bits_two _ _
    | 2, _ => exact bits_three _ _ _
    | 3, _ => exact bits_four _ _ _ _
  rw [hvalue]
  generalize assemble (fun k => (bytes (i + k)).toNat) (needed (bytes i)) = w
  generalize needed (bytes i) = need
  by_cases hlen : (bytes i).toNat < 248 ∧ i + need < nb
  swap
  · rw [if_neg (by rwa [hb])]
    exact iff_of_false (by simp) fun h => hlen ⟨h.1, h.2.1⟩
  rw [if_pos (by rwa [hb])]
  by_cases hcont : ∀ k < need, isCont (bytes (i + (k + 1))) = true
  swap
  · rw [if_neg hcont]
    exact iff_of_false (by simp) fun h => hcont h.2.2.1
  rw [if_pos hcont, Shortest]
  split_ifs with h1 h2 h3
  · exact iff_of_false (by simp) fun h => by omega
  · exact iff_of_false (by simp) fun h => by omega
  · exact iff_of_false (by simp) fun h => by omega
  · rw [Option.some_inj]
    constructor
    · rintro rfl
      exact ⟨hlen.1, hlen.2, hcont, rfl, by omega⟩
    · rintro ⟨-, -, -, rfl, -⟩
      rfl

/-- The bytes of a character are there when their numbers are. -/
theorem prefix_drop_iff {xs : List UInt8} (hne : xs ≠ []) : xs <+: bytes.drop i ↔
    i + xs.length ≤ bytes.length ∧ ∀ k < xs.length, bytes.getD (i + k) 0 = xs.getD k 0 := by
  have hpos := List.length_pos_iff.mpr hne
  rw [List.prefix_iff_getElem?]
  constructor
  · intro h
    have hlast := h (xs.length - 1) (by omega)
    have hlt := (List.getElem?_eq_some_iff.mp hlast).1
    rw [List.length_drop] at hlt
    refine ⟨by omega, fun k hk => ?_⟩
    have hget := h k hk
    rw [List.getElem?_drop] at hget
    rw [List.getD_eq_getElem?_getD, hget, List.getD_eq_getElem?_getD, List.getElem?_eq_getElem hk]
  · rintro ⟨hlen, h⟩ k hk
    have hget := h k hk
    rw [List.getD_eq_getElem?_getD, List.getD_eq_getElem?_getD, List.getElem?_eq_getElem hk,
      List.getElem?_eq_getElem (show i + k < bytes.length by omega)] at hget
    rw [List.getElem?_drop, List.getElem?_eq_getElem (show i + k < bytes.length by omega)]
    exact congrArg some hget

theorem toNat_lt (c : Char) : c.toNat < 0x110000 := by
  rcases c.valid with h | h
  · exact lt_trans h (by decide)
  · exact h.2

/-- The numbers of the bytes of a character. -/
def encodeNumbers (v : ℕ) : List ℕ :=
  if v < 0x80 then [v]
  else if v < 0x800 then [v / 64 + 192, v % 64 + 128]
  else if v < 0x10000 then [v / 4096 + 224, v / 64 % 64 + 128, v % 64 + 128]
  else [v / 262144 + 240, v / 4096 % 64 + 128, v / 64 % 64 + 128, v % 64 + 128]

theorem utf8EncodeChar_eq_map (c : Char) :
    String.utf8EncodeChar c = (encodeNumbers c.toNat).map UInt8.ofNat := by
  have hbound := toNat_lt c
  have hval : c.val.toNat = c.toNat := rfl
  rw [String.utf8EncodeChar, encodeNumbers, hval]
  split_ifs <;> first | omega | skip
  · rfl
  · have h1 : c.toNat / 64 % 0x20 = c.toNat / 64 := Nat.mod_eq_of_lt (by omega)
    rw [h1]
    rfl
  · have h1 : c.toNat / 4096 % 0x10 = c.toNat / 4096 := Nat.mod_eq_of_lt (by omega)
    rw [h1]
    rfl
  · have h1 : c.toNat / 262144 % 0x08 = c.toNat / 262144 := Nat.mod_eq_of_lt (by omega)
    rw [h1]
    rfl

/-- A character is there when the bytes have its numbers. -/
theorem charAt_iff : CharAt bytes i c ↔ i + (encodeNumbers c.toNat).length ≤ bytes.length ∧
    ∀ k < (encodeNumbers c.toNat).length,
      (bytes.getD (i + k) 0).toNat = (encodeNumbers c.toNat).getD k 0 := by
  have hbound := toNat_lt c
  have hbyte : ∀ x ∈ encodeNumbers c.toNat, x < 256 := by
    unfold encodeNumbers
    split_ifs <;> simp <;> omega
  have hne : String.utf8EncodeChar c ≠ [] := String.utf8EncodeChar_ne_nil
  rw [CharAt, prefix_drop_iff hne, utf8EncodeChar_eq_map, List.length_map]
  refine and_congr_right fun _ => forall₂_congr fun k hk => ?_
  have hlt := hbyte _ (List.getElem_mem hk)
  have hmap : ((encodeNumbers c.toNat).map UInt8.ofNat).getD k 0 =
      UInt8.ofNat (encodeNumbers c.toNat)[k] := by
    rw [List.getD_eq_getElem?_getD, List.getElem?_map, List.getElem?_eq_getElem hk]
    rfl
  have hnum : (encodeNumbers c.toNat).getD k 0 = (encodeNumbers c.toNat)[k] := by
    rw [List.getD_eq_getElem?_getD, List.getElem?_eq_getElem hk, Option.getD_some]
  rw [← UInt8.toNat_inj, hmap, hnum, UInt8.toNat_ofNat', Nat.mod_eq_of_lt hlt]

/-- How many bytes the number of a first byte says that follow. -/
def announced (x : ℕ) : ℕ := if x < 128 then 0 else if x < 224 then 1 else if x < 240 then 2 else 3

theorem needed_eq (b : UInt8) : needed b = announced b.toNat := by
  unfold needed announced
  simp only [UInt8.lt_iff_toNat_lt]
  rfl

/-- The first number tells how many there are. -/
theorem length_encodeNumbers (h : v < 0x110000) :
    (encodeNumbers v).length = announced ((encodeNumbers v).getD 0 0) + 1 := by
  unfold encodeNumbers
  split_ifs <;> simp only [List.getD_cons_zero, List.length_cons, List.length_nil] <;>
    unfold announced <;> split_ifs <;> omega

/-- The numbers that pass the tests of the thread are those of a scalar value. -/
theorem assemble_iff (hfirst : n 0 < 128 ∨ 192 ≤ n 0) :
    (n 0 < 248 ∧ (∀ k < announced (n 0), 128 ≤ n (k + 1) ∧ n (k + 1) < 192) ∧
        v = assemble n (announced (n 0)) ∧ Shortest (announced (n 0)) v) ↔
      v.isValidChar ∧ (encodeNumbers v).length = announced (n 0) + 1 ∧
        ∀ k < (encodeNumbers v).length, n k = (encodeNumbers v).getD k 0 := by
  unfold announced encodeNumbers Shortest Nat.isValidChar
  split_ifs <;>
    simp only [assemble, Nat.forall_lt_succ_right, List.length_cons, List.length_nil,
      Nat.not_lt_zero, List.getD_cons_zero, List.getD_cons_succ, Nat.zero_add, IsEmpty.forall_iff,
      implies_true, true_and, Nat.reduceAdd, Nat.reduceEqDiff, forall_const] <;>
    omega

/-- A first byte has a value exactly when its character is there. -/
theorem leadValue_eq_some {b : UInt8} (hget : bytes[i]? = some b) (hlead : isCont b = false) :
    leadValue (bytes.getD · 0) bytes.length i = some v ↔ ∃ c, c.toNat = v ∧ CharAt bytes i c := by
  have hb : bytes.getD i 0 = b := by rw [List.getD_eq_getElem?_getD, hget, Option.getD_some]
  have hzero : (bytes.getD (i + 0) 0).toNat = b.toNat := by rw [Nat.add_zero, hb]
  have hrange : b.toNat < 128 ∨ 192 ≤ b.toNat := by
    have := (isCont_iff b).not.mp (by rw [hlead]; exact Bool.false_ne_true)
    omega
  have hnumbers := assemble_iff (n := fun k => (bytes.getD (i + k) 0).toNat) (v := v)
    (by rwa [hzero])
  simp only [hzero] at hnumbers
  -- the thread tests the numbers of the bytes and how many there are
  have hthread : leadValue (bytes.getD · 0) bytes.length i = some v ↔
      i + announced b.toNat < bytes.length ∧ v.isValidChar ∧
        (encodeNumbers v).length = announced b.toNat + 1 ∧
        ∀ k < (encodeNumbers v).length, (bytes.getD (i + k) 0).toNat = (encodeNumbers v).getD k 0 := by
    rw [leadValue_eq_some_iff, hb, needed_eq, ← hnumbers]
    simp only [isCont_iff]
    constructor
    · rintro ⟨h1, h2, h3, h4, h5⟩
      exact ⟨h2, h1, h3, h4, h5⟩
    · rintro ⟨h2, h1, h3, h4, h5⟩
      exact ⟨h1, h2, h3, h4, h5⟩
  rw [hthread]
  constructor
  · rintro ⟨hlen, hscalar, hcount, hall⟩
    have hval : (Char.ofNatAux v hscalar).toNat = v := rfl
    refine ⟨Char.ofNatAux v hscalar, hval, ?_⟩
    rw [charAt_iff, hval]
    exact ⟨by omega, hall⟩
  · rintro ⟨c, rfl, hchar⟩
    obtain ⟨hlen, hall⟩ := charAt_iff.mp hchar
    have hcount : (encodeNumbers c.toNat).length = announced b.toNat + 1 := by
      have hfirst := hall 0 (by unfold encodeNumbers; split_ifs <;> simp)
      rw [hzero] at hfirst
      rw [hfirst, length_encodeNumbers (toNat_lt c)]
    exact ⟨by omega, c.valid, hcount, hall⟩

end Value

/-! ### The threads -/

section Threads

variable {bytes : List UInt8} {n i : ℕ} {t : Text}

/-- A first byte stands at the position. -/
def leads (bytes : List UInt8) (i : ℕ) : Bool := !isCont (bytes.getD i 0)

theorem inclusiveSum_eq_rank (p : ℕ → Bool) (i : ℕ) : inclusiveSum p i = rank p (i + 1) := by
  induction i with
  | zero =>
    rw [rank_succ, inclusiveSum]
    exact (Nat.zero_add _).symm
  | succ i ih => rw [inclusiveSum, ih, ← rank_succ]

/-- The slot that the sum of the first bytes gives a thread counts the first bytes before it. -/
theorem inclusiveSum_sub_one {p : ℕ → Bool} (hi : p i = true) : inclusiveSum p i - 1 = rank p i := by
  rw [inclusiveSum_eq_rank, rank_succ, hi]
  rfl

/-- What the threads leave in the arrays, and when one of them raises the flag. -/
theorem foldl_kUtf8Decode (order : List ℕ) (horder : ∀ i ∈ order, i < bytes.length)
    (m : DecodeMemory) :
    order.foldl (kUtf8Decode (bytes.getD · 0) bytes.length (inclusiveSum (leads bytes))) m =
      { cp := scatter (leads bytes)
          (fun i => (leadValue (bytes.getD · 0) bytes.length i).getD 0xFFFD) m.cp order
        bo := scatter (leads bytes) id m.bo order
        err := m.err || order.any fun i =>
          leads bytes i && (leadValue (bytes.getD · 0) bytes.length i).isNone } := by
  induction order generalizing m with
  | nil => simp [scatter]
  | cons i order ih =>
    obtain ⟨hi, hrest⟩ := List.forall_mem_cons.mp horder
    rw [List.foldl_cons, ih hrest, kUtf8Decode, if_neg (Nat.not_le.mpr hi)]
    cases hlead : isCont (bytes.getD i 0) with
    | true =>
      have hno : leads bytes i = false := by rw [leads, hlead]; rfl
      simp [scatter, scatterThread, hno]
    | false =>
      have hyes : leads bytes i = true := by rw [leads, hlead]; rfl
      simp [scatter, scatterThread, hyes, inclusiveSum_sub_one hyes, Bool.or_assoc]

/-- A thread raises the flag when a first byte stands where no character does. -/
theorem any_isNone_iff {order : List ℕ} (horder : order.Perm (List.range bytes.length)) :
    (order.any fun i => leads bytes i && (leadValue (bytes.getD · 0) bytes.length i).isNone) =
      true ↔ Malformed bytes := by
  rw [List.any_eq_true]
  constructor
  · rintro ⟨i, hi, hbad⟩
    have hlt := List.mem_range.mp (horder.mem_iff.mp hi)
    rw [Bool.and_eq_true, leads, Bool.not_eq_true', Option.isNone_iff_eq_none] at hbad
    obtain ⟨hlead, hnone⟩ := hbad
    rw [List.getD_eq_getElem?_getD, List.getElem?_eq_getElem hlt, Option.getD_some] at hlead
    refine ⟨i, bytes[i], List.getElem?_eq_getElem hlt, hlead, fun c hc => ?_⟩
    have hsome := (leadValue_eq_some (List.getElem?_eq_getElem hlt) hlead).mpr ⟨c, rfl, hc⟩
    rw [hnone] at hsome
    cases hsome
  · rintro ⟨i, b, hget, hlead, hno⟩
    have hlt := (List.getElem?_eq_some_iff.mp hget).1
    refine ⟨i, horder.mem_iff.mpr (List.mem_range.mpr hlt), ?_⟩
    rw [Bool.and_eq_true, leads, List.getD_eq_getElem?_getD, hget, Option.getD_some, hlead]
    refine ⟨rfl, ?_⟩
    rw [Option.isNone_iff_eq_none, Option.eq_none_iff_forall_ne_some]
    intro v hv
    obtain ⟨c, -, hc⟩ := (leadValue_eq_some hget hlead).mp hv
    exact hno c hc

/-- What the decoder returns, in whatever order the threads run. -/
theorem utf8DecodeImpl_eq (hn : bytes.length < int32Max) (cp bo : ℕ → ℕ) {order : List ℕ}
    (horder : order.Perm (List.range bytes.length)) :
    (utf8DecodeImpl bytes cp bo order = .error .invalid ↔ Malformed bytes) ∧
      (¬ Malformed bytes → utf8DecodeImpl bytes cp bo order =
        .ok (((List.range bytes.length).filter (leads bytes)).map
            fun i => (leadValue (bytes.getD · 0) bytes.length i).getD 0xFFFD,
          (List.range bytes.length).filter (leads bytes))) := by
  rw [utf8DecodeImpl, if_neg (Nat.not_le.mpr hn)]
  by_cases hzero : bytes.length = 0
  · obtain rfl := List.length_eq_zero_iff.mp hzero
    rw [if_pos hzero]
    refine ⟨iff_of_false (by simp) ?_, fun _ => rfl⟩
    rintro ⟨i, b, hget, -⟩
    cases hget
  rw [if_neg hzero]
  dsimp only
  have hfold := foldl_kUtf8Decode order
    (fun i hi => List.mem_range.mp (horder.mem_iff.mp hi)) ⟨cp, bo, false⟩
  have hleads : (fun i => !isCont (bytes.getD i 0)) = leads bytes := rfl
  have hcount : inclusiveSum (leads bytes) (bytes.length - 1) = rank (leads bytes) bytes.length := by
    rw [inclusiveSum_eq_rank, Nat.sub_add_cancel (Nat.pos_of_ne_zero hzero)]
  rw [hleads, hfold]
  dsimp only
  rw [hcount, map_scatter _ _ horder, map_scatter _ _ horder, List.map_id, Bool.false_or]
  by_cases hbad : Malformed bytes
  · rw [if_pos ((any_isNone_iff horder).mpr hbad)]
    exact ⟨iff_of_true rfl hbad, fun h => absurd hbad h⟩
  · rw [if_neg (mt (any_isNone_iff horder).mp hbad)]
    exact ⟨iff_of_false (by simp) hbad, fun _ => rfl⟩

/-! ### The bytes of a text -/

/-- Where the characters of a text start in its bytes. -/
def charStarts (t : Text) : List ℕ := (List.range t.length).map fun n => utf8Len (t.take n)

/-- The first bytes are those at the starts of the characters. -/
theorem filter_leads_utf8 (t : Text) :
    (List.range (utf8 t).length).filter (leads (utf8 t)) = charStarts t := by
  refine List.Pairwise.eq_of_mem_iff (r := (· < ·)) (List.pairwise_lt_range.filter _) ?_ fun i => ?_
  · refine List.pairwise_map.mpr (List.pairwise_lt_range.imp_of_mem fun hm _ hlt => ?_)
    exact utf8Len_take_lt t hlt (List.mem_range.mp hm)
  · rw [List.mem_filter, List.mem_range, charStarts, List.mem_map]
    constructor
    · rintro ⟨hi, hlead⟩
      rw [leads, Bool.not_eq_true', List.getD_eq_getElem?_getD, List.getElem?_eq_getElem hi,
        Option.getD_some] at hlead
      obtain ⟨n, hn, rfl⟩ := exists_take_of_start (List.getElem?_eq_getElem hi) hlead
      exact ⟨n, List.mem_range.mpr hn, rfl⟩
    · rintro ⟨n, hn, rfl⟩
      obtain ⟨b, hb, hlead, -⟩ := getElem?_utf8_start (List.mem_range.mp hn)
      refine ⟨(List.getElem?_eq_some_iff.mp hb).1, ?_⟩
      rw [leads, List.getD_eq_getElem?_getD, hb, Option.getD_some, hlead]
      rfl

/-- The value at the start of a character is the character. -/
theorem leadValue_utf8 (hn : n < t.length) :
    leadValue ((utf8 t).getD · 0) (utf8 t).length (utf8Len (t.take n)) = some t[n].toNat := by
  obtain ⟨b, hb, hlead, -⟩ := getElem?_utf8_start hn
  refine (leadValue_eq_some hb hlead).mpr ⟨t[n], rfl, ?_⟩
  rw [CharAt, drop_utf8, List.drop_eq_getElem_cons hn, utf8_cons]
  exact List.prefix_append _ _

/-- The decoder on the bytes of a text. -/
theorem utf8DecodeImpl_utf8 (t : Text) (hn : (utf8 t).length < int32Max) (cp bo : ℕ → ℕ)
    {order : List ℕ} (horder : order.Perm (List.range (utf8 t).length)) :
    utf8DecodeImpl (utf8 t) cp bo order = .ok (t.map Char.toNat, charStarts t) := by
  have hform : ¬ Malformed (utf8 t) := (exists_utf8_iff.mp ⟨t, rfl⟩).1
  have hvalues : ((charStarts t).map fun i =>
      (leadValue ((utf8 t).getD · 0) (utf8 t).length i).getD 0xFFFD) = t.map Char.toNat := by
    refine List.ext_getElem (by simp [charStarts]) fun n h1 h2 => ?_
    rw [List.length_map] at h2
    simp only [charStarts, List.map_map, List.getElem_map, List.getElem_range, Function.comp_apply,
      leadValue_utf8 h2, Option.getD_some]
  rw [(utf8DecodeImpl_eq hn cp bo horder).2 hform, filter_leads_utf8, hvalues]

/-- What the decoder is for: it refuses what is not the bytes of a text, and otherwise returns
the scalar values of the text, with the byte offset of each. -/
def DecodesExactly (bytes : List UInt8) (cp bo : ℕ → ℕ) (order : List ℕ) : Prop :=
  match utf8Decode? bytes with
  | none => utf8ToCp bytes cp bo order = .error .invalid ∧
      utf8ToCpBo bytes cp bo order = .error .invalid
  | some t => utf8ToCp bytes cp bo order = .ok (t.map Char.toNat) ∧
      utf8ToCpBo bytes cp bo order = .ok (t.map Char.toNat, charStarts t)

/-- The decoder is exact when there is no stray continuation byte, or a first byte is wrong too:
the threads of the continuation bytes check nothing. -/
theorem utf8Decode_exact_iff (bytes : List UInt8) (hn : bytes.length < int32Max) (cp bo : ℕ → ℕ)
    (order : List ℕ) (horder : order.Perm (List.range bytes.length)) :
    DecodesExactly bytes cp bo order ↔ (Stray bytes → Malformed bytes) := by
  obtain ⟨herror, hok⟩ := utf8DecodeImpl_eq hn cp bo horder
  rw [DecodesExactly]
  cases hdecode : utf8Decode? bytes with
  | some t =>
    obtain rfl := (utf8_of_utf8Decode? hdecode).symm
    have hrun := utf8DecodeImpl_utf8 t hn cp bo horder
    dsimp only
    rw [utf8ToCp, utf8ToCpBo, hrun]
    exact iff_of_true ⟨rfl, rfl⟩ fun h => absurd h (exists_utf8_iff.mp ⟨t, rfl⟩).2
  | none =>
    dsimp only
    rw [utf8ToCp, utf8ToCpBo]
    by_cases hform : Malformed bytes
    · rw [herror.mpr hform]
      exact iff_of_true ⟨rfl, rfl⟩ fun _ => hform
    · have hstray := (utf8Decode?_eq_none_iff.mp hdecode).resolve_left hform
      refine iff_of_false (fun h => hform (herror.mp h.2)) fun h => hform (h hstray)

/-- A text with a character of two bytes, its threads in reverse. -/
theorem utf8Decode_exact_e : DecodesExactly [97, 0xC3, 0xA9] (fun _ => 0) (fun _ => 0) [2, 1, 0] ↔
    (Stray [97, 0xC3, 0xA9] → Malformed [97, 0xC3, 0xA9]) :=
  utf8Decode_exact_iff [97, 0xC3, 0xA9] (by decide) (fun _ => 0) (fun _ => 0) [2, 1, 0] (by decide)

/-- A continuation byte after a letter is dropped: the decoder returns the letter. -/
theorem stray_byte_decodes : ¬ ∀ (bytes : List UInt8) (cp bo : ℕ → ℕ) (order : List ℕ),
    bytes.length < int32Max → order.Perm (List.range bytes.length) →
      DecodesExactly bytes cp bo order := by
  intro h
  have hbad := h [97, 0x80] (fun _ => 0) (fun _ => 0) [0, 1] (by decide) (by decide)
  have hnone : utf8Decode? [97, 0x80] = none := by
    rw [utf8Decode?_eq_none_iff]
    refine .inr ⟨1, 0x80, rfl, by decide, fun j hj b hb _ => ?_⟩
    obtain rfl : j = 0 := by omega
    obtain rfl := Option.some.inj hb
    decide
  rw [DecodesExactly, hnone] at hbad
  exact absurd hbad.1 (by decide)

end Threads

end Toktier.Pretok
