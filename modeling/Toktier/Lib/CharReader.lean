import Mathlib.Algebra.Order.Group.Nat
import Toktier.Lib.Utf8Slices

/-!
# Characters of bytes

A byte of a UTF-8 text belongs to one character. So a token, which stands for a range of bytes,
touches a span of characters: from the character of its first byte to the one of its last byte.
A reader finds the characters of bytes that do not go back, without a map of all bytes.

## Main definitions

* `charsFrom`, `byteChar`: for each byte of a text, the number of its character.
* `byteSpan`, `directSpans`: the spans of ranges of bytes, and of tokens one behind the other.
* `CharReader`, with `seek` and `charContaining`: the reader.

## Main results

* `getElem?_charsFrom`: the character of a byte is the one the byte lies in.
* `charContaining_of_lt`: what the reader finds inside the text.
-/
namespace Toktier.Lib

open Utf8

/-! ## The map -/

/-- The characters of the bytes of a text whose first character has number `n`. -/
def charsFrom (n : ℕ) (text : Text) : List ℕ :=
  (text.zipIdx n).flatMap fun c => List.replicate c.1.utf8Size c.2

theorem charsFrom_cons (n : ℕ) (c : Char) (text : Text) :
    charsFrom n (c :: text) = List.replicate c.utf8Size n ++ charsFrom (n + 1) text := by
  simp [charsFrom]

theorem length_charsFrom (n : ℕ) (text : Text) : (charsFrom n text).length = utf8Len text := by
  induction text generalizing n with
  | nil => rfl
  | cons c text ih => rw [charsFrom_cons, List.length_append, ih, utf8Len_cons]; simp

theorem mem_charsFrom {n k : ℕ} {text : Text} (h : k ∈ charsFrom n text) :
    n ≤ k ∧ k < n + text.length := by
  induction text generalizing n with
  | nil => cases h
  | cons c text ih =>
      rw [charsFrom_cons, List.mem_append] at h
      rw [List.length_cons]
      obtain h | h := h
      · obtain rfl := List.eq_of_mem_replicate h
        omega
      · have := ih h
        omega

/-- The characters of bytes do not go back. -/
theorem pairwise_charsFrom (n : ℕ) (text : Text) : (charsFrom n text).Pairwise (· ≤ ·) := by
  induction text generalizing n with
  | nil => exact .nil
  | cons c text ih =>
      rw [charsFrom_cons, List.pairwise_append]
      refine ⟨List.pairwise_replicate.mpr (.inr le_rfl), ih (n + 1), fun a ha b hb => ?_⟩
      obtain rfl := List.eq_of_mem_replicate ha
      have := mem_charsFrom hb
      omega

/-- The character of a byte is the one the byte lies in. -/
theorem getElem?_charsFrom {n k byte : ℕ} {text : Text} :
    (charsFrom n text)[byte]? = some (n + k) ↔
      utf8Len (text.take k) ≤ byte ∧ byte < utf8Len (text.take (k + 1)) := by
  induction text generalizing n k byte with
  | nil => simp [charsFrom]
  | cons c text ih =>
      rw [charsFrom_cons, List.getElem?_append, List.length_replicate, List.take_succ_cons,
        utf8Len_cons]
      by_cases hbyte : byte < c.utf8Size
      · rw [if_pos hbyte, List.getElem?_replicate, if_pos hbyte, Option.some_inj]
        cases k with
        | zero => simpa using hbyte
        | succ k =>
            rw [List.take_succ_cons, utf8Len_cons]
            omega
      · rw [if_neg hbyte]
        cases k with
        | zero =>
            refine iff_of_false (fun h => ?_) (by simpa using hbyte)
            have := mem_charsFrom (List.mem_of_getElem? h)
            omega
        | succ k =>
            rw [show n + (k + 1) = n + 1 + k by omega, ih, List.take_succ_cons, utf8Len_cons]
            omega

/-- The number of the character of a byte. -/
def byteChar (text : Text) (byte : ℕ) : ℕ := (charsFrom 0 text)[byte]?.getD 0

section ByteChar

variable {text : Text} {byte k : ℕ}

theorem getElem?_byteChar (h : byte < utf8Len text) :
    (charsFrom 0 text)[byte]? = some (byteChar text byte) := by
  rw [byteChar, List.getElem?_eq_getElem (by rwa [length_charsFrom])]
  rfl

theorem byteChar_eq_iff (h : byte < utf8Len text) :
    byteChar text byte = k ↔
      utf8Len (text.take k) ≤ byte ∧ byte < utf8Len (text.take (k + 1)) := by
  rw [← getElem?_charsFrom (n := 0), getElem?_byteChar h, Nat.zero_add, Option.some_inj]

theorem byteChar_lt (h : byte < utf8Len text) : byteChar text byte < text.length := by
  have := mem_charsFrom (List.mem_of_getElem? (getElem?_byteChar h))
  omega

theorem byteChar_mono {byte' : ℕ} (hle : byte ≤ byte') (h : byte' < utf8Len text) :
    byteChar text byte ≤ byteChar text byte' := by
  have hlt := (byteChar_eq_iff (hle.trans_lt h)).mp rfl
  have hlt' := (byteChar_eq_iff h).mp rfl
  by_contra hgt
  have := utf8Len_take_mono text (show byteChar text byte' + 1 ≤ byteChar text byte by omega)
  omega

/-- Where no character takes more than one byte, bytes are characters. -/
theorem byteChar_of_ascii (hascii : utf8Len text = text.length) (h : byte < utf8Len text) :
    byteChar text byte = byte := by
  have htake (n : ℕ) (hn : n ≤ text.length) : utf8Len (text.take n) = n := by
    have hsum := utf8Len_take_add_drop n text
    have hfirst := length_le_utf8Len (text.take n)
    have hlast := length_le_utf8Len (text.drop n)
    rw [List.length_take] at hfirst
    rw [List.length_drop] at hlast
    omega
  rw [byteChar_eq_iff h, htake byte (by omega), htake (byte + 1) (by omega)]
  omega

end ByteChar

/-! ## Spans -/

/-- The characters that a range of bytes touches. -/
def byteSpan (text : Text) (interval : ℕ × ℕ) : ℕ × ℕ :=
  (byteChar text interval.1, byteChar text (interval.2 - 1) + 1)

/-- The bytes of tokens of the lengths given, one behind the other. -/
def byteRanges : ℕ → List ℕ → List (ℕ × ℕ)
  | _, [] => []
  | byte, n :: lengths => (byte, byte + n) :: byteRanges (byte + n) lengths

/-- The spans of tokens of the lengths given. -/
def directSpans (text : Text) (lengths : List ℕ) : List (ℕ × ℕ) :=
  (byteRanges 0 lengths).map (byteSpan text)

section Spans

variable {text : Text} {byte : ℕ} {interval : ℕ × ℕ}

@[simp] theorem length_byteRanges (lengths : List ℕ) :
    (byteRanges byte lengths).length = lengths.length := by
  induction lengths generalizing byte with
  | nil => rfl
  | cons n lengths ih => rw [byteRanges, List.length_cons, ih, List.length_cons]

@[simp] theorem length_directSpans (lengths : List ℕ) :
    (directSpans text lengths).length = lengths.length := by
  rw [directSpans, List.length_map, length_byteRanges]

theorem mem_byteRanges {lengths : List ℕ} (hpos : ∀ n ∈ lengths, 0 < n)
    (h : interval ∈ byteRanges byte lengths) :
    byte ≤ interval.1 ∧ interval.1 < interval.2 ∧ interval.2 ≤ byte + lengths.sum := by
  induction lengths generalizing byte with
  | nil => cases h
  | cons n lengths ih =>
      obtain ⟨hn, hpos⟩ := List.forall_mem_cons.mp hpos
      rw [List.sum_cons]
      obtain rfl | h := List.mem_cons.mp h
      · dsimp only
        omega
      · have := ih hpos h
        omega

/-- The span of a range in the text lies in the text. -/
theorem byteSpan_within (hlt : interval.1 < interval.2) (hle : interval.2 ≤ utf8Len text) :
    (byteSpan text interval).1 < (byteSpan text interval).2 ∧
      (byteSpan text interval).2 ≤ text.length := by
  have hmono : byteChar text interval.1 ≤ byteChar text (interval.2 - 1) :=
    byteChar_mono (by omega) (by omega)
  have hlast : byteChar text (interval.2 - 1) < text.length := byteChar_lt (by omega)
  unfold byteSpan
  omega

theorem byteSpan_of_ascii (hascii : utf8Len text = text.length) (hlt : interval.1 < interval.2)
    (hle : interval.2 ≤ utf8Len text) : byteSpan text interval = interval := by
  rw [byteSpan, byteChar_of_ascii hascii (by omega), byteChar_of_ascii hascii (by omega)]
  exact Prod.ext rfl (show interval.2 - 1 + 1 = interval.2 by omega)

end Spans

/-! ## The reader -/

/-- A reader stands at a character of a text, and has the ones behind it in front. -/
structure CharReader where
  rest : List (ℕ × Char)
  index : ℕ
  start : ℕ
  stop : ℕ
  exhausted : Bool

namespace CharReader

/-- The reader of a text that lies behind `baseByte` bytes and `baseChar` characters. -/
def new (text : Text) (baseByte baseChar : ℕ) : CharReader :=
  match charIndices baseByte text with
  | (_, first) :: rest => ⟨rest, baseChar, baseByte, baseByte + first.utf8Size, false⟩
  | [] => ⟨[], baseChar, baseByte, baseByte, true⟩

@[simp] theorem start_new (text : Text) (baseByte baseChar : ℕ) :
    (new text baseByte baseChar).start = baseByte := by
  unfold new
  cases charIndices baseByte text with
  | nil => rfl
  | cons => rfl

def seekFrom (exhausted : Bool) (byte : ℕ) : List (ℕ × Char) → ℕ → ℕ → ℕ → CharReader
  | [], index, start, stop => ⟨[], index, start, stop, exhausted⟩
  | (offset, value) :: rest, index, start, stop =>
      if stop ≤ byte then
        seekFrom exhausted byte rest (index + 1) offset (offset + value.utf8Size)
      else ⟨(offset, value) :: rest, index, start, stop, exhausted⟩

/-- Read on until the character ends behind the byte, or the text ends. -/
def seek (c : CharReader) (byte : ℕ) : CharReader :=
  seekFrom c.exhausted byte c.rest c.index c.start c.stop

/-- The number of the character of the byte, if the reader has it in front. -/
def charContaining (c : CharReader) (byte : ℕ) : Option ℕ × CharReader :=
  if c.exhausted = true ∨ byte < c.start then (none, c)
  else
    let c := c.seek byte
    (if c.stop ≤ byte then none else some c.index, c)

/-- The reader stands at a character of the text. -/
structure On (text : Text) (c : CharReader) : Prop where
  index_lt : c.index < text.length
  start_eq : c.start = utf8Len (text.take c.index)
  stop_eq : c.stop = utf8Len (text.take (c.index + 1))
  rest_eq : c.rest = charIndices c.stop (text.drop (c.index + 1))
  not_exhausted : c.exhausted = false

section On

variable {text : Text} {c : CharReader} {byte : ℕ}

theorem on_new {n : ℕ} (hn : n < text.length) :
    On text (new (text.drop n) (utf8Len (text.take n)) n) := by
  have hdrop : text.drop n = text[n] :: text.drop (n + 1) := List.drop_eq_getElem_cons hn
  rw [new, hdrop, charIndices]
  refine ⟨hn, rfl, (utf8Len_take_succ hn).symm, ?_, rfl⟩
  dsimp only

/-- What seeking does: the reader stands at a character again, no character before it ends behind
the byte, and it ends behind the byte if that is in the text. -/
theorem on_seek (h : On text c) (byte : ℕ) :
    On text (c.seek byte) ∧ (c.start ≤ byte → (c.seek byte).start ≤ byte) ∧
      (byte < utf8Len text ↔ byte < (c.seek byte).stop) := by
  obtain ⟨rest, index, start, stop, exhausted⟩ := c
  unfold seek
  dsimp only at h ⊢
  induction rest generalizing index start stop with
  | nil =>
      refine ⟨h, id, ?_⟩
      have hrest : [] = charIndices stop (text.drop (index + 1)) := h.rest_eq
      have hend : text.length ≤ index + 1 := by
        by_contra hlt
        rw [List.drop_eq_getElem_cons (by omega), charIndices] at hrest
        cases hrest
      rw [seekFrom, h.stop_eq, List.take_of_length_le hend]
  | cons entry rest ih =>
      obtain ⟨offset, value⟩ := entry
      have hrest : (offset, value) :: rest = charIndices stop (text.drop (index + 1)) := h.rest_eq
      have hnext : index + 1 < text.length := by
        by_contra hge
        rw [List.drop_of_length_le (by omega), charIndices] at hrest
        cases hrest
      rw [List.drop_eq_getElem_cons hnext, charIndices] at hrest
      obtain ⟨hentry, hbehind⟩ := List.cons.inj hrest
      obtain ⟨hoffset, rfl⟩ := Prod.mk.inj hentry
      subst offset
      rw [seekFrom]
      by_cases hstop : stop ≤ byte
      · rw [if_pos hstop]
        have hstart : stop = utf8Len (text.take (index + 1)) := h.stop_eq
        have hon : On text ⟨rest, index + 1, stop, stop + text[index + 1].utf8Size, exhausted⟩ := by
          refine ⟨hnext, hstart, ?_, hbehind, h.not_exhausted⟩
          rw [utf8Len_take_succ hnext, ← hstart]
        obtain ⟨hon, hle, hlt⟩ := ih _ _ _ hon
        exact ⟨hon, fun _ => hle hstop, hlt⟩
      · rw [if_neg hstop]
        refine ⟨h, id, fun _ => Nat.lt_of_not_le hstop, fun hlt => hlt.trans_le ?_⟩
        rw [h.stop_eq]
        exact utf8Len_take_le _ _

/-- Inside the text, the reader finds the character of a byte that it has not passed. -/
theorem charContaining_of_lt (h : On text c) (hstart : c.start ≤ byte) (hbyte : byte < utf8Len text) :
    c.charContaining byte = (some (byteChar text byte), c.seek byte) := by
  obtain ⟨hon, hle, hlt⟩ := on_seek h byte
  have hno : ¬(c.exhausted = true ∨ byte < c.start) := by
    rw [h.not_exhausted]
    simpa using hstart
  have hstop := hlt.mp hbyte
  have hchar : byteChar text byte = (c.seek byte).index :=
    (byteChar_eq_iff hbyte).mpr ⟨hon.start_eq ▸ hle hstart, hon.stop_eq ▸ hstop⟩
  rw [charContaining, if_neg hno]
  dsimp only
  rw [if_neg (Nat.not_le.mpr hstop), hchar]

end On

end CharReader

end Toktier.Lib
