import Mathlib.Algebra.BigOperators.Group.List.Basic
import Mathlib.Algebra.Ring.Nat
import Mathlib.Data.List.Basic

/-!
# Text as scalar values and as UTF-8 bytes

A text is a list of Unicode scalar values; its byte form is its UTF-8 encoding.
Character counts and byte counts both come from the list, so a split of a text
at a character position is a split of its bytes.

## Main definitions

* `Text`, `utf8`, `utf8Len`: a text, its bytes, and their number.
* `utf8Decode?`: the text a byte string encodes, if it is valid UTF-8.
-/
namespace Toktier.Lib

/-- A text: its Unicode scalar values in order. -/
abbrev Text := List Char

/-- The UTF-8 bytes of a text. -/
def utf8 (t : Text) : List UInt8 := t.flatMap String.utf8EncodeChar

/-- The number of UTF-8 bytes of a text. -/
def utf8Len (t : Text) : ℕ := (t.map Char.utf8Size).sum

/-- Decode a byte string; `none` when it is not valid UTF-8. -/
def utf8Decode? (bs : List UInt8) : Option Text := bs.toByteArray.utf8Decode?.map Array.toList

@[simp] theorem utf8_nil : utf8 [] = [] := rfl
@[simp] theorem utf8Len_nil : utf8Len [] = 0 := rfl

@[simp] theorem utf8_append (s t : Text) : utf8 (s ++ t) = utf8 s ++ utf8 t := by simp [utf8]

@[simp] theorem utf8Len_append (s t : Text) : utf8Len (s ++ t) = utf8Len s + utf8Len t := by
  simp [utf8Len]

@[simp] theorem utf8Len_cons (c : Char) (t : Text) : utf8Len (c :: t) = c.utf8Size + utf8Len t := by
  simp [utf8Len]

@[simp] theorem length_utf8 (t : Text) : (utf8 t).length = utf8Len t := by
  induction t with
  | nil => rfl
  | cons c t ih =>
      rw [utf8, List.flatMap_cons, List.length_append, String.length_utf8EncodeChar, ← utf8, ih,
        utf8Len_cons]

/-- Every scalar value takes at least one byte. -/
theorem length_le_utf8Len (t : Text) : t.length ≤ utf8Len t := by
  induction t with
  | nil => simp
  | cons c t ih =>
      have hc := c.utf8Size_pos
      rw [List.length_cons, utf8Len_cons]
      omega

/-- A scalar value takes at most four bytes. -/
theorem utf8Len_le_four_mul (t : Text) : utf8Len t ≤ 4 * t.length := by
  induction t with
  | nil => simp
  | cons c t ih =>
      have hc := c.utf8Size_le_four
      rw [List.length_cons, utf8Len_cons]
      omega

theorem utf8Len_pos {t : Text} (h : t ≠ []) : 0 < utf8Len t :=
  Nat.lt_of_lt_of_le (List.length_pos_iff.mpr h) (length_le_utf8Len t)

theorem utf8Len_eq_zero {t : Text} : utf8Len t = 0 ↔ t = [] := by
  constructor
  · intro h
    by_contra hne
    have := utf8Len_pos hne
    omega
  · rintro rfl
    rfl

/-- Two texts split at one character position have that many bytes on either side. -/
theorem utf8Len_take_add_drop (n : ℕ) (t : Text) :
    utf8Len (t.take n) + utf8Len (t.drop n) = utf8Len t := by
  rw [← utf8Len_append, List.take_append_drop]

/-- The number of bytes up to the next character. -/
theorem utf8Len_take_succ {t : Text} {n : ℕ} (hn : n < t.length) :
    utf8Len (t.take (n + 1)) = utf8Len (t.take n) + t[n].utf8Size := by
  rw [List.take_succ_eq_append_getElem hn, utf8Len_append]
  simp

theorem utf8Len_take_le (n : ℕ) (t : Text) : utf8Len (t.take n) ≤ utf8Len t := by
  have := utf8Len_take_add_drop n t
  omega

/-! ## Decoding -/

@[simp] theorem utf8Decode?_utf8 (t : Text) : utf8Decode? (utf8 t) = some t := by
  have h : (utf8 t).toByteArray = t.utf8Encode := rfl
  rw [utf8Decode?, h, List.utf8Decode?_utf8Encode]
  rfl

/-- A decoded byte string is the encoding of the text it decodes to. -/
theorem utf8_of_utf8Decode? {bs : List UInt8} {t : Text} (h : utf8Decode? bs = some t) :
    utf8 t = bs := by
  rw [utf8Decode?, Option.map_eq_some_iff] at h
  obtain ⟨chars, hchars, rfl⟩ := h
  have hsome : bs.toByteArray.utf8Decode?.isSome := by rw [hchars]; rfl
  have henc := ByteArray.utf8Encode_get_utf8Decode? (h := hsome)
  simp only [hchars, Option.get_some] at henc
  have hdata := congrArg (fun b : ByteArray => b.data.toList) henc
  simpa [utf8, List.utf8Encode] using hdata

theorem utf8_injective : Function.Injective utf8 := by
  intro s t h
  have hs := utf8Decode?_utf8 s
  rw [h, utf8Decode?_utf8] at hs
  exact (Option.some.inj hs).symm

end Toktier.Lib
