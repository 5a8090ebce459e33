import Toktier.Lib.Decode
import Toktier.Lib.Utf8Starts

/-!
# Slices of a UTF-8 text

A text is cut at byte offsets, which must be offsets of its characters; any other one is a
panic.

## Main definitions

* `isAscii`: every character takes one byte.
* `dropBytes`, `takeBytes`, `strFrom`, `strSlice`: cuts at byte offsets.
* `charIndices`: the characters with their byte offsets.
-/
namespace Toktier.Lib.Utf8

variable {ε : Type}

/-- Whether every character is ASCII. -/
def isAscii (text : Text) : Bool := text.all fun c => c.val < 0x80

/-- The text from byte `b` on, if a character starts there. -/
def dropBytes : Text → ℕ → Option Text
  | text, 0 => some text
  | [], _ + 1 => none
  | c :: text, b + 1 => if c.utf8Size ≤ b + 1 then dropBytes text (b + 1 - c.utf8Size) else none

/-- The first `b` bytes of the text, if a character ends there. -/
def takeBytes : Text → ℕ → Option Text
  | _, 0 => some []
  | [], _ + 1 => none
  | c :: text, b + 1 =>
      if c.utf8Size ≤ b + 1 then (takeBytes text (b + 1 - c.utf8Size)).map (c :: ·) else none

/-- `&text[low..]`. -/
def strFrom (text : Text) (low : ℕ) : Decode ε Text :=
  match dropBytes text low with
  | some rest => .ok rest
  | none => .error .Panic

/-- `&text[low..high]`. -/
def strSlice (text : Text) (low high : ℕ) : Decode ε Text := do
  let rest ← strFrom text low
  let count ← minus high low
  match takeBytes rest count with
  | some piece => .ok piece
  | none => .error .Panic

/-- The characters with their byte offsets, from offset `b` on. -/
def charIndices : ℕ → Text → List (ℕ × Char)
  | _, [] => []
  | b, c :: text => (b, c) :: charIndices (b + c.utf8Size) text

variable {t : Text} {a b : ℕ}

/-- In an ASCII text a byte offset is a character index. -/
theorem utf8Len_of_ascii (h : isAscii t = true) : utf8Len t = t.length := by
  induction t with
  | nil => rfl
  | cons c t ih =>
      rw [isAscii, List.all_cons, Bool.and_eq_true, decide_eq_true_eq] at h
      have hc : c.utf8Size = 1 := by
        rw [Char.utf8Size_eq_one_iff, UInt32.le_iff_toNat_le]
        have hlt := UInt32.lt_iff_toNat_lt.mp h.1
        have : (0x80 : UInt32).toNat = 128 := rfl
        have : (127 : UInt32).toNat = 127 := rfl
        omega
      rw [utf8Len_cons, List.length_cons, hc, ih h.2, add_comm]

theorem isAscii_take (h : isAscii t = true) (n : ℕ) : isAscii (t.take n) = true := by
  rw [isAscii, List.all_eq_true] at h ⊢
  exact fun c hc => h c (List.mem_of_mem_take hc)

theorem utf8Len_take_of_ascii (h : isAscii t = true) (hn : n ≤ t.length) :
    utf8Len (t.take n) = n := by
  rw [utf8Len_of_ascii (isAscii_take h n), List.length_take, min_eq_left hn]

/-- The bytes of a first character and the rest. -/
theorem exists_utf8Len_take_cons (c : Char) (t : Text) (n : ℕ) :
    ∃ s, utf8Len ((c :: t).take (n + 1)) = s + 1 ∧ c.utf8Size ≤ s + 1 ∧
      s + 1 - c.utf8Size = utf8Len (t.take n) := by
  have hpos := c.utf8Size_pos
  refine ⟨c.utf8Size + utf8Len (t.take n) - 1, ?_, by omega, by omega⟩
  rw [List.take_succ_cons, utf8Len_cons]
  omega

theorem dropBytes_utf8Len (t : Text) (n : ℕ) :
    dropBytes t (utf8Len (t.take n)) = some (t.drop n) := by
  induction t generalizing n with
  | nil => simp [dropBytes]
  | cons c t ih =>
      cases n with
      | zero => simp [dropBytes]
      | succ n =>
          obtain ⟨s, hs, hle, hrest⟩ := exists_utf8Len_take_cons c t n
          rw [hs, dropBytes, if_pos hle, hrest, ih, List.drop_succ_cons]

/-- A slice of a slice. -/
theorem dropBytes_add {text rest : Text} {a : ℕ} (h : dropBytes text a = some rest) (b : ℕ) :
    dropBytes text (a + b) = dropBytes rest b := by
  induction text generalizing a with
  | nil =>
    cases a with
    | zero =>
      obtain rfl : [] = rest := by simpa [dropBytes] using h
      rw [Nat.zero_add]
    | succ a => cases h
  | cons c text ih =>
    cases a with
    | zero =>
      obtain rfl : c :: text = rest := by simpa [dropBytes] using h
      rw [Nat.zero_add]
    | succ a =>
      rw [dropBytes] at h
      split_ifs at h with hle
      have hsub : a + 1 + b - c.utf8Size = a + 1 - c.utf8Size + b := by omega
      obtain ⟨m, hm⟩ : ∃ m, a + 1 + b = m + 1 := ⟨a + b, by omega⟩
      rw [hm, dropBytes, if_pos (by omega), ← hm, hsub, ih h]

theorem takeBytes_zero (text : Text) : takeBytes text 0 = some [] := by
  cases text <;> rw [takeBytes]

theorem takeBytes_utf8Len (t : Text) (n : ℕ) :
    takeBytes t (utf8Len (t.take n)) = some (t.take n) := by
  induction t generalizing n with
  | nil => simp [takeBytes]
  | cons c t ih =>
      cases n with
      | zero => simp [takeBytes]
      | succ n =>
          obtain ⟨s, hs, hle, hrest⟩ := exists_utf8Len_take_cons c t n
          rw [hs, takeBytes, if_pos hle, hrest, ih, List.take_succ_cons, Option.map_some]

theorem strFrom_utf8Len (t : Text) (n : ℕ) :
    (strFrom t (utf8Len (t.take n)) : Decode ε Text) = .ok (t.drop n) := by
  rw [strFrom, dropBytes_utf8Len]

/-- Between two byte offsets of characters lie those characters. -/
theorem strSlice_utf8Len (t : Text) (h : a ≤ b) :
    (strSlice t (utf8Len (t.take a)) (utf8Len (t.take b)) : Decode ε Text) =
      .ok ((t.take b).drop a) := by
  have hlen : utf8Len (t.take b) - utf8Len (t.take a) = utf8Len ((t.drop a).take (b - a)) := by
    have hsplit := utf8Len_take_add_drop a (t.take b)
    rw [List.take_take, min_eq_left h, List.drop_take] at hsplit
    omega
  rw [strSlice, strFrom_utf8Len, ok_bind, minus_of_le (utf8Len_take_mono t h), ok_bind, hlen,
    takeBytes_utf8Len, List.drop_take]

end Toktier.Lib.Utf8
