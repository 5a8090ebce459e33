import Toktier.Lib.Utf8Slices

/-!
# Windows of a text

The cut search reads the text through windows. A cursor moves to a character of the UTF-8
text, forward in blocks of bytes or backward byte by byte; a window holds the characters
around a position with their byte offsets, and answers in character indices of the whole
text. An index outside the window is a panic.

The cursor of a text always knows the byte offset of its character, and a window of the text
answers as the text does.

## Main definitions

* `CharCursor`, with `seek`: the cursor.
* `Window`, with `extract`, `charAt`, `byteOf`, `slice`, `charOfByte`: the window.
* `cursorAt`, `windowOf`: the cursor at a character, and the window between two characters.

## Main results

* `extract_cursorAt`: what a window holds.
* `byteOffsets_new`: the byte offsets of a cursor along any sequence of moves.
-/
namespace Toktier.Chunked

open Toktier.Lib Toktier.Lib.Utf8

variable {ε : Type}

/-! ## Text -/

/-- A byte that starts a character: as a signed byte at least `-0x40`. -/
def startsChar (byte : UInt8) : Bool := (-0x40 : Int8) ≤ byte.toInt8

/-- Number of Unicode scalar values in a UTF-8 string. -/
def countChars (text : Text) : ℕ :=
  if isAscii text then (utf8 text).length else (utf8 text).countP startsChar

/-! ## Cursor -/

/-- A `(character index, byte offset)` cursor over a UTF-8 string that moves forward in blocks
and backward byte by byte. -/
structure CharCursor where
  text : Text
  ascii : Bool
  charIndex : ℕ
  byteIndex : ℕ

def CharCursor.new (text : Text) : CharCursor := ⟨text, isAscii text, 0, 0⟩

/-- Bytes of one block. -/
def BLOCK : ℕ := 64

/-- The block loop: skip whole blocks while no more characters start in the next one than
remain. Returns the characters that remain and the byte offset. -/
def skipBlocks (bytes : List UInt8) (remaining index : ℕ) : ℕ × ℕ :=
  if BLOCK ≤ remaining ∧ index + BLOCK ≤ bytes.length then
    let starts := ((bytes.drop index).take BLOCK).countP startsChar
    if starts > remaining then (remaining, index)
    else skipBlocks bytes (remaining - starts) (index + BLOCK)
  else (remaining, index)
termination_by bytes.length - index
decreasing_by
  have : BLOCK = 64 := rfl
  omega

/-- The first offset from `index` on that holds no continuation byte. -/
def skipTail (bytes : List UInt8) (index : ℕ) : ℕ :=
  index + ((bytes.drop index).takeWhile isCont).length

/-- Step over `remaining` characters. -/
def stepChars (bytes : List UInt8) : ℕ → ℕ → Decode ε ℕ
  | 0, index => .ok index
  | remaining + 1, index => do
      let lead ← getAt bytes index
      stepChars bytes remaining (index + leadLen lead)

/-- Step back to the start of the character that ends at the offset. -/
def stepBack (bytes : List UInt8) : ℕ → Decode ε ℕ
  | 0 => .error .Panic
  | index + 1 => do
      let byte ← getAt bytes index
      if isCont byte then stepBack bytes index else .ok index

/-- Step back over `remaining` characters. -/
def stepsBack (bytes : List UInt8) : ℕ → ℕ → Decode ε ℕ
  | 0, index => .ok index
  | remaining + 1, index => do
      let index ← stepBack bytes index
      stepsBack bytes remaining index

/-- Move to character `target`, which may be the text length. -/
def CharCursor.seek (cursor : CharCursor) (target : ℕ) : Decode ε CharCursor :=
  if cursor.ascii then .ok { cursor with charIndex := target, byteIndex := target }
  else do
    let bytes := utf8 cursor.text
    if cursor.charIndex ≤ target then
      let (remaining, index) := skipBlocks bytes (target - cursor.charIndex) cursor.byteIndex
      -- the block may end inside a character
      let index ← stepChars bytes remaining (skipTail bytes index)
      return { cursor with charIndex := target, byteIndex := index }
    else
      let index ← stepsBack bytes (cursor.charIndex - target) cursor.byteIndex
      return { cursor with charIndex := target, byteIndex := index }

/-! ## Window -/

/-- A decoded window of the text in global character coordinates. -/
structure Window where
  text : Text
  /-- Global character index of the first of `chars`. -/
  base : ℕ
  chars : List Char
  /-- Global byte offset of each window character, plus one past the end. -/
  byteStarts : List ℕ
  /-- Characters in the whole text. -/
  total : ℕ

/-- The byte offset past the last window character. -/
def endOf (text : Text) (start : ℕ) (byteStarts : List ℕ) : Decode ε ℕ :=
  match byteStarts.getLast? with
  | some last => do
      let tail ← strFrom text last
      return last + (tail.head?.map Char.utf8Size).getD 0
  | none => .ok start

/-- The window `[low, high)`, clamped to the text, and the cursor behind it. -/
def Window.extract (cursor : CharCursor) (total low high : ℕ) : Decode ε (Window × CharCursor) := do
  let high := min high total
  let low := min low high
  let cursor ← cursor.seek low
  let start := cursor.byteIndex
  let count := high - low
  let rest ← strFrom cursor.text start
  let entries := (charIndices 0 rest).take count
  let byteStarts := entries.map fun entry => start + entry.1
  let stop ← endOf cursor.text start byteStarts
  return ({ text := cursor.text, base := low, chars := entries.map Prod.snd,
            byteStarts := byteStarts ++ [stop], total := total },
          { cursor with charIndex := high, byteIndex := stop })

namespace Window

def charAt (w : Window) (index : ℕ) : Decode ε Char := do
  let i ← minus index w.base
  getAt w.chars i

def byteOf (w : Window) (index : ℕ) : Decode ε ℕ := do
  let i ← minus index w.base
  getAt w.byteStarts i

def slice (w : Window) (low high : ℕ) : Decode ε Text := do
  let low ← w.byteOf low
  let high ← w.byteOf high
  strSlice w.text low high

/-- Global character index of a global byte offset inside the window. -/
def charOfByte (w : Window) (byte : ℕ) : ℕ :=
  w.base + (w.byteStarts.takeWhile (· < byte)).length

end Window

/-! ## The text behind the bytes -/

variable {t : Text} {m n k lo hi a b : ℕ}

theorem startsChar_eq (byte : UInt8) : startsChar byte = !isCont byte :=
  forall_byte (p := fun byte => startsChar byte = !isCont byte) (by decide +kernel) byte

theorem countP_startsChar (bs : List UInt8) : bs.countP startsChar = startsIn bs := by
  rw [startsIn]
  congr 1
  funext byte
  exact startsChar_eq byte

/-- Counting bytes counts characters. -/
@[simp] theorem countChars_eq (t : Text) : countChars t = t.length := by
  unfold countChars
  split_ifs with h
  · rw [length_utf8, utf8Len_of_ascii h]
  · rw [countP_startsChar, startsIn_utf8]

/-! ## The cursor at a character -/

/-- The cursor at character `n`. -/
def cursorAt (t : Text) (n : ℕ) : CharCursor := ⟨t, isAscii t, n, utf8Len (t.take n)⟩

theorem new_eq_cursorAt (t : Text) : CharCursor.new t = cursorAt t 0 := by
  simp [CharCursor.new, cursorAt]

/-- Skipping blocks keeps the number of the character looked for. -/
theorem skipBlocks_spec (n remaining : ℕ) {index : ℕ} (hi : index ≤ utf8Len t)
    (hn : startsIn ((utf8 t).take index) + remaining = n) :
    (skipBlocks (utf8 t) remaining index).2 ≤ utf8Len t ∧
      startsIn ((utf8 t).take (skipBlocks (utf8 t) remaining index).2) +
        (skipBlocks (utf8 t) remaining index).1 = n := by
  fun_induction skipBlocks (utf8 t) remaining index with
  | case1 => exact ⟨hi, hn⟩
  | case2 remaining index hblock starts hle ih =>
      rw [length_utf8] at hblock
      refine ih hblock.2 ?_
      have hstarts : starts = startsIn (((utf8 t).drop index).take BLOCK) := countP_startsChar _
      rw [List.take_add, startsIn_append, ← hstarts]
      omega
  | case3 => exact ⟨hi, hn⟩

theorem skipTail_utf8 (t : Text) {index : ℕ} (hi : index ≤ utf8Len t) :
    skipTail (utf8 t) index = utf8Len (t.take (startsIn ((utf8 t).take index))) :=
  skip_isCont_utf8 t hi

theorem stepChars_utf8 (h : n + k ≤ t.length) :
    (stepChars (utf8 t) k (utf8Len (t.take n)) : Decode ε ℕ) = .ok (utf8Len (t.take (n + k))) := by
  induction k generalizing n with
  | zero => rfl
  | succ k ih =>
      obtain ⟨lead, hget, -, hlead⟩ := getElem?_utf8_start (t := t) (n := n) (by omega)
      rw [stepChars, getAt_of_some hget, ok_bind, hlead, ih (by omega),
        show n + (k + 1) = n + 1 + k by omega]

theorem stepBack_utf8 (hn : n < t.length) {index : ℕ} (hlo : utf8Len (t.take n) < index)
    (hhi : index ≤ utf8Len (t.take (n + 1))) :
    (stepBack (utf8 t) index : Decode ε ℕ) = .ok (utf8Len (t.take n)) := by
  induction index with
  | zero => omega
  | succ index ih =>
      rcases Nat.eq_or_lt_of_le (show utf8Len (t.take n) ≤ index by omega) with rfl | hlt
      · obtain ⟨lead, hget, hlead, -⟩ := getElem?_utf8_start hn
        rw [stepBack, getAt_of_some hget, ok_bind, hlead]
        rfl
      · obtain ⟨byte, hget, hbyte⟩ := getElem?_utf8_cont hn hlt (by omega)
        rw [stepBack, getAt_of_some hget, ok_bind, hbyte, if_pos rfl]
        exact ih hlt (by omega)

theorem stepsBack_utf8 (h : n + k ≤ t.length) :
    (stepsBack (utf8 t) k (utf8Len (t.take (n + k))) : Decode ε ℕ) = .ok (utf8Len (t.take n)) := by
  induction k with
  | zero => rfl
  | succ k ih =>
      have hlt := utf8Len_take_lt t (show n + k < n + k + 1 by omega) (by omega)
      rw [stepsBack, ← Nat.add_assoc, stepBack_utf8 (by omega) hlt le_rfl, ok_bind, ih (by omega)]

/-- The cursor reaches every character, whether it lies before or behind. -/
theorem seek_cursorAt (hm : m ≤ t.length) (hn : n ≤ t.length) :
    ((cursorAt t m).seek n : Decode ε CharCursor) = .ok (cursorAt t n) := by
  unfold CharCursor.seek cursorAt
  dsimp only
  by_cases hascii : isAscii t = true
  · rw [if_pos hascii, utf8Len_take_of_ascii hascii hn]
  · rw [if_neg hascii]
    by_cases hle : m ≤ n
    · obtain ⟨hbound, hcount⟩ := skipBlocks_spec n (n - m)
        (utf8Len_take_le m t) (by rw [startsIn_take_utf8 t hm]; omega)
      rw [if_pos hle, skipTail_utf8 t hbound, stepChars_utf8 (by omega), hcount]
      rfl
    · obtain ⟨d, rfl⟩ : ∃ d, m = n + d := ⟨m - n, by omega⟩
      rw [if_neg hle, Nat.add_sub_cancel_left, stepsBack_utf8 hm]
      rfl

/-! ## The window between two characters -/

/-- The window of the characters from `lo` up to `hi`. -/
def windowOf (t : Text) (lo hi : ℕ) : Window where
  text := t
  base := lo
  chars := (t.take hi).drop lo
  byteStarts := (List.range (hi - lo + 1)).map fun i => utf8Len (t.take (lo + i))
  total := t.length

theorem charIndices_fst (b : ℕ) (u : Text) :
    (charIndices b u).map Prod.fst = (List.range u.length).map fun i => b + utf8Len (u.take i) := by
  induction u generalizing b with
  | nil => rfl
  | cons c u ih =>
      rw [charIndices, List.map_cons, ih, List.length_cons, List.range_succ_eq_map, List.map_cons,
        List.map_map]
      simp [Function.comp_def, Nat.add_assoc]

theorem charIndices_snd (b : ℕ) (u : Text) : (charIndices b u).map Prod.snd = u := by
  induction u generalizing b with
  | nil => rfl
  | cons c u ih => rw [charIndices, List.map_cons, ih]

theorem utf8Len_take_drop (t : Text) (n i : ℕ) :
    utf8Len (t.take n) + utf8Len ((t.drop n).take i) = utf8Len (t.take (n + i)) := by
  rw [← utf8Len_append, ← List.take_add]

theorem endOf_map_range (hab : a ≤ b) (hb : b ≤ t.length) :
    (endOf t (utf8Len (t.take a)) ((List.range (b - a)).map fun i => utf8Len (t.take (a + i))) :
      Decode ε ℕ) = .ok (utf8Len (t.take b)) := by
  unfold endOf
  rcases Nat.eq_or_lt_of_le hab with rfl | hlt
  · rw [Nat.sub_self]
    rfl
  · obtain ⟨d, rfl⟩ : ∃ d, b = a + d + 1 := ⟨b - a - 1, by omega⟩
    have hlast : utf8Len (t.take (a + d)) + (((t.drop (a + d)).head?.map Char.utf8Size).getD 0) =
        utf8Len (t.take (a + d + 1)) := by
      rw [← utf8Len_take_drop t (a + d) 1, List.drop_eq_getElem_cons (show a + d < t.length by omega),
        List.head?_cons, Option.map_some, Option.getD_some, List.take_succ_cons, List.take_zero,
        utf8Len_cons, utf8Len_nil, Nat.add_zero]
    rw [show a + d + 1 - a = d + 1 by omega, List.range_succ, List.map_append, List.map_singleton,
      List.getLast?_concat]
    simp only [strFrom_utf8Len, ok_bind, hlast]
    rfl

/-- Extracting a window yields the characters asked for, clamped to the text, and leaves the
cursor behind them. -/
theorem extract_cursorAt (hm : m ≤ t.length) (lo hi : ℕ) :
    (Window.extract (cursorAt t m) t.length lo hi : Decode ε _) =
      .ok (windowOf t (min lo (min hi t.length)) (min hi t.length),
        cursorAt t (min hi t.length)) := by
  obtain ⟨b, hb⟩ : ∃ b, min hi t.length = b := ⟨_, rfl⟩
  obtain ⟨a, ha⟩ : ∃ a, min lo b = a := ⟨_, rfl⟩
  have hbt : b ≤ t.length := by omega
  have hab : a ≤ b := by omega
  have hcount : min (b - a) (t.drop a).length = b - a := by
    rw [List.length_drop]
    omega
  have hstarts : ((charIndices 0 (t.drop a)).take (b - a)).map
      (fun entry => utf8Len (t.take a) + entry.1) =
        (List.range (b - a)).map fun i => utf8Len (t.take (a + i)) := by
    have hfst := congrArg (List.take (b - a)) (charIndices_fst 0 (t.drop a))
    rw [← List.map_take, ← List.map_take, List.take_range, hcount] at hfst
    have hmap := congrArg (List.map (utf8Len (t.take a) + ·)) hfst
    rw [List.map_map, List.map_map] at hmap
    refine hmap.trans (List.map_congr_left fun i _ => ?_)
    simp [utf8Len_take_drop]
  have hchars : ((charIndices 0 (t.drop a)).take (b - a)).map Prod.snd = (t.take b).drop a := by
    rw [List.map_take, charIndices_snd, List.drop_take]
  unfold Window.extract
  simp only [hb, ha]
  rw [seek_cursorAt hm (by omega), ok_bind]
  simp only [cursorAt, strFrom_utf8Len, ok_bind, hstarts, hchars]
  rw [endOf_map_range hab hbt, ok_bind]
  simp only [windowOf, List.range_succ, List.map_append, List.map_singleton,
    show a + (b - a) = b by omega]
  rfl

theorem charAt_windowOf (hlo : lo ≤ k) (hhi : k < hi) {c : Char} (hc : t[k]? = some c) :
    ((windowOf t lo hi).charAt k : Decode ε Char) = .ok c := by
  rw [Window.charAt, windowOf, minus_of_le hlo, ok_bind]
  refine getAt_of_some ?_
  rw [List.getElem?_drop, List.getElem?_take_of_lt (by omega), ← hc]
  congr 1
  omega

theorem byteOf_windowOf (hlo : lo ≤ k) (hhi : k ≤ hi) :
    ((windowOf t lo hi).byteOf k : Decode ε ℕ) = .ok (utf8Len (t.take k)) := by
  rw [Window.byteOf, windowOf, minus_of_le hlo, ok_bind]
  refine getAt_of_some ?_
  rw [List.getElem?_map, List.getElem?_range (by omega), Option.map_some,
    show lo + (k - lo) = k by omega]

theorem slice_windowOf (hlo : lo ≤ a) (hab : a ≤ b) (hhi : b ≤ hi) :
    ((windowOf t lo hi).slice a b : Decode ε Text) = .ok ((t.take b).drop a) := by
  rw [Window.slice, byteOf_windowOf hlo (by omega), ok_bind, byteOf_windowOf (by omega) hhi, ok_bind]
  exact strSlice_utf8Len t hab

/-- The byte offset of a window character leads back to it. -/
theorem charOfByte_windowOf (hlo : lo ≤ k) (hhi : k ≤ hi) (ht : hi ≤ t.length) :
    (windowOf t lo hi).charOfByte (utf8Len (t.take k)) = k := by
  obtain ⟨d, rfl⟩ : ∃ d, k = lo + d := ⟨k - lo, by omega⟩
  obtain ⟨e, rfl⟩ : ∃ e, hi = lo + d + e := ⟨hi - (lo + d), by omega⟩
  have hbefore : ∀ x ∈ (List.range d).map (fun i => utf8Len (t.take (lo + i))),
      decide (x < utf8Len (t.take (lo + d))) = true := by
    simp only [List.mem_map, List.mem_range, decide_eq_true_eq]
    rintro x ⟨i, hi, rfl⟩
    exact utf8Len_take_lt t (by omega) (by omega)
  have hsplit : (windowOf t lo (lo + d + e)).byteStarts =
      (List.range d).map (fun i => utf8Len (t.take (lo + i))) ++
        utf8Len (t.take (lo + d)) ::
          (List.range e).map fun i => utf8Len (t.take (lo + (d + (i + 1)))) := by
    simp only [windowOf]
    rw [show lo + d + e - lo + 1 = d + (1 + e) by omega, List.range_add, List.map_append,
      List.map_map, List.range_add, List.map_append]
    simp [Function.comp_def, Nat.add_comm 1]
  rw [Window.charOfByte, hsplit, List.takeWhile_append_of_pos hbefore,
    List.takeWhile_cons_of_neg (by simp)]
  simp [windowOf]

/-! ## Moves of the cursor -/

/-- A use of the cursor. -/
inductive CursorCall where
  | seek (target : ℕ)
  | extract (low high : ℕ)

/-- The cursor after the call, in a text of so many characters. -/
def CursorCall.run (total : ℕ) (cursor : CharCursor) : CursorCall → Decode ε CharCursor
  | .seek target => cursor.seek target
  | .extract low high => do
      let (_, cursor) ← Window.extract cursor total low high
      return cursor

/-- The byte offset of the cursor after each of the calls. -/
def byteOffsets (total : ℕ) : CharCursor → List CursorCall → Decode ε (List ℕ)
  | _, [] => .ok []
  | cursor, call :: calls => do
      let cursor ← call.run total cursor
      let offsets ← byteOffsets total cursor calls
      return cursor.byteIndex :: offsets

/-- The character that a call moves the cursor to. -/
def CursorCall.position (total : ℕ) : CursorCall → ℕ
  | .seek target => target
  | .extract _ high => min high total

/-- After every call the cursor knows the byte offset of its character, in whatever order the
text is read. -/
theorem byteOffsets_new {calls : List CursorCall}
    (h : ∀ call ∈ calls, call.position t.length ≤ t.length) :
    (byteOffsets t.length (.new t) calls : Decode ε (List ℕ)) =
      .ok (calls.map fun call => utf8Len (t.take (call.position t.length))) := by
  have hrun (calls : List CursorCall) (m : ℕ) (hm : m ≤ t.length)
      (h : ∀ call ∈ calls, call.position t.length ≤ t.length) :
      (byteOffsets t.length (cursorAt t m) calls : Decode ε (List ℕ)) =
        .ok (calls.map fun call => utf8Len (t.take (call.position t.length))) := by
    induction calls generalizing m with
    | nil => rfl
    | cons call calls ih =>
      obtain ⟨hcall, hcalls⟩ := List.forall_mem_cons.mp h
      have hmove : (call.run t.length (cursorAt t m) : Decode ε CharCursor) =
          .ok (cursorAt t (call.position t.length)) := by
        cases call with
        | seek target => exact seek_cursorAt hm hcall
        | extract low high =>
          rw [CursorCall.run, extract_cursorAt hm]
          rfl
      rw [byteOffsets, hmove, ok_bind, ih _ hcall hcalls]
      rfl
  rw [new_eq_cursorAt]
  exact hrun calls 0 (Nat.zero_le _) h

theorem byteOffsets_new_mixed :
    (byteOffsets 3 (.new ['a', 'é', 'b']) [.seek 3, .seek 1, .extract 0 2, .seek 0] :
      Decode Unit (List ℕ)) = .ok [4, 1, 3, 0] :=
  byteOffsets_new (t := ['a', 'é', 'b']) (by decide)

end Toktier.Chunked
