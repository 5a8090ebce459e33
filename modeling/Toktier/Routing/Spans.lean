import Toktier.Routing.Repair
import Toktier.StoreCore.LazySpans

/-!
# The span builders

The reference engine turns the ids of a text into character spans by the byte lengths of its
vocabulary. There are three programs for this: one that builds pairs through a map of all bytes,
one that fills two rows in a single pass, and one that only checks that the ids close over the
text. The single pass meets errors of a span before those of later ids; it defers them.

Sums of byte lengths are 64-bit and positions 32-bit, and both are checked.

## Main definitions

* `idsCloseOverText`, `spansFromIds`, `spansSoaFromIds`: the three programs.
* `closedRows`: the byte ranges of ids that close over the text.

## Main results

* `spanBuilders_agree`: the three programs accept the same ids, and build the same spans.
-/
namespace Toktier.Routing.Reference

open Toktier.Lib Toktier.Lib.Utf8 Toktier.StoreCore

/-! ## Errors -/

def noIdsForText : EngineError := ⟨"tokenizer returned no ids for non-empty text"⟩
def byteLengthOverflow : EngineError := ⟨"token byte length overflow"⟩
def spanExceeds : EngineError := ⟨"span exceeds u32"⟩
def startOutside : EngineError := ⟨"token start is outside the UTF-8 input"⟩
def endOutside : EngineError := ⟨"token end is outside the UTF-8 input"⟩

def closureMismatch (cursor textLen : ℕ) : EngineError :=
  ⟨s!"token bytes do not close: tokens={cursor}, text={textLen}"⟩

/-- A 64-bit sum. -/
def checkedAdd (cursor length : ℕ) : Except EngineError ℕ :=
  if cursor + length < 2 ^ 64 then .ok (cursor + length) else .error byteLengthOverflow

def u32TryFrom (position : ℕ) : Except EngineError ℕ :=
  if position < 2 ^ 32 then .ok position else .error spanExceeds

/-- Both positions of a span. -/
def u32Span (start stop : ℕ) : Except EngineError (ℕ × ℕ) := do
  let start ← u32TryFrom start
  let stop ← u32TryFrom stop
  .ok (start, stop)

/-! ## The check -/

/-- Where a token ends that starts at the byte. -/
def closeStep (byteLengths : List ℕ) (cursor : ℕ) (id : UInt32) : Except EngineError ℕ := do
  let length ← tokenByteLength byteLengths id
  checkedAdd cursor length

/-- The ids close over the text. -/
def idsCloseOverText (ids : List UInt32) (byteLengths : List ℕ) (text : Text) :
    Except EngineError Unit :=
  if ids = [] then
    if text = [] then .ok () else .error noIdsForText
  else do
    let cursor ← ids.foldlM (closeStep byteLengths) 0
    if cursor ≠ utf8Len text then .error (closureMismatch cursor (utf8Len text)) else .ok ()

/-! ## Pairs -/

/-- Byte ranges, and where the last one ends. -/
structure Rows where
  intervals : List (ℕ × ℕ)
  cursor : ℕ

def rowStep (byteLengths : List ℕ) (rows : Rows) (id : UInt32) : Except EngineError Rows := do
  let length ← tokenByteLength byteLengths id
  let stop ← checkedAdd rows.cursor length
  .ok ⟨rows.intervals ++ [(rows.cursor, stop)], stop⟩

/-- The characters of a byte range, by the map of all bytes. -/
def mappedSpan (chars : List ℕ) (interval : ℕ × ℕ) : Except EngineError (ℕ × ℕ) :=
  match chars[interval.1]? with
  | none => .error startOutside
  | some start =>
      match chars[interval.2 - 1]? with
      | none => .error endOutside
      | some last => u32Span start (last + 1)

/-- Character spans of ids, as pairs. -/
def spansFromIds (ids : List UInt32) (byteLengths : List ℕ) (text : Text) :
    Except EngineError (List (ℕ × ℕ)) :=
  if ids = [] then
    if text = [] then .ok [] else .error noIdsForText
  else do
    let rows ← ids.foldlM (rowStep byteLengths) ⟨[], 0⟩
    if rows.cursor ≠ utf8Len text then
      .error (closureMismatch rows.cursor (utf8Len text))
    else if isAscii text then rows.intervals.mapM fun interval => u32Span interval.1 interval.2
    else rows.intervals.mapM (mappedSpan (charOfByte text))

/-! ## Rows of starts and of ends -/

/-- What a single pass has built, and the first error it deferred. -/
structure Soa (σ : Type) where
  cursor : σ
  byte : ℕ
  starts : List ℕ
  ends : List ℕ
  deferred : Option EngineError

/-- One token of a single pass; `span` is what the pass does for the span of a byte range. -/
def soaStep {σ : Type} (span : σ → ℕ → ℕ → Except EngineError (ℕ × ℕ) × σ) (byteLengths : List ℕ)
    (s : Soa σ) (id : UInt32) : Except EngineError (Soa σ) := do
  let length ← tokenByteLength byteLengths id
  let stop ← checkedAdd s.byte length
  if s.deferred.isSome then .ok { s with byte := stop }
  else
    let (pushed, cursor) := span s.cursor s.byte stop
    match pushed with
    | .ok (start, last) => .ok ⟨cursor, stop, s.starts ++ [start], s.ends ++ [last], none⟩
    | .error e => .ok ⟨cursor, stop, s.starts, s.ends, some e⟩

/-- A single pass over the ids. -/
def soaPass {σ : Type} (span : σ → ℕ → ℕ → Except EngineError (ℕ × ℕ) × σ) (cursor : σ)
    (ids : List UInt32) (byteLengths : List ℕ) (textLen : ℕ) :
    Except EngineError (List ℕ × List ℕ) := do
  let s ← ids.foldlM (soaStep span byteLengths) ⟨cursor, 0, [], [], none⟩
  if s.byte ≠ textLen then .error (closureMismatch s.byte textLen)
  else
    match s.deferred with
    | some e => .error e
    | none => .ok (s.starts, s.ends)

/-- Byte positions are character positions. -/
def asciiSpan (_ : Unit) (startByte endByte : ℕ) : Except EngineError (ℕ × ℕ) × Unit :=
  (u32Span startByte endByte, ())

def asciiSpansSoa (ids : List UInt32) (byteLengths : List ℕ) (textLen : ℕ) :
    Except EngineError (List ℕ × List ℕ) :=
  soaPass asciiSpan () ids byteLengths textLen

/-- The reader that streams the characters of the text. -/
def charCursor (text : Text) : CharReader := CharReader.new text 0 0

/-- The span of a byte range, by the reader. -/
def pushUnicodeSpan (cursor : CharReader) (startByte endByte : ℕ) :
    Except EngineError (ℕ × ℕ) × CharReader :=
  let (startChar, cursor) := cursor.charContaining startByte
  match startChar with
  | none => (.error startOutside, cursor)
  | some startChar =>
      let (lastChar, cursor) := cursor.charContaining (endByte - 1)
      match lastChar with
      | none => (.error endOutside, cursor)
      | some lastChar => (u32Span startChar (lastChar + 1), cursor)

def unicodeSpansSoa (ids : List UInt32) (byteLengths : List ℕ) (text : Text) :
    Except EngineError (List ℕ × List ℕ) :=
  soaPass pushUnicodeSpan (charCursor text) ids byteLengths (utf8Len text)

/-- Character spans of ids, as a row of starts and one of ends. -/
def spansSoaFromIds (ids : List UInt32) (byteLengths : List ℕ) (text : Text) :
    Except EngineError (List ℕ × List ℕ) :=
  if ids = [] then
    if text = [] then .ok ([], []) else .error noIdsForText
  else if isAscii text then asciiSpansSoa ids byteLengths (utf8Len text)
  else unicodeSpansSoa ids byteLengths text

/-! ## Rows that close -/

/-- The byte ranges of the ids, which close over the text. -/
def closedRows (ids : List UInt32) (byteLengths : List ℕ) (text : Text) :
    Except EngineError Rows := do
  let rows ← ids.foldlM (rowStep byteLengths) ⟨[], 0⟩
  if rows.cursor ≠ utf8Len text then .error (closureMismatch rows.cursor (utf8Len text))
  else .ok rows

section Rows

variable {byteLengths : List ℕ} {ids : List UInt32} {text : Text} {rows : Rows}

theorem tokenByteLength_eq_ok {id : UInt32} {length : ℕ} :
    tokenByteLength byteLengths id = .ok length ↔
      byteLengths[id.toNat]? = some length ∧ 0 < length := by
  rw [tokenByteLength]
  cases byteLengths[id.toNat]? with
  | none => simp
  | some n =>
      by_cases hn : n = 0
      · simp only [hn, if_pos, reduceCtorEq, Option.some_inj, false_iff, not_and, Nat.not_lt]
        omega
      · simp only [hn, if_false, Except.ok.injEq, Option.some_inj]
        constructor
        · rintro rfl
          exact ⟨rfl, Nat.pos_of_ne_zero hn⟩
        · exact fun h => h.1

theorem checkedAdd_eq_ok {cursor length stop : ℕ} (h : checkedAdd cursor length = .ok stop) :
    stop = cursor + length := by
  unfold checkedAdd at h
  split_ifs at h
  exact (Except.ok.inj h).symm

theorem rowStep_ok {before : Rows} {id : UInt32} (h : rowStep byteLengths before id = .ok rows) :
    ∃ length, (byteLengths[id.toNat]? = some length ∧ 0 < length) ∧
      rows = ⟨before.intervals ++ [(before.cursor, before.cursor + length)],
        before.cursor + length⟩ := by
  obtain ⟨length, hlength, h⟩ := bind_eq_ok.mp h
  obtain ⟨stop, hstop, h⟩ := bind_eq_ok.mp h
  obtain rfl := checkedAdd_eq_ok hstop
  exact ⟨length, tokenByteLength_eq_ok.mp hlength, (Except.ok.inj h).symm⟩

theorem foldlM_rowStep_ok {before : Rows} (h : ids.foldlM (rowStep byteLengths) before = .ok rows) :
    ∃ lengths, TokenLengths byteLengths ids lengths ∧
      rows = ⟨before.intervals ++ byteRanges before.cursor lengths,
        before.cursor + lengths.sum⟩ := by
  induction ids generalizing before with
  | nil =>
      obtain rfl := Except.ok.inj h
      exact ⟨[], .nil, by rw [byteRanges, List.append_nil]; rfl⟩
  | cons id ids ih =>
      rw [List.foldlM_cons] at h
      obtain ⟨next, hnext, h⟩ := bind_eq_ok.mp h
      obtain ⟨length, hlength, rfl⟩ := rowStep_ok hnext
      obtain ⟨lengths, hlengths, rfl⟩ := ih h
      refine ⟨length :: lengths, .cons hlength hlengths, ?_⟩
      rw [byteRanges, List.sum_cons, ← Nat.add_assoc, List.append_assoc]
      rfl

theorem closedRows_ok (h : closedRows ids byteLengths text = .ok rows) :
    ∃ lengths, TokenLengths byteLengths ids lengths ∧ lengths.sum = utf8Len text ∧
      rows.intervals = byteRanges 0 lengths := by
  obtain ⟨last, hlast, h⟩ := bind_eq_ok.mp h
  obtain ⟨lengths, hlengths, rfl⟩ := foldlM_rowStep_ok hlast
  split_ifs at h with hclose
  obtain rfl := Except.ok.inj h
  rw [not_ne_iff, Nat.zero_add] at hclose
  exact ⟨lengths, hlengths, hclose, rfl⟩

/-- The ranges of rows that close lie in the text. -/
theorem inside_of_closedRows (h : closedRows ids byteLengths text = .ok rows) :
    ∀ interval ∈ rows.intervals, interval.1 < interval.2 ∧ interval.2 ≤ utf8Len text := by
  obtain ⟨lengths, hlengths, hsum, hrows⟩ := closedRows_ok h
  intro interval hinterval
  have := mem_byteRanges hlengths.pos (hrows ▸ hinterval)
  omega

/-- A loop that stays in step with the byte ranges accepts the same ids. -/
theorem map_closedRows {σ α : Type} {loop : Except EngineError σ} {finish : σ → Except EngineError α}
    {value : Rows → α} {R : Rows → σ → Prop}
    (hloop : Agree R (ids.foldlM (rowStep byteLengths) ⟨[], 0⟩) loop)
    (hopen : ∀ rows s, R rows s → rows.cursor ≠ utf8Len text →
      finish s = .error (closureMismatch rows.cursor (utf8Len text)))
    (hclosed : ∀ rows s, R rows s → rows.cursor = utf8Len text → finish s = .ok (value rows)) :
    loop >>= finish = (closedRows ids byteLengths text).map value := by
  have hmap : (closedRows ids byteLengths text).map value =
      (ids.foldlM (rowStep byteLengths) ⟨[], 0⟩ : Except EngineError Rows) >>= fun rows =>
        if rows.cursor ≠ utf8Len text then .error (closureMismatch rows.cursor (utf8Len text))
        else .ok (value rows) := by
    unfold closedRows
    cases (ids.foldlM (rowStep byteLengths) ⟨[], 0⟩ : Except EngineError Rows) with
    | error e => rfl
    | ok rows =>
        rw [ok_bind, ok_bind]
        split_ifs <;> rfl
  rw [hmap]
  refine (hloop.bind_eq fun rows s h => ?_).symm
  split_ifs with hcursor
  · exact (hopen rows s h hcursor).symm
  · exact (hclosed rows s h (not_ne_iff.mp hcursor)).symm

/-- The check follows the byte ranges. -/
theorem idsCloseOverText_eq (hids : ids ≠ []) :
    idsCloseOverText ids byteLengths text =
      (closedRows ids byteLengths text).map fun _ => () := by
  have hloop : Agree (fun rows cursor => rows.cursor = cursor)
      (ids.foldlM (rowStep byteLengths) ⟨[], 0⟩) (ids.foldlM (closeStep byteLengths) 0) := by
    refine Agree.foldlM ids rfl fun id _ rows cursor hcursor => ?_
    obtain rfl := hcursor
    refine (Agree.refl (fun a b => a = b) fun _ _ => rfl).bind fun length _ _ _ hlength => ?_
    obtain rfl := hlength
    exact Agree.bind_left fun stop _ => rfl
  rw [idsCloseOverText, if_neg hids]
  exact map_closedRows hloop (fun rows _ h hcursor => by rw [← h, if_pos hcursor])
    fun rows _ h hcursor => by rw [← h, if_neg (not_ne_iff.mpr hcursor)]

/-! ## Spans -/

theorem u32Span_of_le {start stop : ℕ} (hle : start ≤ stop) (hstop : stop < 2 ^ 32) :
    u32Span start stop = .ok (start, stop) := by
  rw [u32Span, u32TryFrom, u32TryFrom, if_pos (by omega), if_pos hstop]
  rfl

/-- In a text of few characters every span of a range in the text can be stored. -/
theorem u32Span_byteSpan (hlength : text.length < 2 ^ 32) {a : ℕ × ℕ}
    (hlt : a.1 < a.2) (hle : a.2 ≤ utf8Len text) :
    u32Span (byteSpan text a).1 (byteSpan text a).2 =
      .ok (byteSpan text a) := by
  have := byteSpan_within hlt hle
  exact u32Span_of_le (by omega) (by omega)

theorem mappedSpan_of_le (hlength : text.length < 2 ^ 32) {a : ℕ × ℕ}
    (hlt : a.1 < a.2) (hle : a.2 ≤ utf8Len text) :
    mappedSpan (charOfByte text) a = .ok (byteSpan text a) := by
  have hmap : charOfByte text = charsFrom 0 text := rfl
  rw [mappedSpan, hmap, getElem?_byteChar (by omega), getElem?_byteChar (by omega)]
  exact u32Span_byteSpan hlength hlt hle

theorem asciiInterval_of_le (hlength : text.length < 2 ^ 32) (hascii : isAscii text = true)
    {a : ℕ × ℕ} (hlt : a.1 < a.2) (hle : a.2 ≤ utf8Len text) :
    u32Span a.1 a.2 = .ok (byteSpan text a) := by
  have hspan := u32Span_byteSpan hlength hlt hle
  rwa [byteSpan_of_ascii (utf8Len_of_ascii hascii) hlt hle] at hspan ⊢

/-- The pairs are the spans of the byte ranges. -/
theorem spansFromIds_eq (hlength : text.length < 2 ^ 32) (hids : ids ≠ []) :
    spansFromIds ids byteLengths text =
      (closedRows ids byteLengths text).map fun rows => rows.intervals.map (byteSpan text) := by
  have hconvert : spansFromIds ids byteLengths text =
      closedRows ids byteLengths text >>= fun rows =>
        if isAscii text then rows.intervals.mapM fun interval => u32Span interval.1 interval.2
        else rows.intervals.mapM (mappedSpan (charOfByte text)) := by
    rw [spansFromIds, if_neg hids, closedRows]
    cases (ids.foldlM (rowStep byteLengths) ⟨[], 0⟩ : Except EngineError Rows) with
    | error e => rfl
    | ok rows =>
        rw [ok_bind, ok_bind]
        by_cases hcursor : rows.cursor ≠ utf8Len text
        · rw [if_pos hcursor, if_pos hcursor]
          rfl
        · rw [if_neg hcursor, if_neg hcursor, ok_bind]
  rw [hconvert]
  cases hclosed : closedRows ids byteLengths text with
  | error e => rfl
  | ok rows =>
      have hinside := inside_of_closedRows hclosed
      rw [ok_bind]
      split_ifs with hascii
      · exact mapM_ok fun a ha =>
          asciiInterval_of_le hlength hascii (hinside a ha).1 (hinside a ha).2
      · exact mapM_ok fun a ha => mappedSpan_of_le hlength (hinside a ha).1 (hinside a ha).2

/-- A single pass is in step with the byte ranges, as long as these are in the text. -/
structure InStep {σ : Type} (text : Text) (I : σ → ℕ → Prop) (rows : Rows) (s : Soa σ) : Prop where
  byte_eq : s.byte = rows.cursor
  built : rows.cursor ≤ utf8Len text → s.deferred = none ∧
    s.starts = (rows.intervals.map (byteSpan text)).map Prod.fst ∧
    s.ends = (rows.intervals.map (byteSpan text)).map Prod.snd ∧ I s.cursor rows.cursor

section Pass

variable {σ : Type} {span : σ → ℕ → ℕ → Except EngineError (ℕ × ℕ) × σ} {I : σ → ℕ → Prop}

theorem soaStep_inStep
    (hspan : ∀ cursor byte stop, I cursor byte → byte < stop → stop ≤ utf8Len text →
      ∃ cursor', span cursor byte stop = (.ok (byteSpan text (byte, stop)), cursor') ∧
        I cursor' stop)
    {s : Soa σ} (h : InStep text I rows s) (id : UInt32) :
    Agree (InStep text I) (rowStep byteLengths rows id) (soaStep span byteLengths s id) := by
  rw [rowStep, soaStep, h.byte_eq]
  refine (Agree.refl (fun a b => a = b) fun _ _ => rfl).bind fun length _ hlength _ heq => ?_
  obtain rfl := heq
  refine (Agree.refl (fun a b => a = b) fun _ _ => rfl).bind fun stop _ hstop _ heq => ?_
  obtain rfl := heq
  have hpos := (tokenByteLength_eq_ok.mp hlength).2
  have hlt : rows.cursor < stop := by
    rw [checkedAdd_eq_ok hstop]
    omega
  by_cases hin : stop ≤ utf8Len text
  · obtain ⟨hnone, hstarts, hends, hI⟩ := h.built (by omega)
    obtain ⟨cursor', hpushed, hI'⟩ := hspan s.cursor rows.cursor stop hI hlt hin
    rw [hnone, hpushed]
    refine ⟨rfl, fun _ => ⟨rfl, ?_, ?_, hI'⟩⟩
    · rw [hstarts, List.map_append, List.map_append]
      rfl
    · rw [hends, List.map_append, List.map_append]
      rfl
  · -- the pass goes on only to count bytes
    have hbuilt {t : Soa σ} (ht : t.byte = stop) : InStep text I ⟨rows.intervals ++ [(rows.cursor, stop)], stop⟩ t :=
      ⟨ht, fun hle => absurd hle hin⟩
    split_ifs with hdeferred
    · exact hbuilt rfl
    · obtain ⟨pushed, cursor'⟩ := span s.cursor rows.cursor stop
      cases pushed with
      | error e => exact hbuilt rfl
      | ok p => exact hbuilt rfl

/-- A pass builds the two rows of the spans of the byte ranges. -/
theorem soaPass_eq {cursor : σ}
    (hspan : ∀ cursor byte stop, I cursor byte → byte < stop → stop ≤ utf8Len text →
      ∃ cursor', span cursor byte stop = (.ok (byteSpan text (byte, stop)), cursor') ∧
        I cursor' stop)
    (hstart : I cursor 0) :
    soaPass span cursor ids byteLengths (utf8Len text) =
      (closedRows ids byteLengths text).map fun rows =>
        (rows.intervals.map (byteSpan text)).unzip := by
  have hloop : Agree (InStep text I) (ids.foldlM (rowStep byteLengths) ⟨[], 0⟩)
      (ids.foldlM (soaStep span byteLengths) ⟨cursor, 0, [], [], none⟩) :=
    Agree.foldlM ids ⟨rfl, fun _ => ⟨rfl, rfl, rfl, hstart⟩⟩
      fun id _ _ _ h => soaStep_inStep hspan h id
  refine map_closedRows hloop (fun rows s h hcursor => ?_) fun rows s h hcursor => ?_
  · rw [h.byte_eq, if_pos hcursor]
  · obtain ⟨hnone, hstarts, hends, -⟩ := h.built hcursor.le
    rw [h.byte_eq, if_neg (not_ne_iff.mpr hcursor), hnone, hstarts, hends, List.unzip_eq_map]

end Pass

theorem asciiSpan_of_le (hlength : text.length < 2 ^ 32) (hascii : isAscii text = true)
    {byte stop : ℕ} (hlt : byte < stop) (hle : stop ≤ utf8Len text) :
    asciiSpan () byte stop = (.ok (byteSpan text (byte, stop)), ()) :=
  Prod.ext (asciiInterval_of_le hlength hascii (a := (byte, stop)) hlt hle) rfl

/-- The reader finds both ends of a byte range, and has not passed the end. -/
theorem pushUnicodeSpan_of_le (hlength : text.length < 2 ^ 32) {cursor : CharReader}
    (hon : cursor.On text) {byte stop : ℕ} (hstart : cursor.start ≤ byte) (hlt : byte < stop)
    (hle : stop ≤ utf8Len text) :
    ∃ cursor', pushUnicodeSpan cursor byte stop = (.ok (byteSpan text (byte, stop)), cursor') ∧
      cursor'.On text ∧ cursor'.start ≤ stop := by
  obtain ⟨hon', hle', -⟩ := CharReader.on_seek hon byte
  have hstart' := (hle' hstart).trans (show byte ≤ stop - 1 by omega)
  obtain ⟨hon'', hle'', -⟩ := CharReader.on_seek hon' (stop - 1)
  have := hle'' hstart'
  refine ⟨_, ?_, hon'', by omega⟩
  rw [pushUnicodeSpan, CharReader.charContaining_of_lt hon hstart (by omega)]
  dsimp only
  rw [CharReader.charContaining_of_lt hon' hstart' (by omega)]
  exact Prod.ext (u32Span_byteSpan hlength (a := (byte, stop)) hlt hle) rfl

/-- The two rows are those of the spans of the byte ranges. -/
theorem spansSoaFromIds_eq (hlength : text.length < 2 ^ 32) (hids : ids ≠ []) :
    spansSoaFromIds ids byteLengths text =
      (closedRows ids byteLengths text).map fun rows =>
        (rows.intervals.map (byteSpan text)).unzip := by
  rw [spansSoaFromIds, if_neg hids]
  split_ifs with hascii
  · exact soaPass_eq (I := fun _ _ => True)
      (fun _ _ _ _ hlt hle => ⟨(), asciiSpan_of_le hlength hascii hlt hle, trivial⟩) trivial
  · have hne : text ≠ [] := by
      rintro rfl
      exact hascii rfl
    have hon : (charCursor text).On text := CharReader.on_new (n := 0) (List.length_pos_of_ne_nil hne)
    exact soaPass_eq (I := fun cursor byte => cursor.On text ∧ cursor.start ≤ byte)
      (fun _ _ _ h hlt hle => pushUnicodeSpan_of_le hlength h.1 h.2 hlt hle)
      ⟨hon, (CharReader.start_new text 0 0).le⟩

end Rows

/-- On a text of fewer than `2 ^ 32` characters, the three programs accept the same ids and refuse
the others with the same error, and the spans are those of the bytes of the ids. -/
theorem spanBuilders_agree (ids : List UInt32) (byteLengths : List ℕ) (text : Text)
    (hlength : text.length ≤ 2 ^ 32 - 1) :
    idsCloseOverText ids byteLengths text =
        (spansFromIds ids byteLengths text).map (fun _ => ()) ∧
      spansSoaFromIds ids byteLengths text =
        (spansFromIds ids byteLengths text).map List.unzip ∧
      ∀ spans, spansFromIds ids byteLengths text = .ok spans →
        ∃ lengths, TokenLengths byteLengths ids lengths ∧ lengths.sum = utf8Len text ∧
          spans = directSpans text lengths := by
  have hlt : text.length < 2 ^ 32 := by omega
  by_cases hids : ids = []
  · subst hids
    by_cases htext : text = []
    · subst htext
      exact ⟨rfl, rfl, fun _ h => ⟨[], .nil, rfl, (Except.ok.inj h).symm⟩⟩
    · have herror : spansFromIds [] byteLengths text = .error noIdsForText := if_neg htext
      rw [herror]
      exact ⟨if_neg htext, if_neg htext, nofun⟩
  · rw [spansFromIds_eq hlt hids, idsCloseOverText_eq hids, spansSoaFromIds_eq hlt hids]
    cases hclosed : closedRows ids byteLengths text with
    | error e => exact ⟨rfl, rfl, nofun⟩
    | ok rows =>
        refine ⟨rfl, rfl, fun spans h => ?_⟩
        obtain ⟨lengths, hlengths, hsum, hrows⟩ := closedRows_ok hclosed
        refine ⟨lengths, hlengths, hsum, ?_⟩
        rw [← Except.ok.inj h, directSpans, ← hrows]

theorem spanBuilders_agree_accent :
    idsCloseOverText [0, 1] [1, 2] "aé".toList =
        (spansFromIds [0, 1] [1, 2] "aé".toList).map (fun _ => ()) ∧
      spansSoaFromIds [0, 1] [1, 2] "aé".toList = .ok ([0, 1], [1, 2]) := by
  obtain ⟨hclose, hsoa, -⟩ := spanBuilders_agree [0, 1] [1, 2] "aé".toList (by decide)
  exact ⟨hclose, hsoa.trans (by decide +kernel)⟩

end Toktier.Routing.Reference
