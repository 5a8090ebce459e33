import Toktier.Lib.CharReader
import Toktier.StoreCore.Tail

/-!
# Lazy spans

The spans of a tail are stored as two rows, or not at all: a tail adopted with the byte lengths
of its ids keeps a checkpoint every `SPAN_CHECKPOINT_STRIDE` tokens, and rebuilds any window of
its spans from the nearest one. The rows are rebuilt and kept when all of them are asked for, and
before the tail is spliced.

A `TailState` holds its spans in any case; it is what a stored tail stands for.

## Main definitions

* `buildSpanCheckpoints`, `rebuildSpanWindow`: the scan of a fill, and the spans of a window.
* `StoredTail`, with `fill`, `fillLazy`, `spanWindow`, `forcedSpans` and `splice`.
* `TailOp`, `StoredTail.run`: operations on a tail one after another.
* `TailState.splice`: what a splice does to the tail.
-/
namespace Toktier.StoreCore

open Toktier.Lib Toktier.Lib.Utf8

/-! ## Checkpoints -/

/-- Token stride between checkpoints. -/
def SPAN_CHECKPOINT_STRIDE : ℕ := 4096

/-- The position of the token of a checkpoint in the text: its first byte, and the start and the
number of the character of that byte. -/
structure SpanCheckpoint where
  byte : ℕ
  anchorByte : ℕ
  anchorChar : ℕ

/-- The byte length of an id under a table. -/
def lazyTokenLen (table : List ℕ) (id : UInt32) : Except StoreError ℕ :=
  match table[id.toNat]? with
  | some length =>
      if length > 0 then .ok length
      else .error (.InvalidInput s!"lazy span table maps id {id} to zero bytes")
  | none => .error (.InvalidInput s!"lazy span table has no entry for id {id}")

/-- The byte lengths of ids under a table; no id stands for no bytes. -/
def TokenLengths (table : List ℕ) : List UInt32 → List ℕ → Prop :=
  List.Forall₂ fun id length => table[id.toNat]? = some length ∧ 0 < length

theorem TokenLengths.pos {table lengths : List ℕ} {ids : List UInt32}
    (h : TokenLengths table ids lengths) : ∀ n ∈ lengths, 0 < n := by
  induction h with
  | nil => nofun
  | cons hn _ ih => exact List.forall_mem_cons.mpr ⟨hn.2, ih⟩

/-- A 64-bit sum. -/
def byteAdd (byte length : ℕ) (overflow : StoreError) : Except StoreError ℕ :=
  if byte + length < 2 ^ 64 then .ok (byte + length) else .error overflow

/-- The reader of a scan; it stays at the last character when the text ends. -/
def charWalker (text : Text) : CharReader := CharReader.new text 0 0

/-- Start and number of the character of the byte. -/
def anchorAt (walker : CharReader) (byte : ℕ) : (ℕ × ℕ) × CharReader :=
  let walker := walker.seek byte
  ((walker.start, walker.index), walker)

structure CheckpointScan where
  index : ℕ
  walker : CharReader
  byte : ℕ
  checkpoints : List SpanCheckpoint

/-- The checkpoint of a token, if it has one. -/
def CheckpointScan.mark (s : CheckpointScan) (ascii : Bool) : CheckpointScan :=
  if s.index % SPAN_CHECKPOINT_STRIDE = 0 then
    if ascii then
      { s with checkpoints := s.checkpoints ++ [⟨s.byte, s.byte, s.byte % 2 ^ 32⟩] }
    else
      let ((anchorByte, anchorChar), walker) := anchorAt s.walker s.byte
      { s with walker, checkpoints := s.checkpoints ++ [⟨s.byte, anchorByte, anchorChar⟩] }
  else s

def checkpointStep (ascii : Bool) (table : List ℕ) (s : CheckpointScan) (id : UInt32) :
    Except StoreError CheckpointScan := do
  let s := s.mark ascii
  let length ← lazyTokenLen table id
  let byte ← byteAdd s.byte length (.InvalidInput "lazy span byte cursor overflow")
  .ok { s with index := s.index + 1, byte }

/-- Check that every id has bytes and that the row closes over the text, and record the
checkpoints. -/
def buildSpanCheckpoints (text : Text) (textChars : ℕ) (ids : List UInt32) (table : List ℕ) :
    Except StoreError (List SpanCheckpoint) := do
  let ascii : Bool := utf8Len text = textChars
  let s ← ids.foldlM (checkpointStep ascii table) ⟨0, charWalker text, 0, []⟩
  if s.byte ≠ utf8Len text then
    .error (.InvalidInput (s!"lazy span payload does not close over the text: tokens={s.byte}, " ++
      s!"text={utf8Len text}"))
  else .ok s.checkpoints

/-! ## Windows -/

def outside : StoreError := .Internal "lazy span rebuild left the validated text"

/-- What the rebuild of a window has built. -/
structure WindowScan (σ : Type) where
  cursor : σ
  byte : ℕ
  starts : List ℕ
  ends : List ℕ

/-- Pass one token before the window. -/
def skipStep (table : List ℕ) (byte : ℕ) (id : UInt32) : Except StoreError ℕ := do
  let length ← lazyTokenLen table id
  byteAdd byte length outside

/-- One token of the window; `span` is what the rebuild does for the span of a byte range. -/
def windowStep {σ : Type} (span : σ → ℕ → ℕ → Except StoreError ((ℕ × ℕ) × σ)) (table : List ℕ)
    (s : WindowScan σ) (id : UInt32) : Except StoreError (WindowScan σ) := do
  let length ← lazyTokenLen table id
  let stop ← byteAdd s.byte length outside
  let ((start, last), cursor) ← span s.cursor s.byte stop
  .ok ⟨cursor, stop, s.starts ++ [start], s.ends ++ [last]⟩

/-- Byte positions are character positions; these are 32-bit. -/
def asciiWindowSpan (textLen : ℕ) (_ : Unit) (start stop : ℕ) :
    Except StoreError ((ℕ × ℕ) × Unit) :=
  if stop > textLen then .error outside else .ok ((start % 2 ^ 32, stop % 2 ^ 32), ())

/-- The reader from a checkpoint on. -/
def anchoredCharCursor (text : Text) (baseByte baseChar : ℕ) : Decode StoreError CharReader := do
  let rest ← strFrom text baseByte
  return CharReader.new rest baseByte baseChar

def anchoredWindowSpan (cursor : CharReader) (start stop : ℕ) :
    Except StoreError ((ℕ × ℕ) × CharReader) :=
  match cursor.charContaining start with
  | (none, _) => .error outside
  | (some startChar, cursor) =>
      match cursor.charContaining (stop - 1) with
      | (none, _) => .error outside
      | (some lastChar, cursor) =>
          if lastChar + 1 < 2 ^ 32 then .ok ((startChar, lastChar + 1), cursor)
          else .error outside

/-- Rebuild the spans of tokens `[lo, hi)` from the nearest checkpoint. -/
def rebuildSpanWindow (text : Text) (textChars : ℕ) (table : List ℕ)
    (checkpoints : List SpanCheckpoint) (ids : List UInt32) (lo hi : ℕ) :
    Decode StoreError (List ℕ × List ℕ) :=
  if lo = hi then .ok ([], [])
  else
    let cpIndex := lo / SPAN_CHECKPOINT_STRIDE
    match checkpoints[cpIndex]? with
    | none =>
        .error (.Reject (.Internal "lazy span state is missing a required checkpoint"))
    | some cp => do
        let before := (ids.take lo).drop (cpIndex * SPAN_CHECKPOINT_STRIDE)
        let byte ← checked (before.foldlM (skipStep table) cp.byte)
        let inside := (ids.take hi).drop lo
        if utf8Len text = textChars then
          let s ← checked (inside.foldlM (windowStep (asciiWindowSpan (utf8Len text)) table)
            ⟨(), byte, [], []⟩)
          return (s.starts, s.ends)
        else
          let cursor ← anchoredCharCursor text cp.anchorByte cp.anchorChar
          let s ← checked (inside.foldlM (windowStep anchoredWindowSpan table) ⟨cursor, byte, [], []⟩)
          return (s.starts, s.ends)

/-! ## Stored tails -/

/-- How the spans of a tail are stored; `cache` are the rows once all of them were asked for. -/
inductive TailSpans
  | Materialized (starts ends : List ℕ)
  | Lazy (table : List ℕ) (checkpoints : List SpanCheckpoint) (cache : Option (List ℕ × List ℕ))

def charsU32 (text : Text) : Except StoreError ℕ :=
  if text.length < 2 ^ 32 then .ok text.length
  else .error (.InvalidInput "text exceeds u32 character capacity")

/-- One span for each id, and every span is ordered and stays within the text. -/
def Encoding.validate (enc : Encoding) (textChars : ℕ) : Except StoreError Unit :=
  if enc.ids.length ≠ enc.spans.length then
    .error (.InvalidInput
      s!"ids/spans length mismatch: {enc.ids.length} != {enc.spans.length}")
  else validateSpanArrays textChars 0 enc.spans

/-- Tokens `[lo, hi)` of both rows. -/
def rowsWindow (rows : List ℕ × List ℕ) (lo hi : ℕ) : List ℕ × List ℕ :=
  ((rows.1.take hi).drop lo, (rows.2.take hi).drop lo)

/-- A tail as it is stored. -/
structure StoredTail where
  text : Text
  textChars : ℕ
  tailIds : TailIds
  spans : TailSpans

namespace StoredTail

def ids (t : StoredTail) : List UInt32 := t.tailIds.asSlice

/-- A tail of `text` and its encoding. -/
def fill (text : Text) (enc : Encoding) : Except StoreError StoredTail := do
  let chars ← charsU32 text
  enc.validate chars
  .ok ⟨text, chars, .Owned enc.ids, .Materialized (enc.spans.map Prod.fst) (enc.spans.map Prod.snd)⟩

/-- A tail of `text` and a shared row of ids, whose spans are rebuilt when they are asked for. -/
def fillLazy (text : Text) (ids : SharedIds) (tokenByteLengths : List ℕ) :
    Except StoreError StoredTail := do
  let chars ← charsU32 text
  let checkpoints ← buildSpanCheckpoints text chars ids.asSlice tokenByteLengths
  .ok ⟨text, chars, .Shared ids, .Lazy tokenByteLengths checkpoints none⟩

/-- The spans are in memory. -/
def spansMaterialized (t : StoredTail) : Bool :=
  match t.spans with
  | .Materialized _ _ => true
  | .Lazy _ _ cache => cache.isSome

/-- Character spans of tokens `[lo, hi)`. -/
def spanWindow (t : StoredTail) (lo hi : ℕ) : Decode StoreError (List ℕ × List ℕ) :=
  if lo > hi ∨ hi > t.ids.length then
    .error (.Reject (.InvalidInput
      s!"span window [{lo}, {hi}) is outside the token count {t.ids.length}"))
  else
    match t.spans with
    | .Materialized starts ends => .ok (rowsWindow (starts, ends) lo hi)
    | .Lazy _ _ (some rows) => .ok (rowsWindow rows lo hi)
    | .Lazy table checkpoints none =>
        rebuildSpanWindow t.text t.textChars table checkpoints t.ids lo hi

/-- All spans; a tail that does not have them rebuilds and keeps them, and panics if it cannot. -/
def forcedSpans (t : StoredTail) : Decode StoreError ((List ℕ × List ℕ) × StoredTail) :=
  match t.spans with
  | .Materialized starts ends => .ok ((starts, ends), t)
  | .Lazy _ _ (some rows) => .ok (rows, t)
  | .Lazy table checkpoints none =>
      match rebuildSpanWindow t.text t.textChars table checkpoints t.ids 0 t.ids.length with
      | .ok rows => .ok (rows, { t with spans := .Lazy table checkpoints (some rows) })
      | .error _ => .error .Panic

/-- Truncate the tokens to `cutIdx`, then append to the text and to the tokens. -/
def splice (t : StoredTail) (cutIdx : ℕ) (deltaText : Text) (new : Encoding) :
    Decode StoreError StoredTail :=
  if cutIdx > t.ids.length then
    .error (.Reject (.InvalidInput
      s!"splice cut index {cutIdx} exceeds token count {t.ids.length}"))
  else if 2 ^ 32 ≤ deltaText.length ∨ 2 ^ 32 ≤ t.textChars + deltaText.length then
    .error (.Reject (.InvalidInput "text exceeds u32 character capacity"))
  else do
    let added := t.textChars + deltaText.length
    checked (new.validate added)
    let ((starts, ends), t) ← t.forcedSpans
    .ok ⟨t.text ++ deltaText, added, .Owned (t.ids.take cutIdx ++ new.ids),
      .Materialized (starts.take cutIdx ++ new.spans.map Prod.fst)
        (ends.take cutIdx ++ new.spans.map Prod.snd)⟩

end StoredTail

/-! ## Runs -/

/-- What is asked of the spans of a tail. -/
inductive SpanRead
  | Window (lo hi : ℕ)
  | All

/-- A read, or a splice. -/
inductive TailOp
  | Read (read : SpanRead)
  | Splice (cutIdx : ℕ) (deltaText : Text) (new : Encoding)

namespace StoredTail

/-- What a read answers, and the tail behind it. -/
def read (t : StoredTail) : SpanRead → Decode StoreError (List ℕ × List ℕ) × StoredTail
  | .Window lo hi => (t.spanWindow lo hi, t)
  | .All =>
      match t.forcedSpans with
      | .ok (rows, t) => (.ok rows, t)
      | .error e => (.error e, t)

/-- What an operation answers, and the tail behind it; a splice has no rows to answer with. -/
def step (t : StoredTail) : TailOp → Decode StoreError (List ℕ × List ℕ) × StoredTail
  | .Read read => t.read read
  | .Splice cutIdx deltaText new =>
      match t.splice cutIdx deltaText new with
      | .ok t => (.ok ([], []), t)
      | .error e => (.error e, t)

/-- The answers of operations one after another, and the tail behind them. -/
def run (t : StoredTail) : List TailOp → List (Decode StoreError (List ℕ × List ℕ)) × StoredTail
  | [] => ([], t)
  | op :: ops =>
      let (answer, t) := t.step op
      let (answers, t) := t.run ops
      (answer :: answers, t)

end StoredTail

/-! ## What a stored tail stands for -/

theorem validate_ok {enc : Encoding} {textChars : ℕ} :
    enc.validate textChars = .ok () ↔
      enc.ids.length = enc.spans.length ∧ SpansWithin textChars enc.spans := by
  rw [Encoding.validate]
  split_ifs with hlength
  · exact iff_of_false nofun fun h => hlength h.1
  · rw [validateSpanArrays_ok]
    exact (and_iff_right (not_ne_iff.mp hlength)).symm

/-- Truncate the tokens to `cutIdx`, then append to the text and to the tokens. -/
def TailState.splice (t : TailState) (cutIdx : ℕ) (deltaText : Text) (new : Encoding) :
    Except StoreError TailState :=
  if cutIdx > t.nTokens then
    .error (.InvalidInput s!"splice cut index {cutIdx} exceeds token count {t.nTokens}")
  else if hc : t.textChars + deltaText.length < 2 ^ 32 then
    match hv : new.validate (t.textChars + deltaText.length) with
    | .error e => .error e
    | .ok _ => .ok
        { text := t.text ++ deltaText
          tailIds := .Owned (t.ids.take cutIdx ++ new.ids)
          spanStarts := t.spanStarts.take cutIdx ++ new.spans.map Prod.fst
          spanEnds := t.spanEnds.take cutIdx ++ new.spans.map Prod.snd
          chars_lt := by rwa [List.length_append]
          starts_length := by
            rw [List.length_append, List.length_take, t.starts_length, List.length_map,
              ← (validate_ok.mp hv).1]
            exact (List.length_append.trans (by rw [List.length_take]; rfl)).symm
          ends_length := by
            rw [List.length_append, List.length_take, t.ends_length, List.length_map,
              ← (validate_ok.mp hv).1]
            exact (List.length_append.trans (by rw [List.length_take]; rfl)).symm
          spans_within := by
            have hrows : (t.spanStarts.take cutIdx).length = (t.spanEnds.take cutIdx).length := by
              rw [List.length_take, List.length_take, t.starts_length, t.ends_length]
            rw [List.zip_append hrows, List.length_append]
            rintro p hp
            obtain hp | hp := List.mem_append.mp hp
            · rw [List.zip, ← List.take_zipWith] at hp
              have := t.spans_within p (List.mem_of_mem_take hp)
              omega
            · rw [List.zip_map', List.map_id''] at hp
              · exact (validate_ok.mp hv).2 p hp
              · exact fun _ => rfl }
  else .error (.InvalidInput "text exceeds u32 character capacity")

end Toktier.StoreCore
