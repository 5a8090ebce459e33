import Toktier.Routing.Boundary

/-!
# Append repair

An append re-encodes a window at the end of the old text together with the new text, looks
for a run of tokens that the old encoding and the window's share, and joins the two behind
that run. A run is accepted when it is long enough and has a boundary the synchronizing
predicate accepts. When no window has such a run, the reference encodes the whole text.

The window encoder is the accelerated engine: the ids are its own, and the spans follow from
the byte lengths of the vocabulary. Request counters are left out.

## Main definitions

* `FastRepairSpec`, `ReferenceEngine`, `FastCpuEngine`: the parts of the engine.
* `spansFromIds`, `windowEncoding`: the window encoder.
* `buildRecords`, `findMatch`, `accepted`: the run, and when it may be used.
* `repairAppend`: the append.
-/
namespace Toktier.Routing

open Toktier.Lib Toktier.StoreCore

/-! ## The engine -/

/-- Frozen artifact-specific repair parameters. -/
structure FastRepairSpec where
  margin : ℕ
  effectiveLMax : ℕ
  hasNormalizer : Bool
  windowChars : ℕ
  maxRetries : ℕ
  minMatchTokens : ℕ

/-- The reference engine, as far as the repair uses it. -/
structure ReferenceEngine where
  encodeCore : Text → Except EngineError Encoding
  normalize : Text → Except EngineError Text
  rawByteLengths : Except EngineError (List ℕ)

/-- One corrected CPU engine; `gigatoken` is the id row of the accelerated encoder. -/
structure FastCpuEngine where
  spec : FastRepairSpec
  reference : ReferenceEngine
  boundary : BpeSyncBoundary
  gigatoken : Text → List UInt32

/-! ## Spans -/

/-- The byte length of one vocabulary id. -/
def tokenByteLength (byteLengths : List ℕ) (id : UInt32) : Except EngineError ℕ :=
  match byteLengths[id.toNat]? with
  | none => .error ⟨s!"tokenizer returned unknown id {id}"⟩
  | some length =>
      if length = 0 then .error ⟨s!"tokenizer returned zero-byte vocabulary id {id}"⟩
      else .ok length

/-- The byte interval of each token, from byte `cursor` on, and where the last one ends. -/
def byteIntervals (byteLengths : List ℕ) :
    ℕ → List UInt32 → Except EngineError (List (ℕ × ℕ) × ℕ)
  | cursor, [] => .ok ([], cursor)
  | cursor, id :: ids => do
      let length ← tokenByteLength byteLengths id
      let (rows, last) ← byteIntervals byteLengths (cursor + length) ids
      .ok ((cursor, cursor + length) :: rows, last)

/-- For each byte of a text, the number of its character. -/
def charOfByte (text : Text) : List ℕ :=
  text.zipIdx.flatMap fun c => List.replicate c.1.utf8Size c.2

/-- The characters a byte interval touches. -/
def charSpan (chars : List ℕ) (interval : ℕ × ℕ) : Except EngineError (ℕ × ℕ) :=
  match chars[interval.1]?, chars[interval.2 - 1]? with
  | none, _ => .error ⟨"token start is outside the UTF-8 input"⟩
  | _, none => .error ⟨"token end is outside the UTF-8 input"⟩
  | some start, some last =>
      if start < 2 ^ 32 ∧ last + 1 < 2 ^ 32 then .ok (start, last + 1)
      else .error ⟨"span exceeds u32"⟩

/-- Character spans from the byte lengths of the ids, which must close over the text. -/
def spansFromIds (ids : List UInt32) (byteLengths : List ℕ) (text : Text) :
    Except EngineError (List (ℕ × ℕ)) :=
  if ids = [] then
    if text = [] then .ok [] else .error ⟨"tokenizer returned no ids for non-empty text"⟩
  else do
    let (rows, last) ← byteIntervals byteLengths 0 ids
    if last ≠ utf8Len text then
      .error ⟨s!"token bytes do not close: tokens={last}, text={utf8Len text}"⟩
    else rows.mapM (charSpan (charOfByte text))

namespace FastCpuEngine

variable (eng : FastCpuEngine)

/-- The bytes of the tokens describe the text itself only if the normalizer leaves it. -/
def requireByteIdentity (text : Text) : Except EngineError Unit :=
  if eng.spec.hasNormalizer = true ∧ ¬text.all (fun c => c.val < 128) then do
    let normalized ← eng.reference.normalize text
    if normalized ≠ text then
      .error ⟨"the repair window is not invariant under the certified normalizer"⟩
    else .ok ()
  else .ok ()

/-- Encode one window with the accelerated engine. -/
def windowEncoding (text : Text) : Except EngineError Encoding := do
  eng.requireByteIdentity text
  let ids := eng.gigatoken text
  let byteLengths ← eng.reference.rawByteLengths
  let spans ← spansFromIds ids byteLengths text
  .ok ⟨ids, spans⟩

end FastCpuEngine

/-- Characters `[start, stop)` of a text. -/
def sliceChars (text : Text) (start stop : ℕ) : Option Text :=
  if start > stop then none
  else if stop > text.length then none
  else some ((text.take stop).drop start)

/-! ## The common run -/

structure Record where
  originalIndex : ℕ
  globalStart : ℕ
  globalEnd : ℕ
  tokenId : UInt32
  sameSpanOrdinal : ℕ
  deriving DecidableEq

structure Match where
  leftStart : ℕ
  rightStart : ℕ
  length : ℕ
  coveredChars : ℕ
  deriving DecidableEq

/-- The records of the tokens from number `index` on; `seen` are the spans of the records
before them. -/
def recordsFrom (base overlapStart overlapEnd : ℕ) :
    ℕ → List (ℕ × ℕ) → List (UInt32 × ℕ × ℕ) → List Record
  | _, _, [] => []
  | index, seen, (id, localStart, localEnd) :: rest =>
      let start := base + localStart
      let stop := base + localEnd
      if start = stop ∨ start < overlapStart ∨ stop > overlapEnd then
        recordsFrom base overlapStart overlapEnd (index + 1) seen rest
      else
        ⟨index, start, stop, id, seen.count (start, stop)⟩ ::
          recordsFrom base overlapStart overlapEnd (index + 1) (seen ++ [(start, stop)]) rest

/-- The tokens within the overlap, with the place of each among those of the same span. -/
def buildRecords (ids : List UInt32) (spans : List (ℕ × ℕ)) (base overlapStart overlapEnd : ℕ) :
    Except EngineError (List Record) :=
  if ids.length ≠ spans.length then
    .error ⟨s!"ids/spans length mismatch: {ids.length} != {spans.length}"⟩
  else .ok (recordsFrom base overlapStart overlapEnd 0 [] (ids.zip spans))

def recordKey (r : Record) : ℕ × ℕ × ℕ × UInt32 :=
  (r.globalStart, r.globalEnd, r.sameSpanOrdinal, r.tokenId)

/-- How far the run that begins with `l₀` and `r₀` goes; `length` records of it are known. -/
def runLength (l₀ r₀ : Record) : ℕ → List Record → List Record → ℕ
  | length, l :: ls, r :: rs =>
      if l.originalIndex = l₀.originalIndex + length ∧
          r.originalIndex = r₀.originalIndex + length ∧ recordKey l = recordKey r then
        runLength l₀ r₀ (length + 1) ls rs
      else length
  | length, _, _ => length

/-- Where the last record of a run ends. -/
def runEnd (left : List Record) (index : ℕ) : ℕ := (left[index]?.map Record.globalEnd).getD 0

/-- Pairs of positions are compared component by component. -/
theorem lawfulBEq_positions : LawfulBEq (ℕ × ℕ) := inferInstance

attribute [local instance] lawfulBEq_positions

/-- The search for the best run: the best so far, and the pairs that a run has covered. -/
structure MatchSearch where
  best : Option Match
  covered : List (ℕ × ℕ)

/-- Follow the run from one pair of equal records, unless an earlier run has covered it. -/
def MatchSearch.tryPair (left right : List Record) (l : Record × ℕ) (st : MatchSearch)
    (r : Record × ℕ) : MatchSearch :=
  if (l.2, r.2) ∈ st.covered then st
  else
    let length := runLength l.1 r.1 1 (left.drop (l.2 + 1)) (right.drop (r.2 + 1))
    let candidate : Match :=
      ⟨l.1.originalIndex, r.1.originalIndex, length,
        runEnd left (l.2 + length - 1) - l.1.globalStart⟩
    let best :=
      match st.best with
      | none => candidate
      | some current =>
          if current.length < candidate.length ∨ (current.length = candidate.length ∧
              current.coveredChars < candidate.coveredChars) then candidate
          else current
    ⟨some best, st.covered ++ (List.range' 1 (length - 1)).map fun n => (l.2 + n, r.2 + n)⟩

/-- The longest common run; of two that are equally long, the one that covers more. -/
def findMatch (left right : List Record) : Option Match :=
  (left.zipIdx.foldl (fun st l =>
    (right.zipIdx.filter fun r => recordKey r.1 = recordKey l.1).foldl
      (MatchSearch.tryPair left right l) st) (⟨none, []⟩ : MatchSearch)).best

namespace FastCpuEngine

variable (eng : FastCpuEngine)

/-- Some token of the run but the first begins at an accepted boundary of the text. -/
def hasSyncWitness (matched : Match) (spans : List (ℕ × ℕ)) (text : Text) : Bool :=
  (List.range' matched.leftStart (matched.length - 1)).any fun index =>
    match spans[index + 1]? with
    | none => false
    | some span =>
        if span.1 = 0 ∨ span.1 ≥ text.length then false
        else
          match text[span.1 - 1]?, text[span.1]? with
          | some previous, some current => eng.boundary.accepts previous current
          | _, _ => false

/-- The number of characters that a run covers, after normalization if there is any. -/
def coveredChars (matched : Match) (spans : List (ℕ × ℕ)) (text : Text) : Option ℕ :=
  if eng.spec.hasNormalizer = true then
    match spans[matched.leftStart]?, spans[matched.leftStart + matched.length - 1]? with
    | some first, some last =>
        match sliceChars text first.1 last.2 with
        | none => none
        | some slice =>
            match eng.reference.normalize slice with
            | .error _ => none
            | .ok normalized => some normalized.length
    | _, _ => none
  else some matched.coveredChars

/-- A run may be used: it is long enough and has a synchronizing boundary. -/
def accepted (matched : Match) (spans : List (ℕ × ℕ)) (text : Text) : Bool :=
  if matched.length < eng.spec.minMatchTokens then false
  else
    match eng.coveredChars matched spans text with
    | none => false
    | some covered => decide (covered > eng.spec.effectiveLMax) && eng.hasSyncWitness matched spans text

/-! ## The append -/

/-- `StoreError::to_string`, for the errors of a fill. -/
def fillError : StoreError → EngineError
  | .InvalidInput msg => ⟨"[INVALID_ARGUMENT] invalid input: " ++ msg⟩
  | _ => ⟨""⟩

/-- Fill the tail with a whole new encoding. -/
def fill (text : Text) (encoding : Encoding) : Except EngineError TailState :=
  (TailState.fill text encoding).mapError fillError

/-- What an append leaves: its report, the tail, and the bytes of the repair window. -/
structure Appended where
  report : AppendReport
  tail : TailState
  repairInputBytes : Option ℕ

/-- Encode the whole text with the reference. -/
def fullReencode (full : Text) (path : String) : Except EngineError Appended := do
  let encoded ← eng.reference.encodeCore full
  let tail ← fill full encoded
  .ok ⟨⟨path, 0⟩, tail, none⟩

/-- The old tokens up to the end of the run, and those of the window behind it. -/
def join (tail : TailState) (window : Encoding) (windowStart : ℕ) (matched : Match) : Encoding where
  ids := tail.ids.take (matched.leftStart + matched.length) ++
    window.ids.drop (matched.rightStart + matched.length)
  spans := tail.spans.take (matched.leftStart + matched.length) ++
    (window.spans.drop (matched.rightStart + matched.length)).map fun s =>
      (s.1 + windowStart, s.2 + windowStart)

/-- The best run of the old encoding and of the one of a window, if it may be used. -/
def usableMatch (tail : TailState) (full : Text) (windowStart : ℕ) (window : Encoding) :
    Except EngineError (Option Match) := do
  let overlapStart := windowStart + eng.spec.margin
  let left ← buildRecords tail.ids tail.spans 0 overlapStart tail.textChars
  let right ← buildRecords window.ids window.spans windowStart overlapStart tail.textChars
  match findMatch left right with
  | none => .ok none
  | some matched => .ok (if eng.accepted matched tail.spans full = true then some matched else none)

/-- Try windows of growing size; `retries` of them are left after this one. -/
def repairLoop (tail : TailState) (full : Text) (retries window : ℕ) :
    Except EngineError Appended :=
  if window < tail.textChars then
    let windowStart := tail.textChars - window
    match sliceChars full windowStart full.length with
    | none => eng.fullReencode full "hf_full_window_covers_all"
    | some windowText =>
        match eng.windowEncoding windowText with
        | .error _ => eng.fullReencode full "hf_full_engine_guard"
        | .ok encoded => do
            match ← eng.usableMatch tail full windowStart encoded with
            | some matched =>
                let filled ← fill full (join tail encoded windowStart matched)
                .ok ⟨⟨"gigatoken_repair", matched.leftStart + matched.length⟩, filled,
                  some (utf8Len windowText)⟩
            | none =>
                match retries with
                | 0 => eng.fullReencode full "hf_full_no_safe_cut"
                | retries + 1 => repairLoop tail full retries (min (window * 2) (2 ^ 64 - 1))
  else eng.fullReencode full "hf_full_window_covers_all"

/-- Extend the tail by `delta`. -/
def repairAppend (tail : TailState) (delta : Text) : Except EngineError Appended :=
  if delta = [] then .ok ⟨⟨"gigatoken_repair_noop", tail.nTokens⟩, tail, none⟩
  else
    let full := tail.text ++ delta
    if tail.ids.length ≠ tail.spans.length then
      eng.fullReencode full "hf_full_invalid_prior_state"
    else eng.repairLoop tail full eng.spec.maxRetries eng.spec.windowChars

end FastCpuEngine

end Toktier.Routing
