import Toktier.Routing.Repair

/-!
# Append repair in Python

The same append, as the Python face has it: a callback that the session's encoder calls with the
text, ids and spans of its tail. The normalizer is total, and so is the window engine. An index
that is out of range raises an exception which the guard around a window does not catch.

## Main definitions

* `GigatokenRepair`: the adapter, with `call`.
* `GigatokenRepair.native`: the native engine that shares all its parts.
* `GigatokenRepair.append`: the callback in a session.
-/
namespace Toktier.Routing

open Toktier.Lib Toktier.StoreCore

attribute [local instance] lawfulBEq_positions

/-! ## The adapter -/

/-- What a call of the adapter raises. -/
inductive PyError
  /-- The one kind that is caught around a window. -/
  | WindowUnsupported (message : String)
  | IndexError
  /-- The reference has raised it. -/
  | Reference (e : EngineError)

/-- The callable append adapter. -/
structure GigatokenRepair where
  spec : FastRepairSpec
  engine : Text → List UInt32
  referenceEncode : Text → Except EngineError Encoding
  normalizer : Option (Text → Text)
  byteLengths : List ℕ
  pclass : Char → CharClass
  /-- The constructor refuses a family whose certificate says otherwise. -/
  normalizer_iff : spec.hasNormalizer = normalizer.isSome

/-- What an append returns: ids, spans, the number of kept tokens and the path. -/
structure PyAppended where
  ids : List UInt32
  spans : List (ℕ × ℕ)
  keptTokens : ℕ
  path : String
  deriving DecidableEq

/-! ## Spans -/

namespace Py

def isascii (text : Text) : Bool := text.all fun c => c.val < 128

/-- The byte interval of each token, from byte `cursor` on, and where the last one ends. -/
def byteIntervals (byteLengths : List ℕ) :
    ℕ → List UInt32 → Except PyError (List (ℕ × ℕ) × ℕ)
  | cursor, [] => .ok ([], cursor)
  | cursor, id :: ids =>
      match byteLengths[id.toNat]? with
      | none => .error (.WindowUnsupported s!"Gigatoken returned unknown id {id}")
      | some length => do
          let (rows, last) ← byteIntervals byteLengths (cursor + length) ids
          .ok ((cursor, cursor + length) :: rows, last)

/-- Index into a list; an index below zero counts from the end. -/
def item {α : Type} (xs : List α) (index : ℤ) : Except PyError α :=
  match xs[(if index < 0 then index + xs.length else index).toNat]? with
  | some x => .ok x
  | none => .error .IndexError

/-- The characters a byte interval touches. -/
def charSpan (chars : List ℕ) (interval : ℕ × ℕ) : Except PyError (ℕ × ℕ) := do
  let start ← item chars interval.1
  let last ← item chars (interval.2 - 1)
  .ok (start, last + 1)

/-- Character spans from the byte lengths of the ids, which must close over the text. -/
def spansFromIds (ids : List UInt32) (byteLengths : List ℕ) (text : Text) :
    Except PyError (List (ℕ × ℕ)) :=
  if ids = [] then
    if text = [] then .ok []
    else .error (.WindowUnsupported "Gigatoken returned no ids for non-empty text")
  else do
    let (rows, last) ← byteIntervals byteLengths 0 ids
    if last ≠ utf8Len text then
      .error (.WindowUnsupported
        s!"window bytes do not close: tokens={last}, text={utf8Len text}")
    else if isascii text then .ok rows
    else rows.mapM (charSpan (charOfByte text))

/-! ## The common run -/

/-- The records of the tokens from number `index` on; `ordinals` counts the records before them by
their spans. -/
def recordsFrom (base overlapStart overlapEnd : ℕ) :
    ℕ → (ℕ × ℕ → ℕ) → List (UInt32 × ℕ × ℕ) → List Record
  | _, _, [] => []
  | index, ordinals, (id, localStart, localEnd) :: rest =>
      let start := base + localStart
      let stop := base + localEnd
      if start = stop ∨ start < overlapStart ∨ stop > overlapEnd then
        recordsFrom base overlapStart overlapEnd (index + 1) ordinals rest
      else
        ⟨index, start, stop, id, ordinals (start, stop)⟩ ::
          recordsFrom base overlapStart overlapEnd (index + 1)
            (Function.update ordinals (start, stop) (ordinals (start, stop) + 1)) rest

def buildRecords (ids : List UInt32) (spans : List (ℕ × ℕ)) (base overlapStart overlapEnd : ℕ) :
    Except PyError (List Record) :=
  if ids.length ≠ spans.length then
    .error (.WindowUnsupported s!"ids/spans length mismatch: {ids.length} != {spans.length}")
  else .ok (recordsFrom base overlapStart overlapEnd 0 (fun _ => 0) (ids.zip spans))

/-- A run; the number of characters that it covers is an integer. -/
structure Match where
  leftStart : ℕ
  rightStart : ℕ
  length : ℕ
  coveredChars : ℤ

/-- The best run so far, and the pairs that a run has covered. -/
structure MatchSearch where
  best : Option Match
  covered : List (ℕ × ℕ)

/-- Follow the run from one pair of equal records, unless an earlier run has covered it. -/
def MatchSearch.tryPair (left right : List Record) (l : Record × ℕ) (st : MatchSearch)
    (r : Record × ℕ) : MatchSearch :=
  if (l.2, r.2) ∈ st.covered then st
  else
    let length := runLength l.1 r.1 1 (left.drop (l.2 + 1)) (right.drop (r.2 + 1))
    let candidate : Match :=
      ⟨l.1.originalIndex, r.1.originalIndex, length,
        runEnd left (l.2 + length - 1) - l.1.globalStart⟩
    let best :=
      match st.best with
      | none => candidate
      | some current =>
          if current.length < candidate.length ∨ (current.length = candidate.length ∧
              current.coveredChars < candidate.coveredChars) then candidate
          else current
    ⟨some best, st.covered ++ (List.range' 1 (length - 1)).map fun n => (l.2 + n, r.2 + n)⟩

/-- The longest common run; of two that are equally long, the one that covers more. -/
def findMatch (left right : List Record) : Option Match :=
  (left.zipIdx.foldl (fun st l =>
    (right.zipIdx.filter fun r => recordKey r.1 = recordKey l.1).foldl
      (MatchSearch.tryPair left right l) st) (⟨none, []⟩ : MatchSearch)).best

/-- The pairs of classes between which a pre-token ends. -/
def SYNC : List (CharClass × CharClass) :=
  [(.L, .N), (.L, .O), (.L, .S), (.N, .L), (.N, .O), (.N, .S), (.O, .N), (.O, .S)]

end Py

namespace GigatokenRepair

variable (g : GigatokenRepair)

/-! ## Windows -/

/-- Prove that token byte lengths describe the original text. -/
def requireByteIdentity (text : Text) : Except PyError Unit :=
  match g.normalizer with
  | some normalize =>
      if ¬Py.isascii text ∧ normalize text ≠ text then
        .error (.WindowUnsupported
          "the repair window is not invariant under the certified normalizer")
      else .ok ()
  | none => .ok ()

def windowEncode (text : Text) : Except PyError Encoding := do
  g.requireByteIdentity text
  let ids := g.engine text
  let spans ← Py.spansFromIds ids g.byteLengths text
  .ok ⟨ids, spans⟩

/-- The synchronizing pairs, less the two carve-outs. -/
def syncs (previous current : Char) : Bool :=
  let pair := (g.pclass previous, g.pclass current)
  Py.SYNC.contains pair && !(pair == (.O, .S) && ['\r', '\n'].contains current) &&
    !(pair == (.L, .O) && current == '\'')

/-- Some token of the run but the first begins at a synchronizing boundary of the text. -/
def hasSyncWitness (matched : Py.Match) (spans : List (ℕ × ℕ)) (text : Text) : Bool :=
  (List.range' matched.leftStart (matched.length - 1)).any fun index =>
    match spans[index + 1]? with
    | none => false
    | some span =>
        if ¬(0 < span.1 ∧ span.1 < text.length) then false
        else
          match text[span.1 - 1]?, text[span.1]? with
          | some previous, some current => g.syncs previous current
          | _, _ => false

/-- The number of characters that a run covers, after normalization if there is any. -/
def coveredChars (matched : Py.Match) (spans : List (ℕ × ℕ)) (text : Text) : ℤ :=
  match g.normalizer, spans[matched.leftStart]?, spans[matched.leftStart + matched.length - 1]? with
  -- a slice leaves out what is not there
  | some normalize, some first, some last => (normalize ((text.take last.2).drop first.1)).length
  | _, _, _ => matched.coveredChars

/-- A run may be used: it is long enough and has a synchronizing boundary. -/
def accepted (matched : Py.Match) (spans : List (ℕ × ℕ)) (text : Text) : Bool :=
  if matched.length < g.spec.minMatchTokens then false
  else decide (g.coveredChars matched spans text > g.spec.effectiveLMax) &&
    g.hasSyncWitness matched spans text

/-! ## The append -/

def referenceFull (text : Text) (reason : String) : Except PyError PyAppended :=
  match g.referenceEncode text with
  | .error e => .error (.Reference e)
  | .ok encoded => .ok ⟨encoded.ids, encoded.spans, 0, "hf_full_" ++ reason⟩

/-- What is done with one window, inside the guard. -/
def tryWindow (tailIds : List UInt32) (tailSpans : List (ℕ × ℕ)) (previousChars : ℕ)
    (newText : Text) (window : ℕ) : Except PyError (Option PyAppended) := do
  let windowStart := previousChars - window
  let encoded ← g.windowEncode (newText.drop windowStart)
  let overlapStart := windowStart + g.spec.margin
  let left ← Py.buildRecords tailIds tailSpans 0 overlapStart previousChars
  let right ← Py.buildRecords encoded.ids encoded.spans windowStart overlapStart previousChars
  match Py.findMatch left right with
  | none => .ok none
  | some matched =>
      if g.accepted matched tailSpans newText then
        let leftEnd := matched.leftStart + matched.length
        let rightEnd := matched.rightStart + matched.length
        let shifted := (encoded.spans.drop rightEnd).map fun s =>
          (s.1 + windowStart, s.2 + windowStart)
        .ok (some ⟨tailIds.take leftEnd ++ encoded.ids.drop rightEnd,
          tailSpans.take leftEnd ++ shifted, leftEnd, "gigatoken_repair"⟩)
      else .ok none

/-- Try windows of growing size; `retries` of them are left after this one. -/
def repairLoop (tailIds : List UInt32) (tailSpans : List (ℕ × ℕ)) (previousChars : ℕ)
    (newText : Text) (retries window : ℕ) : Except PyError PyAppended :=
  if window < previousChars then
    match g.tryWindow tailIds tailSpans previousChars newText window with
    | .error (.WindowUnsupported _) => g.referenceFull newText "engine_guard"
    | .error e => .error e
    | .ok (some appended) => .ok appended
    | .ok none =>
        match retries with
        | 0 => g.referenceFull newText "no_safe_cut"
        | retries + 1 =>
            repairLoop tailIds tailSpans previousChars newText retries (window * 2)
  else g.referenceFull newText "window_covers_all"

/-- Repair one strict append, or safely re-run the reference. -/
def call (tailText : Text) (tailIds : List UInt32) (tailSpans : List (ℕ × ℕ)) (delta : Text) :
    Except PyError PyAppended :=
  let newText := tailText ++ delta
  if delta = [] then .ok ⟨tailIds, tailSpans, tailIds.length, "gigatoken_repair_noop"⟩
  else if tailIds.length ≠ tailSpans.length then g.referenceFull newText "invalid_prior_state"
  else g.repairLoop tailIds tailSpans tailText.length newText g.spec.maxRetries g.spec.windowChars

/-! ## In a session -/

/-- The native engine that shares the adapter's parts. -/
def native : FastCpuEngine where
  spec := g.spec
  reference :=
    { encodeCore := g.referenceEncode
      normalize := fun text => .ok ((g.normalizer.getD id) text)
      rawByteLengths := .ok g.byteLengths }
  boundary := ⟨g.pclass⟩
  gigatoken := g.engine

/-- What a session does with the callback: it fills its tail with what was returned. Nothing when
either of them fails. -/
def append (tail : TailState) (delta : Text) : Option PyAppended :=
  (g.call tail.text tail.ids tail.spans delta).toOption.filter fun appended =>
    (TailState.fill (tail.text ++ delta) ⟨appended.ids, appended.spans⟩).isOk

end GigatokenRepair

/-- What the native append returns, in the same form. -/
def FastCpuEngine.Appended.result (a : FastCpuEngine.Appended) : PyAppended :=
  ⟨a.tail.ids, a.tail.spans, a.report.keptTokens, a.report.path⟩

end Toktier.Routing
