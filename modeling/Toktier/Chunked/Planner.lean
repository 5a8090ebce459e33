import Mathlib.Data.Char
import Mathlib.Data.List.Lex
import Toktier.Chunked.Admission
import Toktier.Chunked.Window
import Toktier.Routing.Repair

/-!
# The chunk planner

A long text is cut at certified boundaries only: positions that the synchronizing predicate
accepts, that lie inside no occurrence of an added-token literal, and, for a family whose
artifact normalizes its input, that are certified cuts of the normalized text as well. For
each target the planner looks downward from it, first a little and then up to the scan
budget, and takes the highest certified position, unless a chunk would become too short.

The multi-pattern matcher is a parameter, with what its documentation says of it. The
memoized answers of the stability test are recomputed: the normalizer is a function. An index
out of range, a difference below zero and a division by zero are panics; a product wraps.

## Main definitions

* `AhoCorasick`: the matcher; `AhoCorasick.naive`: one.
* `LiteralGuard`, with `occurrences`, `forbidden`, `touches`.
* `NfcRule`, with `stable`, `accepts`.
* `ChunkEncoder`, with `scan`, `planCounted`, `plan`.
-/
namespace Toktier.Chunked

open Toktier.Lib Toktier.StoreCore Toktier.Routing

/-! ## Literals -/

/-- A matcher of several patterns: every occurrence of every pattern, overlapping ones
included, as the number of the pattern and the byte offset it starts at. -/
structure AhoCorasick where
  findOverlapping : List Text → Text → List (ℕ × ℕ)
  mem_findOverlapping : ∀ {patterns haystack i start}, (∀ w ∈ patterns, w ≠ []) →
    ((i, start) ∈ findOverlapping patterns haystack ↔
      ∃ w, patterns[i]? = some w ∧ OccursAt (utf8 w) (utf8 haystack) start)

/-- The matcher that tries every pattern at every byte. -/
def AhoCorasick.naive : AhoCorasick where
  findOverlapping patterns haystack :=
    patterns.zipIdx.flatMap fun pattern =>
      ((List.range (utf8 haystack).length).filter fun start =>
        OccursAt (utf8 pattern.1) (utf8 haystack) start).map fun start => (pattern.2, start)
  mem_findOverlapping {patterns haystack i start} hne := by
    simp only [List.mem_flatMap, List.mem_map, List.mem_filter, List.mem_range, decide_eq_true_eq,
      Prod.exists, Prod.mk.injEq]
    constructor
    · rintro ⟨w, j, hw, s, ⟨-, hocc⟩, rfl, rfl⟩
      rw [List.mem_zipIdx_iff_getElem?] at hw
      exact ⟨w, hw, hocc⟩
    · rintro ⟨w, hw, hocc⟩
      have hlen := hocc.le_length (by
        intro h
        have := length_utf8 w
        rw [h, List.length_nil] at this
        exact hne w (List.mem_of_getElem? hw) (utf8Len_eq_zero.mp this.symm))
      have hpos : 0 < (utf8 w).length := by
        rw [length_utf8]
        exact utf8Len_pos (hne w (List.mem_of_getElem? hw))
      exact ⟨w, i, List.mem_zipIdx_iff_getElem?.mpr hw, start, ⟨by omega, hocc⟩, rfl, rfl⟩

/-- Cut positions strictly inside an added-token literal are forbidden. -/
structure LiteralGuard where
  /-- The patterns, if there are any. -/
  matcher : Option (List Text)
  /-- Character length of each pattern. -/
  lengths : List ℕ
  /-- Longest literal, in characters. -/
  lmax : ℕ

namespace LiteralGuard

/-- The literals that are not empty, sorted, each once. -/
def unique (literals : List Text) : List Text :=
  ((literals.filter (· ≠ [])).mergeSort fun a b => decide (a ≤ b)).dedup

def new (literals : List Text) : LiteralGuard :=
  let unique := unique literals
  let lengths := unique.map List.length
  { matcher := if unique = [] then none else some unique
    lengths := lengths
    lmax := lengths.foldr max 0 }

variable (A : AhoCorasick) (guard : LiteralGuard)

/-- Occurrences `(first, last)` in global character coordinates whose start lies in
`[start, stop)`. -/
def occurrences (window : Window) (start stop : ℕ) : Decode EngineError (List (ℕ × ℕ)) :=
  match guard.matcher with
  | none => .ok []
  | some patterns =>
      if stop ≤ start then .ok []
      else do
        let haystack ← window.slice start stop
        let offset ← window.byteOf start
        (A.findOverlapping patterns haystack).mapM fun found => do
          let first := window.charOfByte (offset + found.2)
          let length ← getAt guard.lengths found.1
          return (first, first + length)

/-- Mark the positions `[first, stop)` of a row that starts at position `low`. -/
def mark (low : ℕ) (out : List Bool) (first stop : ℕ) : List Bool :=
  (List.range' first (stop - first)).foldl (fun out position => out.set (position - low) true) out

/-- For each position in `[low, high]`, whether it falls inside some occurrence. -/
def forbidden (window : Window) (low high : ℕ) : Decode EngineError (List Bool) := do
  let count ← minus (high + 1) low
  let out := List.replicate count false
  if guard.matcher = none ∨ guard.lmax < 2 then return out
  else do
    let start := low - (guard.lmax - 1)
    let stop := min window.total (high + guard.lmax - 1)
    let found ← guard.occurrences A window start stop
    return found.foldl (fun out span => mark low out (max (span.1 + 1) low) (min span.2 (high + 1)))
      out

/-- Whether some occurrence intersects the span `[low, high)`. -/
def touches (window : Window) (low high : ℕ) : Decode EngineError Bool :=
  if guard.matcher = none then .ok false
  else do
    let start := low - (guard.lmax - 1)
    let stop := min window.total (high + (guard.lmax - 1))
    let found ← guard.occurrences A window start stop
    return found.any fun span => span.1 < high && low < span.2

end LiteralGuard

/-! ## Normalization -/

/-- How far the normalization-stability check looks for a stable split point. -/
def ANCHOR_SCAN : ℕ := 256

/-- Probes of the stable-split-point test. -/
def PROBE_BEFORE : Char := '\u0301'
def PROBE_AFTER : Char := '\u0335'
def PROBE_JAMO_L : Char := '\u1100'
def PROBE_SYLLABLE : Char := '\uAC00'

/-- The normalization-stability condition of an NFC family. -/
structure NfcRule where
  reference : ReferenceEngine

namespace NfcRule

variable (A : AhoCorasick) (rule : NfcRule) (boundary : BpeSyncBoundary) (guard : LiteralGuard)
  (window : Window)

def normalize (text : Text) : Except EngineError Text := rule.reference.normalize text

/-- Whether the normalizer leaves the character alone between the two probes. -/
def probe (before : Option Char) (value : Char) (after : Option Char) : Except EngineError Bool := do
  let text := before.toList ++ [value] ++ after.toList
  let normalized ← rule.normalize text
  return normalized == text

/-- Whether `value` is a stable split point. -/
def stable (value : Char) : Except EngineError Bool :=
  if value.val < 0x80 then .ok true
  else if boundary.classes value = .M then .ok false
  else [(none, none), (some PROBE_BEFORE, none), (none, some PROBE_AFTER),
    (some PROBE_JAMO_L, none), (some PROBE_SYLLABLE, none)].allM fun p => rule.probe p.1 value p.2

def stableAt (index : ℕ) : Decode EngineError Bool := do
  let value ← window.charAt index
  checked (rule.stable boundary value)

/-- The highest stable split point in `[floorIndex, floorIndex + n]`. -/
def leftAnchor (floorIndex : ℕ) : ℕ → Decode EngineError (Option ℕ)
  | 0 => do
      let stable ← rule.stableAt boundary window floorIndex
      return if stable then some floorIndex else none
  | n + 1 => do
      let stable ← rule.stableAt boundary window (floorIndex + (n + 1))
      if stable then return some (floorIndex + (n + 1)) else leftAnchor floorIndex n

/-- The lowest stable split point in `[right, right + n)`, or `right + n`. -/
def rightAnchor : ℕ → ℕ → Decode EngineError ℕ
  | 0, right => .ok right
  | n + 1, right => do
      let stable ← rule.stableAt boundary window right
      if stable then return right else rightAnchor n (right + 1)

/-- Whether the normalizer maps `[left, right)` to the concatenation of what it maps the two
halves to, and the predicate holds where these meet. -/
def meets (left position right : ℕ) : Decode EngineError Bool := do
  let before ← window.slice left position
  let before ← checked (rule.normalize before)
  let after ← window.slice position right
  let after ← checked (rule.normalize after)
  match before.getLast?, after.head? with
  | some last, some first => do
      let whole ← window.slice left right
      let whole ← checked (rule.normalize whole)
      if utf8Len whole ≠ utf8Len before + utf8Len after ∨ ¬before <+: whole ∨ ¬after <:+ whole then
        return false
      else return boundary.accepts last first
  | _, _ => return false

/-- Whether the cut at `position` is also a certified cut of the normalized text. -/
def accepts (position : ℕ) : Decode EngineError Bool := do
  let total := window.total
  let aroundEnd := min (position + 2) total
  let first ← minus position 1
  let allStable ← (List.range' first (aroundEnd - first)).allM (rule.stableAt boundary window)
  if allStable then return true
  else do
    let floorIndex := position - ANCHOR_SCAN
    let anchor ← rule.leftAnchor boundary window floorIndex (first - floorIndex)
    if anchor = none ∧ 0 < floorIndex then return false
    else do
      let left := anchor.getD 0 -- the start of the text anchors as well
      let ceiling := min total (position + 1 + ANCHOR_SCAN)
      let right ← rule.rightAnchor boundary window (ceiling - (position + 1)) (position + 1)
      if right = ceiling ∧ ceiling < total then return false
      else do
        let touched ← guard.touches A window left right
        if touched then return false else rule.meets boundary window left position right

end NfcRule

/-! ## Planner -/

/-- The first, cheap part of every cut search. -/
def QUICK_SCAN : ℕ := 48

/-- Documents shorter than this are never cut. -/
def MIN_TEXT_CHARS : ℕ := 256

/-- A product of machine words. -/
def wrappingMul (a b : ℕ) : ℕ := a * b % 2 ^ 64

/-- Where a document was cut, and what the search had to give up. -/
structure ChunkPlan where
  /-- Half-open character spans, in order, covering the document. -/
  spans : List (ℕ × ℕ)
  /-- The same spans as UTF-8 byte ranges of the input. -/
  byteSpans : List (ℕ × ℕ)
  k : ℕ
  chars : ℕ
  cutMisses : ℕ
  literalRejects : ℕ
  normRejects : ℕ
  deriving DecidableEq, Repr

def ChunkPlan.single (chars bytes k : ℕ) : ChunkPlan := ⟨[(0, chars)], [(0, bytes)], k, chars, 0, 0, 0⟩

/-- Character positions of the cuts. -/
def ChunkPlan.cuts (plan : ChunkPlan) : List ℕ := (plan.spans.drop 1).map Prod.fst

/-- The candidates rejected by the guard and by the rule. -/
abbrev Rejects := ℕ × ℕ

/-- Per-engine admission, guard and normalizer rule. -/
structure ChunkEncoder where
  boundary : BpeSyncBoundary
  guard : LiteralGuard
  refusal : Option String
  rule : Option NfcRule

/-- The loop state of the plan. -/
structure Search where
  cursor : CharCursor
  /-- Character and byte position of each cut. -/
  cuts : List (ℕ × ℕ)
  misses : ℕ
  rejects : Rejects
  previous : ℕ

namespace ChunkEncoder

/-- The planner of a document with these added-token literals. -/
def new (document : Json) (literals : List Text) (boundary : BpeSyncBoundary)
    (reference : ReferenceEngine) : ChunkEncoder :=
  let guard := LiteralGuard.new literals
  match normalizerMode document with
  | .ok mode => ⟨boundary, guard, none, if mode = .Nfc then some ⟨reference⟩ else none⟩
  | .error refusal => ⟨boundary, guard, some refusal, none⟩

/-- Whether the structural criteria admit this artifact. -/
def admitted (encoder : ChunkEncoder) : Bool := encoder.refusal.isNone

variable (A : AhoCorasick) (encoder : ChunkEncoder)

/-- Whether a cut between characters `position - 1` and `position` is a certified boundary of
the text as written. -/
def boundaryOk (window : Window) (position : ℕ) : Decode EngineError Bool := do
  let before ← minus position 1
  let previous ← window.charAt before
  let current ← window.charAt position
  return encoder.boundary.accepts previous current

/-- One candidate: whether it is certified, and the rejects counted. -/
def candidate (window : Window) (forbidden : List Bool) (low position : ℕ) (rejects : Rejects) :
    Decode EngineError (Bool × Rejects) := do
  let ok ← encoder.boundaryOk window position
  if ok then do
    let inside ← getAt forbidden (position - low)
    if inside then return (false, (rejects.1 + 1, rejects.2))
    else match encoder.rule with
      | some rule => do
          let accepted ← rule.accepts A encoder.boundary encoder.guard window position
          if accepted then return (true, rejects) else return (false, (rejects.1, rejects.2 + 1))
      | none => return (true, rejects)
  else return (false, rejects)

/-- The candidates from `low + n` down to `low`. -/
def scanDown (window : Window) (forbidden : List Bool) (low : ℕ) :
    ℕ → Rejects → Decode EngineError (Option ℕ × Rejects)
  | 0, rejects => do
      let (certified, rejects) ← encoder.candidate A window forbidden low low rejects
      return (if certified then some low else none, rejects)
  | n + 1, rejects => do
      let (certified, rejects) ← encoder.candidate A window forbidden low (low + (n + 1)) rejects
      if certified then return (some (low + (n + 1)), rejects)
      else scanDown window forbidden low n rejects

/-- The highest certified cut in `[low, high]`. -/
def scan (window : Window) (low high : ℕ) (rejects : Rejects) :
    Decode EngineError (Option ℕ × Rejects) :=
  if high < low then .ok (none, rejects)
  else do
    let forbidden ← encoder.guard.forbidden A window low high
    encoder.scanDown A window forbidden low (high - low) rejects

/-- How much the window around a scan range must hold: literal occurrences up to `lmax`
characters away and anchors up to `ANCHOR_SCAN` away. -/
def margin : ℕ := ANCHOR_SCAN + encoder.guard.lmax + 2

/-- The search below one target, in the quick range and then in the extended one. -/
def search (total scanBudget target : ℕ) (st : Search) :
    Decode EngineError (Option ℕ × Window × Search) := do
  let quick := min QUICK_SCAN scanBudget
  let low := max (st.previous + 1) (target - quick)
  let (window, cursor) ← Window.extract st.cursor total (low - encoder.margin)
    (target + encoder.margin + 1)
  let (found, rejects) ← encoder.scan A window low target st.rejects
  if found = none ∧ scanBudget > quick ∧ low > st.previous + 1 then do
    let high := low - 1
    let low := max (st.previous + 1) (target - scanBudget)
    let (window, cursor) ← Window.extract cursor total (low - encoder.margin)
      (high + encoder.margin + 1)
    let (found, rejects) ← encoder.scan A window low high rejects
    return (found, window, { st with cursor := cursor, rejects := rejects })
  else return (found, window, { st with cursor := cursor, rejects := rejects })

/-- One target of the plan. A cut that would leave a neighbouring chunk below the floor is not
made. -/
def cutAt (total floor scanBudget target : ℕ) (st : Search) : Decode EngineError Search :=
  if target ≤ st.previous then .ok { st with misses := st.misses + 1 }
  else do
    let (found, window, st) ← encoder.search A total scanBudget target st
    match found with
    | none => return { st with misses := st.misses + 1 }
    | some found => do
        let chunk ← minus found st.previous
        let tail ← minus total found
        if floor ≤ chunk ∧ floor ≤ tail then do
          let byte ← window.byteOf found
          return { st with cuts := st.cuts ++ [(found, byte)], previous := found }
        else return { st with misses := st.misses + 1 }

/-- The smallest chunk the plan may produce. -/
def floorOf (total k : ℕ) : Option ℕ → Decode EngineError ℕ
  | some floor => .ok floor
  | none => do
      let share ← divide total (wrappingMul 4 k)
      return max 16 (min 1024 share)

/-- The cut plan of a text of `total` characters. -/
def planCounted (text : Text) (total k : ℕ) (minChunk : Option ℕ) (scanBudget : ℕ) :
    Decode EngineError ChunkPlan :=
  if k ≤ 1 ∨ total < MIN_TEXT_CHARS then .ok (ChunkPlan.single total (utf8Len text) k)
  else do
    let floor ← floorOf total k minChunk
    let st ← (List.range' 1 (k - 1)).foldlM
      (fun st index => encoder.cutAt A total floor scanBudget (wrappingMul total index / k) st)
      ⟨CharCursor.new text, [], 0, (0, 0), 0⟩
    let bounds := (0, 0) :: st.cuts ++ [(total, utf8Len text)]
    return { spans := (bounds.zip bounds.tail).map fun pair => (pair.1.1, pair.2.1)
             byteSpans := (bounds.zip bounds.tail).map fun pair => (pair.1.2, pair.2.2)
             k := k, chars := total, cutMisses := st.misses
             literalRejects := st.rejects.1, normRejects := st.rejects.2 }

/-- The cut plan of a text. -/
def plan (text : Text) (k : ℕ) (minChunk : Option ℕ) (scanBudget : ℕ) :
    Decode EngineError ChunkPlan :=
  if scanBudget = 0 then .error (.Reject ⟨"scan_budget must be a positive integer"⟩)
  else encoder.planCounted A text (countChars text) k minChunk scanBudget

end ChunkEncoder

end Toktier.Chunked
