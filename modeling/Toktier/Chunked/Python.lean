import Mathlib.Data.List.Lex
import Mathlib.Data.Char
import Toktier.Chunked.Admission
import Toktier.Lib.Decode
import Toktier.Lib.Occurrences
import Toktier.Routing.Boundary

/-!
# The chunk planner of the Python module

The Python module plans over the whole text, by code points. The literal guard is a regular
expression: a lookahead for the alternation of the literals, longest first, searched between
two positions. An index out of range raises, and so does a failing normalizer; the memoized
answers of the stability test are recomputed.

## Main definitions

* `pairOk`, `boundaryOk`: the predicate.
* `LiteralGuard`, with `finditer`, `forbidden`, `touches`.
* `NfcRule`, with `stable`, `accepts`.
* `Planner`, with `scan`, `plan`.
-/
namespace Toktier.Chunked.Py

open Toktier.Lib Toktier.StoreCore Toktier.Routing

/-! ## Predicate -/

/-- The pairs of classes between which a pre-token never spans. -/
def SYNC_PAIRS : List (CharClass × CharClass) :=
  [(.L, .N), (.L, .O), (.L, .S), (.N, .L), (.N, .O), (.N, .S), (.O, .N), (.O, .S)]

/-- The sync-witness predicate on two adjacent characters. -/
def pairOk (table : Char → CharClass) (previous current : Char) : Bool :=
  let left := table previous
  let right := table current
  if !SYNC_PAIRS.contains (left, right) then false
  -- punctuation absorbs a following line break
  else if left == .O && right == .S && (current == '\r' || current == '\n') then false
  -- an apostrophe after letters may open a contraction suffix
  else !(left == .L && right == .O && current == '\'')

/-- Whether a cut between `text[position - 1]` and `text[position]` is a certified stable
boundary of `text` as written. -/
def boundaryOk (table : Char → CharClass) (text : Text) (position : ℕ) : Decode EngineError Bool := do
  let before ← minus position 1
  let previous ← getAt text before
  let current ← getAt text position
  return pairOk table previous current

/-- `text[low:high]`. -/
def slice (text : Text) (low high : ℕ) : Text := (text.take high).drop low

/-! ## Literals -/

/-- Cut positions strictly inside an added-token literal are forbidden. -/
structure LiteralGuard where
  /-- The alternatives of the pattern, if there are any. -/
  pattern : Option (List Text)
  lmax : ℕ

namespace LiteralGuard

/-- Longer literals first, and those of one length in order. -/
def before (a b : Text) : Bool := decide (b.length < a.length) || (a.length == b.length && decide (a ≤ b))

def new (literals : List Text) : LiteralGuard :=
  let unique := (literals.filter (· ≠ [])).dedup.mergeSort before
  { pattern := if unique = [] then none else some unique
    lmax := (unique.map List.length).foldr max 0 }

/-- The matches between `start` and `stop`: at each start the first alternative that fits. -/
def finditer (alternatives : List Text) (text : Text) (start stop : ℕ) : List (ℕ × Text) :=
  (List.range' start (stop + 1 - start)).filterMap fun first =>
    (alternatives.find? fun w => decide (OccursAt w (text.take stop) first)).map fun w => (first, w)

variable (guard : LiteralGuard)

/-- Positions in `[low, high]` that fall inside some occurrence. -/
def forbidden (text : Text) (low high : ℕ) : List ℕ :=
  match guard.pattern with
  | none => []
  | some pattern =>
      if guard.lmax < 2 then []
      else
        let start := low + 1 - guard.lmax
        let stop := min text.length (high + guard.lmax - 1)
        (finditer pattern text start stop).flatMap fun found =>
          let first := found.1
          let last := first + found.2.length
          List.range' (max (first + 1) low) (min last (high + 1) - max (first + 1) low)

/-- The loop of `touches` over the matches. -/
def anyTouches (low high : ℕ) : List (ℕ × Text) → Bool
  | [] => false
  | (first, w) :: rest =>
      if high ≤ first then false
      else if low < first + w.length then true
      else anyTouches low high rest

/-- Whether some occurrence intersects the span `[low, high)`. -/
def touches (text : Text) (low high : ℕ) : Bool :=
  match guard.pattern with
  | none => false
  | some pattern =>
      let start := low + 1 - guard.lmax
      let stop := min text.length (high + guard.lmax - 1)
      anyTouches low high (finditer pattern text start stop)

end LiteralGuard

/-! ## Normalization -/

def ANCHOR_SCAN : ℕ := 256

def PROBE_BEFORE : Char := '\u0301'
def PROBE_AFTER : Char := '\u0335'
def PROBE_JAMO_L : Char := '\u1100'
def PROBE_SYLLABLE : Char := '\uac00'

/-- The normalization-stability condition of an NFC family. -/
structure NfcRule where
  table : Char → CharClass
  guard : LiteralGuard
  normalize : Text → Except EngineError Text

namespace NfcRule

variable (rule : NfcRule)

/-- Whether `char` is a stable split point. -/
def stable (char : Char) : Except EngineError Bool :=
  if char.val < 0x80 then .ok true
  else if rule.table char = .M then .ok false
  else [[char], [PROBE_BEFORE, char], [char, PROBE_AFTER], [PROBE_JAMO_L, char],
    [PROBE_SYLLABLE, char]].allM fun text => do
      let normalized ← rule.normalize text
      return normalized == text

def stableAt (text : Text) (index : ℕ) : Decode EngineError Bool := do
  let char ← getAt text index
  checked (rule.stable char)

/-- `while left >= floor_index and not stable(text[left])`, from `left = floorIndex + n - 1`
down; `none` below `floorIndex`. -/
def walkLeft (text : Text) (floorIndex : ℕ) : ℕ → Decode EngineError (Option ℕ)
  | 0 => .ok none
  | n + 1 => do
      let stable ← rule.stableAt text (floorIndex + n)
      if stable then return some (floorIndex + n) else walkLeft text floorIndex n

/-- `while right < ceiling and not stable(text[right])`, with `n = ceiling - right`. -/
def walkRight (text : Text) : ℕ → ℕ → Decode EngineError ℕ
  | 0, right => .ok right
  | n + 1, right => do
      let stable ← rule.stableAt text right
      if stable then return right else walkRight text n (right + 1)

/-- Whether the cut at `position` is also a certified cut of the normalized text. -/
def accepts (text : Text) (position : ℕ) : Decode EngineError Bool := do
  let allStable ← checked ((slice text (position - 1) (position + 2)).allM rule.stable)
  if allStable then return true
  else do
    let floorIndex := position - ANCHOR_SCAN
    let left ← rule.walkLeft text floorIndex (position - floorIndex)
    if left = none ∧ 0 < floorIndex then return false
    else do
      let left := left.getD 0 -- the start of the text anchors as well
      let ceiling := min text.length (position + 1 + ANCHOR_SCAN)
      let right ← rule.walkRight text (ceiling - (position + 1)) (position + 1)
      if right = ceiling ∧ ceiling < text.length then return false
      else if rule.guard.touches text left right then return false
      else do
        let before ← checked (rule.normalize (slice text left position))
        let after ← checked (rule.normalize (slice text position right))
        match before.getLast?, after.head? with
        | some last, some first => do
            let whole ← checked (rule.normalize (slice text left right))
            if whole ≠ before ++ after then return false
            else return pairOk rule.table last first
        | _, _ => return false

end NfcRule

/-! ## Planner -/

def QUICK_SCAN : ℕ := 48

def MIN_TEXT_CHARS : ℕ := 256

/-- Where a document was cut, and what the search had to give up. -/
structure ChunkPlan where
  spans : List (ℕ × ℕ)
  k : ℕ
  cutMisses : ℕ
  literalRejects : ℕ
  normRejects : ℕ
  deriving DecidableEq, Repr

/-- Per-tokenizer planner. -/
structure Planner where
  table : Char → CharClass
  guard : LiteralGuard
  refusal : Option Refusal
  rule : Option NfcRule

/-- The loop state of the plan. -/
structure Search where
  cuts : List ℕ
  misses : ℕ
  rejects : ℕ × ℕ
  previous : ℕ

namespace Planner

/-- The planner of a document with these added-token literals. -/
def new (document : Json) (literals : List Text) (table : Char → CharClass)
    (normalize : Text → Except EngineError Text) : Planner :=
  let guard := LiteralGuard.new literals
  match normalizerMode document with
  | .ok mode => ⟨table, guard, none, if mode = .Nfc then some ⟨table, guard, normalize⟩ else none⟩
  | .error refusal => ⟨table, guard, some refusal, none⟩

variable (planner : Planner)

/-- One candidate: whether it is certified, and the rejects counted. -/
def candidate (text : Text) (forbidden : List ℕ) (position : ℕ) (rejects : ℕ × ℕ) :
    Decode EngineError (Bool × (ℕ × ℕ)) := do
  let ok ← boundaryOk planner.table text position
  if ok then
    if forbidden.contains position then return (false, (rejects.1 + 1, rejects.2))
    else match planner.rule with
      | some rule => do
          let accepted ← rule.accepts text position
          if accepted then return (true, rejects) else return (false, (rejects.1, rejects.2 + 1))
      | none => return (true, rejects)
  else return (false, rejects)

/-- `while position >= low`, from `position = low + n - 1` down. -/
def scanDown (text : Text) (forbidden : List ℕ) (low : ℕ) :
    ℕ → ℕ × ℕ → Decode EngineError (Option ℕ × (ℕ × ℕ))
  | 0, rejects => .ok (none, rejects)
  | n + 1, rejects => do
      let (certified, rejects) ← planner.candidate text forbidden (low + n) rejects
      if certified then return (some (low + n), rejects)
      else scanDown text forbidden low n rejects

/-- The highest certified cut in `[low, high]`. -/
def scan (text : Text) (low high : ℕ) (rejects : ℕ × ℕ) :
    Decode EngineError (Option ℕ × (ℕ × ℕ)) :=
  if high < low then .ok (none, rejects)
  else planner.scanDown text (planner.guard.forbidden text low high) low (high + 1 - low) rejects

/-- The search below one target, in the quick range and then in the extended one. -/
def search (text : Text) (scanBudget target previous : ℕ) (rejects : ℕ × ℕ) :
    Decode EngineError (Option ℕ × (ℕ × ℕ)) := do
  let quick := min QUICK_SCAN scanBudget
  let low := max (previous + 1) (target - quick)
  let (found, rejects) ← planner.scan text low target rejects
  if found = none ∧ scanBudget > quick ∧ low > previous + 1 then
    planner.scan text (max (previous + 1) (target - scanBudget)) (low - 1) rejects
  else return (found, rejects)

/-- One target of the plan. A cut that would leave a neighbouring chunk below the floor is not
made. -/
def cutAt (text : Text) (floor scanBudget target : ℕ) (st : Search) : Decode EngineError Search :=
  if target ≤ st.previous then .ok { st with misses := st.misses + 1 }
  else do
    let (found, rejects) ← planner.search text scanBudget target st.previous st.rejects
    match found with
    | none => return { st with misses := st.misses + 1, rejects := rejects }
    | some found =>
        if found - st.previous < floor ∨ text.length - found < floor then
          return { st with misses := st.misses + 1, rejects := rejects }
        else
          return { st with cuts := st.cuts ++ [found], rejects := rejects, previous := found }

/-- The plan. -/
def plan (text : Text) (k : ℕ) (minChunk : Option ℕ) (scanBudget : ℕ) :
    Decode EngineError ChunkPlan :=
  let length := text.length
  if k ≤ 1 ∨ length < MIN_TEXT_CHARS then .ok ⟨[(0, length)], k, 0, 0, 0⟩
  else do
    let floor := minChunk.getD (max 16 (min 1024 (length / (4 * k))))
    let st ← (List.range' 1 (k - 1)).foldlM
      (fun st index => planner.cutAt text floor scanBudget (length * index / k) st)
      ⟨[], 0, (0, 0), 0⟩
    let bounds := 0 :: st.cuts ++ [length]
    return { spans := bounds.zip bounds.tail, k := k, cutMisses := st.misses
             literalRejects := st.rejects.1, normRejects := st.rejects.2 }

end Planner

end Toktier.Chunked.Py
