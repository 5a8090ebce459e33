import Toktier.StoreCore.Basic

/-!
# Tails and the engine behind them

A session's tail is the text past its last seal point together with that text's
own encoding: ids, and character spans in two parallel rows. All its fills
validate, so a `TailState` with rows of different lengths, or with a span that is
reversed or leaves the text, cannot be built. Ids are an owned row or a view of
an immutable shared allocation; spans are kept materialized here, since the
lazy form rebuilds the same values.

The engine is a record of functions: `append` answers with the tail it left,
also when it fails, because it works on the session's tail in place.

## Main definitions

* `SharedIds`: a view of an immutable id allocation.
* `TailState`, with `fill`, `fillSoa` and `fillShared`.
* `Engine`: the session encoder a store operation runs against.
-/
namespace Toktier.StoreCore

open Toktier.Lib

/-! ## Shared id rows -/

/-- An immutable range view of one id allocation. `arc` names the allocation. -/
structure SharedIds where
  arc : ℕ
  buf : List UInt32
  start : ℕ
  stop : ℕ
  start_le : start ≤ stop
  stop_le : stop ≤ buf.length

namespace SharedIds

/-- The ids in view. -/
def asSlice (v : SharedIds) : List UInt32 := (v.buf.take v.stop).drop v.start

/-- Adopt an owned row as the single shared allocation. -/
def fromVec (arc : ℕ) (ids : List UInt32) : SharedIds :=
  ⟨arc, ids, 0, ids.length, Nat.zero_le _, le_rfl⟩

def len (v : SharedIds) : ℕ := v.stop - v.start

@[simp] theorem length_asSlice (v : SharedIds) : v.asSlice.length = v.len := by
  have := v.stop_le
  simp only [asSlice, len, List.length_drop, List.length_take]
  omega

@[simp] theorem asSlice_fromVec (arc : ℕ) (ids : List UInt32) : (fromVec arc ids).asSlice = ids := by
  simp [asSlice, fromVec]

/-- A sub-view `[lo, hi)`; the indices are relative to the view. -/
def slice (v : SharedIds) (lo hi : ℕ) : Except StoreError SharedIds :=
  if h : lo > hi ∨ hi > v.len then
    .error (.InvalidInput
      s!"shared id slice [{lo}, {hi}) is outside its parent of length {v.len}")
  else
    .ok ⟨v.arc, v.buf, v.start + lo, v.start + hi, by omega, by
      have := v.stop_le
      have := v.start_le
      simp only [len] at h
      omega⟩

theorem slice_ok {v w : SharedIds} {lo hi : ℕ} (h : v.slice lo hi = .ok w) :
    lo ≤ hi ∧ hi ≤ v.len ∧ w.asSlice = (v.asSlice.take hi).drop lo := by
  unfold slice at h
  split at h
  · cases h
  · rename_i hb
    cases h
    have hs := v.stop_le
    have hl := v.start_le
    simp only [len] at hb
    refine ⟨by omega, by simp only [len]; omega, ?_⟩
    simp only [asSlice]
    rw [List.take_drop, List.drop_drop, List.take_take, Nat.min_eq_left (by omega)]

theorem slice_of_le {v : SharedIds} {lo hi : ℕ} (hlo : lo ≤ hi) (hhi : hi ≤ v.len) :
    ∃ w, v.slice lo hi = .ok w := by
  unfold slice
  rw [dif_neg (by omega)]
  exact ⟨_, rfl⟩

/-- Both views are of one allocation; one allocation has one content. -/
def sameAllocation (v w : SharedIds) : Prop := v.arc = w.arc ∧ v.buf = w.buf

instance (v w : SharedIds) : Decidable (v.sameAllocation w) := by
  unfold sameAllocation
  infer_instance

/-- One view of two adjacent ranges of the same allocation. -/
def joinAdjacent (v w : SharedIds) : Option SharedIds :=
  if h : v.sameAllocation w ∧ v.stop = w.start then
    some ⟨v.arc, v.buf, v.start, w.stop, by
      have := v.start_le
      have := w.start_le
      omega, by
      rw [h.1.2]
      exact w.stop_le⟩
  else none

theorem asSlice_joinAdjacent {v w u : SharedIds} (h : v.joinAdjacent w = some u) :
    u.asSlice = v.asSlice ++ w.asSlice := by
  unfold joinAdjacent at h
  split at h
  · rename_i hadj
    cases h
    obtain ⟨⟨-, hbuf⟩, hstop⟩ := hadj
    have hle := v.start_le
    have hle' := w.start_le
    have hv := v.stop_le
    simp only [asSlice, ← hbuf, ← hstop]
    rw [← List.drop_append_of_le_length (by rw [List.length_take]; omega)]
    congr 1
    have htake : v.buf.take v.stop = (v.buf.take w.stop).take v.stop := by
      rw [List.take_take, Nat.min_eq_left (by omega)]
    rw [htake, List.take_append_drop]
  · cases h

end SharedIds

/-- Tail ids: an owned mutable row, or an immutable shared range. -/
inductive TailIds
  | Owned (ids : List UInt32)
  | Shared (view : SharedIds)

/-- The ids of either storage. -/
def TailIds.asSlice : TailIds → List UInt32
  | .Owned ids => ids
  | .Shared view => view.asSlice

/-! ## Encodings -/

/-- A full encode: token ids with character-unit spans. -/
structure Encoding where
  ids : List UInt32
  spans : List (ℕ × ℕ)
  deriving DecidableEq

/-- The structure-of-arrays form of an encode. -/
structure SoaEncoding where
  ids : List UInt32
  spanStarts : List ℕ
  spanEnds : List ℕ

/-- Every span is ordered and stays within `textChars` characters. -/
def SpansWithin (textChars : ℕ) (spans : List (ℕ × ℕ)) : Prop :=
  ∀ p ∈ spans, p.1 ≤ p.2 ∧ p.2 ≤ textChars

/-- Check the spans in order, from number `index` on; the first bad one is reported. -/
def validateSpanArrays (textChars : ℕ) : ℕ → List (ℕ × ℕ) → Except StoreError Unit
  | _, [] => .ok ()
  | index, (start, stop) :: rest =>
      if start > stop ∨ stop > textChars then
        .error (.InvalidInput (s!"span {index} ({start}, {stop}) is reversed or exceeds " ++
          s!"the text length {textChars}"))
      else validateSpanArrays textChars (index + 1) rest

theorem validateSpanArrays_ok {textChars index : ℕ} {spans : List (ℕ × ℕ)} :
    validateSpanArrays textChars index spans = .ok () ↔ SpansWithin textChars spans := by
  induction spans generalizing index with
  | nil => simp [validateSpanArrays, SpansWithin]
  | cons p rest ih =>
      obtain ⟨start, stop⟩ := p
      have hcons : SpansWithin textChars ((start, stop) :: rest) ↔
          (start ≤ stop ∧ stop ≤ textChars) ∧ SpansWithin textChars rest := by
        simp only [SpansWithin, List.forall_mem_cons]
      rw [hcons, validateSpanArrays]
      by_cases hbad : start > stop ∨ stop > textChars
      · simp only [if_pos hbad, reduceCtorEq, false_iff]
        omega
      · simp only [if_neg hbad, ih]
        have : start ≤ stop ∧ stop ≤ textChars := by omega
        simp [this]

/-! ## The tail -/

/-- Tail text and its encoding; spans are relative to the tail's origin. -/
structure TailState where
  text : Text
  tailIds : TailIds
  spanStarts : List ℕ
  spanEnds : List ℕ
  chars_lt : text.length < 2 ^ 32
  starts_length : spanStarts.length = tailIds.asSlice.length
  ends_length : spanEnds.length = tailIds.asSlice.length
  spans_within : SpansWithin text.length (spanStarts.zip spanEnds)

namespace TailState

/-- Empty tail. -/
def new : TailState :=
  ⟨[], .Owned [], [], [], by decide, rfl, rfl, by simp [SpansWithin]⟩

def ids (t : TailState) : List UInt32 := t.tailIds.asSlice

def nTokens (t : TailState) : ℕ := t.ids.length

/-- The spans as pairs. -/
def spans (t : TailState) : List (ℕ × ℕ) := t.spanStarts.zip t.spanEnds

def textChars (t : TailState) : ℕ := t.text.length

def textBytes (t : TailState) : ℕ := utf8Len t.text

/-- The tail's ids as a shared range, when they still are one. -/
def sharedIds (t : TailState) : Option SharedIds :=
  match t.tailIds with
  | .Shared view => some view
  | .Owned _ => none

/-- The shape every fill validates: the text fits 32-bit character positions, the
rows have one length, and every span is ordered and within the text. -/
def build (text : Text) (ids : TailIds) (starts ends : List ℕ) (mismatch : StoreError) :
    Except StoreError TailState :=
  if hc : text.length < 2 ^ 32 then
    if hl : starts.length = ids.asSlice.length ∧ ends.length = ids.asSlice.length then
      match hv : validateSpanArrays text.length 0 (starts.zip ends) with
      | .ok _ => .ok ⟨text, ids, starts, ends, hc, hl.1, hl.2, validateSpanArrays_ok.mp hv⟩
      | .error e => .error e
    else .error mismatch
  else .error (.InvalidInput "text exceeds u32 character capacity")

/-- Replace the whole state with `text` and its encoding. -/
def fill (text : Text) (enc : Encoding) : Except StoreError TailState :=
  build text (.Owned enc.ids) (enc.spans.map Prod.fst) (enc.spans.map Prod.snd) (.InvalidInput
    s!"ids/spans length mismatch: {enc.ids.length} != {enc.spans.length}")

/-- Replace the whole state with `text` and its structure-of-arrays encoding. -/
def fillSoa (text : Text) (enc : SoaEncoding) : Except StoreError TailState :=
  build text (.Owned enc.ids) enc.spanStarts enc.spanEnds (.InvalidInput
    (s!"ids/spans length mismatch: {enc.ids.length} != " ++
      s!"{enc.spanStarts.length}/{enc.spanEnds.length}"))

/-- Replace the whole state with `text`, an immutable shared id range, and span rows. -/
def fillShared (text : Text) (ids : SharedIds) (spanStarts spanEnds : List ℕ) :
    Except StoreError TailState :=
  build text (.Shared ids) spanStarts spanEnds (.InvalidInput
    (s!"ids/spans length mismatch: {ids.len} != {spanStarts.length}/{spanEnds.length}"))

/-- Character spans of tokens `[lo, hi)`. -/
def spanWindow (t : TailState) (lo hi : ℕ) : Except StoreError (List ℕ × List ℕ) :=
  if lo > hi ∨ hi > t.nTokens then
    .error (.InvalidInput s!"span window [{lo}, {hi}) is outside the token count {t.nTokens}")
  else .ok ((t.spanStarts.take hi).drop lo, (t.spanEnds.take hi).drop lo)

/-- A fill that succeeds holds exactly what it was given. -/
theorem build_ok {text : Text} {ids : TailIds} {starts ends : List ℕ} {e : StoreError}
    {t : TailState} (h : build text ids starts ends e = .ok t) :
    t.text = text ∧ t.tailIds = ids ∧ t.spanStarts = starts ∧ t.spanEnds = ends := by
  unfold build at h
  split at h
  · split at h
    · split at h
      · cases h
        exact ⟨rfl, rfl, rfl, rfl⟩
      · cases h
    · cases h
  · cases h

/-- A fill succeeds on rows of the right shape. -/
theorem exists_build {text : Text} {ids : TailIds} {starts ends : List ℕ} (e : StoreError)
    (hc : text.length < 2 ^ 32) (hs : starts.length = ids.asSlice.length)
    (he : ends.length = ids.asSlice.length)
    (hw : SpansWithin text.length (starts.zip ends)) :
    ∃ t, build text ids starts ends e = .ok t := by
  unfold build
  rw [dif_pos hc, dif_pos ⟨hs, he⟩]
  split
  · exact ⟨_, rfl⟩
  · rename_i hv
    rw [validateSpanArrays_ok.mpr hw] at hv
    cases hv

theorem fill_ok {text : Text} {enc : Encoding} {t : TailState} (h : fill text enc = .ok t) :
    t.text = text ∧ t.ids = enc.ids ∧ t.spanStarts = enc.spans.map Prod.fst ∧
      t.spanEnds = enc.spans.map Prod.snd := by
  obtain ⟨ht, hi, hs, he⟩ := build_ok h
  exact ⟨ht, by rw [ids, hi]; rfl, hs, he⟩

theorem nTokens_eq (t : TailState) : t.nTokens = t.tailIds.asSlice.length := rfl

@[simp] theorem text_new : new.text = [] := rfl
@[simp] theorem ids_new : new.ids = [] := rfl

end TailState

/-! ## The engine -/

/-- What an append did to the tail: a path label, and the number of leading tokens
of the previous tail encoding that are unchanged. -/
structure AppendReport where
  path : String
  keptTokens : ℕ

/-- A certified split point inside a tail: tokens `[0, cutTokens)` cover characters
`[0, cutChar)`. -/
structure BoundaryCut where
  cutTokens : ℕ
  cutChar : ℕ
  deriving DecidableEq

/-- Error text reported by an encoder. -/
structure EngineError where
  msg : String
  deriving DecidableEq

/-- The store wraps an encoder's error without interpretation. -/
def EngineError.toStoreError (e : EngineError) : StoreError := .Engine e.msg

/-- The session encoder a store operation runs against. `append` extends the tail in
place, so it returns the tail it left next to its result, failure included. -/
structure Engine where
  encode : Text → Except EngineError Encoding
  append : TailState → Text → Except EngineError AppendReport × TailState
  lastCertifiedBoundary : TailState → ℕ → ℕ → Except EngineError (Option BoundaryCut)
  witnessCategory : WitnessCategory

/-- A failing encode is reported as an engine error. -/
def Engine.encodeStore (eng : Engine) (text : Text) : Except StoreError Encoding :=
  (eng.encode text).mapError EngineError.toStoreError

end Toktier.StoreCore
