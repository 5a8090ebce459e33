import Toktier.Lib.Sha256
import Toktier.Lib.Blake2b
import Toktier.StoreCore.Tail

/-!
# Primitives and a small encoder

The hash primitives of the store as they are, and an encoder that is simple enough to be
run by hand: one token per character, a boundary between any two.

## Main definitions

* `standardDigests`: SHA-256, and BLAKE2b with the content index's personalization.
* `unitEngine`: the one-token-per-character encoder.
-/
namespace Toktier.StoreCore

open Toktier.Lib

def INDEX_PERSON : List UInt8 := utf8 "toktier.fidx.v1".toList

/-- The primitives of the deployed store. -/
instance standardDigests : Digests where
  sha256 data := ⟨Sha256.digest data, Sha256.length_digest data⟩
  blake2b16 data := ⟨Blake2b.digest 16 INDEX_PERSON data, Blake2b.length_digest 16 INDEX_PERSON data⟩

/-- One token per character: its scalar value. -/
def unitIds (text : Text) : List UInt32 := text.map Char.val

/-- The spans of that encoding. -/
def unitSpans (n : ℕ) : List (ℕ × ℕ) := (List.range n).map fun i => (i, i + 1)

def unitEncode (text : Text) : Encoding := ⟨unitIds text, unitSpans text.length⟩

/-- The one-token-per-character encoder. -/
def unitEngine : Engine where
  encode text :=
    if text.length < 2 ^ 32 then .ok (unitEncode text) else .error ⟨"text too long"⟩
  append tail delta :=
    match TailState.fill (tail.text ++ delta) (unitEncode (tail.text ++ delta)) with
    | .ok grown => (.ok ⟨"extend", tail.nTokens⟩, grown)
    | .error _ => (.error ⟨"text too long"⟩, tail)
  lastCertifiedBoundary tail floorChar ceilChar :=
    if floorChar < ceilChar ∧ ceilChar < tail.nTokens then .ok (some ⟨ceilChar, ceilChar⟩)
    else .ok none
  witnessCategory := .BpeSyncTransition

@[simp] theorem length_unitIds (text : Text) : (unitIds text).length = text.length := by
  simp [unitIds]

@[simp] theorem length_unitSpans (n : ℕ) : (unitSpans n).length = n := by simp [unitSpans]

theorem unitIds_append (s t : Text) : unitIds (s ++ t) = unitIds s ++ unitIds t := by
  simp [unitIds]

theorem spansWithin_unitSpans (n : ℕ) : SpansWithin n (unitSpans n) := by
  intro p hp
  obtain ⟨i, hi, rfl⟩ := List.mem_map.mp hp
  rw [List.mem_range] at hi
  omega

end Toktier.StoreCore
