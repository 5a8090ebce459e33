import Toktier.StoreCore.RecordCodec
import Toktier.StoreCore.StoreLaws
import Toktier.StoreCore.Transport

/-!
# Rules for record transport

Weakest preconditions of the counted rejections, and what the gates shared by all imports
establish.

## Main results

* `wp_importRecordGates`: the gates change nothing but a counter.
-/
namespace Toktier.StoreCore

open Toktier.Lib

namespace Store

section Rejections

variable {α : Type} {S : Store}

@[simp] theorem sessions_countReject (S : Store) : S.countReject.sessions = S.sessions := rfl

@[simp] theorem wp_reject {Q : α → Store → Prop} {R : StoreError → Store → Prop} (e : StoreError) :
    wp (reject e) Q R S ↔ R e S.countReject := by
  simp [reject]

@[simp] theorem wp_rejectUnless {Q : Unit → Store → Prop} {R : StoreError → Store → Prop}
    (c : Prop) [Decidable c] (e : StoreError) :
    wp (rejectUnless c e) Q R S ↔ (c → Q () S) ∧ (¬c → R e S.countReject) := by
  by_cases h : c <;> simp [rejectUnless, h]

@[simp] theorem wp_counted {Q : α → Store → Prop} {R : StoreError → Store → Prop}
    (x : Except StoreError α) :
    wp (counted x) Q R S ↔
      (∀ a, x = .ok a → Q a S) ∧ (∀ e, x = .error e → R e S.countReject) := by
  cases x <;> simp [counted]

end Rejections

variable [Digests] {S : Store}

/-- What the gates of an import have established about a record. -/
structure GatesOk (key : KeyCtx) (recBytes : List UInt8) (eng : Engine) (parsed : SessionRecordV1)
    (sealedCount : ℕ) (tail : TailState) : Prop where
  decoded : SessionRecordV1.fromBytes recBytes = .ok parsed
  fingerprint : parsed.fingerprint = key.fingerprint
  witness : parsed.witness = eng.witnessCategory
  encoded : ∃ enc, eng.encodeStore parsed.tailText = .ok enc ∧
    TailState.fill parsed.tailText enc = .ok tail
  count : sealedCount + tail.nTokens = parsed.ids.length
  suffix : parsed.ids.drop sealedCount = tail.ids
  unsealed : sealedCount = 0 ↔ parsed.stablePrefixBytes = 0

/-- The gates of an import change nothing but a counter. -/
theorem wp_importRecordGates (key : KeyCtx) (recBytes : List UInt8) (eng : Engine) :
    wp (importRecordGates key recBytes eng)
      (fun r S' => S' = S ∧ GatesOk key recBytes eng r.1 r.2.1 r.2.2)
      (fun _ S' => S' = S ∨ S' = S.countReject) S := by
  unfold importRecordGates
  simp only [wp_bind, wp_counted, wp_rejectUnless, wp_fromExcept, wp_pure]
  refine ⟨?_, fun _ _ => .inr trivial⟩
  intro parsed hdec
  refine ⟨?_, fun _ => .inr trivial⟩
  intro hfp
  refine ⟨?_, fun _ => .inr trivial⟩
  intro hwit
  refine ⟨?_, fun _ _ => .inl trivial⟩
  intro enc henc
  refine ⟨?_, fun _ => .inr trivial⟩
  intro hlen
  refine ⟨?_, fun _ => .inr trivial⟩
  intro hsuffix
  refine ⟨?_, fun _ => .inr trivial⟩
  intro hzero
  refine ⟨?_, fun _ _ => .inl trivial⟩
  intro tail hfill
  have hids : tail.ids = enc.ids := (TailState.fill_ok hfill).2.1
  refine ⟨trivial, ⟨hdec, hfp, hwit, ⟨enc, henc, hfill⟩, ?_, ?_, hzero⟩⟩
  · rw [TailState.nTokens, hids]
    exact Nat.sub_add_cancel hlen
  · rw [hsuffix, hids]

/-- A decoded record is within the format's bounds. -/
theorem GatesOk.fullTextBytes_le {key : KeyCtx} {recBytes : List UInt8} {eng : Engine}
    {parsed : SessionRecordV1} {sealedCount : ℕ} {tail : TailState}
    (h : GatesOk key recBytes eng parsed sealedCount tail) :
    parsed.fullTextBytes ≤ MAX_FULL_TEXT_BYTES :=
  (SessionRecordV1.writable_of_decode (SessionRecordV1.fromBytes_eq_ok.mp h.decoded)).1.full_le

end Store

end Toktier.StoreCore
