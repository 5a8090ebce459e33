import Toktier.Lib.Bytes
import Toktier.Lib.Utf8

/-!
# Errors, hashes and witness categories of the session store

The vocabulary shared by every module of the store: the error type, 32-byte
hashes, the registry of witness predicate categories, and the two hash
primitives. The primitives come from other crates, so they are the fields of a
class: a streaming state is the bytes fed to it, and finalizing hashes them.

64-bit counters of the store are natural numbers throughout. A checked addition
or conversion between 64-bit types that a session shorter than `2 ^ 64` bytes
never fails is plain arithmetic here; the 32-bit capacities, and the 64-bit ones
of the digests and of the record format, keep their checks.

## Main definitions

* `StoreError`: the errors of the store and of the codecs.
* `Bytes32`, `BlockHash`, `SemanticFingerprint`, `ZERO_HASH`.
* `Digests`: SHA-256 and the personalized 16-byte BLAKE2b.
* `WitnessCategory`, with its on-disk values.
-/
namespace Toktier.StoreCore

open Toktier.Lib

/-! ## Hashes -/

/-- A 32-byte string. -/
structure Bytes32 where
  bytes : List UInt8
  size_eq : bytes.length = 32
  deriving DecidableEq

/-- A SHA-256 output: chain hashes, digests, checksums. -/
abbrev BlockHash := Bytes32

/-- The opaque semantic fingerprint of a key. -/
abbrev SemanticFingerprint := Bytes32

/-- A 16-byte content digest. -/
structure Bytes16 where
  bytes : List UInt8
  size_eq : bytes.length = 16
  deriving DecidableEq

@[ext] theorem Bytes32.ext {a b : Bytes32} (h : a.bytes = b.bytes) : a = b := by
  cases a; cases b; congr

@[ext] theorem Bytes16.ext {a b : Bytes16} (h : a.bytes = b.bytes) : a = b := by
  cases a; cases b; congr

@[simp] theorem Bytes32.length_bytes (a : Bytes32) : a.bytes.length = 32 := a.size_eq
@[simp] theorem Bytes16.length_bytes (a : Bytes16) : a.bytes.length = 16 := a.size_eq

/-- The all-zero hash: the predecessor of a genesis record. -/
def ZERO_HASH : BlockHash := ⟨List.replicate 32 0, rfl⟩

/-- The hash primitives the store is built over. -/
class Digests where
  /-- SHA-256 of a byte string. -/
  sha256 : List UInt8 → BlockHash
  /-- BLAKE2b with a 16-byte output, personalized for the content index. -/
  blake2b16 : List UInt8 → Bytes16

export Digests (sha256 blake2b16)

/-! ## Witness categories -/

/-- Which class of certification predicate proved the current safe cut. -/
inductive WitnessCategory
  /-- No certified cut: the stream came from a from-scratch encode. -/
  | NoneFullReencode
  | BpeSyncTransition
  | WordpieceContinuation
  | MetaspaceWordStart
  deriving DecidableEq, Repr, Inhabited

/-- The on-disk value of a category. -/
def WitnessCategory.asU16 : WitnessCategory → ℕ
  | .NoneFullReencode => 0x0000
  | .BpeSyncTransition => 0x0001
  | .WordpieceContinuation => 0x0002
  | .MetaspaceWordStart => 0x0003

/-! ## Errors -/

/-- Errors of the session store and of its codecs. -/
inductive StoreError
  | Truncated (context : String)
  | BadMagic
  | UnsupportedFormatVersion (version : ℕ)
  | BadEndianMarker (marker : ℕ)
  | BadHeaderLength (headerLength recordLen : ℕ)
  | UnknownWitnessCategory (value : ℕ)
  | UnknownMandatoryFlags (bits : ℕ)
  | ChecksumMismatch
  | ChainLinkMismatch
  | MalformedRecord (msg : String)
  | RevisionConflict (expected actual : ℕ)
  | UnknownKey (id : ℕ)
  | UnknownSession (handle : ℕ)
  | FingerprintMismatch
  | WitnessCategoryMismatch (recorded engine : WitnessCategory)
  | GuardMismatch
  | InvalidConfig (msg : String)
  | InvalidInput (msg : String)
  | ImportReencodeMismatch
  | Engine (msg : String)
  /-- An internal invariant of the store was broken. -/
  | Internal (msg : String)
  deriving DecidableEq, Repr, Inhabited

/-- The error reports a broken invariant of the store itself. -/
def StoreError.IsInternal : StoreError → Prop
  | .Internal _ => True
  | _ => False

/-- Parse the on-disk value; an unknown value is a format rejection. -/
def WitnessCategory.fromU16 (v : ℕ) : Except StoreError WitnessCategory :=
  match v with
  | 0x0000 => .ok .NoneFullReencode
  | 0x0001 => .ok .BpeSyncTransition
  | 0x0002 => .ok .WordpieceContinuation
  | 0x0003 => .ok .MetaspaceWordStart
  | other => .error (.UnknownWitnessCategory other)

@[simp] theorem WitnessCategory.fromU16_asU16 (w : WitnessCategory) :
    WitnessCategory.fromU16 w.asU16 = .ok w := by cases w <;> rfl

theorem WitnessCategory.asU16_lt (w : WitnessCategory) : w.asU16 < 256 ^ 2 := by
  cases w <;> decide

theorem WitnessCategory.asU16_of_fromU16 {v : ℕ} {w : WitnessCategory}
    (h : WitnessCategory.fromU16 v = .ok w) : w.asU16 = v := by
  unfold WitnessCategory.fromU16 at h
  split at h <;> simp_all [WitnessCategory.asU16] <;> (subst h; rfl)

end Toktier.StoreCore
