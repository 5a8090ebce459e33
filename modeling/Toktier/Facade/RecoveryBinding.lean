import Toktier.Facade.EntryStore
import Toktier.Lib.Hex
import Toktier.StoreCore.RecoveryCodec

/-!
# The recovery binding of the Python face

The same record as the native one, over hexadecimal digests, with all positions computed from
the length and each digest from a slice of the whole text.

## Main definitions

* `RecoveryBinding`, with `create`, `toBytes` and `fromBytes`.
* `RecoveryBinding.ofNative`: the native binding, as the Python face has it.
* `nativeBytes`: what the native side writes for a text that was appended in pieces.
-/
namespace Toktier.Facade

open Toktier.Lib Toktier.StoreCore Entries

def DIGEST_BYTES : ℕ := 16
def TEXT_DOMAIN : List UInt8 := utf8 "toktier.facade.v1.recovery-text".toList ++ [0]

/-- `IndexEntry`: its digests are hexadecimal texts. -/
abbrev IndexEntry := Row Text

def decodeDigest (value : Text) : Except String (List UInt8) :=
  if value.length ≠ DIGEST_BYTES * 2 then .error "checkpoint digest has the wrong length"
  else
    match fromHex? value with
    | none => .error "checkpoint digest is not hexadecimal"
    | some result =>
      if result.length ≠ DIGEST_BYTES then .error "checkpoint digest has the wrong length"
      else .ok result

/-- `RecoveryBinding` -/
structure RecoveryBinding where
  recordHash : List UInt8
  textDigest : List UInt8
  indexEntry : IndexEntry
  deriving DecidableEq

namespace RecoveryBinding

/-- `struct.pack` of an unsigned field. -/
def pack (width value : ℕ) : Except String (List UInt8) :=
  if value < 256 ^ width then .ok (leBytes width value) else .error "argument out of range"

/-- The rows of the checkpoints. -/
def packMarks : List (ℕ × Text) → Except String (List UInt8)
  | [] => .ok []
  | (position, digest) :: marks => do
    let digest ← decodeDigest digest
    let position ← pack 8 position
    let rest ← packMarks marks
    return position ++ digest ++ rest

/-- `n` rows from the front of the bytes. -/
def unpackMarks : ℕ → List UInt8 → List (ℕ × Text)
  | 0, _ => []
  | n + 1, raw => (leNat (raw.take 8), hex ((raw.drop 8).take 16)) :: unpackMarks n (raw.drop 24)

section

variable [Digests]

def digestOf (data : List UInt8) : Text := hex (blake2b16 data).bytes

def create (data recordHash : List UInt8) : Except String RecoveryBinding :=
  if recordHash.length ≠ 32 then .error "record hash must be 32 bytes"
  else .ok ⟨recordHash, (sha256 (TEXT_DOMAIN ++ data)).bytes, entryFor digestOf data⟩

def toBytes (b : RecoveryBinding) : Except String (List UInt8) :=
  let row := b.indexEntry
  if b.recordHash.length ≠ 32 ∨ b.textDigest.length ≠ 32 then
    .error "recovery hashes must be 32 bytes"
  else if row.marks.map Prod.fst ≠ markPositions row.byteLength then
    .error "checkpoint positions are not canonical"
  else if row.marks.length > MAX_MARKS then .error "too many recovery checkpoints"
  else do
    let endpoint ← decodeDigest row.endDigest
    let byteLength ← pack 8 row.byteLength
    let count ← pack 4 row.marks.length
    let marks ← packMarks row.marks
    let body := BINDING_MAGIC ++ leBytes 2 BINDING_VERSION ++ b.recordHash ++ byteLength ++
      b.textDigest ++ endpoint ++ count ++ marks
    return body ++ (sha256 (STATE_DOMAIN ++ body)).bytes

def fromBytes (raw : List UInt8) : Except String RecoveryBinding :=
  if raw.length < HEADER_BYTES + CHECKSUM_BYTES then .error "recovery binding is truncated"
  else
    let body := raw.take (raw.length - CHECKSUM_BYTES)
    if (sha256 (STATE_DOMAIN ++ body)).bytes ≠ raw.drop (raw.length - CHECKSUM_BYTES) then
      .error "recovery binding checksum mismatch"
    else
      let magic := body.take 4
      let version := leNat ((body.drop 4).take 2)
      let recordHash := (body.drop 6).take 32
      let byteLength := leNat ((body.drop 38).take 8)
      let textDigest := (body.drop 46).take 32
      let endpoint := (body.drop 78).take 16
      let markCount := leNat ((body.drop 94).take 4)
      if magic ≠ BINDING_MAGIC then .error "recovery binding has bad magic"
      else if version ≠ BINDING_VERSION then .error "recovery binding version is unsupported"
      else if markCount > MAX_MARKS then .error "recovery binding has too many checkpoints"
      else if body.length ≠ HEADER_BYTES + markCount * MARK_BYTES then
        .error "recovery binding size does not close"
      else
        let marks := unpackMarks markCount (body.drop HEADER_BYTES)
        if marks.map Prod.fst ≠ markPositions byteLength then
          .error "recovery checkpoint positions are not canonical"
        else .ok ⟨recordHash, textDigest, byteLength, hex endpoint, marks⟩

end

end RecoveryBinding

/-! ### The two faces -/

/-- The binding that the native side holds, as the Python face has it. -/
def RecoveryBinding.ofNative (b : RecoveryBindingV1) : RecoveryBinding where
  recordHash := b.recordHash.bytes
  textDigest := b.textDigest.bytes
  indexEntry := ⟨b.indexEntry.byteLength, hex b.indexEntry.endDigest.bytes,
    b.indexEntry.marks.map fun m => (m.1, hex m.2.bytes)⟩

/-- What the native side writes for a text that was appended in pieces. -/
def nativeBytes [Digests] (pieces : List Text) (recordHash : BlockHash) :
    Except StoreError (List UInt8) := do
  let recovery ← pieces.foldlM RecoveryDigest.append RecoveryDigest.empty
  match (ContentDigest.appendAll (pieces.map utf8)).run ContentDigest.empty with
  | .error e _ => .error e
  | .ok _ content =>
    (RecoveryBindingV1.fromStates recordHash (recovery.material recordHash).textDigest
      content).toBytes

end Toktier.Facade
