import Toktier.StoreCore.Sidecar

/-!
# Recovery and content digests

Two accumulators over a session's whole text: a SHA-256 state for the recovery
binding, and a personalized BLAKE2b state that records a mark at every power of
two from 4096 bytes on. A streaming state is the bytes fed to it. `append` on the
content digest works in place, so a failing one keeps the marks it has passed.

## Main definitions

* `RecoveryDigest`, `ContentDigest`, `ContentIndexEntry`.
* `RecoveryBindingV1`, the TKFR-v1 record that binds both to a session record.
-/
namespace Toktier.StoreCore

open Toktier.Lib

def RECOVERY_TEXT_DOMAIN : List UInt8 := utf8 "toktier.facade.v1.recovery-text".toList ++ [0]
def MARK_FLOOR_BYTES : ℕ := 4096
def MAX_MARKS : ℕ := 64
def STATE_DOMAIN : List UInt8 := utf8 "toktier.facade.v1.recovery-state".toList ++ [0]
def BINDING_MAGIC : List UInt8 := utf8 "TKFR".toList
def BINDING_VERSION : ℕ := 1
def HEADER_BYTES : ℕ := 4 + 2 + 32 + 8 + 32 + 16 + 4
def MARK_BYTES : ℕ := 8 + 16
def CHECKSUM_BYTES : ℕ := 32

/-! ## Recovery digest -/

/-- Incremental full-text state for the recovery binding. -/
structure RecoveryDigest where
  fed : List UInt8
  textBytes : ℕ
  deriving DecidableEq

/-- Integrity material: the record hash, and the digest of the complete text. -/
structure RecoveryMaterial where
  recordHash : BlockHash
  textBytes : ℕ
  textDigest : Bytes32
  deriving DecidableEq

namespace RecoveryDigest

def empty : RecoveryDigest := ⟨RECOVERY_TEXT_DOMAIN, 0⟩

def append (d : RecoveryDigest) (delta : Text) : Except StoreError RecoveryDigest :=
  if 2 ^ 64 ≤ d.textBytes + utf8Len delta then
    .error (.InvalidInput "text byte length exceeds u64")
  else .ok ⟨d.fed ++ utf8 delta, d.textBytes + utf8Len delta⟩

def fromText (text : Text) : Except StoreError RecoveryDigest := empty.append text

def material [Digests] (d : RecoveryDigest) (recordHash : BlockHash) : RecoveryMaterial :=
  ⟨recordHash, d.textBytes, sha256 d.fed⟩

theorem append_of_lt {d : RecoveryDigest} {delta : Text}
    (h : d.textBytes + utf8Len delta < 2 ^ 64) :
    d.append delta = .ok ⟨d.fed ++ utf8 delta, d.textBytes + utf8Len delta⟩ :=
  if_neg (by omega)

end RecoveryDigest

/-! ## Content digest -/

/-- A content-index row: the length, the digest at the end, and the marks. -/
structure ContentIndexEntry where
  byteLength : ℕ
  endDigest : Bytes16
  marks : List (ℕ × Bytes16)
  deriving DecidableEq

/-- Incremental content state. -/
structure ContentDigest where
  fed : List UInt8
  byteLength : ℕ
  marks : List (ℕ × Bytes16)
  nextMark : ℕ
  deriving DecidableEq

namespace ContentDigest

def empty : ContentDigest := ⟨[], 0, [], MARK_FLOOR_BYTES⟩

/-- The marks have not been passed yet: the state between two appends. -/
def Aligned (d : ContentDigest) : Prop := 1 ≤ d.nextMark ∧ d.byteLength ≤ d.nextMark

theorem aligned_empty : empty.Aligned := ⟨by decide, by decide⟩

section

variable [Digests]

/-- Feed `delta` up to each mark below `stop` and record it; the unfed rest is
returned. A mark doubles at every round, so `fuel` bounds the rounds. -/
def passMarks (stop : ℕ) : ℕ → List UInt8 → Fallible ContentDigest StoreError (List UInt8)
  | fuel, delta => do
    let d ← get
    if d.nextMark < stop then
      match fuel with
      | 0 => throw (.Internal "content mark moved backwards")
      | fuel + 1 =>
          throwIf (d.nextMark < d.byteLength) (.Internal "content mark moved backwards")
          let take := d.nextMark - d.byteLength
          let fed := d.fed ++ delta.take take
          let d := { d with
            fed, byteLength := d.nextMark, marks := d.marks ++ [(d.nextMark, blake2b16 fed)] }
          set d
          throwIf (2 ^ 64 ≤ d.nextMark * 2) (.InvalidInput "content mark exceeds u64")
          set { d with nextMark := d.nextMark * 2 }
          passMarks stop fuel (delta.drop take)
    else return delta

def append (delta : List UInt8) : Fallible ContentDigest StoreError Unit := do
  let d ← get
  let stop := d.byteLength + delta.length
  throwIf (2 ^ 64 ≤ stop) (.InvalidInput "text byte length exceeds u64")
  let rest ← passMarks stop MAX_MARKS delta
  modify fun d => { d with fed := d.fed ++ rest, byteLength := stop }

def fromBytes (data : List UInt8) : Except StoreError ContentDigest :=
  match (append data).run empty with
  | .ok _ d => .ok d
  | .error e _ => .error e

def entry (d : ContentDigest) : ContentIndexEntry := ⟨d.byteLength, blake2b16 d.fed, d.marks⟩

/-- Below `2 ^ 63` bytes no round overflows, and the rounds end before the fuel does. -/
theorem wp_passMarks {stop : ℕ} (hstop : stop ≤ 2 ^ 63) (fuel : ℕ) (delta : List UInt8)
    {d : ContentDigest} (hfuel : 2 ^ (64 - fuel) ≤ d.nextMark) (hle : fuel ≤ 64)
    (hb : d.byteLength ≤ d.nextMark) :
    wp (passMarks stop fuel delta) (fun _ d' => 1 ≤ d'.nextMark ∧ stop ≤ d'.nextMark)
      (fun _ _ => False) d := by
  induction fuel generalizing delta d with
  | zero =>
      have hbig : ¬d.nextMark < stop := by omega
      unfold passMarks
      simp only [wp_bind, wp_get, if_neg hbig, wp_pure]
      omega
  | succ fuel ih =>
      unfold passMarks
      simp only [wp_bind, wp_get]
      by_cases hlt : d.nextMark < stop
      · have hpow : 2 ^ (64 - fuel) = 2 ^ (64 - (fuel + 1)) * 2 := by
          rw [← pow_succ]
          congr 1
          omega
        simp only [if_pos hlt, wp_bind, wp_throwIf, wp_set]
        refine ⟨fun h => absurd h (by omega), fun _ => ⟨fun h => absurd h (by omega), fun _ => ?_⟩⟩
        refine ih _ ?_ (by omega) (by simp only; omega)
        rw [hpow]
        exact Nat.mul_le_mul_right 2 hfuel
      · have hpos : 1 ≤ d.nextMark := le_trans Nat.one_le_two_pow hfuel
        simp only [if_neg hlt, wp_pure]
        omega

/-- An append that stays within `2 ^ 63` bytes succeeds and keeps the marks ahead. -/
theorem wp_append {delta : List UInt8} {d : ContentDigest} (ha : d.Aligned)
    (hlen : d.byteLength + delta.length ≤ 2 ^ 63) :
    wp (append delta)
      (fun _ d' => d'.Aligned ∧ d'.byteLength = d.byteLength + delta.length)
      (fun _ _ => False) d := by
  unfold append
  simp only [wp_bind, wp_get, wp_throwIf, wp_modify]
  refine ⟨fun h => absurd h (by omega), fun _ => ?_⟩
  refine wp_mono (wp_passMarks hlen MAX_MARKS delta ?_ le_rfl ha.2) ?_ (fun _ _ h => h)
  · exact ha.1
  · rintro rest d' ⟨hpos, hstop⟩
    exact ⟨⟨hpos, hstop⟩, trivial⟩

/-- The scan of a text of at most `2 ^ 63` bytes succeeds. -/
theorem exists_fromBytes {data : List UInt8} (h : data.length ≤ 2 ^ 63) :
    ∃ d, fromBytes data = .ok d ∧ d.Aligned ∧ d.byteLength = data.length := by
  have hb : empty.byteLength = 0 := rfl
  have hw : wp (append data) _ _ empty := wp_append aligned_empty (by rw [hb]; omega)
  unfold fromBytes
  cases hrun : (append data).run empty with
  | ok _ d =>
      have hd := hw.of_ok hrun
      exact ⟨d, rfl, hd.1, by rw [hd.2, hb, Nat.zero_add]⟩
  | error e d => exact (hw.of_error hrun).elim

end

end ContentDigest

/-! ## The binding record -/

/-- Canonical TKFR-v1 recovery binding. -/
structure RecoveryBindingV1 where
  recordHash : BlockHash
  textDigest : Bytes32
  indexEntry : ContentIndexEntry
  deriving DecidableEq

/-- The marks must be the powers of two from the floor up, all below the length. -/
def validateMarks (byteLength : ℕ) : ℕ → List (ℕ × Bytes16) → Except StoreError Unit
  | expected, [] =>
      if expected < byteLength then
        .error (.InvalidInput "checkpoint positions are incomplete")
      else .ok ()
  | expected, (position, _) :: rest =>
      if position ≠ expected ∨ position ≥ byteLength then
        .error (.InvalidInput "checkpoint positions are not canonical")
      else if 2 ^ 64 ≤ expected * 2 then .error (.InvalidInput "checkpoint position overflow")
      else validateMarks byteLength (expected * 2) rest

def validateEntry (entry : ContentIndexEntry) : Except StoreError Unit :=
  if entry.marks.length > MAX_MARKS then .error (.InvalidInput "too many recovery checkpoints")
  else validateMarks entry.byteLength MARK_FLOOR_BYTES entry.marks

namespace RecoveryBindingV1

def markBytes (marks : List (ℕ × Bytes16)) : List UInt8 :=
  marks.flatMap fun m => leBytes 8 m.1 ++ m.2.bytes

def bodyBytes (b : RecoveryBindingV1) : List UInt8 :=
  BINDING_MAGIC ++ leBytes 2 BINDING_VERSION ++ b.recordHash.bytes ++
    leBytes 8 b.indexEntry.byteLength ++ b.textDigest.bytes ++ b.indexEntry.endDigest.bytes ++
    leBytes 4 b.indexEntry.marks.length ++ markBytes b.indexEntry.marks

/-- Take a field; a short body is an invalid input. -/
def takeField (n : ℕ) : Reader (List UInt8) :=
  takeBytes (.InvalidInput "recovery binding is truncated") n

def takeUint (n : ℕ) : Reader ℕ := leNat <$> takeField n

def take32 : Reader Bytes32 := do
  let raw ← takeField 32
  if h : raw.length = 32 then pure ⟨raw, h⟩
  else throw (.InvalidInput "recovery binding is truncated")

def take16 : Reader Bytes16 := do
  let raw ← takeField 16
  if h : raw.length = 16 then pure ⟨raw, h⟩
  else throw (.InvalidInput "recovery binding is truncated")

def readMarks : ℕ → Reader (List (ℕ × Bytes16))
  | 0 => pure []
  | n + 1 => do
      let position ← takeUint 8
      let digest ← take16
      let rest ← readMarks n
      return (position, digest) :: rest

def read (bodyLen : ℕ) : Reader RecoveryBindingV1 := do
  let magic ← takeField 4
  throwIf (magic ≠ BINDING_MAGIC) (.InvalidInput "recovery binding has bad magic")
  let version ← takeUint 2
  throwIf (version ≠ BINDING_VERSION) (.InvalidInput "recovery binding version is unsupported")
  let recordHash ← take32
  let byteLength ← takeUint 8
  let textDigest ← take32
  let endDigest ← take16
  let markCount ← takeUint 4
  throwIf (markCount > MAX_MARKS) (.InvalidInput "recovery binding has too many checkpoints")
  throwIf (bodyLen ≠ HEADER_BYTES + markCount * MARK_BYTES)
    (.InvalidInput "recovery binding size does not close")
  let marks ← readMarks markCount
  let indexEntry : ContentIndexEntry := { byteLength, endDigest, marks }
  fromExcept (validateEntry indexEntry)
  return { recordHash, textDigest, indexEntry }

section

variable [Digests]

def toBytes (b : RecoveryBindingV1) : Except StoreError (List UInt8) := do
  validateEntry b.indexEntry
  return sealBody STATE_DOMAIN b.bodyBytes

def fromBytes (raw : List UInt8) : Except StoreError RecoveryBindingV1 :=
  if raw.length < HEADER_BYTES + CHECKSUM_BYTES then
    .error (.InvalidInput "recovery binding is truncated")
  else
    let bodyLen := raw.length - CHECKSUM_BYTES
    let body := raw.take bodyLen
    if (checksum STATE_DOMAIN body).bytes ≠ raw.drop bodyLen then
      .error (.InvalidInput "recovery binding checksum mismatch")
    else (read bodyLen).runOn body

def fromStates (recordHash : BlockHash) (textDigest : Bytes32) (content : ContentDigest) :
    RecoveryBindingV1 :=
  ⟨recordHash, textDigest, content.entry⟩

end

end RecoveryBindingV1

end Toktier.StoreCore
