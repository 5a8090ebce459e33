import Toktier.Lib.Probing
import Toktier.Lib.Utf8

/-!
# The exported merge tables

The exporter turns the model section of a tokenizer into two hash tables: one from pairs of
token ids to ranks and merged ids, and one from the bytes of tokens to their ids, which packs
where the bytes stand, how many they are and the id into one number. The kernels search both
by linear probing.

Token ids are natural numbers. The identity header and the cache file are left out.

## Main definitions

* `buildHash`: the tables of the exporter.
* `Model.export`: the export of a model section.
* `pairLookup`, `vocabLookup`: the searches of the kernels.
-/
namespace Toktier.Bpe.Export

open Toktier.Lib

/-- Why an export stops. -/
inductive ExportError
  /-- A merge entry or a token of one is not there. -/
  | keyError
  /-- "duplicate merge key {key}" -/
  | duplicateMergeKey (key : ℕ)
  /-- A number does not fit 64 bits. -/
  | overflow
  /-- "a family that ignores merges needs full byte-alphabet coverage; missing {bytes}" -/
  | missingBytes (bytes : List ℕ)
  /-- "a merge rule references the undecodable token {token}" -/
  | undecodableToken (token : Text)
  /-- "vocabulary entry exceeds the packing limits" -/
  | packingLimits
  /-- "hash collision between {raw} and {other}" -/
  | hashCollision (raw other : List UInt8)
  /-- A search for an empty slot that does not end. -/
  | endless
  deriving DecidableEq

/-! ### Byte-level tokens -/

/-- The bytes that stand for themselves. -/
def printableBytes : List ℕ := List.range' 33 94 ++ List.range' 161 12 ++ List.range' 174 82

/-- `bytes_to_unicode`: every byte with its character, the others from 256 on. -/
def bytesToUnicode : List (ℕ × ℕ) :=
  let others := (List.range 256).filter (· ∉ printableBytes)
  printableBytes.map (fun byte => (byte, byte)) ++ others.zipIdx.map fun b => (b.1, 256 + b.2)

/-- `_UNICODE_TO_BYTE[char]` -/
def unicodeToByte (char : Char) : Option UInt8 :=
  (bytesToUnicode.find? fun b => b.2 = char.toNat).map fun b => UInt8.ofNat b.1

/-- `token_to_raw` -/
def tokenToRaw : Text → Option (List UInt8)
  | [] => some []
  | char :: token => do
    let byte ← unicodeToByte char
    let raw ← tokenToRaw token
    some (byte :: raw)

/-! ### Hashes -/

def FNV_OFFSET : ℕ := 0xCBF29CE484222325

def FNV_PRIME : ℕ := 0x100000001B3

/-- The key of an empty slot. -/
def EMPTY : ℕ := 0xFFFFFFFFFFFFFFFF

/-- `fnv1a64` -/
def fnv1a64 (data : List UInt8) : ℕ :=
  data.foldl (fun value byte => ((value ^^^ byte.toNat) * FNV_PRIME) &&& 0xFFFFFFFFFFFFFFFF)
    FNV_OFFSET

/-- `_splitmix64` -/
def splitmix64 (value : ℕ) : ℕ :=
  let value := (value + 0x9E3779B97F4A7C15) &&& 0xFFFFFFFFFFFFFFFF
  let value := ((value ^^^ (value >>> 30)) * 0xBF58476D1CE4E5B9) &&& 0xFFFFFFFFFFFFFFFF
  let value := ((value ^^^ (value >>> 27)) * 0x94D049BB133111EB) &&& 0xFFFFFFFFFFFFFFFF
  value ^^^ (value >>> 31)

/-- A table of 64-bit keys and values. -/
structure HashTable where
  size : ℕ
  keys : ℕ → ℕ
  vals : ℕ → ℕ

/-- Double the size until it is large enough; `fuel` turns are enough for `want`. -/
def growSize (want : ℕ) : ℕ → ℕ → ℕ
  | 0, size => size
  | fuel + 1, size => if size < want then growSize want fuel (size * 2) else size

/-- The number of slots for `n` keys. -/
def tableSize (n : ℕ) : ℕ := growSize (n * 3) (n * 3) 1

/-- Put one key into the first empty slot of its walk. -/
def HashTable.put (t : HashTable) (key value : ℕ) : Except ExportError HashTable :=
  let visit (slot : ℕ) : Option (Except ExportError ℕ) :=
    if t.keys slot ≠ EMPTY then
      if t.keys slot = key then some (.error (.duplicateMergeKey key)) else none
    else some (.ok slot)
  match walk visit (t.size - 1) t.size (splitmix64 key &&& (t.size - 1)) with
  | none => .error .endless
  | some (.error e) => .error e
  | some (.ok slot) =>
    if key < 2 ^ 64 ∧ value < 2 ^ 64 then
      .ok { t with
        keys := Function.update t.keys slot key
        vals := Function.update t.vals slot value }
    else .error .overflow

/-- Put the keys in, one after the other. -/
def HashTable.putAll (t : HashTable) : List (ℕ × ℕ) → Except ExportError HashTable
  | [] => .ok t
  | p :: pairs => do
    let t ← t.put p.1 p.2
    t.putAll pairs

/-- `_build_hash` -/
def buildHash (pairs : List (ℕ × ℕ)) : Except ExportError HashTable :=
  HashTable.putAll ⟨tableSize pairs.length, fun _ => EMPTY, fun _ => 0⟩ pairs

/-! ### The model section -/

/-- An entry of the merge list: a pair, or two tokens with a space between. -/
inductive RawMerge
  | pair (left right : Text)
  | line (text : Text)

/-- `merge if isinstance(merge, list) else merge.split(" ", 1)` -/
def RawMerge.parts : RawMerge → Option (Text × Text)
  | .pair left right => some (left, right)
  | .line text =>
    match text.dropWhile (· ≠ ' ') with
    | _ :: right => some (text.takeWhile (· ≠ ' '), right)
    | [] => none

/-- The model section of a tokenizer file. -/
structure Model where
  vocab : List (Text × ℕ)
  vocab_nodup : (vocab.map Prod.fst).Nodup
  merges : List RawMerge
  ignoreMerges : Bool

/-- `vocab[token]` -/
def Model.id (M : Model) (token : Text) : Except ExportError ℕ :=
  match M.vocab.lookup token with
  | some id => .ok id
  | none => .error .keyError

/-- The keys and the values of the pair table, from a rank on. -/
def Model.exportPairs (M : Model) : ℕ → List RawMerge → Except ExportError (List (ℕ × ℕ))
  | _, [] => .ok []
  | rank, merge :: merges =>
    match merge.parts with
    | none => .error .keyError
    | some (left, right) => do
      let idl ← M.id left
      let idr ← M.id right
      let merged ← M.id (left ++ right)
      let pairs ← M.exportPairs (rank + 1) merges
      .ok (((idl <<< 32) ||| idr, (rank <<< 32) ||| merged) :: pairs)

/-- `merge_referenced`: the tokens of the merge rules. -/
def Model.referenced (M : Model) : List Text :=
  M.merges.flatMap fun merge =>
    match merge.parts with
    | none => []
    | some (left, right) => [left, right, left ++ right]

/-- `byte_id[byte]`; `none` is -1. -/
def Model.byteId (M : Model) (byte : ℕ) : Option ℕ := do
  let code ← bytesToUnicode.lookup byte
  M.vocab.lookup [Char.ofNat code]

/-- The packed value of a token. -/
def packed (offset length id : ℕ) : ℕ := (offset <<< 30) ||| (length <<< 20) ||| id

/-- Tokens are compared character by character. -/
theorem lawfulBEq_token : LawfulBEq Text := inferInstance

attribute [local instance] lawfulBEq_token

/-- The keys and the values of the vocabulary table, and the bytes of the tokens. -/
def exportVocab (referenced : List Text) : List (Text × ℕ) → List UInt8 → List (ℕ × List UInt8) →
    Except ExportError (List (ℕ × ℕ) × List UInt8)
  | [], blob, _ => .ok ([], blob)
  | (token, id) :: vocab, blob, seen =>
    match tokenToRaw token with
    | none =>
      if token ∈ referenced then .error (.undecodableToken token)
      else exportVocab referenced vocab blob seen
    | some raw =>
      if raw.length ≥ 1024 ∨ blob.length ≥ 1 <<< 34 then .error .packingLimits
      else
        match seen.lookup (fnv1a64 raw) with
        | some other =>
          if other ≠ raw then .error (.hashCollision raw other)
          else exportVocab referenced vocab blob seen
        | none => do
          let (entries, all) ← exportVocab referenced vocab (blob ++ raw) ((fnv1a64 raw, raw) :: seen)
          .ok ((fnv1a64 raw, packed blob.length raw.length id) :: entries, all)

/-- The exported arrays. -/
structure Exported where
  pairs : HashTable
  byteId : ℕ → Option ℕ
  vocab : HashTable
  blob : List UInt8

/-- `BpeTableStore.export` -/
def Model.export (M : Model) : Except ExportError Exported := do
  let pairs ← M.exportPairs 0 M.merges
  let pairTable ← buildHash pairs
  let missing := (List.range 256).filter fun byte => (M.byteId byte).isNone
  if missing ≠ [] ∧ M.ignoreMerges then .error (.missingBytes missing)
  let (entries, blob) ← exportVocab M.referenced M.vocab [] []
  let vocabTable ← buildHash entries
  .ok ⟨pairTable, M.byteId, vocabTable, blob⟩

/-! ### The searches of the kernels -/

/-- `splitmix64_d` -/
def splitmix64d (x : BitVec 64) : BitVec 64 :=
  let x := x + 0x9E3779B97F4A7C15#64
  let x := (x ^^^ (x >>> 30)) * 0xBF58476D1CE4E5B9#64
  let x := (x ^^^ (x >>> 27)) * 0x94D049BB133111EB#64
  x ^^^ (x >>> 31)

/-- `u32_of(count - 1)?`: the mask of a launch, which a table of more slots does not get. -/
def HashTable.mask (t : HashTable) : Option ℕ :=
  if t.size - 1 < 2 ^ 32 then some (t.size - 1) else none

/-- `(unsigned)splitmix64_d(key) & mask` -/
def start (key : BitVec 64) (mask : ℕ) : ℕ := (splitmix64d key).toNat % 2 ^ 32 &&& mask

/-- `pair_lookup`: the packed value, or -1. There is none for a table that is not launched, and
as long as `fuel` slots are not enough. -/
def pairLookup (t : HashTable) (fuel : ℕ) (idl idr : BitVec 32) : Option ℤ := do
  let mask ← t.mask
  let key := idl.setWidth 64 <<< 32 ||| idr.setWidth 64
  let visit (i : ℕ) : Option ℤ :=
    if t.keys i = EMPTY then some (-1)
    else if t.keys i = key.toNat then some (BitVec.ofNat 64 (t.vals i)).toInt
    else none
  walk visit mask fuel (start key mask)

/-- The hash of a piece. -/
def pieceHash (piece : List UInt8) : BitVec 64 :=
  piece.foldl (fun h byte => (h ^^^ byte.toBitVec.setWidth 64) * 0x100000001B3#64)
    0xCBF29CE484222325#64

/-- `vocab_lookup`: the id of the piece, or -1; `mem` is what lies behind the bytes of the
tokens. -/
def vocabLookup (t : HashTable) (blob : List UInt8) (mem : ℕ → UInt8) (fuel : ℕ)
    (piece : List UInt8) : Option ℤ := do
  let mask ← t.mask
  let h := pieceHash piece
  let visit (i : ℕ) : Option ℤ :=
    if t.keys i = EMPTY then some (-1)
    else if t.keys i = h.toNat then
      let v := t.vals i
      let len := (v >>> 20) &&& 0x3FF
      let off := v >>> 30
      if len = piece.length ∧ ∀ j < piece.length, blob.getD (off + j) (mem (off + j)) = piece.getD j 0
      then some (v &&& 0xFFFFF : ℕ)
      else none
    else none
  walk visit mask fuel (start h mask)

end Toktier.Bpe.Export
