import Mathlib.Algebra.Ring.Nat

/-!
# BLAKE2b

Unkeyed BLAKE2b on byte strings with a chosen digest length and personalization, as an
executable definition. Words are natural numbers below `2 ^ 64`.

## Main definitions

* `Blake2b.compress`: one block.
* `Blake2b.digest`: the digest of a message.
-/
namespace Toktier.Lib.Blake2b

/-! ## Words -/

def add (x y : Nat) : Nat := (x + y) % 2 ^ 64

def rotr (n x : Nat) : Nat := (x >>> n) ||| ((x <<< (64 - n)) % 2 ^ 64)

def IV : List Nat :=
  [0x6a09e667f3bcc908, 0xbb67ae8584caa73b, 0x3c6ef372fe94f82b, 0xa54ff53a5f1d36f1,
    0x510e527fade682d1, 0x9b05688c2b3e6c1f, 0x1f83d9abfb41bd6b, 0x5be0cd19137e2179]

/-- The message word order of the twelve rounds. -/
def SIGMA : List (List Nat) :=
  [[0, 1, 2, 3, 4, 5, 6, 7, 8, 9, 10, 11, 12, 13, 14, 15],
    [14, 10, 4, 8, 9, 15, 13, 6, 1, 12, 0, 2, 11, 7, 5, 3],
    [11, 8, 12, 0, 5, 2, 15, 13, 10, 14, 3, 6, 7, 1, 9, 4],
    [7, 9, 3, 1, 13, 12, 11, 14, 2, 6, 5, 10, 4, 0, 15, 8],
    [9, 0, 5, 7, 2, 4, 10, 15, 14, 1, 11, 12, 6, 8, 3, 13],
    [2, 12, 6, 10, 0, 11, 8, 3, 4, 13, 7, 5, 15, 14, 1, 9],
    [12, 5, 1, 15, 14, 13, 4, 10, 0, 7, 6, 3, 9, 2, 8, 11],
    [13, 11, 7, 14, 12, 1, 3, 9, 5, 0, 15, 4, 8, 6, 2, 10],
    [6, 15, 14, 9, 11, 3, 0, 8, 12, 2, 13, 7, 1, 4, 10, 5],
    [10, 2, 8, 4, 7, 6, 1, 5, 15, 11, 9, 14, 3, 12, 13, 0],
    [0, 1, 2, 3, 4, 5, 6, 7, 8, 9, 10, 11, 12, 13, 14, 15],
    [14, 10, 4, 8, 9, 15, 13, 6, 1, 12, 0, 2, 11, 7, 5, 3]]

/-! ## Compression -/

/-- The mixing of four of the sixteen working words. -/
def mix (v : List Nat) (a b c d x y : Nat) : List Nat :=
  let va := add (add (v.getD a 0) (v.getD b 0)) x
  let vd := rotr 32 (v.getD d 0 ^^^ va)
  let vc := add (v.getD c 0) vd
  let vb := rotr 24 (v.getD b 0 ^^^ vc)
  let va' := add (add va vb) y
  let vd' := rotr 16 (vd ^^^ va')
  let vc' := add vc vd'
  let vb' := rotr 63 (vb ^^^ vc')
  (((v.set a va').set d vd').set c vc').set b vb'

/-- One round: the columns, then the diagonals. -/
def round (m : List Nat) (v : List Nat) (order : List Nat) : List Nat :=
  let w := fun i => m.getD (order.getD i 0) 0
  let v := mix v 0 4 8 12 (w 0) (w 1)
  let v := mix v 1 5 9 13 (w 2) (w 3)
  let v := mix v 2 6 10 14 (w 4) (w 5)
  let v := mix v 3 7 11 15 (w 6) (w 7)
  let v := mix v 0 5 10 15 (w 8) (w 9)
  let v := mix v 1 6 11 12 (w 10) (w 11)
  let v := mix v 2 7 8 13 (w 12) (w 13)
  mix v 3 4 9 14 (w 14) (w 15)

/-- The little-endian number of a byte string. -/
def leNat : List UInt8 → Nat
  | [] => 0
  | b :: rest => b.toNat + 256 * leNat rest

/-- The `count` little-endian words of a block; a short block is filled with zeros. -/
def words (count : Nat) (block : List UInt8) : List Nat :=
  (List.range count).map fun i => leNat ((block.drop (8 * i)).take 8)

/-- Compress one block; `counter` bytes have been read so far, this block included. -/
def compress (h : List Nat) (block : List UInt8) (counter : Nat) (last : Bool) : List Nat :=
  let v := h ++ IV
  let v := v.set 12 (v.getD 12 0 ^^^ counter % 2 ^ 64)
  let v := v.set 13 (v.getD 13 0 ^^^ counter / 2 ^ 64 % 2 ^ 64)
  let v := if last then v.set 14 (2 ^ 64 - 1 - v.getD 14 0) else v
  let v := SIGMA.foldl (round (words 16 block)) v
  (List.range 8).map fun i => h.getD i 0 ^^^ v.getD i 0 ^^^ v.getD (i + 8) 0

/-! ## Messages -/

/-- The state before the first block: the constants over the parameter block. -/
def init (length : Nat) (person : List UInt8) : List Nat :=
  let params := [0x01010000 ||| length, 0, 0, 0, 0, 0] ++ words 2 person
  List.zipWith (· ^^^ ·) IV params

/-- Compress a message of `size` bytes block by block; the last block may be short. -/
def absorb (size : Nat) : Nat → List UInt8 → List Nat → List Nat
  | 0, bytes, h => compress h bytes size true
  | more + 1, bytes, h =>
      absorb size more (bytes.drop 128) (compress h (bytes.take 128) (size - (bytes.length - 128)) false)

/-- The bytes of the state words. -/
def stateBytes (h : List Nat) : List UInt8 :=
  h.flatMap fun w => (List.range 8).map fun i => UInt8.ofNat (w >>> (8 * i))

/-- The digest of a message, for lengths of at most 64 bytes. -/
def digest (length : Nat) (person message : List UInt8) : List UInt8 :=
  let h := absorb message.length ((message.length - 1) / 128) message (init length person)
  (stateBytes h ++ List.replicate length 0).take length

@[simp] theorem length_digest (length : Nat) (person message : List UInt8) :
    (digest length person message).length = length := by
  simp only [digest, List.length_take, List.length_append, List.length_replicate]
  omega

end Toktier.Lib.Blake2b
