import Mathlib.Algebra.Ring.Nat

/-!
# SHA-256

The hash function on byte strings, as an executable definition: padding, the message
schedule as a window of sixteen words, and the compression rounds. Words are natural
numbers below `2 ^ 32`.

## Main definitions

* `Sha256.compress`: one block.
* `Sha256.digest`: the 32 bytes of the digest.
-/
namespace Toktier.Lib.Sha256

/-! ## Words -/

def add (x y : Nat) : Nat := (x + y) % 2 ^ 32

def rotr (n x : Nat) : Nat := (x >>> n) ||| ((x <<< (32 - n)) % 2 ^ 32)

def ch (x y z : Nat) : Nat := (x &&& y) ^^^ ((2 ^ 32 - 1 - x) &&& z)

def maj (x y z : Nat) : Nat := (x &&& y) ^^^ (x &&& z) ^^^ (y &&& z)

def bigSigma0 (x : Nat) : Nat := rotr 2 x ^^^ rotr 13 x ^^^ rotr 22 x

def bigSigma1 (x : Nat) : Nat := rotr 6 x ^^^ rotr 11 x ^^^ rotr 25 x

def smallSigma0 (x : Nat) : Nat := rotr 7 x ^^^ rotr 18 x ^^^ (x >>> 3)

def smallSigma1 (x : Nat) : Nat := rotr 17 x ^^^ rotr 19 x ^^^ (x >>> 10)

/-- The round constants. -/
def K : List Nat :=
  [0x428a2f98, 0x71374491, 0xb5c0fbcf, 0xe9b5dba5, 0x3956c25b, 0x59f111f1, 0x923f82a4, 0xab1c5ed5,
    0xd807aa98, 0x12835b01, 0x243185be, 0x550c7dc3, 0x72be5d74, 0x80deb1fe, 0x9bdc06a7, 0xc19bf174,
    0xe49b69c1, 0xefbe4786, 0x0fc19dc6, 0x240ca1cc, 0x2de92c6f, 0x4a7484aa, 0x5cb0a9dc, 0x76f988da,
    0x983e5152, 0xa831c66d, 0xb00327c8, 0xbf597fc7, 0xc6e00bf3, 0xd5a79147, 0x06ca6351, 0x14292967,
    0x27b70a85, 0x2e1b2138, 0x4d2c6dfc, 0x53380d13, 0x650a7354, 0x766a0abb, 0x81c2c92e, 0x92722c85,
    0xa2bfe8a1, 0xa81a664b, 0xc24b8b70, 0xc76c51a3, 0xd192e819, 0xd6990624, 0xf40e3585, 0x106aa070,
    0x19a4c116, 0x1e376c08, 0x2748774c, 0x34b0bcb5, 0x391c0cb3, 0x4ed8aa4a, 0x5b9cca4f, 0x682e6ff3,
    0x748f82ee, 0x78a5636f, 0x84c87814, 0x8cc70208, 0x90befffa, 0xa4506ceb, 0xbef9a3f7, 0xc67178f2]

/-! ## Compression -/

/-- The eight working words. -/
structure State where
  a : Nat
  b : Nat
  c : Nat
  d : Nat
  e : Nat
  f : Nat
  g : Nat
  h : Nat

def State.init : State :=
  ⟨0x6a09e667, 0xbb67ae85, 0x3c6ef372, 0xa54ff53a, 0x510e527f, 0x9b05688c, 0x1f83d9ab, 0x5be0cd19⟩

def State.round (s : State) (k w : Nat) : State :=
  let t1 := add (add (add s.h (bigSigma1 s.e)) (add (ch s.e s.f s.g) k)) w
  let t2 := add (bigSigma0 s.a) (maj s.a s.b s.c)
  ⟨add t1 t2, s.a, s.b, s.c, add s.d t1, s.e, s.f, s.g⟩

/-- The window of the schedule moves on by one word. -/
def slide (ws : List Nat) : List Nat :=
  ws.drop 1 ++ [add (add (smallSigma1 (ws.getD 14 0)) (ws.getD 9 0))
    (add (smallSigma0 (ws.getD 1 0)) (ws.getD 0 0))]

def rounds : List Nat → List Nat → State → State
  | [], _, s => s
  | k :: ks, ws, s => rounds ks (slide ws) (s.round k (ws.getD 0 0))

/-- The big-endian words of a byte string. -/
def words : List UInt8 → List Nat
  | b0 :: b1 :: b2 :: b3 :: rest =>
      (b0.toNat * 2 ^ 24 + b1.toNat * 2 ^ 16 + b2.toNat * 2 ^ 8 + b3.toNat) :: words rest
  | _ => []

def compress (s : State) (block : List UInt8) : State :=
  let t := rounds K (words block) s
  ⟨add s.a t.a, add s.b t.b, add s.c t.c, add s.d t.d, add s.e t.e, add s.f t.f, add s.g t.g,
    add s.h t.h⟩

/-! ## Messages -/

/-- The big-endian bytes of a number. -/
def beBytes (width n : Nat) : List UInt8 :=
  (List.range width).map fun i => UInt8.ofNat (n >>> (8 * (width - 1 - i)))

/-- The message, the delimiter, zeros up to a whole block, and the length in bits. -/
def pad (message : List UInt8) : List UInt8 :=
  message ++ [0x80] ++ List.replicate ((119 - message.length % 64) % 64) 0 ++
    beBytes 8 (8 * message.length)

/-- Compress whole blocks off the front. -/
def absorb : Nat → List UInt8 → State → State
  | 0, _, s => s
  | blocks + 1, bytes, s => absorb blocks (bytes.drop 64) (compress s (bytes.take 64))

/-- The digest of a message. -/
def digest (message : List UInt8) : List UInt8 :=
  let padded := pad message
  let s := absorb (padded.length / 64) padded .init
  beBytes 4 s.a ++ beBytes 4 s.b ++ beBytes 4 s.c ++ beBytes 4 s.d ++ beBytes 4 s.e ++
    beBytes 4 s.f ++ beBytes 4 s.g ++ beBytes 4 s.h

@[simp] theorem length_beBytes (width n : Nat) : (beBytes width n).length = width := by
  simp [beBytes]

@[simp] theorem length_digest (message : List UInt8) : (digest message).length = 32 := by
  simp [digest]

end Toktier.Lib.Sha256
