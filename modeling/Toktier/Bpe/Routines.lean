import Mathlib.Logic.Function.Basic
import Toktier.Bpe.Tables

/-!
# The merge routines

A piece becomes one symbol a byte; bytes without an id are dropped. Three routines merge the
symbols: a thread merges one pair at a time, a warp and a block merge every occurrence of the
pair of the lowest rank in a round, or one occurrence when the rank is flagged. A table that
ignores merges looks the whole piece up first.

A value of `pair_lookup` is `none` for -1 and otherwise the rank and the merged id. Shared
arrays are functions of the index.

## Main definitions

* `kBpeThread`, `Memo`: the thread routine and the table of earlier results it reads.
* `bpeWarpOne`: the warp routine, on bit vectors of 128 positions.
* `kBpeLong`: the block routine.
-/
namespace Toktier.Bpe

/-- What the routines read of a tokenizer. -/
structure Tables where
  table : MergeTable
  byteId : UInt8 → Option ℕ
  ignoreMerges : Bool
  vocabLookup : List UInt8 → Option ℕ

/-- The whole piece as one token, looked for when merges are ignored. -/
def Tables.wholePiece (D : Tables) (piece : List UInt8) : Option ℕ :=
  if D.ignoreMerges then D.vocabLookup piece else none

/-- `v >= 0 && (best < 0 || (v >> 32) < (best >> 32))` -/
def better : Option (ℕ × ℕ) → Option (ℕ × ℕ) → Bool
  | none, _ => false
  | some _, none => true
  | some v, some best => v.1 < best.1

/-! ### One thread a piece -/

/-- The scan for the leftmost pair of the lowest rank: its value and its place. -/
def scanBest (pair : ℕ → ℕ → Option (ℕ × ℕ)) :
    ℕ → List ℕ → Option ((ℕ × ℕ) × ℕ) → Option ((ℕ × ℕ) × ℕ)
  | j, x :: y :: ids, best =>
    scanBest pair (j + 1) (y :: ids)
      (if better (pair x y) (best.map Prod.fst) then (pair x y).map (·, j) else best)
  | _, _, best => best

/-- The merge loop; each turn shortens the symbols by one. -/
def threadMerge (pair : ℕ → ℕ → Option (ℕ × ℕ)) : ℕ → List ℕ → List ℕ
  | 0, ids => ids
  | k + 1, ids =>
    match scanBest pair 0 ids none with
    | none => ids
    | some (best, bj) => threadMerge pair k ((ids.set bj best.2).eraseIdx (bj + 1))

/-- `MEMO_LEN` -/
def memoLen : ℕ := 16

/-- `MEMO_IDS` -/
def memoIds : ℕ := 8

/-- `MEMO_PROBE` -/
def memoProbe : ℕ := 4

/-- `memo_hash`: FNV-1a, never zero. -/
def memoHash (piece : List UInt8) : ℕ :=
  piece.foldl (fun h b => ((h ^^^ b.toNat) * 1099511628211) % 2 ^ 64) 1469598103934665603 ||| 1

/-- A slot of the memo table: the hash, the piece and its ids. -/
structure MemoSlot where
  key : ℕ
  bytes : List UInt8
  ids : List ℕ

/-- The memo table; an empty slot is `none`. -/
abbrev Memo := ℕ → Option MemoSlot

/-- The slots that a piece of hash `h` may use. -/
def memoSlots (mmask h : ℕ) : List ℕ :=
  (List.range memoProbe).map fun k => (h + k) % 2 ^ 32 &&& mmask

/-- Look through the slots for the piece; an empty one ends the search. -/
def memoSearch (memo : Memo) (piece : List UInt8) : List ℕ → Option (List ℕ)
  | [] => none
  | s :: slots =>
    match memo s with
    | none => none
    | some e =>
      if e.key ≠ memoHash piece then memoSearch memo piece slots
      else if e.bytes ≠ piece then memoSearch memo piece slots
      else some e.ids

/-- The memo fast path of a short piece. -/
def memoFind (memo : Memo) (mmask : ℕ) (piece : List UInt8) : Option (List ℕ) :=
  if piece.length ≤ memoLen then memoSearch memo piece (memoSlots mmask (memoHash piece)) else none

/-- Claim the first empty slot; a slot of the same hash ends the search. -/
def memoClaim (memo : Memo) (piece : List UInt8) (ids : List ℕ) : List ℕ → Memo
  | [] => memo
  | s :: slots =>
    match memo s with
    | none => Function.update memo s (some ⟨memoHash piece, piece, ids⟩)
    | some e => if e.key = memoHash piece then memo else memoClaim memo piece ids slots

/-- `k_memo_insert` for one piece. -/
def kMemoInsert (memo : Memo) (mmask : ℕ) (piece : List UInt8) (ids : List ℕ) : Memo :=
  if piece.length = 0 ∨ piece.length > memoLen then memo
  else if ids.length = 0 ∨ ids.length > memoIds then memo
  else memoClaim memo piece ids (memoSlots mmask (memoHash piece))

/-- `k_bpe_thread` for one piece. -/
def kBpeThread (D : Tables) (memo : Memo) (mmask : ℕ) (piece : List UInt8) : List ℕ :=
  match memoFind memo mmask piece with
  | some ids => ids
  | none =>
    match D.wholePiece piece with
    | some hit => [hit]
    | none =>
      let ids := piece.filterMap D.byteId
      threadMerge D.table.pairLookup ids.length ids

/-- The memo tables that calls of the thread routine build, from an empty one: what a call
inserts it computed with an earlier table. -/
inductive MemoReach (D : Tables) (mmask : ℕ) : Memo → Prop
  | empty : MemoReach D mmask fun _ => none
  | insert {before memo : Memo} (piece : List UInt8) (hb : MemoReach D mmask before)
      (hm : MemoReach D mmask memo) :
      MemoReach D mmask (kMemoInsert memo mmask piece (kBpeThread D before mmask piece))

/-! ### Bit vectors of 128 positions -/

/-- `B128` -/
structure B128 where
  lo : BitVec 64
  hi : BitVec 64
  deriving DecidableEq

namespace B128

/-- `shl128` -/
def shl (x : B128) (k : ℕ) : B128 :=
  if k = 0 then x
  else if k ≥ 64 then ⟨0, x.lo <<< (k - 64)⟩
  else ⟨x.lo <<< k, x.hi <<< k ||| x.lo >>> (64 - k)⟩

/-- `and128` -/
def and (a b : B128) : B128 := ⟨a.lo &&& b.lo, a.hi &&& b.hi⟩

/-- `or128` -/
def or (a b : B128) : B128 := ⟨a.lo ||| b.lo, a.hi ||| b.hi⟩

/-- `bit128` -/
def bit (x : B128) (j : ℕ) : Bool := if j < 64 then x.lo.getLsbD j else x.hi.getLsbD (j - 64)

/-- `__popcll` -/
def popcll (x : BitVec 64) : ℕ := (List.range 64).countP x.getLsbD

/-- The bits below `j` of a word. -/
def below (j : ℕ) : BitVec 64 := if j = 0 then 0 else BitVec.allOnes 64 >>> (64 - j)

/-- `rank128`: the number of bits below `j`. -/
def rank (x : B128) (j : ℕ) : ℕ :=
  if j < 64 then popcll (x.lo &&& below j)
  else popcll x.lo + popcll (x.hi &&& below (j - 64))

/-- The lowest bit alone. -/
def lowest (x : B128) : B128 :=
  if x.lo ≠ 0 then ⟨x.lo &&& (0 - x.lo), 0⟩ else ⟨0, x.hi &&& (0 - x.hi)⟩

/-- `hit` moved up by one position, as the kernel writes it out. -/
def shl1 (x : B128) : B128 := ⟨x.lo <<< 1, x.hi <<< 1 ||| x.lo >>> 63⟩

/-- The distances of the doubling loop. -/
def distances : List ℕ := [2, 4, 8, 16, 32, 64]

/-- The leftmost non-overlapping selection `sel[j] = hit[j] & ~sel[j-1]`, by doubling. -/
def select (hit : B128) : B128 :=
  let sel := hit.and ⟨~~~hit.shl1.lo, ~~~hit.shl1.hi⟩
  if (hit.lo &&& hit.shl1.lo) ||| (hit.hi &&& hit.shl1.hi) ≠ 0 then
    (distances.foldl (fun (st : B128 × B128) k =>
      (st.1.or ((st.1.shl k).and st.2), st.2.and (st.2.shl k))) (sel, hit)).1
  else sel

/-- The positions that a selection does not swallow. -/
def kept (sel : B128) : B128 := ⟨~~~(sel.shl 1).lo, ~~~(sel.shl 1).hi⟩

/-- The positions below `len`. -/
def lenmask (len : ℕ) : B128 :=
  ⟨if len ≥ 64 then BitVec.allOnes 64 else BitVec.allOnes 64 >>> (64 - len),
   if len ≤ 64 then 0
   else if len ≥ 128 then BitVec.allOnes 64 else BitVec.allOnes 64 >>> (128 - len)⟩

end B128

/-! ### One warp a piece -/

/-- The symbols, the cached pair values, the number of symbols, and whether the cache is
still to be filled. -/
structure WarpState where
  ids : ℕ → ℕ
  pvv : ℕ → Option (ℕ × ℕ)
  len : ℕ
  first : Bool

/-- The pair value that a lane reads at `j`. -/
def WarpState.vv (pair : ℕ → ℕ → Option (ℕ × ℕ)) (s : WarpState) (j : ℕ) : Option (ℕ × ℕ) :=
  if j < s.len - 1 then
    if s.first then pair (s.ids j) (s.ids (j + 1)) else s.pvv j
  else none

/-- The best of the four values of a lane. -/
def laneBest (vv : ℕ → Option (ℕ × ℕ)) (lane : ℕ) : Option (ℕ × ℕ) :=
  (List.range 4).foldl
    (fun my k => if better (vv (lane + 32 * k)) my then vv (lane + 32 * k) else my) none

/-- The rank and the lane packed into 32 bits. -/
def enc (my : Option (ℕ × ℕ)) (lane : ℕ) : ℕ :=
  match my with
  | some v => (v.1 <<< 5) % 2 ^ 32 ||| lane
  | none => 0xFFFFFFFF

/-- `__reduce_min_sync` over the packed values. -/
def reduceMin (vv : ℕ → Option (ℕ × ℕ)) : ℕ :=
  (List.range 32).foldl (fun win lane => min win (enc (laneBest vv lane) lane)) 0xFFFFFFFF

/-- `__ballot_sync`, as a word of 64 bits. -/
def ballot (p : ℕ → Bool) : BitVec 64 :=
  (List.range 32).foldl (fun w lane => if p lane then w ||| 1#64 <<< lane else w) 0

/-- The positions whose pair has the rank. -/
def hitBits (vv : ℕ → Option (ℕ × ℕ)) (len rank : ℕ) : B128 :=
  let hw := fun k => ballot fun lane =>
    let j := lane + 32 * k
    j < len - 1 && (vv j).any fun v => v.1 = rank
  ⟨hw 0 ||| hw 1 <<< 32, hw 2 ||| hw 3 <<< 32⟩

/-- In-place scatter: the value of a kept position goes to its rank among them. -/
def scatter {β : Type} (kept : B128) (len : ℕ) (f old : ℕ → β) (r : ℕ) : β :=
  match (List.range len).find? fun j => kept.bit j && kept.rank j == r with
  | some j => f j
  | none => old r

/-- Merge the selected positions into `mid`; the pairs next to one are looked up again. -/
def WarpState.compact (pair : ℕ → ℕ → Option (ℕ × ℕ)) (s : WarpState) (sel : B128) (mid : ℕ) :
    WarpState :=
  let kept := sel.kept
  let masked := kept.and (B128.lenmask s.len)
  let newlen := B128.popcll masked.lo + B128.popcll masked.hi
  let ids := scatter kept s.len (fun j => if sel.bit j then mid else s.ids j) s.ids
  let pvv := scatter kept s.len (s.vv pair) s.pvv
  let msel := scatter kept s.len sel.bit fun _ => false
  { ids := ids
    pvv := fun r =>
      if r < newlen - 1 ∧ (msel r ∨ msel (r + 1)) then pair (ids r) (ids (r + 1)) else pvv r
    len := newlen
    first := false }

/-- One round of the warp; `none` when no pair merges. -/
@[irreducible] def warpRound (T : MergeTable) (s : WarpState) : Option WarpState :=
  let vv := s.vv T.pairLookup
  let win := reduceMin vv
  if win = 0xFFFFFFFF then none
  else
    match laneBest vv (win &&& 31) with
    | none => none
    | some best =>
      let hit := hitBits vv s.len best.1
      let hit := if T.testUnsafe best.1 then hit.lowest else hit
      some (s.compact T.pairLookup hit.select best.2)

/-- The rounds of the warp; each shortens the symbols. -/
def warpLoop (T : MergeTable) : ℕ → WarpState → WarpState
  | 0, s => s
  | k + 1, s =>
    if s.len > 1 then
      match warpRound T s with
      | none => s
      | some s' => warpLoop T k s'
    else s

/-- The first symbols of the warp and block routines: compacted only when a byte has no id. -/
def firstSymbols (D : Tables) (piece : List UInt8) : List ℕ :=
  let ids := piece.map D.byteId
  if ids.any Option.isNone then ids.reduceOption else ids.map (·.getD 0)

/-- `bpe_warp_one`; what the shared arrays hold at the start is never read. -/
def bpeWarpOne (D : Tables) (piece : List UInt8) : List ℕ :=
  match D.wholePiece piece with
  | some hit => [hit]
  | none =>
    let m := firstSymbols D piece
    let s := warpLoop D.table m.length ⟨fun j => m.getD j 0, fun _ => none, m.length, true⟩
    (List.range s.len).map s.ids

/-! ### One block a piece -/

/-- The best pair that the thread `tid` of `dim` sees. -/
def threadBest (pair : ℕ → ℕ → Option (ℕ × ℕ)) (cur : List ℕ) (dim tid : ℕ) : Option (ℕ × ℕ) :=
  (List.range' tid ((cur.length - 1 - tid + dim - 1) / dim) dim).foldl
    (fun my j =>
      let v := pair (cur.getD j 0) (cur.getD (j + 1) 0)
      if better v my then v else my) none

/-- The tree reduction over `2 ^ k` threads. -/
def treeReduce : ℕ → (ℕ → Option (ℕ × ℕ)) → ℕ → Option (ℕ × ℕ)
  | 0, sh => sh
  | k + 1, sh => treeReduce k fun t =>
    if t < 2 ^ k then
      if (sh t).isNone || better (sh (t + 2 ^ k)) (sh t) then sh (t + 2 ^ k) else sh t
    else sh t

/-- The positions whose pair has the rank, as a bitmap in shared memory. -/
def candidates (pair : ℕ → ℕ → Option (ℕ × ℕ)) (cur : List ℕ) (rank : ℕ) : List ℕ :=
  (List.range (cur.length - 1)).foldl
    (fun cand j =>
      if (pair (cur.getD j 0) (cur.getD (j + 1) 0)).any fun v => v.1 = rank then setBit cand j
      else cand) (noBits cur.length)

/-- Whether the serial scan merges at `j`: by the bitmap, or by a lookup when it is too long. -/
def longHit (pair : ℕ → ℕ → Option (ℕ × ℕ)) (cur : List ℕ) (rank j : ℕ) : Bool :=
  if cur.length ≤ 65536 then testBit (candidates pair cur rank) j
  else (pair (cur.getD j 0) (cur.getD (j + 1) 0)).any fun v => v.1 = rank

/-- The serial merge scan from `j`; a flagged rank halts it after the first merge. -/
def longScan (hit : ℕ → Bool) (mid : ℕ) (ub : Bool) : ℕ → List ℕ → Bool → List ℕ
  | j, x :: y :: cur, halt =>
    if hit j && !halt then mid :: longScan hit mid ub (j + 2) cur ub
    else x :: longScan hit mid ub (j + 1) (y :: cur) halt
  | _, cur, _ => cur

/-- The rounds of a block of `2 ^ k` threads; each shortens the symbols. -/
def longLoop (T : MergeTable) (k : ℕ) : ℕ → List ℕ → List ℕ
  | 0, cur => cur
  | fuel + 1, cur =>
    if cur.length > 1 then
      match treeReduce k (threadBest T.pairLookup cur (2 ^ k)) 0 with
      | none => cur
      | some best =>
        longLoop T k fuel
          (longScan (longHit T.pairLookup cur best.1) best.2 (T.testUnsafe best.1) 0 cur false)
    else cur

/-- `k_bpe_long` for one piece, with `2 ^ k` threads in a block. -/
def kBpeLong (D : Tables) (k : ℕ) (piece : List UInt8) : List ℕ :=
  match D.wholePiece piece with
  | some hit => [hit]
  | none =>
    let cur := firstSymbols D piece
    longLoop D.table k cur.length cur

end Toktier.Bpe
