import Mathlib.Data.Prod.Lex
import Mathlib.Logic.Function.Basic
import Toktier.Lib.RankMerging

/-!
# The merge loops of the CPU tokenizer

A pretoken is encoded by merging its initial symbols, the pair of the lowest rank first. Short
sequences are merged over a few small arrays that are scanned for the lowest rank, long ones
with a heap of the pairs. Both keep the symbols that are left in a list of linked positions.

## Main definitions

* `mergeSlice`: the scanned loop.
* `mergeHeap`: the loop with a heap.
* `bpeMergeSymbolsByRank`, `bpeMergeSymbolsRanked`: what the encoder calls.
-/
namespace Toktier.Gigatoken

open Toktier.Lib

/-- A token id. -/
abbrev TokenId := UInt32

/-- `u32::MAX`: the pair does not merge. -/
def NO_RANK : UInt32 := 0xFFFFFFFF

/-- The rank and the merged token of a pair that merges. -/
abbrev Rule := TokenId → TokenId → Option (UInt32 × TokenId)

/-- The rule of a lookup whose merged id is the rank. -/
def rankRule (getRank : TokenId → TokenId → UInt32) : Rule := fun a b =>
  if getRank a b = NO_RANK then none else some (getRank a b, getRank a b)

/-- The merged token and the rank of a pair, `NO_RANK` when it does not merge. -/
def pairRank (rule : Rule) (a b : TokenId) : TokenId × UInt32 :=
  match rule a b with
  | some (rank, merged) => (merged, rank)
  | none => (0, NO_RANK)

/-- The symbols of a sequence at their positions. -/
def symbolsAt (symbols : List TokenId) (i : ℕ) : TokenId := symbols.getD i 0

/-! ### Compaction -/

/-- Copy the symbols that are left to the front, from position `i` on: the symbols and how many
have been written. -/
def compact (next : ℕ → ℕ) (stop : ℕ → Bool) :
    ℕ → (ℕ → TokenId) → ℕ → ℕ → (ℕ → TokenId) × ℕ
  | 0, symbols, write, _ => (symbols, write)
  | fuel + 1, symbols, write, i =>
    if stop i then (symbols, write)
    else compact next stop fuel (Function.update symbols write (symbols i)) (write + 1) (next i)

/-- The symbols that are left, from position `i` on. -/
def collect (next : ℕ → ℕ) (stop : ℕ → Bool) (symbols : ℕ → TokenId) : ℕ → ℕ → List TokenId
  | 0, _ => []
  | fuel + 1, i =>
    if stop i then [] else symbols i :: collect next stop symbols fuel (next i)

/-- Compact in place and truncate. -/
def truncated (next : ℕ → ℕ) (stop : ℕ → Bool) (n : ℕ) (symbols : ℕ → TokenId) : List TokenId :=
  let (symbols, write) := compact next stop n symbols 0 0
  (List.range write).map symbols

/-! ### Scanned loops -/

/-- The stack arrays of a merge. Bytes are wide enough for the links: `prev[0]` is 255. -/
structure Cells where
  symbols : ℕ → TokenId
  next : ℕ → ℕ
  prev : ℕ → ℕ
  ranks : ℕ → UInt32
  merged : ℕ → TokenId

def Cells.seed (rule : Rule) (symbols : ℕ → TokenId) (n : ℕ) : Cells where
  symbols := symbols
  next i := if i < n then i + 1 else 0
  prev i := if i < n then (i + 255) % 256 else 0
  ranks i := if i + 1 < n then (pairRank rule (symbols i) (symbols (i + 1))).2 else NO_RANK
  merged i := if i + 1 < n then (pairRank rule (symbols i) (symbols (i + 1))).1 else 0

/-- The lowest of the first ranks, and the first position that has it. -/
def bestPair (ranks : ℕ → UInt32) : ℕ → UInt32 × ℕ
  | 0 => (NO_RANK, 0)
  | k + 1 =>
    let (best, i) := bestPair ranks k
    if ranks k < best then (ranks k, k) else (best, i)

/-- Merge the pair at `i`: unlink the right symbol and refresh the two pairs that touch the
merged one. -/
def Cells.round (rule : Rule) (n : ℕ) (c : Cells) (i : ℕ) : Cells :=
  let symbols := Function.update c.symbols i (c.merged i)
  let dead := c.next i
  let right := c.next dead
  let next := Function.update c.next i right
  let prev := if right < n then Function.update c.prev right i else c.prev
  let here := pairRank rule (symbols i) (symbols right)
  let left := prev i
  let before := pairRank rule (symbols left) (symbols i)
  let ranks := Function.update (Function.update c.ranks dead NO_RANK) i
    (if right < n then here.2 else NO_RANK)
  let merged := if right < n then Function.update c.merged i here.1 else c.merged
  { symbols, next, prev
    ranks := if left < n then Function.update ranks left before.2 else ranks
    merged := if left < n then Function.update merged left before.1 else merged }

/-- The loop; every round takes a symbol away. -/
def mergeCells (rule : Rule) (n : ℕ) : ℕ → Cells → Cells
  | 0, c => c
  | fuel + 1, c =>
    let (best, i) := bestPair c.ranks (n - 1)
    if best = NO_RANK then c else mergeCells rule n fuel (c.round rule n i)

/-- Merge a short sequence with a scan for the lowest rank. -/
def mergeSlice (rule : Rule) (symbols : List TokenId) : List TokenId :=
  let n := symbols.length
  let c := mergeCells rule n n (.seed rule (symbolsAt symbols) n)
  truncated c.next (fun i => decide (n ≤ i)) n c.symbols

/-- For 2 to 32 symbols. -/
def bpeMergeSymbolsSmall (getRank : TokenId → TokenId → UInt32) (symbols : List TokenId) :
    List TokenId :=
  mergeSlice (rankRule getRank) symbols

/-- For 2 to 15 symbols, with the lookups prefetched. -/
def bpeMergeSymbolsShortScalar (getRank : TokenId → TokenId → UInt32) (symbols : List TokenId) :
    List TokenId :=
  mergeSlice (rankRule getRank) symbols

/-- For 2 to 32 symbols, with the ranks of a merge table. -/
def bpeMergeSymbolsRankedSlice (merges : Rule) (symbols : List TokenId) : List TokenId :=
  mergeSlice merges symbols

/-! ### The loop with a heap -/

/-- How the entries of a heap carry a rank and a position, the position that means no neighbour,
and what becomes of the back link of an unlinked symbol. -/
structure HeapCode (ε : Type) where
  pack : UInt32 → ℕ → ε
  rank : ε → ℕ
  pos : ε → ℕ
  NONE : ℕ
  forget : (ℕ → ℕ) → ℕ → ℕ → ℕ

/-- `pack_merge_entry`: the rank above the position in one word. -/
def packMergeEntry (merged : TokenId) (pos : ℕ) : ℕ := merged.toNat <<< 32 ||| pos

/-- Packed words; positions of 32 bits; the back link stays. -/
def packedCode : HeapCode ℕ where
  pack := packMergeEntry
  rank e := e >>> 32
  pos e := e &&& 0xFFFFFFFF
  NONE := 0xFFFFFFFF
  forget prev _ := prev

/-- Pairs in lexicographic order; positions of 64 bits; the back link is cleared. -/
def pairCode : HeapCode (ℕ ×ₗ ℕ) where
  pack rank pos := toLex (rank.toNat, pos)
  rank e := (ofLex e).1
  pos e := (ofLex e).2
  NONE := 0xFFFFFFFFFFFFFFFF
  forget prev right := Function.update prev right 0xFFFFFFFFFFFFFFFF

/-- The arrays and the heap of a merge. The order of equal entries is not observed. -/
structure HeapCells (ε : Type) where
  symbols : ℕ → TokenId
  next : ℕ → ℕ
  prev : ℕ → ℕ
  heap : List ε

section Heap

variable {ε : Type} [LinearOrder ε] (code : HeapCode ε) (rule : Rule)

/-- The entry of a pair, if it merges. -/
def pairEntry (a b : TokenId) (pos : ℕ) : List ε :=
  match rule a b with
  | some (rank, _) => [code.pack rank pos]
  | none => []

def HeapCells.seed (symbols : ℕ → TokenId) (n : ℕ) : HeapCells ε where
  symbols := symbols
  next i := if i + 1 < n then i + 1 else code.NONE
  prev i := if 0 < i then i - 1 else code.NONE
  heap := (List.range (n - 1)).flatMap fun i =>
    pairEntry code rule (symbols i) (symbols (i + 1)) i

/-- Merge the pair at `pos`, and push the two pairs that touch the merged symbol. -/
def HeapCells.apply (c : HeapCells ε) (pos : ℕ) (merged : TokenId) (heap : List ε) :
    HeapCells ε :=
  let symbols := Function.update c.symbols pos merged
  let right := c.next pos
  let rightRight := c.next right
  let next := Function.update (Function.update c.next pos rightRight) right code.NONE
  let prev := code.forget
    (if rightRight = code.NONE then c.prev else Function.update c.prev rightRight pos) right
  let left := prev pos
  let heap := if left = code.NONE then heap
    else pairEntry code rule (symbols left) (symbols pos) left ++ heap
  let heap := if next pos = code.NONE then heap
    else pairEntry code rule (symbols pos) (symbols (next pos)) pos ++ heap
  { symbols, next, prev, heap }

/-- Handle the lowest entry: a symbol that has gone, that is the last one, or whose pair has
another rank by now is skipped. -/
def HeapCells.handle (c : HeapCells ε) (e : ε) : HeapCells ε :=
  let heap := c.heap.erase e
  let pos := code.pos e
  let right := c.next pos
  if right = code.NONE then { c with heap }
  else match rule (c.symbols pos) (c.symbols right) with
    | some (rank, merged) =>
      if rank.toNat = code.rank e then c.apply code rule pos merged heap else { c with heap }
    | none => { c with heap }

/-- Pop entries until the heap is empty. -/
def drainHeap : ℕ → HeapCells ε → HeapCells ε
  | 0, c => c
  | fuel + 1, c =>
    match c.heap.min? with
    | none => c
    | some e => drainHeap fuel (c.handle code rule e)

/-- The arrays when the heap is empty. A merge takes a symbol away and pushes two entries. -/
def mergeHeap (symbols : List TokenId) : HeapCells ε :=
  let n := symbols.length
  drainHeap code rule (4 * n) (.seed code rule (symbolsAt symbols) n)

end Heap

/-- Sequences up to this length are scanned. -/
def SMALL_MERGE_MAX : ℕ := 32

/-- Merge with the merged id as the rank. -/
def bpeMergeSymbolsByRank (getRank : TokenId → TokenId → UInt32) (symbols : List TokenId) :
    List TokenId :=
  let n := symbols.length
  if n < 2 then symbols
  else if n ≤ SMALL_MERGE_MAX then bpeMergeSymbolsSmall getRank symbols
  else
    let c := mergeHeap packedCode (rankRule getRank) symbols
    truncated c.next (fun i => decide (i = packedCode.NONE)) n c.symbols

/-- Merge with the ranks of a merge table. -/
def bpeMergeSymbolsRanked (merges : Rule) (symbols : List TokenId) : List TokenId :=
  let n := symbols.length
  if n < 2 then symbols
  else if n ≤ SMALL_MERGE_MAX then bpeMergeSymbolsRankedSlice merges symbols
  else
    let c := mergeHeap pairCode merges symbols
    collect c.next (fun i => decide (i = pairCode.NONE)) c.symbols n 0

/-- `merges.get(&(a, b)).map_or(u32::MAX, |m| m.0)` -/
def mergedId (merges : TokenId → TokenId → Option TokenId) (a b : TokenId) : UInt32 :=
  (merges a b).getD NO_RANK

def bpeMergeSymbols (merges : TokenId → TokenId → Option TokenId) (symbols : List TokenId) :
    List TokenId :=
  bpeMergeSymbolsByRank (mergedId merges) symbols

end Toktier.Gigatoken
