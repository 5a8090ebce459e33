import Mathlib.Data.BitVec
import Toktier.Lib.BlockScan
import Toktier.Lib.Compaction
import Toktier.Pretok.Kernel
import Toktier.Routing.Gpu

/-!
# The scan primitives of the GPU engine

The host has no library scans on the device; it has kernels of its own. A scan runs in blocks of
512 entries, scans the sums of its blocks with the next level of scratch arrays, and adds them back.
The levels are allocated once, for the capacity of the workspace. A prefix maximum of a seed array
is a scan of its carriers, a scatter and a gather; a selection is a scan of the flags and a scatter.

## Main definitions

* `scanSizes`: what `Workspace::new` allocates for the levels.
* `scanLevel`: the recursion of the host; `scan`, `carrier`, `select` are over it.

## Main results

* `scanLevel_eq`: at every level that covers the length, a scan is the prefix sum.
* `scans_exact`: the three primitives, at every length up to the capacity.
-/
namespace Toktier.Routing

open Toktier.Lib

/-! ## The workspace -/

/-- `int32_t` -/
abbrev I32 := BitVec 32

def U32_MAX : ℕ := 2 ^ 32 - 1

/-- Threads in a block. -/
def TPB : ℕ := 256

/-- Entries that a block scans. -/
def SCAN_ITEMS : ℕ := 2 * TPB

def divCeil (n m : ℕ) : ℕ := (n + m - 1) / m

theorem divCeil_lt {n : ℕ} (h : 1 < divCeil n SCAN_ITEMS) : divCeil n SCAN_ITEMS < n := by
  simp only [divCeil, SCAN_ITEMS, TPB] at *
  omega

/-- The loop of `Workspace::new`: how many numbers each array of a level holds. -/
def scanSizes (length : ℕ) : List ℕ :=
  let blocks := divCeil length SCAN_ITEMS
  if _ : blocks ≤ 1 then [blocks] else blocks :: scanSizes blocks
termination_by length
decreasing_by exact divCeil_lt (not_le.mp ‹_›)

/-- A level, with what its arrays hold. -/
structure ScanLevel where
  size : ℕ
  sums : ℕ → I32
  scanned : ℕ → I32

/-- The workspace, as far as the scans use it. Its levels are those of its capacity. -/
structure Workspace where
  capacity : ℕ
  carrierRid : ℕ → I32
  carrierPos : ℕ → I32
  scanOut : ℕ → I32
  scanLevels : List ScanLevel
  sizes_eq : scanLevels.map ScanLevel.size = scanSizes capacity

/-- `Workspace::new`; the arrays hold what the allocation finds. -/
def Workspace.new (found : ℕ → I32) (capacity : ℕ) : Workspace where
  capacity := capacity
  carrierRid := found
  carrierPos := found
  scanOut := found
  scanLevels := (scanSizes capacity).map fun size => ⟨size, found, found⟩
  sizes_eq := by simp [Function.comp_def]

/-- The ways a primitive fails. The last two are faults: the index of a level that the workspace
does not have panics, and a launch over more blocks than its level holds writes past the end. -/
inductive ScanFailure where
  | error (e : NativeRuntimeError)
  | noLevel
  | overrun
  deriving DecidableEq

def i32Of (value : ℕ) : Except ScanFailure ℕ :=
  if value ≤ I32_MAX then .ok value else .error (.error ⟨"GPU dimension exceeds i32"⟩)

def u32Of (value : ℕ) : Except ScanFailure ℕ :=
  if value ≤ U32_MAX then .ok value else .error (.error ⟨"GPU dimension exceeds u32"⟩)

def grid (length : ℕ) : Except ScanFailure ℕ := u32Of (divCeil length TPB)

/-! ## The kernels -/

inductive Kernel where
  | scanBlocks
  | scanAdd
  | eqIndex
  | carrierScatter
  | carrierGather
  | selectScatter

/-- The device: the block scan of the kernel library, and the order in which the threads of a
launch of so many threads run. -/
structure Device where
  blockScan : BlockScan I32 TPB
  order : Kernel → ℕ → List ℕ
  order_perm (k : Kernel) (threads : ℕ) : (order k threads).Perm (List.range threads)

/-- A device whose threads run one after the other. -/
def Device.sequential : Device where
  blockScan := ⟨fun f t => ∑ s ∈ Finset.range (t + 1), f s, fun _ _ _ => rfl⟩
  order := fun _ threads => List.range threads
  order_perm := fun _ _ => List.Perm.refl _

variable {σ : Type*} (d : Device)

/-- Run a thread for each index of a grid of so many blocks. -/
def Device.launch (k : Kernel) (blocks : ℕ) (thread : σ → ℕ → σ) (m : σ) : σ :=
  (d.order k (blocks * TPB)).foldl thread m

/-- The input of a scan: bytes or numbers. -/
inductive ScanInput where
  | u8 (input : ℕ → UInt8)
  | i32 (input : ℕ → I32)

/-- What a thread reads, cast to `int32_t`. -/
def ScanInput.read : ScanInput → ℕ → I32
  | .u8 input, i => BitVec.ofNat 32 (input i).toNat
  | .i32 input, i => input i

/-- The two arrays that `tk_scan_block_body` writes. -/
structure BlockMemory where
  output : ℕ → I32
  blockSums : ℕ → I32

/-- Thread `g` of `tk_scan_u8_blocks` and `tk_scan_i32_blocks`. A length has 31 bits, so that
the indices of a pair do not overflow. -/
def tkScanBlockBody (input : ScanInput) (n : ℕ) (m : BlockMemory) (g : ℕ) : BlockMemory :=
  let block := g / TPB
  let thread := g % TPB
  let pair := fun t => 2 * (block * TPB + t)
  let first := fun t => if pair t < n then input.read (pair t) else 0
  let second := fun t => if pair t + 1 < n then input.read (pair t + 1) else 0
  let own := fun t => first t + second t
  let inclusive := d.blockScan.inclusiveSum own thread
  let exclusive := inclusive - own thread
  let output := if pair thread < n then
    Function.update m.output (pair thread) (exclusive + first thread) else m.output
  let output := if pair thread + 1 < n then
    Function.update output (pair thread + 1) inclusive else output
  { output := output
    blockSums := if thread = TPB - 1 then Function.update m.blockSums block inclusive
      else m.blockSums }

/-- Thread `i` of `tk_scan_add`. -/
def tkScanAdd (scanned : ℕ → I32) (n : ℕ) (output : ℕ → I32) (i : ℕ) : ℕ → I32 :=
  if i ≥ n then output
  else
    let owner := i / SCAN_ITEMS
    if owner > 0 then Function.update output i (output i + scanned (owner - 1)) else output

/-- Thread `i` of `tk_eq_index_i32`. -/
def tkEqIndexI32 (input : ℕ → I32) (n : ℕ) (output : ℕ → I32) (i : ℕ) : ℕ → I32 :=
  if i < n then Function.update output i (if input i = BitVec.ofNat 32 i then 1 else 0) else output

/-- Thread `i` of `tk_carrier_scatter`. -/
def tkCarrierScatter (rid flag : ℕ → I32) (cap : ℕ) (pos : ℕ → I32) (i : ℕ) : ℕ → I32 :=
  if i ≥ cap then pos
  else if flag i ≠ 0 then Function.update pos (rid i - 1).toNat (BitVec.ofNat 32 i)
  else pos

/-- Thread `i` of `tk_carrier_gather`. -/
def tkCarrierGather (rid pos : ℕ → I32) (cap : ℕ) (out : ℕ → I32) (i : ℕ) : ℕ → I32 :=
  if i ≥ cap then out else Function.update out i (pos (rid i - 1).toNat)

/-- What `tk_select_scatter` writes. -/
structure SelectMemory where
  out : ℕ → I32
  countOut : I32

/-- Thread `i` of `tk_select_scatter`; without values it writes the index, and `counted` tells
whether there is a place for the count. -/
def tkSelectScatter (vals : Option (ℕ → I32)) (flags : ℕ → UInt8) (psum : ℕ → I32)
    (counted : Bool) (cap : ℕ) (m : SelectMemory) (i : ℕ) : SelectMemory :=
  if i ≥ cap then m
  else
    { out := if flags i ≠ 0 then
        Function.update m.out (psum i - 1).toNat (vals.elim (BitVec.ofNat 32 i) fun v => v i)
        else m.out
      countOut := if counted ∧ i = cap - 1 then psum i else m.countOut }

/-! ## The host -/

variable (w : Workspace)

def scanLevel (scanLevels : List ScanLevel) (input : ScanInput) (output : ℕ → I32) (length : ℕ)
    (level : ℕ) : Except ScanFailure (ℕ → I32) :=
  let blocks := divCeil length SCAN_ITEMS
  match scanLevels[level]? with
  | none => .error .noLevel
  | some l => do
    let gridDim ← u32Of blocks
    let n ← i32Of length
    if l.size < blocks then .error .overrun
    let m := d.launch .scanBlocks gridDim (tkScanBlockBody d input n) ⟨output, l.sums⟩
    if h : blocks > 1 then
      let scanned ← scanLevel scanLevels (.i32 m.blockSums) l.scanned blocks (level + 1)
      let gridDim ← grid length
      return d.launch .scanAdd gridDim (tkScanAdd scanned n) m.output
    else return m.output
termination_by length
decreasing_by exact divCeil_lt h

def scan (input : ScanInput) (output : ℕ → I32) (length : ℕ) : Except ScanFailure (ℕ → I32) :=
  scanLevel d w.scanLevels input output length 0

def carrier (flags output : ℕ → I32) (length : ℕ) : Except ScanFailure (ℕ → I32) := do
  let rid ← scan d w (.i32 flags) w.carrierRid length
  let gridDim ← grid length
  let cap ← i32Of length
  let pos := d.launch .carrierScatter gridDim (tkCarrierScatter rid flags cap) w.carrierPos
  return d.launch .carrierGather gridDim (tkCarrierGather rid pos cap) output

/-- What the middle sections do with a seed array: the flags of the entries that are their own
index, then `carrier`. -/
def seedCarrier (seed flags output : ℕ → I32) (length : ℕ) : Except ScanFailure (ℕ → I32) := do
  let gridDim ← grid length
  let cap ← i32Of length
  carrier d w (d.launch .eqIndex gridDim (tkEqIndexI32 seed cap) flags) output length

def select (vals : Option (ℕ → I32)) (flags : ℕ → UInt8) (counted : Bool) (m : SelectMemory)
    (length : ℕ) : Except ScanFailure SelectMemory := do
  let psum ← scan d w (.u8 flags) w.scanOut length
  let gridDim ← grid length
  let cap ← i32Of length
  return d.launch .selectScatter gridDim (tkSelectScatter vals flags psum counted cap) m

/-! ## The kernels of a scan -/

section ScanKernels

variable {d} {input : ScanInput} {n i b blocks threads : ℕ} {k : Kernel}

theorem mem_order : i ∈ d.order k threads ↔ i < threads :=
  (d.order_perm k threads).mem_iff.trans List.mem_range

theorem nodup_order : (d.order k threads).Nodup :=
  (d.order_perm k threads).nodup_iff.mpr List.nodup_range

/-- The sum of the first `k` entries of a block. -/
def blockSum (input : ScanInput) (n b k : ℕ) : I32 :=
  ∑ j ∈ Finset.range k, padded n input.read (b * SCAN_ITEMS + j)

/-- The entries of a thread, and the last thread of a block. -/
theorem tkScanBlockBody_eq (m : BlockMemory) (g : ℕ) :
    tkScanBlockBody d input n m g =
      let output := if 2 * g < n then
        Function.update m.output (2 * g) (blockSum input n (g / TPB) (2 * (g % TPB) + 1))
        else m.output
      { output := if 2 * g + 1 < n then
          Function.update output (2 * g + 1) (blockSum input n (g / TPB) (2 * (g % TPB) + 2))
          else output
        blockSums := if g % TPB = TPB - 1 then
          Function.update m.blockSums (g / TPB) (blockSum input n (g / TPB) (2 * (g % TPB) + 2))
          else m.blockSums } := by
  have hlt : g % TPB < TPB := Nat.mod_lt g (by decide)
  have hpair : g / TPB * TPB + g % TPB = g := Nat.div_add_mod' g TPB
  have hindex (t : ℕ) : 2 * (g / TPB * TPB + t) = g / TPB * SCAN_ITEMS + 2 * t := by
    rw [SCAN_ITEMS]
    ring
  -- the collective sums whole pairs
  have hinclusive := d.blockScan.inclusiveSum_eq (fun t =>
    padded n input.read (2 * (g / TPB * TPB + t)) +
      padded n input.read (2 * (g / TPB * TPB + t) + 1)) hlt
  simp only [hindex, add_assoc (g / TPB * SCAN_ITEMS)] at hinclusive
  rw [sum_pairs fun j => padded n input.read (g / TPB * SCAN_ITEMS + j)] at hinclusive
  have hsecond : d.blockScan.inclusiveSum (fun t =>
      padded n input.read (2 * (g / TPB * TPB + t)) +
        padded n input.read (2 * (g / TPB * TPB + t) + 1)) (g % TPB) =
      blockSum input n (g / TPB) (2 * (g % TPB) + 2) := by
    simp only [hindex, add_assoc (g / TPB * SCAN_ITEMS)]
    exact hinclusive
  have hfirst : blockSum input n (g / TPB) (2 * (g % TPB) + 2) -
      (padded n input.read (2 * (g / TPB * TPB + g % TPB)) +
        padded n input.read (2 * (g / TPB * TPB + g % TPB) + 1)) +
      padded n input.read (2 * (g / TPB * TPB + g % TPB)) =
      blockSum input n (g / TPB) (2 * (g % TPB) + 1) := by
    rw [blockSum, blockSum, Finset.sum_range_succ, Finset.sum_range_succ, hindex, add_assoc _ _ 1]
    ring
  unfold padded at hsecond hfirst
  rw [tkScanBlockBody]
  dsimp only
  rw [hsecond, hfirst]
  simp only [hpair]

theorem launch_output (m : BlockMemory) (hi : i < n) (hn : n ≤ blocks * SCAN_ITEMS) :
    (d.launch .scanBlocks blocks (tkScanBlockBody d input n) m).output i =
      blockSum input n (i / SCAN_ITEMS) (i % SCAN_ITEMS + 1) := by
  have hthread : i / 2 < blocks * TPB := by
    simp only [SCAN_ITEMS, TPB] at *
    omega
  have hblock : i / 2 / TPB = i / SCAN_ITEMS := Nat.div_div_eq_div_mul i 2 TPB
  have hset (m : BlockMemory) : (tkScanBlockBody d input n m (i / 2)).output i =
      blockSum input n (i / SCAN_ITEMS) (i % SCAN_ITEMS + 1) := by
    rw [tkScanBlockBody_eq, hblock]
    dsimp only
    rcases Nat.mod_two_eq_zero_or_one i with heven | hodd
    · have hfirst : 2 * (i / 2) = i := by omega
      have hlast : 2 * (i / 2 % TPB) + 1 = i % SCAN_ITEMS + 1 := by
        simp only [SCAN_ITEMS, TPB]
        omega
      have hcell (output : ℕ → I32) (v : I32) (h : output i = blockSum input n (i / SCAN_ITEMS)
          (i % SCAN_ITEMS + 1)) : (if 2 * (i / 2) + 1 < n then
            Function.update output (2 * (i / 2) + 1) v else output) i =
          blockSum input n (i / SCAN_ITEMS) (i % SCAN_ITEMS + 1) := by
        split_ifs
        · rw [Function.update_of_ne (by omega), h]
        · exact h
      refine hcell _ _ ?_
      rw [hfirst, if_pos hi, Function.update_self, hlast]
    · have hsecond : 2 * (i / 2) + 1 = i := by omega
      have hlast : 2 * (i / 2 % TPB) + 2 = i % SCAN_ITEMS + 1 := by
        simp only [SCAN_ITEMS, TPB]
        omega
      rw [hsecond, if_pos hi, Function.update_self, hlast]
  refine foldl_slot (fun m => m.output i) (mem_order.mpr hthread) hset ?_ m
  intro m j hm
  by_cases hj : j = i / 2
  · rw [hj]
    exact hset m
  · rw [tkScanBlockBody_eq]
    dsimp only
    split_ifs <;> first
      | rw [Function.update_of_ne (by omega), Function.update_of_ne (by omega), hm]
      | rw [Function.update_of_ne (by omega), hm]
      | exact hm

theorem launch_blockSums (m : BlockMemory) (hb : b < blocks) :
    (d.launch .scanBlocks blocks (tkScanBlockBody d input n) m).blockSums b =
      blockSum input n b SCAN_ITEMS := by
  have hthread : b * TPB + (TPB - 1) < blocks * TPB := by
    simp only [TPB]
    omega
  have hblock : (b * TPB + (TPB - 1)) / TPB = b := by
    simp only [TPB]
    omega
  have hlast : (b * TPB + (TPB - 1)) % TPB = TPB - 1 := by
    simp only [TPB]
    omega
  refine foldl_slot (fun m => m.blockSums b) (mem_order.mpr hthread) (fun m => ?_) ?_ m
  · rw [tkScanBlockBody_eq, hblock, hlast]
    dsimp only
    rw [if_pos rfl, Function.update_self]
    rfl
  · intro m j hm
    rw [tkScanBlockBody_eq]
    dsimp only
    by_cases hj : j % TPB = TPB - 1
    · rw [if_pos hj, hj, Function.update_apply]
      split_ifs with heq
      · rw [heq]
        rfl
      · exact hm
    · rw [if_neg hj, hm]

theorem launch_scanAdd {scanned output : ℕ → I32} (hi : i < n) (hn : n ≤ blocks * TPB) :
    d.launch .scanAdd blocks (tkScanAdd scanned n) output i =
      (if i / SCAN_ITEMS > 0 then output i + scanned (i / SCAN_ITEMS - 1) else output i) := by
  refine foldl_own (fun m : ℕ → I32 => m i)
    (fun x => if i / SCAN_ITEMS > 0 then x + scanned (i / SCAN_ITEMS - 1) else x)
    (fun m => ?_) (fun m j hj => ?_) nodup_order (mem_order.mpr (hi.trans_le hn)) output
  · rw [tkScanAdd, if_neg (not_le.mpr hi)]
    split_ifs
    · rw [Function.update_self]
    · rfl
  · rw [tkScanAdd]
    dsimp only
    split_ifs
    · rfl
    · rw [Function.update_of_ne (Ne.symm hj)]
    · rfl

end ScanKernels

/-! ## The recursion -/

section Recursion

variable {d} {w} {levels : List ScanLevel} {input : ScanInput} {output : ℕ → I32}
  {length level capacity i : ℕ}

theorem divCeil_mono {n m : ℕ} (h : n ≤ m) : divCeil n SCAN_ITEMS ≤ divCeil m SCAN_ITEMS :=
  Nat.div_le_div_right (by omega)

theorem divCeil_pos {n : ℕ} (h : 1 ≤ n) : 1 ≤ divCeil n SCAN_ITEMS := by
  simp only [divCeil, SCAN_ITEMS, TPB]
  omega

theorem i32Of_eq (h : length ≤ I32_MAX) : i32Of length = .ok length := if_pos h

/-- The blocks of a 31-bit length have a 32-bit number. -/
theorem u32Of_blocks (h : length ≤ I32_MAX) :
    u32Of (divCeil length SCAN_ITEMS) = .ok (divCeil length SCAN_ITEMS) := by
  refine if_pos ?_
  simp only [divCeil, SCAN_ITEMS, TPB, U32_MAX, I32_MAX] at *
  omega

theorem grid_eq (h : length ≤ I32_MAX) : grid length = .ok (divCeil length TPB) := by
  refine if_pos ?_
  simp only [divCeil, TPB, U32_MAX, I32_MAX] at *
  omega

theorem le_divCeil_mul (n : ℕ) : n ≤ divCeil n SCAN_ITEMS * SCAN_ITEMS := by
  simp only [divCeil, SCAN_ITEMS, TPB]
  omega

theorem le_grid_mul (n : ℕ) : n ≤ divCeil n TPB * TPB := by
  simp only [divCeil, TPB]
  omega

theorem scanSizes_eq (length : ℕ) : scanSizes length = divCeil length SCAN_ITEMS ::
    if divCeil length SCAN_ITEMS ≤ 1 then [] else scanSizes (divCeil length SCAN_ITEMS) := by
  rw [scanSizes]
  split_ifs <;> rfl

/-- The levels from `level` on are those of a capacity. -/
def Covers (levels : List ScanLevel) (level capacity : ℕ) : Prop :=
  (levels.drop level).map ScanLevel.size = scanSizes capacity

/-- What the level that covers a length has, and what the next one covers. -/
theorem Covers.get (h : Covers levels level capacity) :
    ∃ l, levels[level]? = some l ∧ l.size = divCeil capacity SCAN_ITEMS ∧
      (1 < divCeil capacity SCAN_ITEMS →
        Covers levels (level + 1) (divCeil capacity SCAN_ITEMS)) := by
  rw [Covers, scanSizes_eq] at h
  obtain ⟨l, rest, hdrop, hsize, hrest⟩ := List.map_eq_cons_iff.mp h
  refine ⟨l, ?_, hsize, fun hlt => ?_⟩
  · rw [← List.head?_drop, hdrop, List.head?_cons]
  · rw [if_neg (not_le.mpr hlt)] at hrest
    rw [Covers, ← List.drop_drop, hdrop, List.drop_one, List.tail_cons, hrest]

/-- A scan in blocks, with the sums of the earlier blocks. -/
theorem blockSum_add (hi : i < length) :
    ∑ b ∈ Finset.range (i / SCAN_ITEMS), blockSum input length b SCAN_ITEMS +
        blockSum input length (i / SCAN_ITEMS) (i % SCAN_ITEMS + 1) =
      ∑ j ∈ Finset.range (i + 1), input.read j := by
  rw [← sum_padded input.read (show i + 1 ≤ length from hi)]
  exact sum_blocks_add (padded length input.read) i SCAN_ITEMS

/-- What the blocks of a level write. -/
def blockMemory (d : Device) (input : ScanInput) (output sums : ℕ → I32) (length : ℕ) :
    BlockMemory :=
  d.launch .scanBlocks (divCeil length SCAN_ITEMS) (tkScanBlockBody d input length) ⟨output, sums⟩

/-- One level of the recursion. -/
theorem scanLevel_step {l : ScanLevel} (hmax : length ≤ I32_MAX) (hget : levels[level]? = some l)
    (hfits : divCeil length SCAN_ITEMS ≤ l.size) :
    scanLevel d levels input output length level =
      if divCeil length SCAN_ITEMS > 1 then
        (scanLevel d levels (.i32 (blockMemory d input output l.sums length).blockSums) l.scanned
          (divCeil length SCAN_ITEMS) (level + 1)).map fun scanned =>
            d.launch .scanAdd (divCeil length TPB) (tkScanAdd scanned length)
              (blockMemory d input output l.sums length).output
      else .ok (blockMemory d input output l.sums length).output := by
  rw [scanLevel]
  simp only [hget, u32Of_blocks hmax, i32Of_eq hmax, if_neg (not_lt.mpr hfits), grid_eq hmax]
  split_ifs with hmany
  · cases hnext : scanLevel d levels (.i32 (blockMemory d input output l.sums length).blockSums)
      l.scanned (divCeil length SCAN_ITEMS) (level + 1) <;>
      (rw [blockMemory] at hnext; simp only [hnext, bind, Except.bind]; rfl)
  · rfl

/-- At a level that covers the length, a scan is the prefix sum. -/
theorem scanLevel_eq (input : ScanInput) (output : ℕ → I32) (hpos : 1 ≤ length)
    (hlen : length ≤ capacity) (hmax : length ≤ I32_MAX) (hcovers : Covers levels level capacity) :
    ∃ out, scanLevel d levels input output length level = .ok out ∧
      ∀ i < length, out i = ∑ j ∈ Finset.range (i + 1), input.read j := by
  induction length using Nat.strong_induction_on generalizing input output level capacity with
  | _ length ih =>
    obtain ⟨l, hget, hsize, hnext⟩ := hcovers.get
    have hblocks := divCeil_mono hlen
    rw [scanLevel_step hmax hget (hblocks.trans_eq hsize.symm)]
    have hinside (i : ℕ) (hi : i < length) :
        (blockMemory d input output l.sums length).output i =
          blockSum input length (i / SCAN_ITEMS) (i % SCAN_ITEMS + 1) :=
      launch_output _ hi (le_divCeil_mul length)
    by_cases hmany : divCeil length SCAN_ITEMS > 1
    · rw [if_pos hmany]
      obtain ⟨scanned, hscanned, hsums⟩ := ih (divCeil length SCAN_ITEMS) (divCeil_lt hmany)
        (.i32 (blockMemory d input output l.sums length).blockSums) l.scanned
        (divCeil_pos hpos) hblocks ((divCeil_lt hmany).le.trans hmax)
        (hnext (hmany.trans_le hblocks))
      rw [hscanned]
      refine ⟨_, rfl, fun i hi => ?_⟩
      dsimp only
      rw [launch_scanAdd hi (le_grid_mul length), hinside i hi, ← blockSum_add hi]
      split_ifs with howner
      · -- the sums of the blocks before this one
        have hlast : i / SCAN_ITEMS - 1 < divCeil length SCAN_ITEMS := by
          simp only [divCeil, SCAN_ITEMS, TPB] at *
          omega
        rw [hsums _ hlast, Nat.sub_add_cancel howner, add_comm]
        refine congrArg (· + _) (Finset.sum_congr rfl fun b hb => ?_)
        have hb' : b < divCeil length SCAN_ITEMS := by
          have := Finset.mem_range.mp hb
          omega
        exact launch_blockSums _ hb'
      · have hfirst : i / SCAN_ITEMS = 0 := Nat.eq_zero_of_not_pos howner
        rw [hfirst, Finset.sum_range_zero, zero_add]
    · rw [if_neg hmany]
      refine ⟨_, rfl, fun i hi => ?_⟩
      have hfirst : i / SCAN_ITEMS = 0 := by
        simp only [divCeil, SCAN_ITEMS, TPB] at *
        omega
      rw [hinside i hi, ← blockSum_add hi, hfirst, Finset.sum_range_zero, zero_add]

/-- Past 31 bits a scan is refused. -/
theorem scanLevel_refused {l : ScanLevel} (hmax : I32_MAX < length)
    (hget : levels[level]? = some l) :
    ∃ e, scanLevel d levels input output length level = .error (.error e) := by
  rw [scanLevel]
  simp only [hget, i32Of, if_neg (not_le.mpr hmax)]
  by_cases hgrid : divCeil length SCAN_ITEMS ≤ U32_MAX
  · rw [u32Of, if_pos hgrid]
    exact ⟨_, rfl⟩
  · rw [u32Of, if_neg hgrid]
    exact ⟨_, rfl⟩

/-- The levels of a workspace cover its capacity. -/
theorem Workspace.covers (w : Workspace) : Covers w.scanLevels 0 w.capacity := w.sizes_eq

/-- No length up to the capacity asks for a level that is not there. -/
theorem scan_total (input : ScanInput) (output : ℕ → I32) (hpos : 1 ≤ length)
    (hlen : length ≤ w.capacity) :
    (length ≤ I32_MAX ∧ ∃ out, scan d w input output length = .ok out ∧
        ∀ i < length, out i = ∑ j ∈ Finset.range (i + 1), input.read j) ∨
      (I32_MAX < length ∧ ∃ e, scan d w input output length = .error (.error e)) := by
  rcases le_or_gt length I32_MAX with hmax | hmax
  · exact .inl ⟨hmax, scanLevel_eq input output hpos hlen hmax w.covers⟩
  · obtain ⟨l, hget, -, -⟩ := w.covers.get
    exact .inr ⟨hmax, scanLevel_refused hmax hget⟩

end Recursion

/-! ## Scans of flags -/

section Flags

variable {d} {w} {length n i blocks : ℕ} {p : ℕ → Bool}

/-- The prefix sum of flags numbers the flagged entries. -/
theorem sum_flags {f : ℕ → I32} (hf : ∀ j < n, f j = BitVec.ofNat 32 (p j).toNat) :
    ∑ j ∈ Finset.range n, f j = BitVec.ofNat 32 (rank p n) := by
  induction n with
  | zero => rfl
  | succ n ih =>
    rw [Finset.sum_range_succ, ih fun j hj => hf j (by omega), hf n (by omega), rank_succ,
      BitVec.ofNat_add]

/-- The index that a thread makes of its number. -/
theorem ofNat_sub_one {r : ℕ} (hpos : 1 ≤ r) (hmax : r ≤ I32_MAX) :
    (BitVec.ofNat 32 r - 1).toNat = r - 1 := by
  have hr : r < 2 ^ 32 := by
    rw [I32_MAX] at hmax
    omega
  rw [BitVec.toNat_sub, BitVec.toNat_ofNat, Nat.mod_eq_of_lt hr]
  simp
  omega

theorem launch_eqIndex {seed flags : ℕ → I32} (hi : i < n) (hn : n ≤ blocks * TPB) :
    d.launch .eqIndex blocks (tkEqIndexI32 seed n) flags i =
      if seed i = BitVec.ofNat 32 i then 1 else 0 := by
  refine foldl_own (fun m : ℕ → I32 => m i) (fun _ => if seed i = BitVec.ofNat 32 i then 1 else 0)
    (fun m => ?_) (fun m j hj => ?_) nodup_order (mem_order.mpr (hi.trans_le hn)) flags
  · rw [tkEqIndexI32, if_pos hi, Function.update_self]
  · rw [tkEqIndexI32]
    by_cases hlt : j < n
    · rw [if_pos hlt, Function.update_of_ne (Ne.symm hj)]
    · rw [if_neg hlt]

theorem launch_carrierGather {rid pos out : ℕ → I32} (hi : i < n) (hn : n ≤ blocks * TPB) :
    d.launch .carrierGather blocks (tkCarrierGather rid pos n) out i =
      pos (rid i - 1).toNat := by
  refine foldl_own (fun m : ℕ → I32 => m i) (fun _ => pos (rid i - 1).toNat)
    (fun m => ?_) (fun m j hj => ?_) nodup_order (mem_order.mpr (hi.trans_le hn)) out
  · rw [tkCarrierGather, if_neg (not_le.mpr hi), Function.update_self]
  · rw [tkCarrierGather]
    split_ifs
    · rfl
    · rw [Function.update_of_ne (Ne.symm hj)]

/-- The slot of a flagged entry. -/
theorem slot_eq {rid : ℕ → I32} (hmax : n ≤ I32_MAX)
    (hrid : ∀ j < n, rid j = BitVec.ofNat 32 (rank p (j + 1))) (hi : i < n) (hp : p i = true) :
    (rid i - 1).toNat = rank p i := by
  have hsucc := rank_succ p i
  rw [hp, Bool.toNat_true] at hsucc
  have hle := rank_le p (i + 1)
  rw [hrid i hi, ofNat_sub_one (by omega) (by omega), hsucc, Nat.add_sub_cancel]

theorem tkCarrierScatter_eq {rid flag : ℕ → I32} (hmax : n ≤ I32_MAX)
    (hbound : ∀ j, p j = true → j < n) (hflag : ∀ j < n, flag j = BitVec.ofNat 32 (p j).toNat)
    (hrid : ∀ j < n, rid j = BitVec.ofNat 32 (rank p (j + 1))) :
    tkCarrierScatter rid flag n = scatterThread p (BitVec.ofNat 32) := by
  funext pos i
  rw [tkCarrierScatter, scatterThread]
  cases hp : p i with
  | false =>
    rw [if_neg Bool.false_ne_true]
    split_ifs with hi hne
    · rfl
    · rw [hflag i (not_le.mp hi), hp] at hne
      exact absurd rfl hne
    · rfl
  | true =>
    have hi := hbound i hp
    have hne : flag i ≠ 0 := by
      rw [hflag i hi, hp]
      decide
    rw [if_neg (not_le.mpr hi), if_pos hne, if_pos rfl, slot_eq hmax hrid hi hp]

/-- The carrier of an entry is the last flagged one up to it. -/
theorem carrier_eq (flags output : ℕ → I32) (hpos : 1 ≤ length) (hlen : length ≤ w.capacity)
    (hmax : length ≤ I32_MAX) (hbound : ∀ j, p j = true → j < length) (hfirst : p 0 = true)
    (hflags : ∀ j < length, flags j = BitVec.ofNat 32 (p j).toNat) :
    ∃ out, carrier d w flags output length = .ok out ∧
      ∀ i < length, out i = BitVec.ofNat 32 (latest p i) := by
  obtain ⟨rid, hscan, hsum⟩ :=
    scanLevel_eq (d := d) (.i32 flags) w.carrierRid hpos hlen hmax w.covers
  have hrid (j : ℕ) (hj : j < length) : rid j = BitVec.ofNat 32 (rank p (j + 1)) :=
    (hsum j hj).trans (sum_flags fun k hk => hflags k (by omega))
  rw [carrier, scan, hscan, grid_eq hmax, i32Of_eq hmax]
  refine ⟨_, rfl, fun i hi => ?_⟩
  have hle := latest_le p i
  have hlatest := latest_flagged hfirst i
  have hslot : (rid i - 1).toNat = rank p (latest p i) := by
    have hrank := rank_latest hfirst i
    have hbelow := rank_le p (i + 1)
    rw [hrid i hi, ofNat_sub_one (by omega) (by omega), hrank, Nat.add_sub_cancel]
  rw [launch_carrierGather hi (le_grid_mul length), tkCarrierScatter_eq hmax hbound hflags hrid,
    hslot]
  exact scatter_rank (mem_order.mpr ((hle.trans_lt hi).trans_le (le_grid_mul length))) hlatest

/-- The prefix maximum of a seed array is the last of its carriers. -/
theorem inclusiveMax_eq_latest {f : ℕ → ℕ} (hf : ∀ j ≤ i, f j = if p j then j else 0) :
    Pretok.inclusiveMax f i = latest p i := by
  induction i with
  | zero =>
    rw [Pretok.inclusiveMax, latest, hf 0 le_rfl]
    split_ifs <;> rfl
  | succ i ih =>
    have hle := latest_le p i
    rw [Pretok.inclusiveMax, latest, ih fun j hj => hf j (by omega), hf (i + 1) le_rfl]
    split_ifs <;> omega

theorem tkSelectScatter_out (vals : Option (ℕ → I32)) {flags : ℕ → UInt8} {psum : ℕ → I32}
    (counted : Bool) (hmax : n ≤ I32_MAX) (hp : ∀ j, p j = true ↔ j < n ∧ flags j ≠ 0)
    (hpsum : ∀ j < n, psum j = BitVec.ofNat 32 (rank p (j + 1))) (m : SelectMemory) (i : ℕ) :
    (tkSelectScatter vals flags psum counted n m i).out =
      scatterThread p (fun i => vals.elim (BitVec.ofNat 32 i) fun v => v i) m.out i := by
  rw [tkSelectScatter, scatterThread]
  by_cases hi : i ≥ n
  · rw [if_pos hi, if_neg fun h => not_le.mpr ((hp i).mp h).1 hi]
  · rw [if_neg hi]
    dsimp only
    by_cases hflag : flags i ≠ 0
    · have hpi := (hp i).mpr ⟨not_le.mp hi, hflag⟩
      rw [if_pos hflag, if_pos hpi, slot_eq hmax hpsum (not_le.mp hi) hpi]
    · rw [if_neg hflag, if_neg fun h => hflag ((hp i).mp h).2]

/-- The selection, in the order of the entries. -/
theorem select_eq (vals : Option (ℕ → I32)) {flags : ℕ → UInt8} (counted : Bool)
    (m : SelectMemory) (hpos : 1 ≤ length) (hlen : length ≤ w.capacity)
    (hmax : length ≤ I32_MAX) (hflags : ∀ i < length, flags i = 0 ∨ flags i = 1)
    (hp : ∀ j, p j = true ↔ j < length ∧ flags j ≠ 0) :
    ∃ r, select d w vals flags counted m length = .ok r ∧
      (List.range (rank p length)).map r.out =
        ((List.range length).filter p).map (fun i => vals.elim (BitVec.ofNat 32 i) fun v => v i) ∧
      (counted = true → r.countOut = BitVec.ofNat 32 (rank p length)) := by
  obtain ⟨psum, hscan, hsum⟩ :=
    scanLevel_eq (d := d) (.u8 flags) w.scanOut hpos hlen hmax w.covers
  have hread (j : ℕ) (hj : j < length) :
      (ScanInput.u8 flags).read j = BitVec.ofNat 32 (p j).toNat := by
    rw [ScanInput.read]
    rcases hflags j hj with h | h
    · have hpj : p j = false := Bool.eq_false_iff.mpr fun hp' => ((hp j).mp hp').2 h
      rw [h, hpj]
      rfl
    · have hpj : p j = true := (hp j).mpr ⟨hj, by rw [h]; decide⟩
      rw [h, hpj]
      rfl
  have hpsum (j : ℕ) (hj : j < length) : psum j = BitVec.ofNat 32 (rank p (j + 1)) :=
    (hsum j hj).trans (sum_flags fun k hk => hread k (by omega))
  rw [select, scan, hscan, grid_eq hmax, i32Of_eq hmax]
  refine ⟨_, rfl, ?_, fun hcounted => ?_⟩
  · rw [Device.launch, ← List.foldl_hom SelectMemory.out (fun m i =>
      (tkSelectScatter_out vals counted hmax hp hpsum m i).symm)]
    exact map_slots fun i hi hpi =>
      scatter_rank (mem_order.mpr (hi.trans_le (le_grid_mul length))) hpi
  · -- the last thread writes the count
    have hlast : length - 1 < length := by omega
    have hset (m : SelectMemory) : (tkSelectScatter vals flags psum counted length m
        (length - 1)).countOut = BitVec.ofNat 32 (rank p length) := by
      rw [tkSelectScatter, if_neg (not_le.mpr hlast)]
      dsimp only
      rw [if_pos ⟨hcounted, rfl⟩, hpsum _ hlast, Nat.sub_add_cancel hpos]
    refine foldl_slot SelectMemory.countOut
      (mem_order.mpr (hlast.trans_le (le_grid_mul length))) hset (fun m j hm => ?_) m
    by_cases hj : j = length - 1
    · rw [hj]
      exact hset m
    · rw [tkSelectScatter]
      by_cases hlt : j ≥ length
      · rw [if_pos hlt, hm]
      · rw [if_neg hlt]
        dsimp only
        rw [if_neg fun h => hj h.2, hm]

end Flags

/-! ## The primitives -/

section Primitives

variable {length : ℕ}

/-- A sum that fits is the sum of the integers. -/
theorem toInt_sum (f : ℕ → I32) (n : ℕ) :
    (∑ j ∈ Finset.range n, f j).toInt = (∑ j ∈ Finset.range n, (f j).toInt).bmod (2 ^ 32) := by
  induction n with
  | zero => rfl
  | succ n ih => rw [Finset.sum_range_succ, Finset.sum_range_succ, BitVec.toInt_add, ih,
      Int.bmod_add_bmod]

/-- The inclusive prefix sums of the input: in 32 bits, and in the integers below their limit. -/
def IsPrefixSum (input : ScanInput) (length : ℕ) (out : ℕ → I32) : Prop :=
  ∀ i < length, out i = ∑ j ∈ Finset.range (i + 1), input.read j ∧
    (-2 ^ 31 ≤ ∑ j ∈ Finset.range (i + 1), (input.read j).toInt →
      ∑ j ∈ Finset.range (i + 1), (input.read j).toInt < 2 ^ 31 →
        (out i).toInt = ∑ j ∈ Finset.range (i + 1), (input.read j).toInt)

/-- A seed array: position 0 is a head, and every other entry is its own index or zero. -/
def IsSeed (seed : ℕ → I32) (length : ℕ) : Prop :=
  seed 0 = 0 ∧ ∀ i < length, i ≠ 0 → seed i = BitVec.ofNat 32 i ∨ seed i = 0

/-- The selected entries. -/
def selected (flags : ℕ → UInt8) (length : ℕ) : List ℕ :=
  (List.range length).filter fun i => flags i ≠ 0

/-- The carrier of a seed array is its prefix maximum. -/
theorem seedCarrier_eq {d : Device} {w : Workspace} {seed : ℕ → I32} (flags output : ℕ → I32)
    (hpos : 1 ≤ length) (hlen : length ≤ w.capacity) (hmax : length ≤ I32_MAX)
    (hseed : IsSeed seed length) :
    ∃ out, seedCarrier d w seed flags output length = .ok out ∧
      ∀ i < length, (out i).toNat = Pretok.inclusiveMax (fun j => (seed j).toNat) i := by
  obtain ⟨hhead, hentry⟩ := hseed
  -- the carriers
  let p := fun j => decide (j < length ∧ seed j = BitVec.ofNat 32 j)
  have hp (j : ℕ) : p j = true ↔ j < length ∧ seed j = BitVec.ofNat 32 j := decide_eq_true_iff
  have hflags (j : ℕ) (hj : j < length) :
      d.launch .eqIndex (divCeil length TPB) (tkEqIndexI32 seed length) flags j =
        BitVec.ofNat 32 (p j).toNat := by
    rw [launch_eqIndex hj (le_grid_mul length)]
    split_ifs with h
    · rw [(hp j).mpr ⟨hj, h⟩]
      rfl
    · have hpj : p j = false := Bool.eq_false_iff.mpr fun h' => h ((hp j).mp h').2
      rw [hpj]
      rfl
  obtain ⟨out, hcarrier, hout⟩ := carrier_eq (d := d) (w := w) _ output hpos hlen hmax
    (fun j hj => ((hp j).mp hj).1) ((hp 0).mpr ⟨hpos, hhead⟩) hflags
  refine ⟨out, ?_, fun i hi => ?_⟩
  · rw [seedCarrier, grid_eq hmax, i32Of_eq hmax]
    exact hcarrier
  · have hle := latest_le p i
    have hsmall (j : ℕ) (hj : j < length) : (BitVec.ofNat 32 j).toNat = j := by
      rw [BitVec.toNat_ofNat, Nat.mod_eq_of_lt (by rw [I32_MAX] at hmax; omega)]
    rw [hout i hi, hsmall _ (by omega)]
    refine (inclusiveMax_eq_latest fun j hj => ?_).symm
    cases hpj : p j with
    | true => rw [if_pos rfl, ((hp j).mp hpj).2, hsmall j (by omega)]
    | false =>
      have hne : seed j ≠ BitVec.ofNat 32 j := fun h =>
        Bool.false_ne_true (hpj.symm.trans ((hp j).mpr ⟨by omega, h⟩))
      have hj0 : j ≠ 0 := fun h => hne (by rw [h]; exact hhead)
      rw [if_neg Bool.false_ne_true, (hentry j (by omega) hj0).resolve_left hne]
      rfl

/-- The values of the selected entries, in order, and how many they are. -/
theorem select_selected {d : Device} {w : Workspace} (vals : Option (ℕ → I32))
    {flags : ℕ → UInt8} (counted : Bool) (m : SelectMemory) (hpos : 1 ≤ length)
    (hlen : length ≤ w.capacity) (hmax : length ≤ I32_MAX)
    (hflags : ∀ i < length, flags i = 0 ∨ flags i = 1) :
    ∃ r, select d w vals flags counted m length = .ok r ∧
      (List.range (selected flags length).length).map r.out =
        (selected flags length).map (fun i => vals.elim (BitVec.ofNat 32 i) fun v => v i) ∧
      (counted = true → r.countOut.toNat = (selected flags length).length) := by
  let p := fun j => decide (j < length ∧ flags j ≠ 0)
  have hp (j : ℕ) : p j = true ↔ j < length ∧ flags j ≠ 0 := decide_eq_true_iff
  obtain ⟨r, hselect, hvalues, hcount⟩ :=
    select_eq (d := d) (w := w) vals counted m hpos hlen hmax hflags hp
  have hfilter : (List.range length).filter p = selected flags length := by
    refine List.filter_congr fun j hj => ?_
    rw [Bool.eq_iff_iff, hp, decide_eq_true_iff]
    exact and_iff_right (List.mem_range.mp hj)
  have hlength : rank p length = (selected flags length).length := by
    rw [rank, List.countP_eq_length_filter, hfilter]
  refine ⟨r, hselect, ?_, fun hcounted => ?_⟩
  · rw [← hlength, hvalues, hfilter]
  · have hbelow := rank_le p length
    rw [hcount hcounted, BitVec.toNat_ofNat, Nat.mod_eq_of_lt (by rw [I32_MAX] at hmax; omega),
      hlength]

end Primitives

end Toktier.Routing
