import Toktier.Lib.Pieces
import Toktier.Routing.Scans

/-!
# Batch slices

A batch goes to the device as one text, and the ids come back as one row. The device also returns
the bytes where its pieces start, and how many tokens lie before each; the host finds the bytes
where the documents meet among the first, and cuts the row at the second.

## Main definitions

* `PassAnswer`: what a pass leaves for the host to read.
* `PassAnswer.rows`: the checks, and the rows of a batch.
* `batchExecutor`: the executor over a device.

## Main results

* `encode_batch_slices`: the rows are those of the documents; they are there where no fault is
  reported and the documents meet at piece bounds.
-/
namespace Toktier.Routing

open Toktier.Lib

/-! ## What a pass leaves -/

/-- What one pass reports after the merge stage. -/
structure Tail where
  tokens : I32
  chain : I32
  ambiguous : I32
  han : I32

/-- The sparse surfaces mark input that the parallel rules do not decide. -/
def Tail.sparseGuard (t : Tail) : Option String :=
  if t.chain = 0 ∧ t.ambiguous = 0 ∧ t.han = 0 then none
  else some ("windowed splitter sparse guard requested exact fallback " ++
    s!"(chain={t.chain.toInt}, ambiguous={t.ambiguous.toInt}, han={t.han.toInt})")

/-- The arrays of a pass: the ids, the bytes where the pieces start, and what the scan of the token
counts wrote. -/
structure PassAnswer where
  tail : Tail
  pieceCount : I32
  output : ℕ → I32
  pb : ℕ → I32
  scanned : ℕ → I32

/-- The token offsets: the host clears the first one, and the scan writes behind it. -/
def PassAnswer.offsets (a : PassAnswer) : ℕ → I32
  | 0 => 0
  | k + 1 => a.scanned k

/-- `usize::try_from` -/
def sizeOf (message : String) (value : I32) : Except NativeRuntimeError ℕ :=
  if value.toInt < 0 then .error ⟨message⟩ else .ok value.toNat

/-- `u32::try_from` -/
def idOf (value : I32) : Except NativeRuntimeError UInt32 :=
  if value.toInt < 0 then .error ⟨"native GPU returned a negative token id"⟩
  else .ok (UInt32.ofBitVec value)

/-- The first `count` entries of an array, converted. -/
def readArray {α : Type} (convert : I32 → Except NativeRuntimeError α) (values : ℕ → I32)
    (count : ℕ) : Except NativeRuntimeError (List α) :=
  (List.range count).mapM fun k => convert (values k)

/-! ## The host -/

/-- The bytes where the documents start, from byte `first` on, and where the last one ends. -/
def byteOffsets (first : ℕ) : List Text → List ℕ
  | [] => [first]
  | doc :: docs => first :: byteOffsets (first + utf8Len doc) docs

/-- The marks of the document starts, by characters. An empty document has none. -/
def markStarts (marks : List UInt8) (first : ℕ) : List Text → List UInt8
  | [] => marks
  | doc :: docs =>
      markStarts (if doc.isEmpty then marks else marks.set first 1) (first + doc.length) docs

/-- The row between two document bounds. -/
def sliceRow (ids : List UInt32) (bounds offsets : List ℕ) (low high : ℕ) : RowIds :=
  match binarySearch bounds low with
  | none => .error ⟨s!"native GPU omitted document-start boundary {low}"⟩
  | some lowPiece =>
      match binarySearch bounds high with
      | none => .error ⟨s!"native GPU omitted document-end boundary {high}"⟩
      | some highPiece =>
          let start := offsets.getD lowPiece 0
          let stop := offsets.getD highPiece 0
          if start ≤ stop ∧ stop ≤ ids.length then .ok (segment ids start stop)
          else .error ⟨"native GPU batch token slice is out of range"⟩

namespace PassAnswer

variable (a : PassAnswer)

/-- The ids of a single document of `cap` bytes. -/
def single (cap : ℕ) : RowIds := do
  let count ← sizeOf "native GPU returned a negative token count" a.tail.tokens
  if count > cap then .error ⟨s!"native GPU returned {count} tokens for capacity {cap}"⟩
  else
    match a.tail.sparseGuard with
    | some reason => .error ⟨reason⟩
    | none => readArray idOf a.output count

/-- The rows of a batch of `cap` bytes in all. -/
def rows (docs : List Text) (cap : ℕ) : Except NativeRuntimeError (List (List UInt32)) :=
  match a.tail.sparseGuard with
  | some reason => .error ⟨s!"batched {reason}; the rows are redone one at a time"⟩
  | none => do
      let tokenCount ← sizeOf "native GPU returned a negative batch token count" a.tail.tokens
      let pieces ← sizeOf "native GPU returned a negative batch piece count" a.pieceCount
      if tokenCount > cap ∨ pieces > cap then
        .error ⟨s!"native GPU returned invalid batch geometry: {tokenCount} tokens, " ++
          s!"{pieces} pieces, capacity {cap}"⟩
      else do
        let ids ← readArray idOf a.output tokenCount
        let bounds ← readArray (sizeOf "native GPU returned a negative piece boundary") a.pb
          (pieces + 1)
        let offsets ← readArray (sizeOf "native GPU returned a negative token offset") a.offsets
          (pieces + 1)
        if bounds.getLast? ≠ some cap ∨ offsets.getLast? ≠ some tokenCount then
          .error ⟨"native GPU batch sentinel does not match the compacted output"⟩
        else
          ((byteOffsets 0 docs).zip (byteOffsets 0 docs).tail).mapM fun bound =>
            sliceRow ids bounds offsets bound.1 bound.2

end PassAnswer

/-- The device: a pass over the bytes, with the marks of the document starts where there are any. -/
abbrev Pass (σ : Type) :=
  List UInt8 → Option (List UInt8) → σ → Except NativeRuntimeError PassAnswer × σ

variable {σ : Type}

/-- The bytes of the documents, one after the other. -/
def joined (docs : List Text) : List UInt8 := utf8 docs.flatten

/-- The executor. The number of characters is not above that of the bytes, so its count fits. -/
def batchExecutor (pass : Pass σ) : Executor σ where
  encodeInWorkspace text st :=
    let (answer, st') := pass (utf8 text) none st
    (answer >>= fun a => a.single (utf8Len text), st')
  launchBatch docs st :=
    let cap := utf8Len docs.flatten
    let (answer, st') := pass (joined docs) (some (markStarts (List.replicate cap 0) 0 docs)) st
    (answer >>= fun a => a.rows docs cap, st')

/-! ## The rows of documents -/

/-- The byte where a document starts; behind the last one, where the text ends. -/
def border (docs : List Text) (i : ℕ) : ℕ := utf8Len (docs.take i).flatten

namespace PassAnswer

/-- The number of pieces. -/
def pieces (a : PassAnswer) : ℕ := a.pieceCount.toInt.toNat

/-- The byte where a piece starts. -/
def place (a : PassAnswer) (k : ℕ) : ℤ := (a.pb k).toInt

/-- The tokens before a piece. -/
def cut (a : PassAnswer) (k : ℕ) : ℕ := (a.offsets k).toInt.toNat

/-- The token stream. -/
def stream (a : PassAnswer) : List UInt32 :=
  (List.range a.tail.tokens.toInt.toNat).map fun k => UInt32.ofBitVec (a.output k)

/-- The tokens of the pieces that lie between two bytes. -/
def tokensWithin (a : PassAnswer) (low high : ℕ) : List UInt32 :=
  ((List.range a.pieces).filter fun k =>
    decide ((low : ℤ) ≤ a.place k ∧ a.place (k + 1) ≤ high)).flatMap (piece a.stream a.cut)

/-- A piece starts at the byte, or the last one ends there. -/
def IsBound (a : PassAnswer) (byte : ℕ) : Prop := ∃ k ≤ a.pieces, a.place k = byte

/-- The piece bounds are byte offsets that go up, the token offsets do not go down, and the last
ones are those of the text and of the stream. -/
structure Ordered (a : PassAnswer) (cap : ℕ) : Prop where
  start : 0 ≤ a.place 0
  bounds : ∀ k < a.pieces, a.place k < a.place (k + 1)
  offsets : ∀ k < a.pieces, (a.offsets k).toInt ≤ (a.offsets (k + 1)).toInt
  pieceSentinel : a.place a.pieces = cap
  tokenSentinel : (a.offsets a.pieces).toInt = a.tail.tokens.toInt

/-- The pass raised no guard, nothing that is read is negative, and there are no more tokens than
bytes. -/
structure Faultless (a : PassAnswer) (cap : ℕ) : Prop where
  guard : a.tail.sparseGuard = none
  tokens : 0 ≤ a.tail.tokens.toInt
  tokens_le : a.tail.tokens.toInt ≤ cap
  pieces : 0 ≤ a.pieceCount.toInt
  ids : ∀ k < a.tail.tokens.toInt.toNat, 0 ≤ (a.output k).toInt

/-- The rows of the documents: together they are the stream, and each has the tokens of the pieces
between the bytes of its document. -/
structure RowsOf (a : PassAnswer) (docs : List Text) (rows : List (List UInt32)) : Prop where
  length : rows.length = docs.length
  flatten : rows.flatten = a.stream
  row : ∀ (i : ℕ) (row : List UInt32), rows[i]? = some row →
    row = a.tokensWithin (border docs i) (border docs (i + 1))
  empty : ∀ i : ℕ, docs[i]? = some [] → rows[i]? = some []

section Ordered

variable {a : PassAnswer} {cap low mid high : ℕ}

theorem Ordered.cut_mono (h : a.Ordered cap) {k : ℕ} (hk : k < a.pieces) : a.cut k ≤ a.cut (k + 1) :=
  Int.toNat_le_toNat (h.offsets k hk)

/-- Between two bounds lies a part of the stream. -/
theorem Ordered.tokensWithin_eq (h : a.Ordered cap) {i j : ℕ} (hi : a.place i = low)
    (hj : a.place j = high) (hij : i ≤ j) (hle : j ≤ a.pieces) :
    a.tokensWithin low high = segment a.stream (a.cut i) (a.cut j) ∧ a.cut i ≤ a.cut j := by
  have hpieces := flatMap_piece a.stream a.cut hij fun k _ hk => h.cut_mono (hk.trans_le hle)
  refine ⟨?_, hpieces.2⟩
  rw [tokensWithin, ← hi, ← hj, filter_within h.bounds hij hle, hpieces.1]

theorem Ordered.index_le (h : a.Ordered cap) {i j : ℕ} (hi : a.place i = low) (hj : a.place j = high)
    (hil : i ≤ a.pieces) (hjl : j ≤ a.pieces) (hle : low ≤ high) : i ≤ j := by
  refine (place_le_iff h.bounds hil hjl).mp ?_
  rw [hi, hj]
  exact_mod_cast hle

/-- At a bound a range can be parted. -/
theorem Ordered.tokensWithin_append (h : a.Ordered cap) (hlow : a.IsBound low)
    (hmid : a.IsBound mid) (hhigh : a.IsBound high) (hle : low ≤ mid) (hle' : mid ≤ high) :
    a.tokensWithin low mid ++ a.tokensWithin mid high = a.tokensWithin low high := by
  obtain ⟨i, hi, hlow⟩ := hlow
  obtain ⟨j, hj, hmid⟩ := hmid
  obtain ⟨k, hk, hhigh⟩ := hhigh
  have hij := h.index_le hlow hmid hi hj hle
  have hjk := h.index_le hmid hhigh hj hk hle'
  obtain ⟨hfirst, hcut⟩ := h.tokensWithin_eq hlow hmid hij hj
  obtain ⟨hsecond, hcut'⟩ := h.tokensWithin_eq hmid hhigh hjk hk
  rw [hfirst, hsecond, (h.tokensWithin_eq hlow hhigh (hij.trans hjk) hk).1,
    segment_append _ hcut hcut']

theorem Ordered.tokensWithin_self (h : a.Ordered cap) (hlow : a.IsBound low) :
    a.tokensWithin low low = [] := by
  obtain ⟨i, hi, hlow⟩ := hlow
  rw [(h.tokensWithin_eq hlow hlow le_rfl hi).1, segment_self]

/-- All pieces lie in the text, and together they have the stream. -/
theorem Ordered.tokensWithin_all (h : a.Ordered cap) : a.tokensWithin 0 cap = a.stream := by
  have hall : ((List.range a.pieces).filter fun k =>
      decide (((0 : ℕ) : ℤ) ≤ a.place k ∧ a.place (k + 1) ≤ (cap : ℤ))) = List.range a.pieces := by
    refine List.filter_eq_self.mpr fun k hk => decide_eq_true ?_
    have hk := List.mem_range.mp hk
    have hfirst := (place_le_iff h.bounds (Nat.zero_le _) hk.le).mpr (Nat.zero_le k)
    have hlast := (place_le_iff h.bounds hk le_rfl).mpr hk
    rw [h.pieceSentinel] at hlast
    exact ⟨h.start.trans hfirst, hlast⟩
  have hpieces := (flatMap_piece a.stream a.cut (Nat.zero_le a.pieces)
    fun k _ hk => h.cut_mono hk).1
  have hlast : a.cut a.pieces = a.stream.length := by
    rw [cut, h.tokenSentinel, stream, List.length_map, List.length_range]
  rw [tokensWithin, hall, List.range_eq_range', ← Nat.sub_zero a.pieces, hpieces, hlast]
  exact segment_all _

end Ordered

end PassAnswer

/-! ## The borders -/

section Borders

variable {docs : List Text}

@[simp] theorem border_zero (docs : List Text) : border docs 0 = 0 := rfl

theorem border_length (docs : List Text) : border docs docs.length = utf8Len docs.flatten := by
  rw [border, List.take_length]

theorem border_succ {i : ℕ} {doc : Text} (h : docs[i]? = some doc) :
    border docs (i + 1) = border docs i + utf8Len doc := by
  rw [border, border, List.take_add_one, h, Option.toList_some, List.flatten_append,
    List.flatten_singleton, utf8Len_append]

theorem border_le_succ (docs : List Text) (i : ℕ) : border docs i ≤ border docs (i + 1) := by
  cases hdoc : docs[i]? with
  | none =>
    have hlen := List.getElem?_eq_none_iff.mp hdoc
    rw [border, border, List.take_of_length_le hlen, List.take_of_length_le (by omega)]
  | some doc =>
    rw [border_succ hdoc]
    exact Nat.le_add_right _ _

theorem border_cons (doc : Text) (docs : List Text) (i : ℕ) :
    border (doc :: docs) (i + 1) = utf8Len doc + border docs i := by
  rw [border, List.take_succ_cons, List.flatten_cons, utf8Len_append, border]

theorem byteOffsets_eq (docs : List Text) (first : ℕ) :
    byteOffsets first docs = (List.range (docs.length + 1)).map fun i => first + border docs i := by
  induction docs generalizing first with
  | nil => rfl
  | cons doc docs ih =>
    rw [byteOffsets, ih, List.length_cons, List.range_succ_eq_map (n := docs.length + 1),
      List.map_cons, List.map_map]
    refine congrArg₂ _ rfl (List.map_congr_left fun i _ => ?_)
    rw [Function.comp_apply, Nat.succ_eq_add_one, border_cons, Nat.add_assoc]

/-- Each document lies between two borders. -/
theorem windows_eq (docs : List Text) : (byteOffsets 0 docs).zip (byteOffsets 0 docs).tail =
    (List.range docs.length).map fun i => (border docs i, border docs (i + 1)) := by
  refine List.ext_getElem (by simp [byteOffsets_eq]) fun i hi hi' => ?_
  simp only [byteOffsets_eq, Nat.zero_add, List.getElem_zip, List.getElem_map, List.getElem_range,
    List.getElem_tail]

end Borders

/-! ## Reading the arrays -/

section Reading

variable {α : Type} {convert : I32 → Except NativeRuntimeError α} {value : I32 → α}
  {values : ℕ → I32} {count : ℕ} {xs : List α}

theorem toNat_of_nonneg {v : I32} (h : 0 ≤ v.toInt) : v.toNat = v.toInt.toNat := by
  have hcond := BitVec.toInt_eq_toNat_cond v
  have hlt := v.isLt
  split_ifs at hcond <;> omega

theorem sizeOf_eq_ok {message : String} {v : I32} {n : ℕ} :
    sizeOf message v = .ok n ↔ 0 ≤ v.toInt ∧ n = v.toInt.toNat := by
  unfold sizeOf
  by_cases hneg : v.toInt < 0
  · rw [if_pos hneg]
    exact ⟨fun h => (by cases h), fun h => absurd h.1 hneg.not_ge⟩
  · rw [if_neg hneg, toNat_of_nonneg (not_lt.mp hneg), Except.ok.injEq, eq_comm]
    exact (and_iff_right (not_lt.mp hneg)).symm

theorem idOf_eq_ok {v : I32} {id : UInt32} :
    idOf v = .ok id ↔ 0 ≤ v.toInt ∧ id = UInt32.ofBitVec v := by
  unfold idOf
  by_cases hneg : v.toInt < 0
  · rw [if_pos hneg]
    exact ⟨fun h => (by cases h), fun h => absurd h.1 hneg.not_ge⟩
  · rw [if_neg hneg, Except.ok.injEq, eq_comm]
    exact (and_iff_right (not_lt.mp hneg)).symm

/-- An array is read where no entry is negative. -/
theorem readArray_eq_ok (hconvert : ∀ v x, convert v = .ok x ↔ 0 ≤ v.toInt ∧ x = value v) :
    readArray convert values count = .ok xs ↔
      (∀ k < count, 0 ≤ (values k).toInt) ∧ xs = (List.range count).map fun k => value (values k) := by
  rw [readArray, mapM_eq_ok_iff (p := fun k => 0 ≤ (values k).toInt)
    fun k x => hconvert (values k) x]
  exact and_congr_left fun _ => forall_congr' fun k => imp_congr_left List.mem_range

end Reading

/-! ## The search -/

namespace PassAnswer

variable {a : PassAnswer} {cap low high : ℕ}

/-- The piece bounds, as they are read. -/
def bounds (a : PassAnswer) : List ℕ := (List.range (a.pieces + 1)).map fun k => (a.pb k).toInt.toNat

/-- The token offsets, as they are read. -/
def cuts (a : PassAnswer) : List ℕ := (List.range (a.pieces + 1)).map a.cut

theorem Ordered.place_nonneg (h : a.Ordered cap) {k : ℕ} (hk : k ≤ a.pieces) : 0 ≤ a.place k :=
  h.start.trans ((place_le_iff h.bounds (Nat.zero_le _) hk).mpr (Nat.zero_le k))

/-- The host clears the first offset. -/
theorem Ordered.offsets_nonneg (h : a.Ordered cap) {k : ℕ} (hk : k ≤ a.pieces) :
    0 ≤ (a.offsets k).toInt := by
  induction k with
  | zero => exact le_rfl
  | succ k ih => exact (ih (by omega)).trans (h.offsets k hk)

/-- A piece has a byte at least. -/
theorem Ordered.pieces_le (h : a.Ordered cap) : a.pieces ≤ cap := by
  have hplace : ∀ k ≤ a.pieces, (k : ℤ) ≤ a.place k := by
    intro k hk
    induction k with
    | zero => exact h.start
    | succ k ih =>
      have hprev := ih (by omega)
      have hstep := h.bounds k hk
      omega
  have hlast := hplace a.pieces le_rfl
  rw [h.pieceSentinel] at hlast
  exact_mod_cast hlast

theorem getElem?_bounds (a : PassAnswer) {k : ℕ} (hk : k ≤ a.pieces) :
    a.bounds[k]? = some (a.place k).toNat := by
  rw [bounds, List.getElem?_map, List.getElem?_range (by omega)]
  rfl

theorem getD_cuts (a : PassAnswer) {k : ℕ} (hk : k ≤ a.pieces) : a.cuts.getD k 0 = a.cut k := by
  rw [List.getD_eq_getElem?_getD, cuts, List.getElem?_map, List.getElem?_range (by omega)]
  rfl

theorem Ordered.bounds_pairwise (h : a.Ordered cap) : a.bounds.Pairwise (· < ·) := by
  refine List.pairwise_map.mpr (List.pairwise_lt_range.imp_of_mem fun {i j} hi hj hij => ?_)
  have hi := List.mem_range.mp hi
  have hj := List.mem_range.mp hj
  have hlt := (place_le_iff h.bounds (i := j) (j := i) (by omega) (by omega)).not.mpr hij.not_ge
  exact (Int.toNat_lt_toNat ((h.place_nonneg (by omega)).trans_lt (not_le.mp hlt))).mpr
    (not_le.mp hlt)

/-- The search finds the pieces that start at a byte. -/
theorem Ordered.binarySearch_eq_some (h : a.Ordered cap) {k : ℕ} :
    binarySearch a.bounds low = some k ↔ k ≤ a.pieces ∧ a.place k = low := by
  rw [Lib.binarySearch_eq_some h.bounds_pairwise]
  constructor
  · intro hk
    have hle : k ≤ a.pieces := by
      have hlt := (List.getElem?_eq_some_iff.mp hk).1
      rw [PassAnswer.bounds, List.length_map, List.length_range] at hlt
      omega
    rw [getElem?_bounds a hle, Option.some.injEq] at hk
    refine ⟨hle, ?_⟩
    rw [← hk, Int.toNat_of_nonneg (h.place_nonneg hle)]
  · rintro ⟨hle, hplace⟩
    rw [getElem?_bounds a hle, hplace, Int.toNat_natCast]

/-- Where both bytes are bounds, a row has the tokens between them. -/
theorem Ordered.sliceRow_eq (h : a.Ordered cap) (hlow : a.IsBound low) (hhigh : a.IsBound high)
    (hle : low ≤ high) :
    sliceRow a.stream a.bounds a.cuts low high = .ok (a.tokensWithin low high) := by
  obtain ⟨i, hi, hlow⟩ := hlow
  obtain ⟨j, hj, hhigh⟩ := hhigh
  obtain ⟨hrow, hcut⟩ := h.tokensWithin_eq hlow hhigh (h.index_le hlow hhigh hi hj hle) hj
  have hlast : a.cut j ≤ a.stream.length := by
    rw [stream, List.length_map, List.length_range, ← h.tokenSentinel]
    exact (h.tokensWithin_eq hhigh h.pieceSentinel hj le_rfl).2
  rw [sliceRow, h.binarySearch_eq_some.mpr ⟨hi, hlow⟩, h.binarySearch_eq_some.mpr ⟨hj, hhigh⟩]
  dsimp only
  rw [getD_cuts a hi, getD_cuts a hj, if_pos ⟨hcut, hlast⟩, hrow]

/-- A row is there where both bytes are bounds. -/
theorem Ordered.isBound_of_sliceRow (h : a.Ordered cap) {ids : List UInt32} {offsets : List ℕ}
    {row : List UInt32} (hrow : sliceRow ids a.bounds offsets low high = .ok row) :
    a.IsBound low ∧ a.IsBound high := by
  unfold sliceRow at hrow
  split at hrow
  · cases hrow
  · rename_i i hi
    split at hrow
    · cases hrow
    · rename_i j hj
      exact ⟨⟨i, h.binarySearch_eq_some.mp hi⟩, j, h.binarySearch_eq_some.mp hj⟩

theorem Ordered.sliceRow_eq_ok (h : a.Ordered cap) (hle : low ≤ high) {row : List UInt32} :
    sliceRow a.stream a.bounds a.cuts low high = .ok row ↔
      (a.IsBound low ∧ a.IsBound high) ∧ row = a.tokensWithin low high := by
  constructor
  · intro hrow
    have hbounds := h.isBound_of_sliceRow hrow
    rw [h.sliceRow_eq hbounds.1 hbounds.2 hle] at hrow
    exact ⟨hbounds, (Except.ok.inj hrow).symm⟩
  · rintro ⟨⟨hlow, hhigh⟩, rfl⟩
    exact h.sliceRow_eq hlow hhigh hle

/-! ## A batch -/

variable {docs : List Text} {rows : List (List UInt32)} {st st' : σ} {pass : Pass σ}

/-- Without a fault the rows are those of the documents. -/
theorem Ordered.rows_eq (h : a.Ordered cap) (hfault : a.Faultless cap) : a.rows docs cap =
    (List.range docs.length).mapM fun i =>
      sliceRow a.stream a.bounds a.cuts (border docs i) (border docs (i + 1)) := by
  have hids : readArray idOf a.output a.tail.tokens.toInt.toNat = .ok a.stream :=
    (readArray_eq_ok fun _ _ => idOf_eq_ok).mpr ⟨hfault.ids, rfl⟩
  have hbounds (message : String) : readArray (sizeOf message) a.pb (a.pieces + 1) = .ok a.bounds :=
    (readArray_eq_ok fun _ _ => sizeOf_eq_ok).mpr
      ⟨fun k hk => h.place_nonneg (Nat.le_of_lt_succ hk), rfl⟩
  have hcuts (message : String) :
      readArray (sizeOf message) a.offsets (a.pieces + 1) = .ok a.cuts :=
    (readArray_eq_ok fun _ _ => sizeOf_eq_ok).mpr
      ⟨fun k hk => h.offsets_nonneg (Nat.le_of_lt_succ hk), rfl⟩
  have hlast : a.bounds.getLast? = some cap ∧ a.cuts.getLast? = some a.tail.tokens.toInt.toNat := by
    rw [PassAnswer.bounds, cuts, List.range_succ, List.map_append, List.map_append, List.map_singleton,
      List.map_singleton, List.getLast?_concat, List.getLast?_concat, cut, h.tokenSentinel]
    refine ⟨congrArg some ?_, rfl⟩
    have hplace := h.pieceSentinel
    rw [place] at hplace
    rw [hplace, Int.toNat_natCast]
  have htokens : a.tail.tokens.toInt.toNat ≤ cap := by
    have hle := hfault.tokens_le
    omega
  have hpieces := h.pieces_le
  unfold PassAnswer.rows
  rw [hfault.guard]
  dsimp only
  rw [sizeOf_eq_ok.mpr ⟨hfault.tokens, rfl⟩, ok_bind, sizeOf_eq_ok.mpr ⟨hfault.pieces, rfl⟩, ok_bind,
    if_neg (by rw [← pieces]; omega), hids, ok_bind, ← pieces, hbounds, ok_bind, hcuts, ok_bind,
    if_neg (by simp [hlast]), windows_eq, List.mapM_map]
  rfl

theorem faultless_of_rows (hrows : a.rows docs cap = .ok rows) : a.Faultless cap := by
  unfold PassAnswer.rows at hrows
  split at hrows
  · cases hrows
  · rename_i hguard
    obtain ⟨tokenCount, htokenCount, hrows⟩ := bind_eq_ok.mp hrows
    obtain ⟨pieces, hpieceCount, hrows⟩ := bind_eq_ok.mp hrows
    obtain ⟨htokens, rfl⟩ := sizeOf_eq_ok.mp htokenCount
    obtain ⟨hpieces, rfl⟩ := sizeOf_eq_ok.mp hpieceCount
    split_ifs at hrows with hgeometry
    obtain ⟨ids, hids, -⟩ := bind_eq_ok.mp hrows
    have hids := ((readArray_eq_ok fun _ _ => idOf_eq_ok).mp hids).1
    exact ⟨hguard, htokens, by omega, hpieces, hids⟩

/-- The rows are there without a fault, where the documents meet at bounds. -/
theorem Ordered.rows_eq_ok (h : a.Ordered cap) : a.rows docs cap = .ok rows ↔
    a.Faultless cap ∧
      (∀ i ∈ List.range docs.length, a.IsBound (border docs i) ∧ a.IsBound (border docs (i + 1))) ∧
      rows = (List.range docs.length).map fun i =>
        a.tokensWithin (border docs i) (border docs (i + 1)) := by
  have hslices : ((List.range docs.length).mapM fun i =>
      sliceRow a.stream a.bounds a.cuts (border docs i) (border docs (i + 1))) = .ok rows ↔ _ :=
    mapM_eq_ok_iff fun i _ => h.sliceRow_eq_ok (border_le_succ docs i)
  constructor
  · intro hrows
    have hfault := faultless_of_rows hrows
    rw [h.rows_eq hfault] at hrows
    exact ⟨hfault, hslices.mp hrows⟩
  · rintro ⟨hfault, hrows⟩
    rw [h.rows_eq hfault]
    exact hslices.mpr hrows

/-- The tokens of the first documents, one row after the other. -/
theorem Ordered.flatten_rows (h : a.Ordered cap) {n : ℕ}
    (hbounds : ∀ i ≤ n, a.IsBound (border docs i)) :
    ((List.range n).map fun i => a.tokensWithin (border docs i) (border docs (i + 1))).flatten =
      a.tokensWithin 0 (border docs n) := by
  induction n with
  | zero => exact (h.tokensWithin_self (hbounds 0 le_rfl)).symm
  | succ n ih =>
    have hflatten := ih fun i hi => hbounds i (hi.trans (Nat.le_succ n))
    rw [List.range_succ, List.map_append, List.flatten_append, hflatten, List.map_singleton,
      List.flatten_singleton]
    exact h.tokensWithin_append (hbounds 0 (Nat.zero_le _)) (hbounds n (Nat.le_succ n))
      (hbounds (n + 1) le_rfl) (Nat.zero_le _) (border_le_succ docs n)

/-- Rows between bounds are those of the documents. -/
theorem Ordered.rowsOf (h : a.Ordered (utf8Len docs.flatten))
    (hbounds : ∀ i ≤ docs.length, a.IsBound (border docs i)) :
    a.RowsOf docs ((List.range docs.length).map fun i =>
      a.tokensWithin (border docs i) (border docs (i + 1))) where
  length := by rw [List.length_map, List.length_range]
  flatten := by rw [h.flatten_rows hbounds, border_length, h.tokensWithin_all]
  row i row hrow := by
    rw [List.getElem?_map, Option.map_eq_some_iff] at hrow
    obtain ⟨j, hj, rfl⟩ := hrow
    obtain ⟨hlt, rfl⟩ := List.getElem?_eq_some_iff.mp hj
    rw [List.getElem_range]
  empty i hdoc := by
    have hlt := (List.getElem?_eq_some_iff.mp hdoc).1
    rw [List.getElem?_map, List.getElem?_range hlt, Option.map_some, border_succ hdoc]
    exact congrArg some (h.tokensWithin_self (hbounds i hlt.le))

/-! ## A single document -/

/-- The row of a single document is the stream. -/
theorem Ordered.rowsOf_single {doc : Text} (h : a.Ordered (utf8Len doc)) (hdoc : doc ≠ []) :
    a.RowsOf [doc] [a.stream] where
  length := rfl
  flatten := List.flatten_singleton
  row i row hrow := by
    obtain ⟨hlt, rfl⟩ := List.getElem?_eq_some_iff.mp hrow
    have hi : i = 0 := Nat.lt_one_iff.mp hlt
    subst hi
    rw [border_succ List.getElem?_cons_zero, border_zero, Nat.zero_add, h.tokensWithin_all]
    rfl
  empty i hempty := by
    obtain ⟨hlt, hnil⟩ := List.getElem?_eq_some_iff.mp hempty
    have hi : i = 0 := Nat.lt_one_iff.mp hlt
    subst hi
    exact absurd hnil hdoc

theorem single_eq_ok {row : List UInt32} : a.single cap = .ok row ↔
    a.tail.sparseGuard = none ∧ 0 ≤ a.tail.tokens.toInt ∧ a.tail.tokens.toInt ≤ cap ∧
      (∀ k < a.tail.tokens.toInt.toNat, 0 ≤ (a.output k).toInt) ∧ row = a.stream := by
  have hids : readArray idOf a.output a.tail.tokens.toInt.toNat = .ok row ↔ _ :=
    readArray_eq_ok fun _ _ => idOf_eq_ok
  unfold single
  constructor
  · intro hrow
    obtain ⟨count, hcount, hrow⟩ := bind_eq_ok.mp hrow
    obtain ⟨htokens, rfl⟩ := sizeOf_eq_ok.mp hcount
    split_ifs at hrow with hcap
    split at hrow
    · cases hrow
    · rename_i hguard
      exact ⟨hguard, htokens, by omega, hids.mp hrow⟩
  · rintro ⟨hguard, htokens, hcap, hrow⟩
    rw [sizeOf_eq_ok.mpr ⟨htokens, rfl⟩, ok_bind, if_neg (by omega), hguard]
    exact hids.mpr hrow

end PassAnswer

/-! ## The executor -/

section Batches

variable {docs : List Text}

/-- The marks that go with the bytes. -/
def docStarts (docs : List Text) : Option (List UInt8) :=
  if docs.length ≤ 1 then none
  else some (markStarts (List.replicate (utf8Len docs.flatten) 0) 0 docs)

theorem totalBytes_of_le (docs : List Text) (total : ℕ)
    (h : total + utf8Len docs.flatten ≤ USIZE_MAX) :
    Executor.totalBytes docs total = some (total + utf8Len docs.flatten) := by
  induction docs generalizing total with
  | nil => rfl
  | cons doc docs ih =>
    rw [List.flatten_cons, utf8Len_append, ← Nat.add_assoc] at h ⊢
    rw [Executor.totalBytes, if_pos (le_of_add_le_left h), ih _ h]

variable {pass : Pass σ} {st st' : σ} {a : PassAnswer} {rows : List (List UInt32)}

theorem encodeBatch_of_empty (pass : Pass σ) (st : σ) (h : ∀ doc ∈ docs, doc = []) :
    ((batchExecutor pass).encodeBatch docs st).1 = .ok (docs.map fun _ => []) := by
  have hflatten : docs.flatten = [] := List.flatten_eq_nil_iff.mpr h
  match docs with
  | [] => rfl
  | [doc] =>
    rw [h doc List.mem_cons_self]
    rfl
  | doc :: doc' :: docs =>
    have htotal := totalBytes_of_le (doc :: doc' :: docs) 0
      (by rw [hflatten]; exact Nat.zero_le _)
    rw [hflatten] at htotal
    unfold Executor.encodeBatch
    dsimp only
    rw [htotal]
    rfl

/-- A single document goes the way of one text. -/
theorem encodeBatch_single {doc : Text} (hpass : pass (joined [doc]) (docStarts [doc]) st = (.ok a, st'))
    (hdoc : doc ≠ []) : ((batchExecutor pass).encodeBatch [doc] st).1 = .ok rows ↔
      utf8Len doc < I32_MAX ∧ ∃ row, a.single (utf8Len doc) = .ok row ∧ rows = [row] := by
  have hanswer : ((batchExecutor pass).encodeInWorkspace doc st).1 = a.single (utf8Len doc) := by
    have hjoined : joined [doc] = utf8 doc := by rw [joined, List.flatten_singleton]
    have hnone : docStarts [doc] = none := rfl
    rw [hjoined, hnone] at hpass
    simp only [batchExecutor, hpass, ok_bind]
  rw [Executor.encodeBatch_singleton]
  dsimp only
  unfold Executor.encode
  rw [if_neg (by simpa using hdoc)]
  by_cases hlimit : I32_MAX ≤ utf8Len doc
  · rw [if_pos hlimit]
    exact ⟨fun h => (by cases h), fun h => absurd h.1 (by omega)⟩
  · rw [if_neg hlimit, hanswer, and_iff_right (not_le.mp hlimit)]
    cases a.single (utf8Len doc) with
    | error e =>
      refine ⟨fun h => (by cases h), fun h => ?_⟩
      obtain ⟨_, hrow, -⟩ := h
      cases hrow
    | ok row =>
      constructor
      · intro h
        exact ⟨row, rfl, (Except.ok.inj h).symm⟩
      · rintro ⟨_, hrow, rfl⟩
        cases hrow
        rfl

/-- Several documents go in one pass. -/
theorem encodeBatch_several (hpass : pass (joined docs) (docStarts docs) st = (.ok a, st'))
    (hseveral : 1 < docs.length) (hdocs : docs.flatten ≠ []) :
    ((batchExecutor pass).encodeBatch docs st).1 = .ok rows ↔
      utf8Len docs.flatten < I32_MAX ∧ a.rows docs (utf8Len docs.flatten) = .ok rows := by
  have hanswer : ((batchExecutor pass).launchBatch docs st).1 =
      a.rows docs (utf8Len docs.flatten) := by
    rw [docStarts, if_neg (by omega)] at hpass
    simp only [batchExecutor, hpass, ok_bind]
  have hpos := utf8Len_pos hdocs
  obtain ⟨doc, doc', rest, rfl⟩ : ∃ doc doc' rest, docs = doc :: doc' :: rest := by
    match docs with
    | doc :: doc' :: rest => exact ⟨doc, doc', rest, rfl⟩
  unfold Executor.encodeBatch
  dsimp only
  cases htotal : Executor.totalBytes (doc :: doc' :: rest) 0 with
  | none =>
    refine ⟨fun h => (by cases h), fun h => ?_⟩
    have hfits := totalBytes_of_le (doc :: doc' :: rest) 0
      (by have hlt := h.1; simp only [I32_MAX, USIZE_MAX] at *; omega)
    rw [htotal] at hfits
    cases hfits
  | some total =>
    have htotal := totalBytes_eq_some htotal
    rw [Nat.zero_add] at htotal
    subst htotal
    dsimp only
    rw [if_neg (by omega)]
    by_cases hlimit : I32_MAX ≤ utf8Len (doc :: doc' :: rest).flatten
    · rw [if_pos hlimit]
      exact ⟨fun h => (by cases h), fun h => absurd h.1 (by omega)⟩
    · rw [if_neg hlimit, hanswer]
      exact (and_iff_right (not_le.mp hlimit)).symm

end Batches

/-- Where the piece bounds and the token offsets are in order, the rows of a batch are those of its
documents, and they are there where no fault is reported and the documents meet at piece bounds. -/
theorem encode_batch_slices (pass : Pass σ) (docs : List Text) (st : σ) :
    ((∀ doc ∈ docs, doc = []) →
      ((batchExecutor pass).encodeBatch docs st).1 = .ok (docs.map fun _ => [])) ∧
    ∀ a st', pass (joined docs) (docStarts docs) st = (.ok a, st') →
      a.Ordered (utf8Len docs.flatten) →
      (∃ doc ∈ docs, doc ≠ []) →
        (∀ rows, ((batchExecutor pass).encodeBatch docs st).1 = .ok rows → a.RowsOf docs rows) ∧
        (utf8Len docs.flatten < I32_MAX → a.Faultless (utf8Len docs.flatten) →
          (∀ i ≤ docs.length, a.IsBound (border docs i)) →
            ∃ rows, ((batchExecutor pass).encodeBatch docs st).1 = .ok rows) := by
  refine ⟨encodeBatch_of_empty pass st, fun a st' hpass h hdocs => ?_⟩
  obtain ⟨doc, hmem, hdoc⟩ := hdocs
  obtain hsingle | hseveral := Nat.lt_or_ge 1 docs.length |>.symm
  · -- one document, which is the text
    obtain rfl : docs = [doc] := by
      match docs, hmem with
      | [_], hmem => rw [List.mem_singleton.mp hmem]
    have hcap : utf8Len [doc].flatten = utf8Len doc := by rw [List.flatten_singleton]
    rw [hcap] at h ⊢
    constructor
    · intro rows hrows
      obtain ⟨-, row, hrow', rfl⟩ := (encodeBatch_single hpass hdoc).mp hrows
      rw [(PassAnswer.single_eq_ok.mp hrow').2.2.2.2]
      exact h.rowsOf_single hdoc
    · intro hlimit hfault _
      exact ⟨_, (encodeBatch_single hpass hdoc).mpr ⟨hlimit, a.stream, PassAnswer.single_eq_ok.mpr
        ⟨hfault.guard, hfault.tokens, hfault.tokens_le, hfault.ids, rfl⟩, rfl⟩⟩
  · have hflatten : docs.flatten ≠ [] := fun hnil => hdoc (List.flatten_eq_nil_iff.mp hnil doc hmem)
    constructor
    · intro rows hrows
      obtain ⟨-, hbounds, rfl⟩ := h.rows_eq_ok.mp
        ((encodeBatch_several hpass hseveral hflatten).mp hrows).2
      refine h.rowsOf fun i hi => ?_
      obtain rfl | hlt := hi.eq_or_lt
      · exact ⟨a.pieces, le_rfl, h.pieceSentinel.trans (congrArg Nat.cast (border_length docs).symm)⟩
      · exact (hbounds i (List.mem_range.mpr hlt)).1
    · intro hlimit hfault hbounds
      refine ⟨_, (encodeBatch_several hpass hseveral hflatten).mpr
        ⟨hlimit, h.rows_eq_ok.mpr ⟨hfault, fun i hi => ?_, rfl⟩⟩⟩
      have hi := List.mem_range.mp hi
      exact ⟨hbounds i hi.le, hbounds (i + 1) hi⟩

/-- The pieces of a text of four bytes: the first has two. -/
def answerOf (chain : I32) : PassAnswer where
  tail := ⟨3, chain, 0, 0⟩
  pieceCount := 3
  output k := [10, 20, 30].getD k 0
  pb k := [0, 2, 3, 4].getD k 0
  scanned k := [1, 2, 3].getD k 0

theorem answerOf_ordered (chain : I32) : (answerOf chain).Ordered 4 := by
  have h : (answerOf 0).Ordered 4 := ⟨by decide, by decide, by decide, rfl, rfl⟩
  exact ⟨h.start, h.bounds, h.offsets, h.pieceSentinel, h.tokenSentinel⟩

/-- A two-byte document, an empty one and one of two letters. -/
def mixedDocs : List Text := [['é'], [], ['a', 'b']]

theorem mixedDocs_border (chain : I32) : ∀ i ≤ mixedDocs.length,
    (answerOf chain).IsBound (border mixedDocs i) := by
  have hzero : (answerOf chain).IsBound 0 := ⟨0, Nat.zero_le _, rfl⟩
  have htwo : (answerOf chain).IsBound 2 := ⟨1, (by decide : 1 ≤ (answerOf 0).pieces), rfl⟩
  have hfour : (answerOf chain).IsBound 4 := ⟨3, le_rfl, rfl⟩
  intro i hi
  match i, hi with
  | 0, _ => exact hzero
  | 1, _ => exact htwo
  | 2, _ => exact htwo
  | 3, _ => exact hfour

theorem encode_batch_slices_mixed :
    ((batchExecutor fun _ _ st => (.ok (answerOf 0), st)).encodeBatch [[], []] ()).1 =
      .ok [[], []] ∧
    ∃ rows, ((batchExecutor fun _ _ st => (.ok (answerOf 0), st)).encodeBatch mixedDocs ()).1 =
      .ok rows ∧ (answerOf 0).RowsOf mixedDocs rows := by
  have hempty := (encode_batch_slices (fun _ _ st => (.ok (answerOf 0), st)) [[], []] ()).1
    (by decide)
  have hslices := (encode_batch_slices (fun _ _ st => (.ok (answerOf 0), st)) mixedDocs ()).2
    (answerOf 0) () rfl (answerOf_ordered 0) ⟨['é'], List.mem_cons_self, by decide⟩
  obtain ⟨rows, hrows⟩ := hslices.2 (by decide) ⟨rfl, by decide, by decide, by decide, by decide⟩
    (mixedDocs_border 0)
  exact ⟨hempty, rows, hrows, hslices.1 rows hrows⟩

/-- A sparse guard fails a batch whose documents meet at piece bounds. -/
theorem encode_batch_guarded : (answerOf 1).Ordered (utf8Len mixedDocs.flatten) ∧
    (∀ i ≤ mixedDocs.length, (answerOf 1).IsBound (border mixedDocs i)) ∧
    ∀ rows, ((batchExecutor fun _ _ st => (.ok (answerOf 1), st)).encodeBatch mixedDocs ()).1 ≠
      .ok rows := by
  refine ⟨answerOf_ordered 1, mixedDocs_border 1, fun rows hrows => ?_⟩
  obtain ⟨-, h⟩ := (encodeBatch_several rfl (by decide) (by decide)).mp hrows
  exact absurd (PassAnswer.faultless_of_rows h).guard (by decide)

end Toktier.Routing
