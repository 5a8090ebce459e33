import Toktier.Routing.Router

/-!
# The batch surface of the GPU engine

A batch is cut into chunks of bounded size, and each chunk goes to the device in one call. A
chunk whose call fails is halved until the rows that fail stand alone, so that a fault costs
its own row only.

## Main definitions

* `Executor`: the two device calls, and what stands before them.
* `resolveFailedChunk`: the search by halving.
* `NativePrebuiltGpu`: the engine, with `encodeIds` for one text and `encodeBatchIds` for many.

## Main results

* `resolveLoop_spec`, `chunkLoop_spec`: every row of the ranges is settled with its own answer.
* `encodeBatchIds_isolated`: a batch gives every row what it gets alone.
-/
namespace Toktier.Routing

open Toktier.Lib

/-! ## The executor -/

/-- What a row gets. -/
abbrev RowIds := Except NativeRuntimeError (List UInt32)

/-- The device: the single-document path, and the batched one. -/
structure Executor (σ : Type) where
  encodeInWorkspace : Text → σ → RowIds × σ
  launchBatch : List Text → σ → Except NativeRuntimeError (List (List UInt32)) × σ

variable {σ : Type}

/-- The largest value of a 32-bit signed integer. -/
def I32_MAX : ℕ := 2 ^ 31 - 1

def USIZE_MAX : ℕ := 2 ^ 64 - 1

namespace Executor

variable (executor : Executor σ)

def encode (text : Text) (st : σ) : RowIds × σ :=
  if text.isEmpty then (.ok [], st)
  else if I32_MAX ≤ utf8Len text then
    (.error ⟨"native GPU input exceeds the 2^31-byte kernel limit"⟩, st)
  else executor.encodeInWorkspace text st

/-- The sum of the lengths, or `none` where it does not fit. -/
def totalBytes : List Text → ℕ → Option ℕ
  | [], total => some total
  | text :: docs, total =>
      if total + utf8Len text ≤ USIZE_MAX then totalBytes docs (total + utf8Len text) else none

def encodeBatch (docs : List Text) (st : σ) : Except NativeRuntimeError (List (List UInt32)) × σ :=
  match docs with
  | [] => (.ok [], st)
  | [doc] => ((executor.encode doc st).1.map ([·]), (executor.encode doc st).2)
  | docs =>
      match totalBytes docs 0 with
      | none => (.error ⟨"native GPU batch byte length overflow"⟩, st)
      | some total =>
          if total = 0 then (.ok (docs.map fun _ => []), st)
          else if I32_MAX ≤ total then
            (.error ⟨"native GPU batch exceeds the 2^31-byte kernel limit"⟩, st)
          else executor.launchBatch docs st

theorem encodeBatch_singleton (doc : Text) (st : σ) : executor.encodeBatch [doc] st =
    ((executor.encode doc st).1.map ([·]), (executor.encode doc st).2) := rfl

end Executor

/-! ## The search by halving -/

/-- The rows of a batch: `none` while a row is not settled. -/
abbrev Output := List (Option RowIds)

/-- `output[index] = Some(value)` for the pairs, in order. -/
def settleRows (output : Output) : List (ℕ × RowIds) → Output
  | [] => output
  | (index, value) :: rows => settleRows (output.set index (some value)) rows

/-- `items[low..high]`. -/
def slice {α : Type} (items : List α) (low high : ℕ) : List α := (items.drop low).take (high - low)

def wrongRowCount : NativeRuntimeError := ⟨"native GPU batch returned the wrong row count"⟩

section Halving

variable (executor : Executor σ) (indices : List ℕ) (batch : List Text)

/-- What a call for the rows from `low` to `high` settles, where it does not fail. -/
def settleCall (low high : ℕ) (rows : List (List UInt32)) (output : Output) : Output :=
  if rows.length = (slice batch low high).length then
    settleRows output ((slice indices low high).zip (rows.map .ok))
  else settleRows output ((slice indices low high).map (·, .error wrongRowCount))

/-- The work left in a stack of ranges: a range of `n` rows takes at most `2 * n - 1` calls. -/
def pendingCalls : List (ℕ × ℕ) → ℕ
  | [] => 0
  | (low, high) :: pending => 2 * max (high - low) 1 - 1 + pendingCalls pending

/-- The loop over the stack of ranges. -/
def resolveLoop : List (ℕ × ℕ) → σ → Output → Output × σ
  | [], st, output => (output, st)
  | (low, high) :: pending, st, output =>
      match executor.encodeBatch (slice batch low high) st with
      | (.ok rows, st') => resolveLoop pending st' (settleCall indices batch low high rows output)
      | (.error error, st') =>
          if high - low ≤ 1 then
            resolveLoop pending st'
              (settleRows output ((slice indices low (low + 1)).map (·, .error error)))
          else
            let middle := low + (high - low) / 2
            -- popped from the end, so the halves are attempted left to right
            resolveLoop ((low, middle) :: (middle, high) :: pending) st' output
termination_by pending => pendingCalls pending
decreasing_by all_goals simp only [pendingCalls]; omega

def resolveFailedChunk (batch_error : NativeRuntimeError) (st : σ) (output : Output) : Output × σ :=
  if batch.length ≤ 1 then
    -- the attempt that failed was this row's
    (settleRows output ((indices.take 1).map (·, .error batch_error)), st)
  else
    let middle := batch.length / 2
    resolveLoop executor indices batch [(0, middle), (middle, batch.length)] st output

end Halving

/-! ## A batch in chunks -/

/-- The limits of a chunk. A chunk has room for one document at least. -/
structure BatchLimits where
  docs : ℕ
  bytes : ℕ
  docs_pos : 0 < docs

def BatchLimits.native : BatchLimits := ⟨512, 4000000, by decide⟩

def saturatingAdd (a b : ℕ) : ℕ := min (a + b) USIZE_MAX

section Chunks

variable (limits : BatchLimits) (executor : Executor σ) (doc : ℕ → Text) (valid : List ℕ)

/-- The end of the chunk that starts at `start`. -/
def chunkEnd (start cursor bytes : ℕ) : ℕ :=
  if h : cursor < valid.length ∧ cursor - start < limits.docs then
    let bytes' := saturatingAdd bytes (utf8Len (doc (valid.get ⟨cursor, h.1⟩)))
    if start < cursor ∧ limits.bytes < bytes' then cursor
    else if limits.bytes ≤ bytes' then cursor + 1
    else chunkEnd start (cursor + 1) bytes'
  else cursor
termination_by valid.length - cursor
decreasing_by omega

theorem le_chunkEnd (start cursor bytes : ℕ) : cursor ≤ chunkEnd limits doc valid start cursor bytes := by
  fun_induction chunkEnd limits doc valid start cursor bytes with
  | case1 => omega
  | case2 => omega
  | case3 cursor bytes h bytes' h1 h2 ih => omega
  | case4 => omega

/-- A chunk takes a document at least. -/
theorem lt_chunkEnd {start : ℕ} (h : start < valid.length) :
    start < chunkEnd limits doc valid start start 0 := by
  have hpos := limits.docs_pos
  have hle := le_chunkEnd limits doc valid start (start + 1)
    (saturatingAdd 0 (utf8Len (doc (valid.get ⟨start, h⟩))))
  unfold chunkEnd
  rw [dif_pos ⟨h, by omega⟩]
  dsimp only
  split_ifs <;> omega

/-- One chunk: a single call, and the search where it fails. -/
def encodeChunk (indices : List ℕ) (st : σ) (output : Output) : Output × σ :=
  let batch := indices.map doc
  match executor.encodeBatch batch st with
  | (.ok rows, st') => (settleCall indices batch 0 indices.length rows output, st')
  | (.error error, st') => resolveFailedChunk executor indices batch error st' output

/-- The loop over the chunks. -/
def chunkLoop (cursor : ℕ) (st : σ) (output : Output) : Output × σ :=
  if _h : cursor < valid.length then
    let stop := chunkEnd limits doc valid cursor cursor 0
    let (output', st') := encodeChunk executor doc (slice valid cursor stop) st output
    chunkLoop stop st' output'
  else (output, st)
termination_by valid.length - cursor
decreasing_by
  have := lt_chunkEnd limits doc valid _h
  omega

end Chunks

/-- The engine: the normalizer of the reference engine, and the device. -/
structure NativePrebuiltGpu (σ : Type) where
  needs_nfc : Bool
  normalize : Text → Except NativeRuntimeError Text
  executor : Executor σ

namespace NativePrebuiltGpu

variable (gpu : NativePrebuiltGpu σ)

/-- The text that the device gets. -/
def input (text : Text) : Except NativeRuntimeError Text :=
  if gpu.needs_nfc && !text.all (fun c => c.val < 128) then gpu.normalize text else .ok text

def encodeIds (text : Text) (st : σ) : RowIds × σ :=
  match gpu.input text with
  | .error error => (.error error, st)
  | .ok text => gpu.executor.encode text st

/-- The normalized text of a valid row. -/
def docOf (normalized : List (Except NativeRuntimeError Text)) (index : ℕ) : Text :=
  ((normalized[index]?.getD (.ok [])).toOption).getD []

/-- The rows that normalize. -/
def validRows (normalized : List (Except NativeRuntimeError Text)) : List ℕ :=
  (List.range normalized.length).filter fun index =>
    ((normalized[index]?.getD (.ok [])).toOption).isSome

/-- A row that does not normalize is settled with its error. -/
def refusedRow : Except NativeRuntimeError Text → Option RowIds
  | .ok _ => none
  | .error error => some (.error error)

def leftUnresolved : NativeRuntimeError := ⟨"native GPU batch left a row unresolved"⟩

def encodeBatchIds (limits : BatchLimits) (texts : List Text) (st : σ) : List RowIds × σ :=
  let normalized := texts.map gpu.input
  let (output, st') := chunkLoop limits gpu.executor (docOf normalized) (validRows normalized) 0 st
    (normalized.map refusedRow)
  (output.map fun row => row.getD (.error leftUnresolved), st')

end NativePrebuiltGpu

/-! ## A call -/

/-- Whether a document faults, and its ids when it does not, depend on the document only: `ids`
is what it gets alone, and a batched call that succeeds gives no row anything else. -/
structure RowLocal (executor : Executor σ) (ids : Text → Option (List UInt32)) : Prop where
  encode : ∀ text st, (executor.encode text st).1.toOption = ids text
  launchBatch : ∀ docs st rows, (executor.launchBatch docs st).1 = .ok rows →
    docs.map ids = rows.map some

variable {executor : Executor σ} {ids : Text → Option (List UInt32)} {docs : List Text}
  {rows : List (List UInt32)} {st st' : σ} {error : NativeRuntimeError}

theorem RowLocal.encode_empty (h : RowLocal executor ids) (st : σ) : ids [] = some [] := by
  rw [← h.encode [] st]
  rfl

theorem totalBytes_eq_some {docs : List Text} {total sum : ℕ}
    (h : Executor.totalBytes docs total = some sum) : sum = total + utf8Len docs.flatten := by
  induction docs generalizing total with
  | nil => exact (Option.some.inj h).symm
  | cons doc docs ih =>
    rw [Executor.totalBytes] at h
    split_ifs at h
    rw [ih h, List.flatten_cons, utf8Len_append, Nat.add_assoc]

theorem totalBytes_zero {docs : List Text} {total : ℕ} (h : Executor.totalBytes docs total = some 0) :
    ∀ text ∈ docs, text = [] := by
  have hsum := totalBytes_eq_some h
  exact List.flatten_eq_nil_iff.mp (utf8Len_eq_zero.mp (by omega))

/-- A call that succeeds gives every row its own ids. -/
theorem RowLocal.encodeBatch (h : RowLocal executor ids)
    (hrows : (executor.encodeBatch docs st).1 = .ok rows) : docs.map ids = rows.map some := by
  cases docs with
  | nil =>
      cases hrows
      rfl
  | cons doc docs =>
      cases docs with
      | nil =>
          have halone := h.encode doc st
          rw [Executor.encodeBatch_singleton] at hrows
          cases hdoc : (executor.encode doc st).1 with
          | error error =>
              rw [hdoc] at hrows
              cases hrows
          | ok row =>
              rw [hdoc] at hrows halone
              cases hrows
              rw [List.map_singleton, ← halone]
              rfl
      | cons doc' docs =>
          unfold Executor.encodeBatch at hrows
          dsimp only at hrows
          cases htotal : Executor.totalBytes (doc :: doc' :: docs) 0 with
          | none =>
              rw [htotal] at hrows
              cases hrows
          | some total =>
              rw [htotal] at hrows
              dsimp only at hrows
              split_ifs at hrows with hz hbig
              · subst hz
                cases hrows
                rw [List.map_map]
                refine List.map_congr_left fun text htext => ?_
                rw [totalBytes_zero htotal text htext, h.encode_empty st]
                rfl
              · exact h.launchBatch _ _ _ hrows

/-- A call for at most one row fails only where that row fails alone. -/
theorem RowLocal.encodeBatch_single (h : RowLocal executor ids) (hlen : docs.length ≤ 1)
    (herror : (executor.encodeBatch docs st).1 = .error error) :
    ∃ doc, docs = [doc] ∧ ids doc = none := by
  cases docs with
  | nil => cases herror
  | cons doc docs =>
      obtain rfl : docs = [] := List.length_eq_zero_iff.mp (by simpa using hlen)
      refine ⟨doc, rfl, ?_⟩
      have halone := h.encode doc st
      rw [Executor.encodeBatch_singleton] at herror
      cases hdoc : (executor.encode doc st).1 with
      | error error =>
          rw [hdoc] at halone
          exact halone.symm
      | ok row =>
          rw [hdoc] at herror
          cases herror

/-! ## Settled rows -/

/-- Row `i` is settled with what it wants. -/
def RowDone (want : ℕ → Option (List UInt32)) (output : Output) (i : ℕ) : Prop :=
  ∃ row, output[i]? = some (some row) ∧ row.toOption = want i

/-- From `output` to `output'` the rows of `rows` are settled, and no settled row is spoiled. -/
structure Settles (want : ℕ → Option (List UInt32)) (rows : ℕ → Prop) (output output' : Output) :
    Prop where
  length : output'.length = output.length
  keep : ∀ i, RowDone want output i → RowDone want output' i
  done : ∀ i, rows i → i < output.length → RowDone want output' i

variable {want : ℕ → Option (List UInt32)} {R R' : ℕ → Prop} {output output₁ output₂ : Output}

theorem Settles.refl (hR : ∀ i, ¬R i) : Settles want R output output :=
  ⟨rfl, fun _ => id, fun i hi => absurd hi (hR i)⟩

theorem Settles.trans (h : Settles want R output output₁) (h' : Settles want R' output₁ output₂) :
    Settles want (fun i => R i ∨ R' i) output output₂ where
  length := h'.length.trans h.length
  keep i hi := h'.keep i (h.keep i hi)
  done i hi hlt := by
    rcases hi with hi | hi
    · exact h'.keep i (h.done i hi hlt)
    · exact h'.done i hi (h.length ▸ hlt)

theorem Settles.mono (h : Settles want R output output₁) (hR : ∀ i, R' i → R i) :
    Settles want R' output output₁ :=
  ⟨h.length, h.keep, fun i hi => h.done i (hR i hi)⟩

/-- Writes of right answers settle their rows. -/
theorem settleRows_settles {rows : List (ℕ × RowIds)}
    (h : ∀ p ∈ rows, p.2.toOption = want p.1) :
    Settles want (fun i => i ∈ rows.map Prod.fst) output (settleRows output rows) := by
  induction rows generalizing output with
  | nil => exact Settles.refl fun i hi => absurd hi List.not_mem_nil
  | cons p rows ih =>
      obtain ⟨index, value⟩ := p
      have hset : Settles want (· = index) output (output.set index (some value)) := by
        have hdone : index < output.length → RowDone want (output.set index (some value)) index :=
          fun hlt => ⟨value, by rw [List.getElem?_set_self hlt], h _ List.mem_cons_self⟩
        refine ⟨List.length_set, ?_, ?_⟩
        · rintro i ⟨row, hrow, hwant⟩
          by_cases hi : index = i
          · subst hi
            exact hdone (List.getElem?_eq_some_iff.mp hrow).1
          · exact ⟨row, by rw [List.getElem?_set_ne hi, hrow], hwant⟩
        · rintro i rfl hlt
          exact hdone hlt
      refine (hset.trans (ih fun p hp => h p (List.mem_cons_of_mem _ hp))).mono fun i hi => ?_
      simpa using hi

/-! ## The search settles its rows -/

theorem slice_split {α : Type} (items : List α) (low middle high : ℕ) (h : low ≤ middle)
    (h' : middle ≤ high) : slice items low high = slice items low middle ++ slice items middle high := by
  unfold slice
  rw [show high - low = (middle - low) + (high - middle) by omega, List.take_add, List.drop_drop,
    show low + (middle - low) = middle by omega]

theorem mem_of_mem_slice {α : Type} {items : List α} {low high : ℕ} {a : α}
    (h : a ∈ slice items low high) : a ∈ items := List.mem_of_mem_drop (List.mem_of_mem_take h)

theorem slice_map {α β : Type} (f : α → β) (items : List α) (low high : ℕ) :
    slice (items.map f) low high = (slice items low high).map f := by
  rw [slice, slice, List.map_take, List.map_drop]

section Search

variable {doc : ℕ → Text} {indices : List ℕ} {low high : ℕ}

/-- A call that succeeds settles its rows. -/
theorem settleCall_settles (h : RowLocal executor ids)
    (hwant : ∀ i ∈ indices, want i = ids (doc i))
    (hrows : (executor.encodeBatch (slice (indices.map doc) low high) st).1 = .ok rows) :
    Settles want (· ∈ slice indices low high) output
      (settleCall indices (indices.map doc) low high rows output) := by
  have hids := h.encodeBatch hrows
  rw [slice_map, List.map_map] at hids
  have hlen : rows.length = (slice indices low high).length := by
    have := congrArg List.length hids
    simpa using this.symm
  unfold settleCall
  rw [slice_map, List.length_map, if_pos hlen]
  have hmem : ∀ i ∈ slice indices low high, want i = ids (doc i) := fun i hi =>
    hwant i (mem_of_mem_slice hi)
  revert hids hlen hmem
  generalize slice indices low high = part
  intro hids hlen hmem
  have hfst : (part.zip (rows.map (Except.ok (ε := NativeRuntimeError)))).map Prod.fst = part := by
    rw [List.map_fst_zip]
    rw [List.length_map, hlen]
  refine (settleRows_settles ?_).mono fun i hi => by rw [hfst]; exact hi
  intro p hp
  obtain ⟨k, hk, rfl⟩ := List.getElem_of_mem hp
  rw [List.length_zip, List.length_map] at hk
  rw [List.getElem_zip, List.getElem_map]
  have hget := List.getElem_of_eq hids (i := k) (by rw [List.length_map]; omega)
  rw [List.getElem_map, List.getElem_map] at hget
  exact hget.symm.trans (hmem _ (List.getElem_mem _)).symm

/-- The row of a call for one row that fails is settled with the error. -/
theorem settleError_settles (h : RowLocal executor ids)
    (hwant : ∀ i ∈ indices, want i = ids (doc i)) (hlen : indices.length ≤ 1)
    (herror : (executor.encodeBatch (indices.map doc) st).1 = .error error) :
    Settles want (· ∈ indices) output (settleRows output (indices.map (·, .error error))) := by
  obtain ⟨text, htext, hnone⟩ := h.encodeBatch_single (by simpa using hlen) herror
  refine (settleRows_settles ?_).mono ?_
  · intro p hp
    obtain ⟨i, hi, rfl⟩ := List.mem_map.mp hp
    have hdoc : doc i ∈ indices.map doc := List.mem_map_of_mem hi
    rw [htext, List.mem_singleton] at hdoc
    rw [hwant i hi, hdoc, hnone]
    rfl
  · intro i hi
    rw [List.map_map]
    exact List.mem_map.mpr ⟨i, hi, rfl⟩

/-- **The search settles every row of its ranges.** -/
theorem resolveLoop_spec (h : RowLocal executor ids) (hwant : ∀ i ∈ indices, want i = ids (doc i))
    (pending : List (ℕ × ℕ)) (st : σ) (output : Output) :
    Settles want (fun i => ∃ range ∈ pending, i ∈ slice indices range.1 range.2) output
      (resolveLoop executor indices (indices.map doc) pending st output).1 := by
  fun_induction resolveLoop executor indices (indices.map doc) pending st output with
  | case1 st output => exact Settles.refl (by simp)
  | case2 low high pending st output rows st' hcall ih =>
      have hhead : Settles want (· ∈ slice indices low high) output _ :=
        settleCall_settles h hwant (by rw [hcall])
      refine (hhead.trans ih).mono fun i hi => ?_
      simpa using hi
  | case3 low high pending st output error st' hcall hle ih =>
      -- a range of one row: the failed call was its own
      have herror : (executor.encodeBatch ((slice indices low high).map doc) st).1 = .error error := by
        rw [← slice_map, hcall]
      have hlow : high - low = 1 := by
        refine Nat.le_antisymm hle (Nat.pos_of_ne_zero fun hz => ?_)
        rw [slice, hz, List.take_zero] at herror
        cases herror
      have hpart : slice indices low (low + 1) = slice indices low high := by
        unfold slice
        rw [hlow, Nat.add_sub_cancel_left]
      have hpart' : (slice indices low high).length ≤ 1 := by
        unfold slice
        rw [List.length_take]
        omega
      have hhead : Settles want (· ∈ slice indices low high) output _ :=
        settleError_settles h (fun i hi => hwant i (mem_of_mem_slice hi)) hpart' herror
      rw [hpart] at ih ⊢
      refine (hhead.trans ih).mono fun i hi => ?_
      simpa using hi
  | case4 low high pending st output error st' hcall hgt middle ih =>
      refine ih.mono fun i hi => ?_
      simp only [List.mem_cons, exists_eq_or_imp] at hi ⊢
      rw [slice_split indices low middle high (by omega) (by omega), List.mem_append, or_assoc] at hi
      exact hi

/-- One chunk settles its rows. -/
theorem encodeChunk_settles (h : RowLocal executor ids) (hwant : ∀ i ∈ indices, want i = ids (doc i))
    (st : σ) (output : Output) :
    Settles want (· ∈ indices) output (encodeChunk executor doc indices st output).1 := by
  have hall : ∀ {α : Type} (items : List α), slice items 0 items.length = items := fun items => by
    rw [slice, List.drop_zero, Nat.sub_zero, List.take_length]
  unfold encodeChunk
  dsimp only
  rcases hcall : executor.encodeBatch (indices.map doc) st with ⟨result, st'⟩
  cases result with
  | ok rows =>
      have hrows : (executor.encodeBatch (slice (indices.map doc) 0 indices.length) st).1 = .ok rows := by
        rw [← List.length_map (f := doc), hall, hcall]
      refine (settleCall_settles h hwant hrows).mono fun i hi => ?_
      rwa [hall]
  | error error =>
      dsimp only
      unfold resolveFailedChunk
      rw [List.length_map]
      split_ifs with hlen
      · have hone : indices.take 1 = indices := List.take_of_length_le hlen
        rw [hone]
        exact settleError_settles h hwant hlen (by rw [hcall])
      · refine (resolveLoop_spec h hwant _ st' output).mono fun i hi => ?_
        have hsplit := slice_split indices 0 (indices.length / 2) indices.length (Nat.zero_le _) (Nat.div_le_self _ 2)
        rw [hall] at hsplit
        rw [hsplit, List.mem_append] at hi
        simpa using hi

end Search

/-- **The loop over the chunks settles every valid row.** -/
theorem chunkLoop_spec (limits : BatchLimits) {doc : ℕ → Text} {valid : List ℕ}
    (h : RowLocal executor ids) (hwant : ∀ i ∈ valid, want i = ids (doc i)) (cursor : ℕ) (st : σ)
    (output : Output) :
    Settles want (· ∈ valid.drop cursor) output
      (chunkLoop limits executor doc valid cursor st output).1 := by
  fun_induction chunkLoop limits executor doc valid cursor st output with
  | case1 cursor st output hcursor stop output' st' hchunk ih =>
      have hstop : cursor < stop := lt_chunkEnd limits doc valid hcursor
      have hhead : Settles want (· ∈ slice valid cursor stop) output _ :=
        encodeChunk_settles h (fun i hi => hwant i (mem_of_mem_slice hi)) st output
      rw [hchunk] at hhead
      refine (hhead.trans ih).mono fun i hi => ?_
      have hsplit : valid.drop cursor = slice valid cursor stop ++ valid.drop stop := by
        rw [slice, show valid.drop stop = (valid.drop cursor).drop (stop - cursor) by
          rw [List.drop_drop]; congr 1; omega, List.take_append_drop]
      rwa [hsplit, List.mem_append] at hi
  | case2 cursor st output hcursor =>
      refine Settles.refl fun i hi => ?_
      rw [List.drop_eq_nil_of_le (Nat.not_lt.mp hcursor)] at hi
      exact absurd hi List.not_mem_nil

/-! ## The batch -/

namespace NativePrebuiltGpu

variable {gpu : NativePrebuiltGpu σ} {limits : BatchLimits}

/-- What row `i` wants: the ids of its normalized text. -/
def wantRow (ids : Text → Option (List UInt32)) (normalized : List (Except NativeRuntimeError Text))
    (i : ℕ) : Option (List UInt32) :=
  (normalized[i]?.getD (.ok [])).toOption.bind ids

theorem wantRow_of_valid (normalized : List (Except NativeRuntimeError Text)) {i : ℕ}
    (hi : i ∈ validRows normalized) : wantRow ids normalized i = ids (docOf normalized i) := by
  obtain ⟨text, htext⟩ := Option.isSome_iff_exists.mp (List.mem_filter.mp hi).2
  rw [wantRow, docOf, htext]
  rfl

/-- Every row is settled: by its refusal, or by the loop. -/
theorem chunkLoop_done (limits : BatchLimits) (h : RowLocal executor ids)
    (normalized : List (Except NativeRuntimeError Text)) (st : σ) : Settles (wantRow ids normalized) (· < normalized.length) (normalized.map refusedRow)
      (chunkLoop limits executor (docOf normalized) (validRows normalized) 0 st
        (normalized.map refusedRow)).1 := by
  have hloop : Settles (wantRow ids normalized) _ _ _ := chunkLoop_spec limits h (fun _ => wantRow_of_valid normalized) 0 st
    (normalized.map refusedRow)
  refine ⟨hloop.length, hloop.keep, fun i hi hlt => ?_⟩
  have hget : normalized[i]? = some normalized[i] := List.getElem?_eq_getElem hi
  cases hin : normalized[i] with
  | error error =>
      rw [hin] at hget
      refine hloop.keep i ⟨.error error, ?_, ?_⟩
      · rw [List.getElem?_map, hget]
        rfl
      · unfold wantRow
        rw [hget]
        rfl
  | ok text =>
      rw [hin] at hget
      refine hloop.done i (List.mem_filter.mpr ⟨List.mem_range.mpr hi, ?_⟩) hlt
      rw [hget]
      rfl

/-- **Every row of a batch gets what it gets alone, in input order: its ids, or an error exactly
where it fails alone.** -/
theorem encodeBatchIds_isolated (h : RowLocal gpu.executor ids) (texts : List Text) (st st' : σ) :
    (gpu.encodeBatchIds limits texts st).1.map Except.toOption =
      texts.map fun text => (gpu.encodeIds text st').1.toOption := by
  have hdone := chunkLoop_done limits h (texts.map gpu.input) st
  have hlen := hdone.length
  rw [List.length_map, List.length_map] at hlen
  unfold encodeBatchIds
  dsimp only
  rw [List.map_map]
  refine List.ext_getElem (by rw [List.length_map, List.length_map]; exact hlen) fun i hi hi' => ?_
  rw [List.length_map] at hi'
  obtain ⟨row, hrow, hwanted⟩ := hdone.done i (by simpa using hi') (by simpa using hi')
  rw [List.getElem_map, List.getElem_map, (List.getElem?_eq_some_iff.mp hrow).2]
  refine hwanted.trans ?_
  rw [wantRow, List.getElem?_map, List.getElem?_eq_getElem hi', encodeIds]
  cases hin : gpu.input texts[i] with
  | error error =>
      rw [Option.map_some, hin]
      rfl
  | ok text =>
      rw [Option.map_some, hin]
      exact (h.encode text st').symm

/-- A device on which a document with a `!` faults. -/
def marksIds (text : Text) : Option (List UInt32) :=
  if '!' ∈ text ∨ I32_MAX ≤ utf8Len text then none else some (text.map fun c => UInt32.ofNat c.toNat)

def marksExecutor : Executor Unit where
  encodeInWorkspace text st := ((marksIds text).elim (.error ⟨"fault"⟩) .ok, st)
  launchBatch docs st :=
    (if docs.all fun text => (marksIds text).isSome then
      .ok (docs.map fun text => (marksIds text).getD []) else .error ⟨"fault"⟩, st)

theorem marksExecutor_rowLocal : RowLocal marksExecutor marksIds where
  encode text st := by
    unfold Executor.encode
    split_ifs with hempty hlong
    · obtain rfl := List.isEmpty_iff.mp hempty
      rfl
    · rw [marksIds, if_pos (Or.inr hlong)]
      rfl
    · unfold marksExecutor
      dsimp only
      cases marksIds text with
      | none => rfl
      | some row => rfl
  launchBatch docs st rows h := by
    unfold marksExecutor at h
    dsimp only at h
    split_ifs at h with hall
    · cases h
      rw [List.map_map]
      refine List.map_congr_left fun text htext => ?_
      obtain ⟨row, hrow⟩ := Option.isSome_iff_exists.mp (List.all_eq_true.mp hall text htext)
      rw [Function.comp_apply, hrow]
      rfl

theorem encodeBatchIds_isolated_marks :
    ((⟨false, .ok, marksExecutor⟩ : NativePrebuiltGpu Unit).encodeBatchIds ⟨3, 100, by decide⟩
        (["a", "!", "", "b", "c!"].map String.toList) ()).1.map Except.toOption =
      (["a", "!", "", "b", "c!"].map String.toList).map fun text =>
        ((⟨false, .ok, marksExecutor⟩ : NativePrebuiltGpu Unit).encodeIds text ()).1.toOption :=
  encodeBatchIds_isolated marksExecutor_rowLocal _ () ()

end NativePrebuiltGpu

end Toktier.Routing
