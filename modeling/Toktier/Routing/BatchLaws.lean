import Mathlib.Algebra.BigOperators.Group.List.Basic
import Mathlib.Data.List.Nodup
import Toktier.Routing.RouterLaws

/-!
# A batch is its rows

A batch groups its rows by backend, stage by stage, and merges the results back by position.
Each row takes the route it takes alone, so a batch returns what its rows return, counts what
they count together and opens the GPU engine when one of them does. A batch of the corrected CPU
engine is the exception: one row it fails on sends all of them to the next backend, which is the
reference engine unless the chain has the GPU engine there.

## Main definitions

* `RowWise`: a batch of pure calls is its rows.
* `Tried`: a row and what was counted for it.
* `RowByRow`: the outcome of a batch, in terms of its rows alone.

## Main results

* `encodeBatchIdsWithSource_spec`: the batch of the corrected CPU engine.
* `stage_spec`: one stage.
* `encodeBatchIds_rowByRow`: the batch of the router.
* `poisoned_batch`: without usable locks the two differ.
-/
namespace Toktier.Routing

open Toktier.Lib Toktier.StoreCore Toktier.Chunked

variable {W : Type}

/-! ## Batches of pure calls -/

section
variable {ε α β : Type} {f : α → Except ε β} {xs ys : List α}

/-- A batch returns what its rows return, and fails only if one of them does. -/
def RowWise (f : α → Except ε β) (xs : List α) : Except ε (List β) → Prop
  | .ok bs => List.Forall₂ (fun x b => f x = .ok b) xs bs
  | .error _ => ∃ x ∈ xs, ∃ e, f x = .error e

theorem RowWise.append {x y : Except ε (List β)} (hx : RowWise f xs x) (hy : RowWise f ys y) :
    RowWise f (xs ++ ys) (do let bs ← x; let cs ← y; return bs ++ cs) := by
  cases x with
  | error e =>
      obtain ⟨a, ha, e', he⟩ := hx
      exact ⟨a, List.mem_append_left _ ha, e', he⟩
  | ok bs =>
      cases y with
      | error e =>
          obtain ⟨a, ha, e', he⟩ := hy
          exact ⟨a, List.mem_append_right _ ha, e', he⟩
      | ok cs => exact List.rel_append hx hy

/-- The rows of a batch, read off one by one. -/
theorem eq_map_of_forall₂ {bs : List β} (d : β) (h : List.Forall₂ (fun x b => f x = .ok b) xs bs) :
    bs = xs.map fun x => (f x).toOption.getD d := by
  induction h with
  | nil => rfl
  | cons hx _ ih => rw [List.map_cons, hx, ← ih]; rfl

end

/-! ## The batch of the corrected CPU engine -/

section
variable {α : Type} {size : ℕ}

theorem flatten_parChunks (hsize : 0 < size) (xs : List α) : (parChunks size xs).flatten = xs := by
  have hpre : ∀ n, ((List.range n).map fun i => (xs.drop (i * size)).take size).flatten =
      xs.take (n * size) := by
    intro n
    induction n with
    | zero => simp
    | succ n ih =>
        rw [List.range_succ, List.map_append, List.flatten_append, ih, Nat.succ_mul, List.take_add]
        simp
  rw [parChunks, hpre, List.take_of_length_le]
  have hdiv := Nat.div_add_mod (xs.length + size - 1) size
  have hmod := Nat.mod_lt (xs.length + size - 1) hsize
  rw [Nat.mul_comm] at hdiv
  omega

/-- There are no more chunks than workers. -/
theorem length_parChunks_le {workers : ℕ} (hworkers : 0 < workers) {xs : List α} (hxs : xs ≠ []) :
    0 < (xs.length + workers - 1) / workers ∧
      (parChunks ((xs.length + workers - 1) / workers) xs).length ≤ workers := by
  have hlen := List.length_pos_iff.mpr hxs
  have hdiv := Nat.div_add_mod (xs.length + workers - 1) workers
  have hmod := Nat.mod_lt (xs.length + workers - 1) hworkers
  generalize hs : (xs.length + workers - 1) / workers = size at *
  have hsize : 0 < size := by
    rw [← hs]
    exact Nat.div_pos (by omega) hworkers
  refine ⟨hsize, ?_⟩
  rw [parChunks, List.length_map, List.length_range, ← Nat.lt_succ_iff, Nat.div_lt_iff_lt_mul hsize,
    Nat.succ_mul]
  omega

end

section
variable {fast : CorrectedCpu W}
  {full : Text → Except EngineError (List UInt32 × FastEncodeSource)} {cpu : CpuState W}

/-- The gate fails only where the reference engine does. -/
theorem CorrectedCpu.Answers.reference_fails (hfull : fast.Answers full) (worker : W) {text : Text}
    {e : EngineError} (h : full text = .error e) : fast.reference.encodeIds text false = .error e := by
  have hmap : ∀ (x : Except EngineError (List UInt32)) (source : FastEncodeSource),
      (x.map fun ids => (ids, source)) = .error e → x = .error e := by
    rintro (e' | ids) source hx
    · cases hx
      rfl
    · cases hx
  rw [← hfull text worker] at h
  unfold fullIdsWithSource at h
  split_ifs at h with hevery
  · exact hmap _ _ h
  · unfold candidateReference IdReference.encodeIdsWithAddedFlag at h
    split at h
    · rename_i hcandidate
      cases h
      split_ifs at hcandidate
      cases hids : fast.reference.encodeIds text false with
      | error e' =>
          rw [hids] at hcandidate
          cases hcandidate
          rfl
      | ok ids =>
          rw [hids] at hcandidate
          cases hcandidate
    · cases h
    · split at h
      · cases h
      · split at h
        · cases h
        · exact hmap _ _ h

theorem encodeChunk_spec (hfull : fast.Answers full) (worker : W) (texts : List Text) :
    RowWise full texts (fast.encodeChunk worker texts).1 := by
  induction texts generalizing worker with
  | nil => exact .nil
  | cons text texts ih =>
      have hrow := hfull text worker
      have ih := ih (fast.fullIdsWithSource text worker).2
      unfold CorrectedCpu.encodeChunk
      revert hrow ih
      match fast.fullIdsWithSource text worker with
      | (.error e, worker) =>
          intro hrow _
          exact ⟨text, List.mem_cons_self, e, hrow.symm⟩
      | (.ok row, worker) =>
          intro hrow ih
          dsimp only at ih ⊢
          revert ih
          match fast.encodeChunk worker texts with
          | (.error e, worker) =>
              rintro ⟨t, ht, e', he⟩
              exact ⟨t, List.mem_cons_of_mem _ ht, e', he⟩
          | (.ok rows, worker) =>
              intro ih
              exact .cons hrow.symm ih

/-- The chunks of a batch, each on a worker of its own. -/
theorem encodeChunks_spec (hfull : fast.Answers full) {workers : List (Mutex W)}
    (hworkers : ∀ mutex ∈ workers, mutex.poisoned = false) (chunks : List (List Text))
    (hlen : chunks.length ≤ workers.length) :
    (∃ rows, (fast.encodeChunks workers chunks).1 = checked rows ∧ RowWise full chunks.flatten rows) ∧
      ∀ mutex ∈ (fast.encodeChunks workers chunks).2, mutex.poisoned = false := by
  induction chunks generalizing workers with
  | nil =>
      rw [CorrectedCpu.encodeChunks]
      exact ⟨⟨.ok [], rfl, .nil⟩, hworkers⟩
  | cons chunk chunks ih =>
      obtain ⟨mutex, workers, rfl⟩ := List.exists_cons_of_length_pos (l := workers)
        (by rw [List.length_cons] at hlen; omega)
      have hothers : ∀ mutex ∈ workers, mutex.poisoned = false := fun mutex hm =>
        hworkers mutex (by simp [hm])
      obtain ⟨⟨rest, hrest, hrows⟩, hused⟩ := ih hothers (by simpa using hlen)
      have hlock : mutex.lock "Gigatoken worker mutex is poisoned" = .ok mutex.value :=
        if_neg (by rw [hworkers mutex (by simp)]; decide)
      have hchunk := encodeChunk_spec hfull mutex.value chunk
      rw [CorrectedCpu.encodeChunks, hlock]
      dsimp only
      refine ⟨⟨_, ?_, hchunk.append hrows⟩, ?_⟩
      · rw [hrest, checked_bind]
        refine congrArg _ (funext fun rows => ?_)
        rw [checked_bind]
        rfl
      · intro mutex' hm
        rcases List.mem_cons.mp hm with rfl | hm
        · rfl
        · exact hused mutex' hm

/-- The workers of a batch. -/
theorem batchWorkers_spec (hcpu : cpu.Healthy) {threads documents totalBytes : ℕ}
    (hdocuments : 0 < documents) {R : Fault EngineError → CpuState W → Prop} :
    wp (fast.batchWorkers threads documents totalBytes) (fun workers cpu' => 0 < workers.length ∧
      (∀ mutex ∈ workers, mutex.poisoned = false) ∧ cpu'.Healthy) R cpu := by
  have hlock : ∀ message, cpu.primary.lock message = .ok cpu.primary.value := fun message =>
    if_neg (by rw [hcpu.primary]; decide)
  unfold CorrectedCpu.batchWorkers
  dsimp only
  generalize hrequired : min (min (max 1 threads) documents) (max 1
    ((totalBytes + MIN_BYTES_PER_WORKER - 1) / MIN_BYTES_PER_WORKER)) = required
  have hpos : 0 < required := by omega
  simp only [wp_bind, wp_get, wp_throwIf, hcpu.pool, Bool.false_eq_true, not_false_eq_true,
    false_implies, true_and, true_implies]
  split_ifs with hle
  · rw [wp_pure, List.length_take]
    exact ⟨by omega, fun mutex hm => hcpu.workers mutex (List.mem_of_mem_take hm), hcpu⟩
  · rw [wp_bind, hlock, checked_ok, wp_fromExcept]
    refine ⟨?_, fun e he => by cases he⟩
    rintro worker hworker
    have hall : ∀ mutex ∈ cpu.workers ++ List.replicate (required - cpu.workers.length)
        (⟨fast.fork worker, false⟩ : Mutex W), mutex.poisoned = false := by
      intro mutex hm
      rcases List.mem_append.mp hm with hm | hm
      · exact hcpu.workers mutex hm
      · rw [List.eq_of_mem_replicate hm]
    rw [wp_bind, wp_set, wp_pure, List.length_take, List.length_append, List.length_replicate]
    exact ⟨by omega, fun mutex hm => hall mutex (List.mem_of_mem_take hm), hcpu.primary, rfl, hall⟩

/-- A batch of the engine is its rows. -/
theorem encodeBatchIdsWithSource_spec (hfull : fast.Answers full) (hcpu : cpu.Healthy) (threads : ℕ)
    (texts : List Text) :
    wp (fast.encodeBatchIdsWithSource threads texts)
      (fun rows cpu' => RowWise full texts (.ok rows) ∧ cpu'.Healthy)
      (fun f cpu' => ∃ e, f = .Reject e ∧ RowWise full texts (.error e) ∧ cpu'.Healthy) cpu := by
  unfold CorrectedCpu.encodeBatchIdsWithSource
  split_ifs with hnil
  · subst hnil
    exact ⟨.nil, hcpu⟩
  · rw [wp_bind]
    refine wp_mono (batchWorkers_spec hcpu (List.length_pos_iff.mpr hnil)) ?_ fun _ _ h => h
    rintro workers cpu' ⟨hpos, hworkers, hcpu'⟩
    obtain ⟨hsize, hlen⟩ := length_parChunks_le hpos hnil
    obtain ⟨⟨rows, hrows, hwise⟩, hused⟩ := encodeChunks_spec hfull hworkers
      (parChunks ((texts.length + workers.length - 1) / workers.length) texts) hlen
    rw [flatten_parChunks hsize] at hwise
    have hafter : ({ cpu' with workers :=
        (fast.encodeChunks workers (parChunks ((texts.length + workers.length - 1) / workers.length)
          texts)).2 ++ cpu'.workers.drop workers.length } : CpuState W).Healthy := by
      refine ⟨hcpu'.primary, hcpu'.pool, fun mutex hm => ?_⟩
      rcases List.mem_append.mp hm with hm | hm
      · exact hused mutex hm
      · exact hcpu'.workers mutex (List.mem_of_mem_drop hm)
    dsimp only
    rw [wp_bind, wp_modify, wp_fromExcept, hrows]
    refine ⟨fun out hout => ?_, fun f hf => ?_⟩
    · rw [checked_eq_ok] at hout
      rw [hout] at hwise
      exact ⟨hwise, hafter⟩
    · cases rows with
      | ok rows => cases hf
      | error e =>
          cases hf
          exact ⟨e, rfl, hwise, hafter⟩

end

/-! ## Rows on their way -/

namespace NativeRouter

/-- A row, the codes counted for it, and whether the GPU engine was asked for it. -/
structure Tried where
  row : Row
  codes : List String
  opened : Bool

variable (router : NativeRouter W) (engines : Engines)

/-- Before a stage the row is on the route of its text: it has its result, or it waits for this
stage or a later one. -/
def OnRoute (stage : ℕ) (tried : Tried) : Prop :=
  tried.row.start = router.startIndex (utf8Len tried.row.text) ∧
    match tried.row.output with
    | some routed => router.row engines tried.row.text = .ok ⟨routed, tried.codes, tried.opened⟩
    | none => stage ≤ tried.row.next ∧ tried.row.next < router.chain.length ∧
        router.row engines tried.row.text =
          (router.rowFrom engines tried.row.text (router.backendsFrom tried.row.next)
            tried.row.reason).map fun trace =>
              ⟨trace.routed, tried.codes ++ trace.codes, tried.opened || trace.opened⟩

/-- The row behind a stage it waited for. -/
def rowAfter (index : ℕ) (row : Row) : Row :=
  match router.rowStep engines row.text index row.reason with
  | .Served routed _ => { row with reason := routed.reason, output := some routed }
  | .Passed => row.pass
  | .Failed _ => row

/-- What is counted for it. -/
def rowCodes (index : ℕ) (row : Row) : List String :=
  match router.rowStep engines row.text index row.reason with
  | .Served _ codes => codes
  | .Passed => [R_EXEC_FAULT]
  | .Failed _ => []

/-- A row behind a stage. -/
def advance (index : ℕ) (tried : Tried) : Tried :=
  if tried.row.waitsAt index = true then
    ⟨router.rowAfter engines index tried.row, tried.codes ++ router.rowCodes engines index tried.row,
      tried.opened || decide (router.chain[index]? = some .Gpu)⟩
  else tried

variable {router engines} {st : RouterState W} {text : Text}

theorem waitsAt_iff {row : Row} {index : ℕ} :
    row.waitsAt index = true ↔ row.output = none ∧ row.next = index := by
  simp [Row.waitsAt]

theorem backendsFrom_cons {index : ℕ} (h : index < router.chain.length) :
    router.backendsFrom index = index :: router.backendsFrom (index + 1) := by
  unfold backendsFrom
  obtain ⟨n, hn⟩ : ∃ n, router.chain.length - index = n + 1 := ⟨router.chain.length - index - 1, by omega⟩
  rw [hn, List.range'_succ, show router.chain.length - (index + 1) = n by omega]

/-- The reference engine passes no text on. -/
theorem ne_reference_of_passed {index : ℕ} {reason : Option String} {backend : BackendKind}
    (hbackend : router.chain[index]? = some backend)
    (h : router.rowStep engines text index reason = .Passed) : backend ≠ .Reference := by
  rintro rfl
  rw [rowStep, hbackend] at h
  dsimp only at h
  split at h <;> cases h

/-- A stage moves its rows along their routes. -/
theorem OnRoute.advance {index : ℕ} {tried : Tried} (h : router.OnRoute engines index tried)
    (hfailed : tried.row.waitsAt index = true → ∀ e,
      router.rowStep engines tried.row.text index tried.row.reason ≠ .Failed e) :
    router.OnRoute engines (index + 1) (router.advance engines index tried) := by
  obtain ⟨hstart, hroute⟩ := h
  unfold NativeRouter.advance
  split_ifs with hwaits
  · obtain ⟨hnone, hnext⟩ := waitsAt_iff.mp hwaits
    rw [hnone] at hroute
    obtain ⟨-, hlt, hroute⟩ := hroute
    rw [hnext] at hlt hroute
    rw [backendsFrom_cons hlt, rowFrom] at hroute
    unfold OnRoute rowAfter rowCodes
    cases hstep : router.rowStep engines tried.row.text index tried.row.reason with
    | Served routed codes =>
        rw [hstep] at hroute
        exact ⟨hstart, hroute⟩
    | Passed =>
        obtain ⟨backend, hbackend⟩ := router.exists_backend hlt
        have hbehind := router.lt_of_ne_reference hbackend (ne_reference_of_passed hbackend hstep)
        rw [hstep] at hroute
        dsimp only [Row.pass] at hroute ⊢
        rw [hnone, hnext]
        refine ⟨hstart, le_rfl, hbehind, hroute.trans ?_⟩
        cases router.rowFrom engines tried.row.text (router.backendsFrom (index + 1))
            (some R_EXEC_FAULT) with
        | error e => rfl
        | ok trace => simp [Except.map, Bool.or_assoc]
    | Failed e => exact absurd hstep (hfailed hwaits e)
  · refine ⟨hstart, ?_⟩
    cases houtput : tried.row.output with
    | some routed =>
        rw [houtput] at hroute
        exact hroute
    | none =>
        rw [houtput] at hroute
        obtain ⟨hle, hroute⟩ := hroute
        refine ⟨?_, hroute⟩
        have hne : tried.row.next ≠ index := fun heq => hwaits (waitsAt_iff.mpr ⟨houtput, heq⟩)
        show index + 1 ≤ tried.row.next
        omega

/-- Behind the last stage every row has its result. -/
theorem OnRoute.closed {tried : Tried} (h : router.OnRoute engines router.chain.length tried) :
    ∃ routed, tried.row.output = some routed ∧
      router.row engines tried.row.text = .ok ⟨routed, tried.codes, tried.opened⟩ := by
  obtain ⟨-, hroute⟩ := h
  cases houtput : tried.row.output with
  | some routed =>
      rw [houtput] at hroute
      exact ⟨routed, rfl, hroute⟩
  | none =>
      rw [houtput] at hroute
      have hle := hroute.1
      have hlt := hroute.2.1
      omega

/-! ## The rows of a batch -/

section
variable {R : Fault EngineError → RouterState W → Prop}

/-- What is known of a row before the rows are grouped. -/
theorem openRow_spec (hcpu : st.cpu.Healthy) (text : Text)
    (hR : ∀ e st', router.row engines text = .error e → R (.Reject e) st') :
    wp (router.openRow text) (fun row st' => ∃ codes, row.text = text ∧
      router.OnRoute engines 0 ⟨row, codes, false⟩ ∧ Progress st codes false st') R st := by
  have hstart := router.startIndex_lt (utf8Len text)
  unfold row addedOf at hR
  unfold openRow OnRoute row addedOf
  dsimp only at hR ⊢
  rw [wp_bind]
  refine wp_belowGpuThresholdEvent hcpu hstart fun st₁ h₁ => ?_
  obtain ⟨first, hfirst⟩ := router.exists_backend hstart
  rw [wp_bind, getAt_of_some hfirst, wp_fromExcept]
  refine ⟨?_, fun e he => by cases he⟩
  rintro _ ⟨⟩
  by_cases href : first = .Reference
  · have hnone : router.chain[router.startIndex (utf8Len text)]? = some .Reference := by rw [hfirst, href]
    rw [if_pos href, wp_bind, wp_pure, wp_pure]
    refine ⟨_, rfl, ⟨rfl, Nat.zero_le _, hstart, ?_⟩, h₁⟩
    rw [if_pos hnone]
    simp
  · have hsome : ¬router.chain[router.startIndex (utf8Len text)]? = some .Reference := by
      rw [hfirst]
      exact fun h => href (Option.some.inj h)
    rw [if_neg hsome] at hR
    rw [if_neg href, wp_bind, raise, wp_fromExcept]
    refine ⟨fun added hadded => ?_, fun f hf => ?_⟩
    · rw [checked_eq_ok] at hadded
      cases added with
      | none =>
          rw [wp_pure]
          refine ⟨_, rfl, ⟨rfl, Nat.zero_le _, hstart, ?_⟩, h₁⟩
          rw [if_neg hsome, hadded]
          simp
      | some ids =>
          dsimp only
          rw [wp_bind]
          refine wp_recordEvent h₁.healthy fun st₂ h₂ => ?_
          rw [wp_pure]
          refine ⟨_, rfl, ⟨rfl, ?_⟩, by simpa using h₁.trans h₂⟩
          dsimp only
          rw [if_neg hsome, hadded]
    · cases hadded : router.exactAddedReferenceIds text with
      | ok added =>
          rw [hadded] at hf
          cases hf
      | error e =>
          rw [hadded] at hf hR
          cases hf
          exact hR e _ rfl

/-- The batch is at a stage, all of its rows on their routes. -/
def AtStage (router : NativeRouter W) (engines : Engines) (st : RouterState W) (texts : List Text)
    (stage : ℕ) (rows : List Row) (st' : RouterState W) : Prop :=
  ∃ tried : List Tried, rows = tried.map Tried.row ∧ texts = tried.map (·.row.text) ∧
    (∀ one ∈ tried, router.OnRoute engines stage one) ∧
    ∃ codes, codes.Perm (tried.flatMap Tried.codes) ∧
      Progress st codes (tried.any Tried.opened) st'

theorem openRows_spec (hcpu : st.cpu.Healthy) (texts : List Text)
    (hR : ∀ text ∈ texts, ∀ e st', router.row engines text = .error e → R (.Reject e) st') :
    wp (texts.mapM router.openRow) (router.AtStage engines st texts 0) R st := by
  induction texts generalizing st with
  | nil => exact ⟨[], rfl, rfl, by simp, [], .nil, Progress.refl hcpu⟩
  | cons text texts ih =>
      rw [List.mapM_cons, wp_bind]
      refine wp_mono (openRow_spec hcpu text (hR text (by simp))) ?_ fun _ _ h => h
      rintro row st₁ ⟨codes, rfl, hon, h₁⟩
      rw [wp_bind]
      refine wp_mono (ih h₁.healthy fun text ht => hR text (by simp [ht])) ?_ fun _ _ h => h
      rintro _ st₂ ⟨tried, rfl, rfl, hall, codes', hperm, h₂⟩
      rw [wp_pure]
      refine ⟨⟨row, codes, false⟩ :: tried, rfl, rfl, ?_, codes ++ codes', ?_, ?_⟩
      · intro one hone
        rcases List.mem_cons.mp hone with rfl | hone
        · exact hon
        · exact hall one hone
      · rw [List.flatMap_cons]
        exact hperm.append_left codes
      · rw [List.any_cons]
        exact h₁.trans h₂

/-- The rows that waited get their results, in order; the others are as they were. -/
theorem wp_deliver {α : Type} {stage : ℕ} {settle : Row → α → Request W Row} (result : Row → α)
    (after : Row → Row) (codes : Row → List String) (rows : List Row)
    (hsettle : ∀ row ∈ rows, row.waitsAt stage = true → ∀ st : RouterState W, st.cpu.Healthy →
      wp (settle row (result row)) (fun row' st' => row' = after row ∧
        Progress st (codes row) false st') R st)
    (hcpu : st.cpu.Healthy) :
    wp (deliver stage settle rows ((rows.filter (·.waitsAt stage)).map result))
      (fun rows' st' => rows' = rows.map (fun row => if row.waitsAt stage = true then after row else row) ∧
        Progress st (rows.flatMap fun row => if row.waitsAt stage = true then codes row else []) false st')
      R st := by
  induction rows generalizing st with
  | nil => exact ⟨rfl, Progress.refl hcpu⟩
  | cons row rows ih =>
      have hrest : ∀ row' ∈ rows, row'.waitsAt stage = true → ∀ st : RouterState W, st.cpu.Healthy →
          wp (settle row' (result row')) (fun row'' st' => row'' = after row' ∧
            Progress st (codes row') false st') R st := fun row' hrow' => hsettle row' (by simp [hrow'])
      by_cases hwaits : row.waitsAt stage = true
      · rw [List.filter_cons_of_pos (p := fun row : Row => row.waitsAt stage) hwaits, List.map_cons, deliver,
          if_pos hwaits, wp_bind]
        refine wp_mono (hsettle row (by simp) hwaits st hcpu) ?_ fun _ _ h => h
        rintro _ st₁ ⟨rfl, h₁⟩
        rw [wp_bind]
        refine wp_mono (ih hrest h₁.healthy) ?_ fun _ _ h => h
        rintro _ st₂ ⟨rfl, h₂⟩
        rw [wp_pure, List.map_cons, if_pos hwaits, List.flatMap_cons, if_pos hwaits]
        exact ⟨rfl, h₁.trans h₂⟩
      · rw [List.filter_cons_of_neg (p := fun row : Row => row.waitsAt stage) hwaits, deliver.eq_def]
        dsimp only
        rw [if_neg hwaits, wp_bind]
        refine wp_mono (ih hrest hcpu) ?_ fun _ _ h => h
        rintro _ st₂ ⟨rfl, h₂⟩
        rw [wp_pure, List.map_cons, if_neg hwaits, List.flatMap_cons, if_neg hwaits]
        exact ⟨rfl, h₂⟩

end

/-! ## One stage -/

/-- The batch calls of the engines are their rows. -/
structure Batches (router : NativeRouter W) (engines : Engines) : Prop where
  answers : router.Answering engines
  gpu : ∀ gpu, engines.gpu = .ok gpu → ∀ texts, gpu.encodeBatchIds texts = texts.map gpu.encodeIds
  reference : ∀ texts special, RowWise (fun text => router.reference.encodeIds text special) texts
    (router.reference.encodeBatchIds texts special)

/-- Behind the stage its rows are further on their routes. -/
structure Moved (router : NativeRouter W) (engines : Engines) (index : ℕ) (rows : List Row)
    (st : RouterState W) (rows' : List Row) (st' : RouterState W) : Prop where
  behind : rows' = rows.map fun row =>
    if row.waitsAt index = true then router.rowAfter engines index row else row
  step : ∀ row ∈ rows, row.waitsAt index = true → ∀ e,
    router.rowStep engines row.text index row.reason ≠ .Failed e
  progress : Progress st
    (rows.flatMap fun row => if row.waitsAt index = true then router.rowCodes engines index row else [])
    (rows.any (·.waitsAt index) && decide (router.chain[index]? = some .Gpu)) st'

/-- The corrected CPU engine failed on a row, and all rows go on. -/
structure Diverted (router : NativeRouter W) (engines : Engines) (index : ℕ) (rows rows' : List Row)
    (st' : RouterState W) : Prop where
  backend : router.chain[index]? = some .FastCpu
  fails : ∃ row ∈ rows, row.waitsAt index = true ∧ ∃ e, engines.full row.text = .error e
  behind : rows' = rows.map fun row => if row.waitsAt index = true then row.pass else row
  sees : Sees router engines st'

section
variable {R : Fault EngineError → RouterState W → Prop} {index : ℕ} {rows : List Row}

/-- The results of a stage that serves or passes each of its rows. -/
theorem deliver_moved {α : Type} {settle : Row → α → Request W Row} (result : Row → α) {st₁ : RouterState W}
    (hmany : (rows.filter (·.waitsAt index)).map Row.text ≠ [])
    (hstep : ∀ row ∈ rows, row.waitsAt index = true → ∀ e,
      router.rowStep engines row.text index row.reason ≠ .Failed e)
    (hsettle : ∀ row ∈ rows, row.waitsAt index = true → ∀ st : RouterState W, st.cpu.Healthy →
      wp (settle row (result row)) (fun row' st' => row' = router.rowAfter engines index row ∧
        Progress st (router.rowCodes engines index row) false st') R st)
    (h₁ : Progress st [] (decide (router.chain[index]? = some .Gpu)) st₁) :
    wp (deliver index settle rows ((rows.filter (·.waitsAt index)).map result))
      (router.Moved engines index rows st) R st₁ := by
  refine wp_mono (wp_deliver result (router.rowAfter engines index) (router.rowCodes engines index) rows
    hsettle h₁.healthy) ?_ fun _ _ h => h
  rintro rows' st₂ ⟨hrows, h₂⟩
  have hany : rows.any (·.waitsAt index) = true := by
    rw [List.any_eq_true]
    have hne : rows.filter (·.waitsAt index) ≠ [] := fun h => hmany (by rw [h]; rfl)
    obtain ⟨row, hrow⟩ := List.exists_mem_of_ne_nil _ hne
    exact ⟨row, List.mem_of_mem_filter hrow, (List.mem_filter.mp hrow).2⟩
  refine ⟨hrows, hstep, ?_⟩
  rw [hany, Bool.true_and]
  simpa using h₁.trans h₂

/-- A row that is passed on with its fault counted. -/
theorem wp_settle_passed {row : Row} {name : String} {detail : List (String × Json)} {st : RouterState W}
    (hlt : index + 1 < router.chain.length)
    (hstep : router.rowStep engines row.text index row.reason = .Passed) (hcpu : st.cpu.Healthy) :
    wp (do
        router.faultEvent name index detail
        return row.pass)
      (fun row' st' => row' = router.rowAfter engines index row ∧
        Progress st (router.rowCodes engines index row) false st') R st := by
  rw [wp_bind]
  refine wp_faultEvent hcpu hlt fun st' h' => ?_
  rw [wp_pure, rowAfter, rowCodes, hstep]
  exact ⟨rfl, h'⟩

/-- What the CPU engine made of a row. -/
theorem wp_settleFast {row : Row} {result : List UInt32 × FastEncodeSource} {st : RouterState W}
    (hbackend : router.chain[index]? = some .FastCpu) (hfull : engines.full row.text = .ok result)
    (hcpu : st.cpu.Healthy) :
    wp (router.settleFast row result) (fun row' st' => row' = router.rowAfter engines index row ∧
      Progress st (router.rowCodes engines index row) false st') R st := by
  have hstep : router.rowStep engines row.text index row.reason = fastStep row.reason (.ok result) := by
    rw [rowStep, hbackend, ← hfull]
  unfold rowAfter rowCodes
  rw [hstep]
  obtain ⟨ids, source⟩ := result
  unfold settleFast
  cases source with
  | Gigatoken => exact ⟨rfl, Progress.refl hcpu⟩
  | ReferenceAddedToken =>
      dsimp only [fastCpuReferencePath]
      rw [wp_bind, wp_bind]
      exact wp_recordEvent hcpu fun st' h' => ⟨rfl, h'⟩
  | ReferenceEngineGuard =>
      dsimp only [fastCpuReferencePath]
      rw [wp_bind, wp_bind]
      exact wp_recordEvent hcpu fun st' h' => ⟨rfl, h'⟩

/-- One stage of a batch. -/
theorem stage_spec (hb : Batches router engines) (hs : Sees router engines st)
    (hindex : index < router.chain.length) :
    wp (router.stage rows index)
      (fun rows' st' => router.Moved engines index rows st rows' st' ∨
        router.Diverted engines index rows rows' st')
      (fun f _ => f ≠ .Panic ∧ ∃ row ∈ rows, row.waitsAt index = true ∧
        ∃ e, router.rowStep engines row.text index row.reason = .Failed e) st := by
  obtain ⟨backend, hbackend⟩ := router.exists_backend hindex
  unfold stage
  dsimp only
  split_ifs with hnone
  · -- no row waits for this stage
    rw [List.map_eq_nil_iff, List.filter_eq_nil_iff] at hnone
    rw [wp_pure]
    refine .inl ⟨?_, fun row hrow hwaits => absurd hwaits (hnone row hrow), ?_⟩
    · conv_lhs => rw [← List.map_id rows]
      exact List.map_congr_left fun row hrow => (if_neg (hnone row hrow)).symm
    · have hcodes : (rows.flatMap fun row => if row.waitsAt index = true
          then router.rowCodes engines index row else []) = [] := by
        rw [List.flatMap_eq_nil_iff]
        exact fun row hrow => if_neg (hnone row hrow)
      have hany : rows.any (·.waitsAt index) = false := by
        rw [List.any_eq_false]
        exact fun row hrow => hnone row hrow
      rw [hcodes, hany]
      exact Progress.refl hs.cpu
  · have hwaiting : ∀ row, row ∈ rows.filter (·.waitsAt index) ↔ row ∈ rows ∧ row.waitsAt index = true :=
      fun row => List.mem_filter
    rw [getAt_of_some hbackend, wp_bind, wp_fromExcept]
    refine ⟨?_, fun e he => by cases he⟩
    rintro _ ⟨⟩
    cases backend with
    | Gpu =>
        have hlt := router.lt_of_ne_reference hbackend (by decide)
        have hgpu : decide (router.chain[index]? = some .Gpu) = true := by rw [hbackend]; rfl
        dsimp only
        rw [wp_bind]
        refine wp_gpuEngine hs (mem_chain hbackend) fun st₁ h₁ => ?_
        rw [← hgpu] at h₁
        cases hengine : engines.gpu with
        | error error =>
            have hpassed : ∀ row : Row, router.rowStep engines row.text index row.reason = .Passed := by
              intro row
              rw [rowStep, hbackend]
              dsimp only
              rw [hengine]
            refine wp_mono (deliver_moved Row.text hnone ?_ ?_ h₁) (fun _ _ h => .inl h) fun _ _ h => h
            · intro row _ _ e he
              rw [hpassed row] at he
              cases he
            · exact fun row _ _ st hst => wp_settle_passed hlt (hpassed row) hst
        | ok gpu =>
            have hserved : ∀ (row : Row) (ids : List UInt32), gpu.encodeIds row.text = .ok ids →
                router.rowStep engines row.text index row.reason =
                  .Served ⟨ids, BACKEND_GPU, some gpu.delivery, some "gpu_full", row.reason⟩ [] := by
              intro row ids hids
              simp only [rowStep, hbackend, hengine, hids]
            have hpassed : ∀ (row : Row) (e : NativeRuntimeError), gpu.encodeIds row.text = .error e →
                router.rowStep engines row.text index row.reason = .Passed := by
              intro row e hids
              simp only [rowStep, hbackend, hengine, hids]
            dsimp only
            rw [hb.gpu gpu hengine, List.length_map, if_neg (not_not.mpr rfl), List.map_map]
            refine wp_mono (deliver_moved (gpu.encodeIds ∘ Row.text) hnone ?_ ?_ h₁) (fun _ _ h => .inl h)
              fun _ _ h => h
            · intro row _ _ e he
              cases hids : gpu.encodeIds row.text with
              | ok ids =>
                  rw [hserved row ids hids] at he
                  cases he
              | error error =>
                  rw [hpassed row error hids] at he
                  cases he
            · intro row _ _ st hst
              unfold settleGpu
              dsimp only [Function.comp_apply]
              cases hids : gpu.encodeIds row.text with
              | ok ids =>
                  rw [wp_pure, rowAfter, rowCodes, hserved row ids hids]
                  exact ⟨rfl, Progress.refl hst⟩
              | error error => exact wp_settle_passed hlt (hpassed row error hids) hst
    | FastCpu =>
        have hlt := router.lt_of_ne_reference hbackend (by decide)
        have hgpu : decide (router.chain[index]? = some .Gpu) = false := by rw [hbackend]; rfl
        obtain ⟨fast, hfast⟩ := Option.isSome_iff_exists.mp (router.fastCpu_of_mem (mem_chain hbackend))
        dsimp only
        rw [fastEngine, hfast, wp_bind, wp_pure, wp_bind, wp_onCpu_iff]
        refine wp_mono (encodeBatchIdsWithSource_spec (hb.answers fast hfast) hs.cpu router.threads _) ?_ ?_
        · rintro results cpu ⟨hwise, hcpu⟩
          dsimp only
          have hfull : ∀ row ∈ rows, row.waitsAt index = true →
              ∃ result, engines.full row.text = .ok result ∧
                (engines.full row.text).toOption.getD ([], .Gigatoken) = result := by
            intro row hrow hwaits
            have hmem : row.text ∈ (rows.filter (·.waitsAt index)).map Row.text :=
              List.mem_map_of_mem ((hwaiting row).mpr ⟨hrow, hwaits⟩)
            obtain ⟨i, hi⟩ := List.mem_iff_getElem?.mp hmem
            obtain ⟨hi', hrow'⟩ := List.getElem?_eq_some_iff.mp hi
            have hlen := hwise.length_eq
            have hok := hwise.get hi' (by rw [← hlen]; exact hi')
            simp only [List.get_eq_getElem, hrow'] at hok
            exact ⟨_, hok, by rw [hok]; rfl⟩
          rw [eq_map_of_forall₂ ([], .Gigatoken) hwise, List.map_map]
          refine wp_mono (deliver_moved _ hnone ?_ ?_ ?_) (fun _ _ h => .inl h) fun _ _ h => h
          · intro row hrow hwaits e he
            obtain ⟨⟨ids, source⟩, hok, -⟩ := hfull row hrow hwaits
            rw [rowStep, hbackend] at he
            dsimp only at he
            rw [hok] at he
            cases source <;> cases he
          · intro row hrow hwaits st hst
            obtain ⟨result, hok, hget⟩ := hfull row hrow hwaits
            rw [Function.comp_apply, hget]
            exact wp_settleFast hbackend hok hst
          · rw [hgpu]
            exact ⟨fun _ => rfl, rfl, rfl, rfl, hcpu⟩
        · rintro f cpu ⟨e, rfl, ⟨t, ht, e', he'⟩, hcpu⟩
          dsimp only
          obtain ⟨row, hrow, rfl⟩ := List.mem_map.mp ht
          obtain ⟨hmem, hwaits⟩ := (hwaiting row).mp hrow
          refine wp_mono (wp_deliver Row.text Row.pass (fun _ => [R_EXEC_FAULT]) rows
            (fun row _ _ st hst => ?_) hcpu) ?_ fun _ _ h => h
          · rw [wp_bind]
            exact wp_faultEvent hst hlt fun st' h' => ⟨rfl, h'⟩
          · rintro rows' st' ⟨hrows, hprogress⟩
            have hsees : Sees router engines { st with cpu := cpu } := ⟨hs.gpu, hcpu⟩
            exact .inr ⟨hbackend, ⟨row, hmem, hwaits, e', he'⟩, hrows, hprogress.sees hsees⟩
    | Reference =>
        have hgpu : decide (router.chain[index]? = some .Gpu) = false := by rw [hbackend]; rfl
        have hserved : ∀ (row : Row) (ids : List UInt32), router.reference.encodeIds row.text false = .ok ids →
            router.rowStep engines row.text index row.reason =
              .Served ⟨ids, BACKEND_REFERENCE, none, some "hf_full", row.reason⟩ [] := by
          intro row ids hids
          simp only [rowStep, hbackend, hids]
        have hfailed : ∀ (row : Row) (e : EngineError), router.reference.encodeIds row.text false = .error e →
            router.rowStep engines row.text index row.reason = .Failed e := by
          intro row e hids
          simp only [rowStep, hbackend, hids]
        have hbatch := hb.reference ((rows.filter (·.waitsAt index)).map Row.text) false
        dsimp only
        rw [wp_bind, raise, wp_fromExcept]
        cases hresults : router.reference.encodeBatchIds ((rows.filter (·.waitsAt index)).map Row.text) false with
        | ok results =>
            rw [hresults] at hbatch
            refine ⟨?_, fun f hf => by cases hf⟩
            rintro _ ⟨⟩
            have hids : ∀ row ∈ rows, row.waitsAt index = true →
                ∃ ids, router.reference.encodeIds row.text false = .ok ids := by
              intro row hrow hwaits
              have hmem : row.text ∈ (rows.filter (·.waitsAt index)).map Row.text :=
                List.mem_map_of_mem ((hwaiting row).mpr ⟨hrow, hwaits⟩)
              obtain ⟨i, hi⟩ := List.mem_iff_getElem?.mp hmem
              obtain ⟨hi', hrow'⟩ := List.getElem?_eq_some_iff.mp hi
              have hlen := hbatch.length_eq
              have hok := hbatch.get hi' (by rw [← hlen]; exact hi')
              simp only [List.get_eq_getElem, hrow'] at hok
              exact ⟨_, hok⟩
            rw [eq_map_of_forall₂ [] hbatch, List.map_map]
            refine wp_mono (deliver_moved _ hnone ?_ ?_ ?_) (fun _ _ h => .inl h) fun _ _ h => h
            · intro row hrow hwaits e he
              obtain ⟨ids, hok⟩ := hids row hrow hwaits
              rw [hserved row ids hok] at he
              cases he
            · intro row hrow hwaits st hst
              obtain ⟨ids, hok⟩ := hids row hrow hwaits
              rw [Function.comp_apply, hok, wp_pure, rowAfter, rowCodes, hserved row ids hok]
              exact ⟨rfl, Progress.refl hst⟩
            · rw [hgpu]
              exact Progress.refl hs.cpu
        | error e =>
            rw [hresults] at hbatch
            obtain ⟨t, ht, e', he'⟩ := hbatch
            obtain ⟨row, hrow, rfl⟩ := List.mem_map.mp ht
            obtain ⟨hmem, hwaits⟩ := (hwaiting row).mp hrow
            refine ⟨fun results hr => (by cases hr), fun f hf => ?_⟩
            cases hf
            refine ⟨(by simp), row, hmem, hwaits, e', ?_⟩
            exact hfailed row e' he'

end

/-! ## All stages -/

/-- The GPU engine does not stand behind the corrected CPU engine. -/
def GpuInFront (router : NativeRouter W) : Prop :=
  ∀ i j : ℕ, router.chain[i]? = some .FastCpu → router.chain[j]? = some .Gpu → j < i

/-- A row waits for the reference engine, which fails on it. -/
def Doomed (router : NativeRouter W) (index : ℕ) (rows : List Row) : Prop :=
  router.chain[index]? = some .Reference ∧
    ∃ row ∈ rows, row.waitsAt index = true ∧ ∃ e, router.reference.encodeIds row.text false = .error e

/-- The batch is on its way, or it will fail as one of its rows does. -/
def StageInv (router : NativeRouter W) (engines : Engines) (st : RouterState W) (texts : List Text)
    (stage : ℕ) (rows : List Row) (st' : RouterState W) : Prop :=
  router.AtStage engines st texts stage rows st' ∨
    (Sees router engines st' ∧ router.Doomed stage rows ∧
      ∃ text ∈ texts, ∃ e, router.row engines text = .error e)

section
variable {index : ℕ} {rows : List Row} {texts : List Text} {st' : RouterState W}

/-- Behind the corrected CPU engine stands the reference engine. -/
theorem GpuInFront.reference_behind (h : router.GpuInFront)
    (hfast : router.chain[index]? = some .FastCpu) : router.chain[index + 1]? = some .Reference := by
  obtain ⟨backend, hbackend⟩ := router.exists_backend (router.lt_of_ne_reference hfast (by decide))
  rw [hbackend]
  cases backend with
  | Reference => rfl
  | Gpu =>
      have := h index (index + 1) hfast hbackend
      omega
  | FastCpu =>
      obtain ⟨hi, hgeti⟩ := List.getElem?_eq_some_iff.mp hfast
      obtain ⟨hj, hgetj⟩ := List.getElem?_eq_some_iff.mp hbackend
      have := (List.Nodup.getElem_inj_iff router.nodup_chain).mp (hgeti.trans hgetj.symm)
      omega

/-- A row whose backend fails has no route. -/
theorem OnRoute.row_error {one : Tried} {e : EngineError} (h : router.OnRoute engines index one)
    (hwaits : one.row.waitsAt index = true)
    (hstep : router.rowStep engines one.row.text index one.row.reason = .Failed e) :
    router.row engines one.row.text = .error e := by
  obtain ⟨-, hroute⟩ := h
  obtain ⟨hnone, hnext⟩ := waitsAt_iff.mp hwaits
  rw [hnone] at hroute
  obtain ⟨-, hlt, hroute⟩ := hroute
  rw [hnext] at hlt hroute
  rw [hroute, backendsFrom_cons hlt, rowFrom, hstep]
  rfl

@[simp] theorem text_rowAfter (index : ℕ) (row : Row) : (router.rowAfter engines index row).text = row.text := by
  unfold rowAfter
  split <;> rfl

@[simp] theorem text_advance (index : ℕ) (one : Tried) :
    (router.advance engines index one).row.text = one.row.text := by
  unfold advance
  split_ifs
  · exact text_rowAfter index one.row
  · rfl

/-- A stage that moves its rows takes the batch to the next. -/
theorem AtStage.moved {rows' : List Row} {st'' : RouterState W}
    (h : router.AtStage engines st texts index rows st')
    (hm : router.Moved engines index rows st' rows' st'') :
    router.AtStage engines st texts (index + 1) rows' st'' := by
  obtain ⟨tried, rfl, htexts, hon, codes, hperm, hprogress⟩ := h
  refine ⟨tried.map (router.advance engines index), ?_, ?_, ?_, codes ++
    (tried.map Tried.row).flatMap (fun row => if row.waitsAt index = true
      then router.rowCodes engines index row else []), ?_, ?_⟩
  · rw [hm.behind, List.map_map, List.map_map]
    refine List.map_congr_left fun one _ => ?_
    simp only [Function.comp_apply, advance]
    split_ifs <;> rfl
  · rw [htexts, List.map_map]
    exact List.map_congr_left fun one _ => (text_advance index one).symm
  · intro one' hone'
    obtain ⟨one, hone, rfl⟩ := List.mem_map.mp hone'
    exact (hon one hone).advance fun hwaits => hm.step one.row (List.mem_map_of_mem hone) hwaits
  · -- the codes of the stage are counted behind those of the earlier ones
    refine (hperm.append_right _).trans ?_
    rw [List.flatMap_map, List.flatMap_map]
    refine (List.flatMap_append_perm tried _ _).trans (List.Perm.of_eq ?_)
    refine List.flatMap_congr fun one _ => ?_
    unfold advance
    split_ifs
    · rfl
    · rw [List.append_nil]
  · have hany : (tried.map (router.advance engines index)).any Tried.opened =
        (tried.any Tried.opened || (tried.map Tried.row).any (·.waitsAt index) &&
          decide (router.chain[index]? = some .Gpu)) := by
      clear hm hon hperm hprogress htexts
      induction tried with
      | nil => rfl
      | cons one tried ih =>
          rw [List.map_cons, List.any_cons, ih, List.any_cons, List.map_cons, List.any_cons]
          unfold advance
          by_cases hwaits : one.row.waitsAt index = true
          · rw [if_pos hwaits, hwaits]
            dsimp only
            cases one.opened <;> cases tried.any Tried.opened <;>
              cases decide (router.chain[index]? = some .Gpu) <;> simp
          · rw [if_neg hwaits]
            rw [Bool.not_eq_true] at hwaits
            rw [hwaits, Bool.false_or, Bool.or_assoc]
    rw [hany]
    exact hprogress.trans hm.progress

/-- One stage keeps the batch on its way. -/
theorem stageInv_step (hb : Batches router engines) (hs : Sees router engines st)
    (hsame : ∀ fast, router.fastCpu = some fast → fast.reference = router.reference)
    (hsafe : (∀ text ∈ texts, ∀ e, router.reference.encodeIds text false ≠ .error e) ∨ router.GpuInFront)
    (hindex : index < router.chain.length) (h : router.StageInv engines st texts index rows st') :
    wp (router.stage rows index) (router.StageInv engines st texts (index + 1))
      (fun f _ => f ≠ .Panic ∧ ∃ text ∈ texts, ∃ e, router.row engines text = .error e) st' := by
  rcases h with hat | ⟨hsees, ⟨hreference, row, hrow, hwaits, e, he⟩, hfails⟩
  · obtain ⟨tried, htried, htexts, hon, codes, hperm, hprogress⟩ := id hat
    refine wp_mono (stage_spec hb (hprogress.sees hs) hindex) ?_ ?_
    · rintro rows' st'' (hm | hd)
      · exact .inl (hat.moved hm)
      · obtain ⟨row, hrow, hwaits, e, he⟩ := hd.fails
        rw [htried] at hrow
        obtain ⟨one, hone, rfl⟩ := List.mem_map.mp hrow
        have htext : one.row.text ∈ texts := by
          rw [htexts]
          exact List.mem_map_of_mem hone
        obtain ⟨fast, hfast⟩ := Option.isSome_iff_exists.mp (router.fastCpu_of_mem (mem_chain hd.backend))
        have href : router.reference.encodeIds one.row.text false = .error e := by
          rw [← hsame fast hfast]
          exact (hb.answers fast hfast).reference_fails st.cpu.primary.value he
        rcases hsafe with hserves | hfront
        · exact absurd href (hserves _ htext e)
        · have hbehind := hfront.reference_behind hd.backend
          obtain ⟨hnone, hnext⟩ := waitsAt_iff.mp hwaits
          refine .inr ⟨hd.sees, ⟨hbehind, one.row.pass, ?_, ?_, e, href⟩, one.row.text, htext, e, ?_⟩
          · rw [hd.behind, htried, List.mem_map]
            exact ⟨one.row, hrow, if_pos hwaits⟩
          · rw [waitsAt_iff]
            exact ⟨hnone, congrArg (· + 1) hnext⟩
          · -- alone, the row fails on the reference engine as well
            obtain ⟨-, hroute⟩ := hon one hone
            rw [hnone] at hroute
            obtain ⟨-, hlt, hroute⟩ := hroute
            rw [hnext] at hlt hroute
            have hpassed : router.rowStep engines one.row.text index one.row.reason = .Passed := by
              rw [rowStep, hd.backend]
              dsimp only
              rw [he]
              rfl
            have hfailed : router.rowStep engines one.row.text (index + 1) (some R_EXEC_FAULT) = .Failed e := by
              rw [rowStep, hbehind]
              dsimp only
              rw [href]
            have hlt' := (List.getElem?_eq_some_iff.mp hbehind).1
            rw [hroute, backendsFrom_cons hlt, rowFrom, hpassed, backendsFrom_cons hlt', rowFrom, hfailed]
            rfl
    · rintro f st'' ⟨hne, row, hrow, hwaits, e, he⟩
      rw [htried] at hrow
      obtain ⟨one, hone, rfl⟩ := List.mem_map.mp hrow
      refine ⟨hne, one.row.text, ?_, e, (hon one hone).row_error hwaits he⟩
      rw [htexts]
      exact List.mem_map_of_mem hone
  · refine wp_mono (stage_spec hb hsees hindex) ?_ ?_
    · rintro rows' st'' (hm | hd)
      · refine absurd ?_ (hm.step row hrow hwaits e)
        rw [rowStep, hreference]
        dsimp only
        rw [he]
      · have hfast := hd.backend
        rw [hreference] at hfast
        cases hfast
    · rintro f st'' ⟨hne, -⟩
      exact ⟨hne, hfails⟩

end

/-! ## The ledger of a batch -/

/-- The execution recorded for a text. -/
def executionOf (router : NativeRouter W) (text : Text) (routed : RoutedIds) : Execution :=
  ⟨utf8Len text, router.nameAt (router.startIndex (utf8Len text)), routed.backend, routed.source,
    routed.path⟩

/-- The state behind texts that were served one after the other. -/
structure Settled (router : NativeRouter W) (st : RouterState W) (served : List (Text × RowTrace))
    (st' : RouterState W) : Prop where
  fallbacks : ∀ code, st'.stats.fallbackCounts code =
    st.stats.fallbackCounts code + (served.flatMap (·.2.codes)).count code
  executions : ∀ backend, st'.stats.executionCounts backend =
    st.stats.executionCounts backend + (served.map (·.2.routed.backend)).count backend
  last : st'.stats.lastExecution =
    (served.getLast?.map fun one => router.executionOf one.1 one.2.routed).or st.stats.lastExecution
  gpu : st'.gpu = if served.any (·.2.opened) then openCell st.gpu else st.gpu
  healthy : st'.cpu.Healthy

section
variable {st' st'' : RouterState W} {served : List (Text × RowTrace)}

theorem Settled.nil (hcpu : st.cpu.Healthy) : router.Settled st [] st :=
  ⟨fun _ => rfl, fun _ => rfl, rfl, rfl, hcpu⟩

theorem Settled.cons (trace : RowTrace)
    (h : router.Executed st trace.codes trace.opened (utf8Len text) (router.startIndex (utf8Len text))
      trace.routed st')
    (h' : router.Settled st' served st'') : router.Settled st ((text, trace) :: served) st'' where
  fallbacks code := by
    rw [h'.fallbacks, h.fallbacks, List.flatMap_cons, List.count_append, Nat.add_assoc]
  executions backend := by
    rw [h'.executions, h.executions, List.map_cons, List.count_cons]
    unfold increment
    by_cases hb : backend = trace.routed.backend
    · rw [if_pos hb, if_pos (by simp [hb])]
      omega
    · rw [if_neg hb, if_neg (by simpa using Ne.symm hb)]
      omega
  last := by
    rw [h'.last, h.last, List.getLast?_cons]
    cases served.getLast? <;> rfl
  gpu := by rw [h'.gpu, h.gpu, ite_openCell, List.any_cons]
  healthy := h'.healthy

/-- The codes may have been counted before the executions, in another order. -/
theorem Settled.after {codes : List String} {opened : Bool} (hprogress : Progress st codes opened st')
    (h : router.Settled st' (served.map fun one => (one.1, ⟨one.2.routed, [], false⟩)) st'')
    (hperm : codes.Perm (served.flatMap (·.2.codes))) (hopened : opened = served.any (·.2.opened)) :
    router.Settled st served st'' where
  fallbacks code := by
    have hnil : (served.map fun one => ((one.1, ⟨one.2.routed, [], false⟩) : Text × RowTrace)).flatMap
        (·.2.codes) = [] := by
      rw [List.flatMap_map, List.flatMap_eq_nil_iff]
      exact fun _ _ => rfl
    rw [h.fallbacks, hprogress.fallbacks, hnil, List.count_nil, Nat.add_zero, hperm.count_eq]
  executions backend := by rw [h.executions, hprogress.executions, List.map_map]; rfl
  last := by
    rw [h.last, hprogress.last, List.getLast?_map]
    cases served.getLast? <;> rfl
  gpu := by
    have hfalse : (served.map fun one => ((one.1, ⟨one.2.routed, [], false⟩) : Text × RowTrace)).any
        (·.2.opened) = false := by simp
    rw [h.gpu, hprogress.gpu, hfalse, hopened]
    rfl
  healthy := h.healthy

/-- One execution is recorded for each row, in the caller's order. -/
theorem wp_recordAll {R : Fault EngineError → RouterState W → Prop} (rows : List (Row × RoutedIds))
    (hstart : ∀ one ∈ rows, one.1.start = router.startIndex (utf8Len one.1.text)) (hcpu : st.cpu.Healthy) :
    wp (rows.forM fun (row, routed) =>
        router.recordExecution routed.backend (utf8Len row.text) row.start routed.source routed.path)
      (fun _ st' => router.Settled st (rows.map fun one => (one.1.text, ⟨one.2, [], false⟩)) st') R st := by
  induction rows generalizing st with
  | nil => exact Settled.nil hcpu
  | cons one rows ih =>
      obtain ⟨row, routed⟩ := one
      have hrow : row.start = router.startIndex (utf8Len row.text) := hstart _ List.mem_cons_self
      change wp (router.recordExecution routed.backend (utf8Len row.text) row.start routed.source
        routed.path >>= fun _ => rows.forM _) _ _ _
      rw [wp_bind]
      refine wp_recordExecution _ hcpu (by rw [hrow]; exact router.startIndex_lt _) fun st₁ h₁ => ?_
      refine wp_mono (ih (fun one hone => hstart one (List.mem_cons_of_mem _ hone)) h₁.healthy) ?_
        fun _ _ h => h
      intro _ st₂ h₂
      rw [hrow] at h₁
      exact Settled.cons ⟨routed, [], false⟩ h₁ h₂

/-- The route of a row that has its result. -/
def Tried.trace (one : Tried) : RowTrace :=
  ⟨one.row.output.getD ⟨[], "", none, none, none⟩, one.codes, one.opened⟩

theorem OnRoute.output_eq {one : Tried} (h : router.OnRoute engines router.chain.length one) :
    one.row.output = some one.trace.routed ∧ router.row engines one.row.text = .ok one.trace := by
  obtain ⟨routed, houtput, hroute⟩ := h.closed
  unfold Tried.trace
  rw [houtput]
  exact ⟨rfl, hroute⟩

theorem mapM_output (tried : List Tried)
    (h : ∀ one ∈ tried, router.OnRoute engines router.chain.length one) :
    (tried.map Tried.row).mapM Row.output = some (tried.map (·.trace.routed)) := by
  induction tried with
  | nil => rfl
  | cons one tried ih =>
      rw [List.map_cons, List.mapM_cons, (h one (by simp)).output_eq.1, ih fun one hone => h one (by simp [hone])]
      rfl

/-- The batch ends with the results of its rows. -/
theorem recordRows_spec {texts : List Text} {rows : List Row} {R : Fault EngineError → RouterState W → Prop}
    (h : router.AtStage engines st texts router.chain.length rows st') :
    wp (router.recordRows rows) (fun out st'' => ∃ served : List (Text × RowTrace),
      texts = served.map Prod.fst ∧ (∀ one ∈ served, router.row engines one.1 = .ok one.2) ∧
      out = served.map (·.2.routed) ∧ router.Settled st served st'') R st' := by
  obtain ⟨tried, rfl, rfl, hon, codes, hperm, hprogress⟩ := h
  unfold recordRows
  rw [mapM_output tried hon]
  dsimp only
  rw [wp_bind, List.zip_map']
  refine wp_mono (wp_recordAll _ ?_ hprogress.healthy) ?_ fun _ _ h => h
  · intro one hone
    obtain ⟨one', hone', rfl⟩ := List.mem_map.mp hone
    exact (hon one' hone').1
  · intro _ st'' hsettled
    rw [wp_pure]
    refine ⟨tried.map fun one => (one.row.text, one.trace), ?_, ?_, ?_, ?_⟩
    · rw [List.map_map]
      rfl
    · intro one hone
      obtain ⟨one', hone', rfl⟩ := List.mem_map.mp hone
      exact (hon one' hone').output_eq.2
    · rw [List.map_map]
      rfl
    · refine Settled.after hprogress ?_ ?_ ?_
      · rw [List.map_map] at hsettled ⊢
        exact hsettled
      · rw [List.flatMap_map]
        exact hperm
      · rw [List.any_map]
        rfl

end

/-! ## Special tokens -/

/-- The route of a text whose special tokens only the reference engine adds. -/
def postRow (router : NativeRouter W) (text : Text) : Except EngineError RowTrace :=
  (router.reference.encodeIds text true).map fun ids =>
    ⟨⟨ids, BACKEND_REFERENCE, none, some "hf_postprocessed", some R_INPUT_POSTPROCESS_ROUTED⟩,
      List.replicate (router.chain.length - 1 - router.startIndex (utf8Len text))
        R_INPUT_POSTPROCESS_ROUTED, false⟩

section
variable {R : Fault EngineError → RouterState W → Prop}

theorem wp_postprocessEvents {start : ℕ} {Q : Unit → RouterState W → Prop} (hcpu : st.cpu.Healthy)
    (hstart : start < router.chain.length)
    (h : ∀ st', Progress st (List.replicate (router.chain.length - 1 - start) R_INPUT_POSTPROCESS_ROUTED)
      false st' → Q () st') :
    wp (router.postprocessEvents start) Q R st := by
  unfold postprocessEvents
  have hend : start + (router.chain.length - 1 - start) + 1 = router.chain.length := by omega
  generalize router.chain.length - 1 - start = n at *
  clear hstart
  induction n generalizing st start Q with
  | zero => exact h st (Progress.refl hcpu)
  | succ n ih =>
      rw [List.range'_succ]
      change wp ((do
        let backend ← router.backendAt start
        let target ← router.backendAt (start + 1)
        router.recordEvent R_INPUT_POSTPROCESS_ROUTED backend target _) >>= fun _ =>
          (List.range' (start + 1) n).forM _) _ _ _
      rw [router.backendAt_eq (by omega), router.backendAt_eq (by omega), wp_bind, wp_bind, wp_pure,
        wp_bind, wp_pure]
      refine wp_recordEvent hcpu fun st₁ h₁ => ?_
      refine ih h₁.healthy (fun st₂ h₂ => h st₂ ?_) (by omega)
      rw [List.replicate_succ]
      exact h₁.trans h₂

/-- The route of a text. -/
def route (router : NativeRouter W) (engines : Engines) (special : Bool) (text : Text) :
    Except EngineError RowTrace :=
  if (special && router.postprocessorAddsTokens) = true then router.postRow text
  else router.row engines text

/-- A single request takes the route of its text. -/
theorem encodeIds_spec (hfull : router.Answering engines) (hs : Sees router engines st) (special : Bool) :
    wp (router.encodeIds text special)
      (router.Routed st text (router.startIndex (utf8Len text)) (router.route engines special text))
      (Unrouted (router.route engines special text)) st := by
  unfold encodeIds route
  split_ifs with hpost
  · have hstart := router.startIndex_lt (utf8Len text)
    dsimp only
    rw [wp_bind]
    refine wp_postprocessEvents hs.cpu hstart fun st₁ h₁ => ?_
    unfold postRow
    rw [wp_bind, raise, wp_fromExcept]
    cases hids : router.reference.encodeIds text true with
    | error e => exact ⟨fun ids h => (by cases h), fun f hf => ⟨e, by cases hf; rfl, rfl⟩⟩
    | ok ids =>
        refine ⟨?_, fun f hf => by cases hf⟩
        rintro _ ⟨⟩
        exact wp_served (show _ = Except.ok (RowTrace.mk ⟨ids, BACKEND_REFERENCE, none, some "hf_postprocessed",
          some R_INPUT_POSTPROCESS_ROUTED⟩ _ false) from rfl) h₁ hstart
  · exact routeIdsInternal_spec hfull hs

/-- The rows of a batch, with their special tokens. -/
theorem wp_postprocessRows {texts : List Text} {rows : List (List UInt32)} (hcpu : st.cpu.Healthy)
    (hrows : List.Forall₂ (fun text ids => router.reference.encodeIds text true = .ok ids) texts rows) :
    wp ((texts.zip rows).mapM fun (text, ids) => do
        let start := router.startIndex (utf8Len text)
        router.postprocessEvents start
        router.recordExecution BACKEND_REFERENCE (utf8Len text) start none (some "hf_postprocessed")
        return (⟨ids, BACKEND_REFERENCE, none, some "hf_postprocessed",
          some R_INPUT_POSTPROCESS_ROUTED⟩ : RoutedIds))
      (fun out st' => ∃ served : List (Text × RowTrace), texts = served.map Prod.fst ∧
        (∀ one ∈ served, router.postRow one.1 = .ok one.2) ∧ out = served.map (·.2.routed) ∧
        router.Settled st served st') R st := by
  induction hrows generalizing st with
  | nil => exact ⟨[], rfl, by simp, rfl, Settled.nil hcpu⟩
  | @cons text ids texts rows hids _ ih =>
      have hstart := router.startIndex_lt (utf8Len text)
      rw [List.zip_cons_cons, List.mapM_cons, wp_bind]
      dsimp only
      rw [wp_bind]
      refine wp_postprocessEvents hcpu hstart fun st₁ h₁ => ?_
      rw [wp_bind]
      refine wp_recordExecution ⟨ids, BACKEND_REFERENCE, none, some "hf_postprocessed",
        some R_INPUT_POSTPROCESS_ROUTED⟩ h₁.healthy hstart fun st₂ h₂ => ?_
      rw [wp_pure, wp_bind]
      have hexec := h₂.after h₁
      refine wp_mono (ih h₂.healthy) ?_ fun _ _ h => h
      rintro _ st₃ ⟨served, rfl, hall, rfl, hsettled⟩
      rw [wp_pure]
      refine ⟨(text, _) :: served, rfl, ?_, rfl, Settled.cons ⟨_, _, _⟩ hexec hsettled⟩
      intro one hone
      rcases List.mem_cons.mp hone with rfl | hone
      · rw [postRow, hids, List.append_nil]
        rfl
      · exact hall one hone

/-- A batch returns the routes of its rows, or fails as one of them does. -/
theorem encodeBatchIds_spec {texts : List Text} (hb : Batches router engines) (hs : Sees router engines st)
    (hsame : ∀ fast, router.fastCpu = some fast → fast.reference = router.reference)
    (hsafe : (∀ text ∈ texts, ∀ e, router.reference.encodeIds text false ≠ .error e) ∨ router.GpuInFront)
    (special : Bool) :
    wp (router.encodeBatchIds texts special)
      (fun out st' => ∃ served : List (Text × RowTrace), texts = served.map Prod.fst ∧
        (∀ one ∈ served, router.route engines special one.1 = .ok one.2) ∧
        out = served.map (·.2.routed) ∧ router.Settled st served st')
      (fun f _ => f ≠ .Panic ∧ ∃ text ∈ texts, ∃ e, router.route engines special text = .error e) st := by
  unfold encodeBatchIds route
  split_ifs with hnil hpost
  · subst hnil
    exact ⟨[], rfl, by simp, rfl, Settled.nil hs.cpu⟩
  · subst hnil
    exact ⟨[], rfl, by simp, rfl, Settled.nil hs.cpu⟩
  · have hbatch := hb.reference texts true
    unfold postprocessBatch
    rw [wp_bind, raise, wp_fromExcept]
    cases hrows : router.reference.encodeBatchIds texts true with
    | error e =>
        rw [hrows] at hbatch
        obtain ⟨text, htext, e', he'⟩ := hbatch
        have he' : router.reference.encodeIds text true = .error e' := he'
        refine ⟨fun rows h => (by cases h), fun f hf => ?_⟩
        cases hf
        exact ⟨(by simp), text, htext, e', by rw [postRow, he']; rfl⟩
    | ok rows =>
        rw [hrows] at hbatch
        refine ⟨?_, fun f hf => by cases hf⟩
        rintro _ ⟨⟩
        exact wp_postprocessRows hs.cpu hbatch
  · rw [wp_bind]
    refine wp_mono (openRows_spec hs.cpu texts fun text htext e st' he =>
      ⟨(by simp), text, htext, e, he⟩) ?_ fun _ _ h => h
    rintro rows st₁ h₁
    rw [wp_bind]
    refine wp_mono (wp_foldlM_range (router.StageInv engines st texts) router.chain.length (.inl h₁)
      fun index hindex rows st' h => stageInv_step hb hs hsame hsafe hindex h) ?_ fun _ _ h => h
    rintro rows' st₂ (hat | ⟨-, ⟨hreference, -⟩, -⟩)
    · exact recordRows_spec hat
    · -- no row waits behind the last stage
      have := (List.getElem?_eq_some_iff.mp hreference).1
      omega

end

/-! ## Row by row -/

/-- What the rows did alone, from the state before the batch, put together: the counters, the last
execution, whether the GPU engine was opened, and whether the locks stay usable. -/
structure SameTotals (st st' : RouterState W) (alone : List (RouterState W)) : Prop where
  fallbacks : ∀ code, (st'.stats.fallbackCounts code : ℤ) - st.stats.fallbackCounts code =
    (alone.map fun one => (one.stats.fallbackCounts code : ℤ) - st.stats.fallbackCounts code).sum
  executions : ∀ backend, (st'.stats.executionCounts backend : ℤ) - st.stats.executionCounts backend =
    (alone.map fun one => (one.stats.executionCounts backend : ℤ) - st.stats.executionCounts backend).sum
  last : st'.stats.lastExecution =
    (alone.getLast?.map fun one => one.stats.lastExecution).getD st.stats.lastExecution
  opened : st'.gpu ≠ st.gpu → ∃ one ∈ alone, one.gpu = st'.gpu
  opens : ∀ one ∈ alone, one.gpu ≠ st.gpu → one.gpu = st'.gpu
  healthy : st'.cpu.Healthy ↔ ∀ one ∈ alone, one.cpu.Healthy

/-- A batch returns, in order, what each of its rows returns alone in the state before the batch,
and changes the state as they do together; it fails only if one of them does. -/
def RowByRow (router : NativeRouter W) (st : RouterState W) (texts : List Text) (special : Bool) : Prop :=
  match (router.encodeBatchIds texts special).run st with
  | .ok rows st' => ∃ alone : List (RoutedIds × RouterState W),
      List.Forall₂ (fun text one => (router.encodeIds text special).run st = .ok one.1 one.2) texts alone ∧
        rows = alone.map Prod.fst ∧ SameTotals st st' (alone.map Prod.snd)
  | .error f _ => f ≠ .Panic ∧
      ∃ text ∈ texts, ∃ f' st', (router.encodeIds text special).run st = .error f' st'

section
variable {st' : RouterState W} {served : List (Text × RowTrace)}

/-- One row alone. -/
theorem exists_alone (hfull : router.Answering engines) (hs : Sees router engines st) {special : Bool}
    {trace : RowTrace} (h : router.route engines special text = .ok trace) :
    ∃ st', (router.encodeIds text special).run st = .ok trace.routed st' ∧
      router.Executed st trace.codes trace.opened (utf8Len text) (router.startIndex (utf8Len text))
        trace.routed st' := by
  have hspec : wp (router.encodeIds text special) _ _ st := encodeIds_spec hfull hs special
  unfold wp at hspec
  cases hrun : (router.encodeIds text special).run st with
  | ok routed st' =>
      rw [hrun] at hspec
      obtain ⟨trace', htrace', rfl, hexec⟩ := hspec
      rw [h] at htrace'
      cases htrace'
      exact ⟨st', rfl, hexec⟩
  | error f st' =>
      rw [hrun] at hspec
      obtain ⟨e, -, herror⟩ := hspec
      rw [h] at herror
      cases herror

theorem exists_alone_list (hfull : router.Answering engines) (hs : Sees router engines st) {special : Bool}
    (served : List (Text × RowTrace)) (h : ∀ one ∈ served, router.route engines special one.1 = .ok one.2) :
    ∃ alone : List (RoutedIds × RouterState W),
      List.Forall₂ (fun text one => (router.encodeIds text special).run st = .ok one.1 one.2)
        (served.map Prod.fst) alone ∧
      served.map (·.2.routed) = alone.map Prod.fst ∧
      List.Forall₂ (fun one after => router.Executed st one.2.codes one.2.opened (utf8Len one.1)
        (router.startIndex (utf8Len one.1)) one.2.routed after) served (alone.map Prod.snd) := by
  induction served with
  | nil => exact ⟨[], .nil, rfl, .nil⟩
  | cons one served ih =>
      obtain ⟨after, hrun, hexec⟩ := exists_alone hfull hs (h one (by simp))
      obtain ⟨alone, hruns, hids, hexecs⟩ := ih fun one' hone' => h one' (by simp [hone'])
      refine ⟨(one.2.routed, after) :: alone, .cons hrun hruns, ?_, .cons hexec hexecs⟩
      rw [List.map_cons, List.map_cons, hids]

/-- Rows served one after the other do what they do alone, put together. -/
theorem Settled.sameTotals (h : router.Settled st served st') {alone : List (RouterState W)}
    (halone : List.Forall₂ (fun one after => router.Executed st one.2.codes one.2.opened (utf8Len one.1)
      (router.startIndex (utf8Len one.1)) one.2.routed after) served alone) :
    SameTotals st st' alone where
  fallbacks code := by
    rw [h.fallbacks, Nat.cast_add, add_sub_cancel_left]
    clear h
    induction halone with
    | nil => rfl
    | cons hexec _ ih =>
        rw [List.flatMap_cons, List.count_append, Nat.cast_add, ih, List.map_cons, List.sum_cons,
          hexec.fallbacks, Nat.cast_add, add_sub_cancel_left]
  executions backend := by
    rw [h.executions, Nat.cast_add, add_sub_cancel_left]
    clear h
    induction halone with
    | nil => rfl
    | @cons one after _ _ hexec _ ih =>
        rw [List.map_cons, List.count_cons, Nat.cast_add, ih, List.map_cons, List.sum_cons,
          hexec.executions, add_comm]
        unfold increment
        by_cases hb : backend = one.2.routed.backend
        · rw [if_pos (by simp [hb]), if_pos hb]
          push_cast
          rw [add_sub_cancel_left]
        · rw [if_neg (by simpa using Ne.symm hb), if_neg hb, sub_self]
          rfl
  last := by
    rw [h.last]
    have hlast : (served.getLast?.map fun one => some (router.executionOf one.1 one.2.routed)) =
        alone.getLast?.map fun one => one.stats.lastExecution := by
      clear h
      induction halone with
      | nil => rfl
      | cons hexec hrest ih =>
          rw [List.getLast?_cons, List.getLast?_cons]
          cases hrest with
          | nil => exact congrArg some hexec.last.symm
          | cons _ _ =>
              rw [List.getLast?_cons, List.getLast?_cons] at ih ⊢
              exact ih
    rw [← hlast]
    cases served.getLast? <;> rfl
  opened hne := by
    rw [h.gpu] at hne ⊢
    split_ifs at hne ⊢ with hany
    · rw [List.any_eq_true] at hany
      obtain ⟨one, hone, hopened⟩ := hany
      obtain ⟨i, hi⟩ := List.mem_iff_getElem?.mp hone
      obtain ⟨hi', hget⟩ := List.getElem?_eq_some_iff.mp hi
      have hexec := halone.get hi' (by rw [← halone.length_eq]; exact hi')
      simp only [List.get_eq_getElem, hget] at hexec
      refine ⟨_, List.getElem_mem (by rw [← halone.length_eq]; exact hi'), ?_⟩
      rw [hexec.gpu, hopened]
      rfl
    · exact absurd rfl hne
  opens after hafter hne := by
    obtain ⟨i, hi⟩ := List.mem_iff_getElem?.mp hafter
    obtain ⟨hi', hget⟩ := List.getElem?_eq_some_iff.mp hi
    have hlt : i < served.length := by rw [halone.length_eq]; exact hi'
    have hexec := halone.get hlt hi'
    simp only [List.get_eq_getElem, hget] at hexec
    rw [hexec.gpu] at hne ⊢
    split_ifs at hne ⊢ with hopened
    · rw [h.gpu, if_pos (List.any_eq_true.mpr ⟨_, List.getElem_mem hlt, hopened⟩)]
    · exact absurd rfl hne
  healthy := by
    refine iff_of_true h.healthy fun after hafter => ?_
    obtain ⟨i, hi⟩ := List.mem_iff_getElem?.mp hafter
    obtain ⟨hi', hget⟩ := List.getElem?_eq_some_iff.mp hi
    have hexec := halone.get (by rw [halone.length_eq]; exact hi') hi'
    simp only [List.get_eq_getElem, hget] at hexec
    exact hexec.healthy

end

/-- Batch routing is row-by-row routing, in every state whose locks are not poisoned, when the
reference engine encodes every row or the GPU engine does not stand behind the corrected CPU
engine. -/
theorem encodeBatchIds_rowByRow {full : Text → Except EngineError (List UInt32 × FastEncodeSource)}
    (hanswers : ∀ fast, router.fastCpu = some fast → fast.Answers full)
    (hsame : ∀ fast, router.fastCpu = some fast → fast.reference = router.reference)
    (hreference : ∀ texts special, RowWise (fun text => router.reference.encodeIds text special) texts
      (router.reference.encodeBatchIds texts special))
    (hgpu : .Gpu ∈ router.chain → ∃ cell, st.gpu = some cell ∧ ∀ gpu, cell.get.1 = .ok gpu →
      ∀ texts, gpu.encodeBatchIds texts = texts.map gpu.encodeIds)
    (hcpu : st.cpu.Healthy) {texts : List Text}
    (hsafe : (∀ text ∈ texts, ∀ e, router.reference.encodeIds text false ≠ .error e) ∨ router.GpuInFront)
    (special : Bool) : RowByRow router st texts special := by
  obtain ⟨engines, hb, hs⟩ : ∃ engines, Batches router engines ∧ Sees router engines st := by
    by_cases hmem : .Gpu ∈ router.chain
    · obtain ⟨cell, hcell, hbatch⟩ := hgpu hmem
      exact ⟨⟨cell.get.1, full⟩, ⟨hanswers, hbatch, hreference⟩, fun _ => ⟨cell, hcell, rfl⟩, hcpu⟩
    · exact ⟨⟨.error ⟨""⟩, full⟩, ⟨hanswers, fun gpu h => (by cases h), hreference⟩,
        fun h => absurd h hmem, hcpu⟩
  have hspec := encodeBatchIds_spec hb hs hsame hsafe special
  unfold wp at hspec
  unfold RowByRow
  cases hrun : (router.encodeBatchIds texts special).run st with
  | ok rows st' =>
      rw [hrun] at hspec
      obtain ⟨served, rfl, hall, rfl, hsettled⟩ := hspec
      obtain ⟨alone, hruns, hids, hexecs⟩ := exists_alone_list hb.answers hs served hall
      exact ⟨alone, hruns, hids, hsettled.sameTotals hexecs⟩
  | error f st' =>
      rw [hrun] at hspec
      obtain ⟨hne, text, htext, e, he⟩ := hspec
      refine ⟨hne, text, htext, ?_⟩
      have hone : wp (router.encodeIds text special) _ _ st := encodeIds_spec hb.answers hs special
      unfold wp at hone
      cases hrun' : (router.encodeIds text special).run st with
      | ok routed st'' =>
          rw [hrun'] at hone
          obtain ⟨trace, htrace, -⟩ := hone
          rw [he] at htrace
          cases htrace
      | error f' st'' => exact ⟨f', st'', rfl⟩

/-- A GPU engine that faults on every text with a capital letter. -/
def smallGpu : NativeGpuEngine where
  encodeIds t := if t.any Char.isUpper then .error ⟨"fault"⟩ else .ok (charIds t)
  encodeBatchIds ts := ts.map fun t => if t.any Char.isUpper then .error ⟨"fault"⟩ else .ok (charIds t)
  delivery := "gpu"

/-- All three backends; short texts do not go to the GPU engine. -/
def gpuRouter : NativeRouter Unit where
  chain := [.Gpu, .FastCpu, .Reference]
  thresholds := [2, 0, 0]
  reference := charReference
  fastCpu := some charCpu
  hasGpu := true
  postprocessorAddsTokens := false
  diagnostics := true
  threads := 2
  length_thresholds := rfl
  getLast?_chain := rfl
  nodup_chain := by decide
  hasGpu_of_mem _ := rfl
  fastCpu_of_mem _ := rfl
  getLast?_thresholds := rfl

/-- The GPU engine is not open yet. -/
def gpuState : RouterState Unit :=
  ⟨.default, some ⟨some (.ok smallGpu), none⟩, ⟨⟨(), false⟩, [], false⟩⟩

theorem rowWise_charReference (texts : List Text) (special : Bool) :
    RowWise (fun text => charReference.encodeIds text special) texts
      (charReference.encodeBatchIds texts special) := by
  have hbatch : charReference.encodeBatchIds texts special = .ok (texts.map charIds) := rfl
  rw [hbatch]
  show List.Forall₂ _ texts (texts.map charIds)
  rw [List.forall₂_map_right_iff, List.forall₂_same]
  exact fun _ _ => rfl

/-- A short text, one the GPU engine encodes, and one it faults on. -/
theorem encodeBatchIds_rowByRow_three :
    RowByRow gpuRouter gpuState [['a'], ['b', 'c'], ['D', 'e']] false := by
  have hanswers : ∀ fast, gpuRouter.fastCpu = some fast → fast.Answers fun text =>
      .ok (charIds text,
        ((charCpu.fullIdsWithSource text ()).1.toOption.map Prod.snd).getD .Gigatoken) := by
    rintro fast ⟨⟩
    exact answers_charCpu
  have hsame : ∀ fast, gpuRouter.fastCpu = some fast → fast.reference = gpuRouter.reference := by
    rintro fast ⟨⟩
    rfl
  have hgpu : .Gpu ∈ gpuRouter.chain → ∃ cell, gpuState.gpu = some cell ∧ ∀ gpu, cell.get.1 = .ok gpu →
      ∀ texts, gpu.encodeBatchIds texts = texts.map gpu.encodeIds := by
    refine fun _ => ⟨_, rfl, ?_⟩
    rintro gpu ⟨⟩ texts
    rfl
  have hcpu : gpuState.cpu.Healthy := ⟨rfl, rfl, by simp [gpuState]⟩
  exact encodeBatchIds_rowByRow hanswers hsame rowWise_charReference hgpu hcpu
    (.inl fun _ _ e h => by cases h) false

/-- The only worker of the batch pool is poisoned; the worker of single texts is not. -/
def poisonedState : RouterState Unit := ⟨.default, none, ⟨⟨(), false⟩, [⟨(), true⟩], false⟩⟩

/-- With a poisoned batch worker the batch goes to the reference engine, the row alone does not. -/
theorem poisoned_batch : ¬RowByRow charRouter poisonedState [['a']] false := by
  intro h
  obtain ⟨st', hbatch⟩ : ∃ st', (charRouter.encodeBatchIds [['a']] false).run poisonedState =
      .ok [⟨[97], "hf", none, some "hf_full", some "R_EXEC_FAULT"⟩] st' := ⟨_, rfl⟩
  obtain ⟨st'', hsingle⟩ : ∃ st'', (charRouter.encodeIds ['a'] false).run poisonedState =
      .ok ⟨[97], "fast_cpu", some "gigatoken", some "gigatoken_full", none⟩ st'' := ⟨_, rfl⟩
  unfold RowByRow at h
  rw [hbatch] at h
  obtain ⟨alone, hruns, hids, -⟩ := h
  cases hruns with
  | cons hrun hrest =>
      rw [hsingle] at hrun
      cases hrest
      rw [List.map_cons, List.map_nil, List.cons.injEq] at hids
      have hone := hids.1
      injection hrun with hrouted
      rw [← hrouted] at hone
      have hsource := congrArg RoutedIds.source hone
      cases hsource

end NativeRouter

end Toktier.Routing
