import Toktier.Routing.Router

/-!
# What a request of the router does to one text

For one text the router is a pure function of what its engines answer: each backend of the
chain serves the text, passes it on or fails. This file states that function and shows that a
single request computes it, counts the codes it gives and records one execution.

## Main definitions

* `Engines`, `Sees`: what the engines answer, and a state in which they do.
* `RowStep`, `rowStep`, `rowFrom`, `row`: the route of one text.
* `Progress`, `Executed`: what a request has counted and recorded so far.

## Main results

* `routeFrom_spec`, `routeIdsInternal_spec`: a request takes the route of its text.
-/
namespace Toktier.Routing

open Toktier.Lib Toktier.StoreCore Toktier.Chunked

variable {W : Type}

/-! ## The workers -/

/-- No lock of the engine is poisoned. -/
structure CpuState.Healthy (cpu : CpuState W) : Prop where
  primary : cpu.primary.poisoned = false
  pool : cpu.poolPoisoned = false
  workers : ∀ mutex ∈ cpu.workers, mutex.poisoned = false

/-- The answers of the engine do not depend on its memoization tables. -/
def CorrectedCpu.Answers (fast : CorrectedCpu W)
    (full : Text → Except EngineError (List UInt32 × FastEncodeSource)) : Prop :=
  ∀ text worker, (fast.fullIdsWithSource text worker).1 = full text

theorem encodeIdsWithSource_spec {fast : CorrectedCpu W}
    {full : Text → Except EngineError (List UInt32 × FastEncodeSource)} (hfull : fast.Answers full)
    {cpu : CpuState W} (hcpu : cpu.Healthy) (text : Text) :
    wp (fast.encodeIdsWithSource text) (fun out cpu' => full text = .ok out ∧ cpu'.Healthy)
      (fun f cpu' => ∃ e, f = .Reject e ∧ full text = .error e ∧ cpu'.Healthy) cpu := by
  unfold CorrectedCpu.encodeIdsWithSource
  have hlock : ∀ message, cpu.primary.lock message = .ok cpu.primary.value := fun message =>
    if_neg (by rw [hcpu.primary]; decide)
  have hafter : ({ cpu with primary := ⟨(fast.fullIdsWithSource text cpu.primary.value).2, false⟩ } :
      CpuState W).Healthy := ⟨rfl, hcpu.pool, hcpu.workers⟩
  simp only [wp_bind, wp_get, hlock, checked_ok, wp_fromExcept, wp_set, Except.ok.injEq]
  refine ⟨?_, fun e he => by cases he⟩
  rintro worker rfl
  refine ⟨fun out hout => ⟨?_, hafter⟩, fun f hf => ?_⟩
  · rw [checked_eq_ok] at hout
    rw [← hfull text cpu.primary.value, hout]
  · cases hrun : (fast.fullIdsWithSource text cpu.primary.value).1 with
    | ok out =>
        rw [hrun] at hf
        cases hf
    | error e =>
        rw [hrun] at hf
        cases hf
        exact ⟨e, rfl, by rw [← hfull text cpu.primary.value, hrun], hafter⟩

/-! ## States -/

/-- What the engines answer. -/
structure Engines where
  gpu : Except NativeRuntimeError NativeGpuEngine
  full : Text → Except EngineError (List UInt32 × FastEncodeSource)

/-- In this state the engines of the router answer so. -/
structure Sees (router : NativeRouter W) (engines : Engines) (st : RouterState W) : Prop where
  gpu : .Gpu ∈ router.chain → ∃ cell, st.gpu = some cell ∧ cell.get.1 = engines.gpu
  cpu : st.cpu.Healthy

/-- The cell behind a use of the GPU engine. -/
def openCell (gpu : Option GpuCell) : Option GpuCell := gpu.map fun cell => cell.get.2

@[simp] theorem get_get (cell : GpuCell) : cell.get.2.get = (cell.get.1, cell.get.2) := by
  unfold GpuCell.get
  cases h : cell.engine with
  | some engine => simp [h]
  | none => rfl

@[simp] theorem openCell_openCell (gpu : Option GpuCell) : openCell (openCell gpu) = openCell gpu := by
  cases gpu with
  | none => rfl
  | some cell => simp [openCell]

/-- The codes were counted, and the GPU engine was asked for or not. -/
structure Progress (st : RouterState W) (codes : List String) (opened : Bool) (st' : RouterState W) :
    Prop where
  fallbacks : ∀ code, st'.stats.fallbackCounts code = st.stats.fallbackCounts code + codes.count code
  executions : st'.stats.executionCounts = st.stats.executionCounts
  last : st'.stats.lastExecution = st.stats.lastExecution
  gpu : st'.gpu = if opened then openCell st.gpu else st.gpu
  healthy : st'.cpu.Healthy

theorem Progress.refl {st : RouterState W} (h : st.cpu.Healthy) : Progress st [] false st :=
  ⟨fun _ => rfl, rfl, rfl, rfl, h⟩

theorem ite_openCell (opened opened' : Bool) (gpu : Option GpuCell) :
    (if opened' then openCell (if opened then openCell gpu else gpu)
      else if opened then openCell gpu else gpu) =
      if opened || opened' then openCell gpu else gpu := by
  cases opened <;> cases opened' <;> simp

theorem Progress.trans {st st' st'' : RouterState W} {codes codes' : List String}
    {opened opened' : Bool} (h : Progress st codes opened st') (h' : Progress st' codes' opened' st'') :
    Progress st (codes ++ codes') (opened || opened') st'' where
  fallbacks code := by rw [h'.fallbacks, h.fallbacks, List.count_append, Nat.add_assoc]
  executions := h'.executions.trans h.executions
  last := h'.last.trans h.last
  gpu := by rw [h'.gpu, h.gpu, ite_openCell]
  healthy := h'.healthy

theorem Progress.sees {router : NativeRouter W} {engines : Engines} {st st' : RouterState W}
    {codes : List String} {opened : Bool} (h : Progress st codes opened st')
    (hs : Sees router engines st) : Sees router engines st' where
  cpu := h.healthy
  gpu hmem := by
    obtain ⟨cell, hcell, hget⟩ := hs.gpu hmem
    rw [h.gpu, hcell]
    cases opened with
    | false => exact ⟨cell, rfl, hget⟩
    | true => exact ⟨cell.get.2, rfl, by rw [get_get, hget]⟩

/-! ## The chain -/

namespace NativeRouter

variable (router : NativeRouter W)

theorem length_chain_pos : 0 < router.chain.length := by
  by_contra h
  have hnil : router.chain = [] := List.eq_nil_of_length_eq_zero (by omega)
  have hlast := router.getLast?_chain
  rw [hnil] at hlast
  cases hlast

theorem getElem?_chain_last : router.chain[router.chain.length - 1]? = some .Reference := by
  rw [← List.getLast?_eq_getElem?]
  exact router.getLast?_chain

/-- Behind every other backend of the chain there is one more. -/
theorem lt_of_ne_reference {index : ℕ} {backend : BackendKind}
    (h : router.chain[index]? = some backend) (hne : backend ≠ .Reference) :
    index + 1 < router.chain.length := by
  have hlt := (List.getElem?_eq_some_iff.mp h).1
  by_contra hge
  have hlast := router.getElem?_chain_last
  rw [show router.chain.length - 1 = index by omega, h] at hlast
  exact hne (Option.some.inj hlast)

theorem startIndex_lt (inputBytes : ℕ) : router.startIndex inputBytes < router.chain.length := by
  have hpos := router.length_chain_pos
  unfold startIndex
  cases h : router.thresholds.findIdx? fun threshold => decide (threshold ≤ inputBytes) with
  | none => simp only [Option.getD_none]; omega
  | some index =>
      obtain ⟨hlt, -⟩ := List.findIdx?_eq_some_iff_getElem.mp h
      rw [router.length_thresholds] at hlt
      simpa using hlt

theorem exists_backend {index : ℕ} (h : index < router.chain.length) :
    ∃ backend, router.chain[index]? = some backend := ⟨_, List.getElem?_eq_getElem h⟩

/-- The name of the backend at an index of the chain. -/
def nameAt (index : ℕ) : String := ((router.chain[index]?).map BackendKind.asStr).getD ""

theorem backendAt_eq {index : ℕ} (h : index < router.chain.length) :
    (router.backendAt index : Request W String) = pure (router.nameAt index) := by
  obtain ⟨backend, hb⟩ := router.exists_backend h
  unfold backendAt nameAt
  rw [getAt_of_some hb, hb]
  rfl

variable {router}

/-! ## The ledger -/

section
variable {st : RouterState W} {R : Fault EngineError → RouterState W → Prop}

theorem wp_recordEvent {Q : Unit → RouterState W → Prop} {code backend target : String}
    {detail : List (String × Json)} (hcpu : st.cpu.Healthy)
    (h : ∀ st', Progress st [code] false st' → Q () st') :
    wp (router.recordEvent code backend target detail) Q R st := by
  unfold recordEvent
  rw [wp_modify]
  refine h _ ⟨fun code' => ?_, rfl, rfl, rfl, hcpu⟩
  unfold increment
  by_cases hc : code' = code
  · simp [hc]
  · simp [hc, Ne.symm hc]

theorem wp_faultEvent {Q : Unit → RouterState W → Prop} {backend : String} {index : ℕ}
    {detail : List (String × Json)} (hcpu : st.cpu.Healthy) (hlt : index + 1 < router.chain.length)
    (h : ∀ st', Progress st [R_EXEC_FAULT] false st' → Q () st') :
    wp (router.faultEvent backend index detail) Q R st := by
  unfold faultEvent
  rw [router.backendAt_eq hlt, wp_bind, wp_pure]
  exact wp_recordEvent hcpu h

/-- One execution was recorded on top of the codes. -/
structure Executed (router : NativeRouter W) (st : RouterState W) (codes : List String)
    (opened : Bool) (inputBytes start : ℕ) (routed : RoutedIds) (st' : RouterState W) : Prop where
  fallbacks : ∀ code, st'.stats.fallbackCounts code = st.stats.fallbackCounts code + codes.count code
  executions : st'.stats.executionCounts = increment st.stats.executionCounts routed.backend
  last : st'.stats.lastExecution =
    some ⟨inputBytes, router.nameAt start, routed.backend, routed.source, routed.path⟩
  gpu : st'.gpu = if opened then openCell st.gpu else st.gpu
  healthy : st'.cpu.Healthy

theorem Executed.after {st' st'' : RouterState W} {codes codes' : List String}
    {opened opened' : Bool} {inputBytes start : ℕ} {routed : RoutedIds}
    (h' : router.Executed st' codes' opened' inputBytes start routed st'')
    (h : Progress st codes opened st') :
    router.Executed st (codes ++ codes') (opened || opened') inputBytes start routed st'' where
  fallbacks code := by rw [h'.fallbacks, h.fallbacks, List.count_append, Nat.add_assoc]
  executions := by rw [h'.executions, h.executions]
  last := h'.last
  gpu := by rw [h'.gpu, h.gpu, ite_openCell]
  healthy := h'.healthy

theorem wp_recordExecution {Q : Unit → RouterState W → Prop} {inputBytes start : ℕ}
    (routed : RoutedIds) (hcpu : st.cpu.Healthy) (hlt : start < router.chain.length)
    (h : ∀ st', router.Executed st [] false inputBytes start routed st' → Q () st') :
    wp (router.recordExecution routed.backend inputBytes start routed.source routed.path) Q R st := by
  unfold recordExecution
  rw [router.backendAt_eq hlt, wp_bind, wp_pure, wp_modify]
  exact h _ ⟨fun _ => rfl, rfl, rfl, rfl, hcpu⟩

end

/-! ## The engines -/

section
variable {st : RouterState W} {engines : Engines} {R : Fault EngineError → RouterState W → Prop}

theorem wp_gpuEngine {Q : Except NativeRuntimeError NativeGpuEngine → RouterState W → Prop}
    (hs : Sees router engines st) (hmem : .Gpu ∈ router.chain)
    (h : ∀ st', Progress st [] true st' → Q engines.gpu st') : wp gpuEngine Q R st := by
  obtain ⟨cell, hcell, hget⟩ := hs.gpu hmem
  unfold gpuEngine
  rw [wp_bind, wp_get, hcell]
  dsimp only
  rw [wp_bind, wp_set, wp_pure, hget]
  refine h _ ⟨fun _ => rfl, rfl, rfl, ?_, hs.cpu⟩
  simp [openCell, hcell]

/-- A request of the CPU engine that rejects returns the error as a value. -/
theorem wp_onCpu_iff {α : Type} {m : Fallible (CpuState W) (Fault EngineError) α}
    {Q : Except EngineError α → RouterState W → Prop} :
    wp (onCpu m) Q R st ↔ wp m (fun a cpu => Q (.ok a) { st with cpu := cpu })
      (fun f cpu => match f with
        | .Reject e => Q (.error e) { st with cpu := cpu }
        | .Panic => R .Panic { st with cpu := cpu }) st.cpu := by
  unfold wp onCpu
  simp only [EStateM.run]
  cases m st.cpu with
  | ok a cpu => rfl
  | error f cpu => cases f <;> rfl

theorem wp_onCpu {fast : CorrectedCpu W} {text : Text}
    {Q : Except EngineError (List UInt32 × FastEncodeSource) → RouterState W → Prop}
    (hs : Sees router engines st) (hfull : fast.Answers engines.full)
    (h : ∀ st', Progress st [] false st' → Q (engines.full text) st') :
    wp (onCpu (fast.encodeIdsWithSource text)) Q R st := by
  rw [wp_onCpu_iff]
  refine wp_mono (encodeIdsWithSource_spec hfull hs.cpu text) ?_ ?_
  · rintro out cpu ⟨hout, hcpu⟩
    rw [← hout]
    exact h _ ⟨fun _ => rfl, rfl, rfl, rfl, hcpu⟩
  · rintro f cpu ⟨e, rfl, herror, hcpu⟩
    dsimp only
    rw [← herror]
    exact h _ ⟨fun _ => rfl, rfl, rfl, rfl, hcpu⟩

end

/-! ## The route of one text -/

/-- The route of a text: where it ends, the codes counted on it, and whether the GPU engine was
asked for. -/
structure RowTrace where
  routed : RoutedIds
  codes : List String
  opened : Bool

/-- What a backend does with a text. -/
inductive RowStep
  | Served (routed : RoutedIds) (codes : List String)
  | Passed
  | Failed (e : EngineError)

variable (router) (engines : Engines) (text : Text)

/-- What the outcome of the CPU engine means for a text. -/
def fastStep (reason : Option String) :
    Except EngineError (List UInt32 × FastEncodeSource) → RowStep
  | .ok (ids, .Gigatoken) =>
      .Served ⟨ids, BACKEND_FAST_CPU, some "gigatoken", some "gigatoken_full", reason⟩ []
  | .ok (ids, .ReferenceAddedToken) =>
      .Served ⟨ids, BACKEND_REFERENCE, none, some "hf_added_token", some R_INPUT_ADDED_TOKEN⟩
        [R_INPUT_ADDED_TOKEN]
  | .ok (ids, .ReferenceEngineGuard) =>
      .Served ⟨ids, BACKEND_REFERENCE, none, some "hf_engine_guard", some R_INPUT_GUARD_ROUTED⟩
        [R_INPUT_GUARD_ROUTED]
  | .error _ => .Passed

/-- What the backend at an index does with the text. -/
def rowStep (index : ℕ) (reason : Option String) : RowStep :=
  match router.chain[index]? with
  | some .Gpu =>
      match engines.gpu with
      | .error _ => .Passed
      | .ok gpu =>
          match gpu.encodeIds text with
          | .ok ids => .Served ⟨ids, BACKEND_GPU, some gpu.delivery, some "gpu_full", reason⟩ []
          | .error _ => .Passed
  | some .FastCpu => fastStep reason (engines.full text)
  | some .Reference =>
      match router.reference.encodeIds text false with
      | .ok ids => .Served ⟨ids, BACKEND_REFERENCE, none, some "hf_full", reason⟩ []
      | .error e => .Failed e
  | none => .Failed ⟨"native fallback chain terminated without hf"⟩

/-- The route from an index of the chain on. -/
def rowFrom : List ℕ → Option String → Except EngineError RowTrace
  | [], _ => .error ⟨"native fallback chain terminated without hf"⟩
  | index :: rest, reason =>
      let opened := decide (router.chain[index]? = some .Gpu)
      match router.rowStep engines text index reason with
      | .Served routed codes => .ok ⟨routed, codes, opened⟩
      | .Passed => (rowFrom rest (some R_EXEC_FAULT)).map fun trace =>
          ⟨trace.routed, R_EXEC_FAULT :: trace.codes, opened || trace.opened⟩
      | .Failed e => .error e

/-- The crossover code of a text. -/
def belowReason (start : ℕ) : Option String :=
  if router.chain.head? = some .Gpu ∧ 0 < start then some R_INPUT_BELOW_GPU_THRESHOLD else none

/-- What the reference engine says of the added tokens of a text. -/
def addedOf : Except EngineError (Option (List UInt32)) :=
  if router.chain[router.startIndex (utf8Len text)]? = some .Reference then .ok none
  else router.exactAddedReferenceIds text

/-- The backends of a text. -/
def backendsFrom (start : ℕ) : List ℕ := List.range' start (router.chain.length - start)

/-- The route of a text. -/
def row : Except EngineError RowTrace :=
  let start := router.startIndex (utf8Len text)
  let below := router.belowReason start
  match router.addedOf text with
  | .error e => .error e
  | .ok (some ids) => .ok ⟨⟨ids, BACKEND_REFERENCE, none, some "hf_added_token",
      some R_INPUT_ADDED_TOKEN⟩, below.toList ++ [R_INPUT_ADDED_TOKEN], false⟩
  | .ok none => (router.rowFrom engines text (router.backendsFrom start) below).map fun trace =>
      ⟨trace.routed, below.toList ++ trace.codes, trace.opened⟩

/-! ## Requests take the route -/

section
variable {router} {engines : Engines} {text : Text} {st : RouterState W} {start : ℕ}

/-- Every corrected CPU engine of the router gives these answers. -/
def Answering (router : NativeRouter W) (engines : Engines) : Prop :=
  ∀ fast, router.fastCpu = some fast → fast.Answers engines.full

/-- The request ended as the route does. -/
def Routed (router : NativeRouter W) (st : RouterState W) (text : Text) (start : ℕ)
    (route : Except EngineError RowTrace) (routed : RoutedIds) (st' : RouterState W) : Prop :=
  ∃ trace, route = .ok trace ∧ trace.routed = routed ∧
    router.Executed st trace.codes trace.opened (utf8Len text) start routed st'

/-- The request failed as the route does. -/
def Unrouted (route : Except EngineError RowTrace) (f : Fault EngineError) (_ : RouterState W) : Prop :=
  ∃ e, f = .Reject e ∧ route = .error e

theorem mem_chain {index : ℕ} {backend : BackendKind} (h : router.chain[index]? = some backend) :
    backend ∈ router.chain := List.mem_of_getElem? h

/-- A request that was served records its execution. -/
theorem wp_served {st' : RouterState W} {codes : List String} {opened : Bool} {routed : RoutedIds}
    {route : Except EngineError RowTrace} (hroute : route = .ok ⟨routed, codes, opened⟩)
    (h : Progress st codes opened st') (hstart : start < router.chain.length) :
    wp (do
        router.recordExecution routed.backend (utf8Len text) start routed.source routed.path
        return routed)
      (router.Routed st text start route) (Unrouted route) st' := by
  rw [wp_bind]
  refine wp_recordExecution _ h.healthy hstart fun st'' hexec => ?_
  rw [wp_pure]
  refine ⟨_, hroute, rfl, ?_⟩
  simpa using hexec.after h

/-- The request goes through the backends as the route does. -/
theorem routeFrom_spec (hfull : router.Answering engines) (hs : Sees router engines st)
    (hstart : start < router.chain.length) (indices : List ℕ)
    (hidx : ∀ index ∈ indices, index < router.chain.length) (reason : Option String) :
    wp (router.routeFrom text start indices reason)
      (router.Routed st text start (router.rowFrom engines text indices reason))
      (Unrouted (router.rowFrom engines text indices reason)) st := by
  induction indices generalizing reason st with
  | nil => exact ⟨_, rfl, rfl⟩
  | cons index rest ih =>
      obtain ⟨backend, hbackend⟩ := router.exists_backend (hidx index (by simp))
      obtain ⟨opened, hopened⟩ : ∃ opened, decide (router.chain[index]? = some .Gpu) = opened :=
        ⟨_, rfl⟩
      -- a fault is counted, and the request goes on as it would from there
      have hpass : backend ≠ .Reference → router.rowStep engines text index reason = .Passed →
          ∀ name detail st₁, Progress st [] opened st₁ →
            wp (do
                router.faultEvent name index detail
                router.routeFrom text start rest (some R_EXEC_FAULT))
              (router.Routed st text start (router.rowFrom engines text (index :: rest) reason))
              (Unrouted (router.rowFrom engines text (index :: rest) reason)) st₁ := by
        intro hne hstep name detail st₁ h₁
        have hroute : router.rowFrom engines text (index :: rest) reason =
            (router.rowFrom engines text rest (some R_EXEC_FAULT)).map fun trace =>
              ⟨trace.routed, R_EXEC_FAULT :: trace.codes, opened || trace.opened⟩ := by
          rw [rowFrom, hstep, hopened]
        rw [wp_bind]
        refine wp_faultEvent h₁.healthy (router.lt_of_ne_reference hbackend hne) fun st₂ h₂ => ?_
        have h₁₂ := h₁.trans h₂
        refine wp_mono (ih (h₁₂.sees hs) (fun i hi => hidx i (by simp [hi])) (some R_EXEC_FAULT)) ?_ ?_
        · rintro routed st₃ ⟨trace, htrace, rfl, hexec⟩
          refine ⟨⟨trace.routed, R_EXEC_FAULT :: trace.codes, opened || trace.opened⟩,
            by rw [hroute, htrace]; rfl, rfl, ?_⟩
          simpa using hexec.after h₁₂
        · rintro f st₃ ⟨e, rfl, herror⟩
          exact ⟨e, rfl, by rw [hroute, herror]; rfl⟩
      have hserve : ∀ routed codes, router.rowStep engines text index reason = .Served routed codes →
          router.rowFrom engines text (index :: rest) reason = .ok ⟨routed, codes, opened⟩ := by
        intro routed codes hstep
        rw [rowFrom, hstep, hopened]
      rw [routeFrom, getAt_of_some hbackend, wp_bind, wp_fromExcept]
      refine ⟨?_, fun e he => by cases he⟩
      rintro _ ⟨⟩
      cases backend with
      | Gpu =>
          have htrue : opened = true := by rw [← hopened, hbackend]; rfl
          dsimp only
          rw [wp_bind]
          refine wp_gpuEngine hs (mem_chain hbackend) fun st₁ h₁ => ?_
          rw [← htrue] at h₁
          cases hgpu : engines.gpu with
          | error error =>
              exact hpass (by decide) (by rw [rowStep, hbackend]; dsimp only; rw [hgpu]) _ _ _ h₁
          | ok gpu =>
              dsimp only
              cases hids : gpu.encodeIds text with
              | ok ids =>
                  have hstep : router.rowStep engines text index reason = .Served
                      ⟨ids, BACKEND_GPU, some gpu.delivery, some "gpu_full", reason⟩ [] := by
                    rw [rowStep, hbackend]
                    dsimp only
                    rw [hgpu]
                    dsimp only
                    rw [hids]
                  exact wp_served (hserve _ _ hstep) h₁ hstart
              | error error =>
                  refine hpass (by decide) ?_ _ _ _ h₁
                  rw [rowStep, hbackend]
                  dsimp only
                  rw [hgpu]
                  dsimp only
                  rw [hids]
      | FastCpu =>
          have hfalse : opened = false := by rw [← hopened, hbackend]; rfl
          have hstep : router.rowStep engines text index reason =
              fastStep reason (engines.full text) := by
            rw [rowStep, hbackend]
          obtain ⟨fast, hfast⟩ := Option.isSome_iff_exists.mp (router.fastCpu_of_mem (mem_chain hbackend))
          dsimp only
          rw [fastEngine, hfast, wp_bind, wp_pure, wp_bind]
          refine wp_onCpu hs (hfull fast hfast) fun st₁ h₁ => ?_
          rw [← hfalse] at h₁
          match hout : engines.full text with
          | .error error => exact hpass (by decide) (by rw [hstep, hout]; rfl) _ _ _ h₁
          | .ok (ids, .Gigatoken) =>
              exact wp_served (hserve ⟨ids, BACKEND_FAST_CPU, some "gigatoken", some "gigatoken_full",
                reason⟩ [] (by rw [hstep, hout]; rfl)) h₁ hstart
          | .ok (ids, .ReferenceAddedToken) =>
              dsimp only [fastCpuReferencePath]
              rw [wp_bind, wp_bind]
              refine wp_recordEvent h₁.healthy fun st₂ h₂ => ?_
              exact wp_served (hserve ⟨ids, BACKEND_REFERENCE, none, some "hf_added_token",
                some R_INPUT_ADDED_TOKEN⟩ [R_INPUT_ADDED_TOKEN] (by rw [hstep, hout]; rfl))
                (by simpa using h₁.trans h₂) hstart
          | .ok (ids, .ReferenceEngineGuard) =>
              dsimp only [fastCpuReferencePath]
              rw [wp_bind, wp_bind]
              refine wp_recordEvent h₁.healthy fun st₂ h₂ => ?_
              exact wp_served (hserve ⟨ids, BACKEND_REFERENCE, none, some "hf_engine_guard",
                some R_INPUT_GUARD_ROUTED⟩ [R_INPUT_GUARD_ROUTED] (by rw [hstep, hout]; rfl))
                (by simpa using h₁.trans h₂) hstart
      | Reference =>
          have hfalse : opened = false := by rw [← hopened, hbackend]; rfl
          dsimp only [raise]
          rw [wp_bind, wp_fromExcept]
          refine ⟨fun ids hids => ?_, fun f hf => ?_⟩
          · rw [checked_eq_ok] at hids
            have hstep : router.rowStep engines text index reason = .Served
                ⟨ids, BACKEND_REFERENCE, none, some "hf_full", reason⟩ [] := by
              rw [rowStep, hbackend]
              dsimp only
              rw [hids]
            refine wp_served (hserve _ _ hstep) ?_ hstart
            rw [hfalse]
            exact Progress.refl hs.cpu
          · cases hids : router.reference.encodeIds text false with
            | ok ids =>
                rw [hids] at hf
                cases hf
            | error e =>
                rw [hids] at hf
                cases hf
                refine ⟨e, rfl, ?_⟩
                rw [rowFrom, rowStep, hbackend]
                dsimp only
                rw [hids]

/-- What is known of a text before its backends are tried. -/
theorem wp_belowGpuThresholdEvent {Q : Option String → RouterState W → Prop}
    {R : Fault EngineError → RouterState W → Prop} {inputBytes : ℕ} (hcpu : st.cpu.Healthy)
    (hstart : start < router.chain.length)
    (h : ∀ st', Progress st (router.belowReason start).toList false st' →
      Q (router.belowReason start) st') :
    wp (router.belowGpuThresholdEvent inputBytes start) Q R st := by
  unfold belowGpuThresholdEvent belowReason at *
  split_ifs at h ⊢ with hbelow
  · have hpos : 0 < router.thresholds.length := by
      rw [router.length_thresholds]
      omega
    rw [router.backendAt_eq hstart, wp_bind, wp_pure, wp_bind,
      getAt_of_some (List.getElem?_eq_getElem hpos), wp_fromExcept]
    refine ⟨fun threshold _ => ?_, fun e he => by cases he⟩
    rw [wp_bind]
    exact wp_recordEvent hcpu fun st' h' => h st' h'
  · exact h st (Progress.refl hcpu)

/-- A single request takes the route of its text. -/
theorem routeIdsInternal_spec (hfull : router.Answering engines) (hs : Sees router engines st) :
    wp (router.routeIdsInternal text)
      (router.Routed st text (router.startIndex (utf8Len text)) (router.row engines text))
      (Unrouted (router.row engines text)) st := by
  have hstart := router.startIndex_lt (utf8Len text)
  unfold routeIdsInternal row addedOf
  dsimp only
  generalize router.startIndex (utf8Len text) = start at *
  rw [wp_bind]
  refine wp_belowGpuThresholdEvent hs.cpu hstart fun st₁ h₁ => ?_
  generalize router.belowReason start = below at *
  obtain ⟨first, hfirst⟩ := router.exists_backend hstart
  rw [wp_bind, getAt_of_some hfirst, wp_fromExcept]
  refine ⟨?_, fun e he => by cases he⟩
  rintro _ ⟨⟩
  -- without an added token the backends are tried
  have hbackends : wp (router.routeFrom text start (router.backendsFrom start) below)
      (router.Routed st text start ((router.rowFrom engines text (router.backendsFrom start) below).map
        fun trace => ⟨trace.routed, below.toList ++ trace.codes, trace.opened⟩))
      (Unrouted ((router.rowFrom engines text (router.backendsFrom start) below).map
        fun trace => ⟨trace.routed, below.toList ++ trace.codes, trace.opened⟩)) st₁ := by
    have hidx : ∀ index ∈ router.backendsFrom start, index < router.chain.length := by
      intro index hindex
      rw [backendsFrom, List.mem_range'_1] at hindex
      omega
    refine wp_mono (routeFrom_spec hfull (h₁.sees hs) hstart _ hidx below) ?_ ?_
    · rintro routed st₂ ⟨trace, htrace, rfl, hexec⟩
      refine ⟨⟨trace.routed, below.toList ++ trace.codes, trace.opened⟩, by rw [htrace]; rfl, rfl, ?_⟩
      simpa using hexec.after h₁
    · rintro f st₂ ⟨e, rfl, herror⟩
      exact ⟨e, rfl, by rw [herror]; rfl⟩
  simp only [hfirst, Option.some.injEq]
  by_cases href : first = .Reference
  · rw [if_pos href, if_pos href, wp_bind, wp_pure]
    exact hbackends
  · rw [if_neg href, if_neg href, wp_bind, raise, wp_fromExcept]
    refine ⟨fun added hadded => ?_, fun f hf => ?_⟩
    · rw [checked_eq_ok] at hadded
      rw [hadded]
      cases added with
      | none => exact hbackends
      | some ids =>
          dsimp only
          rw [wp_bind]
          refine wp_recordEvent h₁.healthy fun st₂ h₂ => ?_
          have h₁₂ : Progress st (below.toList ++ [R_INPUT_ADDED_TOKEN]) false st₂ := by
            simpa using h₁.trans h₂
          let routed : RoutedIds := ⟨ids, BACKEND_REFERENCE, none, some "hf_added_token",
            some R_INPUT_ADDED_TOKEN⟩
          have hroute : (Except.ok ⟨routed, below.toList ++ [R_INPUT_ADDED_TOKEN], false⟩ :
            Except EngineError RowTrace) = _ := rfl
          exact wp_served hroute h₁₂ hstart
    · cases hadded : router.exactAddedReferenceIds text with
      | ok added =>
          rw [hadded] at hf
          cases hf
      | error e =>
          rw [hadded] at hf
          cases hf
          exact ⟨e, rfl, rfl⟩

end

end NativeRouter

/-! ## An encoder with one token a character -/

def charIds (t : Text) : List UInt32 := t.map Char.val

/-- No added tokens, and no normalizer. -/
def charReference : IdReference where
  encodeCore _ := .error ⟨""⟩
  normalize := .ok
  rawByteLengths := .ok (List.replicate 128 1)
  encodeIds t _ := .ok (charIds t)
  encodeBatchIds ts _ := .ok (ts.map charIds)
  addedTokens := []
  hasEffectiveNormalizer := false

/-- The accelerated engine has nothing to memoize; all characters but the blank are letters. -/
def charCpu : CorrectedCpu Unit :=
  ⟨⟨0, 0, false, 4, 5, 2⟩, charReference, ⟨fun c => if c = ' ' then .S else .L⟩,
    fun _ t => (charIds t, ()), id⟩

def charRouter : NativeRouter Unit where
  chain := [.FastCpu, .Reference]
  thresholds := [0, 0]
  reference := charReference
  fastCpu := some charCpu
  hasGpu := false
  postprocessorAddsTokens := false
  diagnostics := false
  threads := 1
  length_thresholds := rfl
  getLast?_chain := rfl
  nodup_chain := by decide
  hasGpu_of_mem := by decide
  fastCpu_of_mem _ := rfl
  getLast?_thresholds := rfl

theorem answers_charCpu : charCpu.Answers fun text =>
    .ok (charIds text, ((charCpu.fullIdsWithSource text ()).1.toOption.map Prod.snd).getD .Gigatoken) := by
  rintro text ⟨⟩
  have hgate : charCpu.addedGate = ⟨[], false⟩ := rfl
  have hcandidate : charCpu.candidateReference text = .ok none := rfl
  unfold CorrectedCpu.fullIdsWithSource
  rw [hgate, hcandidate]
  dsimp only
  rw [if_neg (by decide)]
  cases hfast : charCpu.fastIdsWith text () with
  | mk outcome worker =>
      cases outcome with
      | error e => rfl
      | ok ids =>
          -- the accelerated row is returned as it is
          unfold CorrectedCpu.fastIdsWith at hfast
          split at hfast
          · cases hfast
          · rename_i hidentity
            have hrow : ((do charReference.verifyIdsClose text (charIds text); return charIds text), ()) =
              (Except.ok ids, worker) := hfast
            cases hclose : charReference.verifyIdsClose text (charIds text) with
            | error e =>
                rw [hclose] at hrow
                cases hrow
            | ok closed =>
                rw [hclose] at hrow
                cases hrow
                rfl

end Toktier.Routing
