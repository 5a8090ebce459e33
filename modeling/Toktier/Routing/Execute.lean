import Toktier.Frontend.Prefilter
import Toktier.Routing.Router

/-!
# The executor of a route plan

The Python executor follows an immutable plan. A native selector gives each input the first backend
of the chain whose threshold its size meets, and says whether the input may hold an added-token
literal. From there an input moves along the chain: to the next backend when one faults, and to the
reference backend at once when it holds a literal. Every move is counted under its reason, and every
result under the backend that gave it. A batch is grouped by starting backend, and a group falls down
the chain as a unit; when an input of the batch holds a literal, all inputs go one by one.

A text is what the backends take; its UTF-8 view is there unless the text has none.

## Main definitions

* `RoutePlan`, `RoutedExecutor`: what the constructors accept.
* `RoutedExecutor.decide`: the selector.
* `RoutedExecutor.encode`, `RoutedExecutor.encodeBatch`: one text, and a batch.
-/
namespace Toktier.Routing.Execute

open Toktier.Lib Toktier.Frontend Toktier.Chunked

/-! ## Backends and plans -/

/-- A failure that the routing layer may recover: its class, message and traceback, and the stage
that its details name. -/
structure BackendExecutionFault where
  name : String
  message : String
  stage : Option String
  traceback : String

/-- What a call raises: a recoverable fault, or an exception of another class. -/
inductive Failure
  | fault (exc : BackendExecutionFault)
  | other (name message : String)

/-- The part of a backend that the executor uses. -/
structure Encoder (τ : Type) where
  encode : τ → Bool → Except Failure (List ℕ)
  encodeBatch : List τ → Bool → Except Failure (List (List ℕ))

/-- The exact literal decision, and the prefixes of its native prefilter. -/
structure AddedTokenRouter (τ : Type) where
  holdsLiteral : τ → Bool
  nativePrefilterPrefixes : Option (List (ℤ × ℤ))

/-- An immutable plan. -/
structure RoutePlan where
  backend : String
  fallbackChain : List String
  getLast?_eq : fallbackChain.getLast? = some BACKEND_REFERENCE
  head?_eq : fallbackChain.head? = some backend
  nodup : fallbackChain.Nodup

/-- What the constructors refuse. -/
inductive Refusal
  | emptyChain
  | lastNotReference
  | headNotBackend
  | repeatedBackend
  | backendNotConstructed
  | thresholdOutsidePlan
  | thresholdNegative
  | referenceThreshold
  | thresholdTooBig
  | literalPrefix
  deriving DecidableEq

/-- `RoutePlan.__post_init__` -/
def RoutePlan.new (backend : String) (fallbackChain : List String) : Except Refusal RoutePlan :=
  if fallbackChain = [] then .error .emptyChain
  else if hlast : fallbackChain.getLast? = some BACKEND_REFERENCE then
    if hhead : fallbackChain.head? = some backend then
      if hnodup : fallbackChain.Nodup then .ok ⟨backend, fallbackChain, hlast, hhead, hnodup⟩
      else .error .repeatedBackend
    else .error .headNotBackend
  else .error .lastNotReference

/-! ## The selector -/

/-- How much the native layer can prove before it asks the exact frontend. -/
inductive LiteralPrefilter
  | Disabled
  | AlwaysCandidate
  | Prefixes (filter : PrefixFilter)

structure RouteDecision where
  inputBytes : Option ℕ
  startIndex : ℕ
  belowGpuThreshold : Bool
  literalCandidate : Bool

/-- The literal mode and its prefixes, as the executor hands them to the selector. -/
def literalsOf {τ : Type} (addedRouter : Option (AddedTokenRouter τ)) :
    Except Refusal LiteralPrefilter :=
  match addedRouter with
  | none => .ok .Disabled
  | some router =>
      match router.nativePrefilterPrefixes with
      | none => .ok .AlwaysCandidate
      | some prefixes =>
          match prefixes.mapM literalPrefix with
          | none => .error .literalPrefix
          | some prefixes => .ok (.Prefixes (PrefixFilter.new prefixes))

/-! ## The executor -/

/-- Runs one immutable plan over a set of constructed backends. -/
structure RoutedExecutor (τ : Type) where
  plan : RoutePlan
  backends : String → Option (Encoder τ)
  addedRouter : Option (AddedTokenRouter τ)
  diagnostics : Bool
  minimumInputBytes : List (String × ℕ)
  literals : LiteralPrefilter
  constructed : ∀ backend ∈ plan.fallbackChain, (backends backend).isSome = true
  reference_zero : (minimumInputBytes.lookup BACKEND_REFERENCE).getD 0 = 0
  literals_eq : literalsOf addedRouter = .ok literals

/-- `RoutedExecutor.__init__`; a threshold has to fit the selector's 64 bits. -/
def RoutedExecutor.new {τ : Type} (plan : RoutePlan) (backends : String → Option (Encoder τ))
    (addedRouter : Option (AddedTokenRouter τ)) (diagnostics : Bool)
    (minimumInputBytes : List (String × ℤ)) : Except Refusal (RoutedExecutor τ) :=
  if hconstructed : ∀ backend ∈ plan.fallbackChain, (backends backend).isSome = true then
    if ∃ p ∈ minimumInputBytes, p.1 ∉ plan.fallbackChain then
      .error .thresholdOutsidePlan
    else if ∃ p ∈ minimumInputBytes, p.2 < 0 then
      .error .thresholdNegative
    else
      let thresholds := minimumInputBytes.map fun p => (p.1, p.2.toNat)
      if hzero : (thresholds.lookup BACKEND_REFERENCE).getD 0 = 0 then
        if ∃ p ∈ thresholds, 2 ^ 64 ≤ p.2 then .error .thresholdTooBig
        else
          match hliterals : literalsOf addedRouter with
          | .error e => .error e
          | .ok literals =>
              .ok ⟨plan, backends, addedRouter, diagnostics, thresholds, literals, hconstructed, hzero,
                hliterals⟩
      else .error .referenceThreshold
  else .error .backendNotConstructed

/-- An executor runs the plan, the backends and the thresholds that it was constructed with. -/
theorem RoutedExecutor.of_new {τ : Type} {plan : RoutePlan} {backends : String → Option (Encoder τ)}
    {addedRouter : Option (AddedTokenRouter τ)} {diagnostics : Bool}
    {minimumInputBytes : List (String × ℤ)} {x : RoutedExecutor τ}
    (h : RoutedExecutor.new plan backends addedRouter diagnostics minimumInputBytes = .ok x) :
    x.plan = plan ∧ x.backends = backends ∧ x.addedRouter = addedRouter ∧ x.diagnostics = diagnostics ∧
      minimumInputBytes = (x.minimumInputBytes.map fun p => (p.1, (p.2 : ℤ))) ∧
      ∀ p ∈ x.minimumInputBytes, p.1 ∈ plan.fallbackChain ∧ p.2 < 2 ^ 64 := by
  unfold RoutedExecutor.new at h
  split_ifs at h with hconstructed hunknown hnegative
  dsimp only at h
  split_ifs at h with hzero hbig
  split at h
  · cases h
  next literals hliterals =>
  obtain rfl := Except.ok.inj h
  push Not at hunknown hnegative hbig
  refine ⟨rfl, rfl, rfl, rfl, ?_, fun p hp => ?_⟩
  · rw [List.map_map]
    refine (List.map_id _).symm.trans (List.map_congr_left fun p hp => ?_)
    exact Prod.ext rfl (Int.toNat_of_nonneg (hnegative p hp)).symm
  · refine ⟨?_, hbig p hp⟩
    obtain ⟨q, hq, rfl⟩ := List.mem_map.mp hp
    exact hunknown q hq

/-- One recorded runtime routing decision. -/
structure FallbackEvent where
  code : String
  backend : String
  target : String
  detail : List (String × Json)

/-- The most recent starting and finishing route. -/
structure LastExecution where
  inputBytes : Option ℕ
  selectedStart : String
  executedBackend : String

/-- What the calls of an executor change. -/
structure Ledger where
  counts : String → ℕ
  events : List FallbackEvent
  executionCounts : String → ℕ
  lastExecution : Option LastExecution

/-- The ledger of a new executor. -/
def Ledger.empty : Ledger := ⟨fun _ => 0, [], fun _ => 0, none⟩

/-- A call of the executor. -/
abbrev Request (α : Type) := Fallible Ledger Failure α

def indexError : Failure := .other "IndexError" "tuple index out of range"

namespace RoutedExecutor

variable {τ : Type} (x : RoutedExecutor τ)

def chain : List String := x.plan.fallbackChain

def thresholds : List ℕ := x.chain.map fun backend => (x.minimumInputBytes.lookup backend).getD 0

/-- `_reference_index` -/
def referenceIndex : ℕ := x.chain.length - 1

/-- `chain[index]` -/
def backendAt (index : ℕ) : Request String :=
  match x.chain[index]? with
  | some backend => pure backend
  | none => throw indexError

/-- `self._backends[backend_id]` -/
def encoder (backend : String) : Request (Encoder τ) :=
  match x.backends backend with
  | some encoder => pure encoder
  | none => throw (.other "KeyError" backend)

section Selector

variable [Memchr]

/-- `RouteSelector::decide` -/
def decide (input : Option (List UInt8)) : RouteDecision :=
  match input with
  | none => ⟨none, x.referenceIndex, false, false⟩
  | some bytes =>
      let size := bytes.length
      let start := (x.thresholds.findIdx? fun threshold => threshold ≤ size).getD x.referenceIndex
      { inputBytes := some size
        startIndex := start
        belowGpuThreshold := x.chain.head? = some BACKEND_GPU ∧ 0 < start
        literalCandidate :=
          if start = x.referenceIndex then false
          else
            match x.literals with
            | .Disabled => false
            | .AlwaysCandidate => true
            | .Prefixes filter => filter.mayMatch bytes }

end Selector

/-! ### The ledger -/

/-- `_record` -/
def record (code backend target : String) (detail : List (String × Json)) : Request Unit :=
  modify fun st => { st with
    counts := increment st.counts code
    events := if x.diagnostics then st.events ++ [⟨code, backend, target, detail⟩] else st.events }

/-- `_record_execution` -/
def recordExecution (backend : String) (inputBytes : Option ℕ) (selectedStart : ℕ) : Request Unit := do
  let start ← x.backendAt selectedStart
  modify fun st => { st with
    executionCounts := increment st.executionCounts backend
    lastExecution := some ⟨inputBytes, start, backend⟩ }

/-- The reason of a recoverable route. -/
def faultCode (exc : BackendExecutionFault) : String :=
  if exc.stage = some "add_special_tokens" then R_INPUT_POSTPROCESS_ROUTED else R_EXEC_FAULT

/-- `_record_fault` -/
def recordFault (exc : BackendExecutionFault) (backend target scope : String) : Request Unit :=
  x.record (faultCode exc) backend target
    ([("error", .str exc.name), ("message", .str exc.message), ("scope", .str scope)] ++
      (if faultCode exc = R_INPUT_POSTPROCESS_ROUTED then [("stage", .str (exc.stage.getD ""))] else []) ++
      if x.diagnostics then [("traceback", .str exc.traceback)] else [])

/-! ### One text -/

/-- Before the reference backend, there is a next one. -/
theorem lt_referenceIndex {index : ℕ} {backend : String} (h : x.chain[index]? = some backend)
    (hne : backend ≠ BACKEND_REFERENCE) : index < x.referenceIndex := by
  have hlast := x.plan.getLast?_eq
  obtain ⟨hlt, hget⟩ := List.getElem?_eq_some_iff.mp h
  rw [List.getLast?_eq_getElem?] at hlast
  unfold referenceIndex
  by_contra hge
  have hindex : index = x.chain.length - 1 := by omega
  subst hindex
  exact hne (Option.some.inj (h.symm.trans hlast))

theorem referenceIndex_lt : x.referenceIndex < x.chain.length := by
  have hlast := x.plan.getLast?_eq
  rw [List.getLast?_eq_getElem?] at hlast
  exact (List.getElem?_eq_some_iff.mp hlast).1

/-- `_encode_from`, with the literal decision made. -/
def encodeFrom (index : ℕ) (text : τ) (addSpecialTokens holdsLiteral : Bool) (inputBytes : Option ℕ)
    (selectedStart : ℕ) : Request (List ℕ) :=
  match _h : x.chain[index]? with
  | none => throw indexError
  | some backend =>
      if _hreference : backend = BACKEND_REFERENCE then do
        let encoder ← x.encoder backend
        let result ← fromExcept (encoder.encode text addSpecialTokens)
        x.recordExecution backend inputBytes selectedStart
        return result
      else if x.addedRouter.isSome ∧ holdsLiteral then do
        let target ← x.backendAt x.referenceIndex
        x.record R_INPUT_ADDED_TOKEN backend target []
        encodeFrom x.referenceIndex text addSpecialTokens holdsLiteral inputBytes selectedStart
      else do
        let encoder ← x.encoder backend
        match encoder.encode text addSpecialTokens with
        | .ok result => do
            x.recordExecution backend inputBytes selectedStart
            return result
        | .error (.fault exc) => do
            let target ← x.backendAt (index + 1)
            x.recordFault exc backend target "input"
            encodeFrom (index + 1) text addSpecialTokens holdsLiteral inputBytes selectedStart
        | .error failure => throw failure
termination_by x.chain.length - index
decreasing_by
  · have := x.lt_referenceIndex _h _hreference
    have := x.referenceIndex_lt
    omega
  · have := (List.getElem?_eq_some_iff.mp _h).1
    omega

section Requests

variable [Memchr] (utf8View : τ → Option (List UInt8))

/-- `_starting_route` -/
def startingRoute (text : τ) : Request (Option ℕ × ℕ × Bool) := do
  let decision := x.decide (utf8View text)
  if decision.belowGpuThreshold then do
    let target ← x.backendAt decision.startIndex
    x.record R_INPUT_BELOW_GPU_THRESHOLD BACKEND_GPU target
      [("input_bytes", match decision.inputBytes with
          | some size => .num size
          | none => .null),
        ("threshold_bytes", .num ((x.minimumInputBytes.lookup BACKEND_GPU).getD 0 : ℕ))]
  let holdsLiteral := decision.literalCandidate && x.addedRouter.any fun router => router.holdsLiteral text
  return (decision.inputBytes, decision.startIndex, holdsLiteral)

def encode (text : τ) (addSpecialTokens : Bool) : Request (List ℕ) := do
  let (inputBytes, start, holdsLiteral) ← x.startingRoute utf8View text
  x.encodeFrom start text addSpecialTokens holdsLiteral inputBytes start

end Requests

/-! ### A batch -/

/-- `_encode_batch_from` -/
def encodeBatchFrom (index : ℕ) (texts : List τ) (addSpecialTokens : Bool)
    (inputBytes : List (Option ℕ)) (selectedStart : ℕ) : Request (List (List ℕ)) :=
  match _h : x.chain[index]? with
  | none => throw indexError
  | some backend => do
      let encoder ← x.encoder backend
      match encoder.encodeBatch texts addSpecialTokens with
      | .ok rows => do
          inputBytes.forM fun size => x.recordExecution backend size selectedStart
          return rows
      | .error (.fault exc) =>
          if backend = BACKEND_REFERENCE then throw (.fault exc)
          else do
            let target ← x.backendAt (index + 1)
            texts.forM fun _ => x.recordFault exc backend target "batch"
            encodeBatchFrom (index + 1) texts addSpecialTokens inputBytes selectedStart
      | .error failure => throw failure
termination_by x.chain.length - index
decreasing_by
  have := (List.getElem?_eq_some_iff.mp _h).1
  omega

end RoutedExecutor

/-- `groups.setdefault(start, []).append(position)` -/
def appendTo (start position : ℕ) : List (ℕ × List ℕ) → List (ℕ × List ℕ)
  | [] => [(start, [position])]
  | (key, positions) :: groups =>
      if key = start then (key, positions ++ [position]) :: groups
      else (key, positions) :: appendTo start position groups

/-- The positions by starting index, in the order in which the indices come up. -/
def groupStarts (groups : List (ℕ × List ℕ)) (position : ℕ) : List ℕ → List (ℕ × List ℕ)
  | [] => groups
  | start :: starts => groupStarts (appendTo start position groups) (position + 1) starts

/-- `output[index] = result_row` for the pairs, in order. -/
def fill (output : List (Option (List ℕ))) : List (ℕ × List ℕ) → List (Option (List ℕ))
  | [] => output
  | (position, row) :: rows => fill (output.set position (some row)) rows

namespace RoutedExecutor

variable {τ : Type} (x : RoutedExecutor τ)

/-- One group: its rows go to their places. -/
def encodeGroup (texts : List τ) (routes : List (Option ℕ × ℕ × Bool)) (addSpecialTokens : Bool)
    (output : List (Option (List ℕ))) (group : ℕ × List ℕ) : Request (List (Option (List ℕ))) := do
  let rows ← x.encodeBatchFrom group.1 (group.2.filterMap fun position => texts[position]?)
    addSpecialTokens (group.2.filterMap fun position => routes[position]?.map Prod.fst) group.1
  if rows.length = group.2.length then return fill output (group.2.zip rows)
  else throw (.other "ValueError" "zip() arguments have different lengths")

section Requests

variable [Memchr] (utf8View : τ → Option (List UInt8))

def encodeBatch (texts : List τ) (addSpecialTokens : Bool) : Request (List (List ℕ)) := do
  if texts.isEmpty then return []
  else do
    let routes ← texts.mapM (x.startingRoute utf8View)
    if routes.any fun route => route.2.2 then
      (texts.zip routes).mapM fun (text, inputBytes, start, holdsLiteral) =>
        x.encodeFrom start text addSpecialTokens holdsLiteral inputBytes start
    else do
      let groups := groupStarts [] 0 (routes.map fun route => route.2.1)
      let output ← groups.foldlM (x.encodeGroup texts routes addSpecialTokens)
        (List.replicate texts.length none)
      match output.mapM id with
      | some rows => return rows
      | none => throw (.other "RuntimeError" "a routed batch did not produce every output row")

end Requests

end RoutedExecutor

end Toktier.Routing.Execute
