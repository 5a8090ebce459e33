import Toktier.Routing.Plan
import Toktier.Lib.Decode

/-!
# Laws of the route plan

A backend is eligible exactly when the policy lets every call of its checks pass. The calls do
not depend on the policy, but for the first check of `REFERENCE`; so what one policy lets pass
is compared call by call.

## Main definitions

* `Call.Passes`: the policy goes on after the call.
* `Eligible`: the planner finds the backend eligible.

## Main results

* `eligible_iff`: eligibility as a statement about every call.
* `plan_eq_ok`: what a plan consists of.
* `routing_policy`: looser policies admit more, and a plan explains what it leaves out.
-/
namespace Toktier.Routing.Plan

open Toktier.Lib

/-! ## Calls that pass -/

/-- The policy goes on after the call. -/
def Call.Passes (policy : RoutingPolicy) : Call → Prop
  | .refuse _ waivable coverage noted => noted = true ∨ (waivable = true ∧ policy = .EXPERIMENTAL) ∨
      (coverage = true ∧ policy.admitsUnjudgedDevice = true)
  | .raises _ => False

/-- The call refuses nothing: it is reported only. -/
def Call.IsNote : Call → Prop
  | .refuse _ _ _ noted => noted = true
  | .raises _ => False

/-- The call refuses a combination that nobody has measured. -/
def Call.IsCoverage : Call → Prop
  | .refuse _ _ coverage _ => coverage = true
  | .raises _ => False

/-- The refusal speaks about the backend, and one of coverage may be waived. -/
def Call.Speaks (backend : String) : Call → Prop
  | .refuse reason waivable coverage _ => reason.backend = backend ∧ (coverage = true → waivable = true)
  | .raises _ => True

variable {backend : String} {policy : RoutingPolicy} {calls : List Call}
  {waived supported : List PlanReason} {a : BackendAssessment}

/-- A call that passes leaves the run to the rest. -/
theorem runCalls_of_passes (backend : String) (calls : List Call) {call : Call} (h : call.Passes policy)
    (waived supported : List PlanReason) :
    ∃ waived' supported', runCalls backend policy (call :: calls) waived supported =
      runCalls backend policy calls waived' supported' := by
  cases call with
  | raises error => exact h.elim
  | refuse reason waivable coverage noted =>
      rw [runCalls]
      split_ifs with hnoted hwaived hcoverage
      · exact ⟨_, _, rfl⟩
      · exact ⟨_, _, rfl⟩
      · exact ⟨_, _, rfl⟩
      · rcases h with h | h | h
        · exact absurd h hnoted
        · exact absurd h hwaived
        · exact absurd h hcoverage

/-- A refusal that does not pass ends the run. -/
theorem runCalls_of_refuse {reason : PlanReason} {waivable coverage noted : Bool}
    (h : ¬(Call.refuse reason waivable coverage noted).Passes policy) :
    runCalls backend policy (.refuse reason waivable coverage noted :: calls) waived supported =
      .ok ⟨backend, false, some reason, waived, supported⟩ := by
  rw [runCalls, if_neg fun hn => h (.inl hn), if_neg fun hw => h (.inr (.inl hw)),
    if_neg fun hc => h (.inr (.inr hc))]

theorem runCalls_passes (backend : String) (h : ∀ call ∈ calls, call.Passes policy)
    (waived supported : List PlanReason) : ∃ waived' supported', runCalls backend policy calls waived supported =
      .ok ⟨backend, true, none, waived', supported'⟩ := by
  induction calls generalizing waived supported with
  | nil => exact ⟨_, _, rfl⟩
  | cons call calls ih =>
      obtain ⟨waived', supported', hrun⟩ :=
        runCalls_of_passes backend calls (h call List.mem_cons_self) waived supported
      rw [hrun]
      exact ih (fun c hc => h c (List.mem_cons_of_mem _ hc)) _ _

/-- What an assessment says: every call passed, or the first that did not is the reason. -/
theorem runCalls_eq_ok (h : runCalls backend policy calls waived supported = .ok a) :
    a.backend = backend ∧
      ((a.eligible = true ∧ a.blocking = none ∧ ∀ call ∈ calls, call.Passes policy) ∨
        (a.eligible = false ∧ ∃ reason waivable coverage noted,
          .refuse reason waivable coverage noted ∈ calls ∧
          ¬(Call.refuse reason waivable coverage noted).Passes policy ∧ a.blocking = some reason)) := by
  induction calls generalizing waived supported with
  | nil =>
      cases h
      exact ⟨rfl, .inl ⟨rfl, rfl, fun _ hc => absurd hc List.not_mem_nil⟩⟩
  | cons call calls ih =>
      by_cases hpass : call.Passes policy
      · obtain ⟨waived', supported', hrun⟩ :=
          runCalls_of_passes backend calls hpass waived supported
        rw [hrun] at h
        obtain ⟨hbackend, ⟨he, hb, hall⟩ | ⟨he, reason, w, c, n, hmem, hrest⟩⟩ := ih h
        · refine ⟨hbackend, .inl ⟨he, hb, fun c hc => ?_⟩⟩
          rcases List.mem_cons.mp hc with rfl | hc
          · exact hpass
          · exact hall c hc
        · exact ⟨hbackend, .inr ⟨he, reason, w, c, n, List.mem_cons_of_mem _ hmem, hrest⟩⟩
      · cases call with
        | raises error => cases h
        | refuse reason waivable coverage noted =>
            rw [runCalls_of_refuse hpass] at h
            cases h
            exact ⟨rfl, .inr ⟨rfl, reason, waivable, coverage, noted, List.mem_cons_self, hpass, rfl⟩⟩

/-! ## The calls of the checks -/

section Calls

variable {snapshot : ProbeSnapshot} {registry : RegistryView} {config : Config} {call : Call}

@[simp] theorem mem_callIf {c : Prop} [Decidable c] {call' : Call} :
    call ∈ callIf c call' ↔ c ∧ call = call' := by
  unfold callIf
  split_ifs with h <;> simp [h]

theorem speaks_refusal {reason : PlanReason} {waivable : Bool} (h : reason.backend = backend) :
    (refusal reason waivable).Speaks backend := ⟨h, fun hc => by cases hc⟩

theorem speaks_machineCalls (h : call ∈ machineCalls backend snapshot policy config) :
    call.Speaks backend := by
  unfold machineCalls at h
  simp only [List.mem_append, mem_callIf] at h
  rcases h with ((⟨-, rfl⟩ | ⟨-, rfl⟩) | ⟨-, rfl⟩) | ⟨-, rfl⟩
  · exact speaks_refusal rfl
  · exact speaks_refusal rfl
  · exact speaks_refusal rfl
  · split
    · exact speaks_refusal rfl
    · exact speaks_refusal rfl

theorem speaks_statusCalls {found : CertificationMatch} {entry : BackendEntry}
    (h : call ∈ statusCalls backend snapshot found entry) : call.Speaks backend := by
  unfold statusCalls at h
  split_ifs at h
  · rw [List.mem_singleton] at h
    subst h
    exact speaks_refusal rfl
  · rw [List.mem_singleton] at h
    subst h
    exact ⟨rfl, fun _ => rfl⟩
  · cases h
  · rw [List.mem_singleton] at h
    subst h
    exact speaks_refusal rfl

theorem speaks_deliveryCalls {refined : Option Binding}
    (h : call ∈ deliveryCalls backend snapshot refined) : call.Speaks backend := by
  cases refined with
  | none => cases h
  | some view =>
      simp only [deliveryCalls, List.mem_append, mem_callIf] at h
      rcases h with ⟨-, rfl⟩ | ⟨-, rfl⟩
      · exact speaks_refusal rfl
      · exact speaks_refusal rfl

theorem speaks_processCalls {record : ArtifactRecord}
    (h : call ∈ processCalls backend snapshot registry record) : call.Speaks backend := by
  simp only [processCalls, List.mem_append, mem_callIf] at h
  rcases h with (⟨-, rfl⟩ | ⟨-, rfl⟩) | ⟨-, rfl⟩
  · exact speaks_refusal rfl
  · exact speaks_refusal rfl
  · exact speaks_refusal rfl

theorem speaks_engineCalls {entry : Binding} {facts : FastCpuEngineFacts}
    (h : call ∈ engineCalls backend entry facts) : call.Speaks backend := by
  simp only [engineCalls, List.mem_append, List.mem_map] at h
  rcases h with ⟨mismatch, -, rfl⟩ | ⟨divergence, -, rfl⟩
  · exact speaks_refusal rfl
  · exact ⟨rfl, fun _ => rfl⟩

variable [DigitTables]

theorem speaks_kernelCalls {view : Binding} (h : call ∈ kernelCalls backend snapshot view) :
    call.Speaks backend := by
  simp only [kernelCalls, List.mem_append, mem_callIf, List.mem_map] at h
  rcases h with ((((⟨-, rfl⟩ | h) | ⟨-, rfl⟩) | ⟨digest, -, rfl⟩) | ⟨mismatch, -, rfl⟩) | h
  · exact ⟨rfl, fun _ => rfl⟩
  · cases hdriver : driverMismatch view snapshot.driver_version with
    | error error =>
        rw [hdriver, List.mem_singleton] at h
        subst h
        exact trivial
    | ok mismatches =>
        rw [hdriver, List.mem_map] at h
        obtain ⟨mismatch, -, rfl⟩ := h
        exact speaks_refusal rfl
  · exact speaks_refusal rfl
  · exact speaks_refusal rfl
  · exact speaks_refusal rfl
  · split at h
    · simp only [recipeCalls, List.mem_append, mem_callIf] at h
      rcases h with ⟨-, rfl⟩ | ⟨-, rfl⟩
      · exact speaks_refusal rfl
      · exact ⟨rfl, fun _ => rfl⟩
    · cases h

/-- Every refusal names the backend, and every gap of coverage may be waived. -/
theorem speaks_assessCalls (h : call ∈ assessCalls backend snapshot policy registry config) :
    call.Speaks backend := by
  unfold assessCalls at h
  rcases List.mem_append.mp h with h | h
  · exact speaks_machineCalls h
  · split at h
    · rw [noEntryCalls, List.mem_singleton] at h
      subst h
      exact speaks_refusal rfl
    · simp only [List.mem_append] at h
      rcases h with ((h | h) | h) | h
      · exact speaks_statusCalls h
      · exact speaks_deliveryCalls h
      · exact speaks_processCalls h
      · split at h
        · exact speaks_engineCalls h
        · exact speaks_kernelCalls h

/-- The calls do not depend on the policy, unless it is `REFERENCE`. -/
theorem assessCalls_eq (policy policy' : RoutingPolicy) (h : policy ≠ .REFERENCE)
    (h' : policy' ≠ .REFERENCE) : assessCalls backend snapshot policy registry config =
      assessCalls backend snapshot policy' registry config := by
  unfold assessCalls machineCalls
  rw [callIf, callIf, if_neg h, callIf.eq_def (policy' = _), if_neg h']

end Calls

/-- Under `CERTIFIED` a call passes only as a note. -/
theorem passes_certified {call : Call} : call.Passes .CERTIFIED ↔ call.IsNote := by
  cases call with
  | raises error => exact Iff.rfl
  | refuse reason waivable coverage noted => simp [Call.Passes, Call.IsNote, RoutingPolicy.admitsUnjudgedDevice]

theorem passes_supported {call : Call} : call.Passes .SUPPORTED ↔ call.IsNote ∨ call.IsCoverage := by
  cases call with
  | raises error => exact (or_self_iff).symm
  | refuse reason waivable coverage noted =>
      simp [Call.Passes, Call.IsNote, Call.IsCoverage, RoutingPolicy.admitsUnjudgedDevice]

theorem passes_experimental {call : Call} (h : call.Passes .SUPPORTED) (hspeaks : call.Speaks backend) :
    call.Passes .EXPERIMENTAL := by
  cases call with
  | raises error => exact h
  | refuse reason waivable coverage noted =>
      rcases passes_supported.mp h with hnote | hcoverage
      · exact .inl hnote
      · exact .inr (.inl ⟨hspeaks.2 hcoverage, rfl⟩)

/-! ## Eligible backends -/

section Eligible

variable [DigitTables]

/-- The planner finds the backend eligible. -/
def Eligible (backend : String) (snapshot : ProbeSnapshot) (policy : RoutingPolicy)
    (registry : RegistryView) (config : Config) : Prop :=
  ∃ a, assessBackend backend snapshot policy registry config = .ok a ∧ a.eligible = true

variable {snapshot : ProbeSnapshot} {registry : RegistryView} {config : Config}

theorem eligible_iff : Eligible backend snapshot policy registry config ↔
    ∀ call ∈ assessCalls backend snapshot policy registry config, call.Passes policy := by
  constructor
  · rintro ⟨a, ha, heligible⟩
    obtain ⟨-, ⟨-, -, hall⟩ | ⟨hno, -⟩⟩ := runCalls_eq_ok ha
    · exact hall
    · rw [hno] at heligible
      cases heligible
  · intro hall
    obtain ⟨waived, supported, hrun⟩ := runCalls_passes backend hall [] []
    exact ⟨_, hrun, rfl⟩

theorem eligible_supported (h : Eligible backend snapshot .CERTIFIED registry config) :
    Eligible backend snapshot .SUPPORTED registry config := by
  rw [eligible_iff] at h ⊢
  rw [assessCalls_eq .SUPPORTED .CERTIFIED (by decide) (by decide)]
  exact fun call hcall => passes_supported.mpr (.inl (passes_certified.mp (h call hcall)))

theorem eligible_experimental (h : Eligible backend snapshot .SUPPORTED registry config) :
    Eligible backend snapshot .EXPERIMENTAL registry config := by
  rw [eligible_iff] at h ⊢
  rw [assessCalls_eq .EXPERIMENTAL .SUPPORTED (by decide) (by decide)]
  exact fun call hcall => passes_experimental (h call hcall) (speaks_assessCalls hcall)

/-! ## Plans -/

/-- What the assessments of a plan say: one for each considered backend, with a reason exactly
where it is not eligible. -/
structure Explained (snapshot : ProbeSnapshot) (assessments : List BackendAssessment) : Prop where
  backends : assessments.map (·.backend) = consideredBackends snapshot
  eligible : ∀ a ∈ assessments, a.eligible = true → a.blocking = none
  blocked : ∀ a ∈ assessments, a.eligible = false → ∃ reason, a.blocking = some reason ∧
    reason.backend = a.backend

theorem assessmentsFor_explained {assessments : List BackendAssessment}
    (h : assessmentsFor snapshot policy registry config = .ok assessments) :
    Explained snapshot assessments := by
  have hall := mapM_eq_ok h
  have hsound : ∀ {backend : String} {a : BackendAssessment},
      assessBackend backend snapshot policy registry config = .ok a → a.backend = backend ∧
        (a.eligible = true → a.blocking = none) ∧
        (a.eligible = false → ∃ reason, a.blocking = some reason ∧ reason.backend = a.backend) := by
    intro backend a ha
    obtain ⟨hbackend, ⟨he, hb, -⟩ | ⟨he, reason, w, c, n, hmem, -, hb⟩⟩ := runCalls_eq_ok ha
    · exact ⟨hbackend, fun _ => hb, fun hno => by rw [he] at hno; cases hno⟩
    · refine ⟨hbackend, ?_, fun _ => ⟨reason, hb, ?_⟩⟩
      · intro hyes
        rw [he] at hyes
        cases hyes
      · rw [hbackend]
        exact (speaks_assessCalls hmem).1
  generalize hconsidered : consideredBackends snapshot = considered at hall
  have hfacts : assessments.map (·.backend) = considered ∧ ∀ a ∈ assessments,
      (a.eligible = true → a.blocking = none) ∧
        (a.eligible = false → ∃ reason, a.blocking = some reason ∧ reason.backend = a.backend) := by
    clear h hconsidered
    induction hall with
    | nil => exact ⟨rfl, fun _ ha => absurd ha List.not_mem_nil⟩
    | cons ha _ ih =>
        obtain ⟨hb, hrest⟩ := hsound ha
        refine ⟨by rw [List.map_cons, hb, ih.1], fun a hmem => ?_⟩
        rcases List.mem_cons.mp hmem with rfl | hmem
        · exact hrest
        · exact ih.2 a hmem
  exact ⟨by rw [hfacts.1, hconsidered], fun a ha => (hfacts.2 a ha).1, fun a ha => (hfacts.2 a ha).2⟩

omit [DigitTables] in
/-- The reasons are those of the options left out, one each and in order. -/
theorem Explained.reasons {assessments : List BackendAssessment} (h : Explained snapshot assessments) :
    (assessments.filterMap (·.blocking)).map (·.backend) =
      (assessments.filter fun a => !a.eligible).map (·.backend) := by
  have heligible := h.eligible
  have hblocked := h.blocked
  clear h
  induction assessments with
  | nil => rfl
  | cons a assessments ih =>
      have ih := ih (fun b hb => heligible b (List.mem_cons_of_mem _ hb))
        fun b hb => hblocked b (List.mem_cons_of_mem _ hb)
      cases he : a.eligible with
      | true =>
          rw [List.filterMap_cons_none (heligible a List.mem_cons_self he),
            List.filter_cons_of_neg (by rw [he]; decide), ih]
      | false =>
          obtain ⟨reason, hreason, hbackend⟩ := hblocked a List.mem_cons_self he
          rw [List.filterMap_cons_some hreason, List.filter_cons_of_pos (by rw [he]; rfl), List.map_cons,
            List.map_cons, ih, hbackend]

omit [DigitTables] in
/-- The parts of a plan that was made. -/
theorem planOf_eq_ok {assessments : List BackendAssessment} {p : RoutePlan}
    (h : planOf snapshot policy assessments = .ok p) :
    p.policy = policy ∧ p.reasons = assessments.filterMap (·.blocking) ∧
      p.fallback_chain = (assessments.filter (·.eligible)).map (·.backend) ++ [BACKEND_REFERENCE] := by
  have hnew : ∀ {backend chain reasons}, RoutePlan.new policy backend chain reasons = .ok p →
      p.policy = policy ∧ p.reasons = reasons ∧ p.fallback_chain = chain := by
    intro backend chain reasons hp
    unfold RoutePlan.new at hp
    split_ifs at hp
    cases hp
    exact ⟨rfl, rfl, rfl⟩
  unfold planOf at h
  dsimp only at h
  split at h
  · rename_i hnone
    split_ifs at h
    rw [hnone]
    exact hnew h
  · exact hnew h

theorem plan_eq_ok {p : RoutePlan} (h : plan snapshot policy registry config = .ok p) :
    ∃ assessments, assessmentsFor snapshot policy registry config = .ok assessments ∧
      planOf snapshot policy assessments = .ok p := by
  unfold plan at h
  split_ifs at h
  cases hassess : assessmentsFor snapshot policy registry config with
  | error error =>
      rw [hassess] at h
      cases h
  | ok assessments =>
      rw [hassess] at h
      exact ⟨assessments, rfl, h⟩

/-- **Looser policies admit more, `SUPPORTED` beyond `CERTIFIED` only gaps of coverage; and a plan
runs the eligible options in order, before the reference backend, and gives one reason for every
option it leaves out.** -/
theorem routing_policy (snapshot : ProbeSnapshot) (registry : RegistryView) (config : Config) :
    (∀ backend, (Eligible backend snapshot .CERTIFIED registry config →
        Eligible backend snapshot .SUPPORTED registry config) ∧
      (Eligible backend snapshot .SUPPORTED registry config →
        Eligible backend snapshot .EXPERIMENTAL registry config) ∧
      (Eligible backend snapshot .SUPPORTED registry config →
        ¬Eligible backend snapshot .CERTIFIED registry config →
        ∀ call ∈ assessCalls backend snapshot .CERTIFIED registry config,
          call.IsNote ∨ call.IsCoverage)) ∧
    ∀ policy p, plan snapshot policy registry config = .ok p →
      ∃ assessments, assessmentsFor snapshot policy registry config = .ok assessments ∧
        Explained snapshot assessments ∧ p.policy = policy ∧
        p.fallback_chain = (assessments.filter (·.eligible)).map (·.backend) ++ [BACKEND_REFERENCE] ∧
        p.fallback_chain.head? = some p.backend ∧
        p.reasons = assessments.filterMap (·.blocking) ∧
        p.reasons.map (·.backend) = (assessments.filter fun a => !a.eligible).map (·.backend) := by
  constructor
  · intro backend
    refine ⟨eligible_supported, eligible_experimental, fun h _ call hcall => ?_⟩
    rw [assessCalls_eq .CERTIFIED .SUPPORTED (by decide) (by decide)] at hcall
    exact passes_supported.mp (eligible_iff.mp h call hcall)
  · intro policy p hp
    obtain ⟨assessments, hassess, hplan⟩ := plan_eq_ok hp
    obtain ⟨hpolicy, hreasons, hchain⟩ := planOf_eq_ok hplan
    have hexplained := assessmentsFor_explained hassess
    exact ⟨assessments, hassess, hexplained, hpolicy, hchain, p.head, hreasons,
      by rw [hreasons, hexplained.reasons]⟩

end Eligible

end Toktier.Routing.Plan
