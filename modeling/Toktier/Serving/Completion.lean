import Toktier.Serving.Pool

/-!
# Jobs and their completions

A submitted job carries a completion, which its caller waits on and which is set once the job
is done, skipped or failed. This file follows every job from the queue to its completion: the
head of the queue, the batch a worker gathers behind an encode, the turn of an operation on a
session. A caller can cancel its job, or give up waiting for it, at any time; a deadline passes
when the clock does.

A completion reads the flag of its cancellation when it is set, so a job that was run can still
be reported as cancelled. What an engine answers is left open.

## Main definitions

* `QueuedJob`, `Completion`: a job, and what its caller is told.
* `Duty`: what a worker has in its hands.
* `Service`, with `ClientStep`, `WorkerStep`, `OuterStep`: the pool and its steps.
* `Service.pool`: the same pool without its completions.
-/
namespace Toktier.Serving

/-- Options for one encode call. -/
structure EncodeOptions where
  addSpecialTokens : Bool
  offsets : Bool
  deriving DecidableEq

/-- An operation with the completion that its caller waits on. -/
structure QueuedJob where
  job : Job
  /-- The number of its completion. -/
  completion : ℕ
  deviceIndex : ℕ
  options : EncodeOptions
  deadline : Option ℕ
  deriving DecidableEq

inductive CompletionCode
  | RequestCancelled
  | DeadlineExceeded
  | Engine
  deriving DecidableEq

/-- What a caller is told. -/
abbrev Outcome := Except (CompletionCode × String) Unit

/-- The results a completion was set to, in order, and the flag of its cancellation. -/
structure Completion where
  results : List Outcome
  cancelled : Bool

namespace Completion

def new : Completion := ⟨[], false⟩

def done (completion : Completion) : Bool := !completion.results.isEmpty

/-- Set the result. -/
def complete (completion : Completion) (result : Outcome) : Completion :=
  { completion with results := completion.results ++
      [if completion.cancelled then .error (.RequestCancelled,
        "request was cancelled; already-started work may still have committed") else result] }

/-- `ServingRequest::cancel`, a wait that timed out, and a dropped request. -/
def cancel (completion : Completion) : Completion :=
  if completion.done then completion else { completion with cancelled := true }

end Completion

/-- Whether the deadline has passed. -/
def QueuedJob.expired (job : QueuedJob) (now : ℕ) : Bool := job.deadline.any fun deadline => deadline ≤ now

/-- What a worker has in its hands. -/
inductive Duty
  | idle
  /-- The encode that heads a batch, before it is looked at. -/
  | taken (job : QueuedJob)
  /-- A batch that may still grow. -/
  | batching (jobs : List QueuedJob)
  /-- The next encode of the batch, before it is looked at. -/
  | picked (jobs : List QueuedJob) (job : QueuedJob)
  /-- An encode that is not run. -/
  | skipping (jobs : List QueuedJob) (job : QueuedJob) (error : CompletionCode × String)
  /-- The rows of a batch that was run. -/
  | delivering (rows : List (QueuedJob × Outcome))
  | waiting (session ticket : ℕ) (job : QueuedJob)
  | turn (session ticket : ℕ) (job : QueuedJob)
  /-- An operation on a session that is not run; the turn is held. -/
  | skippingTurn (session ticket : ℕ) (job : QueuedJob) (error : CompletionCode × String)
  /-- The turn is held; a result is left to be reported if the operation was run. -/
  | leaving (session ticket : ℕ) (result : Option (QueuedJob × Outcome))
  /-- The slot is given back. -/
  | closing (session ticket : ℕ) (result : Option (QueuedJob × Outcome))
  /-- The turn is dropped. -/
  | settling (job : QueuedJob) (result : Outcome)
  | exited

namespace Duty

/-- Where the worker stands in the pool. -/
def worker : Duty → Worker
  | idle | settling _ _ => .idle
  | taken _ | batching _ | picked _ _ | skipping _ _ _ | delivering _ => .encoding
  | waiting session ticket _ => .waiting session ticket
  | turn session ticket _ | skippingTurn session ticket _ _ | leaving session ticket _ =>
      .turn session ticket
  | closing session ticket _ => .closing session ticket
  | exited => .exited

/-- The jobs whose completions this worker is to set. -/
def jobs : Duty → List QueuedJob
  | idle | exited => []
  | taken job | waiting _ _ job | turn _ _ job | skippingTurn _ _ job _ | settling job _ => [job]
  | batching jobs => jobs
  | picked jobs job | skipping jobs job _ => jobs ++ [job]
  | delivering rows => rows.map Prod.fst
  | leaving _ _ result | closing _ _ result => (result.map Prod.fst).toList

/-- Behind a job of the batch that is not run. -/
def resume : List QueuedJob → Duty
  | [] => idle
  | jobs => batching jobs

/-- Behind a row of the batch that was reported. -/
def deliver : List (QueuedJob × Outcome) → Duty
  | [] => idle
  | rows => delivering rows

/-- Behind a turn. -/
def settle : Option (QueuedJob × Outcome) → Duty
  | none => idle
  | some (job, result) => settling job result

end Duty

/-- The pool with `m` clients and `n` workers, its jobs and their completions. -/
structure Service (m n : ℕ) where
  jobs : List QueuedJob
  queuedBytes : ℕ
  shutdown : Bool
  sessions : ℕ → ServingSession
  clients : Fin m → Client
  duties : Fin n → Duty
  completions : ℕ → Completion
  /-- How many jobs were accepted; they have the completions below this number. -/
  accepted : ℕ
  now : ℕ

namespace Service

variable {m n : ℕ}

def start (m n : ℕ) : Service m n where
  jobs := []
  queuedBytes := 0
  shutdown := false
  sessions := fun _ => .new
  clients := fun _ => .idle
  duties := fun _ => .idle
  completions := fun _ => .new
  accepted := 0
  now := 0

variable (s : Service m n)

def queue : QueueState := ⟨s.jobs.map QueuedJob.job, s.queuedBytes, s.shutdown⟩

/-- The pool without the completions. -/
def pool : Pool m n := ⟨s.queue, s.sessions, s.clients, fun w => (s.duties w).worker⟩

def setClient (i : Fin m) (c : Client) : Service m n :=
  { s with clients := Function.update s.clients i c }

def setDuty (w : Fin n) (x : Duty) : Service m n :=
  { s with duties := Function.update s.duties w x }

def setSession (k : ℕ) (session : ServingSession) : Service m n :=
  { s with sessions := Function.update s.sessions k session }

/-- An accepted job stands at the end of the queue. -/
def acceptJob (job : QueuedJob) : Service m n :=
  { s with jobs := s.jobs ++ [job], queuedBytes := s.queuedBytes + job.job.bytes,
           accepted := s.accepted + 1 }

/-- A job leaves the queue. -/
def remove (job : QueuedJob) (rest : List QueuedJob) : Service m n :=
  { s with jobs := rest, queuedBytes := s.queuedBytes - job.job.bytes }

/-- Set the completion of a job. -/
def complete (job : QueuedJob) (result : Outcome) : Service m n :=
  let completion := (s.completions job.completion).complete result
  { s with completions := Function.update s.completions job.completion completion }

/-- Why a job is not run. -/
def shouldSkip (job : QueuedJob) : Option (CompletionCode × String) :=
  if job.expired s.now then
    some (.DeadlineExceeded, "request deadline elapsed before execution")
  else if (s.completions job.completion).cancelled then
    some (.RequestCancelled, "request was cancelled before execution")
  else none

end Service

/-- Whether an encode joins a batch. -/
def joins (limits : ServingLimits) (first : QueuedJob) (jobs : List QueuedJob) (job : QueuedJob) : Bool :=
  job.job.turn.isNone && job.deviceIndex == first.deviceIndex && job.options == first.options &&
    decide ((jobs.map fun job => job.job.bytes).sum + job.job.bytes ≤ limits.maxBatchBytes)

/-- One step of a client that is submitting. -/
inductive ClientStep (limits : ServingLimits) {m n : ℕ} : Service m n → Service m n → Prop
  | reserve {s : Service m n} (i : Fin m) (k : ℕ) (slotted : s.clients i = .slotted k) :
      ClientStep limits s ((s.setClient i (.ticketed k (s.sessions k).issued)).setSession k
        { s.sessions k with issued := (s.sessions k).issued + 1 })
  | enqueue {s : Service m n} (i : Fin m) {k t : ℕ} (ticketed : s.clients i = .ticketed k t)
      {job : QueuedJob} (own : job.job.turn = some (k, t)) (fresh : job.completion = s.accepted)
      {q : QueueState} (admitted : s.queue.enqueue limits job.job = .ok q) :
      ClientStep limits s ((s.setClient i .idle).acceptJob job)
  | refuse {s : Service m n} (i : Fin m) {k t : ℕ} (ticketed : s.clients i = .ticketed k t)
      {job : QueuedJob} (own : job.job.turn = some (k, t)) {e : ServingError}
      (rejected : s.queue.enqueue limits job.job = .error e) :
      ClientStep limits s (s.setClient i (.refused k t))
  | release {s : Service m n} (i : Fin m) {k t : ℕ} (refused : s.clients i = .refused k t) :
      ClientStep limits s ((s.setClient i (.released k t)).setSession k
        { s.sessions k with pending := (s.sessions k).pending - 1 })
  | cancel {s : Service m n} (i : Fin m) {k t : ℕ} (released : s.clients i = .released k t)
      (free : (s.sessions k).turn = none) :
      ClientStep limits s ((s.setClient i .idle).setSession k
        { s.sessions k with
          state := (s.sessions k).state.cancel t
          withdrawn := insert t (s.sessions k).withdrawn })

/-- One step of a worker. -/
inductive WorkerStep (limits : ServingLimits) {m n : ℕ} : Service m n → Service m n → Prop
  /-- The first job is an encode. -/
  | takeEncode {s : Service m n} (w : Fin n) (idle : s.duties w = .idle) {job : QueuedJob}
      {rest : List QueuedJob} (first : s.jobs = job :: rest) (stateless : job.job.turn = none) :
      WorkerStep limits s ((s.remove job rest).setDuty w (.taken job))
  /-- The first job is an operation on a session. -/
  | takeTurn {s : Service m n} (w : Fin n) (idle : s.duties w = .idle) {job : QueuedJob}
      {rest : List QueuedJob} (first : s.jobs = job :: rest) {k t : ℕ} (own : job.job.turn = some (k, t)) :
      WorkerStep limits s ((s.remove job rest).setDuty w (.waiting k t job))
  /-- The head of a batch is looked at. -/
  | openBatch {s : Service m n} (w : Fin n) {job : QueuedJob} (taken : s.duties w = .taken job)
      (run : s.shouldSkip job = none) : WorkerStep limits s (s.setDuty w (.batching [job]))
  | dropFirst {s : Service m n} (w : Fin n) {job : QueuedJob} (taken : s.duties w = .taken job)
      {error : CompletionCode × String} (skip : s.shouldSkip job = some error) :
      WorkerStep limits s (s.setDuty w (.skipping [] job error))
  /-- The first encode in the queue that joins the batch. -/
  | gather {s : Service m n} (w : Fin n) {first : QueuedJob} {jobs : List QueuedJob}
      (batching : s.duties w = .batching (first :: jobs))
      (room : (first :: jobs).length < limits.maxBatchRows) {before after : List QueuedJob} {job : QueuedJob}
      (found : s.jobs = before ++ job :: after) (joined : joins limits first (first :: jobs) job = true)
      (earliest : ∀ other ∈ before, joins limits first (first :: jobs) other = false) :
      WorkerStep limits s ((s.remove job (before ++ after)).setDuty w (.picked (first :: jobs) job))
  | join {s : Service m n} (w : Fin n) {jobs : List QueuedJob} {job : QueuedJob}
      (picked : s.duties w = .picked jobs job) (run : s.shouldSkip job = none) :
      WorkerStep limits s (s.setDuty w (.batching (jobs ++ [job])))
  | dropNext {s : Service m n} (w : Fin n) {jobs : List QueuedJob} {job : QueuedJob}
      (picked : s.duties w = .picked jobs job) {error : CompletionCode × String}
      (skip : s.shouldSkip job = some error) :
      WorkerStep limits s (s.setDuty w (.skipping jobs job error))
  /-- The completion of an encode that is not run. -/
  | skipped {s : Service m n} (w : Fin n) {jobs : List QueuedJob} {job : QueuedJob}
      {error : CompletionCode × String} (skipping : s.duties w = .skipping jobs job error) :
      WorkerStep limits s ((s.complete job (.error error)).setDuty w (.resume jobs))
  /-- The engines answer for the batch. -/
  | run {s : Service m n} (w : Fin n) {jobs : List QueuedJob} (batching : s.duties w = .batching jobs)
      (rows : List (QueuedJob × Outcome)) (each : rows.map Prod.fst = jobs) :
      WorkerStep limits s (s.setDuty w (.delivering rows))
  | deliver {s : Service m n} (w : Fin n) {job : QueuedJob} {result : Outcome}
      {rows : List (QueuedJob × Outcome)} (delivering : s.duties w = .delivering ((job, result) :: rows)) :
      WorkerStep limits s ((s.complete job result).setDuty w (.deliver rows))
  /-- `wait_for` returns. -/
  | begin {s : Service m n} (w : Fin n) {k t : ℕ} {job : QueuedJob} (waiting : s.duties w = .waiting k t job)
      (free : (s.sessions k).turn = none) (next : (s.sessions k).state.next = t) :
      WorkerStep limits s ((s.setDuty w (.turn k t job)).setSession k
        { s.sessions k with turn := some t, ran := (s.sessions k).ran ++ [t] })
  | dropTurn {s : Service m n} (w : Fin n) {k t : ℕ} {job : QueuedJob} (active : s.duties w = .turn k t job)
      {error : CompletionCode × String} (skip : s.shouldSkip job = some error) :
      WorkerStep limits s (s.setDuty w (.skippingTurn k t job error))
  /-- The completion of an operation on a session that is not run. -/
  | skippedTurn {s : Service m n} (w : Fin n) {k t : ℕ} {job : QueuedJob} {error : CompletionCode × String}
      (skipping : s.duties w = .skippingTurn k t job error) :
      WorkerStep limits s ((s.complete job (.error error)).setDuty w (.leaving k t none))
  /-- The operation is run. -/
  | operate {s : Service m n} (w : Fin n) {k t : ℕ} {job : QueuedJob} (active : s.duties w = .turn k t job)
      (run : s.shouldSkip job = none) (result : Outcome) :
      WorkerStep limits s (s.setDuty w (.leaving k t (some (job, result))))
  | close {s : Service m n} (w : Fin n) {k t : ℕ} {result : Option (QueuedJob × Outcome)}
      (leaving : s.duties w = .leaving k t result) :
      WorkerStep limits s ((s.setDuty w (.closing k t result)).setSession k
        { s.sessions k with pending := (s.sessions k).pending - 1 })
  | drop {s : Service m n} (w : Fin n) {k t : ℕ} {result : Option (QueuedJob × Outcome)}
      (closing : s.duties w = .closing k t result) :
      WorkerStep limits s ((s.setDuty w (.settle result)).setSession k
        { s.sessions k with
          state := (s.sessions k).state.finishTurn
          turn := none })
  /-- The completion of an operation that was run. -/
  | settled {s : Service m n} (w : Fin n) {job : QueuedJob} {result : Outcome}
      (settling : s.duties w = .settling job result) :
      WorkerStep limits s ((s.complete job result).setDuty w .idle)
  | exit {s : Service m n} (w : Fin n) (idle : s.duties w = .idle) (empty : s.jobs = [])
      (down : s.shutdown = true) : WorkerStep limits s (s.setDuty w .exited)

/-- What comes from outside: new submissions, cancellations, the clock and the shutdown. -/
inductive OuterStep (limits : ServingLimits) {m n : ℕ} : Service m n → Service m n → Prop
  | slot {s : Service m n} (i : Fin m) (k : ℕ) (idle : s.clients i = .idle)
      (room : (s.sessions k).pending < limits.maxSessionRequests) :
      OuterStep limits s ((s.setClient i (.slotted k)).setSession k
        { s.sessions k with pending := (s.sessions k).pending + 1 })
  | submit {s : Service m n} {job : QueuedJob} (stateless : job.job.turn = none)
      (fresh : job.completion = s.accepted) {q : QueueState}
      (admitted : s.queue.enqueue limits job.job = .ok q) : OuterStep limits s (s.acceptJob job)
  | cancel {s : Service m n} (completion : ℕ) :
      OuterStep limits s { s with
        completions := Function.update s.completions completion (s.completions completion).cancel }
  | tick {s : Service m n} : OuterStep limits s { s with now := s.now + 1 }
  | shutdown {s : Service m n} : OuterStep limits s { s with shutdown := true }

/-- One step of the service. -/
def ServiceStep (limits : ServingLimits) {m n : ℕ} (s s' : Service m n) : Prop :=
  ClientStep limits s s' ∨ WorkerStep limits s s' ∨ OuterStep limits s s'

/-- The service is reached by its steps. -/
def ServiceRun (limits : ServingLimits) {m n : ℕ} (s : Service m n) : Prop :=
  Relation.ReflTransGen (ServiceStep limits) (Service.start m n) s

end Toktier.Serving
