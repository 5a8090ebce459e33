import Toktier.Serving.Completion
import Toktier.Serving.NoWedge

/-!
# Accounting of the serving queue

Whatever the threads do, the queue knows its bytes and stays within its limits, a batch is made
of encodes that agree, and a job is in exactly one place until its completion is set, which
happens once. A job that is refused leaves no trace: the operations counted for a session are
the ones in flight.

That every accepted job is told in the end needs more, since a worker that waits for its turn
does nothing else: the jobs of a session have to enter the queue in the order of their tickets.

## Main definitions

* `Accounts`: what holds in every state.
* `Service.Stuck`: no client and no worker can go on.

## Main results

* `ServiceRun.accounts`: the accounts of every run.
* `work_lt`: threads that go on come to an end.
* `serving_accounting`: with the jobs in ticket order, every accepted job is told, once.
* `stuck_jobs`: without, two clients can leave the only worker stuck.
-/
namespace Toktier.Serving

variable {m n : ℕ} {limits : ServingLimits} {s s' : Service m n}

/-! ## The pool below -/

theorem pool_setDuty (w : Fin n) (x : Duty) : (s.setDuty w x).pool = s.pool.setWorker w x.worker := by
  have hworkers : (fun w' => (Function.update s.duties w x w').worker) =
      Function.update (fun w' => (s.duties w').worker) w x.worker := by
    funext w'
    by_cases h : w' = w
    · subst h
      rw [Function.update_self, Function.update_self]
    · rw [Function.update_of_ne h, Function.update_of_ne h]
  unfold Service.pool Service.setDuty Pool.setWorker
  rw [hworkers]
  rfl

/-- A worker that stays where it stands. -/
theorem pool_setDuty_same {w : Fin n} {x : Duty} (h : x.worker = (s.duties w).worker) :
    (s.setDuty w x).pool = s.pool := by
  rw [pool_setDuty, h]
  have hself : Function.update s.pool.workers w (s.duties w).worker = s.pool.workers :=
    Function.update_eq_self w s.pool.workers
  unfold Pool.setWorker
  rw [hself]

@[simp] theorem pool_complete (job : QueuedJob) (result : Outcome) : (s.complete job result).pool = s.pool := rfl

@[simp] theorem duties_complete (job : QueuedJob) (result : Outcome) :
    (s.complete job result).duties = s.duties := rfl

@[simp] theorem duties_remove (job : QueuedJob) (rest : List QueuedJob) :
    (s.remove job rest).duties = s.duties := rfl

theorem queue_acceptJob {job : QueuedJob} {q : QueueState} (h : s.queue.enqueue limits job.job = .ok q) :
    (s.acceptJob job).queue = q := by
  unfold QueueState.enqueue at h
  split_ifs at h
  cases h
  unfold Service.queue Service.acceptJob
  rw [List.map_append]
  rfl

theorem worker_resume (jobs : List QueuedJob) :
    (Duty.resume jobs).worker = if jobs = [] then .idle else .encoding := by
  cases jobs <;> rfl

theorem worker_deliver (rows : List (QueuedJob × Outcome)) :
    (Duty.deliver rows).worker = if rows = [] then .idle else .encoding := by
  cases rows <;> rfl

@[simp] theorem worker_settle (result : Option (QueuedJob × Outcome)) :
    (Duty.settle result).worker = .idle := by
  cases result <;> rfl

/-- A worker that is done with a batch, or goes on with it. -/
theorem step_setDuty_encoding {w : Fin n} {x : Duty} (h : (s.duties w).worker = .encoding)
    (hx : x.worker = .idle ∨ x.worker = .encoding) :
    (s.setDuty w x).pool = s.pool ∨ Step limits s.pool (s.setDuty w x).pool := by
  rcases hx with hx | hx
  · right
    rw [pool_setDuty, hx]
    exact .encoded w h
  · exact .inl (pool_setDuty_same (hx.trans h.symm))

theorem jobs_queue_eq {before after : List QueuedJob} {job : QueuedJob}
    (h : s.jobs = before ++ job :: after) :
    s.pool.queue.jobs = before.map QueuedJob.job ++ job.job :: after.map QueuedJob.job := by
  show s.jobs.map QueuedJob.job = _
  rw [h, List.map_append, List.map_cons]

/-- A step of a client is a step of the pool below. -/
theorem ClientStep.pool (h : ClientStep limits s s') : Step limits s.pool s'.pool := by
  cases h with
  | reserve i k slotted => exact .reserve i k slotted
  | enqueue i ticketed own fresh admitted =>
      have hstep := Step.enqueue (p := s.pool) i ticketed own admitted
      rw [← queue_acceptJob admitted] at hstep
      exact hstep
  | refuse i ticketed own rejected => exact .refuse i ticketed own rejected
  | release i refused => exact .release i refused
  | cancel i released free => exact .cancel i released free

/-- A step of a worker is a step of the pool below, or does not show there. -/
theorem WorkerStep.pool (h : WorkerStep limits s s') : s'.pool = s.pool ∨ Step limits s.pool s'.pool := by
  cases h with
  | @takeEncode w idle job rest first stateless =>
      right
      rw [pool_setDuty]
      exact .takeEncode w (by show (s.duties w).worker = _; rw [idle]; rfl)
        (jobs_queue_eq (first.trans (List.nil_append _).symm)) stateless
  | @takeTurn w idle job rest first k t own =>
      right
      rw [pool_setDuty]
      exact .takeTurn w (by show (s.duties w).worker = _; rw [idle]; rfl)
        (jobs_queue_eq (first.trans (List.nil_append _).symm)) own
  | openBatch w taken run => exact .inl (pool_setDuty_same (by rw [taken]; rfl))
  | dropFirst w taken skip => exact .inl (pool_setDuty_same (by rw [taken]; rfl))
  | @gather w first jobs batching room before after job found joined earliest =>
      right
      have hstateless : job.job.turn = none := by
        unfold joins at joined
        simp only [Bool.and_eq_true, Option.isNone_iff_eq_none] at joined
        exact joined.1.1.1
      have hworker : (s.pool.workers w) = .encoding := by
        show (s.duties w).worker = _
        rw [batching]
        rfl
      have hstep : Step limits s.pool _ := Step.batch w hworker (jobs_queue_eq found) hstateless
      rw [pool_setDuty_same (by rw [duties_remove, batching]; rfl)]
      unfold Service.remove Service.pool Service.queue
      rw [List.map_append]
      exact hstep
  | join w picked run => exact .inl (pool_setDuty_same (by rw [picked]; rfl))
  | dropNext w picked skip => exact .inl (pool_setDuty_same (by rw [picked]; rfl))
  | @skipped w jobs job error skipping =>
      refine step_setDuty_encoding (s := s.complete job (.error error)) (by rw [duties_complete, skipping]; rfl) ?_
      rw [worker_resume]
      split_ifs
      · exact .inl rfl
      · exact .inr rfl
  | run w batching rows each => exact .inl (pool_setDuty_same (by rw [batching]; rfl))
  | @deliver w job result rows delivering =>
      refine step_setDuty_encoding (s := s.complete job result) (by rw [duties_complete, delivering]; rfl) ?_
      rw [worker_deliver]
      split_ifs
      · exact .inl rfl
      · exact .inr rfl
  | @begin w k t job waiting free next =>
      right
      have hworker : s.pool.workers w = .waiting k t := by
        show (s.duties w).worker = _
        rw [waiting]
        rfl
      have hpool := pool_setDuty (s := s) w (.turn k t job)
      have hstep : Step limits s.pool _ := Step.begin w hworker free next
      have hsession : ((s.setDuty w (.turn k t job)).setSession k
          { s.sessions k with turn := some t, ran := (s.sessions k).ran ++ [t] }).pool =
          (s.setDuty w (.turn k t job)).pool.setSession k
            { s.sessions k with turn := some t, ran := (s.sessions k).ran ++ [t] } := rfl
      rw [hsession, hpool]
      exact hstep
  | dropTurn w active skip => exact .inl (pool_setDuty_same (by rw [active]; rfl))
  | @skippedTurn w k t job error skipping =>
      exact .inl (pool_setDuty_same (s := s.complete job (.error error)) (by rw [duties_complete, skipping]; rfl))
  | operate w active run result => exact .inl (pool_setDuty_same (by rw [active]; rfl))
  | @close w k t result leaving =>
      right
      have hworker : s.pool.workers w = .turn k t := by
        show (s.duties w).worker = _
        rw [leaving]
        rfl
      have hsession : ((s.setDuty w (.closing k t result)).setSession k
          { s.sessions k with pending := (s.sessions k).pending - 1 }).pool =
          (s.setDuty w (.closing k t result)).pool.setSession k
            { s.sessions k with pending := (s.sessions k).pending - 1 } := rfl
      rw [hsession, pool_setDuty]
      exact .close w hworker
  | @drop w k t result closing =>
      right
      have hworker : s.pool.workers w = .closing k t := by
        show (s.duties w).worker = _
        rw [closing]
        rfl
      have hsession : ((s.setDuty w (.settle result)).setSession k
          { s.sessions k with state := (s.sessions k).state.finishTurn, turn := none }).pool =
          (s.setDuty w (.settle result)).pool.setSession k
            { s.sessions k with state := (s.sessions k).state.finishTurn, turn := none } := rfl
      rw [hsession, pool_setDuty, worker_settle]
      exact .drop w hworker
  | @settled w job result settling =>
      exact .inl (pool_setDuty_same (s := s.complete job result) (by rw [duties_complete, settling]; rfl))
  | exit w idle empty down =>
      right
      rw [pool_setDuty]
      refine .exit w (by show (s.duties w).worker = _; rw [idle]; rfl) ?_ down
      show s.jobs.map QueuedJob.job = []
      rw [empty, List.map_nil]

theorem OuterStep.pool (h : OuterStep limits s s') : s'.pool = s.pool ∨ Step limits s.pool s'.pool := by
  cases h with
  | slot i k idle room => exact .inr (.slot i k idle room)
  | @submit job stateless fresh q admitted =>
      right
      have hjob : job.job = .Encode job.job.bytes := by
        cases hj : job.job with
        | Encode bytes => rfl
        | Seed session ticket bytes => rw [hj] at stateless; cases stateless
        | Append session ticket bytes => rw [hj] at stateless; cases stateless
      have hadmitted := admitted
      rw [hjob] at hadmitted
      have hstep : Step limits s.pool _ := Step.submit hadmitted
      rw [← queue_acceptJob admitted] at hstep
      exact hstep
  | cancel completion => exact .inl rfl
  | tick => exact .inl rfl
  | shutdown => exact .inr .shutdown

theorem ServiceStep.pool (h : ServiceStep limits s s') : s'.pool = s.pool ∨ Step limits s.pool s'.pool := by
  rcases h with h | h | h
  · exact .inr h.pool
  · exact h.pool
  · exact h.pool

/-- A run of the service is a run of the pool below. -/
theorem ServiceRun.pool (h : ServiceRun limits s) : Reachable limits s.pool := by
  induction h with
  | refl => exact .refl
  | tail _ hstep ih =>
      rcases hstep.pool with heq | hstep
      · rw [heq]
        exact ih
      · exact .tail ih hstep

/-! ## Accounts -/

/-- The bytes of some jobs. -/
def bytesOf (jobs : List QueuedJob) : ℕ := (jobs.map fun job => job.job.bytes).sum

/-- How many of some jobs have this completion. -/
def holds (c : ℕ) (jobs : List QueuedJob) : ℕ := jobs.countP fun job => job.completion == c

/-- The encodes that a worker has gathered. -/
def Duty.batch : Duty → List QueuedJob
  | taken job => [job]
  | batching jobs => jobs
  | picked jobs job | skipping jobs job _ => jobs ++ [job]
  | delivering rows => rows.map Prod.fst
  | _ => []

/-- Encodes that agree on device and options, within the bounds of a batch. -/
structure BatchOk (limits : ServingLimits) (jobs : List QueuedJob) : Prop where
  stateless : ∀ job ∈ jobs, job.job.turn = none
  agree : ∀ job ∈ jobs, ∀ other ∈ jobs, job.deviceIndex = other.deviceIndex ∧ job.options = other.options
  rows : jobs.length ≤ limits.maxBatchRows
  bytes : bytesOf jobs ≤ limits.maxBatchBytes

/-- How many jobs with this completion are in the queue or in a worker's hands. -/
def Service.held (s : Service m n) (c : ℕ) : ℕ := holds c s.jobs + ∑ w, holds c (s.duties w).jobs

/-- The queue knows its bytes and keeps its limits; the workers' batches are in order; and an
accepted job is held in one place until it is told, once. -/
structure Accounts (limits : ServingLimits) (s : Service m n) : Prop where
  bytes : s.queuedBytes = bytesOf s.jobs
  maxBytes : s.queuedBytes ≤ limits.maxQueuedBytes
  maxJobs : s.jobs.length ≤ limits.maxQueuedRequests
  fits : ∀ job ∈ s.jobs, job.job.bytes ≤ limits.maxBatchBytes
  batch : ∀ w, BatchOk limits (s.duties w).batch
  some_row : ∀ w, s.duties w ≠ .batching [] ∧ s.duties w ≠ .delivering []
  once : ∀ c, s.held c + (s.completions c).results.length = if c < s.accepted then 1 else 0
  exited : ∀ w, s.duties w = .exited → s.shutdown = true ∧ s.jobs = []

@[simp] theorem bytesOf_nil : bytesOf [] = 0 := rfl

@[simp] theorem bytesOf_cons (job : QueuedJob) (jobs : List QueuedJob) :
    bytesOf (job :: jobs) = job.job.bytes + bytesOf jobs := rfl

@[simp] theorem bytesOf_append (jobs others : List QueuedJob) :
    bytesOf (jobs ++ others) = bytesOf jobs + bytesOf others := by
  rw [bytesOf, List.map_append, List.sum_append]
  rfl

@[simp] theorem holds_nil (c : ℕ) : holds c [] = 0 := rfl

@[simp] theorem holds_cons (c : ℕ) (job : QueuedJob) (jobs : List QueuedJob) :
    holds c (job :: jobs) = holds c jobs + if job.completion = c then 1 else 0 := by
  rw [holds, List.countP_cons]
  simp only [beq_iff_eq]
  rfl

@[simp] theorem holds_append (c : ℕ) (jobs others : List QueuedJob) :
    holds c (jobs ++ others) = holds c jobs + holds c others := List.countP_append

/-- A job that is counted is there. -/
theorem exists_of_holds {c : ℕ} {jobs : List QueuedJob} (h : holds c jobs ≠ 0) :
    ∃ job ∈ jobs, job.completion = c := by
  obtain ⟨job, hmem, hjob⟩ := List.countP_pos_iff.mp (Nat.pos_of_ne_zero h)
  exact ⟨job, hmem, beq_iff_eq.mp hjob⟩

theorem held_setDuty (s : Service m n) (w : Fin n) (x : Duty) (c : ℕ) :
    (s.setDuty w x).held c + holds c (s.duties w).jobs = s.held c + holds c x.jobs := by
  have h := sum_update (fun x => holds c x.jobs) s.duties w x
  simp only [Service.held, Service.setDuty]
  omega

theorem BatchOk.nil (limits : ServingLimits) : BatchOk limits [] where
  stateless := by simp
  agree := by simp
  rows := by simp
  bytes := by simp

/-- What is left of a batch is a batch. -/
theorem BatchOk.sublist {jobs rest : List QueuedJob} (h : BatchOk limits jobs) (hsub : List.Sublist rest jobs) :
    BatchOk limits rest where
  stateless job hjob := h.stateless job (hsub.subset hjob)
  agree job hjob other hother := h.agree job (hsub.subset hjob) other (hsub.subset hother)
  rows := hsub.length_le.trans h.rows
  bytes := ((hsub.map _).sum_le_sum fun _ _ => Nat.zero_le _).trans h.bytes

/-- An encode that fits is a batch. -/
theorem BatchOk.single (hlimits : validateLimits limits = .ok ()) {job : QueuedJob}
    (stateless : job.job.turn = none) (fits : job.job.bytes ≤ limits.maxBatchBytes) : BatchOk limits [job] where
  stateless := by simpa using stateless
  agree := by simp
  rows := by
    unfold validateLimits at hlimits
    split_ifs at hlimits with h
    simp only [List.length_singleton]
    omega
  bytes := by simpa using fits

/-- An encode that joins a batch leaves a batch. -/
theorem BatchOk.join {first : QueuedJob} {jobs : List QueuedJob} {job : QueuedJob}
    (h : BatchOk limits (first :: jobs)) (room : (first :: jobs).length < limits.maxBatchRows)
    (joined : joins limits first (first :: jobs) job = true) : BatchOk limits ((first :: jobs) ++ [job]) := by
  unfold joins at joined
  simp only [Bool.and_eq_true, Option.isNone_iff_eq_none, beq_iff_eq, decide_eq_true_eq] at joined
  obtain ⟨⟨⟨hstateless, hdevice⟩, hoptions⟩, hbytes⟩ := joined
  have hfirst (other : QueuedJob) (hother : other ∈ (first :: jobs) ++ [job]) :
      other.deviceIndex = first.deviceIndex ∧ other.options = first.options := by
    rcases List.mem_append.mp hother with hother | hother
    · exact h.agree other hother first List.mem_cons_self
    · rw [List.mem_singleton.mp hother]
      exact ⟨hdevice, hoptions⟩
  refine ⟨?_, ?_, ?_, ?_⟩
  · intro other hother
    rcases List.mem_append.mp hother with hother | hother
    · exact h.stateless other hother
    · rw [List.mem_singleton.mp hother]
      exact hstateless
  · intro a ha b hb
    obtain ⟨hda, hoa⟩ := hfirst a ha
    obtain ⟨hdb, hob⟩ := hfirst b hb
    exact ⟨hda.trans hdb.symm, hoa.trans hob.symm⟩
  · rw [List.length_append, List.length_singleton]
    exact room
  · rw [bytesOf_append, bytesOf_cons job, bytesOf_nil]
    exact hbytes

/-! ## How a step moves the jobs -/

theorem Accounts.setClient (h : Accounts limits s) (i : Fin m) (c : Client) : Accounts limits (s.setClient i c) :=
  ⟨h.bytes, h.maxBytes, h.maxJobs, h.fits, h.batch, h.some_row, h.once, h.exited⟩

theorem Accounts.setSession (h : Accounts limits s) (k : ℕ) (session : ServingSession) :
    Accounts limits (s.setSession k session) :=
  ⟨h.bytes, h.maxBytes, h.maxJobs, h.fits, h.batch, h.some_row, h.once, h.exited⟩

/-- A worker's next duty is one a worker may have. -/
structure DutyOk (limits : ServingLimits) (x : Duty) : Prop where
  batch : BatchOk limits x.batch
  some_row : x ≠ .batching [] ∧ x ≠ .delivering []
  stays : x ≠ .exited

theorem forall_update (P : Duty → Prop) {duties : Fin n → Duty} {w : Fin n} {x : Duty}
    (h : ∀ w, P (duties w)) (hx : P x) (w' : Fin n) : P (Function.update duties w x w') := by
  by_cases heq : w' = w
  · rw [heq, Function.update_self]
    exact hx
  · rw [Function.update_of_ne heq]
    exact h w'

/-- A worker goes on with the jobs it has. -/
theorem Accounts.setDuty (h : Accounts limits s) {w : Fin n} {x : Duty} (hx : DutyOk limits x)
    (hjobs : x.jobs = (s.duties w).jobs) : Accounts limits (s.setDuty w x) where
  bytes := h.bytes
  maxBytes := h.maxBytes
  maxJobs := h.maxJobs
  fits := h.fits
  batch := forall_update (fun x => BatchOk limits x.batch) h.batch hx.batch
  some_row := forall_update (fun x => x ≠ .batching [] ∧ x ≠ .delivering []) h.some_row hx.some_row
  once c := by
    have hheld := held_setDuty s w x c
    rw [hjobs] at hheld
    rw [Nat.add_right_cancel hheld]
    exact h.once c
  exited := forall_update (fun x => x = .exited → s.shutdown = true ∧ s.jobs = []) h.exited
    fun hexited => absurd hexited hx.stays

/-- A worker reports the result of a job that it has, and goes on without. -/
theorem Accounts.complete (h : Accounts limits s) {w : Fin n} {x : Duty} (hx : DutyOk limits x)
    {job : QueuedJob} (result : Outcome)
    (hjobs : ∀ c, holds c (s.duties w).jobs = holds c x.jobs + if job.completion = c then 1 else 0) :
    Accounts limits ((s.complete job result).setDuty w x) where
  bytes := h.bytes
  maxBytes := h.maxBytes
  maxJobs := h.maxJobs
  fits := h.fits
  batch := forall_update (fun x => BatchOk limits x.batch) h.batch hx.batch
  some_row := forall_update (fun x => x ≠ .batching [] ∧ x ≠ .delivering []) h.some_row hx.some_row
  once c := by
    have hheld := held_setDuty s w x c
    have honce := h.once c
    rw [hjobs c] at hheld
    show (s.setDuty w x).held c + (Function.update s.completions job.completion _ c).results.length =
      if c < s.accepted then 1 else 0
    by_cases heq : c = job.completion
    · rw [if_pos heq.symm] at hheld
      rw [heq] at hheld honce ⊢
      rw [Function.update_self, Completion.complete, List.length_append, List.length_singleton]
      omega
    · rw [if_neg (Ne.symm heq)] at hheld
      rw [Function.update_of_ne heq]
      omega
  exited := forall_update (fun x => x = .exited → s.shutdown = true ∧ s.jobs = []) h.exited
    fun hexited => absurd hexited hx.stays

/-- A worker takes a job from the queue. -/
theorem Accounts.take (h : Accounts limits s) {w : Fin n} {x : Duty} (hx : DutyOk limits x)
    {before after : List QueuedJob} {job : QueuedJob} (found : s.jobs = before ++ job :: after)
    (hjobs : ∀ c, holds c x.jobs = holds c (s.duties w).jobs + if job.completion = c then 1 else 0) :
    Accounts limits ((s.remove job (before ++ after)).setDuty w x) where
  bytes := by
    have hbytes := h.bytes
    rw [found, bytesOf_append, bytesOf_cons] at hbytes
    show s.queuedBytes - job.job.bytes = bytesOf (before ++ after)
    rw [bytesOf_append]
    omega
  maxBytes := (Nat.sub_le _ _).trans h.maxBytes
  maxJobs := by
    have hlength := h.maxJobs
    rw [found, List.length_append, List.length_cons] at hlength
    show (before ++ after).length ≤ _
    rw [List.length_append]
    omega
  fits other hother := by
    apply h.fits
    rw [found]
    rcases List.mem_append.mp hother with hother | hother
    · exact List.mem_append_left _ hother
    · exact List.mem_append_right _ (List.mem_cons_of_mem _ hother)
  batch := forall_update (fun x => BatchOk limits x.batch) h.batch hx.batch
  some_row := forall_update (fun x => x ≠ .batching [] ∧ x ≠ .delivering []) h.some_row hx.some_row
  once c := by
    have hheld := held_setDuty (s.remove job (before ++ after)) w x c
    have honce := h.once c
    have hrest : (s.remove job (before ++ after)).held c =
        holds c (before ++ after) + ∑ w, holds c (s.duties w).jobs := rfl
    rw [duties_remove, hjobs c, hrest, holds_append] at hheld
    unfold Service.held at honce
    rw [found, holds_append, holds_cons] at honce
    show ((s.remove job (before ++ after)).setDuty w x).held c + (s.completions c).results.length =
      if c < s.accepted then 1 else 0
    omega
  exited := by
    refine forall_update (fun x => x = .exited → s.shutdown = true ∧ before ++ after = [])
      (fun w' hexited => ?_) fun hexited => absurd hexited hx.stays
    have hempty := (h.exited w' hexited).2
    rw [found] at hempty
    exact absurd hempty (by simp)

/-- A job is admitted. -/
theorem Accounts.acceptJob (h : Accounts limits s) {job : QueuedJob} (fresh : job.completion = s.accepted)
    {q : QueueState} (admitted : s.queue.enqueue limits job.job = .ok q) : Accounts limits (s.acceptJob job) := by
  unfold QueueState.enqueue at admitted
  split_ifs at admitted with hfits hdown hfull
  simp only [Service.queue, List.length_map] at hfull hdown
  refine ⟨?_, ?_, ?_, ?_, h.batch, h.some_row, ?_, ?_⟩
  · show s.queuedBytes + job.job.bytes = bytesOf (s.jobs ++ [job])
    rw [bytesOf_append, bytesOf_cons, bytesOf_nil, h.bytes, Nat.add_zero]
  · show s.queuedBytes + job.job.bytes ≤ _
    omega
  · show (s.jobs ++ [job]).length ≤ _
    rw [List.length_append, List.length_singleton]
    omega
  · intro other hother
    rcases List.mem_append.mp hother with hother | hother
    · exact h.fits other hother
    · rw [List.mem_singleton.mp hother]
      omega
  · intro c
    have honce := h.once c
    have hheld : (s.acceptJob job).held c = s.held c + if job.completion = c then 1 else 0 := by
      show holds c (s.jobs ++ [job]) + ∑ w, holds c (s.duties w).jobs = _
      rw [holds_append, holds_cons, holds_nil, Service.held]
      omega
    rw [hheld, fresh]
    show s.held c + _ + (s.completions c).results.length = if c < s.accepted + 1 then 1 else 0
    split_ifs at honce ⊢ <;> omega
  · intro w hexited
    exact absurd (h.exited w hexited).1 hdown

theorem holds_resume (c : ℕ) (jobs : List QueuedJob) : holds c (Duty.resume jobs).jobs = holds c jobs := by
  cases jobs <;> rfl

theorem holds_deliver (c : ℕ) (rows : List (QueuedJob × Outcome)) :
    holds c (Duty.deliver rows).jobs = holds c (rows.map Prod.fst) := by
  cases rows <;> rfl

theorem holds_settle (c : ℕ) (result : Option (QueuedJob × Outcome)) :
    holds c (Duty.settle result).jobs = holds c (result.map Prod.fst).toList := by
  cases result <;> rfl

theorem BatchOk.resume {jobs : List QueuedJob} (h : BatchOk limits jobs) : DutyOk limits (.resume jobs) := by
  cases jobs with
  | nil => exact ⟨h, by simp [Duty.resume], by simp [Duty.resume]⟩
  | cons job jobs => exact ⟨h, by simp [Duty.resume], by simp [Duty.resume]⟩

theorem BatchOk.deliver {rows : List (QueuedJob × Outcome)} (h : BatchOk limits (rows.map Prod.fst)) :
    DutyOk limits (.deliver rows) := by
  cases rows with
  | nil => exact ⟨h, by simp [Duty.deliver], by simp [Duty.deliver]⟩
  | cons row rows => exact ⟨h, by simp [Duty.deliver], by simp [Duty.deliver]⟩

/-- A duty without a batch. -/
theorem DutyOk.of_batch_nil {x : Duty} (h : x.batch = []) (hb : x ≠ .batching []) (hd : x ≠ .delivering [])
    (hx : x ≠ .exited) : DutyOk limits x :=
  ⟨by rw [h]; exact .nil limits, ⟨hb, hd⟩, hx⟩

theorem ClientStep.accounts (hstep : ClientStep limits s s') (h : Accounts limits s) : Accounts limits s' := by
  cases hstep with
  | reserve i k slotted => exact (h.setClient i _).setSession k _
  | enqueue i ticketed own fresh admitted => exact (h.setClient i _).acceptJob fresh admitted
  | refuse i ticketed own rejected => exact h.setClient i _
  | release i refused => exact (h.setClient i _).setSession _ _
  | cancel i released free => exact (h.setClient i _).setSession _ _

theorem WorkerStep.accounts (hlimits : validateLimits limits = .ok ()) (hstep : WorkerStep limits s s')
    (h : Accounts limits s) : Accounts limits s' := by
  have hbatch (w : Fin n) (x : Duty) (hx : s.duties w = x) : BatchOk limits x.batch := hx ▸ h.batch w
  cases hstep with
  | @takeEncode w idle job rest first stateless =>
      have hfits := h.fits job (by rw [first]; exact List.mem_cons_self)
      have hduty : DutyOk limits (.taken job) := ⟨.single hlimits stateless hfits, by simp, by simp⟩
      exact h.take hduty (first.trans (List.nil_append _).symm) (by intro c; rw [idle]; exact holds_cons c job [])
  | @takeTurn w idle job rest first k t own =>
      have hduty : DutyOk limits (.waiting k t job) := .of_batch_nil rfl (by simp) (by simp) (by simp)
      exact h.take hduty (first.trans (List.nil_append _).symm) (by intro c; rw [idle]; exact holds_cons c job [])
  | openBatch w taken run => exact h.setDuty ⟨hbatch w (.taken _) taken, by simp, by simp⟩ (by rw [taken]; rfl)
  | dropFirst w taken skip => exact h.setDuty ⟨hbatch w (.taken _) taken, by simp, by simp⟩ (by rw [taken]; rfl)
  | @gather w first jobs batching room before after job found joined earliest =>
      have hduty : DutyOk limits (.picked (first :: jobs) job) :=
        ⟨(hbatch w (.batching _) batching).join room joined, by simp, by simp⟩
      refine h.take hduty found ?_
      intro c
      rw [batching]
      show holds c ((first :: jobs) ++ [job]) = holds c (first :: jobs) + _
      rw [holds_append, holds_cons c job, holds_nil, Nat.zero_add]
  | join w picked run => exact h.setDuty ⟨hbatch w (.picked _ _) picked, by simp, by simp⟩ (by rw [picked]; rfl)
  | dropNext w picked skip => exact h.setDuty ⟨hbatch w (.picked _ _) picked, by simp, by simp⟩ (by rw [picked]; rfl)
  | @skipped w jobs job error skipping =>
      have hrest : BatchOk limits jobs := (hbatch w (.skipping _ _ _) skipping).sublist (List.sublist_append_left jobs [job])
      refine h.complete hrest.resume _ ?_
      intro c
      rw [skipping, holds_resume]
      show holds c (jobs ++ [job]) = _
      rw [holds_append, holds_cons, holds_nil, Nat.zero_add]
  | @run w jobs batching rows each =>
      refine h.setDuty ⟨?_, ⟨by simp, ?_⟩, by simp⟩ ?_
      · show BatchOk limits (rows.map Prod.fst)
        rw [each]
        exact hbatch w (.batching _) batching
      · intro hrows
        cases hrows
        exact (h.some_row w).1 (by rw [batching, ← each, List.map_nil])
      · rw [batching]
        exact each
  | @deliver w job result rows delivering =>
      have hrest : BatchOk limits (rows.map Prod.fst) := (hbatch w (.delivering _) delivering).sublist (List.sublist_cons_self _ _)
      refine h.complete hrest.deliver _ ?_
      intro c
      rw [delivering, holds_deliver]
      exact holds_cons c job (rows.map Prod.fst)
  | begin w waiting free next =>
      exact (h.setDuty (.of_batch_nil rfl (by simp) (by simp) (by simp)) (by rw [waiting]; rfl)).setSession _ _
  | dropTurn w active skip =>
      exact h.setDuty (.of_batch_nil rfl (by simp) (by simp) (by simp)) (by rw [active]; rfl)
  | @skippedTurn w k t job error skipping =>
      refine h.complete (.of_batch_nil rfl (by simp) (by simp) (by simp)) _ ?_
      intro c
      rw [skipping]
      exact holds_cons c job []
  | operate w active run result =>
      exact h.setDuty (.of_batch_nil rfl (by simp) (by simp) (by simp)) (by rw [active]; rfl)
  | close w leaving =>
      exact (h.setDuty (.of_batch_nil rfl (by simp) (by simp) (by simp)) (by rw [leaving]; rfl)).setSession _ _
  | @drop w k t result closing =>
      refine (h.setDuty ?_ ?_).setSession _ _
      · cases result <;> exact .of_batch_nil rfl (by simp [Duty.settle]) (by simp [Duty.settle]) (by simp [Duty.settle])
      · rw [closing]
        cases result <;> rfl
  | @settled w job result settling =>
      refine h.complete (.of_batch_nil rfl (by simp) (by simp) (by simp)) _ ?_
      intro c
      rw [settling]
      exact holds_cons c job []
  | @exit w idle empty down =>
      refine ⟨h.bytes, h.maxBytes, h.maxJobs, h.fits, ?_, ?_, ?_, ?_⟩
      · exact forall_update (fun x => BatchOk limits x.batch) h.batch (BatchOk.nil limits)
      · exact forall_update (fun x => x ≠ .batching [] ∧ x ≠ .delivering []) h.some_row (by simp)
      · intro c
        have hheld := held_setDuty s w .exited c
        rw [idle] at hheld
        rw [Nat.add_right_cancel hheld]
        exact h.once c
      · exact forall_update (fun x => x = .exited → s.shutdown = true ∧ s.jobs = []) h.exited
          fun _ => ⟨down, empty⟩

theorem results_cancel (completion : Completion) : completion.cancel.results = completion.results := by
  unfold Completion.cancel
  split_ifs <;> rfl

theorem OuterStep.accounts (hstep : OuterStep limits s s') (h : Accounts limits s) : Accounts limits s' := by
  cases hstep with
  | slot i k idle room => exact (h.setClient i _).setSession k _
  | submit stateless fresh admitted => exact h.acceptJob fresh admitted
  | cancel completion =>
      refine ⟨h.bytes, h.maxBytes, h.maxJobs, h.fits, h.batch, h.some_row, fun c => ?_, h.exited⟩
      have hresults : (Function.update s.completions completion (s.completions completion).cancel c).results =
          (s.completions c).results := by
        by_cases heq : c = completion
        · rw [heq, Function.update_self, results_cancel]
        · rw [Function.update_of_ne heq]
      show s.held c + (Function.update s.completions completion _ c).results.length = _
      rw [hresults]
      exact h.once c
  | tick => exact ⟨h.bytes, h.maxBytes, h.maxJobs, h.fits, h.batch, h.some_row, h.once, h.exited⟩
  | shutdown =>
      exact ⟨h.bytes, h.maxBytes, h.maxJobs, h.fits, h.batch, h.some_row, h.once,
        fun w hexited => ⟨rfl, (h.exited w hexited).2⟩⟩

theorem accounts_start (limits : ServingLimits) (m n : ℕ) : Accounts limits (Service.start m n) where
  bytes := rfl
  maxBytes := Nat.zero_le _
  maxJobs := Nat.zero_le _
  fits job hjob := absurd hjob List.not_mem_nil
  batch _ := .nil limits
  some_row _ := by simp [Service.start]
  once c := by
    have hheld : (Service.start m n).held c = 0 := by simp [Service.held, Service.start, Duty.jobs]
    rw [hheld]
    rfl
  exited w hexited := by cases hexited

/-- The accounts are right after every run. -/
theorem ServiceRun.accounts (hlimits : validateLimits limits = .ok ()) (h : ServiceRun limits s) :
    Accounts limits s := by
  induction h with
  | refl => exact accounts_start limits m n
  | tail _ hstep ih =>
      rcases hstep with hstep | hstep | hstep
      · exact hstep.accounts ih
      · exact hstep.accounts hlimits ih
      · exact hstep.accounts ih

/-! ## Threads come to an end -/

/-- How far a client is from the end of its submission. -/
def Client.work : Client → ℕ
  | idle => 0
  | slotted _ => 12
  | ticketed _ _ => 11
  | refused _ _ => 3
  | released _ _ => 2

/-- How far a worker is from its end, but for the jobs in the queue. -/
def Duty.work : Duty → ℕ
  | exited => 0
  | idle => 1
  | taken _ | waiting _ _ _ => 7
  | batching jobs => 3 * jobs.length + 1
  | picked jobs _ => 3 * jobs.length + 6
  | skipping jobs _ _ => 3 * jobs.length + 2
  | delivering rows => 2 * rows.length
  | turn _ _ _ => 6
  | skippingTurn _ _ _ _ => 5
  | leaving _ _ _ => 4
  | closing _ _ _ => 3
  | settling _ _ => 2

def Service.work (s : Service m n) : ℕ :=
  8 * s.jobs.length + ∑ i, (s.clients i).work + ∑ w, (s.duties w).work

theorem work_setClient (s : Service m n) (i : Fin m) (c : Client) :
    (s.setClient i c).work + (s.clients i).work = s.work + c.work := by
  have h := sum_update Client.work s.clients i c
  simp only [Service.work, Service.setClient]
  omega

theorem work_setDuty (s : Service m n) (w : Fin n) (x : Duty) :
    (s.setDuty w x).work + (s.duties w).work = s.work + x.work := by
  have h := sum_update Duty.work s.duties w x
  simp only [Service.work, Service.setDuty]
  omega

@[simp] theorem work_setSession (k : ℕ) (session : ServingSession) : (s.setSession k session).work = s.work := rfl

@[simp] theorem work_complete (job : QueuedJob) (result : Outcome) : (s.complete job result).work = s.work := rfl

theorem work_acceptJob (job : QueuedJob) : (s.acceptJob job).work = s.work + 8 := by
  simp only [Service.work, Service.acceptJob, List.length_append, List.length_singleton]
  omega

theorem work_remove {before after : List QueuedJob} {job : QueuedJob} (found : s.jobs = before ++ job :: after) :
    (s.remove job (before ++ after)).work + 8 = s.work := by
  simp only [Service.work, Service.remove, found, List.length_append, List.length_cons]
  omega

theorem work_resume (jobs : List QueuedJob) : (Duty.resume jobs).work ≤ 3 * jobs.length + 1 := by
  cases jobs <;> simp [Duty.resume, Duty.work]

theorem work_deliver_lt (rows : List (QueuedJob × Outcome)) : (Duty.deliver rows).work < 2 * rows.length + 2 := by
  cases rows <;> simp [Duty.deliver, Duty.work]

theorem work_settle_lt (result : Option (QueuedJob × Outcome)) : (Duty.settle result).work < 3 := by
  cases result <;> simp [Duty.settle, Duty.work]

/-- A client that goes on comes closer to its end. -/
theorem ClientStep.work_lt (h : ClientStep limits s s') : s'.work < s.work := by
  cases h with
  | reserve i k slotted =>
      have hwork := work_setClient s i (.ticketed k (s.sessions k).issued)
      rw [slotted] at hwork
      simp only [Client.work] at hwork
      rw [work_setSession]
      omega
  | enqueue i ticketed own fresh admitted =>
      have hwork := work_setClient s i .idle
      rw [ticketed] at hwork
      simp only [Client.work] at hwork
      rw [work_acceptJob]
      omega
  | @refuse i k t ticketed job own e rejected =>
      have hwork := work_setClient s i (.refused k t)
      rw [ticketed] at hwork
      simp only [Client.work] at hwork
      omega
  | @release i k t refused =>
      have hwork := work_setClient s i (.released k t)
      rw [refused] at hwork
      simp only [Client.work] at hwork
      rw [work_setSession]
      omega
  | @cancel i k t released free =>
      have hwork := work_setClient s i .idle
      rw [released] at hwork
      simp only [Client.work] at hwork
      rw [work_setSession]
      omega

/-- A worker that does less than it did. -/
theorem work_setDuty_lt {w : Fin n} {x : Duty} (h : x.work < (s.duties w).work) : (s.setDuty w x).work < s.work := by
  have hwork := work_setDuty s w x
  omega

/-- A worker that takes a job from the queue. -/
theorem work_take_lt {w : Fin n} {x : Duty} {before after : List QueuedJob} {job : QueuedJob}
    (found : s.jobs = before ++ job :: after) (h : x.work < (s.duties w).work + 8) :
    ((s.remove job (before ++ after)).setDuty w x).work < s.work := by
  have hremove := work_remove found
  have hwork := work_setDuty (s.remove job (before ++ after)) w x
  rw [duties_remove] at hwork
  omega

/-- A worker that goes on comes closer to its end. -/
theorem WorkerStep.work_lt (h : WorkerStep limits s s') : s'.work < s.work := by
  cases h with
  | @takeEncode w idle job rest first stateless =>
      exact work_take_lt (first.trans (List.nil_append _).symm) (by rw [idle]; simp [Duty.work])
  | @takeTurn w idle job rest first k t own =>
      exact work_take_lt (first.trans (List.nil_append _).symm) (by rw [idle]; simp [Duty.work])
  | openBatch w taken run => exact work_setDuty_lt (by rw [taken]; simp [Duty.work])
  | dropFirst w taken skip => exact work_setDuty_lt (by rw [taken]; simp [Duty.work])
  | gather w batching room found joined earliest =>
      exact work_take_lt found (by rw [batching]; simp only [Duty.work]; omega)
  | join w picked run =>
      exact work_setDuty_lt (by rw [picked]; simp only [Duty.work, List.length_append, List.length_singleton]; omega)
  | dropNext w picked skip => exact work_setDuty_lt (by rw [picked]; simp [Duty.work])
  | @skipped w jobs job error skipping =>
      refine work_setDuty_lt (s := s.complete job (.error error)) ?_
      rw [duties_complete, skipping]
      exact Nat.lt_of_le_of_lt (work_resume jobs) (Nat.lt_succ_self _)
  | @run w jobs batching rows each =>
      refine work_setDuty_lt ?_
      rw [batching, ← each]
      simp only [Duty.work, List.length_map]
      omega
  | @deliver w job result rows delivering =>
      refine work_setDuty_lt (s := s.complete job result) ?_
      rw [duties_complete, delivering]
      exact work_deliver_lt rows
  | begin w waiting free next =>
      rw [work_setSession]
      exact work_setDuty_lt (by rw [waiting]; simp [Duty.work])
  | dropTurn w active skip => exact work_setDuty_lt (by rw [active]; simp [Duty.work])
  | @skippedTurn w k t job error skipping =>
      refine work_setDuty_lt (s := s.complete job (.error error)) ?_
      rw [duties_complete, skipping]
      exact Nat.lt_succ_self 4
  | operate w active run result => exact work_setDuty_lt (by rw [active]; simp [Duty.work])
  | close w leaving =>
      rw [work_setSession]
      exact work_setDuty_lt (by rw [leaving]; simp [Duty.work])
  | drop w closing =>
      rw [work_setSession]
      exact work_setDuty_lt (by rw [closing]; exact work_settle_lt _)
  | @settled w job result settling =>
      refine work_setDuty_lt (s := s.complete job result) ?_
      rw [duties_complete, settling]
      exact Nat.lt_succ_self 1
  | exit w idle empty down => exact work_setDuty_lt (by rw [idle]; exact Nat.one_pos)

/-! ## Every accepted job is told -/

/-- No client and no worker can go on. -/
def Service.Stuck (limits : ServingLimits) (s : Service m n) : Prop :=
  ∀ s', ¬ClientStep limits s s' ∧ ¬WorkerStep limits s s'

/-- A step that keeps the ticket order. -/
def OrderedServiceStep (limits : ServingLimits) (s s' : Service m n) : Prop :=
  ServiceStep limits s s' ∧ InTicketOrder s.pool s'.pool

/-- The service is reached by steps that keep the ticket order. -/
def OrderedServiceRun (limits : ServingLimits) (s : Service m n) : Prop :=
  Relation.ReflTransGen (OrderedServiceStep limits) (Service.start m n) s

theorem OrderedServiceRun.run (h : OrderedServiceRun limits s) : ServiceRun limits s :=
  Relation.ReflTransGen.mono (fun _ _ hstep => hstep.1) _ _ h

theorem OrderedServiceRun.pool (h : OrderedServiceRun limits s) : OrderedRun limits s.pool := by
  induction h with
  | refl => exact .refl
  | tail _ hstep ih =>
      rcases hstep.1.pool with heq | hpool
      · rw [heq]
        exact ih
      · exact .tail ih ⟨hpool, hstep.2⟩

/-- A ticket that is carried in the queue is that of a job there. -/
theorem exists_job_of_mem_sum {k t : ℕ} {jobs : List Job} (h : t ∈ (jobs.map (Job.tickets k)).sum) :
    ∃ job ∈ jobs, job.turn = some (k, t) := by
  induction jobs with
  | nil => exact absurd h (Multiset.notMem_zero t)
  | cons job jobs ih =>
      rw [List.map_cons, List.sum_cons, Multiset.mem_add] at h
      rcases h with h | h
      · cases hturn : job.turn with
        | none =>
            rw [tickets_none hturn] at h
            exact absurd h (Multiset.notMem_zero t)
        | some turn =>
            obtain ⟨k', t'⟩ := turn
            rw [tickets_some hturn, ticketOf] at h
            split_ifs at h with hk
            · subst hk
              rw [Multiset.mem_singleton.mp h]
              exact ⟨job, List.mem_cons_self, hturn⟩
            · exact absurd h (Multiset.notMem_zero t)
      · obtain ⟨other, hmem, hturn⟩ := ih h
        exact ⟨other, List.mem_cons_of_mem _ hmem, hturn⟩

section Stuck

variable (hstuck : s.Stuck limits)

include hstuck

/-- A worker of a service that is stuck waits, for jobs or for its turn, or has left. -/
theorem Service.Stuck.duty (h : Accounts limits s) (w : Fin n) :
    (s.duties w = .idle ∧ s.jobs = []) ∨
      (∃ k t job, s.duties w = .waiting k t job ∧ ¬((s.sessions k).turn = none ∧ (s.sessions k).state.next = t)) ∨
      s.duties w = .exited := by
  have hnone {s' : Service m n} (hstep : WorkerStep limits s s') : False := (hstuck s').2 hstep
  cases hduty : s.duties w with
  | idle =>
      cases hjobs : s.jobs with
      | nil => exact .inl ⟨rfl, rfl⟩
      | cons job rest =>
          cases hturn : job.job.turn with
          | none => exact (hnone (.takeEncode w hduty hjobs hturn)).elim
          | some turn => exact (hnone (.takeTurn w hduty hjobs (k := turn.1) (t := turn.2) hturn)).elim
  | taken job =>
      cases hskip : s.shouldSkip job with
      | none => exact (hnone (.openBatch w hduty hskip)).elim
      | some error => exact (hnone (.dropFirst w hduty hskip)).elim
  | batching jobs =>
      refine (hnone (.run w hduty (jobs.map fun job => (job, .ok ())) ?_)).elim
      rw [List.map_map]
      exact List.map_id jobs
  | picked jobs job =>
      cases hskip : s.shouldSkip job with
      | none => exact (hnone (.join w hduty hskip)).elim
      | some error => exact (hnone (.dropNext w hduty hskip)).elim
  | skipping jobs job error => exact (hnone (.skipped w hduty)).elim
  | delivering rows =>
      cases rows with
      | nil => exact absurd hduty (h.some_row w).2
      | cons row rows =>
          obtain ⟨job, result⟩ := row
          exact (hnone (.deliver w hduty)).elim
  | waiting k t job =>
      refine .inr (.inl ⟨k, t, job, rfl, ?_⟩)
      rintro ⟨hfree, hnext⟩
      exact hnone (.begin w hduty hfree hnext)
  | turn k t job =>
      cases hskip : s.shouldSkip job with
      | none => exact (hnone (.operate w hduty hskip (.ok ()))).elim
      | some error => exact (hnone (.dropTurn w hduty hskip)).elim
  | skippingTurn k t job error => exact (hnone (.skippedTurn w hduty)).elim
  | leaving k t result => exact (hnone (.close w hduty)).elim
  | closing k t result => exact (hnone (.drop w hduty)).elim
  | settling job result => exact (hnone (.settled w hduty)).elim
  | exited => exact .inr (.inr rfl)

/-- No turn is held in a service that is stuck. -/
theorem Service.Stuck.turn (h : Accounts limits s) (hok : ∀ k, SessionOk s.pool k) (k : ℕ) :
    (s.sessions k).turn = none := by
  cases hturn : (s.sessions k).turn with
  | none => rfl
  | some t =>
      obtain ⟨-, w, hw⟩ := (hok k).held t hturn
      replace hw : (s.duties w).worker.active k = some t := hw
      rcases hstuck.duty h w with ⟨hduty, -⟩ | ⟨k', t', job, hduty, -⟩ | hduty
      · rw [hduty] at hw
        cases hw
      · rw [hduty] at hw
        cases hw
      · rw [hduty] at hw
        cases hw

/-- No client of a service that is stuck is submitting. -/
theorem Service.Stuck.client (h : Accounts limits s) (hok : ∀ k, SessionOk s.pool k) (i : Fin m) :
    s.clients i = .idle := by
  have hnone {s' : Service m n} (hstep : ClientStep limits s s') : False := (hstuck s').1 hstep
  cases hclient : s.clients i with
  | idle => rfl
  | slotted k => exact (hnone (.reserve i k hclient)).elim
  | ticketed k t =>
      let job : QueuedJob := ⟨.Append k t 0, s.accepted, 0, ⟨true, false⟩, none⟩
      have own : job.job.turn = some (k, t) := rfl
      cases hq : s.queue.enqueue limits (.Append k t 0) with
      | ok q =>
          exact (hnone (.enqueue i hclient own rfl hq)).elim
      | error e =>
          exact (hnone (.refuse i hclient own hq)).elim
  | refused k t => exact (hnone (.release i hclient)).elim
  | released k t => exact (hnone (.cancel i hclient (hstuck.turn h hok k))).elim

/-- In ticket order, no worker of a service that is stuck waits for its turn: the job whose
turn is next would be in a worker's hands. -/
theorem Service.Stuck.not_waiting (h : Accounts limits s) (hrun : OrderedRun limits s.pool) (w : Fin n)
    {k t : ℕ} {job : QueuedJob} (hwaiting : s.duties w = .waiting k t job) : False := by
  have hok : ∀ k, SessionOk s.pool k := hrun.reachable.sessionOk
  have hduties (w : Fin n) {k' t' : ℕ} {job' : QueuedJob} (hw : s.duties w = .waiting k' t' job') :
      (s.sessions k').state.next ≠ t' := by
    intro hnext
    exact (hstuck _).2 (.begin w hw (hstuck.turn h hok k') hnext)
  have htickets : t ∈ (s.pool.workers w).tickets k := by
    show t ∈ (s.duties w).worker.tickets k
    rw [hwaiting, Duty.worker, Worker.tickets, ticketOf_self]
    exact Multiset.mem_singleton_self t
  have hcarried : t ∈ s.pool.carried k := Multiset.mem_of_le (le_carried_worker s.pool w k) htickets
  have hunsettled := (hok k).mem_outstanding hcarried
  rw [ServingSession.outstanding_eq, SessionSequenceState.mem_unsettled] at hunsettled
  -- The ticket that is next comes before, and is nobody's but a worker's or the queue's.
  have hne : (s.sessions k).state.next ≠ t := hduties w hwaiting
  have hle : (s.sessions k).state.next ≤ t := hunsettled.1.1
  have hlt : (s.sessions k).state.next < t := lt_of_le_of_ne hle hne
  have hnext : (s.sessions k).state.next ∈ s.pool.carried k := by
    rw [(hok k).carried]
    show _ ∈ (s.pool.sessions k).state.unsettled _
    rw [SessionSequenceState.mem_unsettled]
    exact ⟨⟨le_rfl, hlt.trans hunsettled.1.2⟩, fun hmem => lt_irrefl _ ((hok k).seq.cancelled _ hmem).1⟩
  rw [Pool.carried, Multiset.mem_add, Multiset.mem_add, Multiset.mem_sum] at hnext
  rcases hnext with (⟨i, -, hi⟩ | hqueue) | hworkers
  · replace hi : (s.sessions k).state.next ∈ (s.clients i).tickets k := hi
    rw [hstuck.client h hok i] at hi
    exact Multiset.notMem_zero _ hi
  · obtain ⟨job', hjob, hturn⟩ := exists_job_of_mem_sum hqueue
    exact lt_asymm hlt ((hrun.inOrder k).worker_queue w t htickets job' hjob _ hturn)
  · obtain ⟨w', -, hw'⟩ := Multiset.mem_sum.mp hworkers
    replace hw' : (s.sessions k).state.next ∈ (s.duties w').worker.tickets k := hw'
    rcases hstuck.duty h w' with ⟨hduty, -⟩ | ⟨k', t', job', hduty, -⟩ | hduty
    · rw [hduty] at hw'
      exact Multiset.notMem_zero _ hw'
    · rw [hduty, Duty.worker, Worker.tickets, ticketOf] at hw'
      split_ifs at hw' with hk
      · subst hk
        exact hduties w' hduty (Multiset.mem_singleton.mp hw')
      · exact Multiset.notMem_zero _ hw'
    · rw [hduty] at hw'
      exact Multiset.notMem_zero _ hw'

end Stuck

/-- A job that is accepted in ticket order is told by the time nothing goes on. -/
theorem OrderedServiceRun.told (hlimits : validateLimits limits = .ok ()) (hn : 0 < n)
    (hrun : OrderedServiceRun limits s) (hstuck : s.Stuck limits) {c : ℕ} (hc : c < s.accepted) :
    (s.completions c).results.length = 1 := by
  have haccounts := hrun.run.accounts hlimits
  have hduty (w : Fin n) : (s.duties w).jobs = [] ∧ s.jobs = [] := by
    rcases hstuck.duty haccounts w with ⟨hduty, hjobs⟩ | ⟨k, t, job, hduty, -⟩ | hduty
    · rw [hduty]
      exact ⟨rfl, hjobs⟩
    · exact (hstuck.not_waiting haccounts hrun.pool w hduty).elim
    · rw [hduty]
      exact ⟨rfl, (haccounts.exited w hduty).2⟩
  have honce := haccounts.once c
  have hheld : s.held c = 0 := by
    rw [Service.held, (hduty ⟨0, hn⟩).2, holds_nil, Nat.zero_add]
    exact Finset.sum_eq_zero fun w _ => by rw [(hduty w).1, holds_nil]
  rw [hheld, if_pos hc] at honce
  omega

/-- The operations that session `k` counts are the ones in flight, with their tickets. -/
structure CountsInFlight (s : Service m n) (k : ℕ) : Prop where
  pending : (s.sessions k).pending + s.pool.leaving k = (s.sessions k).outstanding.card + s.pool.entering k
  outstanding : s.pool.carried k = (s.sessions k).outstanding.val

/-- Serving queue accounting. In every run, the queue knows its bytes and keeps its limits, a
worker's batch is made of encodes that agree within the bounds of a batch, a job that was accepted
is in one place until it is told and is told at most once, a job that is refused leaves the queue
as it was, and a session counts the operations in flight. Threads that go on come to an end; and
if the jobs of every session entered the queue in ticket order, each accepted job is told then. -/
theorem serving_accounting (hlimits : validateLimits limits = .ok ()) :
    (∀ s : Service m limits.workerThreads, ServiceRun limits s →
      Accounts limits s ∧ (∀ k, CountsInFlight s k) ∧
        ∀ s', ServiceStep limits s s' →
          (ClientStep limits s s' → s'.accepted = s.accepted → s'.queue = s.queue) ∧
          (ClientStep limits s s' ∨ WorkerStep limits s s' → s'.work < s.work)) ∧
    ∀ s : Service m limits.workerThreads, OrderedServiceRun limits s → s.Stuck limits →
      ∀ c < s.accepted, (s.completions c).results.length = 1 := by
  have hn : 0 < limits.workerThreads := by
    unfold validateLimits at hlimits
    split_ifs at hlimits with h
    omega
  refine ⟨?_, fun s hrun hstuck c hc => hrun.told hlimits hn hstuck hc⟩
  intro s hrun
  refine ⟨hrun.accounts hlimits, fun k => ?_, fun s' _ => ⟨?_, ?_⟩⟩
  · have hok := hrun.pool.sessionOk k
    exact ⟨hok.count, hok.carried⟩
  · intro hstep haccepted
    cases hstep with
    | reserve i k slotted => rfl
    | enqueue i ticketed own fresh admitted => exact absurd haccepted (Nat.succ_ne_self s.accepted)
    | refuse i ticketed own rejected => rfl
    | release i refused => rfl
    | cancel i released free => rfl
  · rintro (hstep | hstep)
    · exact hstep.work_lt
    · exact hstep.work_lt

/-- Clients that are not submitting do not go on. -/
theorem not_clientStep (h : ∀ i, s.clients i = .idle) : ¬ClientStep limits s s' := by
  intro hstep
  cases hstep with
  | reserve i k slotted => exact Client.noConfusion ((h i).symm.trans slotted)
  | enqueue i ticketed own fresh admitted => exact Client.noConfusion ((h i).symm.trans ticketed)
  | refuse i ticketed own rejected => exact Client.noConfusion ((h i).symm.trans ticketed)
  | release i refused => exact Client.noConfusion ((h i).symm.trans refused)
  | cancel i released free => exact Client.noConfusion ((h i).symm.trans released)

/-- Workers without a job to take do not go on. -/
theorem not_workerStep_of_idle (h : ∀ w, s.duties w = .idle) (hjobs : s.jobs = []) (hdown : s.shutdown = false) :
    ¬WorkerStep limits s s' := by
  intro hstep
  cases hstep <;> simp_all

/-- Workers that wait for another ticket than the next do not go on. -/
theorem not_workerStep_of_waiting {k t : ℕ} {job : QueuedJob} (h : ∀ w, s.duties w = .waiting k t job)
    (hnext : (s.sessions k).state.next ≠ t) : ¬WorkerStep limits s s' := by
  intro hstep
  cases hstep with
  | @begin w k' t' job' waiting free next =>
      rw [h w] at waiting
      cases waiting
      exact hnext next
  | _ => simp_all

/-- One encode, from its submission to its completion. -/
theorem serving_accounting_default :
    ∃ s : Service 2 1, Accounts defaultLimits s ∧ (s.completions 0).results.length = 1 := by
  let job : QueuedJob := ⟨.Encode 5, 0, 0, ⟨true, false⟩, none⟩
  obtain ⟨s, hrun, hduties, hjobs, hclients, hdown, haccepted⟩ :
      ∃ s : Service 2 1, OrderedServiceRun defaultLimits s ∧ s.duties 0 = .idle ∧ s.jobs = [] ∧
        (∀ i, s.clients i = .idle) ∧ s.shutdown = false ∧ s.accepted = 1 := by
    refine ⟨_, .tail (.tail (.tail (.tail (.tail .refl
      ⟨.inr (.inr (@OuterStep.submit _ _ _ _ job rfl rfl ⟨[.Encode 5], 5, false⟩ rfl)), ?_⟩)
      ⟨.inr (.inl (@WorkerStep.takeEncode _ _ _ _ 0 rfl job [] rfl rfl)), ?_⟩)
      ⟨.inr (.inl (@WorkerStep.openBatch _ _ _ _ 0 job rfl rfl)), ?_⟩)
      ⟨.inr (.inl (@WorkerStep.run _ _ _ _ 0 [job] rfl [(job, .ok ())] rfl)), ?_⟩)
      ⟨.inr (.inl (@WorkerStep.deliver _ _ _ _ 0 job (.ok ()) [] rfl)), ?_⟩,
      rfl, rfl, fun _ => rfl, rfl, rfl⟩ <;>
    · intro i k t hi
      cases hi
  have hstuck : s.Stuck defaultLimits := by
    intro s'
    have hidle (w : Fin 1) : s.duties w = .idle := by
      rw [Subsingleton.elim w 0]
      exact hduties
    exact ⟨not_clientStep hclients, not_workerStep_of_idle hidle hjobs hdown⟩
  have hvalid : validateLimits defaultLimits = .ok () := rfl
  have haccounts := serving_accounting (m := 2) hvalid
  refine ⟨s, (haccounts.1 s hrun.run).1, haccounts.2 s hrun hstuck 0 ?_⟩
  rw [haccepted]
  exact Nat.one_pos

/-- Two clients of a session, and one worker. The worker takes the job with the later ticket,
whose turn the other job holds up in the queue: both were accepted, and neither is ever told. -/
theorem stuck_jobs :
    ∃ s : Service 2 1, ServiceRun defaultLimits s ∧ s.Stuck defaultLimits ∧
      s.accepted = 2 ∧ ∀ c, (s.completions c).results = [] := by
  let early : QueuedJob := ⟨.Append 0 0 1, 1, 0, ⟨true, false⟩, none⟩
  let late : QueuedJob := ⟨.Append 0 1 1, 0, 0, ⟨true, false⟩, none⟩
  obtain ⟨s, hrun, hduty, hnext, hclients, haccepted, hresults⟩ :
      ∃ s : Service 2 1, ServiceRun defaultLimits s ∧ s.duties 0 = .waiting 0 1 late ∧
        (s.sessions 0).state.next = 0 ∧ (∀ i, s.clients i = .idle) ∧ s.accepted = 2 ∧
          ∀ c, (s.completions c).results = [] := by
    refine ⟨_, .tail (.tail (.tail (.tail (.tail (.tail (.tail .refl
      (.inr (.inr (.slot 0 0 rfl (by decide))))) (.inl (.reserve 0 0 rfl)))
      (.inr (.inr (.slot 1 0 rfl (by decide))))) (.inl (.reserve 1 0 rfl)))
      (.inl (@ClientStep.enqueue _ _ _ _ 1 _ _ rfl late rfl rfl ⟨[.Append 0 1 1], 1, false⟩ rfl)))
      (.inr (.inl (@WorkerStep.takeTurn _ _ _ _ 0 rfl late _ rfl _ _ rfl))))
      (.inl (@ClientStep.enqueue _ _ _ _ 0 _ _ rfl early rfl rfl ⟨[.Append 0 0 1], 1, false⟩ rfl)),
      rfl, rfl, ?_, rfl, fun _ => rfl⟩
    intro i
    fin_cases i <;> rfl
  have hwaiting (w : Fin 1) : s.duties w = .waiting 0 1 late := by
    rw [Subsingleton.elim w 0]
    exact hduty
  have hbehind : (s.sessions 0).state.next ≠ 1 := by
    rw [hnext]
    exact Nat.zero_ne_one
  exact ⟨s, hrun, fun s' => ⟨not_clientStep hclients, not_workerStep_of_waiting hwaiting hbehind⟩,
    haccepted, hresults⟩

end Toktier.Serving
