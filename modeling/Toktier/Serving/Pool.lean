import Mathlib.Algebra.BigOperators.Fin
import Mathlib.Data.Finset.Max
import Mathlib.Logic.Relation
import Mathlib.Order.Interval.Finset.Nat

/-!
# The serving pool

Clients submit operations on sessions to a bounded queue, and worker threads run them. A
submission takes a slot of its session, then a ticket, then a place in the queue; a worker
that has dequeued a session operation waits for its ticket's turn. Each of these is a step
of its own, under a lock of its own, and the steps of all threads interleave freely.

A turn keeps the lock of its session's sequencer until it is dropped, so nobody can wait
for a turn or cancel a ticket of that session meanwhile. Counters are natural numbers. What
a job computes, and how its caller is told, does not touch the order of the session and is
left out; a turn whose request was cancelled or has expired is a turn like any other.

## Main definitions

* `ServingLimits`, `QueueState.enqueue`: admission to the queue.
* `SessionSequenceState`, `advanceCancelled`: the sequencer of a session.
* `Client`, `Worker`, `Pool`: where each thread stands, and what they share.
* `Step`: one step of one thread.
-/
namespace Toktier.Serving

/-! ## Limits and errors -/

inductive ErrorCode
  | ConfigInvalid
  | QueueFull
  | RuntimeShutdown
  deriving DecidableEq

structure ServingError where
  code : ErrorCode
  message : String
  deriving DecidableEq

/-- Resource limits of a serving queue. -/
structure ServingLimits where
  maxQueuedRequests : ℕ
  maxQueuedBytes : ℕ
  maxBatchRows : ℕ
  maxBatchBytes : ℕ
  /-- Queued or executing operations of one session. -/
  maxSessionRequests : ℕ
  workerThreads : ℕ
  deriving DecidableEq

def validateLimits (limits : ServingLimits) : Except ServingError Unit :=
  if limits.maxQueuedRequests = 0 ∨ limits.maxQueuedBytes = 0 ∨ limits.maxBatchRows = 0 ∨
      limits.maxBatchBytes = 0 ∨ limits.maxSessionRequests = 0 ∨ limits.workerThreads = 0 ∨
      limits.maxBatchBytes > limits.maxQueuedBytes then
    .error ⟨.ConfigInvalid,
      "serving limits must be non-zero and batch bytes may not exceed queue bytes"⟩
  else .ok ()

/-! ## The queue -/

/-- A queued operation; those on a session carry their ticket. -/
inductive Job
  | Encode (bytes : ℕ)
  | Seed (session ticket bytes : ℕ)
  | Append (session ticket bytes : ℕ)
  deriving DecidableEq

namespace Job

def bytes : Job → ℕ
  | Encode bytes => bytes
  | Seed _ _ bytes => bytes
  | Append _ _ bytes => bytes

/-- The session and the ticket of an operation on a session. -/
def turn : Job → Option (ℕ × ℕ)
  | Encode _ => none
  | Seed session ticket _ => some (session, ticket)
  | Append session ticket _ => some (session, ticket)

end Job

structure QueueState where
  jobs : List Job
  queuedBytes : ℕ
  shutdown : Bool
  deriving DecidableEq

/-- Admit a job at the end of the queue. -/
def QueueState.enqueue (limits : ServingLimits) (q : QueueState) (job : Job) :
    Except ServingError QueueState :=
  if job.bytes > limits.maxBatchBytes ∨ job.bytes > limits.maxQueuedBytes then
    .error ⟨.QueueFull, "request exceeds the configured queue/batch byte bound"⟩
  else if q.shutdown = true then
    .error ⟨.RuntimeShutdown, "serving pool is shutting down"⟩
  else if q.jobs.length ≥ limits.maxQueuedRequests ∨
      q.queuedBytes + job.bytes > limits.maxQueuedBytes then
    .error ⟨.QueueFull, "serving queue is full"⟩
  else .ok { q with jobs := q.jobs ++ [job], queuedBytes := q.queuedBytes + job.bytes }

theorem QueueState.enqueue_ok {limits : ServingLimits} {q q' : QueueState} {job : Job}
    (h : q.enqueue limits job = .ok q') : q'.jobs = q.jobs ++ [job] := by
  unfold enqueue at h
  split_ifs at h
  cases h
  rfl

/-! ## The sequencer -/

/-- What the lock of a sequencer guards: the ticket whose turn is next, and the later ones
that were cancelled. -/
structure SessionSequenceState where
  next : ℕ
  cancelled : Finset ℕ

/-- Skip the cancelled tickets at the front. -/
def advanceCancelled (st : SessionSequenceState) : SessionSequenceState :=
  if st.next ∈ st.cancelled then
    advanceCancelled { next := st.next + 1, cancelled := st.cancelled.erase st.next }
  else st
termination_by st.cancelled.card
decreasing_by exact Finset.card_erase_lt_of_mem ‹_›

/-- Mark a ticket as cancelled. -/
def SessionSequenceState.cancel (st : SessionSequenceState) (ticket : ℕ) : SessionSequenceState :=
  advanceCancelled { st with cancelled := insert ticket st.cancelled }

/-- End the turn of the next ticket. -/
def SessionSequenceState.finishTurn (st : SessionSequenceState) : SessionSequenceState :=
  advanceCancelled { st with next := st.next + 1 }

theorem advanceCancelled_of_notMem {st : SessionSequenceState} (h : st.next ∉ st.cancelled) :
    advanceCancelled st = st := by
  rw [advanceCancelled, if_neg h]

/-- The loop skips exactly the cancelled tickets at the front, and stops before one that
was not cancelled. -/
theorem advanceCancelled_spec (st : SessionSequenceState) :
    st.next ≤ (advanceCancelled st).next ∧
      (advanceCancelled st).next ∉ (advanceCancelled st).cancelled ∧
      (∀ t, st.next ≤ t → t < (advanceCancelled st).next → t ∈ st.cancelled) ∧
      ∀ t, t ∈ (advanceCancelled st).cancelled ↔
        t ∈ st.cancelled ∧ ¬(st.next ≤ t ∧ t < (advanceCancelled st).next) := by
  induction st using advanceCancelled.induct with
  | case1 st h ih =>
      obtain ⟨hle, hstop, hskip, hmem⟩ := ih
      simp only at hle hskip hmem
      rw [advanceCancelled, if_pos h]
      simp only [Finset.mem_erase] at hskip hmem
      refine ⟨by omega, hstop, ?_, ?_⟩
      · intro t ht hlt
        by_cases heq : t = st.next
        · rw [heq]
          exact h
        · exact (hskip t (by omega) hlt).2
      · intro t
        rw [hmem]
        constructor
        · rintro ⟨⟨hne, ht⟩, hout⟩
          exact ⟨ht, by omega⟩
        · rintro ⟨ht, hout⟩
          exact ⟨⟨by omega, ht⟩, by omega⟩
  | case2 st h =>
      rw [advanceCancelled_of_notMem h]
      refine ⟨le_rfl, h, ?_, ?_⟩
      · intro t ht hlt
        omega
      · intro t
        constructor
        · intro ht
          exact ⟨ht, by omega⟩
        · exact fun ht => ht.1

/-- What the threads share of one session. -/
structure ServingSession where
  pending : ℕ
  issued : ℕ
  state : SessionSequenceState
  /-- The ticket of the turn that holds the lock of `state`. -/
  turn : Option ℕ
  /-- Ghost: the tickets that were given their turn, in order. -/
  ran : List ℕ
  /-- Ghost: the tickets that were cancelled. -/
  withdrawn : Finset ℕ

def ServingSession.new : ServingSession where
  pending := 0
  issued := 0
  state := ⟨0, ∅⟩
  turn := none
  ran := []
  withdrawn := ∅

/-- The tickets that are reserved, and neither finished nor cancelled. -/
def ServingSession.outstanding (s : ServingSession) : Finset ℕ :=
  Finset.Ico s.state.next s.issued \ s.state.cancelled

/-! ## Threads -/

/-- Where a client stands in a submission. -/
inductive Client
  | idle
  /-- A slot of the session is taken. -/
  | slotted (session : ℕ)
  /-- A ticket is reserved, and the job is about to be enqueued. -/
  | ticketed (session ticket : ℕ)
  /-- The queue refused the job. -/
  | refused (session ticket : ℕ)
  /-- The slot is given back, and the ticket is about to be cancelled. -/
  | released (session ticket : ℕ)
  deriving DecidableEq

/-- Where a worker stands. -/
inductive Worker
  | idle
  | encoding
  /-- Waiting for the turn of its ticket. -/
  | waiting (session ticket : ℕ)
  /-- Holding the turn. -/
  | turn (session ticket : ℕ)
  /-- Holding the turn, with the slot given back. -/
  | closing (session ticket : ℕ)
  | exited
  deriving DecidableEq

/-- The pool with `m` clients and `n` workers. -/
structure Pool (m n : ℕ) where
  queue : QueueState
  sessions : ℕ → ServingSession
  clients : Fin m → Client
  workers : Fin n → Worker

namespace Pool

variable {m n : ℕ}

/-- A pool that has just been built. -/
def start (m n : ℕ) : Pool m n where
  queue := ⟨[], 0, false⟩
  sessions := fun _ => .new
  clients := fun _ => .idle
  workers := fun _ => .idle

def setClient (p : Pool m n) (i : Fin m) (c : Client) : Pool m n :=
  { p with clients := Function.update p.clients i c }

def setWorker (p : Pool m n) (w : Fin n) (x : Worker) : Pool m n :=
  { p with workers := Function.update p.workers w x }

def setSession (p : Pool m n) (k : ℕ) (s : ServingSession) : Pool m n :=
  { p with sessions := Function.update p.sessions k s }

end Pool

/-- One step of one thread. -/
inductive Step (limits : ServingLimits) {m n : ℕ} : Pool m n → Pool m n → Prop
  /-- `reserve_session_slot`. -/
  | slot {p : Pool m n} (i : Fin m) (k : ℕ) (idle : p.clients i = .idle)
      (room : (p.sessions k).pending < limits.maxSessionRequests) :
      Step limits p ((p.setClient i (.slotted k)).setSession k
        { p.sessions k with pending := (p.sessions k).pending + 1 })
  /-- `SessionSequencer::reserve`. -/
  | reserve {p : Pool m n} (i : Fin m) (k : ℕ) (slotted : p.clients i = .slotted k) :
      Step limits p ((p.setClient i (.ticketed k (p.sessions k).issued)).setSession k
        { p.sessions k with issued := (p.sessions k).issued + 1 })
  /-- The job is admitted. -/
  | enqueue {p : Pool m n} (i : Fin m) {k t : ℕ} (ticketed : p.clients i = .ticketed k t)
      {job : Job} (own : job.turn = some (k, t)) {q : QueueState}
      (admitted : p.queue.enqueue limits job = .ok q) :
      Step limits p { p.setClient i .idle with queue := q }
  /-- The job is refused. -/
  | refuse {p : Pool m n} (i : Fin m) {k t : ℕ} (ticketed : p.clients i = .ticketed k t)
      {job : Job} (own : job.turn = some (k, t)) {e : ServingError}
      (rejected : p.queue.enqueue limits job = .error e) :
      Step limits p (p.setClient i (.refused k t))
  /-- The slot of a refused job is given back. -/
  | release {p : Pool m n} (i : Fin m) {k t : ℕ} (refused : p.clients i = .refused k t) :
      Step limits p ((p.setClient i (.released k t)).setSession k
        { p.sessions k with pending := (p.sessions k).pending - 1 })
  /-- `SessionSequencer::cancel`, once no turn holds the lock. -/
  | cancel {p : Pool m n} (i : Fin m) {k t : ℕ} (released : p.clients i = .released k t)
      (free : (p.sessions k).turn = none) :
      Step limits p ((p.setClient i .idle).setSession k
        { p.sessions k with
          state := (p.sessions k).state.cancel t
          withdrawn := insert t (p.sessions k).withdrawn })
  /-- A stateless encode is admitted. -/
  | submit {p : Pool m n} {bytes : ℕ} {q : QueueState}
      (admitted : p.queue.enqueue limits (.Encode bytes) = .ok q) :
      Step limits p { p with queue := q }
  /-- A worker takes the first job, an encode. -/
  | takeEncode {p : Pool m n} (w : Fin n) (idle : p.workers w = .idle) {job : Job}
      {rest : List Job} (first : p.queue.jobs = job :: rest) (stateless : job.turn = none) :
      Step limits p { p.setWorker w .encoding with
        queue := { p.queue with jobs := rest, queuedBytes := p.queue.queuedBytes - job.bytes } }
  /-- A worker takes the first job, an operation on a session. -/
  | takeTurn {p : Pool m n} (w : Fin n) (idle : p.workers w = .idle) {job : Job}
      {rest : List Job} (first : p.queue.jobs = job :: rest) {k t : ℕ}
      (own : job.turn = some (k, t)) :
      Step limits p { p.setWorker w (.waiting k t) with
        queue := { p.queue with jobs := rest, queuedBytes := p.queue.queuedBytes - job.bytes } }
  /-- An encode batch takes another encode from anywhere in the queue. -/
  | batch {p : Pool m n} (w : Fin n) (encoding : p.workers w = .encoding) {before after : List Job}
      {job : Job} (found : p.queue.jobs = before ++ job :: after) (stateless : job.turn = none) :
      Step limits p { p with
        queue := { p.queue with
          jobs := before ++ after, queuedBytes := p.queue.queuedBytes - job.bytes } }
  /-- A batch is done. -/
  | encoded {p : Pool m n} (w : Fin n) (encoding : p.workers w = .encoding) :
      Step limits p (p.setWorker w .idle)
  /-- `wait_for` returns: the ticket is next, and no turn holds the lock. -/
  | begin {p : Pool m n} (w : Fin n) {k t : ℕ} (waiting : p.workers w = .waiting k t)
      (free : (p.sessions k).turn = none) (next : (p.sessions k).state.next = t) :
      Step limits p ((p.setWorker w (.turn k t)).setSession k
        { p.sessions k with turn := some t, ran := (p.sessions k).ran ++ [t] })
  /-- The operation is over, or was skipped; the slot is given back. -/
  | close {p : Pool m n} (w : Fin n) {k t : ℕ} (active : p.workers w = .turn k t) :
      Step limits p ((p.setWorker w (.closing k t)).setSession k
        { p.sessions k with pending := (p.sessions k).pending - 1 })
  /-- The turn is dropped. -/
  | drop {p : Pool m n} (w : Fin n) {k t : ℕ} (closing : p.workers w = .closing k t) :
      Step limits p ((p.setWorker w .idle).setSession k
        { p.sessions k with
          state := (p.sessions k).state.finishTurn
          turn := none })
  /-- The pool is shut down. -/
  | shutdown {p : Pool m n} : Step limits p { p with queue := { p.queue with shutdown := true } }
  /-- A worker leaves a pool that is shut down, once the queue is empty. -/
  | exit {p : Pool m n} (w : Fin n) (idle : p.workers w = .idle) (empty : p.queue.jobs = [])
      (down : p.queue.shutdown = true) : Step limits p (p.setWorker w .exited)

end Toktier.Serving
