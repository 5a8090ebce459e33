import Toktier.Serving.SessionOrder
import Mathlib.Tactic.FinCases

/-!
# Waiting for an earlier ticket

A worker that has dequeued an operation waits for the tickets before it. If the job of such
a ticket comes later in the queue, or has not been put there yet, it takes another worker to
run it; once every worker waits like this, none is left.

Taking a ticket and putting the job into the queue are two steps, so two clients of one
session can do the second in the opposite order of the first. With one worker this is
enough to stop the pool. It cannot happen while the jobs of a session are put into the
queue in ticket order.

## Main definitions

* `Pool.Wedged`: every worker waits for a job that is not in a worker's hands.
* `InTicketOrder`: no client puts its job into the queue before one that holds an earlier
  ticket of the session.

## Main results

* `two_clients_wedge`: two clients and one worker reach a wedged state.
* `no_wedge`: a run in ticket order does not.
-/
namespace Toktier.Serving

variable {m n : ℕ}

/-- The job of a ticket is in the queue, or with a client that is about to put it there. -/
def Pool.Undelivered (p : Pool m n) (k t : ℕ) : Prop :=
  (∃ job ∈ p.queue.jobs, job.turn = some (k, t)) ∨ ∃ i, p.clients i = .ticketed k t

/-- Every worker is blocked by an earlier ticket of its session, whose job no worker has. -/
def Pool.Wedged (p : Pool m n) : Prop :=
  ∀ w, ∃ k t t', p.workers w = .waiting k t ∧ t' < t ∧ (p.sessions k).state.next = t' ∧
    p.Undelivered k t'

/-- A client that puts its job into the queue holds the earliest ticket of the session
among the clients that are about to. -/
def InTicketOrder (p p' : Pool m n) : Prop :=
  ∀ i k t, p.clients i = .ticketed k t → p'.clients i = .idle →
    ∀ j t', p.clients j = .ticketed k t' → t ≤ t'

/-- A step that keeps the ticket order. -/
def OrderedStep (limits : ServingLimits) (p p' : Pool m n) : Prop :=
  Step limits p p' ∧ InTicketOrder p p'

/-- The pool is reached by steps that keep the ticket order. -/
def OrderedRun (limits : ServingLimits) (p : Pool m n) : Prop :=
  Relation.ReflTransGen (OrderedStep limits) (Pool.start m n) p

theorem OrderedRun.reachable {limits : ServingLimits} {p : Pool m n} (h : OrderedRun limits p) :
    Reachable limits p :=
  Relation.ReflTransGen.mono (fun _ _ hstep => hstep.1) _ _ h

/-! ## The order of the queue -/

/-- `a` comes before `b`, if they are operations on session `k`. -/
def Job.Before (k : ℕ) (a b : Job) : Prop :=
  ∀ t t', a.turn = some (k, t) → b.turn = some (k, t') → t < t'

/-- The tickets of session `k` stand in order: with the workers, then in the queue, then
with the clients that are about to put them there. -/
structure InOrder (p : Pool m n) (k : ℕ) : Prop where
  queue : p.queue.jobs.Pairwise (Job.Before k)
  worker_queue : ∀ w t, t ∈ (p.workers w).tickets k →
    ∀ job ∈ p.queue.jobs, ∀ t', job.turn = some (k, t') → t < t'
  queue_client : ∀ job ∈ p.queue.jobs, ∀ t, job.turn = some (k, t) →
    ∀ i t', p.clients i = .ticketed k t' → t < t'
  worker_client : ∀ w t, t ∈ (p.workers w).tickets k →
    ∀ i t', p.clients i = .ticketed k t' → t < t'

section Order

variable {limits : ServingLimits} {p p' : Pool m n} {k : ℕ}

/-- Nothing was put anywhere: workers, queue and clients have at most what they had. -/
theorem InOrder.of_subset (h : InOrder p k)
    (hq : List.Sublist p'.queue.jobs p.queue.jobs)
    (hw : ∀ w t, t ∈ (p'.workers w).tickets k → t ∈ (p.workers w).tickets k)
    (hc : ∀ i t, p'.clients i = .ticketed k t → p.clients i = .ticketed k t) : InOrder p' k where
  queue := h.queue.sublist hq
  worker_queue := by
    intro w t ht job hjob
    exact h.worker_queue w t (hw w t ht) job (hq.subset hjob)
  queue_client := by
    intro job hjob t ht i t' hi
    exact h.queue_client job (hq.subset hjob) t ht i t' (hc i t' hi)
  worker_client := by
    intro w t ht i t' hi
    exact h.worker_client w t (hw w t ht) i t' (hc i t' hi)

/-- A client moves to a place other than the one before the queue. -/
theorem ticketed_of_setClient {i j : Fin m} {c : Client} {t : ℕ}
    (hc : ∀ t, c ≠ .ticketed k t) (h : (p.setClient i c).clients j = .ticketed k t) :
    p.clients j = .ticketed k t := by
  by_cases heq : j = i
  · subst heq
    simp only [Pool.setClient, Function.update_self] at h
    exact absurd h (hc t)
  · simpa only [Pool.setClient, Function.update_of_ne heq] using h

/-- A worker moves, and carries no other ticket than before. -/
theorem tickets_of_setWorker {w w' : Fin n} {x : Worker} {t : ℕ}
    (hx : ∀ t, t ∈ x.tickets k → t ∈ (p.workers w).tickets k)
    (h : t ∈ ((p.setWorker w x).workers w').tickets k) : t ∈ (p.workers w').tickets k := by
  by_cases heq : w' = w
  · subst heq
    rw [Pool.workers_setWorker_self] at h
    exact hx t h
  · rwa [Pool.workers_setWorker_ne _ heq] at h

theorem mem_tickets_ticketed {c : Client} {t : ℕ} (h : c = .ticketed k t) : t ∈ c.tickets k := by
  rw [h, Client.tickets, ticketOf_self]
  exact Multiset.mem_singleton_self t

/-- A ticket that a client or a worker holds was issued. -/
theorem SessionOk.lt_issued (h : SessionOk p k) {t : ℕ} (ht : t ∈ p.carried k) :
    t < (p.sessions k).issued := by
  have hmem := h.mem_outstanding ht
  rw [ServingSession.outstanding_eq, SessionSequenceState.mem_unsettled] at hmem
  exact hmem.1.2

theorem mem_carried_of_job {job : Job} (hjob : job ∈ p.queue.jobs) {t : ℕ}
    (ht : job.turn = some (k, t)) : t ∈ p.carried k := by
  have hmem : t ∈ (p.queue.jobs.map (Job.tickets k)).sum := by
    apply Multiset.mem_of_le (List.single_le_sum (fun _ _ => Multiset.zero_le _) _
      (List.mem_map_of_mem hjob))
    rw [Job.tickets, ht]
    simp
  unfold Pool.carried
  exact Multiset.mem_add.mpr (.inl (Multiset.mem_add.mpr (.inr hmem)))

/-- Two clients do not hold the same ticket. -/
theorem SessionOk.client_unique (h : SessionOk p k) {i j : Fin m} {t : ℕ}
    (hi : t ∈ (p.clients i).tickets k) (hj : t ∈ (p.clients j).tickets k) : i = j := by
  by_contra hne
  have hpair : (p.clients i).tickets k + (p.clients j).tickets k ≤ p.carried k := by
    have hsub : ∑ l ∈ {i, j}, (p.clients l).tickets k ≤ ∑ l, (p.clients l).tickets k :=
      Finset.sum_le_sum_of_subset (Finset.subset_univ _)
    rw [Finset.sum_pair hne] at hsub
    unfold Pool.carried
    rw [add_assoc]
    exact hsub.trans (Multiset.le_add_right _ _)
  have hnodup : (p.carried k).Nodup := by
    rw [h.carried]
    exact Finset.nodup _
  have hdisj := (Multiset.nodup_add.mp (Multiset.nodup_of_le hpair hnodup)).2.2
  exact Multiset.disjoint_left.mp hdisj hi hj

/-- The ticket a client takes comes after all that are on their way. -/
theorem inOrder_reserve (hok : SessionOk p k) (h : InOrder p k) (i : Fin m) (s : ServingSession) :
    InOrder ((p.setClient i (.ticketed k (p.sessions k).issued)).setSession k s) k where
  queue := h.queue
  worker_queue := h.worker_queue
  queue_client := by
    intro job hjob t ht j t' hj
    by_cases heq : j = i
    · subst heq
      simp only [Pool.setSession, Pool.setClient, Function.update_self] at hj
      cases hj
      exact hok.lt_issued (mem_carried_of_job (p := p) hjob ht)
    · simp only [Pool.setSession, Pool.setClient, Function.update_of_ne heq] at hj
      exact h.queue_client job hjob t ht j t' hj
  worker_client := by
    intro w t ht j t' hj
    by_cases heq : j = i
    · subst heq
      simp only [Pool.setSession, Pool.setClient, Function.update_self] at hj
      cases hj
      exact hok.lt_issued (Multiset.mem_of_le (le_carried_worker p w k) ht)
    · simp only [Pool.setSession, Pool.setClient, Function.update_of_ne heq] at hj
      exact h.worker_client w t ht j t' hj

/-- A job that is put into the queue by the client with the earliest ticket comes after all
that are there, and before those of the other clients. -/
theorem inOrder_enqueue (hok : SessionOk p k) (h : InOrder p k) {i : Fin m} {k' t : ℕ}
    (ticketed : p.clients i = .ticketed k' t) {job : Job} (own : job.turn = some (k', t))
    {q : QueueState} (admitted : p.queue.enqueue limits job = .ok q)
    (hfirst : ∀ j t', p.clients j = .ticketed k' t' → t ≤ t') :
    InOrder { p.setClient i .idle with queue := q } k := by
  have hjobs := QueueState.enqueue_ok admitted
  have hclient (j : Fin m) (t' : ℕ)
      (hj : (p.setClient i .idle).clients j = .ticketed k t') : p.clients j = .ticketed k t' :=
    ticketed_of_setClient (fun _ => Client.noConfusion) hj
  constructor
  · show q.jobs.Pairwise (Job.Before k)
    rw [hjobs, List.pairwise_append]
    refine ⟨h.queue, List.pairwise_singleton _ _, ?_⟩
    intro a ha b hb t₁ t₂ h₁ h₂
    rw [List.mem_singleton.mp hb, own] at h₂
    cases h₂
    exact h.queue_client a ha t₁ h₁ i _ ticketed
  · intro w t₁ hw b hb t₂ h₂
    replace hb : b ∈ q.jobs := hb
    rw [hjobs, List.mem_append, List.mem_singleton] at hb
    rcases hb with hb | rfl
    · exact h.worker_queue w t₁ hw b hb t₂ h₂
    · rw [own] at h₂
      cases h₂
      exact h.worker_client w t₁ hw i _ ticketed
  · intro a ha t₁ h₁ j t₂ hj
    replace ha : a ∈ q.jobs := ha
    rw [hjobs, List.mem_append, List.mem_singleton] at ha
    rcases ha with ha | rfl
    · exact h.queue_client a ha t₁ h₁ j t₂ (hclient j t₂ hj)
    · rw [own] at h₁
      cases h₁
      apply lt_of_le_of_ne (hfirst j t₂ (hclient j t₂ hj))
      rintro rfl
      have heq : i = j := hok.client_unique (mem_tickets_ticketed ticketed)
        (mem_tickets_ticketed (hclient j _ hj))
      subst heq
      simp [Pool.setClient] at hj
  · intro w t₁ hw j t₂ hj
    exact h.worker_client w t₁ hw j t₂ (hclient j t₂ hj)

/-- A worker takes the first of the jobs, which comes before the others. -/
theorem inOrder_takeTurn (h : InOrder p k) (w : Fin n) {job : Job} {rest : List Job}
    (first : p.queue.jobs = job :: rest) {k' t : ℕ} (own : job.turn = some (k', t)) (bytes : ℕ) :
    InOrder { p.setWorker w (.waiting k' t) with
      queue := { p.queue with jobs := rest, queuedBytes := bytes } } k := by
  have hqueue := h.queue
  rw [first, List.pairwise_cons] at hqueue
  have hrest (a : Job) (ha : a ∈ rest) : a ∈ p.queue.jobs := by
    rw [first]
    exact List.mem_cons_of_mem _ ha
  have hjob : job ∈ p.queue.jobs := by
    rw [first]
    exact List.mem_cons_self
  have hheld {w' : Fin n} {t₁ : ℕ}
      (hw : t₁ ∈ ((p.setWorker w (.waiting k' t)).workers w').tickets k) :
      t₁ ∈ (p.workers w').tickets k ∨ job.turn = some (k, t₁) := by
    by_cases heq : w' = w
    · subst heq
      rw [Pool.workers_setWorker_self, Worker.tickets, ticketOf] at hw
      split_ifs at hw with hk
      · rw [Multiset.mem_singleton.mp hw, own, hk]
        exact .inr rfl
      · exact absurd hw (Multiset.notMem_zero _)
    · rw [Pool.workers_setWorker_ne _ heq] at hw
      exact .inl hw
  constructor
  · exact hqueue.2
  · intro w' t₁ hw a ha t₂ h₂
    rcases hheld hw with hw | hw
    · exact h.worker_queue w' t₁ hw a (hrest a ha) t₂ h₂
    · exact hqueue.1 a ha t₁ t₂ hw h₂
  · intro a ha
    exact h.queue_client a (hrest a ha)
  · intro w' t₁ hw j t₂ hj
    rcases hheld hw with hw | hw
    · exact h.worker_client w' t₁ hw j t₂ hj
    · exact h.queue_client job hjob t₁ hw j t₂ hj

/-- A step that keeps the ticket order keeps every session in order. -/
theorem inOrder_step (hstep : OrderedStep limits p p') (hok : SessionOk p k) (h : InOrder p k) :
    InOrder p' k := by
  obtain ⟨hstep, horder⟩ := hstep
  cases hstep with
  | slot i k' idle room =>
      exact h.of_subset (List.Sublist.refl _) (fun _ _ ht => ht)
        fun _ _ => ticketed_of_setClient fun _ => Client.noConfusion
  | @reserve i k' slotted =>
      by_cases heq : k' = k
      · subst heq
        exact inOrder_reserve hok h i _
      · refine h.of_subset (List.Sublist.refl _) (fun _ _ ht => ht) fun _ _ => ?_
        apply ticketed_of_setClient
        intro t ht
        exact heq (Client.ticketed.inj ht).1
  | @enqueue i k' t ticketed job own q admitted =>
      apply inOrder_enqueue hok h ticketed own admitted
      apply horder i k' t ticketed
      simp [Pool.setClient]
  | refuse i ticketed own rejected =>
      exact h.of_subset (List.Sublist.refl _) (fun _ _ ht => ht)
        fun _ _ => ticketed_of_setClient fun _ => Client.noConfusion
  | release i refused =>
      exact h.of_subset (List.Sublist.refl _) (fun _ _ ht => ht)
        fun _ _ => ticketed_of_setClient fun _ => Client.noConfusion
  | cancel i released free =>
      exact h.of_subset (List.Sublist.refl _) (fun _ _ ht => ht)
        fun _ _ => ticketed_of_setClient fun _ => Client.noConfusion
  | @submit bytes q admitted =>
      have hjobs := QueueState.enqueue_ok admitted
      constructor
      · show q.jobs.Pairwise (Job.Before k)
        rw [hjobs, List.pairwise_append]
        refine ⟨h.queue, List.pairwise_singleton _ _, ?_⟩
        intro a ha b hb t₁ t₂ h₁ h₂
        rw [List.mem_singleton.mp hb] at h₂
        cases h₂
      · intro w t₁ hw b hb t₂ h₂
        replace hb : b ∈ q.jobs := hb
        rw [hjobs, List.mem_append, List.mem_singleton] at hb
        rcases hb with hb | rfl
        · exact h.worker_queue w t₁ hw b hb t₂ h₂
        · cases h₂
      · intro a ha t₁ h₁
        replace ha : a ∈ q.jobs := ha
        rw [hjobs, List.mem_append, List.mem_singleton] at ha
        rcases ha with ha | rfl
        · exact h.queue_client a ha t₁ h₁
        · cases h₁
      · exact h.worker_client
  | @takeEncode w idle job rest first stateless =>
      refine h.of_subset ?_ (fun _ _ => tickets_of_setWorker fun t ht => ?_) fun _ _ hi => hi
      · rw [first]
        exact List.sublist_cons_self job rest
      · exact absurd ht (Multiset.notMem_zero t)
  | takeTurn w idle first own => exact inOrder_takeTurn h w first own _
  | @batch w encoding before after job found stateless =>
      refine h.of_subset ?_ (fun _ _ ht => ht) fun _ _ hi => hi
      rw [found]
      exact (List.sublist_cons_self job after).append_left before
  | encoded w encoding =>
      refine h.of_subset (List.Sublist.refl _) (fun _ _ => tickets_of_setWorker fun t ht => ?_)
        fun _ _ hi => hi
      exact absurd ht (Multiset.notMem_zero t)
  | begin w waiting free next =>
      refine h.of_subset (List.Sublist.refl _) (fun _ _ => tickets_of_setWorker fun t ht => ?_)
        fun _ _ hi => hi
      rw [waiting]
      exact ht
  | close w active =>
      refine h.of_subset (List.Sublist.refl _) (fun _ _ => tickets_of_setWorker fun t ht => ?_)
        fun _ _ hi => hi
      rw [active]
      exact ht
  | drop w closing =>
      refine h.of_subset (List.Sublist.refl _) (fun _ _ => tickets_of_setWorker fun t ht => ?_)
        fun _ _ hi => hi
      exact absurd ht (Multiset.notMem_zero t)
  | shutdown => exact h.of_subset (List.Sublist.refl _) (fun _ _ ht => ht) fun _ _ hi => hi
  | exit w idle empty down =>
      refine h.of_subset (List.Sublist.refl _) (fun _ _ => tickets_of_setWorker fun t ht => ?_)
        fun _ _ hi => hi
      exact absurd ht (Multiset.notMem_zero t)

end Order

theorem inOrder_start (m n k : ℕ) : InOrder (Pool.start m n) k where
  queue := List.Pairwise.nil
  worker_queue := by
    intro w t ht
    exact absurd ht (Multiset.notMem_zero t)
  queue_client := by
    intro job hjob
    exact absurd hjob List.not_mem_nil
  worker_client := by
    intro w t ht
    exact absurd ht (Multiset.notMem_zero t)

/-- A run in ticket order keeps every session in order. -/
theorem OrderedRun.inOrder {limits : ServingLimits} {p : Pool m n} (h : OrderedRun limits p)
    (k : ℕ) : InOrder p k := by
  induction h with
  | refl => exact inOrder_start m n k
  | tail hrun hstep ih => exact inOrder_step hstep (OrderedRun.reachable hrun |>.sessionOk k) ih

/-- As long as the clients of a session put their jobs into the queue in ticket order, the
queue of every session is in ticket order, and a pool with a worker is never wedged. -/
theorem no_wedge {limits : ServingLimits} {p : Pool m n} (hn : 0 < n)
    (h : OrderedRun limits p) :
    (∀ k, p.queue.jobs.Pairwise (Job.Before k)) ∧ ¬p.Wedged := by
  refine ⟨fun k => (h.inOrder k).queue, ?_⟩
  intro hwedged
  obtain ⟨k, t, t', hw, hlt, -, hundelivered⟩ := hwedged ⟨0, hn⟩
  have hheld : t ∈ (p.workers ⟨0, hn⟩).tickets k := by
    rw [hw, Worker.tickets, ticketOf_self]
    exact Multiset.mem_singleton_self t
  rcases hundelivered with ⟨job, hjob, ht⟩ | ⟨i, hi⟩
  · exact lt_asymm hlt ((h.inOrder k).worker_queue _ t hheld job hjob t' ht)
  · exact lt_asymm hlt ((h.inOrder k).worker_client _ t hheld i t' hi)

/-- One client has put its job into the queue, in order. -/
theorem no_wedge_append :
    ∃ p : Pool 2 1, p.queue.jobs ≠ [] ∧ (∀ k, p.queue.jobs.Pairwise (Job.Before k)) ∧
      ¬p.Wedged := by
  obtain ⟨p, hrun, hjobs⟩ :
      ∃ p : Pool 2 1, OrderedRun defaultLimits p ∧ p.queue.jobs ≠ [] := by
    refine ⟨_, .tail (.tail (.tail .refl ⟨.slot 0 0 rfl (by decide), ?_⟩)
      ⟨.reserve 0 0 rfl, ?_⟩) ⟨.enqueue 0 rfl (show (Job.Append 0 0 1).turn = some (0, 0) from rfl)
        (q := ⟨[.Append 0 0 1], 1, false⟩) rfl, ?_⟩, ?_⟩
    · intro i k t hi
      cases hi
    · intro i k t hi
      fin_cases i <;> cases hi
    · intro i k t hi hidle j t' hj
      fin_cases i <;> fin_cases j <;> cases hi <;> cases hj
      exact le_rfl
    · decide
  exact ⟨p, hjobs, no_wedge (by decide) hrun⟩

/-- Two clients of a session, and one worker. The first client takes a ticket, the second
takes the next one and puts its job into the queue before the first does; the worker takes
this job and waits for the other, which nobody is left to run. -/
theorem two_clients_wedge :
    ∃ p : Pool 2 1, Reachable defaultLimits p ∧ p.Wedged := by
  refine ⟨_, .tail (.tail (.tail (.tail (.tail (.tail (.tail .refl
    (.slot 0 0 rfl (by decide))) (.reserve 0 0 rfl)) (.slot 1 0 rfl (by decide)))
    (.reserve 1 0 rfl))
    (.enqueue 1 rfl (show (Job.Append 0 1 1).turn = some (0, 1) from rfl)
      (q := ⟨[.Append 0 1 1], 1, false⟩) rfl))
    (.takeTurn 0 rfl rfl rfl))
    (.enqueue 0 rfl (show (Job.Append 0 0 1).turn = some (0, 0) from rfl)
      (q := ⟨[.Append 0 0 1], 1, false⟩) rfl), ?_⟩
  intro w
  refine ⟨0, 1, 0, ?_, by decide, ?_, .inl ⟨.Append 0 0 1, ?_, rfl⟩⟩
  · rw [Subsingleton.elim w 0]
    rfl
  · rfl
  · exact List.mem_singleton_self _

end Toktier.Serving
