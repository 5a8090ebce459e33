import Toktier.Serving.Pool
import Mathlib.Algebra.Order.BigOperators.Group.Finset
import Mathlib.Data.Multiset.Basic

/-!
# The order of a session

Every ticket that is reserved, and neither finished nor cancelled, is in exactly one place:
with the client that reserved it, in the queue, or with a worker. From this the order of
the turns, their exclusion and the count of the pending operations follow.

## Main definitions

* `Pool.carried`: the tickets of a session, wherever they are.
* `SessionOk`: the invariant of one session.

## Main results

* `sessionOk_step`: every step of every thread keeps the invariant of every session.
* `session_order`: turns in ticket order, one at a time, one for each ticket.
-/
namespace Toktier.Serving

/-! ## Where the tickets are -/

/-- The ticket of session `k`, as a bag. -/
def ticketOf (k session ticket : ℕ) : Multiset ℕ := if session = k then {ticket} else 0

def Client.tickets (k : ℕ) : Client → Multiset ℕ
  | .ticketed session ticket => ticketOf k session ticket
  | .refused session ticket => ticketOf k session ticket
  | .released session ticket => ticketOf k session ticket
  | _ => 0

def Worker.tickets (k : ℕ) : Worker → Multiset ℕ
  | .waiting session ticket => ticketOf k session ticket
  | .turn session ticket => ticketOf k session ticket
  | .closing session ticket => ticketOf k session ticket
  | _ => 0

def Job.tickets (k : ℕ) (job : Job) : Multiset ℕ :=
  match job.turn with
  | some (session, ticket) => ticketOf k session ticket
  | none => 0

/-- Clients that hold a slot of `k` without a ticket. -/
def Client.entering (k : ℕ) : Client → ℕ
  | .slotted session => if session = k then 1 else 0
  | _ => 0

/-- Clients that hold a ticket of `k` without a slot. -/
def Client.leaving (k : ℕ) : Client → ℕ
  | .released session _ => if session = k then 1 else 0
  | _ => 0

/-- Workers that hold a ticket of `k` without a slot. -/
def Worker.leaving (k : ℕ) : Worker → ℕ
  | .closing session _ => if session = k then 1 else 0
  | _ => 0

/-- The ticket whose turn in session `k` the worker holds. -/
def Worker.active (k : ℕ) : Worker → Option ℕ
  | .turn session ticket => if session = k then some ticket else none
  | .closing session ticket => if session = k then some ticket else none
  | _ => none

namespace Pool

variable {m n : ℕ}

/-- The tickets of session `k`, wherever they are. -/
def carried (p : Pool m n) (k : ℕ) : Multiset ℕ :=
  ∑ i, (p.clients i).tickets k + (p.queue.jobs.map (Job.tickets k)).sum +
    ∑ w, (p.workers w).tickets k

def entering (p : Pool m n) (k : ℕ) : ℕ := ∑ i, (p.clients i).entering k

def leaving (p : Pool m n) (k : ℕ) : ℕ :=
  ∑ i, (p.clients i).leaving k + ∑ w, (p.workers w).leaving k

end Pool

/-! ## How a step moves them -/

/-- A sum over all threads, when one of them moves. -/
theorem sum_update {M α : Type} [AddCommMonoid M] {n : ℕ} (f : α → M) (g : Fin n → α) (i : Fin n)
    (x : α) : ∑ j, f (Function.update g i x j) + f (g i) = ∑ j, f (g j) + f x := by
  rw [← Finset.add_sum_erase _ _ (Finset.mem_univ i), ← Finset.add_sum_erase _ (fun j => f (g j))
    (Finset.mem_univ i)]
  have hrest : ∑ j ∈ Finset.univ.erase i, f (Function.update g i x j) =
      ∑ j ∈ Finset.univ.erase i, f (g j) := by
    apply Finset.sum_congr rfl
    intro j hj
    rw [Function.update_of_ne (Finset.ne_of_mem_erase hj)]
  rw [hrest, Function.update_self]
  ac_rfl

namespace Pool

variable {m n : ℕ} (p : Pool m n)

theorem carried_setClient (i : Fin m) (c : Client) (k : ℕ) :
    (p.setClient i c).carried k + (p.clients i).tickets k = p.carried k + c.tickets k := by
  have h := sum_update (Client.tickets k) p.clients i c
  have hswap (a b c d : Multiset ℕ) : a + b + c + d = a + d + (b + c) := by ac_rfl
  simp only [carried, setClient]
  rw [hswap, h]
  ac_rfl

theorem carried_setWorker (w : Fin n) (x : Worker) (k : ℕ) :
    (p.setWorker w x).carried k + (p.workers w).tickets k = p.carried k + x.tickets k := by
  have h := sum_update (Worker.tickets k) p.workers w x
  simp only [carried, setWorker]
  rw [add_assoc, h]
  ac_rfl

@[simp] theorem carried_setSession (k' : ℕ) (s : ServingSession) (k : ℕ) :
    (p.setSession k' s).carried k = p.carried k := rfl

theorem carried_queue (q : QueueState) (k : ℕ) :
    ({ p with queue := q } : Pool m n).carried k + (p.queue.jobs.map (Job.tickets k)).sum =
      p.carried k + (q.jobs.map (Job.tickets k)).sum := by
  simp only [carried]
  ac_rfl

theorem entering_setClient (i : Fin m) (c : Client) (k : ℕ) :
    (p.setClient i c).entering k + (p.clients i).entering k = p.entering k + c.entering k :=
  sum_update (Client.entering k) p.clients i c

@[simp] theorem entering_setWorker (w : Fin n) (x : Worker) (k : ℕ) :
    (p.setWorker w x).entering k = p.entering k := rfl

@[simp] theorem entering_setSession (k' : ℕ) (s : ServingSession) (k : ℕ) :
    (p.setSession k' s).entering k = p.entering k := rfl

theorem leaving_setClient (i : Fin m) (c : Client) (k : ℕ) :
    (p.setClient i c).leaving k + (p.clients i).leaving k = p.leaving k + c.leaving k := by
  have h := sum_update (Client.leaving k) p.clients i c
  simp only [leaving, setClient]
  omega

theorem leaving_setWorker (w : Fin n) (x : Worker) (k : ℕ) :
    (p.setWorker w x).leaving k + (p.workers w).leaving k = p.leaving k + x.leaving k := by
  have h := sum_update (Worker.leaving k) p.workers w x
  simp only [leaving, setWorker]
  omega

@[simp] theorem leaving_setSession (k' : ℕ) (s : ServingSession) (k : ℕ) :
    (p.setSession k' s).leaving k = p.leaving k := rfl

@[simp] theorem sessions_setClient (i : Fin m) (c : Client) :
    (p.setClient i c).sessions = p.sessions := rfl

@[simp] theorem sessions_setWorker (w : Fin n) (x : Worker) :
    (p.setWorker w x).sessions = p.sessions := rfl

@[simp] theorem sessions_setSession_self (k : ℕ) (s : ServingSession) :
    (p.setSession k s).sessions k = s := Function.update_self ..

theorem sessions_setSession_ne {k k' : ℕ} (h : k ≠ k') (s : ServingSession) :
    (p.setSession k' s).sessions k = p.sessions k := Function.update_of_ne h ..

@[simp] theorem workers_setClient (i : Fin m) (c : Client) :
    (p.setClient i c).workers = p.workers := rfl

@[simp] theorem workers_setSession (k : ℕ) (s : ServingSession) :
    (p.setSession k s).workers = p.workers := rfl

@[simp] theorem workers_setWorker_self (w : Fin n) (x : Worker) :
    (p.setWorker w x).workers w = x := Function.update_self ..

theorem workers_setWorker_ne {w w' : Fin n} (h : w ≠ w') (x : Worker) :
    (p.setWorker w' x).workers w = p.workers w := Function.update_of_ne h ..

end Pool

/-! ## The sequencer -/

/-- The bounds of a sequencer that has issued `issued` tickets. -/
structure SeqOk (issued : ℕ) (st : SessionSequenceState) : Prop where
  next_le : st.next ≤ issued
  cancelled : ∀ t ∈ st.cancelled, st.next < t ∧ t < issued

/-- The tickets that are settled neither by a finished turn nor by a cancellation. -/
def SessionSequenceState.unsettled (st : SessionSequenceState) (issued : ℕ) : Finset ℕ :=
  Finset.Ico st.next issued \ st.cancelled

theorem SessionSequenceState.mem_unsettled {st : SessionSequenceState} {issued t : ℕ} :
    t ∈ st.unsettled issued ↔ (st.next ≤ t ∧ t < issued) ∧ t ∉ st.cancelled := by
  simp only [SessionSequenceState.unsettled, Finset.mem_sdiff, Finset.mem_Ico]

/-- Skipping keeps the bounds and settles nothing. -/
theorem advanceCancelled_ok (issued : ℕ) (st : SessionSequenceState) (hle : st.next ≤ issued)
    (hc : ∀ t ∈ st.cancelled, st.next ≤ t ∧ t < issued) :
    SeqOk issued (advanceCancelled st) ∧
      (advanceCancelled st).unsettled issued = st.unsettled issued := by
  obtain ⟨hnext, hstop, hskip, hmem⟩ := advanceCancelled_spec st
  refine ⟨⟨?_, ?_⟩, ?_⟩
  · by_cases heq : (advanceCancelled st).next = st.next
    · rw [heq]
      exact hle
    · have hlast := hc _ (hskip ((advanceCancelled st).next - 1) (by omega) (by omega))
      omega
  · intro t ht
    obtain ⟨hold, hout⟩ := (hmem t).mp ht
    have hne : t ≠ (advanceCancelled st).next := by
      rintro rfl
      exact hstop ht
    have := hc t hold
    omega
  · ext t
    rw [SessionSequenceState.mem_unsettled, SessionSequenceState.mem_unsettled, hmem]
    constructor
    · rintro ⟨⟨hge, hlt⟩, hno⟩
      exact ⟨by omega, fun ht => hno ⟨ht, by omega⟩⟩
    · rintro ⟨⟨hge, hlt⟩, hno⟩
      have hpast : (advanceCancelled st).next ≤ t := by
        by_contra hbefore
        exact hno (hskip t hge (by omega))
      exact ⟨⟨hpast, hlt⟩, fun ht => hno ht.1⟩

/-- Cancelling settles exactly the cancelled ticket. -/
theorem SeqOk.cancel {issued t : ℕ} {st : SessionSequenceState} (h : SeqOk issued st)
    (ht : t ∈ st.unsettled issued) :
    SeqOk issued (st.cancel t) ∧ (st.cancel t).unsettled issued = (st.unsettled issued).erase t := by
  have ht := SessionSequenceState.mem_unsettled.mp ht
  obtain ⟨hok, hopen⟩ := advanceCancelled_ok issued
    { st with cancelled := insert t st.cancelled } h.next_le (by
      intro x hx
      rcases Finset.mem_insert.mp hx with rfl | hx
      · exact ht.1
      · exact ⟨(h.cancelled x hx).1.le, (h.cancelled x hx).2⟩)
  refine ⟨hok, hopen.trans ?_⟩
  ext x
  simp only [SessionSequenceState.mem_unsettled, Finset.mem_insert, Finset.mem_erase]
  tauto

/-- Finishing the next turn settles exactly its ticket. -/
theorem SeqOk.finishTurn {issued : ℕ} {st : SessionSequenceState} (h : SeqOk issued st)
    (ht : st.next ∈ st.unsettled issued) :
    SeqOk issued st.finishTurn ∧ st.finishTurn.unsettled issued = (st.unsettled issued).erase st.next := by
  have ht := SessionSequenceState.mem_unsettled.mp ht
  obtain ⟨hok, hopen⟩ := advanceCancelled_ok issued
    { st with next := st.next + 1 } ht.1.2 (by
      intro x hx
      exact ⟨(h.cancelled x hx).1, (h.cancelled x hx).2⟩)
  refine ⟨hok, hopen.trans ?_⟩
  ext x
  simp only [SessionSequenceState.mem_unsettled, Finset.mem_erase]
  constructor
  · rintro ⟨⟨hge, hlt⟩, hno⟩
    exact ⟨by omega, ⟨by omega, hlt⟩, hno⟩
  · rintro ⟨hne, ⟨hge, hlt⟩, hno⟩
    exact ⟨⟨by omega, hlt⟩, hno⟩

/-! ## The invariant of one session -/

/-- The sequencer is within its bounds; the unsettled tickets are the carried ones, each in
one place; the pending operations are counted up to the threads between two steps; the lock
is held by the worker whose turn it is; and the turns so far went by ticket. -/
structure SessionOk {m n : ℕ} (p : Pool m n) (k : ℕ) : Prop where
  seq : SeqOk (p.sessions k).issued (p.sessions k).state
  carried : p.carried k = (p.sessions k).outstanding.val
  count : (p.sessions k).pending + p.leaving k = (p.sessions k).outstanding.card + p.entering k
  active : ∀ w t, (p.workers w).active k = some t → (p.sessions k).turn = some t
  held : ∀ t, (p.sessions k).turn = some t →
    t = (p.sessions k).state.next ∧ ∃ w, (p.workers w).active k = some t
  ran_sorted : (p.sessions k).ran.Pairwise (· < ·)
  ran_iff : ∀ t, t ∈ (p.sessions k).ran ↔
    (t < (p.sessions k).state.next ∧ t ∉ (p.sessions k).withdrawn) ∨ (p.sessions k).turn = some t
  cancelled : ∀ t ∈ (p.sessions k).state.cancelled, t ∈ (p.sessions k).withdrawn
  withdrawn : ∀ t ∈ (p.sessions k).withdrawn,
    t ∈ (p.sessions k).state.cancelled ∨ t < (p.sessions k).state.next

section Invariant

variable {m n : ℕ} {p p' : Pool m n} {k : ℕ}

theorem ServingSession.outstanding_eq (s : ServingSession) :
    s.outstanding = s.state.unsettled s.issued := rfl

/-- What concerns session `k` is as it was. -/
theorem SessionOk.congr (h : SessionOk p k) (hs : p'.sessions k = p.sessions k)
    (hc : p'.carried k = p.carried k) (he : p'.entering k = p.entering k)
    (hl : p'.leaving k = p.leaving k)
    (ha : ∀ w, (p'.workers w).active k = (p.workers w).active k) : SessionOk p' k where
  seq := by
    rw [hs]
    exact h.seq
  carried := by
    rw [hs, hc]
    exact h.carried
  count := by
    rw [hs, hl, he]
    exact h.count
  active := by
    intro w t hw
    rw [hs]
    rw [ha] at hw
    exact h.active w t hw
  held := by
    intro t ht
    rw [hs] at ht ⊢
    obtain ⟨heq, w, hw⟩ := h.held t ht
    exact ⟨heq, w, by rw [ha, hw]⟩
  ran_sorted := by
    rw [hs]
    exact h.ran_sorted
  ran_iff := by
    rw [hs]
    exact h.ran_iff
  cancelled := by
    rw [hs]
    exact h.cancelled
  withdrawn := by
    rw [hs]
    exact h.withdrawn

/-- A ticket that is carried is unsettled. -/
theorem SessionOk.mem_outstanding (h : SessionOk p k) {t : ℕ} (ht : t ∈ p.carried k) :
    t ∈ (p.sessions k).outstanding := by
  rw [h.carried] at ht
  exact ht

theorem le_carried_client (p : Pool m n) (i : Fin m) (k : ℕ) :
    (p.clients i).tickets k ≤ p.carried k := by
  have hsum : (p.clients i).tickets k ≤ ∑ j, (p.clients j).tickets k :=
    Finset.single_le_sum (f := fun j => (p.clients j).tickets k) (fun _ _ => Multiset.zero_le _)
      (Finset.mem_univ i)
  unfold Pool.carried
  rw [add_assoc]
  exact hsum.trans (Multiset.le_add_right _ _)

theorem le_carried_worker (p : Pool m n) (w : Fin n) (k : ℕ) :
    (p.workers w).tickets k ≤ p.carried k := by
  have hsum : (p.workers w).tickets k ≤ ∑ j, (p.workers j).tickets k :=
    Finset.single_le_sum (f := fun j => (p.workers j).tickets k) (fun _ _ => Multiset.zero_le _)
      (Finset.mem_univ w)
  unfold Pool.carried
  exact hsum.trans (Multiset.le_add_left _ _)

theorem mem_tickets_of_active {x : Worker} {t : ℕ} (h : x.active k = some t) : t ∈ x.tickets k := by
  unfold Worker.active at h
  unfold Worker.tickets ticketOf
  split at h <;> simp_all

/-- Two workers do not hold the same ticket. -/
theorem SessionOk.worker_unique (h : SessionOk p k) {w w' : Fin n} {t : ℕ}
    (hw : t ∈ (p.workers w).tickets k) (hw' : t ∈ (p.workers w').tickets k) : w = w' := by
  by_contra hne
  have hpair : (p.workers w).tickets k + (p.workers w').tickets k ≤ p.carried k := by
    have hsub : ∑ j ∈ {w, w'}, (p.workers j).tickets k ≤ ∑ j, (p.workers j).tickets k :=
      Finset.sum_le_sum_of_subset (Finset.subset_univ _)
    rw [Finset.sum_pair hne] at hsub
    unfold Pool.carried
    exact hsub.trans (Multiset.le_add_left _ _)
  have hnodup : (p.carried k).Nodup := by
    rw [h.carried]
    exact Finset.nodup _
  have hdisj := (Multiset.nodup_add.mp (Multiset.nodup_of_le hpair hnodup)).2.2
  exact Multiset.disjoint_left.mp hdisj hw hw'

/-- Turns exclude each other. -/
theorem SessionOk.active_unique (h : SessionOk p k) {w w' : Fin n} {t t' : ℕ}
    (hw : (p.workers w).active k = some t) (hw' : (p.workers w').active k = some t') : w = w' := by
  have ht := h.active w t hw
  have ht' := h.active w' t' hw'
  rw [ht] at ht'
  cases ht'
  exact h.worker_unique (mem_tickets_of_active hw) (mem_tickets_of_active hw')

/-- Every thread that has given its slot back still carries its ticket. -/
theorem Client.leaving_le (c : Client) (k : ℕ) : c.leaving k ≤ (c.tickets k).card := by
  unfold Client.leaving Client.tickets ticketOf
  split <;> split <;> simp_all

theorem Worker.leaving_le (x : Worker) (k : ℕ) : x.leaving k ≤ (x.tickets k).card := by
  unfold Worker.leaving Worker.tickets ticketOf
  split <;> split <;> simp_all

theorem card_carried (p : Pool m n) (k : ℕ) :
    (p.carried k).card = ∑ i, ((p.clients i).tickets k).card +
      ((p.queue.jobs.map (Job.tickets k)).sum).card + ∑ w, ((p.workers w).tickets k).card := by
  unfold Pool.carried
  rw [Multiset.card_add, Multiset.card_add, Multiset.card_sum, Multiset.card_sum]

/-- A client that carries a ticket and still has its slot is counted as pending. -/
theorem SessionOk.pending_pos_of_client (h : SessionOk p k) (i : Fin m)
    (hi : (p.clients i).leaving k < ((p.clients i).tickets k).card) :
    0 < (p.sessions k).pending := by
  have hclients : ∑ j, (p.clients j).leaving k < ∑ j, ((p.clients j).tickets k).card :=
    Finset.sum_lt_sum (fun j _ => Client.leaving_le _ k) ⟨i, Finset.mem_univ i, hi⟩
  have hworkers : ∑ j, (p.workers j).leaving k ≤ ∑ j, ((p.workers j).tickets k).card :=
    Finset.sum_le_sum fun j _ => Worker.leaving_le _ k
  have hcard := card_carried p k
  have hcount := h.count
  have hout : (p.carried k).card = (p.sessions k).outstanding.card := by
    rw [h.carried]
    rfl
  unfold Pool.leaving at hcount
  omega

theorem SessionOk.pending_pos_of_worker (h : SessionOk p k) (w : Fin n)
    (hw : (p.workers w).leaving k < ((p.workers w).tickets k).card) :
    0 < (p.sessions k).pending := by
  have hclients : ∑ j, (p.clients j).leaving k ≤ ∑ j, ((p.clients j).tickets k).card :=
    Finset.sum_le_sum fun j _ => Client.leaving_le _ k
  have hworkers : ∑ j, (p.workers j).leaving k < ∑ j, ((p.workers j).tickets k).card :=
    Finset.sum_lt_sum (fun j _ => Worker.leaving_le _ k) ⟨w, Finset.mem_univ w, hw⟩
  have hcard := card_carried p k
  have hcount := h.count
  have hout : (p.carried k).card = (p.sessions k).outstanding.card := by
    rw [h.carried]
    rfl
  unfold Pool.leaving at hcount
  omega

end Invariant

/-! ## Steps of the other sessions -/

section Steps

variable {limits : ServingLimits} {m n : ℕ} {p p' : Pool m n} {k : ℕ}

@[simp] theorem ticketOf_self (k t : ℕ) : ticketOf k k t = {t} := if_pos rfl

theorem ticketOf_ne {k k' : ℕ} (h : k ≠ k') (t : ℕ) : ticketOf k k' t = 0 := if_neg (Ne.symm h)

/-- A client moves, and what it does is of no concern to session `k`. -/
theorem SessionOk.of_client (h : SessionOk p k) {i : Fin m} {c : Client}
    (hs : p'.sessions k = p.sessions k) (hclients : p'.clients = (p.setClient i c).clients)
    (hqueue : (p'.queue.jobs.map (Job.tickets k)).sum = (p.queue.jobs.map (Job.tickets k)).sum)
    (hworkers : p'.workers = p.workers) (ht : c.tickets k = (p.clients i).tickets k)
    (he : c.entering k = (p.clients i).entering k) (hl : c.leaving k = (p.clients i).leaving k) :
    SessionOk p' k := by
  have hcarried := p.carried_setClient i c k
  have hentering := p.entering_setClient i c k
  have hleaving := p.leaving_setClient i c k
  rw [ht] at hcarried
  rw [he] at hentering
  rw [hl] at hleaving
  refine h.congr hs ?_ ?_ ?_ ?_
  · rw [← add_right_cancel hcarried]
    simp only [Pool.carried, hclients, hqueue, hworkers]
    rfl
  · rw [← add_right_cancel hentering]
    simp only [Pool.entering, hclients]
  · rw [← add_right_cancel hleaving]
    simp only [Pool.leaving, hclients, hworkers]
    rfl
  · intro w
    rw [hworkers]

/-- A worker moves, and what it does is of no concern to session `k`. -/
theorem SessionOk.of_worker (h : SessionOk p k) {w : Fin n} {x : Worker}
    (hs : p'.sessions k = p.sessions k) (hworkers : p'.workers = (p.setWorker w x).workers)
    (hqueue : (p'.queue.jobs.map (Job.tickets k)).sum = (p.queue.jobs.map (Job.tickets k)).sum)
    (hclients : p'.clients = p.clients) (ht : x.tickets k = (p.workers w).tickets k)
    (hl : x.leaving k = (p.workers w).leaving k) (ha : x.active k = (p.workers w).active k) :
    SessionOk p' k := by
  have hcarried := p.carried_setWorker w x k
  have hleaving := p.leaving_setWorker w x k
  rw [ht] at hcarried
  rw [hl] at hleaving
  refine h.congr hs ?_ ?_ ?_ ?_
  · rw [← add_right_cancel hcarried]
    simp only [Pool.carried, hclients, hqueue, hworkers]
    rfl
  · simp only [Pool.entering, hclients]
  · rw [← add_right_cancel hleaving]
    simp only [Pool.leaving, hclients, hworkers]
    rfl
  · intro w'
    rw [hworkers]
    by_cases heq : w' = w
    · subst heq
      rw [Pool.workers_setWorker_self]
      exact ha
    · rw [Pool.workers_setWorker_ne _ heq]

/-! ## Steps of the session itself -/

theorem sessionOk_slot (h : SessionOk p k) (i : Fin m) (idle : p.clients i = .idle) :
    SessionOk ((p.setClient i (.slotted k)).setSession k
      { p.sessions k with pending := (p.sessions k).pending + 1 }) k := by
  have hcarried := p.carried_setClient i (.slotted k) k
  have hentering := p.entering_setClient i (.slotted k) k
  have hleaving := p.leaving_setClient i (.slotted k) k
  have hcount := h.count
  simp only [idle, Client.tickets, Client.entering, Client.leaving, if_true, add_zero]
    at hcarried hentering hleaving
  constructor <;> simp only [Pool.sessions_setSession_self]
  · exact h.seq
  · rw [Pool.carried_setSession, hcarried]
    exact h.carried
  · rw [Pool.leaving_setSession, Pool.entering_setSession, hleaving, hentering]
    have : ServingSession.outstanding { p.sessions k with pending := (p.sessions k).pending + 1 } =
        (p.sessions k).outstanding := rfl
    rw [this]
    omega
  · exact h.active
  · exact h.held
  · exact h.ran_sorted
  · exact h.ran_iff
  · exact h.cancelled
  · exact h.withdrawn

theorem sessionOk_reserve (h : SessionOk p k) (i : Fin m) (slotted : p.clients i = .slotted k) :
    SessionOk ((p.setClient i (.ticketed k (p.sessions k).issued)).setSession k
      { p.sessions k with issued := (p.sessions k).issued + 1 }) k := by
  have hcarried := p.carried_setClient i (.ticketed k (p.sessions k).issued) k
  have hentering := p.entering_setClient i (.ticketed k (p.sessions k).issued) k
  have hleaving := p.leaving_setClient i (.ticketed k (p.sessions k).issued) k
  have hcount := h.count
  simp only [slotted, Client.tickets, Client.entering, Client.leaving, if_true, add_zero,
    ticketOf_self] at hcarried hentering hleaving
  have hfresh : (p.sessions k).issued ∉ (p.sessions k).outstanding := by
    rw [ServingSession.outstanding_eq, SessionSequenceState.mem_unsettled]
    rintro ⟨⟨-, hlt⟩, -⟩
    exact lt_irrefl _ hlt
  have hout : ServingSession.outstanding
      { p.sessions k with issued := (p.sessions k).issued + 1 } =
        insert (p.sessions k).issued (p.sessions k).outstanding := by
    ext t
    simp only [ServingSession.outstanding_eq, SessionSequenceState.mem_unsettled, Finset.mem_insert]
    constructor
    · rintro ⟨⟨hge, hlt⟩, hno⟩
      by_cases heq : t = (p.sessions k).issued
      · exact .inl heq
      · exact .inr ⟨⟨hge, by omega⟩, hno⟩
    · rintro (rfl | ⟨⟨hge, hlt⟩, hno⟩)
      · refine ⟨⟨h.seq.next_le, Nat.lt_succ_self _⟩, ?_⟩
        intro hmem
        exact lt_irrefl _ (h.seq.cancelled _ hmem).2
      · exact ⟨⟨hge, by omega⟩, hno⟩
  constructor <;> simp only [Pool.sessions_setSession_self]
  · refine ⟨h.seq.next_le.trans (Nat.le_succ _), ?_⟩
    intro t ht
    have := h.seq.cancelled t ht
    omega
  · rw [Pool.carried_setSession, hcarried, hout, Finset.insert_val_of_notMem hfresh, h.carried,
      add_comm, Multiset.singleton_add]
  · rw [Pool.leaving_setSession, Pool.entering_setSession, hleaving, hout,
      Finset.card_insert_of_notMem hfresh]
    omega
  · exact h.active
  · exact h.held
  · exact h.ran_sorted
  · exact h.ran_iff
  · exact h.cancelled
  · exact h.withdrawn

theorem sessionOk_release (h : SessionOk p k) (i : Fin m) {t : ℕ}
    (refused : p.clients i = .refused k t) :
    SessionOk ((p.setClient i (.released k t)).setSession k
      { p.sessions k with pending := (p.sessions k).pending - 1 }) k := by
  have hcarried := p.carried_setClient i (.released k t) k
  have hentering := p.entering_setClient i (.released k t) k
  have hleaving := p.leaving_setClient i (.released k t) k
  have hcount := h.count
  have hpos : 0 < (p.sessions k).pending := by
    apply h.pending_pos_of_client i
    simp [refused, Client.leaving, Client.tickets]
  simp only [refused, Client.tickets, Client.entering, Client.leaving, if_true, add_zero,
    ticketOf_self] at hcarried hentering hleaving
  constructor <;> simp only [Pool.sessions_setSession_self]
  · exact h.seq
  · rw [Pool.carried_setSession, add_right_cancel hcarried]
    exact h.carried
  · rw [Pool.leaving_setSession, Pool.entering_setSession, hleaving, hentering]
    have : ServingSession.outstanding { p.sessions k with pending := (p.sessions k).pending - 1 } =
        (p.sessions k).outstanding := rfl
    rw [this]
    omega
  · exact h.active
  · exact h.held
  · exact h.ran_sorted
  · exact h.ran_iff
  · exact h.cancelled
  · exact h.withdrawn

/-- Nothing was skipped but cancelled tickets: a ticket between the old and the new front is
withdrawn. -/
theorem skipped_withdrawn {q : SessionSequenceState} {withdrawn : Finset ℕ}
    (hc : ∀ t ∈ q.cancelled, t ∈ withdrawn) {t : ℕ} (hge : q.next ≤ t)
    (hlt : t < (advanceCancelled q).next) : t ∈ withdrawn :=
  hc t ((advanceCancelled_spec q).2.2.1 t hge hlt)

theorem sessionOk_cancel (h : SessionOk p k) (i : Fin m) {t : ℕ}
    (released : p.clients i = .released k t) (free : (p.sessions k).turn = none) :
    SessionOk ((p.setClient i .idle).setSession k
      { p.sessions k with
        state := (p.sessions k).state.cancel t
        withdrawn := insert t (p.sessions k).withdrawn }) k := by
  have hcarried := p.carried_setClient i .idle k
  have hentering := p.entering_setClient i .idle k
  have hleaving := p.leaving_setClient i .idle k
  have hcount := h.count
  have hmem : t ∈ (p.sessions k).outstanding := by
    apply h.mem_outstanding
    apply Multiset.mem_of_le (le_carried_client p i k)
    simp [released, Client.tickets]
  simp only [released, Client.tickets, Client.entering, Client.leaving, if_true, add_zero,
    ticketOf_self] at hcarried hentering hleaving
  have hout : ServingSession.outstanding { p.sessions k with
      state := (p.sessions k).state.cancel t
      withdrawn := insert t (p.sessions k).withdrawn } = (p.sessions k).outstanding.erase t :=
    (h.seq.cancel hmem).2
  have hspec := advanceCancelled_spec
    { (p.sessions k).state with cancelled := insert t (p.sessions k).state.cancelled }
  have hbound := SessionSequenceState.mem_unsettled.mp hmem
  have hall : ∀ x ∈ insert t (p.sessions k).state.cancelled,
      x ∈ insert t (p.sessions k).withdrawn := by
    intro x hx
    rcases Finset.mem_insert.mp hx with rfl | hx
    · exact Finset.mem_insert_self _ _
    · exact Finset.mem_insert_of_mem (h.cancelled x hx)
  constructor <;> simp only [Pool.sessions_setSession_self]
  · exact (h.seq.cancel hmem).1
  · rw [Pool.carried_setSession, hout, Finset.erase_val, ← h.carried, ← hcarried,
      Multiset.add_comm, Multiset.singleton_add, Multiset.erase_cons_head]
  · rw [Pool.leaving_setSession, Pool.entering_setSession, hentering, hout,
      Finset.card_erase_of_mem hmem]
    have := Finset.card_pos.mpr ⟨t, hmem⟩
    omega
  · exact h.active
  · intro x hx
    rw [free] at hx
    cases hx
  · exact h.ran_sorted
  · intro x
    rw [h.ran_iff, free]
    simp only [reduceCtorEq, or_false, Finset.mem_insert, not_or]
    constructor
    · rintro ⟨hlt, hno⟩
      exact ⟨lt_of_lt_of_le hlt hspec.1, by omega, hno⟩
    · rintro ⟨hlt, hne, hno⟩
      refine ⟨?_, hno⟩
      by_contra hge
      have hskip : x ∈ insert t (p.sessions k).withdrawn :=
        skipped_withdrawn (q := { (p.sessions k).state with
          cancelled := insert t (p.sessions k).state.cancelled }) hall (not_lt.mp hge) hlt
      rcases Finset.mem_insert.mp hskip with heq | hx
      · exact hne heq
      · exact hno hx
  · intro x hx
    exact hall x ((hspec.2.2.2 x).mp hx).1
  · intro x hx
    by_cases hlt : x < ((p.sessions k).state.cancel t).next
    · exact .inr hlt
    · left
      refine (hspec.2.2.2 x).mpr ⟨?_, fun hin => hlt hin.2⟩
      rcases Finset.mem_insert.mp hx with rfl | hx
      · exact Finset.mem_insert_self _ _
      · rcases h.withdrawn x hx with hc | hold
        · exact Finset.mem_insert_of_mem hc
        · exact absurd (lt_of_lt_of_le hold hspec.1) hlt

theorem sessionOk_begin (h : SessionOk p k) (w : Fin n) {t : ℕ}
    (waiting : p.workers w = .waiting k t) (free : (p.sessions k).turn = none)
    (next : (p.sessions k).state.next = t) :
    SessionOk ((p.setWorker w (.turn k t)).setSession k
      { p.sessions k with turn := some t, ran := (p.sessions k).ran ++ [t] }) k := by
  have hcarried := p.carried_setWorker w (.turn k t) k
  have hleaving := p.leaving_setWorker w (.turn k t) k
  simp only [waiting, Worker.tickets, Worker.leaving, add_zero, ticketOf_self] at hcarried hleaving
  have hran (x : ℕ) : x ∈ (p.sessions k).ran ↔ x < t ∧ x ∉ (p.sessions k).withdrawn := by
    rw [h.ran_iff, free, next]
    simp
  have hidle (w' : Fin n) (x : ℕ) : (p.workers w').active k ≠ some x := by
    intro hx
    have := h.active w' x hx
    rw [free] at this
    cases this
  have hturn : Worker.active k (.turn k t) = some t := if_pos rfl
  constructor <;> simp only [Pool.sessions_setSession_self, Pool.workers_setSession]
  · exact h.seq
  · rw [Pool.carried_setSession, add_right_cancel hcarried]
    exact h.carried
  · rw [Pool.leaving_setSession, Pool.entering_setSession, hleaving, Pool.entering_setWorker]
    exact h.count
  · intro w' x hx
    by_cases heq : w' = w
    · subst heq
      rw [Pool.workers_setWorker_self, hturn] at hx
      exact hx
    · rw [Pool.workers_setWorker_ne _ heq] at hx
      exact absurd hx (hidle w' x)
  · intro x hx
    cases hx
    refine ⟨next.symm, w, ?_⟩
    rw [Pool.workers_setWorker_self]
    exact hturn
  · rw [List.pairwise_append]
    refine ⟨h.ran_sorted, List.pairwise_singleton _ _, ?_⟩
    intro x hx y hy
    rw [List.mem_singleton.mp hy]
    exact ((hran x).mp hx).1
  · intro x
    rw [List.mem_append, List.mem_singleton, hran, next]
    simp only [Option.some.injEq, eq_comm]
  · exact h.cancelled
  · exact h.withdrawn

theorem sessionOk_close (h : SessionOk p k) (w : Fin n) {t : ℕ} (active : p.workers w = .turn k t) :
    SessionOk ((p.setWorker w (.closing k t)).setSession k
      { p.sessions k with pending := (p.sessions k).pending - 1 }) k := by
  have hcarried := p.carried_setWorker w (.closing k t) k
  have hleaving := p.leaving_setWorker w (.closing k t) k
  have hcount := h.count
  have hpos : 0 < (p.sessions k).pending := by
    apply h.pending_pos_of_worker w
    simp [active, Worker.leaving, Worker.tickets]
  simp only [active, Worker.tickets, Worker.leaving, if_true, add_zero, ticketOf_self]
    at hcarried hleaving
  have hsame (w' : Fin n) :
      ((p.setWorker w (.closing k t)).workers w').active k = (p.workers w').active k := by
    by_cases heq : w' = w
    · subst heq
      rw [Pool.workers_setWorker_self, active]
      rfl
    · rw [Pool.workers_setWorker_ne _ heq]
  constructor <;> simp only [Pool.sessions_setSession_self, Pool.workers_setSession]
  · exact h.seq
  · rw [Pool.carried_setSession, add_right_cancel hcarried]
    exact h.carried
  · rw [Pool.leaving_setSession, Pool.entering_setSession, hleaving, Pool.entering_setWorker]
    have : ServingSession.outstanding { p.sessions k with pending := (p.sessions k).pending - 1 } =
        (p.sessions k).outstanding := rfl
    rw [this]
    omega
  · intro w' x hx
    rw [hsame] at hx
    exact h.active w' x hx
  · intro x hx
    obtain ⟨heq, w', hw'⟩ := h.held x hx
    exact ⟨heq, w', by rw [hsame, hw']⟩
  · exact h.ran_sorted
  · exact h.ran_iff
  · exact h.cancelled
  · exact h.withdrawn

theorem sessionOk_drop (h : SessionOk p k) (w : Fin n) {t : ℕ}
    (closing : p.workers w = .closing k t) :
    SessionOk ((p.setWorker w .idle).setSession k
      { p.sessions k with state := (p.sessions k).state.finishTurn, turn := none }) k := by
  have hcarried := p.carried_setWorker w .idle k
  have hleaving := p.leaving_setWorker w .idle k
  have hcount := h.count
  have hactive : (p.workers w).active k = some t := by
    rw [closing]
    exact if_pos rfl
  have hturn := h.active w t hactive
  have hnext : t = (p.sessions k).state.next := (h.held t hturn).1
  have hmem : t ∈ (p.sessions k).outstanding := by
    apply h.mem_outstanding
    exact Multiset.mem_of_le (le_carried_worker p w k) (mem_tickets_of_active hactive)
  simp only [closing, Worker.tickets, Worker.leaving, if_true, add_zero, ticketOf_self]
    at hcarried hleaving
  subst hnext
  have hout : ServingSession.outstanding { p.sessions k with
      state := (p.sessions k).state.finishTurn, turn := none } =
        (p.sessions k).outstanding.erase (p.sessions k).state.next :=
    (h.seq.finishTurn hmem).2
  have hspec := advanceCancelled_spec
    { (p.sessions k).state with next := (p.sessions k).state.next + 1 }
  simp only at hspec
  have hbound := SessionSequenceState.mem_unsettled.mp hmem
  have hfront : (p.sessions k).state.next ∉ (p.sessions k).withdrawn := by
    intro hw
    rcases h.withdrawn _ hw with hc | hlt
    · exact hbound.2 hc
    · exact lt_irrefl _ hlt
  have hfinish : (p.sessions k).state.finishTurn =
      advanceCancelled { (p.sessions k).state with next := (p.sessions k).state.next + 1 } := rfl
  have hidle (w' : Fin n) (x : ℕ) : ((p.setWorker w .idle).workers w').active k ≠ some x := by
    intro hx
    by_cases heq : w' = w
    · subst heq
      rw [Pool.workers_setWorker_self] at hx
      cases hx
    · rw [Pool.workers_setWorker_ne _ heq] at hx
      exact heq (h.active_unique hx hactive)
  constructor <;> simp only [Pool.sessions_setSession_self, Pool.workers_setSession]
  · exact (h.seq.finishTurn hmem).1
  · rw [Pool.carried_setSession, hout, Finset.erase_val, ← h.carried, ← hcarried,
      Multiset.add_comm, Multiset.singleton_add, Multiset.erase_cons_head]
  · rw [Pool.leaving_setSession, Pool.entering_setSession, Pool.entering_setWorker, hout,
      Finset.card_erase_of_mem hmem]
    have := Finset.card_pos.mpr ⟨_, hmem⟩
    omega
  · intro w' x hx
    exact absurd hx (hidle w' x)
  · intro x hx
    cases hx
  · exact h.ran_sorted
  · intro x
    rw [h.ran_iff, hturn, hfinish]
    simp only [reduceCtorEq, or_false, Option.some.injEq]
    constructor
    · rintro (⟨hlt, hno⟩ | rfl)
      · exact ⟨by omega, hno⟩
      · exact ⟨by omega, hfront⟩
    · rintro ⟨hlt, hno⟩
      by_contra hout'
      push Not at hout'
      have hge : (p.sessions k).state.next + 1 ≤ x := by
        have h₁ := hout'.1
        have h₂ := hout'.2
        by_contra hbefore
        rcases Nat.lt_or_ge x (p.sessions k).state.next with hlt' | hge'
        · exact hno (h₁ hlt')
        · exact h₂ (by omega)
      exact hno (skipped_withdrawn (q := { (p.sessions k).state with
        next := (p.sessions k).state.next + 1 }) h.cancelled hge hlt)
  · intro x hx
    exact h.cancelled x ((hspec.2.2.2 x).mp hx).1
  · intro x hx
    rw [hfinish]
    by_cases hlt : x < (advanceCancelled
        { (p.sessions k).state with next := (p.sessions k).state.next + 1 }).next
    · exact .inr hlt
    · left
      refine (hspec.2.2.2 x).mpr ⟨?_, fun hin => hlt hin.2⟩
      rcases h.withdrawn x hx with hc | hold
      · exact hc
      · exact absurd (lt_of_lt_of_le hold ((Nat.le_succ _).trans hspec.1)) hlt

/-! ## Every step -/

theorem tickets_none {job : Job} (h : job.turn = none) (k : ℕ) : job.tickets k = 0 := by
  rw [Job.tickets, h]

theorem tickets_some {job : Job} {k' t : ℕ} (h : job.turn = some (k', t)) (k : ℕ) :
    job.tickets k = ticketOf k k' t := by
  rw [Job.tickets, h]

/-- A job goes from its client to the queue. -/
theorem carried_enqueue (i : Fin m) {k' t : ℕ} (ticketed : p.clients i = .ticketed k' t) {job : Job}
    (own : job.turn = some (k', t)) {q : QueueState} (hq : q.jobs = p.queue.jobs ++ [job]) (k : ℕ) :
    ({ p.setClient i .idle with queue := q } : Pool m n).carried k = p.carried k := by
  have hclient := p.carried_setClient i .idle k
  have hqueue := (p.setClient i .idle).carried_queue q k
  have hjobs : (p.setClient i .idle).queue = p.queue := rfl
  simp only [ticketed, Client.tickets, add_zero] at hclient
  rw [hq, List.map_append, List.sum_append, List.map_singleton, List.sum_singleton,
    tickets_some own, hjobs, add_comm (List.sum _), ← add_assoc, hclient] at hqueue
  exact add_right_cancel hqueue

/-- A job goes from the queue to a worker. -/
theorem carried_take (w : Fin n) (idle : p.workers w = .idle) {job : Job} {rest : List Job}
    (first : p.queue.jobs = job :: rest) {x : Worker} (k : ℕ) (hx : x.tickets k = job.tickets k)
    (queuedBytes : ℕ) :
    ({ p.setWorker w x with
        queue := { p.queue with jobs := rest, queuedBytes := queuedBytes } } : Pool m n).carried k =
      p.carried k := by
  have hworker := p.carried_setWorker w x k
  have hqueue := (p.setWorker w x).carried_queue
    { p.queue with jobs := rest, queuedBytes := queuedBytes } k
  have hjobs : (p.setWorker w x).queue = p.queue := rfl
  have hidle : (p.workers w).tickets k = 0 := by
    rw [idle]
    rfl
  rw [hidle, hx, add_zero] at hworker
  rw [hjobs, first, List.map_cons, List.sum_cons, hworker, ← add_assoc] at hqueue
  have hjob := add_right_cancel hqueue
  exact add_right_cancel hjob

theorem sessionOk_enqueue (h : SessionOk p k) (i : Fin m) {k' t : ℕ}
    (ticketed : p.clients i = .ticketed k' t) {job : Job} (own : job.turn = some (k', t))
    {q : QueueState} (hq : q.jobs = p.queue.jobs ++ [job]) :
    SessionOk ({ p.setClient i .idle with queue := q } : Pool m n) k := by
  have hentering := p.entering_setClient i .idle k
  have hleaving := p.leaving_setClient i .idle k
  simp only [ticketed, Client.entering, Client.leaving, add_zero] at hentering hleaving
  exact h.congr rfl (carried_enqueue i ticketed own hq k) hentering hleaving fun _ => rfl

theorem sessionOk_take (h : SessionOk p k) (w : Fin n) (idle : p.workers w = .idle) {job : Job}
    {rest : List Job} (first : p.queue.jobs = job :: rest) {x : Worker}
    (hx : x.tickets k = job.tickets k) (hl : x.leaving k = 0) (ha : x.active k = none)
    (queuedBytes : ℕ) :
    SessionOk ({ p.setWorker w x with
      queue := { p.queue with jobs := rest, queuedBytes := queuedBytes } } : Pool m n) k := by
  have hleaving := p.leaving_setWorker w x k
  have hidle : (p.workers w).leaving k = 0 := by
    rw [idle]
    rfl
  rw [hidle, hl, add_zero, add_zero] at hleaving
  refine h.congr rfl (carried_take w idle first k hx queuedBytes) rfl hleaving ?_
  intro w'
  by_cases heq : w' = w
  · subst heq
    have hself : ({ p.setWorker w' x with
      queue := { p.queue with jobs := rest, queuedBytes := queuedBytes } } : Pool m n).workers w' = x :=
      Pool.workers_setWorker_self _ _ _
    rw [hself, ha, idle]
    rfl
  · have hother : ({ p.setWorker w x with
      queue := { p.queue with jobs := rest, queuedBytes := queuedBytes } } : Pool m n).workers w' =
        p.workers w' := Pool.workers_setWorker_ne _ heq _
    rw [hother]

/-- Every step of every thread keeps the invariant of every session. -/
theorem sessionOk_step (hstep : Step limits p p') (h : ∀ k, SessionOk p k) (k : ℕ) :
    SessionOk p' k := by
  cases hstep with
  | slot i k' idle room =>
      by_cases heq : k = k'
      · subst heq
        exact sessionOk_slot (h k) i idle
      · refine (h k).of_client (Pool.sessions_setSession_ne _ heq _) rfl rfl rfl ?_ ?_ ?_
        · rw [idle]
          rfl
        · rw [idle]
          exact if_neg (Ne.symm heq)
        · rw [idle]
          rfl
  | reserve i k' slotted =>
      by_cases heq : k = k'
      · subst heq
        exact sessionOk_reserve (h k) i slotted
      · refine (h k).of_client (Pool.sessions_setSession_ne _ heq _) rfl rfl rfl ?_ ?_ ?_
        · rw [slotted]
          exact ticketOf_ne heq _
        · rw [slotted]
          exact (if_neg (Ne.symm heq)).symm
        · rw [slotted]
          rfl
  | enqueue i ticketed own admitted =>
      exact sessionOk_enqueue (h k) i ticketed own (QueueState.enqueue_ok admitted)
  | refuse i ticketed own rejected =>
      refine (h k).of_client rfl rfl rfl rfl ?_ ?_ ?_ <;>
      · rw [ticketed]
        rfl
  | @release i k' t refused =>
      by_cases heq : k = k'
      · subst heq
        exact sessionOk_release (h k) i refused
      · refine (h k).of_client (Pool.sessions_setSession_ne _ heq _) rfl rfl rfl ?_ ?_ ?_
        · rw [refused]
          rfl
        · rw [refused]
          rfl
        · rw [refused]
          exact if_neg (Ne.symm heq)
  | @cancel i k' t released free =>
      by_cases heq : k = k'
      · subst heq
        exact sessionOk_cancel (h k) i released free
      · refine (h k).of_client (Pool.sessions_setSession_ne _ heq _) rfl rfl rfl ?_ ?_ ?_
        · rw [released]
          exact (ticketOf_ne heq _).symm
        · rw [released]
          rfl
        · rw [released]
          exact (if_neg (Ne.symm heq)).symm
  | @submit bytes q admitted =>
      have hqueue := p.carried_queue q k
      rw [QueueState.enqueue_ok admitted, List.map_append, List.sum_append, List.map_singleton,
        List.sum_singleton, tickets_none rfl, add_zero] at hqueue
      exact (h k).congr rfl (add_right_cancel hqueue) rfl rfl fun _ => rfl
  | takeEncode w idle first stateless =>
      exact sessionOk_take (x := .encoding) (h k) w idle first (tickets_none stateless k).symm rfl rfl _
  | takeTurn w idle first own =>
      exact sessionOk_take (x := .waiting _ _) (h k) w idle first (tickets_some own k).symm rfl rfl _
  | @batch w encoding before after job found stateless =>
      have hqueue := p.carried_queue { p.queue with
        jobs := before ++ after, queuedBytes := p.queue.queuedBytes - job.bytes } k
      rw [found, List.map_append, List.sum_append, List.map_cons, List.sum_cons,
        tickets_none stateless, zero_add, ← List.sum_append, ← List.map_append] at hqueue
      exact (h k).congr rfl (add_right_cancel hqueue) rfl rfl fun _ => rfl
  | encoded w encoding =>
      refine (h k).of_worker rfl rfl rfl rfl ?_ ?_ ?_ <;>
      · rw [encoding]
        rfl
  | @begin w k' t waiting free next =>
      by_cases heq : k = k'
      · subst heq
        exact sessionOk_begin (h k) w waiting free next
      · refine (h k).of_worker (Pool.sessions_setSession_ne _ heq _) rfl rfl rfl ?_ ?_ ?_
        · rw [waiting]
          rfl
        · rw [waiting]
          rfl
        · rw [waiting]
          exact if_neg (Ne.symm heq)
  | @close w k' t active =>
      by_cases heq : k = k'
      · subst heq
        exact sessionOk_close (h k) w active
      · refine (h k).of_worker (Pool.sessions_setSession_ne _ heq _) rfl rfl rfl ?_ ?_ ?_
        · rw [active]
          rfl
        · rw [active]
          exact if_neg (Ne.symm heq)
        · rw [active]
          rfl
  | @drop w k' t closing =>
      by_cases heq : k = k'
      · subst heq
        exact sessionOk_drop (h k) w closing
      · refine (h k).of_worker (Pool.sessions_setSession_ne _ heq _) rfl rfl rfl ?_ ?_ ?_
        · rw [closing]
          exact (ticketOf_ne heq _).symm
        · rw [closing]
          exact (if_neg (Ne.symm heq)).symm
        · rw [closing]
          exact (if_neg (Ne.symm heq)).symm
  | shutdown => exact (h k).congr rfl rfl rfl rfl fun _ => rfl
  | exit w idle empty down =>
      refine (h k).of_worker rfl rfl rfl rfl ?_ ?_ ?_ <;>
      · rw [idle]
        rfl

end Steps

/-! ## Runs -/

/-- The pool is reached by the steps of its threads. -/
def Reachable (limits : ServingLimits) {m n : ℕ} (p : Pool m n) : Prop :=
  Relation.ReflTransGen (Step limits) (Pool.start m n) p

theorem sessionOk_start (m n k : ℕ) : SessionOk (Pool.start m n) k := by
  have hsession : (Pool.start m n).sessions k = .new := rfl
  constructor <;> simp only [hsession, ServingSession.new]
  · exact ⟨le_rfl, fun t ht => absurd ht (Finset.notMem_empty t)⟩
  · simp [Pool.carried, Pool.start, Client.tickets, Worker.tickets, ServingSession.outstanding]
  · simp [Pool.leaving, Pool.entering, Pool.start, Client.leaving, Client.entering, Worker.leaving,
      ServingSession.outstanding]
  · intro w t hw
    cases hw
  · intro t ht
    cases ht
  · exact List.Pairwise.nil
  · simp
  · simp
  · simp

theorem Reachable.sessionOk {limits : ServingLimits} {m n : ℕ} {p : Pool m n}
    (h : Reachable limits p) (k : ℕ) : SessionOk p k := by
  induction h generalizing k with
  | refl => exact sessionOk_start m n k
  | tail _ hstep ih => exact sessionOk_step hstep ih k

/-- The order of a session, in every state any number of clients and workers reach, however
their steps interleave. The turns so far went by ticket, none twice. Every ticket that was
issued was either cancelled, and never runs; or ran and is finished; or is in the hands of
exactly one thread or of the queue, and has run only if its turn is the one that is going
on. No two workers hold a turn. The ticket the sequencer waits for is not a cancelled one,
is still in someone's hands if it was issued, and its worker can begin as soon as the lock
is free. The pending operations are the unsettled tickets, up to the threads that are
between taking a slot and a ticket, or between giving them back. -/
theorem session_order {limits : ServingLimits} {m n : ℕ} {p : Pool m n} (h : Reachable limits p)
    (k : ℕ) :
    (p.sessions k).ran.Pairwise (· < ·) ∧
    (∀ t, t < (p.sessions k).issued →
      (t ∈ (p.sessions k).withdrawn ∧ t ∉ (p.sessions k).ran ∧ t ∉ p.carried k) ∨
      (t ∉ (p.sessions k).withdrawn ∧ (p.sessions k).ran.count t = 1 ∧ t ∉ p.carried k) ∨
      (t ∉ (p.sessions k).withdrawn ∧ (p.carried k).count t = 1 ∧
        (t ∈ (p.sessions k).ran ↔ (p.sessions k).turn = some t))) ∧
    (∀ w w' t t', (p.workers w).active k = some t → (p.workers w').active k = some t' →
      w = w' ∧ t = t') ∧
    ((p.sessions k).state.next ∉ (p.sessions k).withdrawn ∧
      ((p.sessions k).state.next < (p.sessions k).issued →
        (p.sessions k).state.next ∈ p.carried k) ∧
      ∀ w, p.workers w = .waiting k (p.sessions k).state.next → (p.sessions k).turn = none →
        ∃ p', Step limits p p' ∧ (p'.workers w).active k = some (p.sessions k).state.next) ∧
    (p.sessions k).pending + p.leaving k = (p.sessions k).outstanding.card + p.entering k := by
  have hok := h.sessionOk k
  have hfront : (p.sessions k).state.next ∉ (p.sessions k).state.cancelled := fun hc =>
    lt_irrefl _ (hok.seq.cancelled _ hc).1
  have hnext : (p.sessions k).state.next ∉ (p.sessions k).withdrawn := by
    intro hw
    rcases hok.withdrawn _ hw with hc | hlt
    · exact hfront hc
    · exact lt_irrefl _ hlt
  have hnodup : (p.sessions k).ran.Nodup := hok.ran_sorted.imp fun hlt => ne_of_lt hlt
  have hmem (t : ℕ) : t ∈ p.carried k ↔
      ((p.sessions k).state.next ≤ t ∧ t < (p.sessions k).issued) ∧
        t ∉ (p.sessions k).state.cancelled := by
    rw [hok.carried, Finset.mem_val, ServingSession.outstanding_eq,
      SessionSequenceState.mem_unsettled]
  have hturn (t : ℕ) (ht : (p.sessions k).turn = some t) : t = (p.sessions k).state.next :=
    (hok.held t ht).1
  refine ⟨hok.ran_sorted, ?_, ?_, ⟨hnext, ?_, ?_⟩, hok.count⟩
  · intro t hissued
    by_cases hw : t ∈ (p.sessions k).withdrawn
    · left
      refine ⟨hw, ?_, ?_⟩
      · rw [hok.ran_iff]
        rintro (⟨-, hno⟩ | ht)
        · exact hno hw
        · rw [hturn t ht] at hw
          exact hnext hw
      · rw [hmem]
        rintro ⟨⟨hge, -⟩, hno⟩
        rcases hok.withdrawn t hw with hc | hlt
        · exact hno hc
        · omega
    · right
      by_cases hlt : t < (p.sessions k).state.next
      · left
        refine ⟨hw, ?_, ?_⟩
        · apply List.count_eq_one_of_mem hnodup
          exact (hok.ran_iff t).mpr (.inl ⟨hlt, hw⟩)
        · rw [hmem]
          rintro ⟨⟨hge, -⟩, -⟩
          omega
      · right
        refine ⟨hw, ?_, ?_⟩
        · have hin : t ∈ p.carried k := by
            rw [hmem]
            exact ⟨⟨not_lt.mp hlt, hissued⟩, fun hc => hw (hok.cancelled t hc)⟩
          rw [hok.carried] at hin ⊢
          exact Multiset.count_eq_one_of_mem (Finset.nodup _) hin
        · rw [hok.ran_iff]
          constructor
          · rintro (⟨hbefore, -⟩ | ht)
            · exact absurd hbefore hlt
            · exact ht
          · exact .inr
  · intro w w' t t' hw hw'
    have ht := hok.active w t hw
    rw [hok.active w' t' hw'] at ht
    cases ht
    exact ⟨hok.active_unique hw hw', rfl⟩
  · intro hlt
    rw [hmem]
    exact ⟨⟨le_rfl, hlt⟩, hfront⟩
  · intro w hwait free
    refine ⟨_, .begin w hwait free rfl, ?_⟩
    rw [Pool.workers_setSession, Pool.workers_setWorker_self]
    exact if_pos rfl

/-- The limits a pool is built with when none are given. -/
def defaultLimits : ServingLimits := ⟨4096, 256 * 1024 * 1024, 512, 4000000, 64, 1⟩

/-- A client has put a job into the queue, and a worker has finished its turn. -/
theorem session_order_append :
    ∃ p : Pool 1 1, (p.sessions 0).ran = [0] ∧ (p.sessions 0).ran.Pairwise (· < ·) ∧
      (p.sessions 0).pending + p.leaving 0 =
        (p.sessions 0).outstanding.card + p.entering 0 := by
  obtain ⟨p, hrun, hran⟩ :
      ∃ p : Pool 1 1, Reachable defaultLimits p ∧ (p.sessions 0).ran = [0] := by
    refine ⟨_, .tail (.tail (.tail (.tail (.tail (.tail (.tail .refl
      (.slot 0 0 rfl (by decide))) (.reserve 0 0 rfl))
      (.enqueue 0 rfl (show (Job.Append 0 0 1).turn = some (0, 0) from rfl)
        (q := ⟨[.Append 0 0 1], 1, false⟩) rfl))
      (.takeTurn 0 rfl rfl rfl)) (.begin 0 rfl rfl rfl)) (.close 0 rfl)) (.drop 0 rfl), rfl⟩
  have h := session_order hrun 0
  exact ⟨p, hran, h.1, h.2.2.2.2⟩

/-- One client has taken a slot, and no ticket yet: an operation is pending, and no ticket
is reserved. -/
theorem pending_before_ticket :
    ∃ p : Pool 1 1, Reachable defaultLimits p ∧
      (p.sessions 0).pending ≠ (p.sessions 0).outstanding.card := by
  refine ⟨_, .tail .refl (.slot 0 0 rfl (by decide)), ?_⟩
  rw [Pool.sessions_setSession_self]
  decide

end Toktier.Serving
