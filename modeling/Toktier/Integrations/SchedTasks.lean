import Mathlib.Data.List.Nodup
import Mathlib.Data.List.Perm.Basic
import Toktier.Integrations.Sched

/-!
# Where the tasks of the scheduler are

A task waits in the queue, or is in flight at one worker, until its answer is noted. Between
two points of the program it can also be in hand: taken from one place and not yet put into
the next. The invariant is stated with the tasks in hand, and every operation of the scheduler
moves tasks between the places.

## Main definitions

* `Inv`: the invariant, with the tasks in hand.
* `Link`: how a worker, its input queue and its messages agree with the task in flight.

## Main results

* `Inv.push`, `Inv.discard`, `Inv.fail`, `Inv.dispatchOne`, `Inv.onDone`, `Inv.sweepWorker`.
-/
namespace Toktier.Sched

variable {cfg : Config} {w : World} {hand : List Task} {t u : Task} {m : Message}
  {r : Request} {wid rid i : ℕ}

/-- The request and the index of a task. -/
def Task.id (t : Task) : ℕ × ℕ := (t.rid, t.index)

/-- What stays of a task when it is queued again. -/
def Task.core (t : Task) : ℕ × ℕ × Lib.Text := (t.rid, t.index, t.text)

theorem Task.id_of_core (h : t.core = u.core) : t.id = u.id := by
  simp only [core, Prod.mk.injEq] at h
  simp [id, h.1, h.2.1]

/-- How the worker and its messages agree with the task in flight. -/
inductive Link : Option Task → Worker → List Message → Prop
  | free (up : Bool) : Link none ⟨up, [], none⟩ []
  | sent (t : Task) (up : Bool) : Link (some t) ⟨up, [t], none⟩ []
  | busy (t : Task) : Link (some t) ⟨true, [], some t⟩ []
  | answered (t : Task) (up : Bool) (m : Message) (h : t.id = (m.rid, m.index)) :
      Link (some t) ⟨up, [], none⟩ [m]
  | lost (t : Task) : Link (some t) ⟨false, [], none⟩ []

/-- The task waits: in hand, in the queue or in flight. -/
def World.Waits (w : World) (hand : List Task) (t : Task) : Prop :=
  t ∈ hand ∨ t ∈ w.queue ∨ ∃ wid, w.inflight wid = some t

/-- The ids of the tasks that were answered. -/
def World.logged (w : World) : List (ℕ × ℕ) := w.log.map fun e => e.1.id

/-- A request that did not fail has every part, and every part was answered. -/
def Complete (w : World) (r : Request) : Prop :=
  r.rid < w.nextRid ∧ (r.failed = none → w.chunks r.rid = r.tasks.map Task.text ∧
    ∀ i < r.tasks.length, ∃ p t, r.parts i = some p ∧ (t, Except.ok p) ∈ w.log ∧
      t.id = (r.rid, i))

/-- A result without an error has the answers of all its chunks, in their order. -/
def Delivered (w : World) (c : ℕ × Result) : Prop :=
  c.1 < w.nextRid ∧ (c.2.error = none → ∃ parts : ℕ → List ℤ,
    c.2.ids = some ((List.range (w.chunks c.1).length).flatMap parts) ∧
    ∀ i < (w.chunks c.1).length, ∃ t, (t, Except.ok (parts i)) ∈ w.log ∧ t.id = (c.1, i))

/-- How often a request is in the table, waits for its callback or was called back for. -/
def World.account (w : World) (rid : ℕ) : ℕ :=
  (w.calls.map Prod.fst).count rid + (w.finished.map Request.rid).count rid +
    (w.pending.map Request.rid).count rid + (w.reqs rid).isSome.toNat

/-- The invariant of the scheduler, with the tasks in hand. -/
structure Inv (w : World) (hand : List Task) : Prop where
  nodup : ((hand ++ w.queue).map Task.id).Nodup
  apart : ∀ t ∈ hand ++ w.queue, ∀ wid u, w.inflight wid = some u → t.id ≠ u.id
  inflight_inj : ∀ wid wid' t u, w.inflight wid = some t → w.inflight wid' = some u →
    t.id = u.id → wid = wid'
  inflight_alive : ∀ wid t, w.inflight wid = some t → wid ∈ w.alive
  idle_nodup : w.idle.Nodup
  idle_free : ∀ wid ∈ w.idle, wid ∈ w.alive → w.inflight wid = none
  free_idle : ∀ wid ∈ w.alive, w.inflight wid = none → wid ∈ w.idle
  alive_up : ∀ wid ∈ w.alive, wid ∉ w.dead
  dead_down : ∀ wid ∈ w.dead, (w.workers wid).up = false
  up_alive : ∀ wid, (w.workers wid).up = true → wid ∈ w.alive
  home_alive : ∀ t ∈ w.queue, ∀ home, t.home = some home → home ∈ w.alive
  links : ∀ wid ∈ w.alive,
    Link (w.inflight wid) (w.workers wid) (w.qres.filter fun m => m.wid = wid)
  stale : ∀ m ∈ w.qres, m.wid ∉ w.alive → m.rid < w.nextRid ∧ w.reqs m.rid = none
  waits_lt : ∀ t, w.Waits hand t → t.rid < w.nextRid
  waits_text : ∀ t, w.Waits hand t → (w.chunks t.rid)[t.index]? = some t.text
  waits_part : ∀ t, w.Waits hand t → ∀ r, w.reqs t.rid = some r → r.parts t.index = none
  req_open : ∀ rid r, w.reqs rid = some r →
    r.rid = rid ∧ rid < w.nextRid ∧ r.finished = false ∧ r.failed = none
  req_chunks : ∀ rid r, w.reqs rid = some r → w.chunks rid = r.tasks.map Task.text
  req_waits : ∀ rid r, w.reqs rid = some r → ∀ i < r.tasks.length, r.parts i = none →
    ∃ t, w.Waits hand t ∧ t.id = (rid, i)
  req_parts : ∀ rid r, w.reqs rid = some r → ∀ i p, r.parts i = some p →
    i < r.tasks.length ∧ ∃ t, (t, Except.ok p) ∈ w.log ∧ t.id = (rid, i)
  req_count : ∀ rid r, w.reqs rid = some r →
    r.nDone = (List.range r.tasks.length).countP (fun i => (r.parts i).isSome)
  req_left : ∀ rid r, w.reqs rid = some r → r.tasks ≠ [] → r.nDone < r.tasks.length
  chunks_fresh : ∀ rid, w.nextRid ≤ rid → w.chunks rid = []
  log_nodup : w.logged.Nodup
  log_lt : ∀ e ∈ w.log, e.1.rid < w.nextRid
  log_text : ∀ e ∈ w.log, (w.chunks e.1.rid)[e.1.index]? = some e.1.text
  queue_log : ∀ t ∈ w.queue, t.id ∉ w.logged
  worker_log : ∀ wid ∈ w.alive, ∀ t, t ∈ (w.workers wid).qin ∨ (w.workers wid).busy = some t →
    t.id ∉ w.logged
  message_log : ∀ m ∈ w.qres, ∃ t, (t, m.answer) ∈ w.log ∧ t.id = (m.rid, m.index)
  complete : ∀ r ∈ w.finished ++ w.pending, Complete w r
  calls : ∀ c ∈ w.calls, Delivered w c
  books : ∀ rid, w.account rid = if rid < w.nextRid then 1 else 0
  accepted : ∀ rid ∈ w.accepted, rid < w.nextRid ∧ ∀ r, w.reqs rid = some r → r.tasks ≠ []

/-! ### Tasks in hand and in the queue -/

theorem ids_perm {l l' : List Task} (h : (l'.map Task.core).Perm (l.map Task.core)) :
    (l'.map Task.id).Perm (l.map Task.id) := by
  have := h.map fun c => (c.1, c.2.1)
  rw [List.map_map, List.map_map] at this
  exact this

theorem exists_core {l l' : List Task} (h : (l'.map Task.core).Perm (l.map Task.core))
    (ht : t ∈ l') : ∃ u ∈ l, u.core = t.core :=
  List.mem_map.mp (h.mem_iff.mp (List.mem_map_of_mem ht))

/-- The queue and the tasks in hand may change as long as together they hold the same tasks. -/
theorem Inv.requeued (h : Inv w hand) {hand' queue : List Task} {seq : ℕ}
    (hp : ((hand' ++ queue).map Task.core).Perm ((hand ++ w.queue).map Task.core))
    (hhome : ∀ t ∈ queue, ∀ home, t.home = some home → home ∈ w.alive)
    (hlog : ∀ t ∈ queue, t.id ∉ w.logged) :
    Inv { w with queue := queue, seq := seq } hand' := by
  have hback {t : Task} (ht : World.Waits { w with queue := queue, seq := seq } hand' t) :
      ∃ u, w.Waits hand u ∧ u.core = t.core := by
    rcases ht with ht | ht | ht
    · obtain ⟨u, hu, hc⟩ := exists_core hp (List.mem_append_left _ ht)
      exact ⟨u, (List.mem_append.mp hu).imp_right .inl, hc⟩
    · obtain ⟨u, hu, hc⟩ := exists_core hp (List.mem_append_right _ ht)
      exact ⟨u, (List.mem_append.mp hu).imp_right .inl, hc⟩
    · exact ⟨t, .inr (.inr ht), rfl⟩
  have hforth {t : Task} (ht : w.Waits hand t) :
      ∃ u, World.Waits { w with queue := queue, seq := seq } hand' u ∧ u.core = t.core := by
    rcases ht with ht | ht | ht
    · obtain ⟨u, hu, hc⟩ := exists_core hp.symm (List.mem_append_left _ ht)
      exact ⟨u, (List.mem_append.mp hu).imp_right .inl, hc⟩
    · obtain ⟨u, hu, hc⟩ := exists_core hp.symm (List.mem_append_right _ ht)
      exact ⟨u, (List.mem_append.mp hu).imp_right .inl, hc⟩
    · exact ⟨t, .inr (.inr ht), rfl⟩
  refine { h with
    nodup := (ids_perm hp).nodup_iff.mpr h.nodup
    apart := ?_
    home_alive := hhome
    queue_log := hlog
    waits_lt := ?_
    waits_text := ?_
    waits_part := ?_
    req_waits := ?_ }
  · intro t ht wid u hu
    obtain ⟨v, hv, hc⟩ := exists_core hp ht
    rw [← Task.id_of_core hc]
    exact h.apart v hv wid u hu
  · intro t ht
    obtain ⟨v, hv, hc⟩ := hback ht
    simp only [Task.core, Prod.mk.injEq] at hc
    exact hc.1 ▸ h.waits_lt v hv
  · intro t ht
    obtain ⟨v, hv, hc⟩ := hback ht
    simp only [Task.core, Prod.mk.injEq] at hc
    have := h.waits_text v hv
    rwa [hc.1, hc.2.1, hc.2.2] at this
  · intro t ht r hr
    obtain ⟨v, hv, hc⟩ := hback ht
    simp only [Task.core, Prod.mk.injEq] at hc
    rw [← hc.2.1]
    exact h.waits_part v hv r (hc.1 ▸ hr)
  · intro rid r hr i hi hp
    obtain ⟨v, hv, hid⟩ := h.req_waits rid r hr i hi hp
    obtain ⟨u, hu, hc⟩ := hforth hv
    exact ⟨u, hu, (Task.id_of_core hc).trans hid⟩

theorem Inv.push (h : Inv w (t :: hand)) (hc : u.core = t.core)
    (hhome : ∀ home, u.home = some home → home ∈ w.alive) (hlog : t.id ∉ w.logged) :
    Inv (w.push u) hand := by
  refine h.requeued ?_ ?_ ?_
  · rw [List.map_append, List.map_cons, List.cons_append, List.map_cons, List.map_append]
    exact (List.perm_middle.trans (.refl _)).trans (by rw [← hc]; exact .refl _)
  · intro v hv
    rcases List.mem_cons.mp hv with rfl | hv
    · exact hhome
    · exact h.home_alive v hv
  · intro v hv
    rcases List.mem_cons.mp hv with rfl | hv
    · rw [← Task.id_of_core hc] at hlog
      exact hlog
    · exact h.queue_log v hv

/-- A task whose request is gone can be forgotten. -/
theorem Inv.discard (h : Inv w (t :: hand)) (hr : w.reqs t.rid = none) : Inv w hand := by
  have hsub {u : Task} (hu : w.Waits hand u) : w.Waits (t :: hand) u :=
    hu.imp_left (List.mem_cons_of_mem t)
  refine { h with
    nodup := (List.nodup_cons.mp (by simpa using h.nodup)).2
    apart := fun u hu => h.apart u (List.mem_cons_of_mem t hu)
    waits_lt := fun u hu => h.waits_lt u (hsub hu)
    waits_text := fun u hu => h.waits_text u (hsub hu)
    waits_part := fun u hu => h.waits_part u (hsub hu)
    req_waits := fun rid r hrid i hi hp => ?_ }
  obtain ⟨u, hu, hid⟩ := h.req_waits rid r hrid i hi hp
  rcases hu with hu | hu
  · rcases List.mem_cons.mp hu with rfl | hu
    · rw [show u.rid = rid from congrArg Prod.fst hid, hrid] at hr
      cases hr
    · exact ⟨u, .inl hu, hid⟩
  · exact ⟨u, .inr hu, hid⟩

/-! ### Requests that leave the table -/

theorem Complete.mono {w' : World} (h : Complete w r) (hrid : w.nextRid ≤ w'.nextRid)
    (hchunks : ∀ rid < w.nextRid, w'.chunks rid = w.chunks rid) (hlog : w.log ⊆ w'.log) :
    Complete w' r := by
  refine ⟨h.1.trans_le hrid, fun hf => ⟨?_, fun i hi => ?_⟩⟩
  · rw [hchunks r.rid h.1]
    exact (h.2 hf).1
  · obtain ⟨p, t, hp, ht, hid⟩ := (h.2 hf).2 i hi
    exact ⟨p, t, hp, hlog ht, hid⟩

theorem Delivered.mono {w' : World} {c : ℕ × Result} (h : Delivered w c)
    (hrid : w.nextRid ≤ w'.nextRid) (hchunks : ∀ rid < w.nextRid, w'.chunks rid = w.chunks rid)
    (hlog : w.log ⊆ w'.log) : Delivered w' c := by
  refine ⟨h.1.trans_le hrid, fun hc => ?_⟩
  obtain ⟨parts, hids, hparts⟩ := h.2 hc
  rw [hchunks c.1 h.1]
  refine ⟨parts, hids, fun i hi => ?_⟩
  obtain ⟨t, ht, hid⟩ := hparts i hi
  exact ⟨t, hlog ht, hid⟩

theorem settle_account (hin : (w.reqs r.rid).isSome) (rid : ℕ) :
    (w.settle r).account rid = w.account rid := by
  unfold World.account World.settle
  dsimp only
  rw [List.map_append, List.count_append]
  by_cases hrid : rid = r.rid
  · subst hrid
    rw [Function.update_self, hin]
    simp
    omega
  · rw [Function.update_of_ne hrid]
    have : List.count rid (List.map Request.rid [{ r with finished := true }]) = 0 :=
      List.count_eq_zero.mpr (by simpa using hrid)
    omega

theorem Inv.settle (h : Inv w hand) (hr : Complete w r) (hin : (w.reqs r.rid).isSome) :
    Inv (w.settle r) hand := by
  have hsome {rid : ℕ} {x : Request} (hx : (w.settle r).reqs rid = some x) :
      w.reqs rid = some x := by
    by_cases hrid : rid = r.rid
    · subst hrid
      simp [World.settle] at hx
    · simpa [World.settle, Function.update_of_ne hrid] using hx
  refine { h with
    stale := fun m hm hd => ⟨(h.stale m hm hd).1, ?_⟩
    waits_part := fun t ht x hx => h.waits_part t ht x (hsome hx)
    req_open := fun rid x hx => h.req_open rid x (hsome hx)
    req_chunks := fun rid x hx => h.req_chunks rid x (hsome hx)
    req_waits := fun rid x hx => h.req_waits rid x (hsome hx)
    req_parts := fun rid x hx => h.req_parts rid x (hsome hx)
    req_count := fun rid x hx => h.req_count rid x (hsome hx)
    req_left := fun rid x hx => h.req_left rid x (hsome hx)
    complete := fun x hx => ?_
    books := fun rid => (settle_account hin rid).trans (h.books rid)
    accepted := fun rid hrid =>
      ⟨(h.accepted rid hrid).1, fun x hx => (h.accepted rid hrid).2 x (hsome hx)⟩ }
  · refine Option.eq_none_iff_forall_ne_some.mpr fun x hx => ?_
    exact nomatch (h.stale m hm hd).2.symm.trans (hsome hx)
  · change x ∈ (w.finished ++ [{ r with finished := true }]) ++ w.pending at hx
    rw [List.mem_append, List.mem_append, List.mem_singleton] at hx
    rcases hx with (hx | rfl) | hx
    · exact h.complete x (List.mem_append_left _ hx)
    · exact hr
    · exact h.complete x (List.mem_append_right _ hx)

theorem settle_reqs (w : World) (r : Request) : (w.settle r).reqs r.rid = none :=
  Function.update_self ..

theorem settle_reqs_none (h : w.reqs rid = none) (r : Request) : (w.settle r).reqs rid = none := by
  change Function.update w.reqs r.rid none rid = none
  rw [Function.update_apply]
  split_ifs
  · rfl
  · exact h

/-- What failing a request does. -/
theorem fail_cases (h : Inv w hand) (error : String) (rid : ℕ) :
    (w.reqs rid = none ∧ w.fail error rid = w) ∨
      ∃ r, w.reqs rid = some r ∧ w.fail error rid = w.settle { r with failed := some error } := by
  unfold World.fail
  cases hr : w.reqs rid with
  | none => exact .inl ⟨rfl, rfl⟩
  | some r =>
    refine .inr ⟨r, rfl, ?_⟩
    dsimp only
    rw [if_neg (by rw [(h.req_open rid r hr).2.2.1]; exact Bool.false_ne_true)]

theorem Inv.fail (h : Inv w hand) (error : String) (rid : ℕ) :
    Inv (w.fail error rid) hand ∧ (w.fail error rid).reqs rid = none ∧
      ∀ x, w.reqs x = none → (w.fail error rid).reqs x = none := by
  rcases fail_cases h error rid with ⟨hr, heq⟩ | ⟨r, hr, heq⟩
  · rw [heq]
    exact ⟨h, hr, fun _ hx => hx⟩
  · obtain ⟨hrid, hlt, -, -⟩ := h.req_open rid r hr
    rw [heq]
    refine ⟨h.settle ⟨hrid ▸ hlt, fun hf => nomatch hf⟩ ?_, ?_, fun x hx => settle_reqs_none hx _⟩
    · change (w.reqs r.rid).isSome
      rw [hrid, hr]
      rfl
    rw [← hrid]
    exact settle_reqs w { r with failed := some error }

/-- Failing a request leaves the tasks and the workers alone. -/
theorem fail_frame (w : World) (error : String) (rid : ℕ) :
    ∃ reqs finished, w.fail error rid = { w with reqs := reqs, finished := finished } := by
  unfold World.fail
  cases w.reqs rid with
  | none => exact ⟨w.reqs, w.finished, rfl⟩
  | some r =>
    dsimp only
    split_ifs
    · exact ⟨w.reqs, w.finished, rfl⟩
    · exact ⟨_, _, rfl⟩

/-! ### Handing a task to a worker -/

theorem heapMin_mem {ts : List Task} (h : heapMin ts = some t) : t ∈ ts := by
  induction ts generalizing t with
  | nil => cases h
  | cons u ts ih =>
    rw [heapMin] at h
    cases hm : heapMin ts with
    | none =>
      rw [hm] at h
      obtain rfl := Option.some.inj h
      exact List.mem_cons_self
    | some v =>
      rw [hm] at h
      dsimp only at h
      split_ifs at h
      · obtain rfl := Option.some.inj h
        exact List.mem_cons_self
      · obtain rfl := Option.some.inj h
        exact List.mem_cons_of_mem u (ih hm)

/-- A worker is given a task of the queue, and only while it is alive. -/
theorem nextFor_mem (h : w.nextFor wid = some t) : wid ∈ w.alive ∧ t ∈ w.queue := by
  unfold World.nextFor at h
  split_ifs at h with halive
  refine ⟨halive, ?_⟩
  split at h
  · rename_i own shared hown hshared
    split_ifs at h
    · obtain rfl := Option.some.inj h
      exact List.mem_of_mem_filter (heapMin_mem hown)
    · obtain rfl := Option.some.inj h
      exact List.mem_of_mem_filter (heapMin_mem hshared)
  · rename_i own hown hshared
    obtain rfl := Option.some.inj h
    exact List.mem_of_mem_filter (heapMin_mem hown)
  · rename_i shared hshared hown
    exact List.mem_of_mem_filter (heapMin_mem h)

/-- The time of its first task does not matter to a request. -/
theorem Inv.stamp (h : Inv w hand) (f : ℕ → Request → Option ℕ) :
    Inv { w with reqs := fun x => (w.reqs x).map fun r => { r with tFirst := f x r } } hand := by
  have hsome {x : ℕ} {r' : Request}
      (hx : ((w.reqs x).map fun r => { r with tFirst := f x r }) = some r') :
      ∃ r, w.reqs x = some r ∧ r' = { r with tFirst := f x r } := by
    obtain ⟨r, hr, rfl⟩ := Option.map_eq_some_iff.mp hx
    exact ⟨r, hr, rfl⟩
  refine { h with
    stale := fun m hm hd => ⟨(h.stale m hm hd).1, ?_⟩
    waits_part := fun t ht r' hx => ?_
    req_open := fun x r' hx => ?_
    req_chunks := fun x r' hx => ?_
    req_waits := fun x r' hx => ?_
    req_parts := fun x r' hx => ?_
    req_count := fun x r' hx => ?_
    req_left := fun x r' hx => ?_
    books := fun x => ?_
    accepted := fun x hx => ⟨(h.accepted x hx).1, fun r' hr' => ?_⟩ }
  · change (w.reqs m.rid).map _ = none
    rw [(h.stale m hm hd).2]
    rfl
  · obtain ⟨r, hr, rfl⟩ := hsome hx
    exact h.waits_part t ht r hr
  · obtain ⟨r, hr, rfl⟩ := hsome hx
    exact h.req_open x r hr
  · obtain ⟨r, hr, rfl⟩ := hsome hx
    exact h.req_chunks x r hr
  · obtain ⟨r, hr, rfl⟩ := hsome hx
    exact h.req_waits x r hr
  · obtain ⟨r, hr, rfl⟩ := hsome hx
    exact h.req_parts x r hr
  · obtain ⟨r, hr, rfl⟩ := hsome hx
    exact h.req_count x r hr
  · obtain ⟨r, hr, rfl⟩ := hsome hx
    exact h.req_left x r hr
  · rw [← h.books x, World.account, World.account, Option.isSome_map]
  · obtain ⟨r, hr, rfl⟩ := hsome hr'
    exact (h.accepted x hx).2 r hr

/-- A worker without a task in flight has none in its queue either. -/
theorem Link.of_none {k : Worker} {ms : List Message} (h : Link none k ms) :
    k.qin = [] ∧ k.busy = none ∧ ms = [] := by
  cases h
  exact ⟨rfl, rfl, rfl⟩

theorem Inv.send (h : Inv w []) (hidle : wid ∈ w.idle) (halive : wid ∈ w.alive)
    (ht : t ∈ w.queue) :
    Inv { w with
      queue := w.queue.erase t
      idle := w.idle.filter (· ≠ wid)
      inflight := Function.update w.inflight wid (some t)
      workers := Function.update w.workers wid
        { w.workers wid with qin := (w.workers wid).qin ++ [t] } } [] := by
  have hfree := h.idle_free wid hidle halive
  have hlink := h.links wid halive
  rw [hfree] at hlink
  obtain ⟨hqin, hbusy, hmsgs⟩ := hlink.of_none
  have hnodup : (w.queue.map Task.id).Nodup := h.nodup
  -- the task is the only one of its id
  have hid : t.id ∉ (w.queue.erase t).map Task.id :=
    (List.nodup_cons.mp (((List.perm_cons_erase ht).map Task.id).nodup_iff.mp hnodup)).1
  have hinflight {x : ℕ} {u : Task} (hx : Function.update w.inflight wid (some t) x = some u) :
      x = wid ∧ u = t ∨ x ≠ wid ∧ w.inflight x = some u := by
    by_cases hw : x = wid
    · subst hw
      rw [Function.update_self] at hx
      exact .inl ⟨rfl, (Option.some.inj hx).symm⟩
    · rw [Function.update_of_ne hw] at hx
      exact .inr ⟨hw, hx⟩
  have hother {x : ℕ} {u : Task} (hx : w.inflight x = some u) : t.id ≠ u.id :=
    h.apart t ht x u hx
  have hback {u : Task} (hu : u ∈ [] ∨ u ∈ w.queue.erase t ∨
      ∃ x, Function.update w.inflight wid (some t) x = some u) : w.Waits [] u := by
    rcases hu with hu | hu | ⟨x, hx⟩
    · exact .inl hu
    · exact .inr (.inl (List.mem_of_mem_erase hu))
    · rcases hinflight hx with ⟨-, rfl⟩ | ⟨-, hx⟩
      · exact .inr (.inl ht)
      · exact .inr (.inr ⟨x, hx⟩)
  refine { h with
    nodup := hnodup.sublist ((List.erase_sublist ..).map Task.id)
    apart := ?_
    inflight_inj := ?_
    inflight_alive := ?_
    idle_nodup := h.idle_nodup.filter _
    idle_free := ?_
    free_idle := ?_
    dead_down := ?_
    up_alive := ?_
    home_alive := fun u hu => h.home_alive u (List.mem_of_mem_erase hu)
    links := ?_
    waits_lt := fun u hu => h.waits_lt u (hback hu)
    waits_text := fun u hu => h.waits_text u (hback hu)
    waits_part := fun u hu => h.waits_part u (hback hu)
    req_waits := ?_
    queue_log := fun u hu => h.queue_log u (List.mem_of_mem_erase hu)
    worker_log := ?_ }
  · intro u hu x v hx
    rcases hinflight hx with ⟨-, rfl⟩ | ⟨-, hx⟩
    · exact fun heq => hid (heq ▸ List.mem_map_of_mem hu)
    · exact h.apart u (List.mem_of_mem_erase hu) x v hx
  · intro x y u v hx hy huv
    rcases hinflight hx with ⟨rfl, rfl⟩ | ⟨-, hx'⟩ <;>
      rcases hinflight hy with ⟨rfl, rfl⟩ | ⟨-, hy'⟩
    · rfl
    · exact absurd huv (hother hy')
    · exact absurd huv.symm (hother hx')
    · exact h.inflight_inj x y u v hx' hy' huv
  · intro x u hx
    rcases hinflight hx with ⟨rfl, -⟩ | ⟨-, hx⟩
    · exact halive
    · exact h.inflight_alive x u hx
  · intro x hx hxa
    obtain ⟨hx, hne⟩ := List.mem_filter.mp hx
    have hne : x ≠ wid := by simpa using hne
    exact (Function.update_of_ne hne ..).trans (h.idle_free x hx hxa)
  · intro x hx hnone
    by_cases hw : x = wid
    · subst hw
      dsimp only at hnone
      rw [Function.update_self] at hnone
      cases hnone
    · exact List.mem_filter.mpr ⟨h.free_idle x hx
        ((Function.update_of_ne hw ..).symm.trans hnone), by simpa using hw⟩
  · intro x hx
    have hne : x ≠ wid := fun heq => h.alive_up wid halive (heq ▸ hx)
    change (Function.update w.workers wid _ x).up = false
    rw [Function.update_of_ne hne]
    exact h.dead_down x hx
  · intro x hx
    by_cases hw : x = wid
    · exact hw ▸ halive
    · change (Function.update w.workers wid _ x).up = true at hx
      rw [Function.update_of_ne hw] at hx
      exact h.up_alive x hx
  · intro x hx
    by_cases hw : x = wid
    · subst hw
      simp only [Function.update_self, hqin, hbusy, hmsgs, List.nil_append]
      exact .sent t _
    · simp only [Function.update_of_ne hw]
      exact h.links x hx
  · intro x r hr i hi hp
    obtain ⟨u, hu, huid⟩ := h.req_waits x r hr i hi hp
    refine ⟨u, ?_, huid⟩
    rcases hu with hu | hu | ⟨y, hy⟩
    · exact .inl hu
    · by_cases hut : u = t
      · exact .inr (.inr ⟨wid, by rw [hut]; exact Function.update_self ..⟩)
      · exact .inr (.inl ((List.mem_erase_of_ne hut).mpr hu))
    · have hne : y ≠ wid := fun heq => by rw [heq, hfree] at hy; cases hy
      exact .inr (.inr ⟨y, (Function.update_of_ne hne ..).trans hy⟩)
  · intro x hx u hu
    by_cases hw : x = wid
    · subst hw
      simp only [Function.update_self, hqin, hbusy, List.nil_append, List.mem_singleton] at hu
      rcases hu with rfl | hu
      · exact h.queue_log u ht
      · cases hu
    · simp only [Function.update_of_ne hw] at hu
      exact h.worker_log x hx u hu

theorem Inv.dispatchOne (h : Inv w []) (now : ℕ) (hidle : wid ∈ w.idle) :
    Inv (w.dispatchOne now wid) [] := by
  unfold World.dispatchOne
  cases hn : w.nextFor wid with
  | none => exact h
  | some t =>
    obtain ⟨halive, ht⟩ := nextFor_mem hn
    have hreqs : (fun x => (w.reqs x).map fun r => { r with
          tFirst := if x = t.rid ∧ r.tFirst.isNone then some now else r.tFirst }) =
        Function.update w.reqs t.rid ((w.reqs t.rid).map fun r =>
          if r.tFirst.isNone then { r with tFirst := some now } else r) := by
      funext x
      by_cases hx : x = t.rid
      · subst hx
        rw [Function.update_self]
        refine congrArg (fun f => (w.reqs t.rid).map f) (funext fun r => ?_)
        by_cases hnone : r.tFirst.isNone <;> simp [hnone]
      · rw [Function.update_of_ne hx]
        simp [hx]
    have hstamp := h.stamp fun x r => if x = t.rid ∧ r.tFirst.isNone then some now else r.tFirst
    rw [hreqs] at hstamp
    exact hstamp.send hidle halive ht

theorem dispatchOne_idle (w : World) (now : ℕ) {x : ℕ} (hx : x ≠ wid) (h : x ∈ w.idle) :
    x ∈ (w.dispatchOne now wid).idle := by
  unfold World.dispatchOne
  cases w.nextFor wid with
  | none => exact h
  | some t => exact List.mem_filter.mpr ⟨h, by simpa using hx⟩

/-- Handing out tasks to the idle workers. -/
theorem Inv.dispatch (h : Inv w []) (now : ℕ) : Inv (w.dispatch cfg now) [] := by
  suffices hfold : ∀ (ids : List ℕ) (w : World), ids.Nodup → (∀ wid ∈ ids, wid ∈ w.idle) →
      Inv w [] → Inv (ids.foldl (fun w wid => w.dispatchOne now wid) w) [] from
    hfold _ w ((cfg.setOrder_perm w.idle).nodup_iff.mpr h.idle_nodup)
      (fun _ hx => (cfg.setOrder_perm w.idle).mem_iff.mp hx) h
  intro ids
  induction ids with
  | nil => exact fun w _ _ h => h
  | cons wid ids ih =>
    intro w hnodup hidle h
    obtain ⟨hnot, hnodup⟩ := List.nodup_cons.mp hnodup
    refine ih _ hnodup (fun x hx => ?_) (h.dispatchOne now (hidle wid List.mem_cons_self))
    exact dispatchOne_idle w now (fun heq => hnot (heq ▸ hx)) (hidle x (List.mem_cons_of_mem wid hx))

/-! ### Noting an answer -/

theorem filter_erase_of_not {l : List Message} {p : Message → Bool} (hp : p m = false) :
    (l.erase m).filter p = l.filter p := by
  induction l with
  | nil => rfl
  | cons x l ih =>
    by_cases hx : x = m
    · subst hx
      rw [List.erase_cons_head, List.filter_cons, hp]
      rfl
    · rw [List.erase_cons_tail (by simpa using hx), List.filter_cons, List.filter_cons, ih]

theorem filter_erase_single {l : List Message} {p : Message → Bool} (hm : m ∈ l)
    (hp : p m = true) {x : Message} (h : l.filter p = [x]) : m = x ∧ (l.erase m).filter p = [] := by
  have hperm := (List.perm_cons_erase hm).filter p
  rw [h, List.filter_cons_of_pos hp] at hperm
  have hlen := hperm.length_eq
  have hnil : (l.erase m).filter p = [] := by
    simpa using hlen
  rw [hnil] at hperm
  exact ⟨(List.singleton_perm_singleton.mp hperm).symm, hnil⟩

/-- The worker of a message has nothing left to do, and its task is in flight. -/
theorem Inv.mine (h : Inv w hand) (hm : m ∈ w.qres) (halive : m.wid ∈ w.alive) :
    (w.workers m.wid).qin = [] ∧ (w.workers m.wid).busy = none ∧
      ((w.qres.erase m).filter fun x => x.wid = m.wid) = [] ∧
      ∃ t, w.inflight m.wid = some t ∧ t.id = (m.rid, m.index) := by
  have hin : m ∈ w.qres.filter fun x => x.wid = m.wid :=
    List.mem_filter.mpr ⟨hm, by simp⟩
  have hlink := h.links m.wid halive
  generalize hms : (w.qres.filter fun x => x.wid = m.wid) = ms at hlink hin
  generalize hk : w.workers m.wid = k at hlink
  generalize ho : w.inflight m.wid = o at hlink
  cases hlink with
  | free => cases hin
  | sent => cases hin
  | busy => cases hin
  | answered t up x hid =>
    obtain ⟨rfl, hnil⟩ := filter_erase_single hm (by simp) hms
    exact ⟨rfl, rfl, hnil, t, rfl, hid⟩
  | lost => cases hin

/-- A message of a worker that has ended can be lost. -/
theorem Inv.lose (h : Inv w hand) (hm : m ∈ w.qres) (hdown : (w.workers m.wid).up = false) :
    Inv { w with qres := w.qres.erase m } hand := by
  refine { h with
    links := fun wid hw => ?_
    stale := fun x hx => h.stale x (List.mem_of_mem_erase hx)
    message_log := fun x hx => h.message_log x (List.mem_of_mem_erase hx) }
  by_cases hwid : m.wid = wid
  · subst hwid
    obtain ⟨hqin, hbusy, hnil, t, hin, -⟩ := h.mine hm hw
    change Link (w.inflight m.wid) (w.workers m.wid) ((w.qres.erase m).filter _)
    rw [hnil, hin, show w.workers m.wid = ⟨false, [], none⟩ by rw [← hqin, ← hbusy, ← hdown]]
    exact .lost t
  · change Link (w.inflight wid) (w.workers wid) ((w.qres.erase m).filter _)
    rw [filter_erase_of_not (by simpa using hwid)]
    exact h.links wid hw

/-- The task whose answer is read is taken in hand. -/
theorem Inv.read (h : Inv w []) (hm : m ∈ w.qres) :
    Inv { w with
      qres := w.qres.erase m
      inflight := Function.update w.inflight m.wid none
      idle := m.wid :: w.idle.filter (· ≠ m.wid) } (w.inflight m.wid).toList := by
  have hinflight {x : ℕ} {u : Task} (hx : Function.update w.inflight m.wid none x = some u) :
      x ≠ m.wid ∧ w.inflight x = some u := by
    by_cases hw : x = m.wid
    · subst hw
      rw [Function.update_self] at hx
      cases hx
    · exact ⟨hw, by rwa [Function.update_of_ne hw] at hx⟩
  have hback {u : Task} (hu : u ∈ (w.inflight m.wid).toList ∨ u ∈ w.queue ∨
      ∃ x, Function.update w.inflight m.wid none x = some u) : w.Waits [] u := by
    rcases hu with hu | hu | ⟨x, hx⟩
    · exact .inr (.inr ⟨m.wid, Option.mem_toList.mp hu⟩)
    · exact .inr (.inl hu)
    · exact .inr (.inr ⟨x, (hinflight hx).2⟩)
  have hqueue {u v : Task} (hu : u ∈ w.queue) {x : ℕ} (hv : w.inflight x = some v) :
      u.id ≠ v.id := h.apart u hu x v hv
  refine { h with
    nodup := ?_
    apart := ?_
    inflight_inj := fun x y u v hx hy => h.inflight_inj x y u v (hinflight hx).2 (hinflight hy).2
    inflight_alive := fun x u hx => h.inflight_alive x u (hinflight hx).2
    idle_nodup := List.nodup_cons.mpr ⟨by simp, h.idle_nodup.filter _⟩
    idle_free := ?_
    free_idle := ?_
    links := ?_
    stale := fun x hx => h.stale x (List.mem_of_mem_erase hx)
    waits_lt := fun u hu => h.waits_lt u (hback hu)
    waits_text := fun u hu => h.waits_text u (hback hu)
    waits_part := fun u hu => h.waits_part u (hback hu)
    req_waits := ?_
    message_log := fun x hx => h.message_log x (List.mem_of_mem_erase hx) }
  · cases hin : w.inflight m.wid with
    | none => exact h.nodup
    | some t =>
      change ((t :: w.queue).map Task.id).Nodup
      refine List.nodup_cons.mpr ⟨fun hmem => ?_, h.nodup⟩
      obtain ⟨u, hu, hid⟩ := List.mem_map.mp hmem
      exact hqueue hu hin hid
  · intro u hu x v hx
    obtain ⟨hne, hx⟩ := hinflight hx
    rcases List.mem_append.mp hu with hu | hu
    · exact fun heq => hne (h.inflight_inj x m.wid v u hx (Option.mem_toList.mp hu) heq.symm)
    · exact hqueue hu hx
  · intro x hx hxa
    by_cases hw : x = m.wid
    · exact hw ▸ Function.update_self ..
    · rcases List.mem_cons.mp hx with rfl | hx
      · exact absurd rfl hw
      · exact (Function.update_of_ne hw ..).trans (h.idle_free x (List.mem_of_mem_filter hx) hxa)
  · intro x hx hnone
    by_cases hw : x = m.wid
    · exact hw ▸ List.mem_cons_self
    · refine List.mem_cons_of_mem _ (List.mem_filter.mpr ⟨h.free_idle x hx ?_, by simpa using hw⟩)
      exact (Function.update_of_ne hw ..).symm.trans hnone
  · intro x hx
    by_cases hw : m.wid = x
    · subst hw
      obtain ⟨hqin, hbusy, hnil, -⟩ := h.mine hm hx
      change Link (Function.update w.inflight m.wid none m.wid) (w.workers m.wid)
        ((w.qres.erase m).filter _)
      rw [hnil, Function.update_self,
        show w.workers m.wid = ⟨(w.workers m.wid).up, [], none⟩ by rw [← hqin, ← hbusy]]
      exact .free _
    · change Link (Function.update w.inflight m.wid none x) (w.workers x)
        ((w.qres.erase m).filter _)
      rw [Function.update_of_ne (Ne.symm hw), filter_erase_of_not (by simpa using hw)]
      exact h.links x hx
  · intro x r hr i hi hp
    obtain ⟨u, hu, hid⟩ := h.req_waits x r hr i hi hp
    refine ⟨u, ?_, hid⟩
    rcases hu with hu | hu | ⟨y, hy⟩
    · cases hu
    · exact .inr (.inl hu)
    · by_cases hw : y = m.wid
      · exact .inl (Option.mem_toList.mpr (hw ▸ hy))
      · exact .inr (.inr ⟨y, (Function.update_of_ne hw ..).trans hy⟩)

theorem countP_update {l : List ℕ} (hl : l.Nodup) {p q : ℕ → Bool} {i : ℕ} (hi : i ∈ l)
    (hpi : p i = false) (hqi : q i = true) (hq : ∀ j, j ≠ i → q j = p j) :
    l.countP q = l.countP p + 1 := by
  induction l with
  | nil => cases hi
  | cons x l ih =>
    obtain ⟨hx, hl⟩ := List.nodup_cons.mp hl
    rw [List.countP_cons, List.countP_cons]
    rcases List.mem_cons.mp hi with rfl | hi
    · have hsame : l.countP q = l.countP p :=
        List.countP_congr fun j hj => by rw [hq j fun heq => hx (heq ▸ hj)]
      rw [hsame, hpi, hqi]
      simp
    · rw [ih hl hi, hq x fun heq => hx (heq ▸ hi)]
      omega

/-- What the answered request looks like. -/
theorem Inv.answered (h : Inv w [t]) (hr : w.reqs t.rid = some r) {p : List ℤ}
    (hlog : ∃ u, (u, Except.ok p) ∈ w.log ∧ u.id = t.id) :
    t.index < r.tasks.length ∧
      (∀ i q, Function.update r.parts t.index (some p) i = some q →
        i < r.tasks.length ∧ ∃ u, (u, Except.ok q) ∈ w.log ∧ u.id = (t.rid, i)) ∧
      r.nDone + 1 = (List.range r.tasks.length).countP
        (fun i => (Function.update r.parts t.index (some p) i).isSome) := by
  have hindex : t.index < r.tasks.length := by
    have := List.getElem?_eq_some_iff.mp (h.waits_text t (.inl List.mem_cons_self))
    obtain ⟨hlt, -⟩ := this
    simpa [h.req_chunks _ r hr] using hlt
  have hnone := h.waits_part t (.inl List.mem_cons_self) r hr
  refine ⟨hindex, fun i q hq => ?_, ?_⟩
  · by_cases hi : i = t.index
    · subst hi
      rw [Function.update_self] at hq
      obtain rfl := Option.some.inj hq
      exact ⟨hindex, hlog⟩
    · rw [Function.update_of_ne hi] at hq
      exact h.req_parts _ r hr i q hq
  · rw [h.req_count _ r hr]
    refine (countP_update List.nodup_range (List.mem_range.mpr hindex) ?_ ?_ fun j hj => ?_).symm
    · rw [hnone]
      rfl
    · rw [Function.update_self]
      rfl
    · rw [Function.update_of_ne hj]

/-- An answer that is not the last one is noted. -/
theorem Inv.note (h : Inv w [t]) (hr : w.reqs t.rid = some r) {p : List ℤ}
    (hlog : ∃ u, (u, Except.ok p) ∈ w.log ∧ u.id = t.id)
    (hlast : r.nDone + 1 ≠ r.tasks.length) :
    Inv { w with reqs := Function.update w.reqs t.rid (some { r with
      nDone := r.nDone + 1, parts := Function.update r.parts t.index (some p) }) } [] := by
  obtain ⟨hindex, hparts, hcount⟩ := h.answered hr hlog
  have hsome {x : ℕ} {y : Request} (hx : Function.update w.reqs t.rid (some { r with
      nDone := r.nDone + 1, parts := Function.update r.parts t.index (some p) }) x = some y) :
      x = t.rid ∧ y = { r with
        nDone := r.nDone + 1, parts := Function.update r.parts t.index (some p) } ∨
      x ≠ t.rid ∧ w.reqs x = some y := by
    by_cases hw : x = t.rid
    · subst hw
      rw [Function.update_self] at hx
      exact .inl ⟨rfl, (Option.some.inj hx).symm⟩
    · exact .inr ⟨hw, by rwa [Function.update_of_ne hw] at hx⟩
  have hid : t.id ∉ w.queue.map Task.id := (List.nodup_cons.mp h.nodup).1
  refine { h with
    nodup := (List.nodup_cons.mp h.nodup).2
    apart := fun u hu => h.apart u (List.mem_cons_of_mem t hu)
    stale := fun m hm hd => ⟨(h.stale m hm hd).1, ?_⟩
    waits_lt := fun u hu => h.waits_lt u (.inr (hu.resolve_left (List.not_mem_nil)))
    waits_text := fun u hu => h.waits_text u (.inr (hu.resolve_left (List.not_mem_nil)))
    waits_part := fun u hu y hy => ?_
    req_open := fun x y hy => ?_
    req_chunks := fun x y hy => ?_
    req_waits := fun x y hy i hi hpi => ?_
    req_parts := fun x y hy => ?_
    req_count := fun x y hy => ?_
    req_left := fun x y hy => ?_
    books := fun x => ?_
    accepted := fun x hx => ⟨(h.accepted x hx).1, fun y hy => ?_⟩ }
  · have hnone := (h.stale m hm hd).2
    have hne : m.rid ≠ t.rid := fun heq => by rw [heq, hr] at hnone; cases hnone
    exact (Function.update_of_ne hne ..).trans hnone
  · have hu' := hu.resolve_left (List.not_mem_nil)
    rcases hsome hy with ⟨hrid, rfl⟩ | ⟨-, hy⟩
    · have hne : u.index ≠ t.index := by
        intro heq
        have hut : u.id = t.id := Prod.ext hrid heq
        rcases hu' with hu' | ⟨y, hy⟩
        · exact hid (hut ▸ List.mem_map_of_mem hu')
        · exact h.apart t List.mem_cons_self y u hy hut.symm
      exact (Function.update_of_ne hne ..).trans
        (h.waits_part u (.inr hu') r (by rw [hrid]; exact hr))
    · exact h.waits_part u (.inr hu') y hy
  · rcases hsome hy with ⟨rfl, rfl⟩ | ⟨-, hy⟩
    · exact h.req_open _ r hr
    · exact h.req_open x y hy
  · rcases hsome hy with ⟨rfl, rfl⟩ | ⟨-, hy⟩
    · exact h.req_chunks _ r hr
    · exact h.req_chunks x y hy
  · have hleft {u : Task} (hu : w.Waits [t] u) (hne : u.id ≠ t.id) :
        World.Waits { w with reqs := Function.update w.reqs t.rid (some { r with
          nDone := r.nDone + 1, parts := Function.update r.parts t.index (some p) }) } [] u := by
      refine .inr (hu.resolve_left fun hmem => hne ?_)
      rw [List.mem_singleton.mp hmem]
    rcases hsome hy with ⟨rfl, rfl⟩ | ⟨hne, hy⟩
    · change Function.update r.parts t.index (some p) i = none at hpi
      have hi' : i ≠ t.index := by
        rintro rfl
        rw [Function.update_self] at hpi
        cases hpi
      rw [Function.update_of_ne hi'] at hpi
      obtain ⟨u, hu, huid⟩ := h.req_waits _ r hr i hi hpi
      refine ⟨u, hleft hu ?_, huid⟩
      rw [huid]
      exact fun heq => hi' (congrArg Prod.snd heq)
    · obtain ⟨u, hu, huid⟩ := h.req_waits x y hy i hi hpi
      refine ⟨u, hleft hu ?_, huid⟩
      rw [huid]
      exact fun heq => hne (congrArg Prod.fst heq)
  · rcases hsome hy with ⟨rfl, rfl⟩ | ⟨-, hy⟩
    · exact hparts
    · exact h.req_parts x y hy
  · rcases hsome hy with ⟨rfl, rfl⟩ | ⟨-, hy⟩
    · exact hcount
    · exact h.req_count x y hy
  · rcases hsome hy with ⟨rfl, rfl⟩ | ⟨-, hy⟩
    · intro hne
      have := h.req_left _ r hr hne
      change r.nDone + 1 < r.tasks.length
      omega
    · exact h.req_left x y hy
  · rw [← h.books x, World.account, World.account]
    by_cases hw : x = t.rid
    · subst hw
      rw [hr]
      simp
    · dsimp only
      rw [Function.update_of_ne hw]
  · rcases hsome hy with ⟨rfl, rfl⟩ | ⟨-, hy⟩
    · exact (h.accepted _ hx).2 r hr
    · exact (h.accepted x hx).2 y hy

end Toktier.Sched
