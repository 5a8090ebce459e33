import Toktier.Integrations.SchedTasks

/-!
# Every act of the scheduler keeps its tasks

The collector, the sweeper, a caller, a closing thread and the workers each keep the invariant
of the tasks, and so does every run.

## Main results

* `Inv.onDone`, `Inv.sweep`, `Inv.submit`, `Inv.drain`: the parts of the acts.
* `Inv.step`: an act keeps the invariant.
* `Reach.inv`: it holds in every state that is reached.
-/
namespace Toktier.Sched

variable {cfg : Config} {w : World} {hand : List Task} {t u : Task} {m : Message}
  {r : Request} {wid rid i : ℕ}

/-! ### The collector -/

theorem answered_ok {p : List ℤ} (h : m.answer = .ok p) :
    r.answered m = { r with
      nDone := r.nDone + 1, parts := Function.update r.parts m.index (some p) } := by
  unfold Request.answered
  rw [h]

theorem answered_error {e : String} (h : m.answer = .error e) :
    r.answered m = { r with
      nDone := r.nDone + 1, failed := some ("worker " ++ toString m.wid ++ ": " ++ e) } := by
  unfold Request.answered
  rw [h]

/-- With its last answer a request has every part. -/
theorem Inv.last (h : Inv w [t]) (hr : w.reqs t.rid = some r) {p : List ℤ}
    (hlog : ∃ u, (u, Except.ok p) ∈ w.log ∧ u.id = t.id) (hlast : r.nDone + 1 = r.tasks.length) :
    Complete w { r with
      nDone := r.nDone + 1, parts := Function.update r.parts t.index (some p) } := by
  obtain ⟨-, hparts, hcount⟩ := h.answered hr hlog
  obtain ⟨hrid, hlt, -, -⟩ := h.req_open _ r hr
  rw [hlast] at hcount
  have hall := List.countP_eq_length.mp (hcount.symm.trans List.length_range.symm)
  refine ⟨hrid ▸ hlt, fun _ => ⟨?_, fun i hi => ?_⟩⟩
  · rw [show w.chunks r.rid = w.chunks t.rid by rw [hrid]]
    exact h.req_chunks _ r hr
  · obtain ⟨q, hq⟩ := Option.isSome_iff_exists.mp (hall i (List.mem_range.mpr hi))
    obtain ⟨-, u, hu, hid⟩ := hparts i q hq
    exact ⟨q, u, hq, hu, hid.trans (by rw [hrid])⟩

theorem Inv.onDone (h : Inv w []) (hm : m ∈ w.qres) :
    Inv (World.onDone { w with qres := w.qres.erase m } m) [] := by
  have hread := h.read hm
  unfold World.onDone
  dsimp only
  by_cases halive : m.wid ∈ w.alive
  · obtain ⟨-, -, -, t, hin, hid⟩ := h.mine hm halive
    obtain ⟨u, hu, huid⟩ := h.message_log m hm
    obtain ⟨hrid, hindex⟩ := Prod.mk.inj hid
    rw [hin] at hread
    rw [← hrid]
    cases hr : w.reqs t.rid with
    | none => exact hread.discard hr
    | some r =>
      obtain ⟨hrrid, hlt, hfin, hfail⟩ := h.req_open _ r hr
      dsimp only
      rw [if_neg (by rw [hfin]; exact Bool.false_ne_true)]
      cases ha : m.answer with
      | error e =>
        rw [answered_error ha, if_pos (.inl rfl)]
        refine (hread.settle ⟨?_, ?_⟩ ?_).discard ?_
        · exact hrrid ▸ hlt
        · intro hf
          cases hf
        · change (w.reqs r.rid).isSome
          rw [hrrid, hr]
          rfl
        · rw [← hrrid]
          exact settle_reqs ..
      | ok p =>
        have hlog : ∃ u, (u, Except.ok p) ∈ w.log ∧ u.id = t.id :=
          ⟨u, ha ▸ hu, huid.trans hid.symm⟩
        rw [answered_ok ha, ← hindex]
        by_cases hlast : r.nDone + 1 = r.tasks.length
        · rw [if_pos (.inr hlast)]
          refine (hread.settle (hread.last hr hlog hlast) ?_).discard ?_
          · change (w.reqs r.rid).isSome
            rw [hrrid, hr]
            rfl
          rw [← hrrid]
          exact settle_reqs ..
        · rw [if_neg (by rw [hfail]; exact fun hor => hor.elim (fun hf => nomatch hf) hlast)]
          exact hread.note hr hlog hlast
  · have hnone : w.inflight m.wid = none :=
      Option.eq_none_iff_forall_ne_some.mpr fun t ht => halive (h.inflight_alive m.wid t ht)
    rw [hnone] at hread
    rw [(h.stale m hm halive).2]
    exact hread

/-! ### The sweeper -/

/-- A worker that has ended is taken out; the request of its task is gone by then. -/
theorem Inv.bury (h : Inv w hand) (hdown : (w.workers wid).up = false)
    (hhome : ∀ t ∈ w.queue, t.home ≠ some wid)
    (hgone : ∀ t, w.inflight wid = some t → w.reqs t.rid = none) :
    Inv { w with
      dead := wid :: w.dead
      idle := w.idle.filter (· ≠ wid)
      alive := w.alive.filter (· ≠ wid)
      inflight := Function.update w.inflight wid none } hand := by
  have hinflight {x : ℕ} {u : Task} (hx : Function.update w.inflight wid none x = some u) :
      x ≠ wid ∧ w.inflight x = some u := by
    by_cases hw : x = wid
    · subst hw
      rw [Function.update_self] at hx
      cases hx
    · exact ⟨hw, by rwa [Function.update_of_ne hw] at hx⟩
  have halive {x : ℕ} : x ∈ w.alive.filter (· ≠ wid) ↔ x ∈ w.alive ∧ x ≠ wid := by
    simp
  have hback {u : Task} (hu : u ∈ hand ∨ u ∈ w.queue ∨
      ∃ x, Function.update w.inflight wid none x = some u) : w.Waits hand u :=
    hu.imp_right fun hu => hu.imp_right fun ⟨x, hx⟩ => ⟨x, (hinflight hx).2⟩
  refine { h with
    apart := fun u hu x v hx => h.apart u hu x v (hinflight hx).2
    inflight_inj := fun x y u v hx hy => h.inflight_inj x y u v (hinflight hx).2 (hinflight hy).2
    inflight_alive := fun x u hx => ?_
    idle_nodup := h.idle_nodup.filter _
    idle_free := fun x hx hxa => ?_
    free_idle := fun x hx hnone => ?_
    alive_up := fun x hx => ?_
    dead_down := fun x hx => ?_
    up_alive := fun x hx => ?_
    home_alive := fun u hu home hh => ?_
    links := fun x hx => ?_
    stale := fun x hx hd => ?_
    waits_lt := fun u hu => h.waits_lt u (hback hu)
    waits_text := fun u hu => h.waits_text u (hback hu)
    waits_part := fun u hu => h.waits_part u (hback hu)
    req_waits := fun x r hr i hi hp => ?_
    worker_log := fun x hx => h.worker_log x (halive.mp hx).1 }
  · obtain ⟨hne, hx⟩ := hinflight hx
    exact halive.mpr ⟨h.inflight_alive x u hx, hne⟩
  · obtain ⟨hxa, hne⟩ := halive.mp hxa
    exact (Function.update_of_ne hne ..).trans (h.idle_free x (List.mem_of_mem_filter hx) hxa)
  · obtain ⟨hxa, hne⟩ := halive.mp hx
    exact List.mem_filter.mpr ⟨h.free_idle x hxa
      ((Function.update_of_ne hne ..).symm.trans hnone), by simpa using hne⟩
  · obtain ⟨hxa, hne⟩ := halive.mp hx
    exact fun hd => (List.mem_cons.mp hd).elim hne (h.alive_up x hxa)
  · rcases List.mem_cons.mp hx with rfl | hx
    · exact hdown
    · exact h.dead_down x hx
  · refine halive.mpr ⟨h.up_alive x hx, fun heq => ?_⟩
    rw [heq, hdown] at hx
    cases hx
  · refine halive.mpr ⟨h.home_alive u hu home hh, fun heq => hhome u hu ?_⟩
    rw [hh, heq]
  · obtain ⟨hxa, hne⟩ := halive.mp hx
    change Link (Function.update w.inflight wid none x) _ _
    rw [Function.update_of_ne hne]
    exact h.links x hxa
  · by_cases hxa : x.wid ∈ w.alive
    · have hw : x.wid = wid := by
        by_contra hne
        exact hd (halive.mpr ⟨hxa, hne⟩)
      -- its answer was not noted, so the task is still in flight
      obtain ⟨-, -, -, t, ht, hid⟩ := h.mine hx hxa
      obtain ⟨hrid, -⟩ := Prod.mk.inj hid
      rw [← hrid]
      exact ⟨h.waits_lt t (.inr (.inr ⟨x.wid, ht⟩)), hgone t (hw ▸ ht)⟩
    · exact h.stale x hx hxa
  · obtain ⟨u, hu, hid⟩ := h.req_waits x r hr i hi hp
    refine ⟨u, ?_, hid⟩
    rcases hu with hu | hu | ⟨y, hy⟩
    · exact .inl hu
    · exact .inr (.inl hu)
    · have hne : y ≠ wid := by
        rintro rfl
        have hnone := hgone u hy
        rw [show u.rid = x from congrArg Prod.fst hid, hr] at hnone
        cases hnone
      exact .inr (.inr ⟨y, (Function.update_of_ne hne ..).trans hy⟩)

theorem homeOf_mem {alive : List ℕ} {key : Lib.Text} {home : ℕ}
    (h : homeOf cfg alive key = some home) : home ∈ alive :=
  List.mem_of_getElem? h

theorem Inv.requeue (h : Inv w (t :: hand)) (hlog : t.id ∉ w.logged) :
    Inv (w.requeue cfg t) hand := by
  unfold World.requeue
  split_ifs with hdead
  · exact h.push rfl (fun home hh => homeOf_mem hh) hlog
  · refine h.push rfl (fun home hh => ?_) hlog
    by_contra hnot
    rw [hh] at hdead
    exact hdead (by simpa using hnot)

theorem requeue_logged (w : World) (t : Task) : (w.requeue cfg t).logged = w.logged := by
  unfold World.requeue
  split_ifs <;> rfl

/-- The tasks in hand are put back. -/
theorem Inv.requeueAll (h : Inv w hand) (hlog : ∀ t ∈ hand, t.id ∉ w.logged) :
    Inv (hand.foldl (World.requeue cfg) w) [] := by
  induction hand generalizing w with
  | nil => exact h
  | cons t hand ih =>
    refine ih (h.requeue (hlog t List.mem_cons_self)) fun u hu => ?_
    rw [requeue_logged]
    exact hlog u (List.mem_cons_of_mem t hu)

/-- The requests of the tasks in hand fail. -/
theorem Inv.failAll (h : Inv w hand) (error : String) :
    Inv (hand.foldl (fun w t => w.fail error t.rid) w) [] := by
  induction hand generalizing w with
  | nil => exact h
  | cons t hand ih =>
    obtain ⟨hfail, hnone, -⟩ := h.fail error t.rid
    exact ih (hfail.discard hnone)

theorem fail_bury (w : World) (error : String) (rid : ℕ) (dead idle alive : List ℕ)
    (inflight : ℕ → Option Task) :
    World.fail { w with dead := dead, idle := idle, alive := alive, inflight := inflight }
        error rid =
      { w.fail error rid with
        dead := dead, idle := idle, alive := alive, inflight := inflight } := by
  unfold World.fail
  dsimp only
  cases w.reqs rid with
  | none => rfl
  | some r =>
    dsimp only
    split_ifs <;> rfl

/-- The tasks of a home are taken in hand. -/
theorem Inv.strand (h : Inv w []) (wid : ℕ) :
    Inv { w with queue := w.queue.filter fun t => t.home ≠ some wid }
      (w.queue.filter fun t => t.home = some wid) := by
  refine h.requeued ?_ (fun t ht => h.home_alive t (List.mem_of_mem_filter ht))
    (fun t ht => h.queue_log t (List.mem_of_mem_filter ht))
  refine List.Perm.map _ ?_
  have hsplit := List.filter_append_perm (fun t : Task => decide (t.home = some wid)) w.queue
  simpa using hsplit

/-- The state without a worker. -/
def World.buried (w : World) (wid : ℕ) : World :=
  { w with
    dead := wid :: w.dead
    idle := w.idle.filter (· ≠ wid)
    alive := w.alive.filter (· ≠ wid)
    inflight := Function.update w.inflight wid none }

/-- The tasks that were queued for a worker that has ended are in hand. -/
theorem Inv.stranded (h : Inv w []) (hdown : (w.workers wid).up = false)
    (hgone : ∀ t, w.inflight wid = some t → w.reqs t.rid = none) {w' : World}
    (hw' : w' = w.buried wid) :
    Inv { w' with queue := w'.queue.filter fun t => t.home ≠ some wid }
      (w'.queue.filter fun t => t.home = some wid) := by
  subst hw'
  exact (h.strand wid).bury hdown (fun t ht => by simpa using (List.mem_filter.mp ht).2) hgone

/-- They are put back, or their requests fail. -/
theorem Inv.rehome (hlog : ∀ t ∈ w.queue, t.id ∉ w.logged)
    (h : Inv { w with queue := w.queue.filter fun t => t.home ≠ some wid }
      (w.queue.filter fun t => t.home = some wid)) (error : String) :
    Inv (if w.alive = [] then
      (w.queue.filter fun t => t.home = some wid).foldl (fun w t => w.fail error t.rid)
        { w with queue := w.queue.filter fun t => t.home ≠ some wid }
    else (w.queue.filter fun t => t.home = some wid).foldl (World.requeue cfg)
        { w with queue := w.queue.filter fun t => t.home ≠ some wid }) [] := by
  split_ifs
  · exact h.failAll error
  · exact h.requeueAll fun t ht => hlog t (List.mem_of_mem_filter ht)

theorem Inv.sweepWorker (h : Inv w []) (wid : ℕ) : Inv (w.sweepWorker cfg wid) [] := by
  unfold World.sweepWorker
  split_ifs with hup
  · exact h
  · obtain ⟨-, hup⟩ := not_or.mp hup
    have hdown : (w.workers wid).up = false := by simpa using hup
    cases ho : w.inflight wid with
    | none =>
      exact Inv.rehome (w := w.buried wid) h.queue_log
        (h.stranded hdown (fun t ht => nomatch ho.symm.trans ht) rfl) _
    | some t =>
      obtain ⟨hfail, hnone, -⟩ := h.fail ("worker " ++ toString wid ++ " died") t.rid
      have hbury := fail_bury w ("worker " ++ toString wid ++ " died") t.rid (wid :: w.dead)
        (w.idle.filter (· ≠ wid)) (w.alive.filter (· ≠ wid)) (Function.update w.inflight wid none)
      obtain ⟨reqs, finished, hframe⟩ := fail_frame w ("worker " ++ toString wid ++ " died") t.rid
      rw [hframe] at hfail hnone hbury
      refine Inv.rehome ?_ (hfail.stranded hdown (fun u hu => ?_) hbury) _
      · rw [hbury]
        exact h.queue_log
      · obtain rfl := Option.some.inj (ho.symm.trans hu)
        exact hnone

theorem Inv.foldl {α : Type*} {f : World → α → World} (hf : ∀ w a, Inv w [] → Inv (f w a) [])
    (as : List α) (h : Inv w []) : Inv (as.foldl f w) [] := by
  induction as generalizing w with
  | nil => exact h
  | cons a as ih => exact ih (hf w a h)

theorem Inv.sweepRequest (h : Inv w []) (now rid : ℕ) :
    Inv (w.sweepRequest cfg now rid) [] := by
  unfold World.sweepRequest
  cases w.reqs rid with
  | none => exact h
  | some r =>
    dsimp only
    split_ifs
    · exact (h.fail _ rid).1
    · exact h

theorem Inv.sweep (h : Inv w []) (now : ℕ) : Inv (w.sweep cfg now) [] := by
  unfold World.sweep
  have hworkers := h.foldl (f := World.sweepWorker cfg) (fun _ wid h => h.sweepWorker wid)
    (List.range cfg.workers)
  dsimp only
  split_ifs
  · exact hworkers.foldl (fun _ rid h => h.sweepRequest now rid) _
  · exact hworkers

theorem Inv.turn (h : Inv w []) (sweeps : Bool) (now : ℕ) :
    Inv { (if sweeps then w.sweep cfg now else w).dispatch cfg now with
      collector := .finishing } [] := by
  split_ifs
  · exact { (h.sweep now).dispatch now with }
  · exact { h.dispatch now with }

theorem Inv.collect (h : Inv w []) {m : Option Message} (hm : ∀ x ∈ m, x ∈ w.qres)
    (sweeps : Bool) (now : ℕ) : Inv (w.collect cfg m sweeps now) [] := by
  cases m with
  | none => exact h.turn sweeps now
  | some m => exact (h.onDone (hm m rfl)).turn sweeps now

/-! ### A submission -/

/-- The tasks that a request is cut into are numbered, and wait for workers that are alive. -/
def Cut (w : World) (tasks : List Task) : Prop :=
  ∀ (i : ℕ) (t : Task), tasks[i]? = some t →
    t.id = (w.nextRid, i) ∧ ∀ home, t.home = some home → home ∈ w.alive

theorem Cut.ids {tasks : List Task} (h : Cut w tasks) :
    tasks.map Task.id = (List.range tasks.length).map fun i => (w.nextRid, i) := by
  refine List.ext_getElem? fun i => ?_
  rw [List.getElem?_map, List.getElem?_map]
  cases ht : tasks[i]? with
  | none =>
    rw [List.getElem?_eq_none (by simpa using List.getElem?_eq_none_iff.mp ht)]
    rfl
  | some t =>
    rw [List.getElem?_range (List.getElem?_eq_some_iff.mp ht).1]
    exact congrArg some (h i t ht).1

theorem tasksOf_cut {nIdle : ℕ} {order : ℕ → ℤ} {text : Lib.Text} {kind : Kind}
    {tasks : List Task} (hrid : r.rid = w.nextRid)
    (h : tasksOf cfg w.alive nIdle order r text = some (kind, tasks)) :
    tasks ≠ [] ∧ Cut w tasks := by
  have hone {t : Task} (hid : t.id = (w.nextRid, 0))
      (hhome : ∀ home, t.home = some home → home ∈ w.alive) : Cut w [t] := by
    intro i u hu
    obtain ⟨hi, rfl⟩ := List.getElem?_eq_some_iff.mp hu
    obtain rfl : i = 0 := by simpa using hi
    exact ⟨hid, hhome⟩
  unfold tasksOf at h
  split_ifs at h
  · obtain ⟨key, -, h⟩ := Option.bind_eq_some_iff.mp h
    obtain ⟨home, hh, h⟩ := Option.bind_eq_some_iff.mp h
    obtain ⟨-, rfl⟩ := Prod.mk.inj (Option.some.inj h)
    refine ⟨List.cons_ne_nil _ _, hone (by rw [← hrid]; rfl) fun x hx => ?_⟩
    obtain rfl := Option.some.inj hx
    exact homeOf_mem hh
  · obtain ⟨spans, -, h⟩ := Option.bind_eq_some_iff.mp h
    split_ifs at h with hlen
    · obtain ⟨-, rfl⟩ := Prod.mk.inj (Option.some.inj h)
      refine ⟨fun hnil => ?_, fun i t ht => ?_⟩
      · have := congrArg List.length hnil
        simp at this
        simp [this] at hlen
      · rw [List.getElem?_map, List.getElem?_zipIdx, Option.map_map] at ht
        obtain ⟨s, -, rfl⟩ := Option.map_eq_some_iff.mp ht
        refine ⟨?_, fun _ hx => by cases hx⟩
        simp [Task.id, hrid]
    · obtain ⟨-, rfl⟩ := Prod.mk.inj (Option.some.inj h)
      exact ⟨List.cons_ne_nil _ _, hone (by rw [← hrid]; rfl) fun _ hx => by cases hx⟩

/-- A request that arrives is noted, with its tasks in hand. -/
theorem Inv.register (h : Inv w []) (hcut : Cut w r.tasks) (hrid : r.rid = w.nextRid)
    (hparts : ∀ i, r.parts i = none) (hdone : r.nDone = 0) (hfin : r.finished = false)
    (hfail : r.failed = none) :
    Inv { w with
      nextRid := w.nextRid + 1
      reqs := Function.update w.reqs w.nextRid (some r)
      chunks := Function.update w.chunks w.nextRid (r.tasks.map Task.text) } r.tasks := by
  have hchunks {x : ℕ} (hx : x < w.nextRid) :
      Function.update w.chunks w.nextRid (r.tasks.map Task.text) x = w.chunks x :=
    Function.update_of_ne hx.ne ..
  have hreqs {x : ℕ} (hx : x < w.nextRid) :
      Function.update w.reqs w.nextRid (some r) x = w.reqs x :=
    Function.update_of_ne hx.ne ..
  have hsome {x : ℕ} {y : Request} (hx : Function.update w.reqs w.nextRid (some r) x = some y) :
      x = w.nextRid ∧ y = r ∨ x < w.nextRid ∧ w.reqs x = some y := by
    by_cases hw : x = w.nextRid
    · subst hw
      rw [Function.update_self] at hx
      exact .inl ⟨rfl, (Option.some.inj hx).symm⟩
    · rw [Function.update_of_ne hw] at hx
      exact .inr ⟨(h.req_open x y hx).2.1, hx⟩
  have hlt {u : Task} (hu : w.Waits [] u) : u.rid < w.nextRid := h.waits_lt u hu
  have hback {u : Task} (hu : u ∈ r.tasks ∨ u ∈ w.queue ∨ ∃ x, w.inflight x = some u) :
      (∃ i, r.tasks[i]? = some u ∧ u.rid = w.nextRid ∧ u.index = i) ∨ w.Waits [] u := by
    rcases hu with hu | hu
    · obtain ⟨i, hi⟩ := List.mem_iff_getElem?.mp hu
      obtain ⟨hx, hy⟩ := Prod.mk.inj (hcut i u hi).1
      exact .inl ⟨i, hi, hx, hy⟩
    · exact .inr (.inr hu)
  have hnodup : (r.tasks.map Task.id).Nodup := by
    rw [hcut.ids]
    exact List.nodup_range.map fun i j hij => congrArg Prod.snd hij
  have hfresh {u : Task} (hu : u ∈ r.tasks) : u.rid = w.nextRid := by
    obtain ⟨i, hi⟩ := List.mem_iff_getElem?.mp hu
    exact congrArg Prod.fst (hcut i u hi).1
  refine { h with
    nodup := ?_
    apart := fun u hu x v hx => ?_
    stale := fun x hx hd => ?_
    waits_lt := fun u hu => ?_
    waits_text := fun u hu => ?_
    waits_part := fun u hu y hy => ?_
    req_open := fun x y hy => ?_
    req_chunks := fun x y hy => ?_
    req_waits := fun x y hy i hi hp => ?_
    req_parts := fun x y hy => ?_
    req_count := fun x y hy => ?_
    req_left := fun x y hy => ?_
    chunks_fresh := fun x hx => ?_
    log_lt := fun e he => (h.log_lt e he).trans (Nat.lt_succ_self _)
    log_text := fun e he => ?_
    complete := fun x hx => ?_
    calls := fun c hc =>
      (h.calls c hc).mono (Nat.le_succ _) (fun _ hx => hchunks hx) (List.Subset.refl _)
    books := fun x => ?_
    accepted := fun x hx => ⟨(h.accepted x hx).1.trans (Nat.lt_succ_self _), fun y hy => ?_⟩ }
  · rw [List.map_append, List.nodup_append]
    refine ⟨hnodup, h.nodup, fun a ha b hb hab => ?_⟩
    obtain ⟨u, hu, rfl⟩ := List.mem_map.mp ha
    obtain ⟨v, hv, rfl⟩ := List.mem_map.mp hb
    have hlt := hlt (.inr (.inl hv))
    rw [← show u.rid = v.rid from congrArg Prod.fst hab, hfresh hu] at hlt
    exact lt_irrefl _ hlt
  · rcases List.mem_append.mp hu with hu | hu
    · intro hid
      have hlt := hlt (.inr (.inr ⟨x, hx⟩))
      rw [← show u.rid = v.rid from congrArg Prod.fst hid, hfresh hu] at hlt
      exact lt_irrefl _ hlt
    · exact h.apart u hu x v hx
  · obtain ⟨hlt, hnone⟩ := h.stale x hx hd
    exact ⟨hlt.trans (Nat.lt_succ_self _), (hreqs hlt).trans hnone⟩
  · rcases hback hu with ⟨i, -, hx, -⟩ | hu
    · exact hx ▸ Nat.lt_succ_self _
    · exact (hlt hu).trans (Nat.lt_succ_self _)
  · rcases hback hu with ⟨i, hi, hx, rfl⟩ | hu
    · dsimp only
      rw [hx, Function.update_self, List.getElem?_map, hi]
      rfl
    · exact (congrArg (·[u.index]?) (hchunks (hlt hu))).trans (h.waits_text u hu)
  · rcases hsome hy with ⟨-, rfl⟩ | ⟨hlt, hy⟩
    · exact hparts _
    · rcases hback hu with ⟨i, -, hx, -⟩ | hu
      · exact absurd hx hlt.ne
      · exact h.waits_part u hu y hy
  · rcases hsome hy with ⟨rfl, rfl⟩ | ⟨hlt, hy⟩
    · exact ⟨hrid, Nat.lt_succ_self _, hfin, hfail⟩
    · obtain ⟨hx, hy, hz⟩ := h.req_open x y hy
      exact ⟨hx, hy.trans (Nat.lt_succ_self _), hz⟩
  · rcases hsome hy with ⟨rfl, rfl⟩ | ⟨hlt, hy⟩
    · exact Function.update_self ..
    · exact (hchunks hlt).trans (h.req_chunks x y hy)
  · rcases hsome hy with ⟨rfl, rfl⟩ | ⟨hlt, hy⟩
    · exact ⟨y.tasks[i], .inl (List.getElem_mem hi), (hcut i _ (List.getElem?_eq_getElem hi)).1⟩
    · obtain ⟨u, hu, hid⟩ := h.req_waits x y hy i hi hp
      exact ⟨u, .inr (hu.resolve_left List.not_mem_nil), hid⟩
  · rcases hsome hy with ⟨rfl, rfl⟩ | ⟨hlt, hy⟩
    · intro i p hp
      exact nomatch (hparts i).symm.trans hp
    · exact h.req_parts x y hy
  · rcases hsome hy with ⟨rfl, rfl⟩ | ⟨hlt, hy⟩
    · rw [hdone, List.countP_eq_zero.mpr fun i _ => by rw [hparts i]; exact Bool.false_ne_true]
    · exact h.req_count x y hy
  · rcases hsome hy with ⟨rfl, rfl⟩ | ⟨hlt, hy⟩
    · intro hne
      rw [hdone]
      exact List.length_pos_iff.mpr hne
    · exact h.req_left x y hy
  · have hx : w.nextRid + 1 ≤ x := hx
    exact (Function.update_of_ne (by omega) ..).trans (h.chunks_fresh x (by omega))
  · exact (congrArg (·[e.1.index]?) (hchunks (h.log_lt e he))).trans (h.log_text e he)
  · exact (h.complete x hx).mono (Nat.le_succ _) (fun _ hx => hchunks hx) (List.Subset.refl _)
  · have hbook := h.books x
    rw [World.account] at hbook ⊢
    dsimp only
    by_cases hw : x = w.nextRid
    · subst hw
      have hnone : w.reqs w.nextRid = none :=
        Option.eq_none_iff_forall_ne_some.mpr fun y hy => lt_irrefl _ (h.req_open _ y hy).2.1
      rw [hnone, if_neg (lt_irrefl _)] at hbook
      rw [Function.update_self, if_pos (Nat.lt_succ_self _)]
      simpa using hbook
    · rw [Function.update_of_ne hw, hbook]
      refine if_congr ?_ rfl rfl
      omega
  · rcases hsome hy with ⟨rfl, -⟩ | ⟨-, hy⟩
    · exact absurd (h.accepted _ hx).1 (lt_irrefl _)
    · exact (h.accepted x hx).2 y hy

theorem Inv.pushAll (h : Inv w hand)
    (hhome : ∀ t ∈ hand, ∀ home, t.home = some home → home ∈ w.alive)
    (hlog : ∀ t ∈ hand, t.id ∉ w.logged) : Inv (hand.foldl World.push w) [] := by
  induction hand generalizing w with
  | nil => exact h
  | cons t hand ih =>
    exact ih (h.push rfl (hhome t List.mem_cons_self) (hlog t List.mem_cons_self))
      (fun u hu => hhome u (List.mem_cons_of_mem t hu))
      (fun u hu => hlog u (List.mem_cons_of_mem t hu))

theorem Inv.submit (h : Inv w []) (s : Submission) (now : ℕ) (order : ℕ → ℤ) :
    Inv (w.submit cfg s now order) [] := by
  unfold World.submit
  dsimp only
  cases ht : tasksOf cfg w.alive w.idle.length order
      ⟨w.nextRid, (World.served cfg s).1, (World.served cfg s).2, [], fun _ => none, 0, none,
        none, false⟩ s.text with
  | none =>
    have hreg := h.register (r := ⟨w.nextRid, (World.served cfg s).1, (World.served cfg s).2, [],
      fun _ => none, 0, none, none, false⟩) (fun _ _ hx => nomatch hx) rfl (fun _ => rfl) rfl rfl
      rfl
    have hchunks : Function.update w.chunks w.nextRid (List.map Task.text []) = w.chunks :=
      Function.update_eq_self_iff.mpr (h.chunks_fresh _ le_rfl).symm
    rw [hchunks] at hreg
    exact hreg
  | some kt =>
    obtain ⟨kind, tasks⟩ := kt
    obtain ⟨hne, hcut⟩ := tasksOf_cut rfl ht
    have hreg := h.register (r := ⟨w.nextRid, kind, (World.served cfg s).2, tasks,
      fun _ => none, 0, none, none, false⟩) hcut rfl (fun _ => rfl) rfl rfl rfl
    have hnoted : Inv { w with
        nextRid := w.nextRid + 1
        reqs := Function.update w.reqs w.nextRid (some ⟨w.nextRid, kind, (World.served cfg s).2,
          tasks, fun _ => none, 0, none, none, false⟩)
        chunks := Function.update w.chunks w.nextRid (tasks.map Task.text)
        accepted := w.nextRid :: w.accepted } tasks := by
      refine { hreg with accepted := fun x hx => ?_ }
      rcases List.mem_cons.mp hx with rfl | hx
      · refine ⟨Nat.lt_succ_self _, fun y hy => ?_⟩
        dsimp only at hy
        rw [Function.update_self] at hy
        rw [← Option.some.inj hy]
        exact hne
      · exact hreg.accepted x hx
    dsimp only
    rw [Function.update_idem]
    refine (hnoted.pushAll (fun t ht => ?_) fun t ht hlog => ?_).dispatch now
    · obtain ⟨i, hi⟩ := List.mem_iff_getElem?.mp ht
      exact (hcut i t hi).2
    · obtain ⟨e, he, hid⟩ := List.mem_map.mp hlog
      obtain ⟨i, hi⟩ := List.mem_iff_getElem?.mp ht
      have hlt := h.log_lt e he
      rw [show e.1.rid = w.nextRid from
        congrArg Prod.fst (hid.trans (hcut i t hi).1)] at hlt
      exact lt_irrefl _ hlt

/-! ### Closing, and calling back -/

/-- Closing takes every request of the table once. -/
theorem Inv.drained_rids (h : Inv w hand) (l : List ℕ) :
    ((((l.filterMap w.reqs).filter fun r => !r.finished).map fun r =>
      { r with failed := some "closed", finished := true }).map Request.rid) =
      l.filter fun rid => (w.reqs rid).isSome := by
  induction l with
  | nil => rfl
  | cons x l ih =>
    cases hx : w.reqs x with
    | none =>
      rw [List.filterMap_cons_none hx, ih, List.filter_cons_of_neg (by rw [hx]; simp)]
    | some r =>
      obtain ⟨hrid, -, hfin, -⟩ := h.req_open x r hx
      rw [List.filterMap_cons_some hx, List.filter_cons_of_pos (by rw [hfin]; rfl),
        List.filter_cons_of_pos (by rw [hx]; rfl), List.map_cons, List.map_cons, ih, hrid]

theorem drain_account (h : Inv w hand) (rid : ℕ) : w.drain.account rid = w.account rid := by
  unfold World.account World.drain
  dsimp only
  rw [List.map_append, List.count_append, h.drained_rids]
  have hcount : List.count rid ((List.range w.nextRid).filter fun x => (w.reqs x).isSome) =
      (w.reqs rid).isSome.toNat := by
    cases hr : w.reqs rid with
    | none => exact List.count_eq_zero.mpr fun hmem => by simp [hr] at hmem
    | some r =>
      refine List.count_eq_one_of_mem (List.nodup_range.filter _) (List.mem_filter.mpr ⟨?_, ?_⟩)
      · exact List.mem_range.mpr (h.req_open rid r hr).2.1
      · rw [hr]
        rfl
  rw [hcount]
  simp
  omega

theorem Inv.drain (h : Inv w []) : Inv w.drain [] := by
  refine { h with
    stale := fun x hx hd => ⟨(h.stale x hx hd).1, rfl⟩
    waits_part := fun _ _ _ hr => nomatch hr
    req_open := fun _ _ hr => nomatch hr
    req_chunks := fun _ _ hr => nomatch hr
    req_waits := fun _ _ hr => nomatch hr
    req_parts := fun _ _ hr => nomatch hr
    req_count := fun _ _ hr => nomatch hr
    req_left := fun _ _ hr => nomatch hr
    complete := fun x hx => ?_
    books := fun x => (drain_account h x).trans (h.books x)
    accepted := fun x hx => ⟨(h.accepted x hx).1, fun _ hr => nomatch hr⟩ }
  rw [World.drain, ← List.append_assoc] at hx
  rcases List.mem_append.mp hx with hx | hx
  · exact h.complete x hx
  · obtain ⟨r, hr, rfl⟩ := List.mem_map.mp hx
    obtain ⟨rid, hrid, hr⟩ := List.mem_filterMap.mp (List.mem_of_mem_filter hr)
    refine ⟨?_, fun hf => nomatch hf⟩
    rw [(h.req_open rid r hr).1]
    exact (h.req_open rid r hr).2.1

theorem mapM_some {α β : Type*} {f : α → Option β} {g : α → β} {l : List α}
    (h : ∀ a ∈ l, f a = some (g a)) : l.mapM f = some (l.map g) := by
  induction l with
  | nil => rfl
  | cons a l ih =>
    rw [List.mapM_cons, h a List.mem_cons_self, ih fun b hb => h b (List.mem_cons_of_mem a hb)]
    rfl

/-- What is handed back for a complete request. -/
theorem Complete.delivered (h : Complete w r) : Delivered w (r.rid, finish r) := by
  refine ⟨h.1, fun he => ?_⟩
  have hfail : r.failed = none := by
    cases hf : r.failed with
    | none => rfl
    | some e => simp [finish, hf] at he
  obtain ⟨hchunks, hparts⟩ := h.2 hfail
  have hlen : (w.chunks r.rid).length = r.tasks.length := by
    rw [hchunks, List.length_map]
  refine ⟨fun i => (r.parts i).getD [], ?_, fun i hi => ?_⟩
  · have hall : (List.range r.tasks.length).mapM r.parts =
        some ((List.range r.tasks.length).map fun i => (r.parts i).getD []) := by
      refine mapM_some fun i hi => ?_
      obtain ⟨p, -, hp, -⟩ := hparts i (List.mem_range.mp hi)
      rw [hp]
      rfl
    have hids : assemble r.parts r.tasks.length =
        some ((List.range r.tasks.length).flatMap fun i => (r.parts i).getD []) := by
      rw [assemble, hall, List.flatMap_def]
      rfl
    dsimp only
    rw [finish, hfail, hids, hlen]
  · obtain ⟨p, t, hp, ht, hid⟩ := hparts i (hlen ▸ hi)
    refine ⟨t, ?_, hid⟩
    dsimp only
    rw [hp]
    exact ht

theorem Inv.finish {rs : List Request} (h : Inv w hand) (hf : w.finished = r :: rs) :
    Inv ({ w with finished := rs }.callBack r) hand :=
  { h with
    complete := fun x hx => h.complete x (by
      rw [hf]
      exact List.mem_cons_of_mem r hx)
    calls := fun c hc => (List.mem_append.mp hc).elim (h.calls c) fun hc => by
      rw [List.mem_singleton.mp hc]
      exact (h.complete r (by rw [hf]; exact List.mem_cons_self)).delivered
    books := fun x => by
      rw [World.callBack, ← h.books x, World.account, World.account, hf]
      simp [List.count_cons]
      omega }

theorem Inv.closeFinish {rs : List Request} (h : Inv w hand) (hp : w.pending = r :: rs) :
    Inv ({ w with pending := rs }.callBack r) hand :=
  { h with
    complete := fun x hx => h.complete x (by
      rw [hp]
      exact (List.mem_append.mp hx).elim (List.mem_append_left _) fun hx =>
        List.mem_append_right _ (List.mem_cons_of_mem r hx))
    calls := fun c hc => (List.mem_append.mp hc).elim (h.calls c) fun hc => by
      rw [List.mem_singleton.mp hc]
      exact (h.complete r (by
        rw [hp]
        exact List.mem_append_right _ List.mem_cons_self)).delivered
    books := fun x => by
      rw [World.callBack, ← h.books x, World.account, World.account, hp]
      simp [List.count_cons]
      omega }

/-! ### The workers -/

/-- What a worker has is what is in flight at it. -/
theorem Link.held {o : Option Task} {k : Worker} {ms : List Message} (h : Link o k ms)
    (ht : t ∈ k.qin ∨ k.busy = some t) : o = some t := by
  cases h with
  | free => exact ht.elim (fun hx => nomatch hx) fun hx => nomatch hx
  | sent u =>
    rcases ht with ht | ht
    · rw [List.mem_singleton.mp ht]
    · cases ht
  | busy u =>
    rcases ht with ht | ht
    · cases ht
    · exact ht
  | answered => exact ht.elim (fun hx => nomatch hx) fun hx => nomatch hx
  | lost => exact ht.elim (fun hx => nomatch hx) fun hx => nomatch hx

theorem Inv.take (h : Inv w []) {ts : List Task} (hup : (w.workers wid).up = true)
    (hbusy : (w.workers wid).busy = none) (hqin : (w.workers wid).qin = t :: ts) :
    Inv { w with workers := Function.update w.workers wid ⟨true, ts, some t⟩ } [] := by
  have halive := h.up_alive wid hup
  have hlink := h.links wid halive
  have hlog := h.worker_log wid halive
  generalize hk : w.workers wid = k at hlink hup hbusy hqin hlog
  generalize ho : w.inflight wid = o at hlink
  generalize hms : (w.qres.filter fun m => m.wid = wid) = ms at hlink
  refine { h with
    dead_down := fun x hx => ?_
    up_alive := fun x hx => ?_
    links := fun x hx => ?_
    worker_log := fun x hx u hu => ?_ }
  · have hne : x ≠ wid := fun heq => h.alive_up wid halive (heq ▸ hx)
    exact (congrArg Worker.up (Function.update_of_ne hne ..)).trans (h.dead_down x hx)
  · by_cases hw : x = wid
    · exact hw ▸ halive
    · exact h.up_alive x ((congrArg Worker.up (Function.update_of_ne hw ..)).symm.trans hx)
  · by_cases hw : x = wid
    · subst hw
      dsimp only
      rw [Function.update_self, ho, hms]
      cases hlink with
      | free => cases hqin
      | sent u up =>
        obtain ⟨rfl, rfl⟩ := List.cons.inj hqin
        exact .busy u
      | busy => cases hbusy
      | answered => cases hqin
      | lost => cases hqin
    · dsimp only
      rw [Function.update_of_ne hw]
      exact h.links x hx
  · by_cases hw : x = wid
    · subst hw
      dsimp only at hu
      rw [Function.update_self] at hu
      refine hlog u (.inl ?_)
      rw [hqin]
      rcases hu with hu | hu
      · exact List.mem_cons_of_mem t hu
      · rw [Option.some.inj hu]
        exact List.mem_cons_self
    · dsimp only at hu
      rw [Function.update_of_ne hw] at hu
      exact h.worker_log x hx u hu

theorem Inv.answer (h : Inv w []) (hup : (w.workers wid).up = true)
    (hbusy : (w.workers wid).busy = some t) (a : Answer) :
    Inv { w with
      workers := Function.update w.workers wid ⟨true, (w.workers wid).qin, none⟩
      qres := w.qres ++ [⟨t.rid, t.index, wid, a⟩]
      log := w.log ++ [(t, a)] } [] := by
  have halive := h.up_alive wid hup
  have hin := (h.links wid halive).held (.inr hbusy)
  have hnew := h.worker_log wid halive t (.inr hbusy)
  have hwaits : w.Waits [] t := .inr (.inr ⟨wid, hin⟩)
  have hlogged {u : Task} : u.id ∈ (w.log ++ [(t, a)]).map (fun e => e.1.id) ↔
      u.id ∈ w.logged ∨ u.id = t.id := by
    simp [World.logged]
  refine { h with
    dead_down := fun x hx => ?_
    up_alive := fun x hx => ?_
    links := fun x hx => ?_
    stale := fun x hx hd => ?_
    req_parts := fun x r hr i p hp => ?_
    log_nodup := ?_
    log_lt := fun e he => ?_
    log_text := fun e he => ?_
    queue_log := fun u hu hmem => ?_
    worker_log := fun x hx u hu hmem => ?_
    message_log := fun x hx => ?_
    complete := fun x hx => (h.complete x hx).mono le_rfl (fun _ _ => rfl)
      (List.subset_append_left ..)
    calls := fun c hc => (h.calls c hc).mono le_rfl (fun _ _ => rfl)
      (List.subset_append_left ..) }
  · have hne : x ≠ wid := fun heq => h.alive_up wid halive (heq ▸ hx)
    exact (congrArg Worker.up (Function.update_of_ne hne ..)).trans (h.dead_down x hx)
  · by_cases hw : x = wid
    · exact hw ▸ halive
    · exact h.up_alive x ((congrArg Worker.up (Function.update_of_ne hw ..)).symm.trans hx)
  · have hlink := h.links x hx
    dsimp only
    rw [List.filter_append]
    by_cases hw : x = wid
    · subst hw
      generalize hk : w.workers x = k at hlink hbusy
      generalize hms : (w.qres.filter fun m => m.wid = x) = ms at hlink
      rw [Function.update_self, hin]
      rw [hin] at hlink
      cases hlink with
      | sent => cases hbusy
      | busy =>
        rw [List.filter_cons_of_pos (by simp)]
        exact .answered t true _ rfl
      | answered => cases hbusy
      | lost => cases hbusy
    · rw [Function.update_of_ne hw, List.filter_cons_of_neg (by simpa using Ne.symm hw),
        List.filter_nil, List.append_nil]
      exact hlink
  · rcases List.mem_append.mp hx with hx | hx
    · exact h.stale x hx hd
    · rw [List.mem_singleton.mp hx] at hd
      exact absurd halive hd
  · obtain ⟨hi, u, hu, hid⟩ := h.req_parts x r hr i p hp
    exact ⟨hi, u, List.mem_append_left _ hu, hid⟩
  · change ((w.log ++ [(t, a)]).map fun e => e.1.id).Nodup
    rw [List.map_append]
    refine List.nodup_append.mpr ⟨h.log_nodup, List.nodup_singleton _, fun x hx y hy hxy => ?_⟩
    rw [hxy, List.mem_singleton.mp hy] at hx
    exact hnew hx
  · rcases List.mem_append.mp he with he | he
    · exact h.log_lt e he
    · rw [List.mem_singleton.mp he]
      exact h.waits_lt t hwaits
  · rcases List.mem_append.mp he with he | he
    · exact h.log_text e he
    · rw [List.mem_singleton.mp he]
      exact h.waits_text t hwaits
  · rcases hlogged.mp hmem with hmem | hid
    · exact h.queue_log u hu hmem
    · exact h.apart u hu wid t hin hid
  · dsimp only at hu
    by_cases hw : x = wid
    · subst hw
      rw [Function.update_self] at hu
      rcases hu with hu | hu
      · have hlink := h.links x hx
        generalize hk : w.workers x = k at hlink hbusy hu
        generalize hms : (w.qres.filter fun m => m.wid = x) = ms at hlink
        rw [hin] at hlink
        cases hlink with
        | sent => cases hbusy
        | busy => cases hu
        | answered => cases hbusy
        | lost => cases hbusy
      · cases hu
    · rw [Function.update_of_ne hw] at hu
      rcases hlogged.mp hmem with hmem | hid
      · exact h.worker_log x hx u hu hmem
      · exact hw (h.inflight_inj x wid u t ((h.links x hx).held hu) hin hid)
  · rcases List.mem_append.mp hx with hx | hx
    · obtain ⟨u, hu, hid⟩ := h.message_log x hx
      exact ⟨u, List.mem_append_left _ hu, hid⟩
    · rw [List.mem_singleton.mp hx]
      exact ⟨t, List.mem_append_right _ (List.mem_singleton_self _), rfl⟩

theorem Inv.die (h : Inv w hand) (wid : ℕ) :
    Inv { w with workers := Function.update w.workers wid ⟨false, [], none⟩ } hand := by
  refine { h with
    dead_down := fun x hx => ?_
    up_alive := fun x hx => ?_
    links := fun x hx => ?_
    worker_log := fun x hx u hu => ?_ }
  · by_cases hw : x = wid
    · subst hw
      dsimp only
      rw [Function.update_self]
    · exact (congrArg Worker.up (Function.update_of_ne hw ..)).trans (h.dead_down x hx)
  · by_cases hw : x = wid
    · subst hw
      dsimp only at hx
      rw [Function.update_self] at hx
      cases hx
    · exact h.up_alive x ((congrArg Worker.up (Function.update_of_ne hw ..)).symm.trans hx)
  · have hlink := h.links x hx
    dsimp only
    by_cases hw : x = wid
    · subst hw
      rw [Function.update_self]
      generalize w.workers x = k at hlink
      generalize w.inflight x = o at hlink
      generalize (w.qres.filter fun m => m.wid = x) = ms at hlink
      cases hlink with
      | free => exact .free _
      | sent t => exact .lost t
      | busy t => exact .lost t
      | answered t up m hid => exact .answered t _ m hid
      | lost t => exact .lost t
    · rw [Function.update_of_ne hw]
      exact hlink
  · dsimp only at hu
    by_cases hw : x = wid
    · subst hw
      rw [Function.update_self] at hu
      exact hu.elim (fun hx => nomatch hx) fun hx => nomatch hx
    · rw [Function.update_of_ne hw] at hu
      exact h.worker_log x hx u hu

/-! ### Runs -/

/-- What each act does. -/
inductive Moves (cfg : Config) (w : World) : Act → World → Prop
  | check (s : Submission) (ha : w.active = true) :
      Moves cfg w (.check s) { w with submits := s :: w.submits }
  | submit (s : Submission) (now : ℕ) (order : ℕ → ℤ) (hs : s ∈ w.submits) :
      Moves cfg w (.submit s now order)
        ({ w with submits := w.submits.erase s }.submit cfg s now order)
  | wait (hc : w.collector = .top) :
      Moves cfg w .wait { w with collector := if w.stop then .exited else .waiting }
  | collect (m : Option Message) (sweeps : Bool) (now : ℕ) (hc : w.collector = .waiting)
      (hm : ∀ x ∈ m, x ∈ w.qres) : Moves cfg w (.collect m sweeps now) (w.collect cfg m sweeps now)
  | rest (hc : w.collector = .finishing) (hf : w.finished = []) :
      Moves cfg w .finish { w with collector := .top }
  | finish (r : Request) (rs : List Request) (hc : w.collector = .finishing)
      (hf : w.finished = r :: rs) : Moves cfg w .finish ({ w with finished := rs }.callBack r)
  | closeCheck (hc : w.closed = false) :
      Moves cfg w .closeCheck { w with closers := w.closers + 1 }
  | closeSet (hc : w.closers > 0) :
      Moves cfg w .closeSet { w with
        closers := w.closers - 1, closed := true, stop := true, lockers := w.lockers + 1 }
  | closeLock (hl : w.lockers > 0) :
      Moves cfg w .closeLock { w.drain with lockers := w.lockers - 1 }
  | closeFinish (r : Request) (rs : List Request) (hp : w.pending = r :: rs) :
      Moves cfg w .closeFinish ({ w with pending := rs }.callBack r)
  | take (wid : ℕ) (t : Task) (ts : List Task) (hup : (w.workers wid).up = true)
      (hbusy : (w.workers wid).busy = none) (hqin : (w.workers wid).qin = t :: ts) :
      Moves cfg w (.take wid)
        { w with workers := Function.update w.workers wid ⟨true, ts, some t⟩ }
  | answer (wid : ℕ) (t : Task) (a : Answer) (hup : (w.workers wid).up = true)
      (hbusy : (w.workers wid).busy = some t) :
      Moves cfg w (.answer wid a) { w with
        workers := Function.update w.workers wid ⟨true, (w.workers wid).qin, none⟩
        qres := w.qres ++ [⟨t.rid, t.index, wid, a⟩]
        log := w.log ++ [(t, a)] }
  | die (wid : ℕ) (hup : (w.workers wid).up = true) :
      Moves cfg w (.die wid)
        { w with workers := Function.update w.workers wid ⟨false, [], none⟩ }
  | lose (m : Message) (hm : m ∈ w.qres) (hdown : (w.workers m.wid).up = false) :
      Moves cfg w (.lose m) { w with qres := w.qres.erase m }

theorem of_ite_some {α : Type*} {p : Prop} [Decidable p] {x y : α}
    (h : (if p then some x else none) = some y) : p ∧ x = y := by
  split_ifs at h with hp
  exact ⟨hp, Option.some.inj h⟩

theorem step_moves {w' : World} {a : Act} (h : w.step cfg a = some w') : Moves cfg w a w' := by
  cases a with
  | check s =>
    obtain ⟨ha, rfl⟩ := of_ite_some h
    exact .check s ha
  | submit s now order =>
    obtain ⟨hs, rfl⟩ := of_ite_some h
    exact .submit s now order hs
  | wait =>
    obtain ⟨hc, rfl⟩ := of_ite_some h
    exact .wait hc
  | collect m sweeps now =>
    obtain ⟨⟨hc, hm⟩, rfl⟩ := of_ite_some h
    exact .collect m sweeps now hc hm
  | finish =>
    obtain ⟨hc, h⟩ := Option.ite_none_right_eq_some.mp h
    cases hf : w.finished with
    | nil =>
      rw [hf] at h
      obtain rfl := Option.some.inj h
      rw [← hf]
      exact .rest hc hf
    | cons r rs =>
      rw [hf] at h
      obtain rfl := Option.some.inj h
      exact .finish r rs hc hf
  | closeCheck =>
    obtain ⟨hc, h⟩ := Option.ite_none_left_eq_some.mp h
    obtain rfl := Option.some.inj h
    exact .closeCheck (by simpa using hc)
  | closeSet =>
    obtain ⟨hc, rfl⟩ := of_ite_some h
    exact .closeSet hc
  | closeLock =>
    obtain ⟨hl, rfl⟩ := of_ite_some h
    exact .closeLock hl
  | closeFinish =>
    cases hp : w.pending with
    | nil =>
      rw [World.step, hp] at h
      cases h
    | cons r rs =>
      rw [World.step, hp] at h
      obtain rfl := Option.some.inj h
      exact .closeFinish r rs hp
  | take wid =>
    obtain ⟨⟨hup, hbusy⟩, h⟩ := Option.ite_none_right_eq_some.mp h
    cases hq : (w.workers wid).qin with
    | nil =>
      rw [hq] at h
      cases h
    | cons t ts =>
      rw [hq] at h
      obtain rfl := Option.some.inj h
      exact .take wid t ts hup hbusy hq
  | answer wid a =>
    obtain ⟨hup, h⟩ := Option.ite_none_right_eq_some.mp h
    cases hb : (w.workers wid).busy with
    | none =>
      rw [hb] at h
      cases h
    | some t =>
      rw [hb] at h
      obtain rfl := Option.some.inj h
      exact .answer wid t a hup hb
  | die wid =>
    obtain ⟨hup, rfl⟩ := of_ite_some h
    exact .die wid hup
  | lose m =>
    obtain ⟨⟨hm, hdown⟩, rfl⟩ := of_ite_some h
    exact .lose m hm hdown

theorem Inv.step {w' : World} {a : Act} (h : Inv w []) (hs : Moves cfg w a w') : Inv w' [] := by
  cases hs with
  | check => exact { h with }
  | submit s now order =>
    have hless : Inv { w with submits := w.submits.erase s } [] := { h with }
    exact hless.submit s now order
  | wait => exact { h with }
  | collect m sweeps now hc hm => exact h.collect hm sweeps now
  | rest => exact { h with }
  | finish r rs hc hf => exact h.finish hf
  | closeCheck => exact { h with }
  | closeSet => exact { h with }
  | closeLock => exact { h.drain with }
  | closeFinish r rs hp => exact h.closeFinish hp
  | take wid t ts hup hbusy hqin => exact h.take hup hbusy hqin
  | answer wid t a hup hbusy => exact h.answer hup hbusy a
  | die wid => exact h.die wid
  | lose m hm hdown => exact h.lose hm hdown

theorem Inv.start (cfg : Config) : Inv (World.start cfg) [] where
  nodup := List.nodup_nil
  apart := fun _ ht => nomatch ht
  inflight_inj := fun _ _ _ _ hx => nomatch hx
  inflight_alive := fun _ _ hx => nomatch hx
  idle_nodup := List.nodup_range
  idle_free := fun _ _ _ => rfl
  free_idle := fun _ hx _ => hx
  alive_up := fun _ _ hd => nomatch hd
  dead_down := fun _ hd => nomatch hd
  up_alive := fun _ hx => List.mem_range.mpr (of_decide_eq_true hx)
  home_alive := fun _ ht => nomatch ht
  links := fun wid _ => Link.free (decide (wid < cfg.workers))
  stale := fun _ hm => nomatch hm
  waits_lt := fun _ ht => ht.elim (fun h => nomatch h) fun h => h.elim (fun h => nomatch h)
    fun ⟨_, h⟩ => nomatch h
  waits_text := fun _ ht => ht.elim (fun h => nomatch h) fun h => h.elim (fun h => nomatch h)
    fun ⟨_, h⟩ => nomatch h
  waits_part := fun _ _ _ hr => nomatch hr
  req_open := fun _ _ hr => nomatch hr
  req_chunks := fun _ _ hr => nomatch hr
  req_waits := fun _ _ hr => nomatch hr
  req_parts := fun _ _ hr => nomatch hr
  req_count := fun _ _ hr => nomatch hr
  req_left := fun _ _ hr => nomatch hr
  chunks_fresh := fun _ _ => rfl
  log_nodup := List.nodup_nil
  log_lt := fun _ he => nomatch he
  log_text := fun _ he => nomatch he
  queue_log := fun _ ht => nomatch ht
  worker_log := fun _ _ _ ht => ht.elim (fun h => nomatch h) fun h => nomatch h
  message_log := fun _ hm => nomatch hm
  complete := fun _ hr => nomatch hr
  calls := fun _ hc => nomatch hc
  books := fun _ => rfl
  accepted := fun _ hx => nomatch hx

/-- **The tasks of the scheduler.** The invariant holds in every state that is reached. -/
theorem Reach.inv {ok : World → Act → Prop} (h : Reach cfg ok w) : Inv w [] := by
  induction h with
  | start => exact Inv.start cfg
  | step a _ _ hs ih => exact ih.step (step_moves hs)

end Toktier.Sched
