import Toktier.Integrations.SchedLaws

/-!
# Every request is called back once

A request that was accepted is called back for at most once in every run. That it is not left
without an answer needs a condition on two acts: the sweep that takes out the last worker, and
the submission that finds no worker left or a table that closing has emptied.

## Main definitions

* `Tame`: the condition on an act.
* `Answered`: what a state says of the accepted requests.

## Main results

* `answered_once`: in tame runs every accepted request is called back once.
-/
namespace Toktier.Sched

variable {cfg : Config} {w w' w'' : World} {hand : List Task} {t u : Task} {m : Message}
  {r : Request} {wid rid i : ℕ}

/-! ### What the parts of a turn leave alone -/

/-- No request enters the table, and no accepted number, worker or closing thread changes. -/
structure Frame (w w' : World) : Prop where
  accepted : w'.accepted = w.accepted
  drained : w'.drained = w.drained
  closers : w'.closers = w.closers
  lockers : w'.lockers = w.lockers
  nextRid : w'.nextRid = w.nextRid
  up : ∀ wid, (w'.workers wid).up = (w.workers wid).up
  reqs : ∀ rid r', w'.reqs rid = some r' →
    ∃ r, w.reqs rid = some r ∧ (r.tFirst.isSome → r'.tFirst = r.tFirst)

theorem Frame.refl (w : World) : Frame w w :=
  ⟨rfl, rfl, rfl, rfl, rfl, fun _ => rfl, fun _ r hr => ⟨r, hr, fun _ => rfl⟩⟩

theorem Frame.trans (h : Frame w w') (h' : Frame w' w'') : Frame w w'' := by
  refine ⟨h'.accepted.trans h.accepted, h'.drained.trans h.drained, h'.closers.trans h.closers,
    h'.lockers.trans h.lockers, h'.nextRid.trans h.nextRid, fun wid => (h'.up wid).trans (h.up wid),
    fun rid r'' hr'' => ?_⟩
  obtain ⟨r', hr', htime'⟩ := h'.reqs rid r'' hr''
  obtain ⟨r, hr, htime⟩ := h.reqs rid r' hr'
  refine ⟨r, hr, fun hs => ?_⟩
  have hsame := htime hs
  rw [htime' (hsame ▸ hs), hsame]

theorem Frame.gone (h : Frame w w') (hr : w.reqs rid = none) : w'.reqs rid = none := by
  refine Option.eq_none_iff_forall_ne_some.mpr fun r' hr' => ?_
  obtain ⟨r, hsome, -⟩ := h.reqs rid r' hr'
  cases hr.symm.trans hsome

theorem Frame.foldl {α : Type*} {f : World → α → World} (hf : ∀ w a, Frame w (f w a))
    (as : List α) (w : World) : Frame w (as.foldl f w) := by
  induction as generalizing w with
  | nil => exact .refl w
  | cons a as ih => exact (hf w a).trans (ih (f w a))

theorem settle_frame (w : World) (r : Request) : Frame w (w.settle r) := by
  refine ⟨rfl, rfl, rfl, rfl, rfl, fun _ => rfl, fun rid r' hr' => ⟨r', ?_, fun _ => rfl⟩⟩
  change Function.update w.reqs r.rid none rid = some r' at hr'
  by_cases hrid : rid = r.rid
  · subst hrid
    rw [Function.update_self] at hr'
    cases hr'
  · rwa [Function.update_of_ne hrid] at hr'

theorem fail_kept (w : World) (error : String) (rid : ℕ) : Frame w (w.fail error rid) := by
  unfold World.fail
  cases w.reqs rid with
  | none => exact .refl w
  | some r =>
    dsimp only
    split_ifs
    · exact .refl w
    · exact settle_frame w _

theorem push_frame (w : World) (t : Task) : Frame w (w.push t) :=
  { Frame.refl w with }

theorem requeue_frame (cfg : Config) (w : World) (t : Task) : Frame w (w.requeue cfg t) := by
  unfold World.requeue
  split_ifs <;> exact push_frame w _

theorem dispatchOne_frame (w : World) (now wid : ℕ) : Frame w (w.dispatchOne now wid) := by
  unfold World.dispatchOne
  cases w.nextFor wid with
  | none => exact .refl w
  | some t =>
    refine ⟨rfl, rfl, rfl, rfl, rfl, fun x => ?_, fun rid r' hr' => ?_⟩
    · dsimp only
      by_cases hw : x = wid
      · rw [hw, Function.update_self]
      · rw [Function.update_of_ne hw]
    · dsimp only at hr'
      by_cases hrid : rid = t.rid
      · subst hrid
        rw [Function.update_self] at hr'
        obtain ⟨r, hr, rfl⟩ := Option.map_eq_some_iff.mp hr'
        refine ⟨r, hr, fun hs => ?_⟩
        rw [if_neg (by rw [Option.isNone_iff_eq_none]; exact Option.isSome_iff_ne_none.mp hs)]
      · rw [Function.update_of_ne hrid] at hr'
        exact ⟨r', hr', fun _ => rfl⟩

theorem dispatch_frame (cfg : Config) (w : World) (now : ℕ) : Frame w (w.dispatch cfg now) :=
  Frame.foldl (fun w wid => dispatchOne_frame w now wid) _ w

theorem buried_frame (w : World) (wid : ℕ) : Frame w (w.buried wid) :=
  { Frame.refl w with }

/-- Failing a request leaves the others alone. -/
theorem fail_other (h : Inv w hand) (error : String) {x : ℕ} (hne : x ≠ rid) :
    (w.fail error x).reqs rid = w.reqs rid := by
  obtain ⟨-, heq⟩ | ⟨r, hr, heq⟩ := fail_cases h error x
  · rw [heq]
  · rw [heq]
    have hrid := (h.req_open x r hr).1
    exact Function.update_of_ne (hrid ▸ hne.symm) ..

/-- The sweep of one worker: its task is failed, and then its queue is emptied. -/
theorem sweepWorker_parts (cfg : Config) (h : ¬(wid ∈ w.dead ∨ (w.workers wid).up = true)) :
    ∃ w' : World, Frame w w' ∧
      (w'.queue = w.queue ∧ w'.alive = w.alive.filter (· ≠ wid) ∧ w'.dead = wid :: w.dead) ∧
      w'.inflight = Function.update w.inflight wid none ∧
      (Inv w [] → (∀ t, w.inflight wid = some t → w'.reqs t.rid = none) ∧
        (∀ rid, (∀ t, w.inflight wid = some t → t.rid ≠ rid) → w'.reqs rid = w.reqs rid) ∧
        Inv { w' with queue := w'.queue.filter fun t => t.home ≠ some wid }
          (w'.queue.filter fun t => t.home = some wid)) ∧
      w.sweepWorker cfg wid = if w'.alive = [] then
        (w'.queue.filter fun t => t.home = some wid).foldl
          (fun w t => w.fail "no live worker" t.rid)
          { w' with queue := w'.queue.filter fun t => t.home ≠ some wid }
      else (w'.queue.filter fun t => t.home = some wid).foldl (World.requeue cfg)
          { w' with queue := w'.queue.filter fun t => t.home ≠ some wid } := by
  obtain ⟨-, hup⟩ := not_or.mp h
  have hdown : (w.workers wid).up = false := by simpa using hup
  unfold World.sweepWorker
  rw [if_neg h]
  cases ho : w.inflight wid with
  | none =>
    exact ⟨w.buried wid, buried_frame w wid, ⟨rfl, rfl, rfl⟩, rfl, fun hinv =>
      ⟨(fun t ht => nomatch ht), fun _ _ => rfl,
        hinv.stranded hdown (fun t ht => nomatch ho.symm.trans ht) rfl⟩, rfl⟩
  | some t =>
    have hbury := fail_bury w ("worker " ++ toString wid ++ " died") t.rid (wid :: w.dead)
      (w.idle.filter (· ≠ wid)) (w.alive.filter (· ≠ wid)) (Function.update w.inflight wid none)
    obtain ⟨reqs, finished, hframe⟩ := fail_frame w ("worker " ++ toString wid ++ " died") t.rid
    refine ⟨(w.buried wid).fail ("worker " ++ toString wid ++ " died") t.rid,
      (buried_frame w wid).trans (fail_kept _ _ t.rid), ?_, ?_, fun hinv => ?_, rfl⟩
    · rw [World.buried, hbury, hframe]
      exact ⟨rfl, rfl, rfl⟩
    · rw [World.buried, hbury]
    · obtain ⟨hfail, hnone, -⟩ := hinv.fail ("worker " ++ toString wid ++ " died") t.rid
      have hother (rid : ℕ) (hne : t.rid ≠ rid) :=
        fail_other hinv ("worker " ++ toString wid ++ " died") hne
      rw [World.buried, hbury]
      rw [hframe] at hfail hnone hother ⊢
      have hgone {u : Task} (hu : w.inflight wid = some u) : reqs u.rid = none := by
        obtain rfl := Option.some.inj (ho.symm.trans hu)
        exact hnone
      exact ⟨fun u hu => hgone (ho.trans hu), fun rid hne => hother rid (hne t rfl),
        hfail.stranded hdown (fun u hu => hgone hu) rfl⟩

theorem sweepWorker_frame (cfg : Config) (w : World) (wid : ℕ) : Frame w (w.sweepWorker cfg wid) := by
  by_cases hup : wid ∈ w.dead ∨ (w.workers wid).up = true
  · unfold World.sweepWorker
    rw [if_pos hup]
    exact .refl w
  · obtain ⟨w', hframe, -, -, -, heq⟩ := sweepWorker_parts cfg hup
    have hqueue : Frame w' { w' with queue := w'.queue.filter fun t => t.home ≠ some wid } :=
      { Frame.refl w' with }
    rw [heq]
    refine (hframe.trans hqueue).trans ?_
    split_ifs
    · exact Frame.foldl (fun w (t : Task) => fail_kept w _ t.rid) _ _
    · exact Frame.foldl (requeue_frame cfg) _ _

theorem sweepRequest_frame (cfg : Config) (w : World) (now rid : ℕ) : Frame w (w.sweepRequest cfg now rid) := by
  unfold World.sweepRequest
  cases w.reqs rid with
  | none => exact .refl w
  | some r =>
    dsimp only
    split_ifs
    · exact fail_kept w _ rid
    · exact .refl w

theorem sweep_frame (w : World) (now : ℕ) : Frame w (w.sweep cfg now) := by
  unfold World.sweep
  have hworkers := Frame.foldl (sweepWorker_frame cfg) (List.range cfg.workers) w
  dsimp only
  split_ifs
  · exact hworkers.trans (Frame.foldl (fun w rid => sweepRequest_frame cfg w now rid) _ _)
  · exact hworkers

theorem answered_time (r : Request) (m : Message) : (r.answered m).tFirst = r.tFirst := by
  unfold Request.answered
  cases m.answer <;> rfl

theorem onDone_frame (w : World) (m : Message) : Frame w (w.onDone m) := by
  have hfreed : Frame w { w with
      inflight := Function.update w.inflight m.wid none
      idle := m.wid :: w.idle.filter (· ≠ m.wid) } := { Frame.refl w with }
  unfold World.onDone
  dsimp only
  cases hr : w.reqs m.rid with
  | none => exact hfreed
  | some r =>
    dsimp only
    split_ifs
    · exact hfreed
    · exact hfreed.trans (settle_frame _ _)
    · refine ⟨rfl, rfl, rfl, rfl, rfl, fun _ => rfl, fun rid r' hr' => ?_⟩
      dsimp only at hr'
      by_cases hrid : rid = m.rid
      · subst hrid
        rw [Function.update_self] at hr'
        rw [← Option.some.inj hr']
        exact ⟨r, hr, fun _ => answered_time r m⟩
      · rw [Function.update_of_ne hrid] at hr'
        exact ⟨r', hr', fun _ => rfl⟩

/-! ### Idle workers -/

theorem heapMin_none {ts : List Task} (h : heapMin ts = none) : ts = [] := by
  cases ts with
  | nil => rfl
  | cons t ts =>
    rw [heapMin] at h
    cases hm : heapMin ts with
    | none =>
      rw [hm] at h
      cases h
    | some u =>
      rw [hm] at h
      dsimp only at h
      split_ifs at h

theorem nextFor_home (h : w.nextFor wid = some t) : t.home = some wid ∨ t.home = none := by
  have hown {u : Task} (hu : heapMin (w.queue.filter fun t => t.home = some wid) = some u) :
      u.home = some wid := of_decide_eq_true (List.mem_filter.mp (heapMin_mem hu)).2
  have hshared {u : Task} (hu : heapMin (w.queue.filter fun t => t.home = none) = some u) :
      u.home = none := of_decide_eq_true (List.mem_filter.mp (heapMin_mem hu)).2
  unfold World.nextFor at h
  split_ifs at h
  split at h
  · rename_i own shared ho hs
    split_ifs at h
    · exact .inl (Option.some.inj h ▸ hown ho)
    · exact .inr (Option.some.inj h ▸ hshared hs)
  · rename_i own ho hs
    exact .inl (Option.some.inj h ▸ hown ho)
  · exact .inr (hshared h)

/-- A worker is given nothing when no task waits for it. -/
theorem nextFor_none : w.nextFor wid = none ↔
    (wid ∈ w.alive → ∀ t ∈ w.queue, t.home ≠ some wid ∧ t.home ≠ none) := by
  constructor
  · intro h halive
    unfold World.nextFor at h
    rw [if_neg (not_not_intro halive)] at h
    split at h
    · split_ifs at h
    · cases h
    · rename_i shared hshared hown
      intro t ht
      refine ⟨fun hh => ?_, fun hh => ?_⟩
      · exact List.filter_eq_nil_iff.mp (heapMin_none hown) t ht (by simpa using hh)
      · exact List.filter_eq_nil_iff.mp (heapMin_none h) t ht (by simpa using hh)
  · intro h
    refine Option.eq_none_iff_forall_ne_some.mpr fun t ht => ?_
    obtain ⟨halive, hmem⟩ := nextFor_mem ht
    exact (nextFor_home ht).elim (h halive t hmem).1 (h halive t hmem).2

/-- No task waits for an idle worker. -/
def Spent (w : World) : Prop := ∀ wid ∈ w.idle, w.nextFor wid = none

theorem nextFor_mono (halive : w'.alive = w.alive) (hqueue : w'.queue ⊆ w.queue)
    (h : w.nextFor wid = none) : w'.nextFor wid = none := by
  rw [nextFor_none] at h ⊢
  rw [halive]
  exact fun hw t ht => h hw t (hqueue ht)

theorem dispatchOne_less (w : World) (now wid : ℕ) : (w.dispatchOne now wid).alive = w.alive ∧
    (w.dispatchOne now wid).queue ⊆ w.queue ∧ (w.dispatchOne now wid).idle ⊆ w.idle := by
  unfold World.dispatchOne
  cases w.nextFor wid with
  | none => exact ⟨rfl, List.Subset.refl _, List.Subset.refl _⟩
  | some t => exact ⟨rfl, List.erase_subset, List.filter_subset_self _⟩

theorem dispatchOne_spent (w : World) (now : ℕ) (hidle : wid ∈ (w.dispatchOne now wid).idle) :
    (w.dispatchOne now wid).nextFor wid = none := by
  unfold World.dispatchOne at hidle ⊢
  cases hn : w.nextFor wid with
  | none => exact hn
  | some t =>
    rw [hn] at hidle
    simp at hidle

theorem dispatch_spent (w : World) (now : ℕ) : Spent (w.dispatch cfg now) := by
  have hfold : ∀ (ids : List ℕ) (w : World),
      (∀ wid ∈ w.idle, wid ∈ ids ∨ w.nextFor wid = none) →
      Spent (ids.foldl (fun w wid => w.dispatchOne now wid) w) := by
    intro ids
    induction ids with
    | nil => exact fun w h wid hw => (h wid hw).resolve_left List.not_mem_nil
    | cons x ids ih =>
      intro w h
      obtain ⟨halive, hqueue, hidle⟩ := dispatchOne_less w now x
      refine ih _ fun wid hw => ?_
      rcases h wid (hidle hw) with hmem | hnone
      · rcases List.mem_cons.mp hmem with rfl | hmem
        · exact .inr (dispatchOne_spent w now hw)
        · exact .inl hmem
      · exact .inr (nextFor_mono halive hqueue hnone)
  exact hfold _ w fun wid hw => .inl ((cfg.setOrder_perm w.idle).mem_iff.mpr hw)

/-! ### The sweep that takes out the last worker -/

/-- The request is gone, or one of its tasks is bound to a worker. -/
def Held (w : World) (rid : ℕ) : Prop :=
  w.reqs rid = none ∨
    ∃ t, t.rid = rid ∧ (t ∈ w.queue ∧ t.home ≠ none ∨ ∃ wid, w.inflight wid = some t)

theorem failAll_gone (h : Inv w hand) (error : String) (ht : t ∈ hand) :
    (hand.foldl (fun w t => w.fail error t.rid) w).reqs t.rid = none := by
  induction hand generalizing w with
  | nil => cases ht
  | cons u hand ih =>
    obtain ⟨hfail, hnone, -⟩ := h.fail error u.rid
    rcases List.mem_cons.mp ht with rfl | ht
    · exact (Frame.foldl (fun w (u : Task) => fail_kept w error u.rid) hand _).gone hnone
    · exact ih (hfail.discard hnone) ht

theorem failAll_rest (error : String) (ts : List Task) (w : World) :
    (ts.foldl (fun w t => w.fail error t.rid) w).queue = w.queue ∧
      (ts.foldl (fun w t => w.fail error t.rid) w).inflight = w.inflight := by
  induction ts generalizing w with
  | nil => exact ⟨rfl, rfl⟩
  | cons t ts ih =>
    obtain ⟨reqs, finished, hframe⟩ := fail_frame w error t.rid
    rw [List.foldl_cons, (ih _).1, (ih _).2, hframe]
    exact ⟨rfl, rfl⟩

/-- A task that is put back keeps a home. -/
theorem requeue_rest (cfg : Config) (w : World) (t : Task) : (w.requeue cfg t).alive = w.alive ∧
    (w.requeue cfg t).inflight = w.inflight ∧ ∃ u, u.rid = t.rid ∧
      (w.requeue cfg t).queue = u :: w.queue ∧ (t.home ≠ none → w.alive ≠ [] → u.home ≠ none) := by
  unfold World.requeue
  split_ifs
  · refine ⟨rfl, rfl, _, ?_, rfl, fun _ hne hnone => ?_⟩
    · rfl
    have hlen := List.length_pos_iff.mpr hne
    rw [homeOf, List.getElem?_eq_none_iff] at hnone
    exact absurd (Nat.mod_lt (cfg.crc32 (t.key.getD [])) hlen) (not_lt.mpr hnone)
  · refine ⟨rfl, rfl, _, ?_, rfl, fun hh _ => hh⟩
    rfl

theorem requeueAll_rest (cfg : Config) (hne : w.alive ≠ []) (ts : List Task) :
    w.queue ⊆ (ts.foldl (World.requeue cfg) w).queue ∧
      (ts.foldl (World.requeue cfg) w).inflight = w.inflight ∧
      ∀ t ∈ ts, t.home ≠ none →
        ∃ u ∈ (ts.foldl (World.requeue cfg) w).queue, u.rid = t.rid ∧ u.home ≠ none := by
  induction ts generalizing w with
  | nil => exact ⟨List.Subset.refl _, rfl, fun _ ht => nomatch ht⟩
  | cons t ts ih =>
    obtain ⟨halive, hinflight, u, hrid, hqueue, hhome⟩ := requeue_rest cfg w t
    obtain ⟨hsub, hsame, hall⟩ := ih (w := w.requeue cfg t) (halive.symm ▸ hne)
    rw [hqueue] at hsub
    refine ⟨fun _ hv => hsub (List.mem_cons_of_mem u hv), hsame.trans hinflight, fun v hv hh => ?_⟩
    rcases List.mem_cons.mp hv with rfl | hv
    · exact ⟨u, hsub List.mem_cons_self, hrid, hhome hh hne⟩
    · exact hall v hv hh

theorem held_sweepWorker (h : Inv w []) (hh : Held w rid) (wid : ℕ) :
    Held (w.sweepWorker cfg wid) rid := by
  by_cases hup : wid ∈ w.dead ∨ (w.workers wid).up = true
  · unfold World.sweepWorker
    rwa [if_pos hup]
  · have hframe := sweepWorker_frame cfg w wid
    obtain ⟨w', hw', ⟨hqueue, -, -⟩, hinflight, hinv, heq⟩ := sweepWorker_parts cfg hup
    obtain ⟨hgone, -, hstranded⟩ := hinv h
    have hrest : w'.reqs rid = none → Held (w.sweepWorker cfg wid) rid := by
      intro hnone
      rw [heq]
      left
      split_ifs
      · exact (Frame.foldl (fun w (t : Task) => fail_kept w _ t.rid) _ _).gone hnone
      · exact (Frame.foldl (requeue_frame cfg) _ _).gone hnone
    rcases hh with hnone | ⟨t, rfl, ⟨ht, hhome⟩ | ⟨x, hx⟩⟩
    · exact hrest (hw'.gone hnone)
    · rw [← hqueue] at ht
      rw [heq]
      by_cases hw : t.home = some wid
      · have hin : t ∈ w'.queue.filter fun t => t.home = some wid :=
          List.mem_filter.mpr ⟨ht, by simpa using hw⟩
        split_ifs with halive
        · exact .inl (failAll_gone hstranded _ hin)
        · obtain ⟨-, -, hall⟩ := requeueAll_rest cfg (w := { w' with
            queue := w'.queue.filter fun t => t.home ≠ some wid }) halive
            (w'.queue.filter fun t => t.home = some wid)
          obtain ⟨u, hu, hrid, huh⟩ := hall t hin hhome
          exact .inr ⟨u, hrid, .inl ⟨hu, huh⟩⟩
      · have hin : t ∈ w'.queue.filter fun t => t.home ≠ some wid :=
          List.mem_filter.mpr ⟨ht, by simpa using hw⟩
        split_ifs with halive
        · refine .inr ⟨t, rfl, .inl ⟨?_, hhome⟩⟩
          rw [(failAll_rest _ _ _).1]
          exact hin
        · obtain ⟨hsub, -, -⟩ := requeueAll_rest cfg (w := { w' with
            queue := w'.queue.filter fun t => t.home ≠ some wid }) halive
            (w'.queue.filter fun t => t.home = some wid)
          exact .inr ⟨t, rfl, .inl ⟨hsub hin, hhome⟩⟩
    · by_cases hw : x = wid
      · exact hrest (hgone t (hw ▸ hx))
      · have hx' : w'.inflight x = some t := by
          rw [hinflight, Function.update_of_ne hw, hx]
        rw [heq]
        refine .inr ⟨t, rfl, .inr ⟨x, ?_⟩⟩
        split_ifs with halive
        · rw [(failAll_rest _ _ _).2]
          exact hx'
        · rw [(requeueAll_rest cfg (w := { w' with
            queue := w'.queue.filter fun t => t.home ≠ some wid }) halive _).2.1]
          exact hx'

/-- The request has been with the workers for too long. -/
def overdue (cfg : Config) (now : ℕ) (r : Request) : Bool :=
  decide (cfg.workerTimeout > 0) && r.tFirst.any fun t => t + cfg.workerTimeout < now

theorem sweepRequest_alive (w : World) (now rid : ℕ) :
    (w.sweepRequest cfg now rid).alive = w.alive := by
  unfold World.sweepRequest
  cases w.reqs rid with
  | none => rfl
  | some r =>
    dsimp only
    split_ifs
    · obtain ⟨reqs, finished, hframe⟩ :=
        fail_frame w ("no answer within " ++ toString cfg.workerTimeout ++ " s") rid
      rw [hframe]
    · rfl

theorem sweepRequests_alive (now : ℕ) (rids : List ℕ) (w : World) :
    (rids.foldl (fun w rid => w.sweepRequest cfg now rid) w).alive = w.alive := by
  induction rids generalizing w with
  | nil => rfl
  | cons rid rids ih => exact (ih _).trans (sweepRequest_alive w now rid)

theorem sweepRequest_gone (h : Inv w []) (now : ℕ) (hd : ∀ r, w.reqs rid = some r →
    r.tFirst.any (fun t => t + cfg.workerTimeout < now) = true) :
    (w.sweepRequest cfg now rid).reqs rid = none := by
  unfold World.sweepRequest
  cases hr : w.reqs rid with
  | none => exact hr
  | some r =>
    dsimp only
    rw [if_pos (hd r hr)]
    exact (h.fail _ rid).2.1

theorem overdue_gone (h : Inv w []) (now : ℕ) {rids : List ℕ} (hmem : rid ∈ rids)
    (hd : ∀ r, w.reqs rid = some r →
      r.tFirst.any (fun t => t + cfg.workerTimeout < now) = true) :
    (rids.foldl (fun w rid => w.sweepRequest cfg now rid) w).reqs rid = none := by
  induction rids generalizing w with
  | nil => cases hmem
  | cons x rids ih =>
    have hstep := sweepRequest_frame cfg w now x
    by_cases hw : rid = x
    · subst hw
      exact (Frame.foldl (fun w rid => sweepRequest_frame cfg w now rid) rids _).gone
        (sweepRequest_gone h now hd)
    · refine ih (h.sweepRequest now x) ((List.mem_cons.mp hmem).resolve_left hw) fun r' hr' => ?_
      obtain ⟨r, hr, htime⟩ := hstep.reqs rid r' hr'
      have hover := hd r hr
      rw [htime (Option.isSome_of_any hover)]
      exact hover

/-- After a sweep that leaves no worker, a request that was bound or overdue is gone. -/
theorem sweep_gone (h : Inv w []) (now : ℕ)
    (hh : Held w rid ∨ rid < w.nextRid ∧ ∀ r, w.reqs rid = some r → overdue cfg now r = true)
    (halive : (w.sweep cfg now).alive = []) : (w.sweep cfg now).reqs rid = none := by
  have hinv := h.foldl (f := World.sweepWorker cfg) (fun _ wid h => h.sweepWorker wid)
    (List.range cfg.workers)
  have hframe := Frame.foldl (sweepWorker_frame cfg) (List.range cfg.workers) w
  have hheld : ∀ (wids : List ℕ) (w : World), Inv w [] → Held w rid →
      Held (wids.foldl (World.sweepWorker cfg) w) rid := by
    intro wids
    induction wids with
    | nil => exact fun _ _ hh => hh
    | cons wid wids ih => exact fun w h hh => ih _ (h.sweepWorker wid) (held_sweepWorker h hh wid)
  have hbound : ((List.range cfg.workers).foldl (World.sweepWorker cfg) w).alive = [] →
      Held w rid → ((List.range cfg.workers).foldl (World.sweepWorker cfg) w).reqs rid = none := by
    intro halive hh
    rcases hheld (List.range cfg.workers) w h hh with hnone | ⟨t, rfl, ⟨ht, hhome⟩ | ⟨x, hx⟩⟩
    · exact hnone
    · obtain ⟨home, hhome⟩ := Option.ne_none_iff_exists'.mp hhome
      have := hinv.home_alive t ht home hhome
      rw [halive] at this
      cases this
    · have := hinv.inflight_alive x t hx
      rw [halive] at this
      cases this
  unfold World.sweep at halive ⊢
  dsimp only at halive ⊢
  split_ifs at halive ⊢ with htimeout
  · rw [sweepRequests_alive] at halive
    rcases hh with hh | ⟨hlt, hover⟩
    · exact (Frame.foldl (fun w rid => sweepRequest_frame cfg w now rid) _ _).gone (hbound halive hh)
    · rw [hframe.nextRid]
      refine overdue_gone hinv now (List.mem_range.mpr hlt) fun r' hr' => ?_
      obtain ⟨r, hr, htime⟩ := hframe.reqs rid r' hr'
      have hany := (Bool.and_eq_true_iff.mp (hover r hr)).2
      rw [htime (Option.isSome_of_any hany)]
      exact hany
  · rcases hh with hh | ⟨-, hover⟩
    · exact hbound halive hh
    · refine Option.eq_none_iff_forall_ne_some.mpr fun r' hr' => ?_
      obtain ⟨r, hr, -⟩ := hframe.reqs rid r' hr'
      exact htimeout (of_decide_eq_true (Bool.and_eq_true_iff.mp (hover r hr)).1)

theorem onDone_rest (w : World) (m : Message) : (w.onDone m).alive = w.alive ∧
    (w.onDone m).queue = w.queue ∧
      (w.onDone m).inflight = Function.update w.inflight m.wid none := by
  unfold World.onDone
  dsimp only
  cases w.reqs m.rid with
  | none => exact ⟨rfl, rfl, rfl⟩
  | some r =>
    dsimp only
    split_ifs <;> exact ⟨rfl, rfl, rfl⟩

/-! ### The condition, and what it gives -/

/-- A task of the request is bound to a worker, and is not the one that is answered. -/
def Bound (w : World) (m : Option Message) (rid : ℕ) : Prop :=
  ∃ t, t.rid = rid ∧ (t ∈ w.queue ∧ t.home ≠ none ∨
    ∃ wid, w.inflight wid = some t ∧ ∀ x ∈ m, x.wid ≠ wid)

/-- The request waits for no message but this one. -/
def Settles (r : Request) (m : Message) : Prop :=
  (r.answered m).failed.isSome = true ∨ (r.answered m).nDone = r.tasks.length

/-- A submission finds a worker, a table that closing will still empty and rules that do not
raise; and when no worker runs any more, the sweep finds no request of which everything that
is left waits in the shared queue. -/
def Tame (cfg : Config) (w : World) : Act → Prop
  | .submit s _ order => w.alive ≠ [] ∧ (w.drained = true → 0 < w.closers + w.lockers) ∧
      (tasksOf cfg w.alive w.idle.length order ⟨w.nextRid, (World.served cfg s).1,
        (World.served cfg s).2, [], fun _ => none, 0, none, none, false⟩ s.text).isSome
  | .collect m sweeps now => sweeps = true → (∀ wid, (w.workers wid).up = false) →
      ∀ rid r, w.reqs rid = some r →
        Bound w m rid ∨ (∃ x ∈ m, x.rid = rid ∧ Settles r x) ∨ overdue cfg now r = true
  | _ => True

/-- The workers have nothing left to do, and nothing is left to be collected. -/
def World.Quiet (w : World) : Prop :=
  w.qres = [] ∧ ∀ wid ∈ w.alive, (w.workers wid).up = true ∧ (w.workers wid).qin = [] ∧
    (w.workers wid).busy = none

/-- What a state says of the requests that were accepted. -/
structure Answered (w : World) : Prop where
  once : ∀ rid ∈ w.accepted, w.account rid = 1
  error : ∀ c ∈ w.calls, (∃ i < (w.chunks c.1).length, ∀ e ∈ w.log, e.1.id = (c.1, i) →
    ∀ ids, e.2 ≠ .ok ids) → c.2.error.isSome = true
  dead : w.alive = [] → ∀ rid, w.reqs rid = none
  closed : w.drained = true → w.closers + w.lockers = 0 → ∀ rid, w.reqs rid = none
  done : w.finished = [] → w.pending = [] →
    w.alive = [] ∨ (w.drained = true ∧ w.closers + w.lockers = 0) ∨ w.Quiet →
    ∀ rid ∈ w.accepted, (w.calls.map Prod.fst).count rid = 1

/-- What tame acts keep. -/
structure Tamed (w : World) : Prop where
  dead : w.alive = [] → ∀ rid, w.reqs rid = none
  closed : w.drained = true → w.closers + w.lockers = 0 → ∀ rid, w.reqs rid = none
  spent : Spent w

theorem onDone_settles (hr : w.reqs m.rid = some r) (hrid : r.rid = m.rid)
    (hfin : r.finished = false) (hs : Settles r m) : (w.onDone m).reqs m.rid = none := by
  have hsame : (r.answered m).rid = m.rid ∧ (r.answered m).tasks = r.tasks := by
    unfold Request.answered
    cases m.answer <;> exact ⟨hrid, rfl⟩
  unfold World.onDone
  dsimp only
  rw [hr]
  dsimp only
  rw [if_neg (by rw [hfin]; exact Bool.false_ne_true), if_pos (by rw [hsame.2]; exact hs),
    ← hsame.1]
  exact settle_reqs ..

theorem dispatch_alive (w : World) (now : ℕ) : (w.dispatch cfg now).alive = w.alive := by
  have hfold : ∀ (ids : List ℕ) (w : World),
      (ids.foldl (fun w wid => w.dispatchOne now wid) w).alive = w.alive := by
    intro ids
    induction ids with
    | nil => exact fun _ => rfl
    | cons x ids ih => exact fun w => (ih _).trans (dispatchOne_less w now x).1
  exact hfold _ w

/-- What is noted before a turn ends, and what the turn then keeps. -/
theorem turn_tamed {sweeps : Bool} {now : ℕ} (h : Tamed w) (hframe : Frame w w')
    (hinv : Inv w' []) (halive : w'.alive = w.alive)
    (hgood : sweeps = true → (∀ wid, (w.workers wid).up = false) → ∀ rid r, w.reqs rid = some r →
      Held w' rid ∨ rid < w'.nextRid ∧ ∀ r', w'.reqs rid = some r' → overdue cfg now r' = true) :
    Tamed { (if sweeps then w'.sweep cfg now else w').dispatch cfg now with
      collector := .finishing } := by
  have hsweep : Frame w (if sweeps then w'.sweep cfg now else w') := by
    split_ifs
    · exact hframe.trans (sweep_frame w' now)
    · exact hframe
  have hturn := hsweep.trans (dispatch_frame cfg _ now)
  refine ⟨fun hdead rid => ?_, fun hd hz rid => ?_, fun wid hw => dispatch_spent _ now wid hw⟩
  · change (World.dispatch cfg _ now).alive = [] at hdead
    rw [dispatch_alive] at hdead
    by_cases hw : w.alive = []
    · exact hturn.gone (h.dead hw rid)
    · cases sweeps with
      | false => exact absurd (halive ▸ hdead) hw
      | true =>
        have hdown : ∀ wid, (w.workers wid).up = false := by
          intro wid
          rw [← hsweep.up wid]
          refine Bool.eq_false_iff.mpr fun hup => ?_
          have hmem := (hinv.sweep now).up_alive wid hup
          rw [show (w'.sweep cfg now).alive = [] from hdead] at hmem
          cases hmem
        refine (dispatch_frame cfg _ now).gone ?_
        cases hr : w.reqs rid with
        | none => exact hsweep.gone hr
        | some r => exact sweep_gone hinv now (hgood rfl hdown rid r hr) hdead
  · refine hturn.gone (h.closed (hturn.drained ▸ hd) ?_ rid)
    rw [← hturn.closers, ← hturn.lockers]
    exact hz

theorem Tamed.collect {sweeps : Bool} {now : ℕ} {m : Option Message} (h : Tamed w)
    (hinv : Inv w []) (hm : ∀ x ∈ m, x ∈ w.qres) (hok : Tame cfg w (.collect m sweeps now)) :
    Tamed (w.collect cfg m sweeps now) := by
  cases m with
  | none =>
    refine turn_tamed h (.refl w) hinv rfl fun hs hdown rid r hr => ?_
    rcases hok hs hdown rid r hr with ⟨t, hrid, ⟨ht, hhome⟩ | ⟨wid, hw, -⟩⟩ | ⟨x, hx, -⟩ | hover
    · exact .inl (.inr ⟨t, hrid, .inl ⟨ht, hhome⟩⟩)
    · exact .inl (.inr ⟨t, hrid, .inr ⟨wid, hw⟩⟩)
    · cases hx
    · refine .inr ⟨(hinv.req_open rid r hr).2.1, fun r' hr' => ?_⟩
      rwa [← Option.some.inj (hr.symm.trans hr')]
  | some m =>
    have hread : Frame w { w with qres := w.qres.erase m } := { Frame.refl w with }
    have hframe := hread.trans (onDone_frame _ m)
    obtain ⟨halive, hqueue, hinflight⟩ := onDone_rest { w with qres := w.qres.erase m } m
    refine turn_tamed h hframe (hinv.onDone (hm m rfl)) halive fun hs hdown rid r hr => ?_
    rcases hok hs hdown rid r hr with ⟨t, hrid, ⟨ht, hhome⟩ | ⟨wid, hw, hne⟩⟩ | ⟨x, hx, hrid, hset⟩ |
      hover
    · refine .inl (.inr ⟨t, hrid, .inl ⟨?_, hhome⟩⟩)
      rw [hqueue]
      exact ht
    · refine .inl (.inr ⟨t, hrid, .inr ⟨wid, ?_⟩⟩)
      rw [hinflight, Function.update_of_ne (Ne.symm (hne m rfl))]
      exact hw
    · obtain rfl := Option.mem_some_iff.mp hx
      subst hrid
      obtain ⟨hrid, -, hfin, -⟩ := hinv.req_open _ r hr
      exact .inl (.inl (onDone_settles hr hrid hfin hset))
    · refine .inr ⟨?_, fun r' hr' => ?_⟩
      · rw [hframe.nextRid]
        exact (hinv.req_open rid r hr).2.1
      · obtain ⟨r₀, hr₀, htime⟩ := hframe.reqs rid r' hr'
        obtain rfl := Option.some.inj (hr.symm.trans hr₀)
        have hany := (Bool.and_eq_true_iff.mp hover).2
        rw [overdue, htime (Option.isSome_of_any hany)]
        exact hover

theorem pushAll_alive (ts : List Task) (w : World) : (ts.foldl World.push w).alive = w.alive := by
  induction ts generalizing w with
  | nil => rfl
  | cons t ts ih => exact ih _

theorem submit_tamed {s : Submission} {now : ℕ} {order : ℕ → ℤ} {submits : List Submission}
    (hok : Tame cfg w (.submit s now order)) :
    Tamed (World.submit cfg { w with submits := submits } s now order) := by
  obtain ⟨hne, hclosing, hsome⟩ := hok
  obtain ⟨kt, hkt⟩ := Option.isSome_iff_exists.mp hsome
  obtain ⟨kind, tasks⟩ := kt
  unfold World.submit
  dsimp only
  rw [hkt]
  dsimp only
  refine ⟨fun hdead => ?_, fun hd hz => ?_, dispatch_spent _ now⟩
  · rw [dispatch_alive, pushAll_alive] at hdead
    exact absurd hdead hne
  · have hpush : ∀ w : World, Frame w ((tasks.foldl World.push w).dispatch cfg now) := fun w =>
      (Frame.foldl push_frame tasks w).trans (dispatch_frame cfg _ now)
    rw [(hpush _).drained] at hd
    rw [(hpush _).closers, (hpush _).lockers] at hz
    have := hclosing hd
    dsimp only at hz
    omega

theorem Tamed.step {a : Act} (h : Tamed w) (hinv : Inv w [])
    (hok : Tame cfg w a) (hs : Moves cfg w a w') : Tamed w' := by
  cases hs with
  | check => exact { h with }
  | submit s now order hs => exact submit_tamed hok
  | wait => exact { h with }
  | collect m sweeps now hc hm => exact h.collect hinv hm hok
  | rest => exact { h with }
  | finish r rs hc hf => exact { h with }
  | closeCheck =>
    refine { h with closed := fun hd hz => ?_ }
    dsimp only at hz
    omega
  | closeSet hc =>
    refine { h with closed := fun hd hz => h.closed hd ?_ }
    dsimp only at hz
    omega
  | closeLock => exact ⟨fun _ _ => rfl, fun _ _ _ => rfl, h.spent⟩
  | closeFinish r rs hp => exact { h with }
  | take => exact { h with }
  | answer => exact { h with }
  | die => exact { h with }
  | lose => exact { h with }

theorem Tamed.start (cfg : Config) : Tamed (World.start cfg) :=
  ⟨fun _ _ => rfl, (fun hd => nomatch hd), fun _ _ => nextFor_none.mpr fun _ _ ht => nomatch ht⟩

theorem Reach.tamed (h : Reach cfg (Tame cfg) w) : Tamed w := by
  induction h with
  | start => exact .start cfg
  | step a hreach hok hs ih => exact ih.step hreach.inv hok (step_moves hs)

/-! ### At rest -/

theorem Inv.quiet_free (h : Inv w []) (hq : w.Quiet) (halive : wid ∈ w.alive) :
    w.inflight wid = none := by
  obtain ⟨hqres, hworkers⟩ := hq
  obtain ⟨hup, hqin, hbusy⟩ := hworkers wid halive
  have hlink := h.links wid halive
  rw [hqres, List.filter_nil] at hlink
  generalize w.workers wid = k at hlink hup hqin hbusy
  generalize w.inflight wid = o at hlink
  cases hlink with
  | free => rfl
  | sent => cases hqin
  | busy => cases hbusy
  | lost => cases hup

/-- A request with tasks is not in the table when the workers have nothing left to do. -/
theorem Tamed.quiet (h : Tamed w) (hinv : Inv w []) (hq : w.Quiet) (hr : w.reqs rid = some r) :
    r.tasks = [] := by
  by_contra hne
  have hleft := hinv.req_left rid r hr hne
  rw [hinv.req_count rid r hr] at hleft
  have hsome : ∃ i < r.tasks.length, r.parts i = none := by
    by_contra hall
    refine hleft.ne ((List.countP_eq_length.mpr fun i hi => ?_).trans List.length_range)
    refine Option.isSome_iff_ne_none.mpr fun hnone => hall ⟨i, List.mem_range.mp hi, hnone⟩
  obtain ⟨i, hi, hnone⟩ := hsome
  obtain ⟨t, ht, -⟩ := hinv.req_waits rid r hr i hi hnone
  have hidle {x : ℕ} (hx : x ∈ w.alive) : t ∈ w.queue → t.home ≠ some x ∧ t.home ≠ none :=
    nextFor_none.mp (h.spent x (hinv.free_idle x hx (hinv.quiet_free hq hx))) hx t
  rcases ht with ht | ht | ⟨x, hx⟩
  · cases ht
  · cases hhome : t.home with
    | none =>
      obtain ⟨x, hx⟩ := List.exists_mem_of_ne_nil w.alive fun hdead =>
        nomatch hr.symm.trans (h.dead hdead rid)
      exact (hidle hx ht).2 hhome
    | some home => exact (hidle (hinv.home_alive t ht home hhome) ht).1 hhome
  · have halive := hinv.inflight_alive x t hx
    exact nomatch hx.symm.trans (hinv.quiet_free hq halive)

/-- **Answers.** In every run whose acts are tame, an accepted request is called back once: it
is in one place at any time, with nothing left to do it was called back, and it was called back
with an error if a chunk of it was not answered. With no worker alive, and after closing, the
table is empty. -/
theorem answered_once (cfg : Config) (w : World) (h : Reach cfg (Tame cfg) w) : Answered w := by
  have hinv := h.inv
  have htamed := h.tamed
  have honce : ∀ rid ∈ w.accepted, w.account rid = 1 := fun rid hrid => by
    rw [hinv.books rid, if_pos (hinv.accepted rid hrid).1]
  refine ⟨honce, fun c hc he => ?_, htamed.dead, htamed.closed, fun hf hp hrest rid hrid => ?_⟩
  · obtain ⟨i, hi, hnone⟩ := he
    rw [Option.isSome_iff_ne_none]
    intro hok
    obtain ⟨parts, -, hparts⟩ := (hinv.calls c hc).2 hok
    obtain ⟨t, ht, hid⟩ := hparts i hi
    exact hnone _ ht hid _ rfl
  · have hgone : w.reqs rid = none := by
      rcases hrest with hdead | ⟨hd, hz⟩ | hq
      · exact htamed.dead hdead rid
      · exact htamed.closed hd hz rid
      · refine Option.eq_none_iff_forall_ne_some.mpr fun r hr => ?_
        exact (hinv.accepted rid hrid).2 r hr (htamed.quiet hinv hq hr)
    have hone := honce rid hrid
    rw [World.account, hf, hp, hgone] at hone
    simpa using hone

/-- The act is no submission and no sweep. -/
def Act.plain : Act → Bool
  | .submit .. => false
  | .collect _ sweeps _ => !sweeps
  | _ => true

theorem tame_of_plain {a : Act} (h : a.plain = true) (w : World) : Tame cfg w a := by
  cases a with
  | submit => cases h
  | collect m sweeps now =>
    cases sweeps with
    | false => exact fun hs => nomatch hs
    | true => cases h
  | _ => exact trivial

theorem answered_once_twoChunks :
    ∃ w, (World.start twoWorkers).run twoWorkers twoChunks = some w ∧ w.accepted = [0] ∧
      Answered w := by
  have haccepted : ((World.start twoWorkers).run twoWorkers twoChunks).map World.accepted =
      some [0] := by
    decide
  obtain ⟨w, hw, haccepted⟩ := Option.map_eq_some_iff.mp haccepted
  refine ⟨w, hw, haccepted, answered_once twoWorkers w ?_⟩
  obtain ⟨w₁, h₁, hw⟩ := Option.bind_eq_some_iff.mp hw
  obtain ⟨w₂, h₂, hw⟩ := Option.bind_eq_some_iff.mp hw
  have hok : Tame twoWorkers w₁ (.submit ⟨"abcd".toList, none, .free⟩ 0 fun i => i) := by
    obtain rfl := Option.some.inj h₁
    exact ⟨by decide, by decide, by decide⟩
  have hcheck : Tame twoWorkers (World.start twoWorkers)
      (.check ⟨"abcd".toList, none, .free⟩) := trivial
  refine Reach.run (.step _ (.step _ .start hcheck h₁) hok h₂) (fun a ha => ?_) hw
  exact tame_of_plain (List.all_eq_true.mp (show List.all _ Act.plain = true by decide) a ha)

/-- One worker that is sent whole texts. -/
def oneWorker : Config := { twoWorkers with workers := 1, planner := none }

/-- The worker ends while a second text waits in the shared queue. -/
def lastDies : List Act :=
  [.check ⟨"a".toList, none, .free⟩, .submit ⟨"a".toList, none, .free⟩ 0 fun _ => 0,
    .check ⟨"b".toList, none, .free⟩, .submit ⟨"b".toList, none, .free⟩ 0 fun _ => 0,
    .die 0, .wait, .collect none true 0, .finish, .finish]

/-- A text that was checked before closing is noted after it. -/
def lateSubmit : List Act :=
  [.check ⟨"a".toList, none, .free⟩, .closeCheck, .closeSet, .closeLock,
    .submit ⟨"a".toList, none, .free⟩ 0 fun _ => 0, .wait, .die 0]

/-- The last worker dies and leaves a request behind; and closing misses one. -/
theorem answered_once_fails :
    (∃ w, Reach oneWorker (fun _ _ => True) w ∧ w.alive = [] ∧ 1 ∈ w.accepted ∧
      w.finished = [] ∧ (w.calls.map Prod.fst).count 1 = 0 ∧ ¬Answered w) ∧
    ∃ w, Reach oneWorker (fun _ _ => True) w ∧ w.drained = true ∧ w.closers + w.lockers = 0 ∧
      w.collector = .exited ∧ w.pending = [] ∧ 0 ∈ w.accepted ∧
      (w.calls.map Prod.fst).count 0 = 0 ∧ ¬Answered w := by
  obtain ⟨w, hw⟩ : ∃ w, (World.start oneWorker).run oneWorker lastDies = some w := ⟨_, rfl⟩
  obtain ⟨v, hv⟩ : ∃ v, (World.start oneWorker).run oneWorker lateSubmit = some v := ⟨_, rfl⟩
  refine ⟨⟨w, Reach.start.run (fun _ _ _ => trivial) hw, ?_⟩,
    v, Reach.start.run (fun _ _ _ => trivial) hv, ?_⟩
  · obtain rfl := Option.some.inj hw
    refine ⟨by decide, by decide, by decide, by decide, fun h => ?_⟩
    exact absurd (h.dead (by decide) 1) (by decide)
  · obtain rfl := Option.some.inj hv
    refine ⟨by decide, by decide, by decide, by decide, by decide, by decide, fun h => ?_⟩
    exact absurd (h.closed (by decide) (by decide) 0) (by decide)

end Toktier.Sched
