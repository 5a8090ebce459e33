import Toktier.Integrations.SchedHomes

/-!
# What a failed submission leaves behind

A call of `submit` looks at the kind and at the scheduler, and then takes the lock. Under the lock
the request is noted and counted first; choosing a home and planning the chunks come after that, and
both can raise.

## Main definitions

* `Counters`: what a submission counts, beside the state of the scheduler.
* `Pool.submit`: a call, with what it returns or raises.

## Main results

* `submit_raises`: a call that raises has changed nothing just where it was refused before the lock.
-/
namespace Toktier.Sched

open Toktier.Lib

/-- The counters that a submission moves: the calls, and the depth and chunk statistics. -/
structure Counters where
  submitted : ℕ
  nChunked : ℕ
  kHist : ℕ → ℕ
  chunksTotal : ℕ
  planMisses : ℕ
  depthMax : ℕ

/-- The scheduler with its counters. -/
structure Pool where
  world : World
  counters : Counters

/-- `ValueError`, `RuntimeError` of the call itself, and what a rule of the policy raises. -/
inductive SubmitError
  | kind
  | notRunning
  | rule
  deriving DecidableEq

/-- `_KINDS` -/
def KINDS : List Kind := [.free, .session, .auto]

/-! ### The call -/

/-- The request as it is noted. -/
def arriving (cfg : Config) (w : World) (s : Submission) : Request :=
  ⟨w.nextRid, (World.served cfg s).1, (World.served cfg s).2, [], fun _ => none, 0, none, none,
    false⟩

/-- What planning counts: a stateless text was to be cut in `k`, and there are so many spans. -/
def Counters.planned (c : Counters) (k spans : ℕ) : Counters :=
  let c := if k > 1 then { c with planMisses := c.planMisses + (k - spans) } else c
  if spans > 1 then
    { c with
      nChunked := c.nChunked + 1
      kHist := Function.update c.kHist spans (c.kHist spans + 1)
      chunksTotal := c.chunksTotal + spans }
  else c

/-- What queueing so many tasks counts: the depth after each of them. -/
def Counters.queued (c : Counters) (depth : ℕ) : ℕ → Counters
  | 0 => c
  | n + 1 => queued { c with depthMax := max c.depthMax (depth + 1) } (depth + 1) n

/-- What `arrive` counts for a request that became so many tasks. -/
def Counters.arrived (c : Counters) (cfg : Config) (w : World) (s : Submission) (tasks : ℕ) :
    Counters :=
  let c := if (arriving cfg w s).kind = .session ∨ (arriving cfg w s).kind = .auto then c
    else c.planned (chooseK cfg s.text.length w.alive.length w.idle.length) tasks
  c.queued w.queue.length tasks

/-- `submit`, where `running` is what the call read of `active` before it took the lock. -/
def Pool.submit (cfg : Config) (p : Pool) (running : Bool) (s : Submission) (now : ℕ)
    (order : ℕ → ℤ) : Except SubmitError ℕ × Pool :=
  if s.kind ∉ KINDS then (.error .kind, p)
  else if !running then (.error .notRunning, p)
  else
    let w := p.world
    let c := { p.counters with submitted := p.counters.submitted + 1 }
    match tasksOf cfg w.alive w.idle.length order (arriving cfg w s) s.text with
    | none => (.error .rule, ⟨w.submit cfg s now order, c⟩)
    | some (_, tasks) =>
        (.ok w.nextRid, ⟨w.submit cfg s now order, c.arrived cfg w s tasks.length⟩)

/-! ### Calls that raise -/

section Raises

variable {cfg : Config} {p : Pool} {w : World} {running : Bool} {s : Submission} {now : ℕ}
  {order : ℕ → ℤ} {e : SubmitError}

/-- Where a rule raises, the request stays in the table. -/
theorem submit_of_raised
    (h : tasksOf cfg w.alive w.idle.length order (arriving cfg w s) s.text = none) :
    w.submit cfg s now order =
      { w with
        nextRid := w.nextRid + 1
        reqs := Function.update w.reqs w.nextRid (some (arriving cfg w s)) } := by
  unfold World.submit
  dsimp only
  rw [arriving] at h ⊢
  rw [h]

/-- A call that raises was refused, or it has noted and counted its request. -/
theorem Pool.submit_error (h : (p.submit cfg running s now order).1 = .error e) :
    (s.kind ∉ KINDS ∨ running = false) ∧ (p.submit cfg running s now order).2 = p ∨
      (s.kind ∈ KINDS ∧ running = true) ∧
        (p.submit cfg running s now order).2.world = p.world.submit cfg s now order ∧
        (p.world.submit cfg s now order).reqs p.world.nextRid = some (arriving cfg p.world s) := by
  by_cases hkind : s.kind ∈ KINDS
  · cases running with
    | false =>
      refine .inl ⟨.inr rfl, ?_⟩
      rw [Pool.submit, if_neg (not_not.mpr hkind), if_pos (by decide)]
    | true =>
      refine .inr ⟨⟨hkind, rfl⟩, ?_⟩
      rw [Pool.submit, if_neg (not_not.mpr hkind), if_neg (by decide)] at h ⊢
      dsimp only at h ⊢
      cases htasks : tasksOf cfg p.world.alive p.world.idle.length order
          (arriving cfg p.world s) s.text with
      | none =>
        refine ⟨rfl, ?_⟩
        rw [submit_of_raised htasks]
        exact Function.update_self ..
      | some kt =>
        rw [htasks] at h
        cases h
  · refine .inl ⟨.inl hkind, ?_⟩
    rw [Pool.submit, if_pos hkind]

/-- The number that the next request gets is not in the table. -/
theorem Inv.fresh (h : Inv w []) : w.reqs w.nextRid = none :=
  Option.eq_none_iff_forall_ne_some.mpr fun r hr => lt_irrefl _ (h.req_open _ r hr).2.1

end Raises

/-! ### What is left behind -/

section Orphans

variable {cfg : Config} {w w' : World} {hand : List Task} {t : Task} {m : Message} {r : Request}
  {wid rid : ℕ}

/-- A request without tasks: none of its tasks waits. -/
theorem Inv.waits_ne (h : Inv w hand) (hr : w.reqs rid = some r) (htasks : r.tasks = [])
    (ht : w.Waits hand t) : t.rid ≠ rid := by
  rintro rfl
  have htext := h.waits_text t ht
  rw [h.req_chunks _ r hr, htasks] at htext
  cases htext

/-- No message is about it. -/
theorem Inv.message_ne (h : Inv w hand) (hr : w.reqs rid = some r) (htasks : r.tasks = [])
    (hm : m ∈ w.qres) : m.rid ≠ rid := by
  rintro rfl
  obtain ⟨t, ht, hid⟩ := h.message_log m hm
  have htext := h.log_text _ ht
  rw [show t.rid = m.rid from congrArg Prod.fst hid, h.req_chunks _ r hr, htasks] at htext
  cases htext

theorem failAll_other (h : Inv w hand) (error : String) (hne : ∀ t ∈ hand, t.rid ≠ rid) :
    (hand.foldl (fun w t => w.fail error t.rid) w).reqs rid = w.reqs rid := by
  induction hand generalizing w with
  | nil => rfl
  | cons t hand ih =>
    obtain ⟨hfail, hnone, -⟩ := h.fail error t.rid
    exact (ih (hfail.discard hnone) fun u hu => hne u (List.mem_cons_of_mem t hu)).trans
      (fail_other h error (hne t List.mem_cons_self))

theorem requeueAll_reqs (ts : List Task) (w : World) :
    (ts.foldl (World.requeue cfg) w).reqs = w.reqs := by
  induction ts generalizing w with
  | nil => rfl
  | cons t ts ih =>
    rw [List.foldl_cons, ih]
    unfold World.requeue
    split_ifs <;> rfl

theorem sweepWorker_other (h : Inv w []) (hr : w.reqs rid = some r) (htasks : r.tasks = [])
    (wid : ℕ) : (w.sweepWorker cfg wid).reqs rid = w.reqs rid := by
  by_cases hup : wid ∈ w.dead ∨ (w.workers wid).up = true
  · unfold World.sweepWorker
    rw [if_pos hup]
  · obtain ⟨w', -, ⟨hqueue, -, -⟩, -, hinv, heq⟩ := sweepWorker_parts cfg hup
    obtain ⟨-, hother, hstranded⟩ := hinv h
    have hsame := hother rid fun t ht => h.waits_ne hr htasks (.inr (.inr ⟨wid, ht⟩))
    rw [heq, ← hsame]
    split_ifs
    · refine failAll_other hstranded _ fun t ht => ?_
      exact h.waits_ne hr htasks (.inr (.inl (hqueue ▸ List.mem_of_mem_filter ht)))
    · rw [requeueAll_reqs]

theorem sweepRequest_other (h : Inv w []) (hr : w.reqs rid = some r) (hfirst : r.tFirst = none)
    (now x : ℕ) : (w.sweepRequest cfg now x).reqs rid = w.reqs rid := by
  unfold World.sweepRequest
  by_cases hx : x = rid
  · subst hx
    rw [hr]
    dsimp only
    rw [hfirst, if_neg (by simp), hr]
  · cases w.reqs x with
    | none => rfl
    | some y =>
      dsimp only
      split_ifs
      · exact fail_other h _ hx
      · rfl

theorem dispatch_other (now : ℕ) (hne : ∀ t ∈ w.queue, t.rid ≠ rid) :
    (w.dispatch cfg now).reqs rid = w.reqs rid := by
  have hfold : ∀ (ids : List ℕ) (w : World), (∀ t ∈ w.queue, t.rid ≠ rid) →
      (ids.foldl (fun w wid => w.dispatchOne now wid) w).reqs rid = w.reqs rid := by
    intro ids
    induction ids with
    | nil => exact fun _ _ => rfl
    | cons wid ids ih =>
      intro w hne
      refine (ih _ fun t ht => hne t ((dispatchOne_calm w now wid).queue ht)).trans ?_
      unfold World.dispatchOne
      cases hnext : w.nextFor wid with
      | none => rfl
      | some t => exact Function.update_of_ne (hne t (nextFor_mem hnext).2).symm ..
  exact hfold _ w hne

theorem onDone_other (hopen : ∀ y, w.reqs m.rid = some y → y.rid = m.rid) (hne : m.rid ≠ rid) :
    (w.onDone m).reqs rid = w.reqs rid := by
  unfold World.onDone
  dsimp only
  cases hm : w.reqs m.rid with
  | none => rfl
  | some y =>
    have hy : (y.answered m).rid = m.rid := by
      rw [← hopen y hm]
      unfold Request.answered
      cases m.answer <;> rfl
    dsimp only
    split_ifs
    · rfl
    · exact Function.update_of_ne (hy ▸ hne.symm) ..
    · exact Function.update_of_ne hne.symm ..

/-- A request that stays: the acts of the collector keep what such acts keep. -/
theorem foldl_other {α : Type*} {f : World → α → World} (hr : w.reqs rid = some r)
    (hinv : ∀ w a, Inv w [] → Inv (f w a) [])
    (hf : ∀ w a, Inv w [] → w.reqs rid = some r → (f w a).reqs rid = w.reqs rid) (h : Inv w [])
    (as : List α) : (as.foldl f w).reqs rid = some r := by
  induction as generalizing w with
  | nil => exact hr
  | cons a as ih => exact ih ((hf w a h hr).trans hr) (hinv w a h)

theorem sweep_other (h : Inv w []) (hr : w.reqs rid = some r) (htasks : r.tasks = [])
    (hfirst : r.tFirst = none) (now : ℕ) : (w.sweep cfg now).reqs rid = some r := by
  have hworkers := foldl_other (f := World.sweepWorker cfg) hr (fun _ wid h => h.sweepWorker wid)
    (fun _ wid h hr => sweepWorker_other h hr htasks wid) h (List.range cfg.workers)
  unfold World.sweep
  dsimp only
  split_ifs
  · exact foldl_other hworkers (fun _ x h => h.sweepRequest now x)
      (fun _ x h hr => sweepRequest_other h hr hfirst now x)
      (h.foldl (fun _ wid h => h.sweepWorker wid) _) _
  · exact hworkers

theorem pushAll_reqs (ts : List Task) (w : World) : (ts.foldl World.push w).reqs = w.reqs := by
  induction ts generalizing w with
  | nil => rfl
  | cons t ts ih => exact ih _

theorem collect_other (h : Inv w []) (hr : w.reqs rid = some r) (htasks : r.tasks = [])
    (hfirst : r.tFirst = none) {m : Option Message} (hm : ∀ x ∈ m, x ∈ w.qres) (sweeps : Bool)
    (now : ℕ) : (w.collect cfg m sweeps now).reqs rid = some r := by
  obtain ⟨hinv, hread⟩ : Inv (w.read m) [] ∧ (w.read m).reqs rid = some r := by
    cases m with
    | none => exact ⟨h, hr⟩
    | some m =>
      exact ⟨h.onDone (hm m rfl), (onDone_other (w := { w with qres := w.qres.erase m })
        (fun y hy => (h.req_open _ y hy).1) (h.message_ne hr htasks (hm m rfl))).trans hr⟩
  have hturn : ∀ w' : World, Inv w' [] → w'.reqs rid = some r →
      (w'.dispatch cfg now).reqs rid = some r := fun w' hinv hr =>
    (dispatch_other now fun t ht => hinv.waits_ne hr htasks (.inr (.inl ht))).trans hr
  have hlast : ((if sweeps then (w.read m).sweep cfg now else w.read m).dispatch cfg now).reqs rid =
      some r := by
    split_ifs
    · exact hturn _ (hinv.sweep now) (sweep_other hinv hread htasks hfirst now)
    · exact hturn _ hinv hread
  cases m <;> exact hlast

theorem step_other {a : Act} (h : Inv w []) (hr : w.reqs rid = some r) (htasks : r.tasks = [])
    (hfirst : r.tFirst = none) (ha : a ≠ .closeLock) (hs : Moves cfg w a w') :
    w'.reqs rid = some r := by
  cases hs with
  | submit s now order hs =>
    have hother : w.nextRid ≠ rid := (h.req_open rid r hr).2.1.ne'
    unfold World.submit
    dsimp only
    split
    · exact (Function.update_of_ne hother.symm ..).trans hr
    · rename_i kind tasks htasks'
      rw [dispatch_other now fun t ht => ?_, pushAll_reqs]
      · dsimp only
        rw [Function.update_of_ne hother.symm, Function.update_of_ne hother.symm, hr]
      · obtain ht | ⟨u, hu, hrid, -, -⟩ := pushAll_queue ht
        · exact h.waits_ne hr htasks (.inr (.inl ht))
        · rw [hrid, (tasksOf_home htasks' hu).1]
          exact hother
  | collect m sweeps now hc hm => exact collect_other h hr htasks hfirst hm sweeps now
  | closeLock => exact absurd rfl ha
  | check | wait | rest | finish | closeCheck | closeSet | closeFinish | take | answer | die
  | lose => exact hr

/-- Until closing empties the table, the request stays in it. -/
theorem Later.other (h : Later cfg (fun _ a => a ≠ .closeLock) w w') (hinv : Inv w [])
    (hr : w.reqs rid = some r) (htasks : r.tasks = []) (hfirst : r.tFirst = none) :
    Inv w' [] ∧ w'.reqs rid = some r := by
  induction h with
  | refl => exact ⟨hinv, hr⟩
  | step a _ ha hs ih =>
    have hmoves := step_moves hs
    exact ⟨ih.1.step hmoves, step_other ih.1 ih.2 htasks hfirst ha hmoves⟩

end Orphans

/-- A call that raises leaves the scheduler as it was just where it was refused before it took the
lock. Otherwise its request stays in the table until closing empties it. -/
theorem submit_raises (cfg : Config) (p : Pool) (h : Reach cfg (fun _ _ => True) p.world)
    (running : Bool) (s : Submission) (now : ℕ) (order : ℕ → ℤ) (e : SubmitError)
    (hraises : (p.submit cfg running s now order).1 = .error e) :
    ((p.submit cfg running s now order).2 = p ↔ s.kind ∉ KINDS ∨ running = false) ∧
    (¬(s.kind ∉ KINDS ∨ running = false) →
      ∀ w', Later cfg (fun _ a => a ≠ .closeLock) (p.submit cfg running s now order).2.world w' →
        (w'.reqs p.world.nextRid).isSome = true) := by
  obtain ⟨hrefused, hp⟩ | ⟨⟨hkind, hrunning⟩, hworld, hreq⟩ := Pool.submit_error hraises
  · exact ⟨⟨fun _ => hrefused, fun _ => hp⟩, fun hnot => absurd hrefused hnot⟩
  · have hnot : ¬(s.kind ∉ KINDS ∨ running = false) := by
      rintro (hnot | hstopped)
      · exact hnot hkind
      · exact nomatch hrunning.symm.trans hstopped
    rw [← hworld] at hreq
    refine ⟨⟨fun heq => ?_, fun hrefused => absurd hrefused hnot⟩, fun _ w' hlater => ?_⟩
    · rw [heq, h.inv.fresh] at hreq
      cases hreq
    · have hinv : Inv (p.submit cfg running s now order).2.world [] := by
        rw [hworld]
        exact h.inv.submit s now order
      rw [(hlater.other hinv hreq rfl rfl).2]
      rfl

/-- A pool that has served nothing, with a planner that raises. -/
def raisingPool : Pool :=
  ⟨World.start { twoWorkers with planner := some fun _ _ => none }, ⟨0, 0, fun _ => 0, 0, 0, 0⟩⟩

theorem submit_raises_refused :
    (raisingPool.submit { twoWorkers with planner := some fun _ _ => none } true
      ⟨"abcd".toList, none, .chunk⟩ 0 fun _ => 0).2 = raisingPool :=
  (submit_raises { twoWorkers with planner := some fun _ _ => none } raisingPool .start true
    ⟨"abcd".toList, none, .chunk⟩ 0 (fun _ => 0) .kind (by decide)).1.mpr (.inl (by decide))

/-- A planner that raises leaves the request in the table, and counted. -/
theorem submit_raises_changed : ∃ q,
    raisingPool.submit { twoWorkers with planner := some fun _ _ => none }
      raisingPool.world.active ⟨"abcd".toList, none, .free⟩ 0 (fun _ => 0) = (.error .rule, q) ∧
    q ≠ raisingPool ∧ (q.world.reqs 0).isSome = true ∧ q.counters.submitted = 1 :=
  ⟨_, rfl, fun heq => absurd (congrArg (fun p => p.counters.submitted) heq) (by decide), rfl, rfl⟩

end Toktier.Sched
