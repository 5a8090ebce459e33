import Toktier.Integrations.SchedAnswers

/-!
# The home of a key

A request with a session key waits for one worker, its home: the key is hashed, and the hash taken
modulo the number of live workers. When a worker dies its own tasks get a new home. The number of
live workers has changed as well, so that a key can lose its home to the death of another worker.

## Main definitions

* `Stays`: by its hash, a key keeps its home when the worker at another place dies.
* `Steady`: the condition on an act.

## Main results

* `homeOf_retire`: what a death does to the home of a key.
* `session_affinity`: in steady runs a key stays with the worker that has its session.
-/
namespace Toktier.Sched

open Toktier.Lib

variable {cfg : Config} {key : Text} {w w' w'' : World} {hand : List Task} {t u : Task}
  {m : Message} {wid rid c n d : ℕ} {alive : List ℕ}

/-! ### What a death does to a home -/

/-- Of `n` live workers the one at place `d` dies: the hash meant it, or it means the same worker
among those that are left. -/
def Stays (c n d : ℕ) : Prop :=
  c % n = d ∨ c % (n - 1) = if c % n < d then c % n else c % n - 1

instance (c n d : ℕ) : Decidable (Stays c n d) := inferInstanceAs (Decidable (_ ∨ _))

theorem filter_ne_eq_eraseIdx (hnodup : alive.Nodup) (hd : alive[d]? = some wid) :
    alive.filter (· ≠ wid) = alive.eraseIdx d := by
  obtain ⟨hlt, rfl⟩ := List.getElem?_eq_some_iff.mp hd
  rw [← hnodup.erase_getElem d hlt, hnodup.erase_eq_filter]
  exact List.filter_congr fun x _ => by rw [Bool.eq_iff_iff]; simp

/-- The home of a key that was not at the worker stays just where the hash allows it. -/
theorem homeOf_retire (hnodup : alive.Nodup) (hd : alive[d]? = some wid)
    (hother : homeOf cfg alive key ≠ some wid) :
    homeOf cfg (alive.filter (· ≠ wid)) key = homeOf cfg alive key ↔
      Stays (cfg.crc32 key) alive.length d := by
  have hlt := (List.getElem?_eq_some_iff.mp hd).1
  have hplace : cfg.crc32 key % alive.length ≠ d := by
    intro heq
    rw [homeOf, heq] at hother
    exact hother hd
  have hmod := Nat.mod_lt (cfg.crc32 key) (Nat.zero_lt_of_lt hlt)
  have hmod' := Nat.mod_lt (cfg.crc32 key) (show 0 < alive.length - 1 by omega)
  have hinj {i : ℕ} : alive[i]? = alive[cfg.crc32 key % alive.length]? ↔
      cfg.crc32 key % alive.length = i := by
    rw [eq_comm]
    exact List.getElem?_inj hmod hnodup
  rw [filter_ne_eq_eraseIdx hnodup hd, homeOf, homeOf, List.length_eraseIdx_of_lt hlt,
    List.getElem?_eraseIdx, Stays, or_iff_right hplace]
  split_ifs with hleft hbefore hbefore
  · rw [hinj, eq_comm]
  · rw [hinj]
    omega
  · rw [hinj]
    omega
  · rw [hinj]
    omega

/-! ### Acts that retire nobody -/

/-- The workers are the same, no task comes into the queue, and a worker gets a task of its own queue
or of the shared one. -/
structure Calm (w w' : World) : Prop where
  alive : w'.alive = w.alive
  nextRid : w'.nextRid = w.nextRid
  queue : w'.queue ⊆ w.queue
  inflight : ∀ wid t, w'.inflight wid = some t → w.inflight wid = some t ∨
    t ∈ w.queue ∧ (t.home = some wid ∨ t.home = none)

theorem Calm.refl (w : World) : Calm w w := ⟨rfl, rfl, List.Subset.refl _, fun _ _ h => .inl h⟩

theorem Calm.trans (h : Calm w w') (h' : Calm w' w'') : Calm w w'' := by
  refine ⟨h'.alive.trans h.alive, h'.nextRid.trans h.nextRid, List.Subset.trans h'.queue h.queue,
    fun wid t ht => ?_⟩
  obtain ht | ⟨ht, hhome⟩ := h'.inflight wid t ht
  · exact h.inflight wid t ht
  · exact .inr ⟨h.queue ht, hhome⟩

theorem Calm.foldl {α : Type*} {f : World → α → World} (hf : ∀ w a, Calm w (f w a)) (as : List α)
    (w : World) : Calm w (as.foldl f w) := by
  induction as generalizing w with
  | nil => exact .refl w
  | cons a as ih => exact (hf w a).trans (ih (f w a))

theorem fail_calm (w : World) (error : String) (rid : ℕ) : Calm w (w.fail error rid) := by
  obtain ⟨reqs, finished, hframe⟩ := fail_frame w error rid
  rw [hframe]
  exact { Calm.refl w with }

theorem dispatchOne_calm (w : World) (now wid : ℕ) : Calm w (w.dispatchOne now wid) := by
  unfold World.dispatchOne
  cases hnext : w.nextFor wid with
  | none => exact .refl w
  | some t =>
    refine ⟨rfl, rfl, List.erase_subset, fun x u hu => ?_⟩
    dsimp only at hu
    by_cases hx : x = wid
    · subst hx
      rw [Function.update_self] at hu
      obtain rfl := Option.some.inj hu
      exact .inr ⟨(nextFor_mem hnext).2, nextFor_home hnext⟩
    · rw [Function.update_of_ne hx] at hu
      exact .inl hu

theorem dispatch_calm (cfg : Config) (w : World) (now : ℕ) : Calm w (w.dispatch cfg now) :=
  Calm.foldl (fun w wid => dispatchOne_calm w now wid) _ w

theorem sweepRequest_calm (cfg : Config) (w : World) (now rid : ℕ) :
    Calm w (w.sweepRequest cfg now rid) := by
  unfold World.sweepRequest
  cases w.reqs rid with
  | none => exact .refl w
  | some r =>
    dsimp only
    split_ifs
    · exact fail_calm w _ rid
    · exact .refl w

theorem update_none {inflight : ℕ → Option Task} {x : ℕ}
    (h : Function.update inflight wid none x = some t) : inflight x = some t := by
  by_cases hx : x = wid
  · rw [hx, Function.update_self] at h
    cases h
  · rwa [Function.update_of_ne hx] at h

theorem onDone_calm (w : World) (m : Message) : Calm w (w.onDone m) := by
  obtain ⟨halive, hqueue, hinflight⟩ := onDone_rest w m
  refine ⟨halive, ?_, ?_, fun wid t ht => ?_⟩
  · exact (onDone_frame w m).nextRid
  · rw [hqueue]
    exact List.Subset.refl _
  · rw [hinflight] at ht
    exact .inl (update_none ht)

/-! ### A worker is retired -/

/-- What an act may do to the queue: a task stays, or it comes from a home that has died, or its
request is new; it gets the home that its key has then. -/
structure Moved (cfg : Config) (w w' : World) : Prop where
  alive : w'.alive ⊆ w.alive
  nextRid : w.nextRid ≤ w'.nextRid
  queue : ∀ u ∈ w'.queue, u ∈ w.queue ∨
    (∃ t ∈ w.queue, u.core = t.core ∧ u.key = t.key ∧ (∃ home, t.home = some home ∧
      home ∉ w'.alive) ∧ u.home = homeOf cfg w'.alive (t.key.getD [])) ∨
    w.nextRid ≤ u.rid ∧ ∀ key, u.key = some key → u.home = homeOf cfg w'.alive key
  inflight : ∀ wid t, w'.inflight wid = some t → w.inflight wid = some t ∨
    t.home = some wid ∨ t.home = none

/-- Tasks that are put back get a home that lives. -/
theorem requeueAll_queue (cfg : Config) (ts : List Task) (hts : ∀ t ∈ ts, t.home = some wid)
    (hdead : wid ∉ w.alive) :
    (ts.foldl (World.requeue cfg) w).alive = w.alive ∧
      (ts.foldl (World.requeue cfg) w).inflight = w.inflight ∧
      (ts.foldl (World.requeue cfg) w).nextRid = w.nextRid ∧
      (ts.foldl (World.requeue cfg) w).dead = w.dead ∧
      ∀ u ∈ (ts.foldl (World.requeue cfg) w).queue, u ∈ w.queue ∨
        ∃ t ∈ ts, u.core = t.core ∧ u.key = t.key ∧ u.home = homeOf cfg w.alive (t.key.getD []) := by
  induction ts generalizing w with
  | nil => exact ⟨rfl, rfl, rfl, rfl, fun u hu => .inl hu⟩
  | cons t ts ih =>
    have hrequeue : w.requeue cfg t =
        w.push { t with home := homeOf cfg w.alive (t.key.getD []) } := by
      rw [World.requeue, hts t List.mem_cons_self, if_pos (by simpa using hdead)]
    obtain ⟨halive, hinflight, hrid, hdead', hqueue⟩ := ih (w := w.requeue cfg t)
      (fun u hu => hts u (List.mem_cons_of_mem t hu)) (by rwa [hrequeue])
    rw [hrequeue] at halive hinflight hrid hdead' hqueue
    rw [List.foldl_cons, hrequeue]
    refine ⟨halive, hinflight, hrid, hdead', fun u hu => ?_⟩
    obtain hu | ⟨v, hv, hmoved⟩ := hqueue u hu
    · obtain rfl | hu := List.mem_cons.mp hu
      · exact .inr ⟨t, List.mem_cons_self, rfl, rfl, rfl⟩
      · exact .inl hu
    · exact .inr ⟨v, List.mem_cons_of_mem t hv, hmoved⟩

theorem failAll_dead (error : String) (ts : List Task) (w : World) :
    (ts.foldl (fun w t => w.fail error t.rid) w).dead = w.dead := by
  induction ts generalizing w with
  | nil => rfl
  | cons t ts ih =>
    obtain ⟨reqs, finished, hframe⟩ := fail_frame w error t.rid
    rw [List.foldl_cons, ih, hframe]

theorem sweepWorker_moved (cfg : Config) (h : ¬(wid ∈ w.dead ∨ (w.workers wid).up = true)) :
    Moved cfg w (w.sweepWorker cfg wid) ∧
      (w.sweepWorker cfg wid).alive = w.alive.filter (· ≠ wid) ∧
      (w.sweepWorker cfg wid).dead = wid :: w.dead := by
  obtain ⟨w', hframe, ⟨hqueue, halive, hdead⟩, hinflight, -, heq⟩ := sweepWorker_parts cfg h
  have hless : w.alive.filter (· ≠ wid) ⊆ w.alive := List.filter_subset_self _
  have hgone : wid ∉ w'.alive := by simp [halive]
  rw [heq]
  split_ifs with hlast
  · -- nobody is left: the requests of the worker's queue fail
    have hcalm := Calm.foldl (fun w (t : Task) => fail_calm w "no live worker" t.rid)
      (w'.queue.filter fun t => t.home = some wid)
      { w' with queue := w'.queue.filter fun t => t.home ≠ some wid }
    refine ⟨⟨?_, ?_, fun u hu => .inl ?_, fun x t ht => ?_⟩, hcalm.alive.trans halive,
      (failAll_dead _ _ _).trans hdead⟩
    · rw [hcalm.alive]
      exact halive ▸ hless
    · rw [hcalm.nextRid]
      exact hframe.nextRid.ge
    · exact hqueue ▸ List.mem_of_mem_filter (hcalm.queue hu)
    · rw [(failAll_rest _ _ _).2] at ht
      dsimp only at ht
      rw [hinflight] at ht
      exact .inl (update_none ht)
  · obtain ⟨hsame, hflight, hrid, hdead', hmoved⟩ := requeueAll_queue cfg
      (w'.queue.filter fun t => t.home = some wid)
      (w := { w' with queue := w'.queue.filter fun t => t.home ≠ some wid })
      (fun t ht => of_decide_eq_true (List.mem_filter.mp ht).2) hgone
    refine ⟨⟨?_, ?_, fun u hu => ?_, fun x t ht => ?_⟩, hsame.trans halive, hdead'.trans hdead⟩
    · rw [hsame]
      exact halive ▸ hless
    · rw [hrid]
      exact hframe.nextRid.ge
    · obtain hu | ⟨t, ht, hcore, hkey, hhome⟩ := hmoved u hu
      · exact .inl (hqueue ▸ List.mem_of_mem_filter hu)
      · have hold := List.mem_filter.mp ht
        rw [hsame]
        exact .inr (.inl ⟨t, hqueue ▸ hold.1, hcore, hkey,
          ⟨wid, of_decide_eq_true hold.2, hgone⟩, hhome⟩)
    · rw [hflight] at ht
      dsimp only at ht
      rw [hinflight] at ht
      exact .inl (update_none ht)

/-! ### A submission -/

theorem pushAll_queue {ts : List Task} (hu : u ∈ (ts.foldl World.push w).queue) : u ∈ w.queue ∨
    ∃ t ∈ ts, u.rid = t.rid ∧ u.key = t.key ∧ u.home = t.home := by
  induction ts generalizing w with
  | nil => exact .inl hu
  | cons t ts ih =>
    obtain hu | ⟨v, hv, hsame⟩ := ih hu
    · obtain rfl | hu := List.mem_cons.mp hu
      · exact .inr ⟨t, List.mem_cons_self, rfl, rfl, rfl⟩
      · exact .inl hu
    · exact .inr ⟨v, List.mem_cons_of_mem t hv, hsame⟩

theorem pushAll_rest (ts : List Task) (w : World) : (ts.foldl World.push w).inflight = w.inflight ∧
    (ts.foldl World.push w).nextRid = w.nextRid := by
  induction ts generalizing w with
  | nil => exact ⟨rfl, rfl⟩
  | cons t ts ih => exact ih _

/-- A task with a key is made for the home of its key. -/
theorem tasksOf_home {nIdle : ℕ} {order : ℕ → ℤ} {r : Request} {text : Text} {kind : Kind}
    {tasks : List Task} (h : tasksOf cfg alive nIdle order r text = some (kind, tasks))
    (ht : t ∈ tasks) : t.rid = r.rid ∧ ∀ key, t.key = some key → t.home = homeOf cfg alive key := by
  unfold tasksOf at h
  split_ifs at h
  · obtain ⟨key, -, h⟩ := Option.bind_eq_some_iff.mp h
    obtain ⟨home, hhome, h⟩ := Option.bind_eq_some_iff.mp h
    obtain ⟨-, rfl⟩ := Prod.mk.inj (Option.some.inj h)
    obtain rfl := List.mem_singleton.mp ht
    refine ⟨rfl, fun key' hkey => ?_⟩
    obtain rfl := Option.some.inj hkey
    exact hhome.symm
  · obtain ⟨spans, -, h⟩ := Option.bind_eq_some_iff.mp h
    split_ifs at h
    · obtain ⟨-, rfl⟩ := Prod.mk.inj (Option.some.inj h)
      obtain ⟨span, -, rfl⟩ := List.mem_map.mp ht
      exact ⟨rfl, fun _ hkey => nomatch hkey⟩
    · obtain ⟨-, rfl⟩ := Prod.mk.inj (Option.some.inj h)
      obtain rfl := List.mem_singleton.mp ht
      exact ⟨rfl, fun _ hkey => nomatch hkey⟩

/-- The tasks that a submission adds wait for the home of their key. -/
theorem submit_tasks (cfg : Config) (w : World) (s : Submission) (now : ℕ) (order : ℕ → ℤ) :
    (w.submit cfg s now order).alive = w.alive ∧
      (w.submit cfg s now order).nextRid = w.nextRid + 1 ∧
      ∀ u, (u ∈ (w.submit cfg s now order).queue → u ∈ w.queue ∨
          u.rid = w.nextRid ∧ ∀ key, u.key = some key → u.home = homeOf cfg w.alive key) ∧
        ∀ wid, (w.submit cfg s now order).inflight wid = some u → w.inflight wid = some u ∨
          (u ∈ w.queue ∨
            u.rid = w.nextRid ∧ ∀ key, u.key = some key → u.home = homeOf cfg w.alive key) ∧
          (u.home = some wid ∨ u.home = none) := by
  unfold World.submit
  dsimp only
  split
  · exact ⟨rfl, rfl, fun u => ⟨.inl, fun wid hu => .inl hu⟩⟩
  · rename_i kind tasks htasks
    have hcalm (w : World) := dispatch_calm cfg (tasks.foldl World.push w) now
    have hnew {w' : World} {u : Task} (hu : u ∈ (tasks.foldl World.push w').queue)
        (hqueue : w'.queue = w.queue) : u ∈ w.queue ∨
          u.rid = w.nextRid ∧ ∀ key, u.key = some key → u.home = homeOf cfg w.alive key := by
      obtain hu | ⟨t, ht, hrid, hkey, hhome⟩ := pushAll_queue hu
      · exact .inl (hqueue ▸ hu)
      · obtain ⟨hid, hh⟩ := tasksOf_home htasks ht
        exact .inr ⟨hrid.trans hid, fun key hk => hhome.trans (hh key (hkey ▸ hk))⟩
    refine ⟨(hcalm _).alive.trans (pushAll_alive _ _),
      (hcalm _).nextRid.trans (pushAll_rest _ _).2, fun u => ⟨fun hu => ?_, fun wid hu => ?_⟩⟩
    · exact hnew ((hcalm _).queue hu) rfl
    · obtain hu | ⟨hu, hhome⟩ := (hcalm _).inflight wid u hu
      · rw [(pushAll_rest _ _).1] at hu
        exact .inl hu
      · exact .inr ⟨hnew hu rfl, hhome⟩

theorem submit_moved (cfg : Config) (w : World) (s : Submission) (now : ℕ) (order : ℕ → ℤ) :
    Moved cfg w (w.submit cfg s now order) := by
  obtain ⟨halive, hrid, htasks⟩ := submit_tasks cfg w s now order
  refine ⟨?_, ?_, fun u hu => ?_, fun wid u hu => ?_⟩
  · rw [halive]
    exact List.Subset.refl _
  · rw [hrid]
    exact Nat.le_succ _
  · rw [halive]
    exact ((htasks u).1 hu).imp_right fun hnew => .inr ⟨hnew.1.ge, hnew.2⟩
  · exact ((htasks u).2 wid hu).imp_right And.right

/-! ### Tasks move only away from the dead -/

/-- What any number of acts may do to the tasks that wait. -/
structure Drift (w w' : World) : Prop where
  alive : w'.alive ⊆ w.alive
  nextRid : w.nextRid ≤ w'.nextRid
  queue : ∀ u ∈ w'.queue, (∃ t ∈ w.queue, u.core = t.core ∧
    (u.home = t.home ∨ ∃ home, t.home = some home ∧ home ∉ w'.alive)) ∨ w.nextRid ≤ u.rid
  inflight : ∀ wid t, w'.inflight wid = some t → w.inflight wid = some t ∨
    t.home = some wid ∨ t.home = none

theorem Moved.drift (h : Moved cfg w w') : Drift w w' where
  alive := h.alive
  nextRid := h.nextRid
  queue u hu := by
    obtain hu | ⟨t, ht, hcore, -, hdead, -⟩ | ⟨hnew, -⟩ := h.queue u hu
    · exact .inl ⟨u, hu, rfl, .inl rfl⟩
    · exact .inl ⟨t, ht, hcore, .inr hdead⟩
    · exact .inr hnew
  inflight := h.inflight

theorem Drift.refl (w : World) : Drift w w :=
  ⟨List.Subset.refl _, le_rfl, fun u hu => .inl ⟨u, hu, rfl, .inl rfl⟩, fun _ _ h => .inl h⟩

theorem Drift.trans (h : Drift w w') (h' : Drift w' w'') : Drift w w'' where
  alive := List.Subset.trans h'.alive h.alive
  nextRid := h.nextRid.trans h'.nextRid
  queue u hu := by
    obtain ⟨v, hv, hcore, hhome⟩ | hnew := h'.queue u hu
    · obtain ⟨t, ht, hcore', hhome'⟩ | hnew := h.queue v hv
      · refine .inl ⟨t, ht, hcore.trans hcore', ?_⟩
        obtain hsame | ⟨home, ht, hdead⟩ := hhome'
        · rw [hsame] at hhome
          exact hhome
        · exact .inr ⟨home, ht, fun hlive => hdead (h'.alive hlive)⟩
      · exact .inr (hnew.trans (congrArg Prod.fst hcore).ge)
    · exact .inr (h.nextRid.trans hnew)
  inflight wid t ht := by
    obtain ht | hhome := h'.inflight wid t ht
    · exact h.inflight wid t ht
    · exact .inr hhome

theorem Drift.foldl {α : Type*} {f : World → α → World} (hf : ∀ w a, Drift w (f w a)) (as : List α)
    (w : World) : Drift w (as.foldl f w) := by
  induction as generalizing w with
  | nil => exact .refl w
  | cons a as ih => exact (hf w a).trans (ih (f w a))

theorem sweepWorker_drift (cfg : Config) (w : World) (wid : ℕ) : Drift w (w.sweepWorker cfg wid) := by
  by_cases hup : wid ∈ w.dead ∨ (w.workers wid).up = true
  · unfold World.sweepWorker
    rw [if_pos hup]
    exact .refl w
  · exact (sweepWorker_moved cfg hup).1.drift

theorem sweepRequests_calm (cfg : Config) (now : ℕ) (rids : List ℕ) (w : World) :
    Calm w (rids.foldl (fun w rid => w.sweepRequest cfg now rid) w) :=
  Calm.foldl (fun w rid => sweepRequest_calm cfg w now rid) rids w

/-- A sweep looks at the workers, and what it does to the requests moves no task. -/
theorem sweep_calm (cfg : Config) (w : World) (now : ℕ) :
    Calm ((List.range cfg.workers).foldl (World.sweepWorker cfg) w) (w.sweep cfg now) := by
  unfold World.sweep
  dsimp only
  split_ifs
  · exact sweepRequests_calm cfg now _ _
  · exact .refl _

theorem Calm.drift (h : Calm w w') : Drift w w' where
  alive := h.alive ▸ List.Subset.refl _
  nextRid := h.nextRid.ge
  queue u hu := .inl ⟨u, h.queue hu, rfl, .inl rfl⟩
  inflight wid t ht := (h.inflight wid t ht).imp_right And.right

/-- The message of a turn is read first. -/
def World.read (w : World) : Option Message → World
  | none => w
  | some m => { w with qres := w.qres.erase m }.onDone m

theorem read_calm (w : World) (m : Option Message) : Calm w (w.read m) := by
  cases m with
  | none => exact .refl w
  | some m =>
    have hqres : Calm w { w with qres := w.qres.erase m } := { Calm.refl w with }
    exact hqres.trans (onDone_calm _ m)

/-- A turn of the collector without a sweep. -/
theorem collect_calm (cfg : Config) (w : World) (m : Option Message) (now : ℕ) :
    Calm w (w.collect cfg m false now) := by
  have hlast := (read_calm w m).trans (dispatch_calm cfg (w.read m) now)
  cases m with
  | none => exact { hlast with }
  | some m => exact { hlast with }

/-- A turn with a sweep. -/
theorem collect_sweep (cfg : Config) (w : World) (m : Option Message) (now : ℕ) :
    Calm ((List.range cfg.workers).foldl (World.sweepWorker cfg) (w.read m))
      (w.collect cfg m true now) := by
  have hlast := (sweep_calm cfg (w.read m) now).trans
    (dispatch_calm cfg ((w.read m).sweep cfg now) now)
  cases m with
  | none => exact { hlast with }
  | some m => exact { hlast with }

theorem step_drift {a : Act} (h : Moves cfg w a w') : Drift w w' := by
  cases h with
  | submit s now order hs =>
    have hless : Drift w { w with submits := w.submits.erase s } := { Drift.refl w with }
    exact hless.trans (submit_moved cfg _ s now order).drift
  | collect m sweeps now hc hm =>
    cases sweeps with
    | false => exact (collect_calm cfg w m now).drift
    | true =>
      exact ((read_calm w m).drift).trans
        ((Drift.foldl (sweepWorker_drift cfg) _ _).trans
          ((collect_sweep cfg w m now).drift))
  | check | wait | rest | finish | closeCheck | closeSet | closeLock | closeFinish | take | answer
  | die | lose => exact { Drift.refl w with }

/-! ### Acts that keep the home of a key -/

/-- The death of the worker leaves the key with its home, or it is the death of the home. -/
def KeepsHome (cfg : Config) (key : Text) (alive : List ℕ) (wid : ℕ) : Prop :=
  wid ∈ alive → Stays (cfg.crc32 key) alive.length (alive.idxOf wid)

instance (cfg : Config) (key : Text) (alive : List ℕ) (wid : ℕ) :
    Decidable (KeepsHome cfg key alive wid) := inferInstanceAs (Decidable (_ → _))

/-- So does the death of several, one after the other. -/
def KeepsHomes (cfg : Config) (key : Text) : List ℕ → List ℕ → Prop
  | _, [] => True
  | alive, wid :: fallen =>
      KeepsHome cfg key alive wid ∧ KeepsHomes cfg key (alive.filter (· ≠ wid)) fallen

instance decidableKeepsHomes (cfg : Config) (key : Text) :
    (alive fallen : List ℕ) → Decidable (KeepsHomes cfg key alive fallen)
  | _, [] => isTrue trivial
  | alive, wid :: fallen =>
      have := decidableKeepsHomes cfg key (alive.filter (· ≠ wid)) fallen
      inferInstanceAs (Decidable (_ ∧ _))

/-- The workers that a sweep is to retire. -/
def World.fallen (cfg : Config) (w : World) : List ℕ :=
  (List.range cfg.workers).filter fun wid => wid ∉ w.dead ∧ (w.workers wid).up = false

/-- A sweep retires no worker whose death would move the key away from a home that lives. -/
def Steady (cfg : Config) (key : Text) (w : World) : Act → Prop
  | .collect _ true _ => KeepsHomes cfg key w.alive (w.fallen cfg)
  | _ => True

instance (cfg : Config) (key : Text) (w : World) : (a : Act) → Decidable (Steady cfg key w a)
  | .collect _ true _ => decidableKeepsHomes cfg key w.alive (w.fallen cfg)
  | .collect _ false _ | .check _ | .submit _ _ _ | .wait | .finish | .closeCheck | .closeSet
  | .closeLock | .closeFinish | .take _ | .answer _ _ | .die _ | .lose _ => isTrue trivial

/-- A home that lives is still the home. -/
def Kept (cfg : Config) (key : Text) (w w' : World) : Prop :=
  ∀ home, homeOf cfg w.alive key = some home → home ∈ w'.alive →
    homeOf cfg w'.alive key = some home

/-- The tasks of the key that are queued are with the home of the key. -/
structure Homed (cfg : Config) (key : Text) (w : World) : Prop where
  queue : ∀ t ∈ w.queue, t.key = some key → t.home = homeOf cfg w.alive key
  nodup : w.alive.Nodup

theorem Kept.of_eq (h : w'.alive = w.alive) : Kept cfg key w w' := by
  intro home hhome _
  rw [h]
  exact hhome

theorem Kept.trans (h : Kept cfg key w w') (h' : Kept cfg key w' w'') (hless : w''.alive ⊆ w'.alive) :
    Kept cfg key w w'' :=
  fun home hhome hlive => h' home (h home hhome (hless hlive)) hlive

theorem Homed.moved (h : Homed cfg key w) (hmoved : Moved cfg w w') (hkept : Kept cfg key w w')
    (hinv : Inv w' []) (hnodup : w'.alive.Nodup) : Homed cfg key w' := by
  refine ⟨fun u hu hkey => ?_, hnodup⟩
  obtain hold | ⟨t, -, -, hsame, -, hhome⟩ | ⟨-, hhome⟩ := hmoved.queue u hu
  · have hhome := h.queue u hold hkey
    cases hof : homeOf cfg w.alive key with
    | none =>
      -- without a worker there is no home
      have hnil : w'.alive = [] := by
        have hlen := List.getElem?_eq_none_iff.mp hof
        have hempty : w.alive = [] := by
          by_contra hne
          exact absurd (Nat.mod_lt _ (List.length_pos_iff.mpr hne)) (not_lt.mpr hlen)
        exact List.eq_nil_of_subset_nil (hempty ▸ hmoved.alive)
      rw [hhome, hof, homeOf, hnil]
      rfl
    | some home =>
      have hlive := hinv.home_alive u hu home (hhome.trans hof)
      rw [hhome, hof, hkept home hof hlive]
  · rw [hhome, ← hsame, hkey]
    rfl
  · exact hhome key hkey

theorem Homed.calm (h : Homed cfg key w) (hcalm : Calm w w') : Homed cfg key w' where
  queue t ht hkey := by
    rw [hcalm.alive]
    exact h.queue t (hcalm.queue ht) hkey
  nodup := hcalm.alive ▸ h.nodup

theorem sweepWorker_kept (hnodup : w.alive.Nodup) (hkeeps : KeepsHome cfg key w.alive wid)
    (halive : w'.alive = w.alive.filter (· ≠ wid)) : Kept cfg key w w' := by
  intro home hhome hlive
  rw [halive] at hlive ⊢
  have hne : home ≠ wid := by simpa using (List.mem_filter.mp hlive).2
  by_cases hmem : wid ∈ w.alive
  · have hd : w.alive[w.alive.idxOf wid]? = some wid := by
      have hlt := List.idxOf_lt_length_iff.mpr hmem
      rw [List.getElem?_eq_getElem hlt, List.getElem_idxOf]
    rw [(homeOf_retire hnodup hd (by rw [hhome]; simpa using hne)).mpr (hkeeps hmem), hhome]
  · rw [List.filter_eq_self.mpr fun x hx => by
      simpa using fun heq : x = wid => hmem (heq ▸ hx), hhome]

/-- The workers are retired one after the other. -/
theorem sweepWorkers_homed {wids : List ℕ} (hwids : wids.Nodup) (hinv : Inv w [])
    (h : Homed cfg key w) (hkeeps : KeepsHomes cfg key w.alive
      (wids.filter fun wid => wid ∉ w.dead ∧ (w.workers wid).up = false)) :
    Homed cfg key (wids.foldl (World.sweepWorker cfg) w) ∧
      Kept cfg key w (wids.foldl (World.sweepWorker cfg) w) := by
  induction wids generalizing w with
  | nil => exact ⟨h, .of_eq rfl⟩
  | cons wid wids ih =>
    obtain ⟨hnot, hwids⟩ := List.nodup_cons.mp hwids
    by_cases hskip : wid ∈ w.dead ∨ (w.workers wid).up = true
    · have hsame : w.sweepWorker cfg wid = w := by
        unfold World.sweepWorker
        rw [if_pos hskip]
      rw [List.filter_cons_of_neg (by simp; tauto)] at hkeeps
      rw [List.foldl_cons, hsame]
      exact ih hwids hinv h hkeeps
    · obtain ⟨hmoved, halive, hdead⟩ := sweepWorker_moved cfg hskip
      rw [List.filter_cons_of_pos (by simpa using hskip)] at hkeeps
      have hkept := sweepWorker_kept h.nodup hkeeps.1 halive
      have hinv' : Inv (w.sweepWorker cfg wid) [] := hinv.sweepWorker wid
      have hrest : wids.filter (fun x => x ∉ (w.sweepWorker cfg wid).dead ∧
          ((w.sweepWorker cfg wid).workers x).up = false) =
            wids.filter fun x => x ∉ w.dead ∧ (w.workers x).up = false := by
        refine List.filter_congr fun x hx => ?_
        have hne : x ≠ wid := fun heq => hnot (heq ▸ hx)
        rw [hdead, (sweepWorker_frame cfg w wid).up x]
        simp [hne]
      obtain ⟨hhomed, hkept'⟩ := ih hwids hinv'
        (h.moved hmoved hkept hinv' (halive ▸ h.nodup.filter _)) (by
          rw [hrest, halive]
          exact hkeeps.2)
      exact ⟨hhomed, hkept.trans hkept' (Drift.foldl (sweepWorker_drift cfg) wids _).alive⟩

theorem Homed.sweep (h : Homed cfg key w) (hinv : Inv w [])
    (hkeeps : KeepsHomes cfg key w.alive (w.fallen cfg)) {m : Option Message} {now : ℕ}
    (hm : ∀ x ∈ m, x ∈ w.qres) :
    Homed cfg key (w.collect cfg m true now) ∧ Kept cfg key w (w.collect cfg m true now) := by
  have hread := read_calm w m
  have hdead : (w.read m).dead = w.dead ∧ ∀ wid, ((w.read m).workers wid).up = (w.workers wid).up := by
    cases m with
    | none => exact ⟨rfl, fun _ => rfl⟩
    | some m =>
      refine ⟨?_, (onDone_frame { w with qres := w.qres.erase m } m).up⟩
      unfold World.read World.onDone
      dsimp only
      cases w.reqs m.rid with
      | none => rfl
      | some r =>
        dsimp only
        split_ifs <;> rfl
  have hinv' : Inv (w.read m) [] := by
    cases m with
    | none => exact hinv
    | some m => exact hinv.onDone (hm m rfl)
  obtain ⟨hhomed, hkept⟩ := sweepWorkers_homed (List.nodup_range (n := cfg.workers))
    hinv' (h.calm hread) (by
      simp only [hread.alive, hdead]
      exact hkeeps)
  have hlast := collect_sweep cfg w m now
  refine ⟨hhomed.calm hlast, fun home hhome hlive => ?_⟩
  rw [hlast.alive] at hlive ⊢
  exact hkept home (hread.alive ▸ hhome) hlive

/-- A steady act leaves the key with a home that lives. -/
theorem Homed.step {a : Act} (h : Homed cfg key w) (hinv : Inv w []) (hok : Steady cfg key w a)
    (hs : Moves cfg w a w') : Homed cfg key w' ∧ Kept cfg key w w' := by
  cases hs with
  | submit s now order hs =>
    have hless : Calm w { w with submits := w.submits.erase s } := { Calm.refl w with }
    have hinv' : Inv { w with submits := w.submits.erase s } [] := { hinv with }
    have halive := (submit_tasks cfg { w with submits := w.submits.erase s } s now order).1
    exact ⟨(h.calm hless).moved (submit_moved cfg _ s now order) (.of_eq halive)
      (hinv'.submit s now order) (by
        rw [halive]
        exact h.nodup), .of_eq halive⟩
  | collect m sweeps now hc hm =>
    cases sweeps with
    | false =>
      have hcalm := collect_calm cfg w m now
      exact ⟨h.calm hcalm, .of_eq hcalm.alive⟩
    | true => exact h.sweep hinv hok hm
  | check | wait | rest | finish | closeCheck | closeSet | closeLock | closeFinish | take | answer
  | die | lose => exact ⟨h.calm { Calm.refl w with }, .of_eq rfl⟩

theorem Reach.homed (h : Reach cfg (Steady cfg key) w) : Homed cfg key w := by
  induction h with
  | start =>
    exact {
      queue := fun _ ht => nomatch ht
      nodup := List.nodup_range }
  | step a h hok hs ih => exact (ih.step h.inv hok (step_moves hs)).1

/-- Acts that satisfy `ok`, one after another. -/
inductive Later (cfg : Config) (ok : World → Act → Prop) (w : World) : World → Prop
  | refl : Later cfg ok w w
  | step {v v' : World} (a : Act) (h : Later cfg ok w v) (hok : ok v a)
      (hs : v.step cfg a = some v') : Later cfg ok w v'

theorem Later.reach {ok : World → Act → Prop} (h : Later cfg ok w w') (hw : Reach cfg ok w) :
    Reach cfg ok w' := by
  induction h with
  | refl => exact hw
  | step a _ hok hs ih => exact ih.step a hok hs

theorem Later.kept (h : Later cfg (Steady cfg key) w w') (hw : Reach cfg (Steady cfg key) w) :
    Kept cfg key w w' := by
  induction h with
  | refl => exact .of_eq rfl
  | step a h hok hs ih =>
    have hreach := h.reach hw
    have hmoves := step_moves hs
    exact ih.trans (hreach.homed.step hreach.inv hok hmoves).2 (step_drift hmoves).alive

/-- A worker has tasks of its own queue or of the shared one. -/
theorem Reach.served {ok : World → Act → Prop} (h : Reach cfg ok w) :
    ∀ wid t, w.inflight wid = some t → t.home = some wid ∨ t.home = none := by
  induction h with
  | start => exact fun _ _ ht => nomatch ht
  | step a _ _ hs ih =>
    intro wid t ht
    obtain ht | hhome := (step_drift (step_moves hs)).inflight wid t ht
    · exact ih wid t ht
    · exact hhome

/-- What a submission queues or hands out with the key is for the home of the key. -/
theorem submit_home {s : Submission} {now : ℕ} {order : ℕ → ℤ} (hinv : Inv w [])
    (hs : w.step cfg (.submit s now order) = some w') (ht : w'.Waits [] t)
    (hrid : t.rid = w.nextRid) (hkey : t.key = some key) :
    t.home = homeOf cfg w.alive key ∧ w'.alive = w.alive := by
  obtain ⟨-, rfl⟩ := of_ite_some hs
  obtain ⟨halive, -, htasks⟩ := submit_tasks cfg { w with submits := w.submits.erase s } s now order
  have hold {u : Task} (hu : w.Waits [] u) : u.rid ≠ w.nextRid := (hinv.waits_lt u hu).ne
  have hnew (h : t ∈ w.queue ∨ t.rid = w.nextRid ∧ ∀ key, t.key = some key →
      t.home = homeOf cfg w.alive key) : t.home = homeOf cfg w.alive key := by
    obtain h | h := h
    · exact absurd hrid (hold (.inr (.inl h)))
    · exact h.2 key hkey
  refine ⟨?_, halive⟩
  obtain hnil | hqueue | ⟨wid, hwid⟩ := ht
  · cases hnil
  · exact hnew ((htasks t).1 hqueue)
  · obtain hwid | ⟨hqueue, -⟩ := (htasks t).2 wid hwid
    · exact absurd hrid (hold (.inr (.inr ⟨wid, hwid⟩)))
    · exact hnew hqueue

/-- **Affinity.** A queued task gets another home only from a home that has died, and a worker has no
tasks of another home. As long as the deaths leave a key with its home, all queued tasks of the key
have one home, and a request of the key waits for the worker that an earlier one had as its home, if
that worker lives. -/
theorem session_affinity (cfg : Config) (key : Text) :
    (∀ w, Reach cfg (fun _ _ => True) w →
      (∀ wid t, w.inflight wid = some t → t.home = some wid ∨ t.home = none) ∧
      ∀ a w', w.step cfg a = some w' → ∀ t ∈ w.queue, ∀ u ∈ w'.queue, u.id = t.id →
        u.home = t.home ∨ ∃ home, t.home = some home ∧ home ∉ w'.alive) ∧
    ∀ w, Reach cfg (Steady cfg key) w →
      (∀ t ∈ w.queue, ∀ u ∈ w.queue, t.key = some key → u.key = some key → t.home = u.home) ∧
      ∀ s now order v t home, w.step cfg (.submit s now order) = some v →
        v.Waits [] t → t.rid = w.nextRid → t.key = some key → t.home = some home →
        ∀ w', Later cfg (Steady cfg key) v w' → home ∈ w'.alive →
        ∀ s' now' order' v' t', w'.step cfg (.submit s' now' order') = some v' →
          v'.Waits [] t' → t'.rid = w'.nextRid → t'.key = some key → t'.home = some home := by
  refine ⟨fun w h => ⟨h.served, fun a w' hs t ht u hu hid => ?_⟩, fun w h => ⟨?_, ?_⟩⟩
  · have hinv := h.inv
    obtain ⟨v, hv, hcore, hhome⟩ | hnew := (step_drift (step_moves hs)).queue u hu
    · have heq : v = t := List.inj_on_of_nodup_map hinv.nodup hv ht
        ((Task.id_of_core hcore).symm.trans hid)
      exact heq ▸ hhome
    · have hlt := hinv.waits_lt t (.inr (.inl ht))
      have hrid : u.rid = t.rid := congrArg Prod.fst hid
      omega
  · intro t ht u hu htkey hukey
    rw [h.homed.queue t ht htkey, h.homed.queue u hu hukey]
  · intro s now order v t home hs ht hrid hkey hhome w' hlater hlive s' now' order' v' t' hs' ht'
      hrid' hkey'
    have hv : Reach cfg (Steady cfg key) v := h.step (.submit s now order) trivial hs
    obtain ⟨hof, halive⟩ := submit_home h.inv hs ht hrid hkey
    obtain ⟨hof', -⟩ := submit_home (hlater.reach hv).inv hs' ht' hrid' hkey'
    rw [hof']
    exact hlater.kept hv home (by rw [halive, ← hof, hhome]) hlive

/-! ### Runs -/

/-- The acts one after another, as long as they are steady. -/
def World.steadyRun (cfg : Config) (key : Text) : World → List Act → Option World
  | w, [] => some w
  | w, a :: acts =>
      if Steady cfg key w a then (w.step cfg a).bind fun w => steadyRun cfg key w acts else none

theorem Later.head {ok : World → Act → Prop} {a : Act} (hok : ok w a)
    (hs : w.step cfg a = some w') (h : Later cfg ok w' w'') : Later cfg ok w w'' := by
  induction h with
  | refl => exact Later.refl.step a hok hs
  | step b _ hok hs ih => exact ih.step b hok hs

theorem later_of_steadyRun {acts : List Act} (h : w.steadyRun cfg key acts = some w') :
    Later cfg (Steady cfg key) w w' := by
  induction acts generalizing w with
  | nil =>
    obtain rfl := Option.some.inj h
    exact .refl
  | cons a acts ih =>
    rw [World.steadyRun] at h
    split_ifs at h with hok
    obtain ⟨v, hs, h⟩ := Option.bind_eq_some_iff.mp h
    exact (ih h).head hok hs

/-- Three workers, and the hash of the key below. -/
def threeWorkers : Config :=
  { twoWorkers with
    workers := 3
    affinity := true
    planner := none
    crc32 := fun _ => 2933589571 }

/-- A call with a session key; its home among three workers is worker 1. -/
def keyed : Submission := ⟨"a".toList, some "conv-4".toList, .session⟩

/-- A worker dies, and the collector sees it. -/
def retire (wid : ℕ) : List Act := [.die wid, .wait, .collect none true 0, .finish]

/-- The death of worker 2 leaves the key with worker 1. -/
theorem session_affinity_kept : ∃ (w' v' : World) (t' : Task), 1 ∈ w'.alive ∧
    w'.step threeWorkers (.submit keyed 0 fun i => i) = some v' ∧ t' ∈ v'.queue ∧
    t'.rid = w'.nextRid ∧ t'.home = some 1 := by
  have hrun : ((World.start threeWorkers).steadyRun threeWorkers "conv-4".toList
      [.check keyed, .check keyed]).any (fun w =>
        (w.step threeWorkers (.submit keyed 0 fun i => i)).any fun v =>
          decide ((v.inflight 1).map (fun t => (t.rid, t.key, t.home)) =
            some (w.nextRid, some "conv-4".toList, some 1)) &&
          (v.steadyRun threeWorkers "conv-4".toList (retire 2)).any fun w' =>
            decide (1 ∈ w'.alive) && (w'.step threeWorkers (.submit keyed 0 fun i => i)).any fun v' =>
              v'.queue.any fun t' => t'.rid = w'.nextRid ∧ t'.key = some "conv-4".toList) = true := by
    decide
  obtain ⟨w, hw, hrun⟩ := (Option.any_eq_true _ _).mp hrun
  obtain ⟨v, hv, hrun⟩ := (Option.any_eq_true _ _).mp hrun
  obtain ⟨hfirst, hrun⟩ := Bool.and_eq_true_iff.mp hrun
  obtain ⟨w', hw', hrun⟩ := (Option.any_eq_true _ _).mp hrun
  obtain ⟨hlive, hrun⟩ := Bool.and_eq_true_iff.mp hrun
  obtain ⟨v', hv', hrun⟩ := (Option.any_eq_true _ _).mp hrun
  obtain ⟨t', ht', hrun⟩ := List.any_eq_true.mp hrun
  obtain ⟨hrid', hkey'⟩ := of_decide_eq_true hrun
  obtain ⟨t, ht, hfirst⟩ := Option.map_eq_some_iff.mp (of_decide_eq_true hfirst)
  obtain ⟨hrid, hfirst⟩ := Prod.mk.inj hfirst
  obtain ⟨hkey, hhome⟩ := Prod.mk.inj hfirst
  have hreach := (later_of_steadyRun hw).reach .start
  exact ⟨w', v', t', of_decide_eq_true hlive, hv', ht', hrid',
    ((session_affinity threeWorkers "conv-4".toList).2 w hreach).2 keyed 0 _ v t 1 hv
      (.inr (.inr ⟨1, ht⟩)) hrid hkey hhome w' (later_of_steadyRun hw') (of_decide_eq_true hlive)
      keyed 0 _ v' t' hv' (.inr (.inl ht')) hrid' hkey'⟩

/-- The death of worker 0 moves the key from worker 1, which lives, to worker 2. -/
theorem session_affinity_fails : ∃ w,
    (World.start threeWorkers).run threeWorkers ([.check keyed, .check keyed, .check keyed,
      .check keyed, .submit keyed 0 (fun i => i), .submit keyed 0 fun i => i] ++ retire 0 ++
      [.submit keyed 0 (fun i => i), .submit keyed 0 fun i => i]) = some w ∧
    1 ∈ w.alive ∧ (w.queue.map fun t => (t.key, t.home)) =
      [(some "conv-4".toList, some 2), (some "conv-4".toList, some 1)] := by
  have hrun : ((World.start threeWorkers).run threeWorkers ([.check keyed, .check keyed,
      .check keyed, .check keyed, .submit keyed 0 (fun i => i), .submit keyed 0 fun i => i] ++
      retire 0 ++ [.submit keyed 0 (fun i => i), .submit keyed 0 fun i => i])).map (fun w =>
        (decide (1 ∈ w.alive), w.queue.map fun t => (t.key, t.home))) =
      some (true, [(some "conv-4".toList, some 2), (some "conv-4".toList, some 1)]) := by
    decide
  obtain ⟨w, hw, hfacts⟩ := Option.map_eq_some_iff.mp hrun
  obtain ⟨halive, hqueue⟩ := Prod.mk.inj hfacts
  exact ⟨w, hw, of_decide_eq_true halive, hqueue⟩

end Toktier.Sched
