import Toktier.Integrations.SchedRuns

/-!
# No chunk is lost, and what a request gets back

## Main results

* `chunks_kept`: a task of an unfinished request is in one place, and a result without an error
  is the answers of the chunks of its request, in their order.
-/
namespace Toktier.Sched

variable {cfg : Config} {w : World}

/-- Where a task of an unfinished request can be. -/
inductive Place
  | queue (home : Option ℕ)
  | worker (wid : ℕ)
  | answered

/-- The task of a request with an index is in a place. -/
def World.At (w : World) (rid i : ℕ) : Place → Prop
  | .queue home => ∃ t ∈ w.queue, t.id = (rid, i) ∧ t.home = home
  | .worker wid => ∃ t, w.inflight wid = some t ∧ t.id = (rid, i)
  | .answered => ∃ r p, w.reqs rid = some r ∧ r.parts i = some p

theorem Inv.at_unique {rid i : ℕ} {p q : Place} (h : Inv w []) (hp : w.At rid i p)
    (hq : w.At rid i q) : p = q := by
  have hqueue {t u : Task} (ht : t ∈ w.queue) (hu : u ∈ w.queue) (hid : t.id = u.id) : t = u :=
    List.inj_on_of_nodup_map h.nodup ht hu hid
  have hnone {t : Task} (ht : w.Waits [] t) (hid : t.id = (rid, i)) {r : Request} {p : List ℤ}
      (hr : w.reqs rid = some r) (hpart : r.parts i = some p) : False := by
    obtain ⟨rfl, rfl⟩ := Prod.mk.inj hid
    cases (h.waits_part t ht r hr).symm.trans hpart
  cases p with
  | queue home =>
    obtain ⟨t, ht, hid, rfl⟩ := hp
    cases q with
    | queue home =>
      obtain ⟨u, hu, huid, rfl⟩ := hq
      rw [hqueue ht hu (hid.trans huid.symm)]
    | worker wid =>
      obtain ⟨u, hu, huid⟩ := hq
      exact absurd (hid.trans huid.symm) (h.apart t ht wid u hu)
    | answered =>
      obtain ⟨r, p, hr, hp⟩ := hq
      exact (hnone (.inr (.inl ht)) hid hr hp).elim
  | worker wid =>
    obtain ⟨t, ht, hid⟩ := hp
    cases q with
    | queue home =>
      obtain ⟨u, hu, huid, -⟩ := hq
      exact absurd (huid.trans hid.symm) (h.apart u hu wid t ht)
    | worker wid' =>
      obtain ⟨u, hu, huid⟩ := hq
      rw [h.inflight_inj wid wid' t u ht hu (hid.trans huid.symm)]
    | answered =>
      obtain ⟨r, p, hr, hp⟩ := hq
      exact (hnone (.inr (.inr ⟨wid, ht⟩)) hid hr hp).elim
  | answered =>
    obtain ⟨r, p, hr, hp⟩ := hp
    cases q with
    | queue home =>
      obtain ⟨u, hu, huid, -⟩ := hq
      exact (hnone (.inr (.inl hu)) huid hr hp).elim
    | worker wid =>
      obtain ⟨u, hu, huid⟩ := hq
      exact (hnone (.inr (.inr ⟨wid, hu⟩)) huid hr hp).elim
    | answered => rfl

theorem Inv.at_some {rid i : ℕ} {r : Request} (h : Inv w []) (hr : w.reqs rid = some r)
    (hi : i < r.tasks.length) : ∃ p, w.At rid i p := by
  cases hp : r.parts i with
  | some p => exact ⟨.answered, r, p, hr, hp⟩
  | none =>
    obtain ⟨t, ht, hid⟩ := h.req_waits rid r hr i hi hp
    rcases ht with ht | ht | ⟨wid, ht⟩
    · cases ht
    · exact ⟨.queue t.home, t, ht, hid, rfl⟩
    · exact ⟨.worker wid, t, ht, hid⟩

/-- An id has one entry in the log. -/
theorem Inv.log_single {t : Task} {a : Answer} (h : Inv w []) (ht : (t, a) ∈ w.log) :
    (w.log.filter fun e => e.1.id = t.id) = [(t, a)] := by
  have hnodup := h.log_nodup
  rw [World.logged] at hnodup
  generalize w.log = l at ht hnodup
  induction l with
  | nil => cases ht
  | cons e l ih =>
    obtain ⟨hnot, hnodup⟩ := List.nodup_cons.mp hnodup
    rcases List.mem_cons.mp ht with rfl | ht
    · rw [List.filter_cons_of_pos (by simp)]
      refine congrArg (List.cons _) (List.filter_eq_nil_iff.mpr fun x hx hid => hnot ?_)
      exact List.mem_map.mpr ⟨x, hx, of_decide_eq_true hid⟩
    · rw [List.filter_cons_of_neg, ih ht hnodup]
      intro hid
      exact hnot (List.mem_map.mpr ⟨(t, a), ht, (of_decide_eq_true hid).symm⟩)

/-- **Chunks.** In every state that any acts reach, a task of an unfinished request is in one
queue, in flight at one worker or answered; no queue holds two entries of a task; and a result
without an error is the ids of the chunks of its request in the order of their index, where
every chunk was answered once. -/
theorem chunks_kept (cfg : Config) (w : World) (h : Reach cfg (fun _ _ => True) w) :
    (∀ rid r, w.reqs rid = some r → w.chunks rid = r.tasks.map Task.text ∧
      ∀ i < r.tasks.length, ∃! p, w.At rid i p) ∧
    (w.queue.map Task.id).Nodup ∧
    ∀ c ∈ w.calls, c.2.error = none → ∃ parts : ℕ → List ℤ,
      c.2.ids = some ((List.range (w.chunks c.1).length).flatMap parts) ∧
      ∀ i < (w.chunks c.1).length, ∃ t,
        (w.log.filter fun e => e.1.id = (c.1, i)) = [(t, Except.ok (parts i))] ∧
        (w.chunks c.1)[i]? = some t.text := by
  have hinv := h.inv
  refine ⟨fun rid r hr => ⟨hinv.req_chunks rid r hr, fun i hi => ?_⟩, hinv.nodup,
    fun c hc he => ?_⟩
  · obtain ⟨p, hp⟩ := hinv.at_some hr hi
    exact ⟨p, hp, fun q hq => hinv.at_unique hq hp⟩
  · obtain ⟨parts, hids, hparts⟩ := (hinv.calls c hc).2 he
    refine ⟨parts, hids, fun i hi => ?_⟩
    obtain ⟨t, ht, hid⟩ := hparts i hi
    refine ⟨t, hid ▸ hinv.log_single ht, ?_⟩
    have htext := hinv.log_text _ ht
    obtain ⟨hrid, hindex⟩ := Prod.mk.inj hid
    rwa [hrid, hindex] at htext

theorem Reach.run {ok : World → Act → Prop} {acts : List Act} {w' : World} (h : Reach cfg ok w)
    (hok : ∀ a ∈ acts, ∀ w, ok w a) (hrun : w.run cfg acts = some w') : Reach cfg ok w' := by
  induction acts generalizing w with
  | nil =>
    obtain rfl := Option.some.inj hrun
    exact h
  | cons a acts ih =>
    obtain ⟨v, hv, hrun⟩ := Option.bind_eq_some_iff.mp hrun
    exact ih (h.step a (hok a List.mem_cons_self w) hv)
      (fun b hb => hok b (List.mem_cons_of_mem a hb)) hrun

/-- Two workers, and a planner that cuts in two. -/
def twoWorkers : Config where
  workers := 2
  chunkMinChars := 2
  chunkTarget := 2
  kmax := 2
  idleRule := false
  affinity := false
  workerTimeout := 0
  planner := some fun text _ => some [(0, 2), (2, text.length)]
  crc32 := fun _ => 0
  setOrder := id
  setOrder_perm := .refl

/-- A text of two chunks; the second chunk is answered first. -/
def twoChunks : List Act :=
  [.check ⟨"abcd".toList, none, .free⟩, .submit ⟨"abcd".toList, none, .free⟩ 0 fun i => i, .wait,
    .take 0, .take 1, .answer 1 (.ok [3]), .answer 0 (.ok [1, 2]),
    .collect (some ⟨0, 1, 1, .ok [3]⟩) false 0, .finish, .wait,
    .collect (some ⟨0, 0, 0, .ok [1, 2]⟩) false 0, .finish]

theorem chunks_kept_twoChunks : ∃ w, (World.start twoWorkers).run twoWorkers twoChunks = some w ∧
    w.calls.map (fun c => (c.1, c.2.ids, c.2.error)) = [(0, some [1, 2, 3], none)] ∧
    ∀ c ∈ w.calls, c.2.error = none → ∃ parts : ℕ → List ℤ,
      c.2.ids = some ((List.range (w.chunks c.1).length).flatMap parts) ∧
      ∀ i < (w.chunks c.1).length, ∃ t,
        (w.log.filter fun e => e.1.id = (c.1, i)) = [(t, Except.ok (parts i))] ∧
        (w.chunks c.1)[i]? = some t.text := by
  have hcalls : ((World.start twoWorkers).run twoWorkers twoChunks).map (fun w =>
      w.calls.map fun c => (c.1, c.2.ids, c.2.error)) = some [(0, some [1, 2, 3], none)] := by
    decide
  obtain ⟨w, hw, hcalls⟩ := Option.map_eq_some_iff.mp hcalls
  exact ⟨w, hw, hcalls,
    (chunks_kept twoWorkers w (Reach.start.run (fun _ _ _ => trivial) hw)).2.2⟩

end Toktier.Sched
