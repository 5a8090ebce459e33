import Toktier.Chunked.Encode
import Toktier.Chunked.Survival
import Toktier.Routing.RouterLaws

/-!
# Chunk-parallel encoding is serial encoding

The cuts of a plan are certified on the whole text. Taken from the last to the first, each is a
certified cut of what the later ones leave before it, so the encodings of the chunks concatenate
to the encoding of the text. The jobs, in whatever order they take their turns, end with the
row of each chunk in its slot.

The default floor of the planner divides by a machine product; where it wraps to zero, and
nowhere else, the chunked route panics.

## Main definitions

* `Serial`: the encoder and the engine it is assumed to agree with.
* `Wraps`: the requests that reach the wrapped product.

## Main results

* `encode_covers`: the encodings of the spans of a plan.
* `JobsInv.run`: the jobs.
* `chunkedEncodeIds_exact_iff`: the chunked route of an engine and of a router over it.
-/
namespace Toktier.Chunked

open Toktier.Lib Toktier.Lib.Utf8 Toktier.StoreCore Toktier.Routing

variable {W : Type}

/-! ## Certified cuts -/

/-- The planner's certificates and the engine's answers are those of an encoder. -/
structure Serial (A : AhoCorasick) (engine : ChunkEngine W) (E : Text → List UInt32) : Prop where
  /-- The encoder can be cut wherever the planner certifies a cut. -/
  cut : ∀ t p, Certified A engine.encoder engine.literals t p → E t = E (t.take p) ++ E (t.drop p)
  /-- The guarded gate returns the encoding, whichever worker it is given. -/
  answers : ∃ source : Text → FastEncodeSource, engine.fast.Answers fun text =>
    .ok (E text, source text)
  /-- An admitted artifact normalizes to a composed form. -/
  composes : engine.encoder.admitted = true → Composes engine.fast.reference.toReferenceEngine

section
variable {A : AhoCorasick} {engine : ChunkEngine W} {E : Text → List UInt32} {t : Text}
  {spans : List (ℕ × ℕ)} {a p q : ℕ}

theorem Serial.certified_take (h : Serial A engine E) (hadmitted : engine.encoder.admitted = true)
    (hp : Certified A engine.encoder engine.literals t p)
    (hq : Certified A engine.encoder engine.literals t q) (hpq : p < q) :
    Certified A engine.encoder engine.literals (t.take q) p := by
  obtain ⟨refusal, hnew⟩ := new_eq_rustPlanner engine.document engine.literals engine.fast.boundary
    engine.fast.reference.toReferenceEngine
  have hencoder : engine.encoder = _ := hnew
  rw [hencoder] at hp hq ⊢
  refine hp.take (fun reference hr => ?_) hq hpq
  unfold ruleOf at hr
  split at hr
  · cases hr
    exact h.composes hadmitted
  · cases hr

/-- The encoding of the spans behind a certified cut. -/
theorem Serial.encode_covers (h : Serial A engine E) (hadmitted : engine.encoder.admitted = true)
    (hcovers : Covers a t.length spans)
    (hcert : ∀ span ∈ spans, Certified A engine.encoder engine.literals t span.1) :
    E t = E (t.take a) ++ (spans.map fun span => E ((t.take span.2).drop span.1)).flatten := by
  generalize hc : t.length = c at hcovers
  induction hcovers with
  | @last a b hab =>
      subst hc
      rw [h.cut t a (hcert (a, t.length) (by simp))]
      simp
  | @cons a b c rest hab hrest ih =>
      subst hc
      have ha := hcert (a, b) (by simp)
      obtain ⟨-, s, hs⟩ : ∃ _ : Unit, ∃ s ∈ rest, s.1 = b := by
        cases hrest with
        | last _ => exact ⟨(), _, List.mem_singleton.mpr rfl, rfl⟩
        | cons _ _ => exact ⟨(), _, List.mem_cons_self, rfl⟩
      have hb : Certified A engine.encoder engine.literals t b := by
        rw [← hs.2]
        exact hcert s (by simp [hs.1])
      -- the earlier cut is one of what the later one leaves
      have hpre := h.cut (t.take b) a (h.certified_take hadmitted ha hb hab)
      rw [List.take_take, min_eq_left (Nat.le_of_lt hab)] at hpre
      rw [ih (fun span hspan => hcert span (by simp [hspan])) rfl, hpre, List.map_cons,
        List.flatten_cons, List.append_assoc]

/-- The encodings of the chunks of a valid plan concatenate to the encoding of the text. -/
theorem Serial.encode_plan (h : Serial A engine E) (hadmitted : engine.encoder.admitted = true)
    {k : ℕ} {minChunk : Option ℕ} {plan : ChunkPlan}
    (hplan : ValidPlan A engine.encoder engine.literals t k minChunk plan) :
    E t = (plan.spans.map fun span => E ((t.take span.2).drop span.1)).flatten := by
  have hcert : ∀ span ∈ plan.spans.drop 1, Certified A engine.encoder engine.literals t span.1 :=
    fun span hspan => hplan.certified span.1 (List.mem_map_of_mem hspan)
  have hcovers := hplan.covers
  generalize plan.spans = spans at *
  cases hcovers with
  | last _ => simp
  | @cons _ b _ rest hab hrest =>
      rw [h.encode_covers hadmitted hrest hcert, List.map_cons, List.flatten_cons, List.drop_zero]

end

/-! ## Jobs -/

section
variable {fast : CorrectedCpu W} {primary : Mutex W} {text : Text} {E : Text → List UInt32}
  {source : Text → FastEncodeSource} {spans : List (ℕ × ℕ)} {pieces : List Text} {jobs : Jobs W}
  {i j : ℕ}

/-- No job failed, and every job that is done has the row of its chunk. -/
structure JobsInv (E : Text → List UInt32) (pieces : List Text) (jobs : Jobs W) : Prop where
  length : jobs.slots.length = pieces.length
  failed : jobs.failed = none
  row : ∀ (i : ℕ) (outcome : Decode EngineError ChunkRow) (piece : Text),
    jobs.slots[i]? = some (.Done outcome) → pieces[i]? = some piece →
      ∃ row, outcome = .ok row ∧ row.ids = E piece

/-- The slot of a job is set to one that is not done, or to the row of its chunk. -/
theorem JobsInv.set (h : JobsInv E pieces jobs) {slot : JobSlot W} (free : List W) (forked : ℕ)
    (hslot : ∀ (outcome : Decode EngineError ChunkRow) (piece : Text), slot = .Done outcome →
      pieces[i]? = some piece → ∃ row, outcome = .ok row ∧ row.ids = E piece) :
    JobsInv E pieces { jobs with free := free, forked := forked, slots := jobs.slots.set i slot } where
  length := by
    rw [List.length_set]
    exact h.length
  failed := h.failed
  row j outcome piece hj hpiece := by
    rw [List.getElem?_set] at hj
    split_ifs at hj with hij hlt
    · subst hij
      exact hslot outcome piece (Option.some.inj hj) hpiece
    · exact h.row j outcome piece hj hpiece

/-- One turn keeps the rows of the chunks. -/
theorem JobsInv.tick (hfull : fast.Answers fun text => .ok (E text, source text))
    (hlock : primary.poisoned = false)
    (hpieces : ∀ (i : ℕ) (span : ℕ × ℕ) (piece : Text), spans[i]? = some span → pieces[i]? = some piece →
      (strSlice text span.1 span.2 : Decode EngineError Text) = .ok piece)
    (h : JobsInv E pieces jobs) : JobsInv E pieces (jobs.tick fast primary text spans i) := by
  unfold Jobs.tick
  split
  · -- a waiting job takes a worker
    unfold Jobs.checkout
    split
    · exact h.set _ _ fun outcome piece hslot => by cases hslot
    · rw [Mutex.lock, if_neg (by rw [hlock]; decide)]
      exact h.set _ _ fun outcome piece hslot => by cases hslot
  · -- a job with a worker encodes its chunk
    rename_i span worker cold hspan hslot
    have hi : i < pieces.length := by
      rw [← h.length]
      exact (List.getElem?_eq_some_iff.mp hslot).1
    have hpiece := List.getElem?_eq_getElem hi
    unfold Jobs.encode
    rw [hpieces i span _ hspan hpiece]
    dsimp only
    rw [hfull]
    refine h.set _ _ fun outcome piece hdone hpiece' => ?_
    rw [hpiece] at hpiece'
    cases hpiece'
    cases hdone
    exact ⟨_, rfl, rfl⟩
  · exact h

/-- The job of chunk `i` is done. -/
def IsDone (jobs : Jobs W) (i : ℕ) : Prop := ∃ outcome, jobs.slots[i]? = some (.Done outcome)

theorem isDone_set {free : List W} {forked : ℕ} {failed : Option (Fault EngineError)}
    {slot : JobSlot W} (h : IsDone jobs j) (hij : ∀ outcome, jobs.slots[i]? ≠ some (.Done outcome)) :
    IsDone ⟨free, forked, jobs.slots.set i slot, failed⟩ j := by
  obtain ⟨outcome, hj⟩ := h
  refine ⟨outcome, ?_⟩
  have hne : i ≠ j := by
    rintro rfl
    exact hij outcome hj
  rw [List.getElem?_set_ne hne, hj]

/-- A job that is done stays done. -/
theorem IsDone.tick (h : IsDone jobs j) : IsDone (jobs.tick fast primary text spans i) j := by
  unfold Jobs.tick
  split
  · rename_i hslot
    have hnot : ∀ outcome, jobs.slots[i]? ≠ some (.Done outcome) := by
      intro outcome hdone
      rw [hslot] at hdone
      cases hdone
    unfold Jobs.checkout
    split
    · exact isDone_set h hnot
    · split
      · exact isDone_set h hnot
      · exact isDone_set h hnot
  · rename_i hslot
    have hnot : ∀ outcome, jobs.slots[i]? ≠ some (.Done outcome) := by
      intro outcome hdone
      rw [hslot] at hdone
      cases hdone
    unfold Jobs.encode
    split
    · exact isDone_set h hnot
    · exact isDone_set h hnot
  · exact h

/-- A job has a worker, or is done. -/
def IsStarted (jobs : Jobs W) (i : ℕ) : Prop :=
  IsDone jobs i ∨ ∃ worker cold, jobs.slots[i]? = some (.Held worker cold)

theorem isStarted_tick (hlen : jobs.slots.length = spans.length) (hi : i < spans.length) :
    IsStarted (jobs.tick fast primary text spans i) i := by
  have hspan := List.getElem?_eq_getElem hi
  have hset : ∀ slot, (jobs.slots.set i slot)[i]? = some slot := fun slot => by
    rw [List.getElem?_set_self (by omega)]
  unfold Jobs.tick
  rw [hspan]
  cases hslot : jobs.slots[i]? with
  | none =>
      rw [List.getElem?_eq_none_iff] at hslot
      omega
  | some slot =>
      cases slot with
      | Waiting =>
          dsimp only
          unfold Jobs.checkout
          split
          · exact Or.inr ⟨_, _, hset _⟩
          · split
            · exact Or.inl ⟨_, hset _⟩
            · exact Or.inr ⟨_, _, hset _⟩
      | Held worker cold =>
          dsimp only
          unfold Jobs.encode
          split
          · exact Or.inl ⟨_, hset _⟩
          · exact Or.inl ⟨_, hset _⟩
      | Done outcome => exact Or.inl ⟨outcome, hslot⟩

theorem isDone_tick (hlen : jobs.slots.length = spans.length) (hi : i < spans.length)
    (h : IsStarted jobs i) : IsDone (jobs.tick fast primary text spans i) i := by
  rcases h with h | ⟨worker, cold, hslot⟩
  · exact h.tick
  · have hset : ∀ slot, (jobs.slots.set i slot)[i]? = some slot := fun slot => by
      rw [List.getElem?_set_self (by omega)]
    unfold Jobs.tick
    rw [List.getElem?_eq_getElem hi, hslot]
    dsimp only
    unfold Jobs.encode
    split
    · exact ⟨_, hset _⟩
    · exact ⟨_, hset _⟩

theorem length_tick : (jobs.tick fast primary text spans i).slots.length = jobs.slots.length := by
  unfold Jobs.tick
  split
  · unfold Jobs.checkout
    split
    · exact List.length_set
    · split
      · exact List.length_set
      · exact List.length_set
  · unfold Jobs.encode
    split
    · exact List.length_set
    · exact List.length_set
  · rfl

theorem length_foldl_tick (order : List ℕ) :
    (order.foldl (Jobs.tick fast primary text spans) jobs).slots.length = jobs.slots.length := by
  induction order generalizing jobs with
  | nil => rfl
  | cons i order ih => rw [List.foldl_cons, ih, length_tick]

theorem IsDone.foldl_tick (h : IsDone jobs i) (order : List ℕ) :
    IsDone (order.foldl (Jobs.tick fast primary text spans) jobs) i := by
  induction order generalizing jobs with
  | nil => exact h
  | cons j order ih => exact ih h.tick

/-- Whatever the order of the turns, every job is done in the end. -/
theorem isDone_run (fast : CorrectedCpu W) (primary : Mutex W) (text : Text) (order : List ℕ)
    (hlen : jobs.slots.length = spans.length) (hi : i < spans.length) :
    IsDone (jobs.run fast primary text order spans) i := by
  obtain ⟨before, after, hrange⟩ := List.append_of_mem (List.mem_range.mpr hi)
  unfold Jobs.run
  rw [hrange, List.flatMap_append, List.flatMap_cons, List.foldl_append, List.foldl_append,
    List.foldl_append]
  refine IsDone.foldl_tick ?_ _
  -- the two turns of the job
  have hlen' : ((before.flatMap fun i => [i, i]).foldl (Jobs.tick fast primary text spans)
      (order.foldl (Jobs.tick fast primary text spans) jobs)).slots.length = spans.length := by
    rw [length_foldl_tick, length_foldl_tick, hlen]
  exact isDone_tick (by rw [length_tick, hlen']) hi (isStarted_tick hlen' hi)

/-- Whatever the order of the turns, the jobs end with the rows of their chunks. -/
theorem JobsInv.run (hfull : fast.Answers fun text => .ok (E text, source text))
    (hlock : primary.poisoned = false)
    (hpieces : ∀ (i : ℕ) (span : ℕ × ℕ) (piece : Text), spans[i]? = some span → pieces[i]? = some piece →
      (strSlice text span.1 span.2 : Decode EngineError Text) = .ok piece)
    (h : JobsInv E pieces jobs) (order : List ℕ) :
    JobsInv E pieces (jobs.run fast primary text order spans) := by
  unfold Jobs.run
  induction order ++ (List.range spans.length).flatMap (fun i => [i, i]) generalizing jobs with
  | nil => exact h
  | cons i order ih => exact ih (h.tick hfull hlock hpieces)

/-- The rows of finished jobs, in the order of the chunks. -/
theorem ids_filterMap_rowOf {slots : List (JobSlot W)} (hlen : slots.length = pieces.length)
    (h : ∀ (i : ℕ) (piece : Text), pieces[i]? = some piece →
      ∃ row, slots[i]? = some (.Done (.ok row)) ∧ row.ids = E piece) :
    (slots.filterMap Jobs.rowOf).map ChunkRow.ids = pieces.map E := by
  induction pieces generalizing slots with
  | nil => rw [List.eq_nil_of_length_eq_zero hlen]; rfl
  | cons piece pieces ih =>
      obtain ⟨slot, slots, rfl⟩ := List.exists_cons_of_length_pos (l := slots) (by rw [hlen]; simp)
      obtain ⟨row, hslot, hids⟩ := h 0 piece rfl
      have hslot : slot = .Done (.ok row) := by simpa using hslot
      have hrest := ih (by simpa using hlen) fun i piece' hpiece => by
        simpa using h (i + 1) piece' (by simpa using hpiece)
      have hrow : Jobs.rowOf (.Done (.ok row) : JobSlot W) = some row := rfl
      rw [hslot, List.filterMap_cons_some hrow, List.map_cons, List.map_cons, hids, hrest]

/-- The jobs return the encodings of the chunks. -/
theorem collect_run (hfull : fast.Answers fun text => .ok (E text, source text))
    (hlock : primary.poisoned = false) (hlen : spans.length = pieces.length)
    (hpieces : ∀ (i : ℕ) (span : ℕ × ℕ) (piece : Text), spans[i]? = some span → pieces[i]? = some piece →
      (strSlice text span.1 span.2 : Decode EngineError Text) = .ok piece)
    (order : List ℕ) (free : List W) (forked : ℕ) :
    ∃ rows, ((Jobs.start free forked spans.length).run fast primary text order spans).collect = .ok rows ∧
      rows.map ChunkRow.ids = pieces.map E := by
  have hstart : JobsInv E pieces (Jobs.start free forked spans.length) := by
    refine ⟨by rw [Jobs.start, List.length_replicate, hlen], rfl, fun i outcome piece hi _ => ?_⟩
    rw [Jobs.start, List.getElem?_replicate] at hi
    split_ifs at hi
    cases hi
  have hinv := hstart.run hfull hlock hpieces order
  have hslots : (Jobs.start free forked spans.length : Jobs W).slots.length = spans.length := by
    rw [Jobs.start, List.length_replicate]
  refine ⟨_, by rw [Jobs.collect, hinv.failed], ids_filterMap_rowOf hinv.length fun i piece hpiece => ?_⟩
  have hi : i < spans.length := by
    rw [hlen]
    exact (List.getElem?_eq_some_iff.mp hpiece).1
  obtain ⟨outcome, hdone⟩ := isDone_run fast primary text order hslots hi
  obtain ⟨row, rfl, hids⟩ := hinv.row i outcome piece hdone hpiece
  exact ⟨row, hdone, hids⟩

end

/-! ## The chunked route -/

theorem Covers.le {a c : ℕ} {spans : List (ℕ × ℕ)} (h : Covers a c spans) {span : ℕ × ℕ}
    (hspan : span ∈ spans) : span.1 ≤ span.2 := by
  induction h with
  | last hab =>
      rw [List.mem_singleton] at hspan
      rwa [hspan]
  | cons hab _ ih =>
      rcases List.mem_cons.mp hspan with rfl | hspan
      · exact Nat.le_of_lt hab
      · exact ih hspan

/-- The request reaches the division of the default floor with a divisor that wrapped to zero. -/
def Wraps (engine : ChunkEngine W) (text : Text) (k : ℕ) (minChunk : Option ℕ) : Prop :=
  engine.encoder.admitted = true ∧ 1 < k ∧ MIN_TEXT_CHARS ≤ text.length ∧ minChunk = none ∧ 2 ^ 62 ∣ k

section
variable {A : AhoCorasick} {engine : ChunkEngine W} {E : Text → List UInt32} {text : Text} {k : ℕ}
  {minChunk : Option ℕ} {st : ChunkState W}

/-- Where the product does not wrap, there is a plan. -/
theorem Serial.exists_plan (h : Serial A engine E) (hadmitted : engine.encoder.admitted = true)
    (hk : 1 < k) (scanBudget : ℕ) (hwrap : ¬Wraps engine text k minChunk) :
    ∃ plan, engine.encoder.planCounted A text (countChars text) k minChunk scanBudget = .ok plan ∧
      ValidPlan A engine.encoder engine.literals text k minChunk plan := by
  have hends := endsIn_planCounted A engine.document engine.literals engine.fast.boundary
    engine.fast.reference.toReferenceEngine text (Nat.le_of_lt hk) minChunk scanBudget
      fun hw => hwrap ⟨hadmitted, hw⟩
  have hdef : ChunkEncoder.new engine.document engine.literals engine.fast.boundary
      engine.fast.reference.toReferenceEngine = engine.encoder := rfl
  rw [hdef] at hends
  match hplan : engine.encoder.planCounted A text (countChars text) k minChunk scanBudget with
  | .ok plan => exact ⟨plan, rfl, hends.ok plan hplan⟩
  | .error .Panic => exact absurd hplan hends.noPanic
  | .error (.Reject e) =>
      -- the normalizer of an admitted artifact raises nothing
      obtain ⟨text', hraised⟩ := hends.reject e hplan
      obtain ⟨-, -, N, hnorm, -⟩ := h.composes hadmitted
      rw [hnorm] at hraised
      cases hraised

/-- Encoding without cutting. -/
theorem Serial.serial_spec (h : Serial A engine E) (hst : st.cpu.Healthy) (reason : Option String)
    (below : Bool) (plan : Option ChunkPlan) {R : Fault EngineError → ChunkState W → Prop} :
    wp (engine.serial text k reason below plan)
      (fun out st' => out.ids = E text ∧ st'.cpu.Healthy) R st := by
  obtain ⟨source, hfull⟩ := h.answers
  unfold ChunkEngine.serial
  rw [wp_bind, wp_zoomIn]
  refine wp_mono (encodeIdsWithSource_spec hfull hst text) ?_ ?_
  · rintro ⟨ids, src⟩ cpu ⟨hids, hcpu⟩
    cases hids
    exact ⟨rfl, hcpu⟩
  · rintro f cpu ⟨e, -, herror, -⟩
    cases herror

/-- The chunked route returns the encoding of the text, or the request was not one it takes. -/
theorem Serial.chunkedEncodeIds_spec (h : Serial A engine E) (hst : st.cpu.Healthy) (order : List ℕ)
    (scanBudget : ℕ) :
    wp (engine.chunkedEncodeIds A order text k minChunk scanBudget)
      (fun out st' => out.ids = E text ∧ st'.cpu.Healthy ∧ 0 < scanBudget ∧ ¬Wraps engine text k minChunk)
      (fun _ _ => ¬(0 < scanBudget ∧ ¬Wraps engine text k minChunk)) st := by
  obtain ⟨source, hfull⟩ := h.answers
  unfold ChunkEngine.chunkedEncodeIds
  rw [wp_bind, wp_throwIf]
  refine ⟨fun hzero hpos => by omega, fun hbudget => ?_⟩
  have hpos : 0 < scanBudget := by omega
  have hserial : ∀ reason below plan, ¬Wraps engine text k minChunk →
      wp (engine.serial text k reason below plan)
        (fun out st' => out.ids = E text ∧ st'.cpu.Healthy ∧ 0 < scanBudget ∧
          ¬Wraps engine text k minChunk)
        (fun _ _ => ¬(0 < scanBudget ∧ ¬Wraps engine text k minChunk)) st := by
    intro reason below plan hwrap
    refine wp_mono (h.serial_spec hst reason below plan) ?_ fun _ _ hf => hf
    exact fun out st' hout => ⟨hout.1, hout.2, hpos, hwrap⟩
  dsimp only
  by_cases hadmitted : engine.encoder.admitted = true
  · rw [if_neg (not_not.mpr hadmitted), countChars_eq]
    by_cases hshort : k ≤ 1 ∨ text.length < MIN_TEXT_CHARS
    · rw [if_pos hshort]
      exact hserial _ _ _ fun hw => by
        have := hw.2.1
        have := hw.2.2.1
        omega
    · rw [if_neg hshort, wp_bind, wp_fromExcept, ← countChars_eq text]
      by_cases hwrap : Wraps engine text k minChunk
      · obtain ⟨-, hk, ht, rfl, hdvd⟩ := id hwrap
        rw [planCounted_eq_panic A engine.encoder text scanBudget hk ht hdvd]
        exact ⟨fun plan hplan => (by cases hplan), fun f _ hnot => hnot.2 hwrap⟩
      · obtain ⟨plan, hplan, hvalid⟩ := h.exists_plan hadmitted (by omega) scanBudget hwrap
        rw [hplan]
        refine ⟨?_, fun f hf => by cases hf⟩
        rintro _ ⟨⟩
        by_cases hone : plan.spans.length = 1
        · rw [if_pos hone]
          exact hserial _ _ _ hwrap
        · rw [if_neg hone, wp_bind, wp_get, wp_bind, wp_set, wp_bind, wp_fromExcept]
          -- the jobs encode the pieces between the cuts
          have hpieces : ∀ (i : ℕ) (span : ℕ × ℕ) (piece : Text), plan.byteSpans[i]? = some span →
              (plan.spans.map fun span => (text.take span.2).drop span.1)[i]? = some piece →
                (strSlice text span.1 span.2 : Decode EngineError Text) = .ok piece := by
            intro i span piece hspan hpiece
            rw [hvalid.bytes, List.getElem?_map] at hspan
            rw [List.getElem?_map] at hpiece
            obtain ⟨s, hs, rfl⟩ := Option.map_eq_some_iff.mp hspan
            rw [hs] at hpiece
            cases hpiece
            exact strSlice_utf8Len text (hvalid.covers.le (List.mem_of_getElem? hs))
          obtain ⟨rows, hrows, hids⟩ := collect_run hfull hst.primary
            (by rw [hvalid.bytes, List.length_map, List.length_map]) hpieces order st.free st.forked
          rw [hrows]
          refine ⟨?_, fun f hf => by cases hf⟩
          rintro _ ⟨⟩
          refine ⟨?_, hst, hpos, hwrap⟩
          rw [hids, List.map_map, h.encode_plan hadmitted hvalid]
          rfl
  · rw [if_pos hadmitted]
    exact hserial _ _ _ fun hw => hadmitted hw.1

end

/-! ## Behind the router -/

section
variable {router : NativeRouter W} {engines : Engines} {E : Text → List UInt32} {text : Text}

/-- Whatever its engines return is the encoding of an encoder, and two of them always return. -/
structure Encodes (router : NativeRouter W) (engines : Engines) (E : Text → List UInt32) : Prop where
  gpu : ∀ gpu, engines.gpu = .ok gpu → ∀ t ids, gpu.encodeIds t = .ok ids → ids = E t
  full : ∀ t, ∃ source, engines.full t = .ok (E t, source)
  reference : ∀ t, router.reference.encodeIds t false = .ok (E t)

/-- What is noted along the way does not change the ids. -/
theorem exists_map (f : NativeRouter.RowTrace → NativeRouter.RowTrace) {trace : NativeRouter.RowTrace}
    {ids : List UInt32} (h : trace.routed.ids = ids)
    (hf : ∀ trace, (f trace).routed.ids = trace.routed.ids) :
    ∃ trace', (Except.ok trace : Except EngineError NativeRouter.RowTrace).map f = .ok trace' ∧
      trace'.routed.ids = ids := ⟨f trace, rfl, (hf trace).trans h⟩

/-- Tried backend by backend, a text is encoded in the end. -/
theorem Encodes.rowFrom (h : Encodes router engines E) (text : Text) {n start : ℕ} (hpos : 0 < n)
    (hn : start + n = router.chain.length) (reason : Option String) :
    ∃ trace, router.rowFrom engines text (List.range' start n) reason = .ok trace ∧
      trace.routed.ids = E text := by
  induction n generalizing start reason with
  | zero => omega
  | succ n ih =>
      obtain ⟨backend, hbackend⟩ := router.exists_backend (show start < router.chain.length by omega)
      rw [List.range'_succ, NativeRouter.rowFrom]
      -- a backend that passes the text on is not the last
      have hpass : backend ≠ .Reference → router.rowStep engines text start reason = .Passed →
          ∃ trace, router.rowFrom engines text (List.range' (start + 1) n) (some R_EXEC_FAULT) =
            .ok trace ∧ trace.routed.ids = E text := by
        intro hne _
        have := router.lt_of_ne_reference hbackend hne
        exact ih (by omega) (by omega) _
      cases hstep : router.rowStep engines text start reason with
      | Served routed codes =>
          refine ⟨_, rfl, ?_⟩
          rw [NativeRouter.rowStep, hbackend] at hstep
          cases backend with
          | Gpu =>
              dsimp only at hstep
              split at hstep
              · cases hstep
              · rename_i gpu hgpu
                split at hstep
                · rename_i ids hids
                  cases hstep
                  exact h.gpu gpu hgpu text ids hids
                · cases hstep
          | FastCpu =>
              dsimp only at hstep
              obtain ⟨source, hfull⟩ := h.full text
              rw [hfull] at hstep
              cases source <;> cases hstep <;> rfl
          | Reference =>
              dsimp only at hstep
              rw [h.reference] at hstep
              cases hstep
              rfl
      | Passed =>
          have hne : backend ≠ .Reference := by
            rintro rfl
            rw [NativeRouter.rowStep, hbackend] at hstep
            dsimp only at hstep
            rw [h.reference] at hstep
            cases hstep
          obtain ⟨trace, htrace, hids⟩ := hpass hne hstep
          rw [htrace]
          exact exists_map _ hids fun trace => rfl
      | Failed e =>
          rw [NativeRouter.rowStep, hbackend] at hstep
          cases backend with
          | Gpu =>
              dsimp only at hstep
              split at hstep
              · cases hstep
              · split at hstep <;> cases hstep
          | FastCpu =>
              dsimp only at hstep
              obtain ⟨source, hfull⟩ := h.full text
              rw [hfull] at hstep
              cases source <;> cases hstep
          | Reference =>
              dsimp only at hstep
              rw [h.reference] at hstep
              cases hstep

/-- The route of a text ends with its encoding. -/
theorem Encodes.row (h : Encodes router engines E) (text : Text) :
    ∃ trace, router.row engines text = .ok trace ∧ trace.routed.ids = E text := by
  have hstart := router.startIndex_lt (utf8Len text)
  obtain ⟨trace, htrace, hids⟩ := h.rowFrom text
    (show 0 < router.chain.length - router.startIndex (utf8Len text) by omega)
    (show router.startIndex (utf8Len text) + (router.chain.length - router.startIndex (utf8Len text)) =
      router.chain.length by omega)
    (router.belowReason (router.startIndex (utf8Len text)))
  unfold NativeRouter.row NativeRouter.addedOf
  dsimp only
  rw [NativeRouter.backendsFrom, htrace]
  split_ifs with hreference
  · exact exists_map _ hids fun trace => rfl
  · unfold NativeRouter.exactAddedReferenceIds IdReference.encodeIdsWithAddedFlag
    rw [h.reference]
    split_ifs with hmatch
    · dsimp only [ok_bind, pure, Except.pure]
      split_ifs
      · exact ⟨_, rfl, rfl⟩
      · exact exists_map _ hids fun trace => rfl
    · exact exists_map _ hids fun trace => rfl

/-- Recording the execution of a chunk does not fail. -/
theorem wp_recordChunk {st : RouterState W} {start : ℕ} (hst : st.cpu.Healthy)
    (hstart : start < router.chain.length) (source : FastEncodeSource) (bytes : ℕ)
    {R : Fault EngineError → RouterState W → Prop} :
    wp (recordChunk router start source bytes) (fun _ st' => st'.cpu.Healthy) R st := by
  have hrecord : ∀ (routed : RoutedIds) (st : RouterState W), st.cpu.Healthy →
      wp (router.recordExecution routed.backend bytes start routed.source routed.path)
        (fun _ st' => st'.cpu.Healthy) R st := fun routed st hcpu =>
    NativeRouter.wp_recordExecution _ hcpu hstart fun st' hexec => hexec.healthy
  cases source with
  | Gigatoken =>
      exact hrecord ⟨[], BACKEND_FAST_CPU, some "gigatoken", some "gigatoken_full", none⟩ st hst
  | ReferenceAddedToken =>
      dsimp only [recordChunk, NativeRouter.fastCpuReferencePath]
      rw [wp_bind, wp_bind]
      refine NativeRouter.wp_recordEvent hst fun st' h => ?_
      exact hrecord ⟨[], BACKEND_REFERENCE, none, some "hf_added_token", none⟩ st' h.healthy
  | ReferenceEngineGuard =>
      dsimp only [recordChunk, NativeRouter.fastCpuReferencePath]
      rw [wp_bind, wp_bind]
      refine NativeRouter.wp_recordEvent hst fun st' h => ?_
      exact hrecord ⟨[], BACKEND_REFERENCE, none, some "hf_engine_guard", none⟩ st' h.healthy

end

/-- The condition under which the chunked route serves a request. -/
def Serves (router : NativeRouter W) (document : Json) (literals : List Text) (text : Text) (k : ℕ)
    (minChunk : Option ℕ) (scanBudget : ℕ) : Prop :=
  ∀ fast, router.fastCpu = some fast →
    router.chain[router.startIndex (utf8Len text)]? = some .FastCpu →
      0 < scanBudget ∧ ¬Wraps ⟨fast, document, literals⟩ text k minChunk

/-- The chunked route of a router returns the encoding of the text, or the request was not one
it serves. -/
theorem routedChunkedEncodeIds_spec {router : NativeRouter W} {document : Json}
    {literals : List Text} {A : AhoCorasick} {E : Text → List UInt32}
    (hserial : ∀ fast, router.fastCpu = some fast → Serial A ⟨fast, document, literals⟩ E)
    (href : ∀ t, router.reference.encodeIds t false = .ok (E t)) {st : ChunkRouterState W}
    (hcpu : st.router.cpu.Healthy)
    (hgpu : .Gpu ∈ router.chain → ∃ cell, st.router.gpu = some cell ∧
      ∀ gpu, cell.get.1 = .ok gpu → ∀ t ids, gpu.encodeIds t = .ok ids → ids = E t)
    (order : List ℕ) (text : Text) (k : ℕ) (minChunk : Option ℕ) (scanBudget : ℕ) :
    wp (routedChunkedEncodeIds router document literals A order text k minChunk scanBudget)
      (fun out _ => out.ids = E text ∧ Serves router document literals text k minChunk scanBudget)
      (fun _ _ => ¬Serves router document literals text k minChunk scanBudget) st := by
  have hstart := router.startIndex_lt (utf8Len text)
  obtain ⟨first, hfirst⟩ := router.exists_backend hstart
  unfold routedChunkedEncodeIds
  dsimp only
  rw [wp_bind, getAt_of_some hfirst, wp_fromExcept]
  refine ⟨?_, fun e he => by cases he⟩
  rintro _ ⟨⟩
  -- elsewhere the text takes the normal route
  have hnormal : (∀ fast, router.fastCpu = some fast → first ≠ .FastCpu) →
      wp (do
          let routed ← onRouter (router.routeIdsInternal text)
          return { ids := routed.ids, chunks := 1, kRequested := k, cuts := [], cutMisses := 0
                   literalRejects := 0, normRejects := 0
                   serialReason := some R_CHUNK_ROUTE_NOT_FAST_CPU, belowThreshold := false
                   sources := [], rowBytes := [utf8Len text], coldForks := 0 })
        (fun (out : ChunkedIds) _ =>
          out.ids = E text ∧ Serves router document literals text k minChunk scanBudget)
        (fun _ _ => ¬Serves router document literals text k minChunk scanBudget) st := by
    intro hother
    have hserves : Serves router document literals text k minChunk scanBudget := by
      intro fast hfast hfast'
      rw [hfirst] at hfast'
      exact absurd (Option.some.inj hfast') (hother fast hfast)
    -- what the engines answer, as far as the chain asks them
    obtain ⟨engines, hfull, hsees, hencodes⟩ : ∃ engines, router.Answering engines ∧
        Sees router engines st.router ∧ Encodes router engines E := by
      obtain ⟨full, hanswers, hfull⟩ : ∃ full, (∀ fast, router.fastCpu = some fast →
          fast.Answers full) ∧ ∀ t, ∃ source, full t = .ok (E t, source) := by
        cases hfast : router.fastCpu with
        | none => exact ⟨fun t => .ok (E t, .Gigatoken), fun fast h => (by cases h), fun t => ⟨_, rfl⟩⟩
        | some fast =>
            obtain ⟨source, hsource⟩ := (hserial fast hfast).answers
            exact ⟨_, fun fast' h => Option.some.inj h ▸ hsource, fun t => ⟨_, rfl⟩⟩
      by_cases hmem : .Gpu ∈ router.chain
      · obtain ⟨cell, hcell, hexact⟩ := hgpu hmem
        exact ⟨⟨cell.get.1, full⟩, hanswers, ⟨fun _ => ⟨cell, hcell, rfl⟩, hcpu⟩, hexact, hfull, href⟩
      · exact ⟨⟨.error ⟨""⟩, full⟩, hanswers, ⟨fun h => absurd h hmem, hcpu⟩,
          fun gpu h => (by cases h), hfull, href⟩
    obtain ⟨trace, htrace, hids⟩ := hencodes.row text
    rw [wp_bind, onRouter, wp_zoomIn]
    refine wp_mono (NativeRouter.routeIdsInternal_spec hfull hsees) ?_ ?_
    · rintro routed st' ⟨trace', htrace', rfl, -⟩
      rw [htrace] at htrace'
      cases htrace'
      exact ⟨hids, hserves⟩
    · rintro f st' ⟨e, -, herror⟩
      rw [htrace] at herror
      cases herror
  cases hfast : router.fastCpu with
  | none => exact hnormal fun fast h => by rw [hfast] at h; cases h
  | some fast =>
      cases first with
      | Gpu => exact hnormal fun _ _ h => by cases h
      | Reference => exact hnormal fun _ _ h => by cases h
      | FastCpu =>
          dsimp only
          rw [wp_bind, onChunks, wp_zoomIn]
          have hiff : Serves router document literals text k minChunk scanBudget ↔
              0 < scanBudget ∧ ¬Wraps ⟨fast, document, literals⟩ text k minChunk := by
            refine ⟨fun h => h fast hfast hfirst, fun h fast' hfast' _ => ?_⟩
            rw [hfast] at hfast'
            cases hfast'
            exact h
          rw [hiff]
          refine wp_mono ((hserial fast hfast).chunkedEncodeIds_spec hcpu order scanBudget) ?_
            fun _ _ h => h
          rintro out chunks ⟨hids, hhealthy, hbudget, hwrap⟩
          rw [wp_bind]
          refine wp_mono (wp_forM (fun st' : ChunkRouterState W => st'.router.cpu.Healthy)
            (out.sources.zip out.rowBytes) hhealthy fun x _ st' hst' => ?_) ?_ fun _ _ h => h
          · obtain ⟨source, bytes⟩ := x
            rw [onRouter, wp_zoomIn]
            exact wp_recordChunk hst' hstart source bytes
          · exact fun _ _ _ => ⟨hids, hbudget, hwrap⟩

/-- Chunk-parallel encoding is serial encoding: whatever the number of chunks asked for and the
order in which the jobs take their turns, the engine and the route of a router over it return
the encoding of the text, exactly when the scan budget is positive and the divisor of the
default floor does not wrap. -/
theorem chunkedEncodeIds_exact_iff {router : NativeRouter W} {document : Json}
    {literals : List Text} {A : AhoCorasick} {E : Text → List UInt32}
    (hserial : ∀ fast, router.fastCpu = some fast → Serial A ⟨fast, document, literals⟩ E)
    (href : ∀ t, router.reference.encodeIds t false = .ok (E t)) {st : ChunkRouterState W}
    (hcpu : st.router.cpu.Healthy)
    (hgpu : .Gpu ∈ router.chain → ∃ cell, st.router.gpu = some cell ∧
      ∀ gpu, cell.get.1 = .ok gpu → ∀ t ids, gpu.encodeIds t = .ok ids → ids = E t)
    (order : List ℕ) (text : Text) (k : ℕ) (minChunk : Option ℕ) (scanBudget : ℕ) :
    (∀ fast, router.fastCpu = some fast →
      ((∃ out st', ((ChunkEngine.mk fast document literals).chunkedEncodeIds A order text k minChunk
          scanBudget).run ⟨st.router.cpu, st.free, st.forked⟩ = .ok out st' ∧ out.ids = E text) ↔
        0 < scanBudget ∧ ¬Wraps ⟨fast, document, literals⟩ text k minChunk)) ∧
    ((∃ out st', (routedChunkedEncodeIds router document literals A order text k minChunk
        scanBudget).run st = .ok out st' ∧ out.ids = E text) ↔
      Serves router document literals text k minChunk scanBudget) := by
  refine ⟨fun fast hfast => wp.returns_iff ?_, wp.returns_iff ?_⟩
  · exact wp_mono ((hserial fast hfast).chunkedEncodeIds_spec hcpu order scanBudget)
      (fun out _ hout => ⟨hout.1, hout.2.2⟩) fun _ _ h => h
  · exact routedChunkedEncodeIds_spec hserial href hcpu hgpu order text k minChunk scanBudget

/-! ## A router over characters -/

def charState : ChunkRouterState Unit :=
  ⟨⟨.default, none, ⟨⟨(), false⟩, [], false⟩⟩, [], 0⟩

/-- A normalizer that changes nothing composes a script without decompositions. -/
theorem normalizes_id : Normalizes (fun _ : Char => 0) (fun c => [c]) id where
  decompose_ne_nil c := List.cons_ne_nil c []
  equivalent _ := rfl
  congr s t h := by
    have hsort : ∀ t : Text, decomposed (fun _ => 0) (fun c => [c]) t = t := by
      intro t
      induction t with
      | nil => rfl
      | cons c t ih =>
          rw [decomposed] at ih ⊢
          rw [List.flatMap_cons, List.singleton_append, List.foldr_cons, ih]
          cases t <;> rfl
    rwa [hsort, hsort] at h
  piece _ _ _ := rfl

theorem serial_charCpu (document : Json) (literals : List Text) :
    Serial .naive ⟨charCpu, document, literals⟩ charIds where
  cut t p _ := by rw [charIds, charIds, charIds, ← List.map_append, List.take_append_drop]
  answers := ⟨_, answers_charCpu⟩
  composes _ := ⟨_, _, id, fun _ => rfl, normalizes_id⟩

theorem serial_charRouter (fast : CorrectedCpu Unit) (h : charRouter.fastCpu = some fast) :
    Serial .naive ⟨fast, .null, []⟩ charIds := by
  cases h
  exact serial_charCpu .null []

theorem healthy_charState : charState.router.cpu.Healthy := ⟨rfl, rfl, by simp [charState]⟩

/-- A request for two chunks of a text of words, with the second job taking its turn first. -/
theorem chunkedEncodeIds_exact_words :
    ∃ out st', (routedChunkedEncodeIds charRouter .null [] .naive [1]
        (List.replicate 300 ['a', ' ']).flatten 2 none 4096).run charState = .ok out st' ∧
      out.ids = charIds (List.replicate 300 ['a', ' ']).flatten := by
  have hexact := chunkedEncodeIds_exact_iff serial_charRouter (fun _ => rfl) healthy_charState
    (fun h => absurd h (by decide)) [1] (List.replicate 300 ['a', ' ']).flatten 2
    none 4096
  exact hexact.2.mpr fun fast _ _ => ⟨by decide, fun hwrap => absurd hwrap.2.2.2.2 (by decide)⟩

/-- No request over that router whose divisor wraps returns an encoding. -/
theorem not_returns_of_wraps {text : Text} {k : ℕ} (hk : 1 < k) (ht : MIN_TEXT_CHARS ≤ text.length)
    (hdvd : 2 ^ 62 ∣ k) (order : List ℕ) :
    ¬∃ out st', (routedChunkedEncodeIds charRouter .null [] .naive order text k none 4096).run
      charState = .ok out st' ∧ out.ids = charIds text := by
  have hiff := wp.returns_iff (routedChunkedEncodeIds_spec serial_charRouter (fun _ => rfl)
    healthy_charState (fun h => absurd h (by decide)) order text k none 4096)
  rw [hiff]
  intro hserves
  have hfirst : charRouter.chain[charRouter.startIndex (utf8Len text)]? = some .FastCpu := rfl
  exact (hserves charCpu rfl hfirst).2 ⟨rfl, hk, ht, rfl, hdvd⟩

/-- For `2 ^ 62` chunks of 256 characters no encoding is returned. -/
theorem chunkedEncodeIds_wraps :
    ∃ (router : NativeRouter Unit) (document : Json) (literals : List Text) (A : AhoCorasick)
      (E : Text → List UInt32) (st : ChunkRouterState Unit) (text : Text) (k : ℕ),
      (∀ fast, router.fastCpu = some fast → Serial A ⟨fast, document, literals⟩ E) ∧
      (∀ t, router.reference.encodeIds t false = .ok (E t)) ∧ st.router.cpu.Healthy ∧
      .Gpu ∉ router.chain ∧
      ∀ order, ¬∃ out st', (routedChunkedEncodeIds router document literals A order text k none
        4096).run st = .ok out st' ∧ out.ids = E text :=
  ⟨charRouter, .null, [], .naive, charIds, charState, List.replicate 256 'a', 2 ^ 62,
    serial_charRouter, fun _ => rfl, healthy_charState, by decide,
    not_returns_of_wraps (by decide) (by rw [List.length_replicate]; decide) (by decide)⟩

end Toktier.Chunked
