import Toktier.Facade.EntryCalls

/-!
# Runs of the entry store

Every call of every run returns the ids of its text, whatever the native store and the files do.
That each entry also has the row of its text needs more: a record has to be replaced whenever its
entry changes, and an index that is read at the start has to be as old as the records.

## Main definitions

* `Synced`: the rows of the index file are those of the records.
* `Intact`: what a state says of the entries that have a text.

## Main results

* `ids_exact`: the ids of a call, in every run.
* `entries_intact`: what every run keeps that meets the two conditions.
-/
namespace Toktier.Facade.Entries

open Toktier.Lib

variable {D : Type} [DecidableEq D] {cfg : Config D} {strict : Prop} {w w' : World D}

/-! ### Opening -/

/-- Where there is a record, the row is that of the record. -/
def Matching (cfg : Config D) (records : AList fun _ : Name D => Record)
    (index : CheckpointIndex D) : Prop :=
  ∀ name row r, index.lookup name = some row → records.lookup name = some r →
    row = cfg.rowOf r.session.text

/-- The index on disk is no older than the records. -/
def Synced (cfg : Config D) (w : World D) : Prop :=
  ∀ index, w.indexFile = some index → Matching cfg w.records index

theorem Matching.insert {records : AList fun _ : Name D => Record} {index : CheckpointIndex D}
    (h : Matching cfg records index) {name : Name D} {r : Record}
    (hr : records.lookup name = some r) :
    Matching cfg records (index.insert name (cfg.rowOf r.session.text)) := by
  intro n row r' hrow hr'
  by_cases hn : n = name
  · subst hn
    rw [AList.lookup_insert] at hrow
    rw [← Option.some.inj hrow, Option.some.inj (hr.symm.trans hr')]
  · rw [AList.lookup_insert_ne hn] at hrow
    exact h n row r' hrow hr'

/-- Rows of records, and a store in which only operations were counted. -/
def Rebuilt (cfg : Config D) (w : World D) (p : CheckpointIndex D × World D) : Prop :=
  Matching cfg w.records p.1 ∧ ∃ tick, p.2 = { w with tick := tick }

/-- One record adds its own row or none. -/
theorem Rebuilt.rebuildRow {p : CheckpointIndex D × World D} (h : Rebuilt cfg w p)
    (name : Name D) : Rebuilt cfg w (p.2.rebuildRow cfg name p.1) := by
  obtain ⟨index, w'⟩ := p
  obtain ⟨hrows, tick, rfl⟩ := h
  dsimp only
  generalize hw' : ({ w with tick := tick } : World D) = w'
  have hrecords : w'.records = w.records := hw' ▸ rfl
  have hcounted (tick : ℕ) : ({ w' with tick := tick } : World D) = { w with tick := tick } :=
    hw' ▸ rfl
  unfold World.rebuildRow
  rcases hread : w'.readRecord name with ⟨_ | view, w₁⟩
  · obtain rfl := (congrArg Prod.snd hread).symm
    exact ⟨hrows, _, hcounted _⟩
  · obtain ⟨rfl, hview⟩ := readRecord_some hread
    rw [hrecords] at hview
    dsimp only
    split_ifs with hzero
    · refine ⟨?_, _, hcounted _⟩
      rw [textTail_of_zero hzero]
      exact hrows.insert hview
    · rcases hbinding : w'.ticked.readBinding name with ⟨_ | binding, w₂⟩
      · obtain rfl := (congrArg Prod.snd hbinding).symm
        exact ⟨hrows, _, hcounted _⟩
      · obtain rfl := (congrArg Prod.snd hbinding).symm
        dsimp only
        split_ifs with hbad
        · exact ⟨hrows, _, hcounted _⟩
        · refine ⟨?_, _, hcounted _⟩
          have hsame : binding = view.session := by
            by_contra hne
            exact hbad (.inl hne)
          rw [hsame]
          exact hrows.insert hview

theorem rebuildIndex_rebuilt (cfg : Config D) (w : World D) : Rebuilt cfg w (w.rebuildIndex cfg) := by
  unfold World.rebuildIndex
  generalize w.records.keys.mergeSort cfg.nameLe = names
  have hstart : Rebuilt cfg w (∅, w) := ⟨(fun _ _ _ hrow => nomatch hrow), w.tick, rfl⟩
  generalize ((∅, w) : CheckpointIndex D × World D) = p at hstart
  induction names generalizing p with
  | nil => exact hstart
  | cons name names ih => exact ih _ (hstart.rebuildRow name)

/-- The index of a new store, and what reading it leaves as it was. -/
theorem loadOrRebuildIndex_spec (cfg : Config D) (w : World D) :
    (w.loadOrRebuildIndex cfg).2.records = w.records ∧
      (w.loadOrRebuildIndex cfg).2.choices = w.choices ∧
      (w.loadOrRebuildIndex cfg).2.sessions = w.sessions ∧
      (Synced cfg w → Matching cfg w.records (w.loadOrRebuildIndex cfg).1) := by
  unfold World.loadOrRebuildIndex
  split
  · rename_i index hread
    refine ⟨rfl, rfl, rfl, fun hsync => hsync index ?_⟩
    split_ifs at hread
    exact hread
  · obtain ⟨hrows, tick, heq⟩ := rebuildIndex_rebuilt cfg w.ticked
    dsimp only
    rw [heq]
    unfold World.persistIndex
    split_ifs
    · exact ⟨rfl, rfl, rfl, fun _ => hrows⟩
    · exact ⟨rfl, rfl, rfl, fun _ => hrows⟩

/-- A new store has entries without texts, with the rows of their records. -/
theorem Inv.reopen (h : Inv cfg strict none w) (hsync : strict → Synced cfg w) :
    Inv cfg strict none (w.reopen cfg) := by
  unfold World.reopen
  dsimp only
  split_ifs with hdir
  · generalize hnew : ({ w with
      sessions := fun _ => none, next := 0, lost := [], entries := [], index := ∅ } :
        World D) = w₀
    obtain ⟨hrecords, hchoices, hsessions, hrows⟩ := loadOrRebuildIndex_spec cfg w₀
    rcases hload : w₀.loadOrRebuildIndex cfg with ⟨index, w₁⟩
    rw [hload] at hrecords hchoices hsessions hrows
    dsimp only at hrecords hchoices hsessions hrows ⊢
    have hentry {e : Entry D} (he : e ∈ (index.keys.mergeSort cfg.nameLe).filterMap fun name =>
        (index.lookup name).map fun row => (⟨name, name.kind, row.byteLength, none, none, 0,
          some row⟩ : Entry D)) :
        ∃ name row, index.lookup name = some row ∧
          e = ⟨name, name.kind, row.byteLength, none, none, 0, some row⟩ := by
      obtain ⟨name, -, hname⟩ := List.mem_filterMap.mp he
      obtain ⟨row, hrow, rfl⟩ := Option.map_eq_some_iff.mp hname
      exact ⟨name, row, hrow, rfl⟩
    refine ⟨?_, fun e he _ x hx => ?_, fun e he _ _ => ?_, fun hs e he _ => ?_,
      fun e he e' _ _ _ x hx => ?_, fun x _ => ?_, fun hd => ?_, fun hs hd i => ?_⟩
    · rw [List.map_filterMap]
      refine List.Nodup.filterMap (fun name name' n hn hn' => ?_)
        ((List.mergeSort_perm _ _).nodup_iff.mpr index.keys_nodup)
      simp only [Option.map_map, Option.mem_def, Option.map_eq_some_iff, Function.comp_apply,
        exists_and_right] at hn hn'
      exact hn.2.trans hn'.2.symm
    · obtain ⟨_, _, _, rfl⟩ := hentry he
      cases hx
    · obtain ⟨_, _, _, rfl⟩ := hentry he
      rfl
    · obtain ⟨name, row, hrow, rfl⟩ := hentry he
      refine ⟨row, rfl, hrow, fun _ ht => (by cases ht), fun r hr => ?_⟩
      subst hnew
      exact hrows (hsync hs) name row r hrow (hrecords ▸ hr)
    · obtain ⟨_, _, _, rfl⟩ := hentry he
      cases hx
    · subst hnew
      exact congrFun hsessions x
    · exact absurd (hd ▸ hdir) Bool.false_ne_true
    · subst hnew
      exact (congrFun hchoices i).symm ▸ h.written hs hd i
  · exact ⟨List.nodup_nil, fun _ he => (by cases he), fun _ he => (by cases he),
      fun _ _ he => (by cases he), fun _ he => (by cases he), fun _ _ => rfl, h.memory, h.written⟩

theorem Inv.start {choices : ℕ → Choice}
    (hwritten : strict → cfg.directory = true → ∀ i, (choices i).unwritten true = false) :
    Inv cfg strict none (World.start choices) :=
  ⟨List.nodup_nil, (fun _ he => nomatch he), (fun _ he => nomatch he),
    (fun _ _ he => nomatch he), (fun _ he => nomatch he), fun _ _ => rfl, fun _ _ => rfl, hwritten⟩

/-! ### Runs -/

/-- The text of a call. -/
def Act.text : Act → Text
  | .encodeSession _ text => text
  | .encodeAuto text => text
  | .reopen => []

theorem Inv.step (h : Inv cfg strict none w) (a : Act) (hsync : strict → a = .reopen → Synced cfg w) :
    Called cfg strict a.text (w.step cfg a) := by
  cases a with
  | encodeSession id text => exact h.encodeSession id text
  | encodeAuto text => exact h.encodeAuto text
  | reopen => exact .of_plain (h.reopen fun hs => hsync hs rfl)

theorem Reach.inv {choices : ℕ → Choice} {ok : World D → Act → Prop}
    (hwritten : strict → cfg.directory = true → ∀ i, (choices i).unwritten true = false)
    (hok : strict → ∀ w, ok w .reopen → Synced cfg w) (h : Reach cfg choices ok w) :
    Inv cfg strict none w := by
  induction h with
  | start => exact (Inv.start hwritten).reopen fun _ _ hindex => nomatch hindex
  | step a _ hstep ih =>
    refine (ih.step a fun hs ha => ?_).inv
    subst ha
    exact hok hs _ hstep

/-- Every entry with a text has the handle, the revision and the row of the text. -/
def Intact (cfg : Config D) (w : World D) : Prop :=
  ∀ e ∈ w.entries, ∀ t, e.text = some t →
    (∃ x, e.handle = some x ∧
      (w.sessions x = some ⟨t, e.revision⟩ ∨ w.sessions x = none ∧ x ∈ w.lost)) ∧
    e.indexEntry = some (cfg.rowOf t) ∧ w.index.lookup e.name = some (cfg.rowOf t)

/-- An entry with a text has a handle of a session of the text. -/
theorem Inv.handle_of_text (h : Inv cfg strict none w) {e : Entry D} (he : e ∈ w.entries)
    {t : Text} (ht : e.text = some t) : ∃ x, e.handle = some x ∧
      (w.sessions x = some ⟨t, e.revision⟩ ∨ w.sessions x = none ∧ x ∈ w.lost) := by
  cases hx : e.handle with
  | none => cases ht.symm.trans (h.bare e he (Option.some_ne_none _) hx)
  | some x =>
    obtain ⟨-, u, hu, hses⟩ := h.held e he (Option.some_ne_none _) x hx
    obtain rfl := Option.some.inj (ht.symm.trans hu)
    exact ⟨x, rfl, hses⟩

theorem Inv.intact (h : Inv cfg True none w) : Intact cfg w := by
  intro e he t ht
  obtain ⟨row, hrow, hindex, htext, -⟩ := h.filed trivial e he (Option.some_ne_none _)
  obtain rfl := htext t ht
  exact ⟨h.handle_of_text he ht, hrow, hindex⟩

/-- **Ids are those of the text**, whatever fails, goes or is opened again. -/
theorem ids_exact {choices : ℕ → Choice} {ok : World D → Act → Prop} (h : Reach cfg choices ok w)
    (a : Act) {ids : List ℤ} (hids : (w.step cfg a).1 = .ids ids) : ids = cfg.encode a.text :=
  have hinv : Inv cfg False none w := h.inv (fun hf => hf.elim) fun hf => hf.elim
  (hinv.step a fun hf => hf.elim).exact_ids ids hids

/-! ### A small store -/

def tinyConfig : Config (List UInt8) :=
  ⟨id, fun text => text.map fun c => (c.toNat : ℤ), true, 0, fun _ _ => true⟩

/-- Nothing fails, but a record that is there is not replaced when `older` says so. -/
def quiet (older : Bool → Bool) : Choice := ⟨false, [], 0, older⟩

/-- A store over an empty directory, open. -/
def opened (c : Choice) : World (List UInt8) :=
  { World.start fun _ => c with indexFile := some ∅, tick := 2 }

theorem reopen_start (older : Bool → Bool) :
    (World.start fun _ => quiet older).reopen tinyConfig = opened (quiet older) := by
  simp [World.reopen, World.loadOrRebuildIndex, World.rebuildIndex, World.start, World.choice,
    World.ticked, World.persistIndex, tinyConfig, quiet, opened]

/-! ### Rows -/

/-- **Every entry with a text has the row of the text**, when no write leaves an older record of
the entry in place and no index is read that is older than the records. -/
theorem entries_intact (cfg : Config D) (choices : ℕ → Choice)
    (hwritten : cfg.directory = true → ∀ i, (choices i).unwritten true = false) {w : World D}
    (h : Reach cfg choices (fun w a => a = .reopen → Synced cfg w) w) :
    Intact cfg w ∧ ∀ a ids, (w.step cfg a).1 = .ids ids → ids = cfg.encode a.text := by
  have hinv : Inv cfg True none w := h.inv (fun _ => hwritten) fun _ w hok => hok rfl
  exact ⟨hinv.intact, fun a _ hids => ids_exact h a hids⟩

theorem entries_intact_oneCall :
    Intact tinyConfig (((World.start fun _ => quiet fun _ => false).reopen tinyConfig).step
        tinyConfig (.encodeSession ['s'] ['a'])).2 ∧
      ∀ a ids, ((((World.start fun _ => quiet fun _ => false).reopen tinyConfig).step tinyConfig
        (.encodeSession ['s'] ['a'])).2.step tinyConfig a).1 = .ids ids →
          ids = tinyConfig.encode a.text :=
  entries_intact tinyConfig (fun _ => quiet fun _ => false) (fun _ _ => rfl)
    (Reach.start.step (.encodeSession ['s'] ['a']) fun ha => nomatch ha)

/-- `s` is kept with the text `a` and then with `ab`, goes when `t` is kept, and is read again. -/
def readAgain : World (List UInt8) :=
  [.encodeSession ['s'] ['a'], .encodeSession ['s'] ['a', 'b'], .encodeSession ['t'] ['x'],
    .encodeSession ['s'] ['a']].foldl (fun w a => (w.step tinyConfig a).2) (opened (quiet id))

/-- The record of `a` stays under the row of `ab`. -/
theorem entries_intact_fails :
    Reach tinyConfig (fun _ => quiet id) (fun _ _ => True) readAgain ∧
      ¬Intact tinyConfig readAgain := by
  have hstart : Reach tinyConfig (fun _ => quiet id) (fun _ _ => True) (opened (quiet id)) :=
    reopen_start id ▸ Reach.start
  refine ⟨(((hstart.step _ trivial).step _ trivial).step _ trivial).step _ trivial, fun h => ?_⟩
  have hentry : (some ['a'], some [97, 98]) ∈
      readAgain.entries.map fun e => (e.text, e.indexEntry.map Row.endDigest) := by
    decide +kernel
  obtain ⟨e, he, heq⟩ := List.mem_map.mp hentry
  obtain ⟨htext, hdigest⟩ := Prod.mk.inj heq
  obtain ⟨-, hrow, -⟩ := h e he ['a'] htext
  rw [hrow] at hdigest
  exact absurd hdigest (by decide +kernel)

end Toktier.Facade.Entries
