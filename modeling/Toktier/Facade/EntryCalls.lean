import Toktier.Facade.EntryLaws

/-!
# The calls of the entry store

Every call keeps the invariant, and the ids it returns are those of its text, whatever the
native store and the files do. That an entry also keeps the row of its text needs the record
of an entry to be replaced whenever the entry is, and the index on disk to be as old as the
records.

## Main definitions

* `Synced`: the rows of the index file are those of the records.
* `Intact`: what a state says of the entries that have a text.

## Main results

* `call_spec`: the ids of a call.
* `entries_intact`: what every run keeps.
-/
namespace Toktier.Facade.Entries

open Toktier.Lib

variable {D : Type} [DecidableEq D] {cfg : Config D} {strict : Prop} {b : Option (Name D)}
  {w w' : World D} {e e' : Entry D} {n name : Name D} {x : ℕ} {t text : Text}

theorem Inv.ticked (h : Inv cfg strict b w) : Inv cfg strict b w.ticked := { h with }

/-! ### Residency -/

theorem readRecord_some {r : Record} (h : w.readRecord name = (some r, w')) :
    w' = w.ticked ∧ w.records.lookup name = some r := by
  obtain ⟨hr, rfl⟩ := Prod.mk.inj h
  split_ifs at hr
  exact ⟨rfl, hr⟩

omit [DecidableEq D] in
theorem importSession_none {r : Record} (h : w.importSession r = (none, w')) : w' = w.ticked := by
  unfold World.importSession at h
  split_ifs at h
  · exact (Prod.mk.inj h).2.symm
  · cases (Prod.mk.inj h).1

omit [DecidableEq D] in
theorem importSession_some {r : Record} (h : w.importSession r = (some x, w')) :
    x = w.next ∧ w' = (w.ticked.insertSession r.session w.choice.evicted).2 := by
  unfold World.importSession at h
  split_ifs at h
  · cases (Prod.mk.inj h).1
  · obtain ⟨hx, hw⟩ := Prod.mk.inj h
    exact ⟨(Option.some.inj hx).symm, hw.symm⟩

omit [DecidableEq D] in
theorem importSessionWithBinding_none {r : Record} {binding : NativeSession}
    (h : w.importSessionWithBinding r text binding = (none, w')) : w' = w.ticked := by
  unfold World.importSessionWithBinding at h
  split_ifs at h
  · exact (Prod.mk.inj h).2.symm
  · cases (Prod.mk.inj h).1

omit [DecidableEq D] in
/-- The historical text is the start of the candidate that the record is of. -/
theorem importSessionWithBinding_some {r : Record} {binding : NativeSession} {chars : ℕ}
    (h : w.importSessionWithBinding r text binding = (some (x, chars), w')) :
    x = w.next ∧ w' = (w.ticked.insertSession r.session w.choice.evicted).2 ∧
      text.take chars = r.session.text := by
  unfold World.importSessionWithBinding at h
  split_ifs at h with hbad
  · cases (Prod.mk.inj h).1
  · obtain ⟨hx, hw⟩ := Prod.mk.inj h
    obtain ⟨rfl, rfl⟩ := Prod.mk.inj (Option.some.inj hx)
    have hpre : r.session.text <+: text := by
      by_contra hnot
      exact hbad (.inr (.inr hnot))
    exact ⟨rfl, hw.symm, (List.prefix_iff_eq_take.mp hpre).symm⟩

/-- A record that leaves nothing out has the text as its tail. -/
theorem textTail_of_zero {r : Record} (h : r.stablePrefixByteLength = 0) :
    r.textTail = r.session.text := by
  have hnil := utf8Len_eq_zero.mp h
  have hsplit := List.take_append_drop r.stable r.session.text
  rwa [hnil, List.nil_append] at hsplit

omit [DecidableEq D] in
theorem insertSession_self (w : World D) (s : NativeSession) (evicted : List ℕ) :
    (w.insertSession s evicted).2.sessions w.next = some s :=
  Function.update_self (f := fun h => if h ∈ evicted then none else w.sessions h) ..

/-- An entry that is only on disk gets a new session. -/
theorem Inv.revive (h : Inv cfg strict none w) (s : NativeSession) (evicted : List ℕ)
    (hx : e.handle = some w.next) (ht : e.text = some s.text) (hr : e.revision = s.revision)
    (hfiled : strict → ∃ row, e.indexEntry = some row ∧ w.index.lookup e.name = some row ∧
      row = cfg.rowOf s.text ∧
      ∀ r, w.records.lookup e.name = some r → row = cfg.rowOf r.session.text) :
    Inv cfg strict none ((w.insertSession s evicted).2.set e) := by
  refine ((h.insertSession s evicted).weaken e.name).set ⟨fun x hx' => ?_, fun hnone => ?_,
    fun hs => ?_⟩
  · obtain rfl := Option.some.inj (hx.symm.trans hx')
    refine ⟨Nat.lt_succ_self _, fun y hy _ => h.free_next hy (Option.some_ne_none _), s.text, ht,
      .inl ?_⟩
    rw [hr]
    exact insertSession_self ..
  · cases hx.symm.trans hnone
  · obtain ⟨row, hrow, hindex, heq, hrec⟩ := hfiled hs
    refine ⟨row, hrow, hindex, fun u hu => ?_, hrec⟩
    rw [heq, Option.some.inj (ht.symm.trans hu)]

omit [DecidableEq D] in
theorem contentIndexEntry_eq (w : World D) {s : NativeSession} (h : w.sessions x = some s) :
    w.contentIndexEntry cfg x = some (cfg.rowOf s.text) := by
  rw [World.contentIndexEntry, h]
  rfl

theorem Inv.resident (h : Inv cfg strict none w) (he : e ∈ w.entries) (candidate : Text) :
    Inv cfg strict none (w.resident cfg e candidate).2 ∧
      ∀ e', (w.resident cfg e candidate).1 = some e' →
        e' ∈ (w.resident cfg e candidate).2.entries ∧ e'.name = e.name ∧
          ∃ x t, e'.handle = some x ∧ e'.text = some t := by
  have hok := h.entryOk he
  have hmiss {w₁ : World D} (h₁ : Inv cfg strict none w₁) (he₁ : e ∈ w₁.entries) :
      Inv cfg strict none (w₁.drop cfg e false) ∧ ∀ e', none = some e' →
        e' ∈ (w₁.drop cfg e false).entries ∧ e'.name = e.name ∧
          ∃ x t, e'.handle = some x ∧ e'.text = some t :=
    ⟨h₁.dropMem he₁ (Option.some_ne_none _) false, fun _ he' => by cases he'⟩
  unfold World.resident
  split_ifs with hboth hdir
  · refine ⟨h, fun e' he' => ?_⟩
    obtain rfl := Option.some.inj he'
    obtain ⟨ht, hx⟩ := Bool.and_eq_true_iff.mp hboth
    obtain ⟨t, ht⟩ := Option.isSome_iff_exists.mp ht
    obtain ⟨x, hx⟩ := Option.isSome_iff_exists.mp hx
    exact ⟨he, rfl, x, t, hx, ht⟩
  · rcases hread : w.readRecord e.name with ⟨_ | view, w₁⟩
    · obtain rfl := (congrArg Prod.snd hread).symm
      exact hmiss h.ticked he
    · obtain ⟨rfl, hview⟩ := readRecord_some hread
      dsimp only
      -- the row of the entry is that of the record
      have hrow : strict → ∃ row, e.indexEntry = some row ∧ w.index.lookup e.name = some row ∧
          row = cfg.rowOf view.session.text ∧
          ∀ r, w.records.lookup e.name = some r → row = cfg.rowOf r.session.text := by
        intro hs
        obtain ⟨row, hrow, hindex, -, hrec⟩ := hok.filed hs
        exact ⟨row, hrow, hindex, hrec view hview, hrec⟩
      have hnew (e' : Entry D) (hname : e'.name = e.name) {w₂ : World D}
          (h₂ : Inv cfg strict none (w₂.set e')) (hmem : e ∈ w₂.entries) {x : ℕ} {t : Text}
          (hx : e'.handle = some x) (ht : e'.text = some t) :
          Inv cfg strict none ((w₂.set e').evictOverBudget cfg e.name) ∧ ∀ e'', some e' = some e'' →
            e'' ∈ ((w₂.set e').evictOverBudget cfg e.name).entries ∧ e''.name = e.name ∧
              ∃ x t, e''.handle = some x ∧ e''.text = some t := by
        obtain ⟨hevict, hkeep⟩ := h₂.evictOverBudget e.name
        refine ⟨hevict, fun e'' heq => ?_⟩
        obtain rfl := Option.some.inj heq
        refine ⟨hkeep e' ?_ hname, hname, x, t, hx, ht⟩
        exact List.mem_map.mpr ⟨e, hmem, if_pos hname.symm⟩
      split_ifs with hzero
      · rcases himport : w.ticked.importSession view with ⟨_ | x, w₂⟩
        · obtain rfl := importSession_none himport
          exact hmiss h.ticked.ticked he
        · obtain ⟨rfl, rfl⟩ := importSession_some himport
          let back : Entry D := { e with
            handle := some w.ticked.next
            text := some view.textTail
            byteLength := view.fullTextByteLength
            revision := view.session.revision }
          exact hnew back rfl (Inv.revive h.ticked.ticked view.session _ rfl
            (congrArg some (textTail_of_zero hzero)) rfl hrow) he rfl rfl
      · rcases hbinding : w.ticked.readBinding e.name with ⟨_ | binding, w₂⟩
        · obtain rfl := (congrArg Prod.snd hbinding).symm
          exact hmiss h.ticked.ticked he
        · obtain rfl := (congrArg Prod.snd hbinding).symm
          dsimp only
          rcases himport : (w.ticked.readBinding e.name).2.importSessionWithBinding view candidate
            binding with ⟨_ | ⟨x, chars⟩, w₃⟩
          · obtain rfl := importSessionWithBinding_none himport
            exact hmiss h.ticked.ticked.ticked he
          · obtain ⟨rfl, rfl, htake⟩ := importSessionWithBinding_some himport
            dsimp only
            rw [show (w.ticked.readBinding e.name).2 = w.ticked.ticked from rfl,
              contentIndexEntry_eq _ (x := w.ticked.ticked.next) (insertSession_self
                w.ticked.ticked.ticked view.session w.ticked.ticked.choice.evicted)]
            let back : Entry D := { e with
              handle := some w.ticked.ticked.next
              text := some (candidate.take chars)
              byteLength := view.fullTextByteLength
              revision := view.session.revision
              indexEntry := some (cfg.rowOf view.session.text) }
            refine hnew back rfl (Inv.revive h.ticked.ticked.ticked view.session _ rfl
              (congrArg some htake) rfl fun hs => ?_) he rfl rfl
            obtain ⟨row, -, hindex, rfl, hrec⟩ := hrow hs
            exact ⟨_, rfl, hindex, rfl, hrec⟩
  · exact ⟨h, fun _ he' => by cases he'⟩

/-! ### Calls on one entry -/

/-- A call for a text: the store is in order after it, and ids are those of the text. -/
structure Called (cfg : Config D) (strict : Prop) (text : Text) (p : Reply × World D) : Prop where
  inv : Inv cfg strict none p.2
  exact_ids : ∀ ids, p.1 = .ids ids → ids = cfg.encode text
  calm : p.1 ≠ .raised

theorem Called.of_plain (h : Inv cfg strict none w) : Called cfg strict text (.plain, w) :=
  ⟨h, (fun _ hids => nomatch hids), (fun hr => nomatch hr)⟩

theorem Called.of_ids (h : Inv cfg strict none w) :
    Called cfg strict text (.ids (cfg.encode text), w) :=
  ⟨h, fun _ hids => (Reply.ids.inj hids).symm, (fun hr => nomatch hr)⟩

omit [DecidableEq D] in
theorem idsBytes_some {ids : List ℤ} (h : w.idsBytes cfg x = (some ids, w')) :
    w' = w.ticked ∧ ∃ s, w.sessions x = some s ∧ ids = cfg.encode s.text := by
  obtain ⟨hids, rfl⟩ := Prod.mk.inj h
  split_ifs at hids
  obtain ⟨s, hs, rfl⟩ := Option.map_eq_some_iff.mp hids
  exact ⟨rfl, s, hs, rfl⟩

/-- The session of an entry, when it is still there, is of the text of the entry. -/
theorem Inv.session_eq (h : Inv cfg strict none w) (he : e ∈ w.entries) (hx : e.handle = some x)
    (ht : e.text = some t) {s : NativeSession} (hs : w.sessions x = some s) :
    s = ⟨t, e.revision⟩ := by
  obtain ⟨-, u, hu, hses⟩ := h.held e he (Option.some_ne_none _) x hx
  obtain rfl := Option.some.inj (ht.symm.trans hu)
  rcases hses with hses | ⟨hnone, -⟩
  · exact Option.some.inj (hs.symm.trans hses)
  · cases hs.symm.trans hnone

theorem Inv.entryIds (h : Inv cfg strict none w) (he : e ∈ w.entries) (hx : e.handle = some x)
    (ht : e.text = some t) : Called cfg strict t (w.entryIds cfg e) := by
  unfold World.entryIds
  rw [hx]
  dsimp only
  rcases hids : w.idsBytes cfg x with ⟨_ | ids, w₁⟩
  · obtain rfl := (congrArg Prod.snd hids).symm
    exact .of_plain (h.ticked.dropMem he (Option.some_ne_none _) false)
  · obtain ⟨rfl, s, hs, rfl⟩ := idsBytes_some hids
    rw [h.session_eq he hx ht hs]
    exact .of_ids h.ticked

omit [DecidableEq D] in
theorem put_some {p : ℕ × ℕ} (h : w.put text = (some p, w')) :
    p = (w.next, 0) ∧ w' = (w.ticked.insertSession ⟨text, 0⟩ w.choice.evicted).2 := by
  unfold World.put at h
  split_ifs at h
  · cases (Prod.mk.inj h).1
  · obtain ⟨hp, hw⟩ := Prod.mk.inj h
    exact ⟨(Option.some.inj hp).symm, hw.symm⟩

omit [DecidableEq D] in
theorem put_none (h : w.put text = (none, w')) : w' = w.ticked := by
  unfold World.put at h
  split_ifs at h
  · exact (Prod.mk.inj h).2.symm
  · cases (Prod.mk.inj h).1

theorem Inv.writeEntry (h : Inv cfg strict none w) (name : Name D) (kind : Kind) (text : Text) :
    Called cfg strict text (w.writeEntry cfg name kind text) := by
  -- the session of the previous entry is gone, and only the entry of this name depends on it
  have hstart : Inv cfg strict (some name) (((w.get name).map w.releaseHandle).getD w) ∧
      (((w.get name).map w.releaseHandle).getD w).entries = w.entries := by
    cases hget : w.get name with
    | none => exact ⟨h.weaken name, rfl⟩
    | some e =>
      obtain ⟨he, rfl⟩ := get_some hget
      exact ⟨h.releaseHandle (fun _ _ => Option.some_ne_none _) fun x hx => h.free he hx,
        (releaseHandle_rest w e).1⟩
  have hmiss {w₁ : World D} (h₁ : Inv cfg strict (some name) w₁) (hsame : w₁.entries = w.entries) :
      Inv cfg strict none (((w.get name).map fun e => w₁.drop cfg e false).getD w₁) := by
    cases hget : w.get name with
    | none => exact h₁.close fun y hy hname => absurd hname (get_none hget y (hsame ▸ hy))
    | some e =>
      obtain ⟨he, rfl⟩ := get_some hget
      refine h₁.drop (fun m hm _ heq => hm (Option.some.inj heq)) (fun x hx y hy hne _ => ?_) false
      exact h.free he hx y (hsame ▸ hy) hne
  unfold World.writeEntry
  dsimp only
  generalize ((w.get name).map w.releaseHandle).getD w = w₀ at hstart
  obtain ⟨h₀, hentries⟩ := hstart
  rcases hput : w₀.put text with ⟨_ | ⟨x, revision⟩, w₁⟩
  · obtain rfl := put_none hput
    exact .of_plain (hmiss h₀.ticked hentries)
  · obtain ⟨hx, rfl⟩ := put_some hput
    obtain ⟨rfl, rfl⟩ := Prod.mk.inj hx
    have h₁ : Inv cfg strict (some name) _ := h₀.ticked.insertSession ⟨text, 0⟩ w₀.choice.evicted
    have hsession := insertSession_self w₀.ticked ⟨text, 0⟩ w₀.choice.evicted
    dsimp only
    rcases hids : (w₀.ticked.insertSession ⟨text, 0⟩ w₀.choice.evicted).2.idsBytes cfg w₀.next with
      ⟨_ | ids, w₂⟩
    · obtain rfl := (congrArg Prod.snd hids).symm
      exact .of_plain (hmiss h₁.ticked hentries)
    · obtain ⟨rfl, s, hs, rfl⟩ := idsBytes_some hids
      obtain rfl := Option.some.inj (hs.symm.trans hsession)
      dsimp only
      rw [contentIndexEntry_eq (w₀.ticked.insertSession ⟨text, 0⟩ w₀.choice.evicted).2.ticked
        (x := w₀.next) hsession]
      refine .of_ids (h₁.ticked.keep (Nat.lt_succ_self _) (fun y hy hne => ?_) hsession)
      exact h₀.free_next hy fun heq => hne (Option.some.inj heq)

omit [DecidableEq D] in
theorem append_none {delta : Text} {revision : ℕ} (h : w.append cfg x delta revision = (none, w')) :
    w' = w.ticked := by
  unfold World.append at h
  cases hs : w.sessions x with
  | none =>
    rw [hs] at h
    exact (Prod.mk.inj h).2.symm
  | some s =>
    rw [hs] at h
    dsimp only at h
    split_ifs at h
    · exact (Prod.mk.inj h).2.symm
    · cases (Prod.mk.inj h).1

omit [DecidableEq D] in
theorem append_some {delta : Text} {revision : ℕ} {p : List ℤ × ℕ}
    (h : w.append cfg x delta revision = (some p, w')) : ∃ s, w.sessions x = some s ∧
      p = (cfg.encode (s.text ++ delta), s.revision + 1) ∧ w' = { w.ticked with
        sessions := Function.update w.sessions x (some ⟨s.text ++ delta, s.revision + 1⟩) } := by
  unfold World.append at h
  cases hs : w.sessions x with
  | none =>
    rw [hs] at h
    cases (Prod.mk.inj h).1
  | some s =>
    rw [hs] at h
    dsimp only at h
    split_ifs at h
    · cases (Prod.mk.inj h).1
    · obtain ⟨hp, hw⟩ := Prod.mk.inj h
      exact ⟨s, rfl, (Option.some.inj hp).symm, hw.symm⟩

theorem Inv.appendEntry (h : Inv cfg strict none w) (he : e ∈ w.entries) (hx : e.handle = some x)
    (ht : e.text = some t) (delta : Text) :
    Called cfg strict (t ++ delta) (w.appendEntry cfg e delta) := by
  have hlt : x < w.next := (h.held e he (Option.some_ne_none _) x hx).1
  have hfree := h.free he hx
  unfold World.appendEntry
  rw [hx, ht]
  dsimp only
  rcases happend : w.append cfg x delta e.revision with ⟨_ | ⟨ids, revision⟩, w₁⟩
  · obtain rfl := append_none happend
    exact .of_plain (h.ticked.dropMem he (Option.some_ne_none _) false)
  · obtain ⟨s, hs, hp, rfl⟩ := append_some happend
    obtain rfl := h.session_eq he hx ht hs
    obtain ⟨rfl, rfl⟩ := Prod.mk.inj hp
    dsimp only
    have hsession : Function.update w.sessions x (some ⟨t ++ delta, e.revision + 1⟩) x =
        some ⟨t ++ delta, e.revision + 1⟩ := Function.update_self ..
    rw [contentIndexEntry_eq { w.ticked with sessions := Function.update w.sessions x _ } hsession]
    let entry : Entry D := { e with
      text := some (t ++ delta)
      handle := some x
      revision := e.revision + 1
      indexEntry := some (cfg.rowOf (t ++ delta))
      byteLength := (cfg.rowOf (t ++ delta)).byteLength }
    -- the session, the entry and the row change together
    have hset : Inv cfg strict (some entry.name) (World.set _ entry) :=
      Inv.setOut (e := entry)
        ((h.weaken e.name).updateSession hlt
          (fun y hy hne => hfree y hy fun hname => hne (congrArg some hname))
          ⟨t ++ delta, e.revision + 1⟩)
    have hput : Inv cfg strict (some entry.name)
        ((World.set _ entry).indexPut e.name (cfg.rowOf (t ++ delta))) :=
      hset.frame (.refl _) (fun _ _ hne => hne) le_rfl hset.fresh rfl (fun _ _ hr => hr)
        (List.Subset.refl _) fun y _ hne =>
          ⟨fun _ _ => .inl rfl, AList.lookup_insert_ne fun heq => hne (congrArg some heq)⟩
    refine .of_ids (Inv.evictOverBudget (Inv.persistIndex (Inv.persistEntry (e := entry) hput rfl rfl
      hlt (fun y hy hne => ?_) hsession rfl (AList.lookup_insert _) fun y hy hname => ?_)) e.name).1
    · rcases mem_set hy with rfl | ⟨hy, hne⟩
      · exact absurd rfl hne
      · exact hfree y hy hne
    · rcases mem_set hy with rfl | ⟨-, hne⟩
      · rfl
      · exact absurd hname hne

/-! ### Forks -/

theorem Inv.adoptFork (h : Inv cfg strict none w) (hlt : x < w.next)
    (hfree : ∀ y ∈ w.entries, y.handle ≠ some x) {revision : ℕ}
    (hsession : w.sessions x = some ⟨text, revision⟩) :
    ∃ w', w.adoptFork cfg x text revision = some w' ∧ Inv cfg strict none w' := by
  unfold World.adoptFork
  rw [contentIndexEntry_eq w hsession, Option.map_some]
  refine ⟨_, rfl, ?_⟩
  dsimp only
  generalize Name.auto (cfg.rowOf text).endDigest = name
  cases hget : w.get name with
  | none => exact (h.weaken name).keep hlt (fun y hy _ => hfree y hy) hsession
  | some e =>
    obtain ⟨he, rfl⟩ := get_some hget
    obtain ⟨hentries, -, hsessions⟩ := drop_rest cfg w e false
    have hdrop := (h.dropMem he (Option.some_ne_none _) false).weaken e.name
    refine hdrop.keep ?_ (fun y hy _ => ?_) ?_
    · rwa [drop_next]
    · rw [hentries] at hy
      exact hfree y (List.mem_of_mem_filter hy)
    · rw [hsessions x (hfree e he), hsession]

omit [DecidableEq D] in
theorem fork_none (h : w.fork x = (none, w')) : w' = w.ticked := by
  unfold World.fork at h
  cases hs : w.sessions x with
  | none =>
    rw [hs] at h
    exact (Prod.mk.inj h).2.symm
  | some s =>
    rw [hs] at h
    dsimp only at h
    split_ifs at h
    · exact (Prod.mk.inj h).2.symm
    · cases (Prod.mk.inj h).1

omit [DecidableEq D] in
theorem fork_some {y : ℕ} (h : w.fork x = (some y, w')) : ∃ s, w.sessions x = some s ∧
    y = w.next ∧ w' = (w.ticked.insertSession ⟨s.text, 0⟩ w.choice.evicted).2 := by
  unfold World.fork at h
  cases hs : w.sessions x with
  | none =>
    rw [hs] at h
    cases (Prod.mk.inj h).1
  | some s =>
    rw [hs] at h
    dsimp only at h
    split_ifs at h
    · cases (Prod.mk.inj h).1
    · obtain ⟨hy, hw⟩ := Prod.mk.inj h
      exact ⟨s, rfl, (Option.some.inj hy).symm, hw.symm⟩

/-- A session of no entry goes. -/
theorem Inv.releaseFree (h : Inv cfg strict none w) (hfree : ∀ y ∈ w.entries, y.handle ≠ some x) :
    Inv cfg strict none (w.release x) :=
  h.release (fun _ hn => hn) fun y hy _ => hfree y hy

theorem Inv.serveExtension (h : Inv cfg strict none w) (he : e ∈ w.entries)
    (hx : e.handle = some x) (ht : e.text = some t) (hpre : t <+: text) :
    Called cfg strict text (w.serveExtension cfg e t text) := by
  have hwhole : t ++ text.drop t.length = text := List.prefix_iff_eq_append.mp hpre
  unfold World.serveExtension
  dsimp only
  cases e.kind with
  | auto =>
    have hcall := h.appendEntry he hx ht (text.drop t.length)
    rwa [hwhole] at hcall
  | session =>
    dsimp only
    rw [hx]
    dsimp only
    rcases hfork : w.fork x with ⟨_ | fork, w₁⟩
    · obtain rfl := fork_none hfork
      exact .of_plain h.ticked
    · obtain ⟨s, hs, rfl, rfl⟩ := fork_some hfork
      obtain rfl := h.session_eq he hx ht hs
      have h₁ : Inv cfg strict none _ := h.ticked.insertSession ⟨t, 0⟩ w.choice.evicted
      have hfree : ∀ y ∈ w.entries, y.handle ≠ some w.next :=
        fun y hy => h.free_next hy (Option.some_ne_none _)
      have hself := insertSession_self w.ticked ⟨t, 0⟩ w.choice.evicted
      dsimp only
      rcases happend : (w.ticked.insertSession ⟨t, 0⟩ w.choice.evicted).2.append cfg w.next
        (text.drop t.length) 0 with ⟨_ | ⟨ids, revision⟩, w₂⟩
      · obtain rfl := append_none happend
        exact .of_plain (h₁.ticked.releaseFree hfree)
      · obtain ⟨s, hs, hp, rfl⟩ := append_some happend
        obtain rfl := Option.some.inj (hs.symm.trans hself)
        obtain ⟨rfl, rfl⟩ := Prod.mk.inj hp
        dsimp only
        rw [hwhole]
        have h₂ : Inv cfg strict none { (w.ticked.insertSession ⟨t, 0⟩ w.choice.evicted).2.ticked with
            sessions := Function.update (w.ticked.insertSession ⟨t, 0⟩ w.choice.evicted).2.sessions
              w.next (some ⟨text, 0 + 1⟩) } :=
          h₁.updateSession (Nat.lt_succ_self _) (fun y hy _ => hfree y hy) ⟨text, 0 + 1⟩
        split_ifs
        · obtain ⟨w₃, hadopt, h₃⟩ := h₂.adoptFork (x := w.next) (Nat.lt_succ_self _) hfree
            (Function.update_self ..)
          rw [hadopt]
          exact .of_ids h₃
        · exact .of_ids (h₂.releaseFree hfree)

/-! ### Calls -/

theorem Inv.discardAbsent (h : Inv cfg strict none w) (hnone : w.get name = none) :
    Inv cfg strict none (w.discard name) :=
  h.frame (.refl _) (fun _ _ hne => hne) le_rfl h.fresh rfl (fun _ _ hr => hr)
    (List.Subset.refl _) fun y hy _ =>
      ⟨fun _ _ => .inl rfl, AList.lookup_erase_ne (get_none hnone y hy)⟩

theorem Inv.serveCandidates (h : Inv cfg strict none w) (text : Text) (names : List (Name D)) :
    Called cfg strict text (World.serveCandidates cfg text names w) := by
  induction names generalizing w with
  | nil => exact .of_plain h
  | cons name names ih =>
    unfold World.serveCandidates
    cases hget : w.get name with
    | none => exact ih (h.discardAbsent hget)
    | some e =>
      dsimp only
      have hres := h.resident (get_some hget).1 text
      rcases hresident : w.resident cfg e text with ⟨_ | e', w₁⟩
      · rw [hresident] at hres
        exact ih hres.1
      · rw [hresident] at hres
        obtain ⟨h₁, hback⟩ := hres
        obtain ⟨he', -, x, t, hx, ht⟩ := hback e' rfl
        dsimp only
        rw [ht]
        dsimp only
        split_ifs with hpre heq
        · obtain ⟨htouch, he'⟩ := h₁.touch he'
          exact heq ▸ htouch.entryIds he' hx ht
        · obtain ⟨htouch, he'⟩ := h₁.touch he'
          exact htouch.serveExtension he' hx ht hpre
        · exact ih h₁

theorem Inv.serveFromIndex (h : Inv cfg strict none w) (text : Text) :
    Called cfg strict text (w.serveFromIndex cfg text) := by
  unfold World.serveFromIndex
  dsimp only
  split_ifs
  · exact .of_plain h
  · exact h.serveCandidates text _

theorem Inv.encodeAuto (h : Inv cfg strict none w) (text : Text) :
    Called cfg strict text (w.encodeAuto cfg text) := by
  unfold World.encodeAuto
  have hserved := h.serveFromIndex text
  rcases hfound : w.serveFromIndex cfg text with ⟨_ | _ | _, w₁⟩
  · rw [hfound] at hserved
    exact hserved
  · rw [hfound] at hserved
    dsimp only
    split_ifs
    · exact .of_plain hserved.inv
    · exact hserved.inv.writeEntry _ .auto text
  · rw [hfound] at hserved
    exact hserved

theorem Inv.encodeSession (h : Inv cfg strict none w) (id text : Text) :
    Called cfg strict text (w.encodeSession cfg id text) := by
  unfold World.encodeSession
  cases hget : w.get (.session id) with
  | none => exact h.writeEntry _ .session text
  | some e =>
    dsimp only
    have hres := h.resident (get_some hget).1 text
    rcases hresident : w.resident cfg e text with ⟨_ | e', w₁⟩
    · rw [hresident] at hres
      exact hres.1.writeEntry _ .session text
    · rw [hresident] at hres
      obtain ⟨h₁, hback⟩ := hres
      obtain ⟨he', -, x, t, hx, ht⟩ := hback e' rfl
      obtain ⟨htouch, he'⟩ := h₁.touch he'
      dsimp only
      rw [ht]
      dsimp only
      split_ifs with heq hpre
      · exact heq ▸ htouch.entryIds he' hx ht
      · have hcall := htouch.appendEntry he' hx ht (text.drop t.length)
        rwa [List.prefix_iff_eq_append.mp hpre] at hcall
      · exact htouch.writeEntry _ .session text

end Toktier.Facade.Entries
