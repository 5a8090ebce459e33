import Toktier.Facade.EntryStore

/-!
# What the entry store keeps

The invariant says what every entry has to do with its session, with the index and with its
record on disk. Where a call takes an entry apart, it is stated for the entries but one.

## Main definitions

* `Inv`: the invariant; its part about rows and records is asked for only when `strict` holds.

## Main results

* `Inv.evictOverBudget`, `Inv.persistEntry`, `Inv.keep`: the parts of a call.
-/
namespace Toktier.Facade.Entries

open Toktier.Lib

variable {D : Type} [DecidableEq D] {cfg : Config D} {strict : Prop} {b b' : Option (Name D)}
  {w w' : World D} {e : Entry D} {n name : Name D} {x : ℕ} {t text : Text}

/-- The row of a text. -/
def Config.rowOf (cfg : Config D) (text : Text) : Row D := entryFor cfg.digest (utf8 text)

/-- The invariant, for all entries but one. -/
structure Inv (cfg : Config D) (strict : Prop) (b : Option (Name D)) (w : World D) : Prop where
  nodup : (w.entries.map Entry.name).Nodup
  held : ∀ e ∈ w.entries, some e.name ≠ b → ∀ x, e.handle = some x →
    x < w.next ∧ ∃ t, e.text = some t ∧
      (w.sessions x = some ⟨t, e.revision⟩ ∨ w.sessions x = none ∧ x ∈ w.lost)
  bare : ∀ e ∈ w.entries, some e.name ≠ b → e.handle = none → e.text = none
  filed : strict → ∀ e ∈ w.entries, some e.name ≠ b → ∃ row, e.indexEntry = some row ∧
    w.index.lookup e.name = some row ∧ (∀ t, e.text = some t → row = cfg.rowOf t) ∧
    ∀ r, w.records.lookup e.name = some r → row = cfg.rowOf r.session.text
  apart : ∀ e ∈ w.entries, ∀ e' ∈ w.entries, some e.name ≠ b → some e'.name ≠ b →
    ∀ x, e.handle = some x → e'.handle = some x → e.name = e'.name
  fresh : ∀ x, w.next ≤ x → w.sessions x = none
  memory : cfg.directory = false → ∀ n, w.records.lookup n = none
  written : strict → cfg.directory = true → ∀ i, (w.choices i).unwritten true = false

/-- Entries may go, and what belongs to the others must stay. -/
theorem Inv.frame (h : Inv cfg strict b w) (hsub : w'.entries.Sublist w.entries)
    (hb : ∀ e ∈ w'.entries, some e.name ≠ b' → some e.name ≠ b) (hnext : w.next ≤ w'.next)
    (hfresh : ∀ x, w'.next ≤ x → w'.sessions x = none) (hchoices : w'.choices = w.choices)
    (hmemory : ∀ n r, w'.records.lookup n = some r → w.records.lookup n = some r)
    (hlost : w.lost ⊆ w'.lost)
    (hsame : ∀ e ∈ w'.entries, some e.name ≠ b' →
      (∀ x, e.handle = some x →
        w'.sessions x = w.sessions x ∨ w'.sessions x = none ∧ x ∈ w'.lost) ∧
      w'.index.lookup e.name = w.index.lookup e.name) : Inv cfg strict b' w' := by
  refine ⟨h.nodup.sublist (hsub.map _), fun e he hne x hx => ?_, fun e he hne => ?_,
    fun hs e he hne => ?_, fun e he e' he' hne hne' => ?_, hfresh, fun hd n => ?_, ?_⟩
  · obtain ⟨hlt, t, ht, hses⟩ := h.held e (hsub.subset he) (hb e he hne) x hx
    refine ⟨hlt.trans_le hnext, t, ht, ?_⟩
    rcases (hsame e he hne).1 x hx with heq | hgone
    · rw [heq]
      exact hses.imp_right fun hl => ⟨hl.1, hlost hl.2⟩
    · exact .inr hgone
  · exact h.bare e (hsub.subset he) (hb e he hne)
  · obtain ⟨row, hrow, hindex, htext, hrec⟩ := h.filed hs e (hsub.subset he) (hb e he hne)
    exact ⟨row, hrow, (hsame e he hne).2.trans hindex, htext,
      fun r hr => hrec r (hmemory e.name r hr)⟩
  · exact h.apart e (hsub.subset he) e' (hsub.subset he') (hb e he hne) (hb e' he' hne')
  · refine Option.eq_none_iff_forall_ne_some.mpr fun r hr => ?_
    exact nomatch (h.memory hd n).symm.trans (hmemory n r hr)
  · rw [hchoices]
    exact h.written

theorem Inv.weaken (h : Inv cfg strict none w) (n : Name D) : Inv cfg strict (some n) w :=
  h.frame (.refl _) (fun _ _ _ => Option.some_ne_none _) le_rfl h.fresh rfl (fun _ _ hr => hr)
    (List.Subset.refl _) fun _ _ _ => ⟨fun _ _ => .inl rfl, rfl⟩

theorem get_some (h : w.get name = some e) : e ∈ w.entries ∧ e.name = name :=
  ⟨List.mem_of_find?_eq_some h, by simpa using List.find?_some h⟩

theorem get_none (h : w.get name = none) : ∀ e ∈ w.entries, e.name ≠ name := by
  intro e he heq
  exact List.find?_eq_none.mp h e he (by simpa using heq)

/-! ### Native sessions -/

/-- No entry but one has the handle. -/
def Free (w : World D) (n : Name D) (x : ℕ) : Prop :=
  ∀ e ∈ w.entries, e.name ≠ n → e.handle ≠ some x

theorem Inv.free (h : Inv cfg strict none w) (he : e ∈ w.entries) (hx : e.handle = some x) :
    Free w e.name x := fun e' he' hne hx' =>
  hne (h.apart e' he' e he (Option.some_ne_none _) (Option.some_ne_none _) x hx' hx)

/-- The handle of a new session is no entry's. -/
theorem Inv.free_next (h : Inv cfg strict b w) (he : e ∈ w.entries) (hne : some e.name ≠ b) :
    e.handle ≠ some w.next := fun hx => lt_irrefl _ (h.held e he hne _ hx).1

theorem Inv.insertSession (h : Inv cfg strict b w) (s : NativeSession) (evicted : List ℕ) :
    Inv cfg strict b (w.insertSession s evicted).2 := by
  refine h.frame (.refl _) (fun _ _ hne => hne) (Nat.le_succ _) (fun x hx => ?_) rfl
    (fun _ _ hr => hr) (List.subset_append_right _ _) fun e he hne =>
      ⟨fun x hx => ?_, rfl⟩
  · have hx : w.next + 1 ≤ x := hx
    change Function.update (fun x => if x ∈ evicted then none else w.sessions x) w.next _ x = none
    rw [Function.update_of_ne (by omega), h.fresh x (by omega), ite_self]
  · have hlt := (h.held e he hne x hx).1
    change Function.update (fun x => if x ∈ evicted then none else w.sessions x) w.next _ x = _ ∨
      Function.update (fun x => if x ∈ evicted then none else w.sessions x) w.next _ x = _ ∧
        x ∈ evicted.filter (· < w.next) ++ w.lost
    rw [Function.update_of_ne hlt.ne]
    split_ifs with hgone
    · exact .inr ⟨rfl, List.mem_append_left _ (List.mem_filter.mpr ⟨hgone, by simpa using hlt⟩)⟩
    · exact .inl rfl

/-- A session goes that belongs to no entry, or to the one entry. -/
theorem Inv.release (h : Inv cfg strict b w) (hb : ∀ n, some n ≠ b' → some n ≠ b)
    (hfree : ∀ e ∈ w.entries, some e.name ≠ b' → e.handle ≠ some x) :
    Inv cfg strict b' (w.release x) := by
  refine h.frame (.refl _) (fun _ _ hne => hb _ hne) le_rfl (fun y hy => ?_) rfl
    (fun _ _ hr => hr) (List.Subset.refl _) fun e he hne => ⟨fun y hy => .inl ?_, rfl⟩
  · change Function.update w.sessions x none y = none
    rw [Function.update_apply, h.fresh y hy, ite_self]
  · refine Function.update_of_ne (fun heq => hfree e he hne ?_) ..
    rw [← heq]
    exact hy

/-- A session changes that belongs to no entry, or to the one entry. -/
theorem Inv.updateSession (h : Inv cfg strict b w) (hlt : x < w.next)
    (hfree : ∀ e ∈ w.entries, some e.name ≠ b → e.handle ≠ some x) (s : NativeSession) :
    Inv cfg strict b { w.ticked with sessions := Function.update w.sessions x (some s) } := by
  refine h.frame (.refl _) (fun _ _ hne => hne) le_rfl (fun y hy => ?_) rfl (fun _ _ hr => hr)
    (List.Subset.refl _) fun e he hne => ⟨fun y hy => .inl ?_, rfl⟩
  · have hy : w.next ≤ y := hy
    exact (Function.update_of_ne (by omega) ..).trans (h.fresh y hy)
  · refine Function.update_of_ne (fun heq => hfree e he hne ?_) ..
    rw [← heq]
    exact hy

theorem Inv.releaseHandle (h : Inv cfg strict b w) (hb : ∀ n, n ≠ e.name → some n ≠ b)
    (hfree : ∀ x, e.handle = some x → Free w e.name x) :
    Inv cfg strict (some e.name) (w.releaseHandle e) := by
  have hsome {n : Name D} (hn : some n ≠ some e.name) : n ≠ e.name := fun heq => hn (heq ▸ rfl)
  unfold World.releaseHandle
  cases hx : e.handle with
  | none =>
    exact h.frame (.refl _) (fun _ _ hne => hb _ (hsome hne)) le_rfl h.fresh rfl
      (fun _ _ hr => hr) (List.Subset.refl _) fun _ _ _ => ⟨fun _ _ => .inl rfl, rfl⟩
  | some x =>
    exact h.release (fun n hn => hb n (hsome hn)) fun e' he' hne => hfree x hx e' he' (hsome hne)

/-! ### Entries that go -/

theorem mem_pop : e ∈ (w.pop n).entries ↔ e ∈ w.entries ∧ e.name ≠ n := by
  simp [World.pop]

omit [DecidableEq D] in
theorem releaseHandle_rest (w : World D) (e : Entry D) :
    (w.releaseHandle e).entries = w.entries ∧ (w.releaseHandle e).index = w.index ∧
      (w.releaseHandle e).records = w.records ∧ (w.releaseHandle e).next = w.next ∧
      (w.releaseHandle e).lost = w.lost ∧ (w.releaseHandle e).choices = w.choices ∧
      ∀ y, e.handle ≠ some y → (w.releaseHandle e).sessions y = w.sessions y := by
  unfold World.releaseHandle
  cases hx : e.handle with
  | none => exact ⟨rfl, rfl, rfl, rfl, rfl, rfl, fun _ _ => rfl⟩
  | some x =>
    refine ⟨rfl, rfl, rfl, rfl, rfl, rfl, fun y hy => ?_⟩
    exact Function.update_of_ne (fun heq => hy (congrArg some heq.symm)) ..

/-- An entry is taken out of the dictionary and of the index. -/
theorem Inv.takeOut (h : Inv cfg strict b w) (hb : ∀ m, m ≠ n → some m ≠ b' → some m ≠ b) :
    Inv cfg strict b' ((w.pop n).discard n) := by
  refine h.frame List.filter_sublist (fun e he hne => hb _ (mem_pop.mp he).2 hne) le_rfl h.fresh
    rfl (fun _ _ hr => hr) (List.Subset.refl _) fun e he hne => ⟨fun _ _ => .inl rfl, ?_⟩
  exact AList.lookup_erase_ne (mem_pop.mp he).2

theorem Inv.unlinked (h : Inv cfg strict b w) (n : Name D) :
    Inv cfg strict b ((w.unlinkRecord n).unlinkBinding n) := by
  refine h.frame (.refl _) (fun _ _ hne => hne) le_rfl h.fresh rfl (fun m r hr => ?_)
    (List.Subset.refl _) fun _ _ _ => ⟨fun _ _ => .inl rfl, rfl⟩
  change (if w.choice.fails then w.records else w.records.erase n).lookup m = some r at hr
  split_ifs at hr
  · exact hr
  · exact (Lib.lookup_erase_eq_some.mp hr).2

theorem Inv.drop (h : Inv cfg strict b w) (hb : ∀ m, m ≠ e.name → some m ≠ b' → some m ≠ b)
    (hfree : ∀ x, e.handle = some x → ∀ y ∈ w.entries, y.name ≠ e.name → some y.name ≠ b →
      y.handle ≠ some x) (removeFile : Bool) : Inv cfg strict b' (w.drop cfg e removeFile) := by
  obtain ⟨hentries, hindex, hrecords, hnext, hlost, hchoices, hsessions⟩ := releaseHandle_rest w e
  have hout : Inv cfg strict b' (((w.releaseHandle e).pop e.name).discard e.name) := by
    refine h.frame ?_ (fun y hy hne => hb _ (mem_pop.mp hy).2 hne) hnext.ge (fun y hy => ?_)
      hchoices (fun m r hr => ?_) (hlost ▸ List.Subset.refl _) fun y hy hne => ⟨fun x hx => .inl ?_, ?_⟩
    · change ((w.releaseHandle e).entries.filter _).Sublist _
      rw [hentries]
      exact List.filter_sublist
    · change (w.releaseHandle e).sessions y = none
      have hy : (w.releaseHandle e).next ≤ y := hy
      rw [hnext] at hy
      unfold World.releaseHandle
      cases e.handle with
      | none => exact h.fresh y hy
      | some x =>
        change Function.update w.sessions x none y = none
        rw [Function.update_apply, h.fresh y hy, ite_self]
    · rw [← hrecords]
      exact hr
    · obtain ⟨hy, hye⟩ := mem_pop.mp hy
      rw [hentries] at hy
      exact hsessions x fun hex => hfree x hex y hy hye (hb _ hye hne) hx
    · change ((w.releaseHandle e).index.erase e.name).lookup y.name = _
      rw [hindex]
      exact AList.lookup_erase_ne (mem_pop.mp hy).2
  unfold World.drop
  dsimp only
  split_ifs
  · exact hout.unlinked e.name
  · exact hout

/-- An entry of the dictionary is dropped. -/
theorem Inv.dropMem (h : Inv cfg strict b w) (he : e ∈ w.entries) (hne : some e.name ≠ b)
    (removeFile : Bool) : Inv cfg strict b (w.drop cfg e removeFile) :=
  h.drop (fun _ _ hm => hm) (fun x hx y hy hye hyb hyx => hye (h.apart y hy e he hyb hne x hyx hx))
    removeFile

theorem drop_rest (cfg : Config D) (w : World D) (e : Entry D) (removeFile : Bool) :
    (w.drop cfg e removeFile).entries = w.entries.filter (fun y => y.name ≠ e.name) ∧
      (∀ m, m ≠ e.name → (w.drop cfg e removeFile).index.lookup m = w.index.lookup m) ∧
      ∀ y, e.handle ≠ some y → (w.drop cfg e removeFile).sessions y = w.sessions y := by
  obtain ⟨hentries, hindex, -, -, -, -, hsessions⟩ := releaseHandle_rest w e
  have hout : ((w.releaseHandle e).pop e.name).entries =
      w.entries.filter fun y => y.name ≠ e.name := by
    rw [World.pop, hentries]
  have hlookup (m : Name D) (hm : m ≠ e.name) :
      ((w.releaseHandle e).index.erase e.name).lookup m = w.index.lookup m := by
    rw [hindex, AList.lookup_erase_ne hm]
  unfold World.drop
  dsimp only
  split_ifs
  · exact ⟨hout, hlookup, hsessions⟩
  · exact ⟨hout, hlookup, hsessions⟩

theorem drop_next (w : World D) (e : Entry D) (removeFile : Bool) :
    (w.drop cfg e removeFile).next = w.next := by
  obtain ⟨-, -, -, hnext, -⟩ := releaseHandle_rest w e
  unfold World.drop
  dsimp only
  split_ifs <;> exact hnext

/-! ### Entries that change -/

theorem mem_set {y : Entry D} :
    y ∈ (w.set e).entries → y = e ∨ y ∈ w.entries ∧ y.name ≠ e.name := by
  intro hy
  obtain ⟨y', hy', rfl⟩ := List.mem_map.mp hy
  split_ifs with hname
  · exact .inl rfl
  · exact .inr ⟨hy', hname⟩

theorem set_names (w : World D) (e : Entry D) :
    (w.set e).entries.map Entry.name = w.entries.map Entry.name := by
  unfold World.set
  rw [List.map_map]
  refine List.map_congr_left fun y _ => ?_
  change (if y.name = e.name then e else y).name = y.name
  split_ifs with hname
  · exact hname.symm
  · rfl

/-- What one entry has to do with the rest. -/
structure EntryOk (cfg : Config D) (strict : Prop) (w : World D) (e : Entry D) : Prop where
  held : ∀ x, e.handle = some x → x < w.next ∧ Free w e.name x ∧ ∃ t, e.text = some t ∧
    (w.sessions x = some ⟨t, e.revision⟩ ∨ w.sessions x = none ∧ x ∈ w.lost)
  bare : e.handle = none → e.text = none
  filed : strict → ∃ row, e.indexEntry = some row ∧ w.index.lookup e.name = some row ∧
    (∀ t, e.text = some t → row = cfg.rowOf t) ∧
    ∀ r, w.records.lookup e.name = some r → row = cfg.rowOf r.session.text

theorem Inv.entryOk (h : Inv cfg strict none w) (he : e ∈ w.entries) : EntryOk cfg strict w e where
  held := fun x hx => by
    obtain ⟨hlt, ht⟩ := h.held e he (Option.some_ne_none _) x hx
    exact ⟨hlt, h.free he hx, ht⟩
  bare := h.bare e he (Option.some_ne_none _)
  filed := fun hs => h.filed hs e he (Option.some_ne_none _)

/-- The one entry is in order again. -/
theorem Inv.close (h : Inv cfg strict (some n) w)
    (hok : ∀ e ∈ w.entries, e.name = n → EntryOk cfg strict w e) : Inv cfg strict none w := by
  have hsome {m : Name D} (hm : m ≠ n) : some m ≠ some n := fun heq => hm (Option.some.inj heq)
  refine { h with
    held := fun y hy _ x hx => ?_
    bare := fun y hy _ => ?_
    filed := fun hs y hy _ => ?_
    apart := fun y hy y' hy' _ _ x hx hx' => ?_ }
  · by_cases hn : y.name = n
    · exact ⟨((hok y hy hn).held x hx).1, ((hok y hy hn).held x hx).2.2⟩
    · exact h.held y hy (hsome hn) x hx
  · by_cases hn : y.name = n
    · exact (hok y hy hn).bare
    · exact h.bare y hy (hsome hn)
  · by_cases hn : y.name = n
    · exact (hok y hy hn).filed hs
    · exact h.filed hs y hy (hsome hn)
  · by_contra hne
    by_cases hn : y.name = n
    · exact ((hok y hy hn).held x hx).2.1 y' hy' (Ne.symm hne) hx'
    · by_cases hn' : y'.name = n
      · exact ((hok y' hy' hn').held x hx').2.1 y hy hne hx
      · exact hne (h.apart y hy y' hy' (hsome hn) (hsome hn') x hx hx')

/-- What is written in the place of the one entry is no other entry. -/
theorem Inv.setOut (h : Inv cfg strict (some e.name) w) : Inv cfg strict (some e.name) (w.set e) := by
  have hold {y : Entry D} (hy : y ∈ (w.set e).entries) (hne : some y.name ≠ some e.name) :
      y ∈ w.entries := by
    rcases mem_set hy with rfl | ⟨hy, -⟩
    · exact absurd rfl hne
    · exact hy
  exact { h with
    nodup := (set_names w e).symm ▸ h.nodup
    held := fun y hy hne => h.held y (hold hy hne) hne
    bare := fun y hy hne => h.bare y (hold hy hne) hne
    filed := fun hs y hy hne => h.filed hs y (hold hy hne) hne
    apart := fun y hy y' hy' hne hne' => h.apart y (hold hy hne) y' (hold hy' hne') hne hne' }

/-- The one entry is written anew. -/
theorem Inv.set (h : Inv cfg strict (some e.name) w) (hok : EntryOk cfg strict w e) :
    Inv cfg strict none (w.set e) := by
  refine h.setOut.close fun y hy hname => ?_
  rcases mem_set hy with rfl | ⟨-, hne⟩
  · refine ⟨fun x hx => ?_, hok.bare, hok.filed⟩
    obtain ⟨hlt, hfree, ht⟩ := hok.held x hx
    refine ⟨hlt, fun z hz hzne => ?_, ht⟩
    rcases mem_set hz with rfl | ⟨hz, -⟩
    · exact absurd rfl hzne
    · exact hfree z hz hzne
  · exact absurd hname hne

theorem Inv.add (h : Inv cfg strict (some e.name) w) (hnew : ∀ y ∈ w.entries, y.name ≠ e.name) :
    Inv cfg strict (some e.name) (w.add e) := by
  have hold {y : Entry D} (hy : y ∈ (w.add e).entries) (hne : some y.name ≠ some e.name) :
      y ∈ w.entries := by
    rcases List.mem_append.mp hy with hy | hy
    · exact hy
    · rw [List.mem_singleton.mp hy] at hne
      exact absurd rfl hne
  refine { h with
    nodup := ?_
    held := fun y hy hne => h.held y (hold hy hne) hne
    bare := fun y hy hne => h.bare y (hold hy hne) hne
    filed := fun hs y hy hne => h.filed hs y (hold hy hne) hne
    apart := fun y hy y' hy' hne hne' => h.apart y (hold hy hne) y' (hold hy' hne') hne hne' }
  change ((w.entries ++ [e]).map Entry.name).Nodup
  rw [List.map_append]
  refine List.nodup_append.mpr ⟨h.nodup, List.nodup_singleton _, fun m hm m' hm' heq => ?_⟩
  obtain ⟨y, hy, rfl⟩ := List.mem_map.mp hm
  exact hnew y hy (heq.trans (List.mem_singleton.mp hm'))

theorem Inv.touch (h : Inv cfg strict none w) (he : e ∈ w.entries) :
    Inv cfg strict none (w.touch e) ∧ e ∈ (w.touch e).entries := by
  have hmem {y : Entry D} (hy : y ∈ (w.touch e).entries) : y ∈ w.entries := by
    rcases List.mem_append.mp hy with hy | hy
    · exact (mem_pop.mp hy).1
    · rwa [List.mem_singleton.mp hy]
  have hpop : Inv cfg strict (some e.name) (w.pop e.name) :=
    (h.weaken e.name).frame List.filter_sublist (fun _ _ hne => hne) le_rfl h.fresh rfl
      (fun _ _ hr => hr) (List.Subset.refl _) fun _ _ _ => ⟨fun _ _ => .inl rfl, rfl⟩
  refine ⟨(hpop.add fun y hy => (mem_pop.mp hy).2).close fun y hy _ => ?_,
    List.mem_append_right _ (List.mem_singleton_self e)⟩
  have hok := h.entryOk (hmem hy)
  exact ⟨fun x hx => ⟨(hok.held x hx).1, fun z hz => (hok.held x hx).2.1 z (hmem hz),
    (hok.held x hx).2.2⟩, hok.bare, hok.filed⟩

/-! ### The budget -/

theorem Inv.evictEntry (h : Inv cfg strict none w) (he : e ∈ w.entries) :
    Inv cfg strict none (w.evictEntry cfg e) ∧
      ∀ y ∈ w.entries, y.name ≠ e.name → y ∈ (w.evictEntry cfg e).entries := by
  obtain ⟨hentries, hindex, hrecords, -⟩ := releaseHandle_rest w e
  have hrelease := h.releaseHandle (fun _ _ => Option.some_ne_none _) fun x hx => h.free he hx
  unfold World.evictEntry
  dsimp only
  split_ifs
  · refine ⟨Inv.set (e := { e with text := none, handle := none }) hrelease
      ⟨(fun _ hx => nomatch hx), fun _ => rfl, fun hs => ?_⟩, fun y hy hne => ?_⟩
    · obtain ⟨row, hrow, hlookup, -, hrec⟩ := (h.entryOk he).filed hs
      refine ⟨row, hrow, ?_, fun _ ht => (nomatch ht), ?_⟩
      · rw [hindex]
        exact hlookup
      · rw [hrecords]
        exact hrec
    · refine List.mem_map.mpr ⟨y, hentries ▸ hy, ?_⟩
      exact if_neg hne
  · refine ⟨hrelease.takeOut fun m hm _ heq => hm (Option.some.inj heq), fun y hy hne => ?_⟩
    exact mem_pop.mpr ⟨hentries ▸ hy, hne⟩

theorem Inv.evictNames (h : Inv cfg strict none w) (pin : Name D) (names : List (Name D)) :
    Inv cfg strict none (World.evictNames cfg pin names w) ∧
      ∀ y ∈ w.entries, y.name = pin → y ∈ (World.evictNames cfg pin names w).entries := by
  induction names generalizing w with
  | nil => exact ⟨h, fun _ hy _ => hy⟩
  | cons name names ih =>
    unfold World.evictNames
    split_ifs with hpin
    · exact ih h
    · cases hget : w.get name with
      | none => exact ih h
      | some e =>
        obtain ⟨he, hname⟩ := get_some hget
        obtain ⟨hevict, hkeep⟩ := h.evictEntry he
        have hpinned : ∀ y ∈ w.entries, y.name = pin → y ∈ (w.evictEntry cfg e).entries :=
          fun y hy hyp => hkeep y hy fun heq => hpin (hname.symm.trans (heq.symm.trans hyp))
        dsimp only
        split_ifs
        · exact ih h
        · exact ⟨hevict, hpinned⟩
        · exact ⟨(ih hevict).1, fun y hy hyp => (ih hevict).2 y (hpinned y hy hyp) hyp⟩

theorem Inv.evictOverBudget (h : Inv cfg strict none w) (pin : Name D) :
    Inv cfg strict none (w.evictOverBudget cfg pin) ∧
      ∀ y ∈ w.entries, y.name = pin → y ∈ (w.evictOverBudget cfg pin).entries := by
  unfold World.evictOverBudget
  split_ifs
  · exact ⟨h, fun _ hy _ => hy⟩
  · exact h.evictNames pin _

/-- Entries other than the one are dropped. -/
theorem Inv.dropAll (h : Inv cfg strict b w) {l : List (Entry D)}
    (hl : ∀ x ∈ l, x ∈ w.entries ∧ some x.name ≠ b) (hnodup : (l.map Entry.name).Nodup) :
    Inv cfg strict b (l.foldl (fun w e => w.drop cfg e true) w) ∧
      (l.foldl (fun w e => w.drop cfg e true) w).entries.Sublist w.entries ∧
      (l.foldl (fun w e => w.drop cfg e true) w).next = w.next ∧
      (∀ m, (∀ x ∈ l, m ≠ x.name) → (l.foldl (fun w e => w.drop cfg e true) w).index.lookup m =
        w.index.lookup m) ∧
      ∀ y, (∀ x ∈ l, x.handle ≠ some y) →
        (l.foldl (fun w e => w.drop cfg e true) w).sessions y = w.sessions y := by
  induction l generalizing w with
  | nil => exact ⟨h, .refl _, rfl, fun _ _ => rfl, fun _ _ => rfl⟩
  | cons e l ih =>
    obtain ⟨hnot, hnodup⟩ := List.nodup_cons.mp hnodup
    obtain ⟨hentries, hindex, hsessions⟩ := drop_rest cfg w e true
    have hother {x : Entry D} (hx : x ∈ l) : x.name ≠ e.name :=
      fun heq => hnot (heq ▸ List.mem_map_of_mem hx)
    obtain ⟨hinv, hsub, hnext, hidx, hses⟩ :=
      ih (h.dropMem (hl e List.mem_cons_self).1 (hl e List.mem_cons_self).2 true)
        (fun x hx => ⟨by
          rw [hentries]
          exact List.mem_filter.mpr ⟨(hl x (List.mem_cons_of_mem e hx)).1, by simpa using hother hx⟩,
          (hl x (List.mem_cons_of_mem e hx)).2⟩) hnodup
    refine ⟨hinv, hsub.trans (hentries ▸ List.filter_sublist), hnext.trans ?_,
      fun m hm => ?_, fun y hy => ?_⟩
    · exact drop_next w e true
    · exact (hidx m fun x hx => hm x (List.mem_cons_of_mem e hx)).trans
        (hindex m (hm e List.mem_cons_self))
    · exact (hses y fun x hx => hy x (List.mem_cons_of_mem e hx)).trans
        (hsessions y (hy e List.mem_cons_self))

/-! ### Writing -/

theorem Inv.persistIndex (h : Inv cfg strict b w) : Inv cfg strict b (w.persistIndex cfg) := by
  unfold World.persistIndex
  split_ifs
  · exact { h with }
  · exact { h with }

/-- The record of an entry is written, or there is none. -/
theorem Inv.persistEntry (h : Inv cfg strict (some e.name) w) (hx : e.handle = some x)
    (ht : e.text = some t) (hlt : x < w.next) (hfree : Free w e.name x)
    (hsession : w.sessions x = some ⟨t, e.revision⟩) (hrow : e.indexEntry = some (cfg.rowOf t))
    (hindex : w.index.lookup e.name = some (cfg.rowOf t))
    (honly : ∀ y ∈ w.entries, y.name = e.name → y = e) :
    Inv cfg strict none (w.persistEntry cfg e) := by
  unfold World.persistEntry
  rw [hx, ht]
  dsimp only
  rw [hsession]
  dsimp only
  have hok {w' : World D} (hsessions : w'.sessions = w.sessions) (hentries : w'.entries = w.entries)
      (hnext : w'.next = w.next) (hidx : w'.index = w.index)
      (hrec : strict → ∀ r, w'.records.lookup e.name = some r → r.session.text = t) :
      EntryOk cfg strict w' e := by
    refine ⟨fun z hz => ?_, fun hnone => ?_, fun hs => ⟨_, hrow, hidx ▸ hindex, fun u hu => ?_,
      fun r hr => ?_⟩⟩
    · obtain rfl := Option.some.inj (hx.symm.trans hz)
      refine ⟨hnext ▸ hlt, fun y hy => hfree y (hentries ▸ hy), t, ht, .inl ?_⟩
      rw [hsessions]
      exact hsession
    · cases hx.symm.trans hnone
    · rw [Option.some.inj (ht.symm.trans hu)]
    · rw [hrec hs r hr]
  by_cases hwritten : ¬cfg.directory = true ∨
      w.choice.unwritten (w.records.lookup e.name).isSome = true
  · rw [if_pos hwritten]
    have hticked : Inv cfg strict (some e.name) w.ticked := { h with }
    refine hticked.close fun y hy hname => ?_
    obtain rfl := honly y hy hname
    refine hok rfl rfl rfl rfl fun hs r hr => ?_
    have hr : w.records.lookup y.name = some r := hr
    have hdir : cfg.directory = true := by
      by_contra hdir
      exact nomatch (h.memory (by simpa using hdir) y.name).symm.trans hr
    rcases hwritten with hmem | hwritten
    · exact absurd hdir hmem
    · rw [hr, Option.isSome_some, World.choice, h.written hs hdir] at hwritten
      cases hwritten
  · rw [if_neg hwritten]
    obtain ⟨hdir, -⟩ := not_or.mp hwritten
    have hfiled : Inv cfg strict (some e.name) { w.ticked with
        records := w.records.insert e.name ⟨⟨t, e.revision⟩, w.choice.stable⟩
        bindings := if w.choice.fails = true then w.bindings
          else w.bindings.insert e.name ⟨t, e.revision⟩ } := by
      refine { h with
        filed := fun hs y hy hne => ?_
        memory := fun hd => absurd (by rw [hd]; exact Bool.false_ne_true) hdir }
      obtain ⟨row, hyrow, hyindex, hytext, hyrec⟩ := h.filed hs y hy hne
      refine ⟨row, hyrow, hyindex, hytext, fun r hr => hyrec r ?_⟩
      dsimp only at hr
      rwa [AList.lookup_insert_ne fun heq => hne (congrArg some heq)] at hr
    refine hfiled.close fun y hy hname => ?_
    obtain rfl := honly y hy hname
    refine hok rfl rfl rfl rfl fun _ r hr => ?_
    dsimp only at hr
    rw [AList.lookup_insert] at hr
    rw [← Option.some.inj hr]

/-- The last entry is not among the oldest that are dropped. -/
theorem Inv.capAutoEntries (h : Inv cfg strict (some e.name) w) {rest : List (Entry D)}
    (hw : w.entries = rest ++ [e]) (hrest : ∀ z ∈ rest, z.name ≠ e.name)
    (hfree : ∀ z ∈ rest, z.handle ≠ some x) :
    Inv cfg strict (some e.name) (w.capAutoEntries cfg) ∧
      (w.capAutoEntries cfg).entries.Sublist w.entries ∧ (w.capAutoEntries cfg).next = w.next ∧
      (w.capAutoEntries cfg).index.lookup e.name = w.index.lookup e.name ∧
      (w.capAutoEntries cfg).sessions x = w.sessions x := by
  have hold : ∀ z ∈ (w.entries.filter fun e => e.kind = .auto).take
      ((w.entries.filter fun e => e.kind = .auto).length - MAX_AUTO_ENTRIES), z ∈ rest := by
    intro z hz
    have hlen : ([e].filter fun e => e.kind = .auto).length ≤ 1 := List.length_filter_le ..
    rw [hw, List.filter_append, List.length_append, List.take_append_of_le_length] at hz
    · exact List.mem_of_mem_filter (List.mem_of_mem_take hz)
    · rw [MAX_AUTO_ENTRIES]
      omega
  have hnodup : (((w.entries.filter fun e => e.kind = .auto).take
      ((w.entries.filter fun e => e.kind = .auto).length - MAX_AUTO_ENTRIES)).map
        Entry.name).Nodup :=
    h.nodup.sublist (((List.take_sublist ..).trans List.filter_sublist).map _)
  unfold World.capAutoEntries
  dsimp only
  generalize (w.entries.filter fun e => e.kind = .auto).take
    ((w.entries.filter fun e => e.kind = .auto).length - MAX_AUTO_ENTRIES) = l at hold hnodup
  have hl : ∀ z ∈ l, z ∈ w.entries ∧ some z.name ≠ some e.name := fun z hz =>
    ⟨hw ▸ List.mem_append_left _ (hold z hz), fun heq => hrest z (hold z hz) (Option.some.inj heq)⟩
  obtain ⟨hinv, hsub, hnext, hidx, hses⟩ := h.dropAll hl hnodup
  exact ⟨hinv, hsub, hnext, hidx e.name fun z hz heq => (hl z hz).2 (congrArg some heq.symm),
    hses x fun z hz => hfree z (hold z hz)⟩

/-- A new entry takes the place of what is under its name. -/
theorem Inv.keep (h : Inv cfg strict (some name) w) {kind : Kind} {revision : ℕ} (hlt : x < w.next)
    (hfree : Free w name x) (hsession : w.sessions x = some ⟨text, revision⟩) :
    Inv cfg strict none (w.keep cfg name kind text x revision (cfg.rowOf text)) := by
  have hsome {m : Name D} (hm : some m ≠ some name) : m ≠ name := fun heq => hm (congrArg some heq)
  let entry : Entry D := ⟨name, kind, (cfg.rowOf text).byteLength, some text, some x, revision,
    some (cfg.rowOf text)⟩
  have hpop : Inv cfg strict (some name) (w.pop name) :=
    h.frame List.filter_sublist (fun _ _ hne => hne) le_rfl h.fresh rfl (fun _ _ hr => hr)
      (List.Subset.refl _) fun _ _ _ => ⟨fun _ _ => .inl rfl, rfl⟩
  have hadd : Inv cfg strict (some name) ((w.pop name).add entry) :=
    Inv.add (e := entry) hpop fun y hy => (mem_pop.mp hy).2
  have hput : Inv cfg strict (some name)
      (((w.pop name).add entry).indexPut name (cfg.rowOf text)) :=
    hadd.frame (.refl _) (fun _ _ hne => hne) le_rfl h.fresh rfl (fun _ _ hr => hr)
      (List.Subset.refl _) fun y _ hne =>
        ⟨fun _ _ => .inl rfl, AList.lookup_insert_ne (hsome hne)⟩
  obtain ⟨hcap, hsub, hnext, hidx, hses⟩ := hput.capAutoEntries (e := entry) rfl
    (fun z hz => (mem_pop.mp hz).2) fun z hz => hfree z (mem_pop.mp hz).1 (mem_pop.mp hz).2
  have hrest {y : Entry D} (hy : y ∈ (w.pop name).entries ++ [entry]) :
      y = entry ∨ y ∈ w.entries ∧ y.name ≠ name :=
    (List.mem_append.mp hy).elim (fun hy => .inr (mem_pop.mp hy)) fun hy =>
      .inl (List.mem_singleton.mp hy)
  refine (Inv.evictOverBudget (Inv.persistIndex (Inv.persistEntry (e := entry) hcap rfl rfl
    ?_ (fun y hy hne => ?_) (hses.trans hsession) rfl ?_ fun y hy hname => ?_)) name).1
  · exact hnext.symm ▸ hlt
  · rcases hrest (hsub.subset hy) with rfl | ⟨hy, hne⟩
    · exact absurd rfl hne
    · exact hfree y hy hne
  · exact hidx.trans (AList.lookup_insert _)
  · rcases hrest (hsub.subset hy) with rfl | ⟨-, hne⟩
    · rfl
    · exact absurd hname hne

end Toktier.Facade.Entries
