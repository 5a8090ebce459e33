import Toktier.Routing.EntryBudget

/-!
# The budget over a run

A call that reads an entry back from the directory relies on the loop that evicts to run
afterwards. A lookup by content does not always come to it: an entry that was read back and
then rejected stays, and so does a session entry that was read back to be extended. Whether
that happens, and with how many bytes, is told by the state before the lookup; where those
bytes have room, no state of a run takes more than the budget.

## Main definitions

* `NativeEntryStore.lingering`: what a lookup may read back and leave in memory.
* `MakesRoom`: a step that leaves no more than the budget has room for.

## Main results

* `recover_reads`: what is read back depends on the directory alone.
* `served_serveCandidates`: what a lookup leaves.
* `resident_within_budget`: the states of every run whose steps make room.
-/
namespace Toktier.Routing.Entries

open Toktier.Lib Toktier.StoreCore

namespace NativeEntryStore

variable {cfg : Setting} {w w' : NativeEntryStore} {name pin : Text}

variable [Digests]

/-! ### Reading back -/

/-- What the directory gives back under a name, for a text that may go on from it. -/
def Reads (cfg : Setting) (w : NativeEntryStore) (name text held : Text) (row : ContentIndexEntry) :
    Prop :=
  ∃ raw view, w.disk.records.lookup name = some raw ∧ SessionRecordV1.fromBytes raw = .ok view ∧
    ((view.stablePrefixBytes = 0 ∧ held = view.tailText ∧
        Store.BareReads w.keyId raw cfg.router w.store row) ∨
      (view.stablePrefixBytes ≠ 0 ∧ ∃ binding chars, w.disk.bindings.lookup name = some binding ∧
        Store.BoundReads w.keyId raw cfg.router w.store text binding chars row ∧
        held = text.take chars))

theorem Reads.unique {text held held' : Text} {row row' : ContentIndexEntry}
    (h : Reads cfg w name text held row) (h' : Reads cfg w name text held' row') :
    held = held' ∧ row = row' := by
  obtain ⟨raw, view, hraw, hview, hread⟩ := h
  obtain ⟨raw', view', hraw', hview', hread'⟩ := h'
  cases hraw.symm.trans hraw'
  cases hview.symm.trans hview'
  rcases hread with ⟨hzero, rfl, hbare⟩ | ⟨hzero, binding, chars, hbinding, hbound, rfl⟩
  · rcases hread' with ⟨-, rfl, hbare'⟩ | ⟨hne, -⟩
    · exact ⟨rfl, hbare.unique hbare'⟩
    · exact absurd hzero hne
  · rcases hread' with ⟨hz, -⟩ | ⟨-, binding', chars', hbinding', hbound', rfl⟩
    · exact absurd hz hzero
    · cases hbinding.symm.trans hbinding'
      obtain ⟨rfl, hrow⟩ := hbound.unique hbound'
      exact ⟨rfl, hrow⟩

/-- The same directory and the same set-up give back the same. -/
theorem Reads.congr {text held : Text} {row : ContentIndexEntry} (hset : SameSetUp w.store w'.store)
    (hkey : w'.keyId = w.keyId) (hdisk : w'.disk = w.disk) (h : Reads cfg w name text held row) :
    Reads cfg w' name text held row := by
  obtain ⟨raw, view, hraw, hview, hread⟩ := h
  refine ⟨raw, view, by rwa [hdisk], hview, ?_⟩
  rw [hdisk, hkey]
  exact hread.imp (fun h => ⟨h.1, h.2.1, h.2.2.congr hset⟩) fun ⟨hne, binding, chars, hb, hr, hheld⟩ =>
    ⟨hne, binding, chars, hb, hr.congr hset, hheld⟩

/-- What the session store answers for a session it has just imported. -/
theorem recovered_eq {handle revision : ℕ} {historical : Text} {s : Session} {row : ContentIndexEntry}
    (hs : w.store.sessions.lookup handle = some s)
    (hrow : s.content.map ContentDigest.entry = some row) :
    w.recovered handle historical revision = some ⟨handle, historical, revision, row⟩ := by
  unfold recovered rowOf call
  rw [Store.run_contentIndexEntry hs, hrow]
  rfl

/-- `recover` succeeds exactly when the directory gives something back, and gives that. -/
theorem recover_reads (cfg : Setting) (ht : w.store.Tracked) (name text : Text) :
    (∃ r, (w.recover cfg name (some text)).1 = some r ∧ Reads cfg w name text r.historical r.row) ∨
      ((w.recover cfg name (some text)).1 = none ∧
        ∀ held row, ¬Reads cfg w name text held row) := by
  unfold recover
  cases hraw : w.disk.records.lookup name with
  | none =>
    refine .inr ⟨rfl, ?_⟩
    rintro held row ⟨raw, view, hraw', -⟩
    cases hraw.symm.trans hraw'
  | some raw =>
    dsimp only
    cases hview : SessionRecordV1.fromBytes raw with
    | error e =>
      refine .inr ⟨rfl, ?_⟩
      rintro held row ⟨raw', view, hraw', hview', -⟩
      cases hraw.symm.trans hraw'
      cases hview.symm.trans hview'
    | ok view =>
      dsimp only
      by_cases hzero : view.stablePrefixBytes = 0
      · rw [if_pos hzero]
        have hwp := Store.wp_importSession_reads (S := w.store) w.keyId raw cfg.router [] (by
          intro view' hview'
          cases hview.symm.trans hview'
          exact hzero)
        cases hcall : w.call (Store.importSession w.keyId raw cfg.router []) with
        | mk handle? w₁ =>
          cases handle? with
          | none =>
            refine .inr ⟨rfl, ?_⟩
            rintro held row ⟨raw', view', hraw', hview', ⟨-, -, hbare⟩ | ⟨hne, -⟩⟩
            · cases hraw.symm.trans hraw'
              have hno := of_call_none (wp_mono hwp (fun _ _ h => h) fun _ _ h => h.2) hcall
              exact hno row hbare
            · cases hraw.symm.trans hraw'
              cases hview.symm.trans hview'
              exact hne hzero
          | some handle =>
            obtain ⟨-, hsome⟩ := of_call_eq hwp hcall
            obtain ⟨row, s, hbare, hs, hrow⟩ := hsome ht
            exact .inl ⟨_, recovered_eq hs hrow, raw, view, hraw, hview, .inl ⟨hzero, rfl, hbare⟩⟩
      · rw [if_neg hzero]
        cases hbinding : w.disk.bindings.lookup name with
        | none =>
          refine .inr ⟨rfl, ?_⟩
          rintro held row ⟨raw', view', hraw', hview', ⟨hz, -⟩ | ⟨-, binding, _, hbinding', -⟩⟩
          · cases hraw.symm.trans hraw'
            cases hview.symm.trans hview'
            exact hzero hz
          · cases hbinding.symm.trans hbinding'
        | some binding =>
          dsimp only
          have hwp := Store.wp_importBound_reads (S := w.store) w.keyId raw cfg.router text binding
          cases hcall : w.call (Store.importSessionWithBindingCandidate w.keyId raw text binding
              cfg.router) with
          | mk out? w₁ =>
            cases out? with
            | none =>
              refine .inr ⟨rfl, ?_⟩
              rintro held row ⟨raw', view', hraw', hview', ⟨hz, -⟩ | ⟨-, binding', chars, hb, hbound, -⟩⟩
              · cases hraw.symm.trans hraw'
                cases hview.symm.trans hview'
                exact hzero hz
              · cases hraw.symm.trans hraw'
                cases hbinding.symm.trans hb
                have hno := of_call_none (wp_mono hwp (fun _ _ h => h) fun _ _ h => h.2) hcall
                exact hno chars row hbound
            | some out =>
              obtain ⟨handle, chars⟩ := out
              obtain ⟨-, hsome⟩ := of_call_eq hwp hcall
              obtain ⟨row, s, hbound, hs, hrow⟩ := hsome ht
              exact .inl ⟨_, recovered_eq hs hrow, raw, view, hraw, hview,
                .inr ⟨hzero, binding, chars, hbinding, hbound, rfl⟩⟩

/-- What is read back does not depend on the sessions. -/
theorem recover_congr (cfg : Setting) (ht : w.store.Tracked) (ht' : w'.store.Tracked)
    (hset : SameSetUp w.store w'.store) (hkey : w'.keyId = w.keyId) (hdisk : w'.disk = w.disk)
    (name text : Text) :
    ((w'.recover cfg name (some text)).1.map fun r => (r.historical, r.row)) =
      (w.recover cfg name (some text)).1.map fun r => (r.historical, r.row) := by
  rcases recover_reads cfg ht name text with ⟨r, hr, hread⟩ | ⟨hr, hnone⟩
  · rcases recover_reads cfg ht' name text with ⟨r', hr', hread'⟩ | ⟨hr', hnone'⟩
    · obtain ⟨hheld, hrow⟩ := (hread.congr hset hkey hdisk).unique hread'
      rw [hr, hr']
      simp only [Option.map_some, hheld, hrow]
    · exact absurd (hread.congr hset hkey hdisk) (hnone' _ _)
  · rcases recover_reads cfg ht' name text with ⟨r', hr', hread'⟩ | ⟨hr', hnone'⟩
    · exact absurd (hread'.congr hset.symm hkey.symm hdisk.symm) (hnone _ _)
    · rw [hr, hr']

/-! ### What a lookup finds -/

/-- What a lookup finds under a name: the kind of the entry, the text that it holds, and the
bytes that come into memory for it. -/
def offer (cfg : Setting) (w : NativeEntryStore) (text name : Text) :
    Option (EntryKind × Text × ℕ) :=
  (w.entries.lookup name).bind fun e =>
    if e.text.isSome && e.handle.isSome then e.text.map fun held => (e.kind, held, 0)
    else if cfg.directory then
      (w.recover cfg name (some text)).1.map fun r => (e.kind, r.historical, r.row.byteLength)
    else none

/-- The most bytes that a lookup through these names leaves over, as far as it does not come to
the loop that evicts: of an entry that it rejects, and of a session entry that it extends. -/
def lingering (cfg : Setting) (w : NativeEntryStore) (text : Text) : List Text → Option ℕ
  | [] => some 0
  | name :: names =>
    match w.offer cfg text name with
    | none => lingering cfg w text names
    | some (kind, held, read) =>
      if ¬held <+: text then (lingering cfg w text names).map (read + ·)
      else if held = text then none
      else
        match kind with
        | .auto => some 0
        | .session => some read

/-- Nothing but one entry changed, and no file. -/
structure Elsewhere (name : Text) (w w' : NativeEntryStore) : Prop where
  disk : w'.disk = w.disk
  entries : ∀ n, n ≠ name → w'.entries.lookup n = w.entries.lookup n

omit [Digests] in
theorem Elsewhere.trans {w'' : NativeEntryStore} (h : Elsewhere name w w')
    (h' : Elsewhere name w' w'') : Elsewhere name w w'' :=
  ⟨h'.disk.trans h.disk, fun n hn => (h'.entries n hn).trans (h.entries n hn)⟩

omit [Digests] in
theorem disk_releaseHandle (w : NativeEntryStore) (handle : Option ℕ) :
    (w.releaseHandle handle).disk = w.disk := by
  cases handle with
  | none => rfl
  | some handle =>
    simp only [releaseHandle, release]
    rw [call_eq]

omit [Digests] in
/-- A drop that leaves the files alone. -/
theorem elsewhere_dropEntry (cfg : Setting) (w : NativeEntryStore) (name : Text) :
    Elsewhere name w (w.dropEntry cfg name false) := by
  refine ⟨?_, fun n hn => ?_⟩
  · unfold dropEntry
    rw [if_neg fun h => Bool.false_ne_true h.1]
    exact disk_releaseHandle w _
  · rw [(dropEntry_tables cfg w name false).1, AList.lookup_erase_ne hn]

theorem elsewhere_recover (cfg : Setting) (w : NativeEntryStore) (name : Text)
    (candidate : Option Text) : Elsewhere name w (w.recover cfg name candidate).2 := by
  rw [recover_eq]
  exact ⟨rfl, fun _ _ => rfl⟩

/-- The entry that takes what was read back. -/
def taken (r : Recovered) (e : Entry) : Entry :=
  { e with
    handle := some r.handle
    byteLength := r.row.byteLength
    text := some r.historical
    revision := r.revision
    index := r.row }

omit [Digests] in
theorem restore_entries {e : Entry} (hname : w.entries.lookup name = some e) (r : Recovered) :
    (w.restore name r).entries = w.entries.insert name (taken r e) := by
  unfold restore
  rw [hname]
  rfl

omit [Digests] in
theorem elsewhere_restore (w : NativeEntryStore) (name : Text) (r : Recovered) :
    Elsewhere name w (w.restore name r) := by
  unfold restore
  split
  · exact ⟨rfl, fun _ _ => rfl⟩
  · exact ⟨rfl, fun n hn => AList.lookup_insert_ne hn⟩

/-- A lookup that finds nothing under a name may drop the entry. -/
theorem resident_of_no_offer {text : Text} (hname : (w.entries.lookup name).isSome)
    (hoffer : w.offer cfg text name = none) :
    ∃ w₁, w.resident cfg name (some text) = (false, w₁) ∧ w₁.residentBytes ≤ w.residentBytes ∧
      Elsewhere name w w₁ := by
  obtain ⟨e, hname⟩ := Option.isSome_iff_exists.mp hname
  unfold offer at hoffer
  unfold resident
  rw [hname] at hoffer ⊢
  dsimp only [Option.bind_some, Option.any_some] at hoffer ⊢
  by_cases hmem : (e.text.isSome && e.handle.isSome) = true
  · rw [if_pos hmem] at hoffer
    rw [Option.map_eq_none_iff.mp hoffer] at hmem
    cases hmem
  rw [if_neg hmem] at hoffer ⊢
  by_cases hdir : cfg.directory = true
  · rw [if_pos hdir] at hoffer
    rw [if_neg (not_not_intro hdir)]
    have helse := elsewhere_recover cfg w name (some text)
    have hsame := sameTables_recover cfg w name (some text)
    cases hrec : w.recover cfg name (some text) with
    | mk r? w₁ =>
      rw [hrec] at hoffer helse hsame
      cases r? with
      | some r => cases hoffer
      | none =>
        refine ⟨_, rfl, ?_, helse.trans (elsewhere_dropEntry cfg w₁ name)⟩
        rw [residentBytes_dropEntry, bytesBeside_of_same hsame]
        exact bytesBeside_le w name
  · rw [if_pos hdir]
    exact ⟨w, rfl, le_rfl, rfl, fun _ _ => rfl⟩

/-- An entry that a lookup finds is in memory afterwards. -/
theorem resident_of_offer {text held : Text} {kind : EntryKind} {read : ℕ}
    (hoffer : w.offer cfg text name = some (kind, held, read)) :
    ∃ w₁, w.resident cfg name (some text) = (true, w₁) ∧ Ready w₁ name kind held ∧
      w₁.bytesBeside name = w.bytesBeside name ∧ w₁.residentBytes ≤ w.residentBytes + read ∧
      Elsewhere name w w₁ := by
  obtain ⟨e, hname, hoffer⟩ := Option.bind_eq_some_iff.mp hoffer
  unfold resident
  rw [hname]
  dsimp only [Option.any_some]
  by_cases hmem : (e.text.isSome && e.handle.isSome) = true
  · rw [if_pos hmem] at hoffer ⊢
    rw [Bool.and_eq_true] at hmem
    obtain ⟨handle, hhandle⟩ := Option.isSome_iff_exists.mp hmem.2
    obtain ⟨text', htext, heq⟩ := Option.map_eq_some_iff.mp hoffer
    cases heq
    exact ⟨w, rfl, ⟨e, handle, hname, rfl, htext, hhandle⟩, rfl, le_rfl, rfl, fun _ _ => rfl⟩
  rw [if_neg hmem] at hoffer ⊢
  by_cases hdir : cfg.directory = true
  · rw [if_pos hdir] at hoffer
    rw [if_neg (not_not_intro hdir)]
    have helse := elsewhere_recover cfg w name (some text)
    have hsame := sameTables_recover cfg w name (some text)
    cases hrec : w.recover cfg name (some text) with
    | mk r? w₁ =>
      rw [hrec] at hoffer helse hsame
      obtain ⟨r, hr, heq⟩ := Option.map_eq_some_iff.mp hoffer
      cases hr
      cases heq
      have hname₁ : w₁.entries.lookup name = some e := by rwa [hsame.entries]
      have hentries := restore_entries hname₁ r
      rw [hsame.entries] at hentries
      refine ⟨_, rfl, ⟨taken r e, r.handle, ?_, rfl, rfl, rfl⟩, ?_, ?_,
        helse.trans (elsewhere_restore w₁ name r)⟩
      · rw [hentries, AList.lookup_insert]
      · unfold bytesBeside
        rw [hentries, total_erase_insert]
      · rw [residentBytes_eq, hentries, total_insert, Nat.add_comm]
        exact Nat.add_le_add_right (bytesBeside_le w name) _
  · rw [if_neg hdir] at hoffer
    cases hoffer

/-- The state moved on, and the files and the entries of some names are as they were. -/
structure Spares (names : List Text) (w w' : NativeEntryStore) : Prop extends Moves w w' where
  disk : w'.disk = w.disk
  entries : ∀ n ∈ names, w'.entries.lookup n = w.entries.lookup n

omit [Digests] in
/-- A step at one name spares the others. -/
theorem Spares.step {names : List Text} {w₁ : NativeEntryStore} (hnodup : (name :: names).Nodup)
    (h : Spares (name :: names) w w') (hmove : Moves w' w₁) (helse : Elsewhere name w' w₁) :
    Spares names w w₁ where
  toMoves := h.toMoves.trans hmove
  disk := helse.disk.trans h.disk
  entries n hn := by
    have hne : n ≠ name := by
      rintro rfl
      exact (List.nodup_cons.mp hnodup).1 hn
    exact (helse.entries n hne).trans (h.entries n (List.mem_cons_of_mem _ hn))

/-- What a lookup finds does not depend on what was done elsewhere. -/
theorem Spares.offer_eq {names : List Text} (ht : w.store.Tracked)
    (h : Spares (name :: names) w w') (text : Text) :
    w'.offer cfg text name = w.offer cfg text name := by
  have hlookup := h.entries name List.mem_cons_self
  have hrec := recover_congr cfg ht (h.carries.tracked ht) h.carries.toSameSetUp h.keyId
    h.disk name text
  unfold offer
  rw [hlookup]
  congr 1
  funext e
  have hmap := congrArg (Option.map fun p => (e.kind, p.1, p.2.byteLength)) hrec
  simp only [Option.map_map] at hmap
  split
  · rfl
  · split
    · exact hmap
    · rfl

/-! ### What a call leaves -/

/-- A call met the budget, or it leaves at most some bytes; and it did meet the budget if the
text was long and got its ids. -/
def Served (cfg : Setting) (text : Text) (bound : Option ℕ)
    (out : Option (List UInt32) × NativeEntryStore) : Prop :=
  out.2.residentBytes ≤ cfg.budget ∨
    (AUTO_MIN_BYTES ≤ utf8Len text → out.1 = none) ∧ ∃ n ∈ bound, out.2.residentBytes ≤ n

/-- A fork that is kept brings its call to the loop. -/
theorem residentBytes_adoptFork (hc : w.Coherent) {fork : ℕ} {s : Session}
    (hs : w.store.sessions.lookup fork = some s) (hd : s.content.isSome) (text : Text)
    (revision : ℕ) : (w.adoptFork cfg fork text revision).residentBytes ≤ cfg.budget := by
  obtain ⟨row, hrow⟩ := rowOf_eq hs hd
  unfold adoptFork
  rw [hrow]
  exact residentBytes_keep cfg _ ((moves_dropIfThere cfg w _).coherent hc) _ _ _ _ _

/-- What an extension that does not come to the loop leaves at most: an automatic entry is
dropped, a session entry stays. -/
def bytesLeft (w : NativeEntryStore) (name : Text) : EntryKind → ℕ
  | .auto => w.bytesBeside name
  | .session => w.residentBytes

/-- An automatic entry is extended in place; a session entry gives a fork, which is kept where
the text is long. -/
theorem served_serveExtension (cfg : Setting) (hc : w.Coherent) (ht : w.store.Tracked) {kind : EntryKind}
    {stored : Text} (hready : Ready w name kind stored) (text : Text) :
    Served cfg text (some (w.bytesLeft name kind)) (w.serveExtension cfg name stored text) := by
  obtain ⟨e, handle, hname, hkind, htext, hhandle⟩ := id hready
  unfold serveExtension
  rw [hname]
  dsimp only
  cases kind with
  | auto =>
    rw [hkind]
    rcases residentBytes_appendEntry hc hready (text.drop stored.length) with hle | ⟨hnone, hle⟩
    · exact .inl hle
    · exact .inr ⟨fun _ => hnone, _, rfl, hle⟩
  | session =>
    rw [hkind, hhandle]
    dsimp only
    have hsame := sameTables_call w (Store.fork handle)
    have hfork := moves_fork w handle
    have hleft (w₁ : NativeEntryStore) (ids : Option (List UInt32)) (h₁ : SameTables w w₁)
        (hids : AUTO_MIN_BYTES ≤ utf8Len text → ids = none) :
        Served cfg text (some w.residentBytes) (ids, w₁) :=
      .inr ⟨hids, _, rfl, (residentBytes_of_same h₁).le⟩
    split
    · rename_i w₁ heq
      rw [heq] at hsame
      exact hleft w₁ none hsame fun _ => rfl
    · rename_i fork w₁ heq
      rw [heq] at hsame
      have hfork' := moves_of_eq hfork heq
      have hsame' := sameTables_call w₁ (Store.append fork (text.drop stored.length) 0 cfg.router)
      split
      · rename_i w₂ happend
        rw [happend] at hsame'
        exact hleft _ none ((hsame.trans hsame').trans (sameTables_call w₂ _)) fun _ => rfl
      · rename_i outcome w₂ happend
        rw [happend] at hsame'
        have happend' := moves_of_eq (moves_append cfg w₁ _ _ _) happend
        by_cases hlong : AUTO_MIN_BYTES ≤ utf8Len text
        · rw [if_pos hlong]
          obtain ⟨s, hs, hd⟩ := (of_call_eq (Store.wp_append_carries _ _ _ _) happend).2
            (hfork'.carries.tracked ht)
          exact .inl (residentBytes_adoptFork ((hfork'.trans happend').coherent hc) hs hd _ _)
        · rw [if_neg hlong]
          exact hleft _ _ ((hsame.trans hsame').trans (sameTables_call w₂ _)) fun h => absurd h hlong

omit [Digests] in
theorem Served.mono {text : Text} {bound : Option ℕ} {m m' : ℕ}
    {out : Option (List UInt32) × NativeEntryStore} (hle : m ≤ m')
    (h : Served cfg text (bound.map (m + ·)) out) : Served cfg text (bound.map (m' + ·)) out := by
  rcases h with hmet | ⟨hids, n, hn, hbytes⟩
  · exact .inl hmet
  · obtain ⟨k, hk, rfl⟩ := Option.map_eq_some_iff.mp hn
    exact .inr ⟨hids, m' + k, Option.map_eq_some_iff.mpr ⟨k, hk, rfl⟩, by omega⟩

/-- The lookups by content: what they leave is told by the state before. -/
theorem served_serveCandidates (cfg : Setting) (hc : w.Coherent) (ht : w.store.Tracked) (text : Text)
    (names : List Text) (hnodup : names.Nodup) (h : Spares names w w') :
    Served cfg text ((w.lingering cfg text names).map (w'.residentBytes + ·))
      (serveCandidates cfg text names w') := by
  induction names generalizing w' with
  | nil => exact .inr ⟨fun _ => rfl, _, rfl, le_rfl⟩
  | cons name names ih =>
    unfold serveCandidates lingering
    rw [← h.offer_eq ht]
    -- The lookup goes on after a step at this name.
    have hrest (w₁ : NativeEntryStore) (m : ℕ) (hle : w₁.residentBytes ≤ m) (hmove : Moves w' w₁)
        (helse : Elsewhere name w' w₁) :
        Served cfg text ((w.lingering cfg text names).map (m + ·))
          (serveCandidates cfg text names w₁) :=
      (ih (List.nodup_cons.mp hnodup).2 (h.step hnodup hmove helse)).mono hle
    by_cases hnone : (w'.entries.lookup name).isNone = true
    · have hoffer : w'.offer cfg text name = none := by
        unfold offer
        rw [Option.isNone_iff_eq_none.mp hnone]
        rfl
      rw [if_pos hnone, hoffer]
      exact hrest _ _ le_rfl (moves_discard hnone) ⟨rfl, fun _ _ => rfl⟩
    rw [if_neg hnone]
    have hres := moves_resident cfg w' name (some text)
    cases hoffer : w'.offer cfg text name with
    | none =>
      have hsome := Option.isNone_eq_false_iff.mp (Bool.eq_false_iff.mpr hnone)
      obtain ⟨w₁, heq, hle, helse⟩ := resident_of_no_offer hsome hoffer
      rw [heq] at hres ⊢
      exact hrest w₁ _ hle hres helse
    | some found =>
      obtain ⟨kind, held, read⟩ := found
      obtain ⟨w₁, heq, hready, hbeside, hle, helse⟩ := resident_of_offer hoffer
      have hmove : Moves w' w₁ := by
        rw [heq] at hres
        exact hres
      rw [heq]
      have hheld : w₁.heldText name = some held := by
        obtain ⟨e, handle, hname, -, htext, -⟩ := hready
        unfold heldText
        rw [hname]
        exact htext
      dsimp only
      rw [hheld]
      dsimp only
      by_cases hbegins : held <+: text
      · rw [if_neg (not_not_intro hbegins), if_neg (not_not_intro hbegins)]
        have hmem : name ∈ w₁.entries := by
          obtain ⟨e, -, hname, -⟩ := hready
          exact mem_of_lookup hname
        have htouch := (h.toMoves.trans hmove).trans (Moves.touch hmem)
        by_cases hall : held = text
        · rw [if_pos hall, if_pos hall]
          exact .inl (residentBytes_serveHit (htouch.coherent hc) name)
        · rw [if_neg hall, if_neg hall]
          have hready' : Ready (w₁.touch name) name kind held := hready
          have hext := served_serveExtension cfg (htouch.coherent hc) (htouch.carries.tracked ht)
            hready' text
          refine hext.imp id fun hleft => ?_
          obtain ⟨hids, n, hn, hbytes⟩ := hleft
          refine ⟨hids, ?_⟩
          cases hn
          cases kind with
          | auto =>
            have hauto : (w₁.touch name).bytesLeft name .auto = w₁.bytesBeside name := rfl
            have hbeside_le := bytesBeside_le w' name
            exact ⟨w'.residentBytes + 0, rfl, by omega⟩
          | session =>
            have hsession : (w₁.touch name).bytesLeft name .session = w₁.residentBytes := rfl
            exact ⟨w'.residentBytes + read, rfl, by omega⟩
      · rw [if_pos hbegins, if_pos hbegins, Option.map_map]
        have hgo := hrest w₁ _ hle hmove helse
        have hadd : ((w'.residentBytes + ·) ∘ (read + ·)) = (w'.residentBytes + read + ·) := by
          funext n
          exact (Nat.add_assoc _ _ _).symm
        rwa [hadd]

theorem nodup_candidates (w : NativeEntryStore) (text : Text) : (w.candidates text).Nodup := by
  unfold candidates
  have hperm := List.perm_insertionSort (fun a b : Sigma fun _ : Text => ContentIndexEntry =>
    b.2.byteLength < a.2.byteLength ∨ a.2.byteLength = b.2.byteLength ∧ a.1 ≤ b.1)
    (w.index.entries.filter fun e => 0 < e.2.byteLength ∧
      (w.queryDigests (utf8 text)).lookup e.2.byteLength = some e.2.endDigest)
  refine ((hperm.map _).nodup_iff).mpr ?_
  exact (AList.keys_nodup w.index).sublist (List.filter_sublist.map _)

/-! ### New entries -/

omit [Digests] in
/-- A session outlives the release of another one. -/
theorem lookup_release {handle k : ℕ} {s : Session} (hne : k ≠ handle)
    (hs : w.store.sessions.lookup k = some s) :
    (w.release handle).store.sessions.lookup k = some s := by
  have hwp : wp (Store.evict handle) (fun _ S' => S'.sessions.lookup k = some s)
      (fun _ S' => S'.sessions.lookup k = some s) w.store := by
    simp only [Store.evict, wp_bind, wp_get, wp_set, wp_pure]
    rwa [AList.lookup_erase_ne hne]
  exact store_call hwp

omit [Digests] in
/-- A session outlives the drop of an entry that has another one. -/
theorem lookup_dropIfThere {k : ℕ} {s : Session}
    (hne : ∀ e, w.entries.lookup name = some e → e.handle ≠ some k)
    (hs : w.store.sessions.lookup k = some s) :
    (if (w.entries.lookup name).isSome then w.dropEntry cfg name false else w).store.sessions.lookup k =
      some s := by
  split
  · rename_i hsome
    obtain ⟨e, hname⟩ := Option.isSome_iff_exists.mp hsome
    unfold dropEntry
    rw [if_neg fun h => Bool.false_ne_true h.1, hname, Option.bind_some]
    cases hhandle : e.handle with
    | none => exact hs
    | some handle =>
      refine lookup_release ?_ hs
      rintro rfl
      exact hne e hname hhandle
  · exact hs

/-- The session store takes a text, whatever sessions it has. -/
def Takes (cfg : Setting) (w : NativeEntryStore) (text : Text) : Prop :=
  ∀ S, SameSetUp w.store S → ∃ put S', (Store.put w.keyId text cfg.router).run S = .ok put S'

/-- A text that the session store takes becomes an entry, and then the loop runs. -/
theorem residentBytes_missAuto (cfg : Setting) (hc : w.Coherent) (ht : w.store.Tracked)
    (hk : w.Known) (text : Text) :
    (w.missAuto cfg text).2.residentBytes ≤ max cfg.budget w.residentBytes ∧
      (w.Takes cfg text → (w.missAuto cfg text).2.residentBytes ≤ cfg.budget) := by
  unfold missAuto
  have hmove := moves_put cfg w text
  have hsame := sameTables_call w (Store.put w.keyId text cfg.router)
  cases hput : w.call (Store.put w.keyId text cfg.router) with
  | mk put? w₁ =>
    rw [hput] at hmove hsame
    cases put? with
    | none =>
      refine ⟨le_max_of_le_right (residentBytes_of_same hsame).le, fun htakes => ?_⟩
      obtain ⟨put, S', hrun⟩ := htakes w.store (.refl _)
      unfold call at hput
      rw [hrun] at hput
      cases hput
    | some put =>
      obtain ⟨s, hs, hd⟩ := live_of_put ht hput
      obtain ⟨row, hrow⟩ := rowOf_eq hs hd
      dsimp only
      rw [hrow]
      dsimp only
      have hdrop := moves_dropIfThere cfg w₁ (entryName cfg .auto (hex row.endDigest.bytes))
      have hlive : (if (w₁.entries.lookup (entryName cfg .auto (hex row.endDigest.bytes))).isSome then
          w₁.dropEntry cfg (entryName cfg .auto (hex row.endDigest.bytes)) false
          else w₁).store.sessions.lookup put.handle = some s := by
        refine lookup_dropIfThere (fun e hname hhandle => ?_) hs
        have hold := hk _ e put.handle (by rwa [hsame.entries] at hname) hhandle
        rw [(handle_of_put hput).1] at hold
        exact lt_irrefl _ hold
      split
      · rename_i w₂ hread
        exact absurd hread (readAllIds_of_live hlive)
      · rename_i ids w₂ hread
        have hread' := moves_of_eq (moves_readAllIds _ _) hread
        have hle := residentBytes_keep cfg (entryName cfg .auto (hex row.endDigest.bytes))
          (((hmove.trans hdrop).trans hread').coherent hc) .auto text put.handle put.revision row
        exact ⟨le_max_of_le_left hle, fun _ => hle⟩

/-! ### The calls -/

/-- A call for a session comes to the loop, or it leaves no more than there was. -/
theorem residentBytes_encodeSession (hc : w.Coherent) (ht : w.store.Tracked) (sessionId text : Text) :
    (w.encodeSession cfg sessionId text).2.residentBytes ≤ max cfg.budget w.residentBytes := by
  unfold encodeSession
  dsimp only
  generalize entryName cfg .session sessionId = name
  have hwrite (w₁ : NativeEntryStore) (hmove : Moves w w₁)
      (hle : w₁.bytesBeside name ≤ w.residentBytes) :
      (w₁.writeEntry cfg name .session text).2.residentBytes ≤ max cfg.budget w.residentBytes :=
    (residentBytes_writeEntry (hmove.coherent hc) (hmove.carries.tracked ht) _ _).trans
      (max_le_max_left _ hle)
  by_cases hnone : (w.entries.lookup name).isNone = true
  · rw [if_pos hnone]
    exact hwrite w (.refl w) (bytesBeside_le w name)
  rw [if_neg hnone]
  have hres := moves_resident cfg w name (some text)
  cases hoffer : w.offer cfg text name with
  | none =>
    have hsome := Option.isNone_eq_false_iff.mp (Bool.eq_false_iff.mpr hnone)
    obtain ⟨w₁, heq, hle, -⟩ := resident_of_no_offer hsome hoffer
    rw [heq] at hres ⊢
    exact hwrite w₁ hres ((bytesBeside_le w₁ name).trans hle)
  | some found =>
    obtain ⟨kind, held, read⟩ := found
    obtain ⟨w₁, heq, hready, hbeside, -, -⟩ := resident_of_offer hoffer
    have hmove : Moves w w₁ := by
      rw [heq] at hres
      exact hres
    rw [heq]
    obtain ⟨e, handle, hname, hkind, htext, hhandle⟩ := id hready
    have htouch := hmove.trans (Moves.touch (mem_of_lookup hname))
    have hheld : (w₁.touch name).heldText name = some held := by
      have hname' : (w₁.touch name).entries.lookup name = some e := hname
      unfold heldText
      rw [hname']
      exact htext
    have hbeside_le : (w₁.touch name).bytesBeside name ≤ w.residentBytes :=
      hbeside.trans_le (bytesBeside_le w name)
    dsimp only
    rw [hheld]
    dsimp only
    split
    · exact le_max_of_le_left (residentBytes_serveHit (htouch.coherent hc) name)
    · split
      · have hready' : Ready (w₁.touch name) name kind held := hready
        rcases residentBytes_appendEntry (htouch.coherent hc) hready' (text.drop held.length) with
          hle | ⟨-, hle⟩
        · exact le_max_of_le_left hle
        · exact le_max_of_le_right (hle.trans hbeside_le)
      · exact hwrite _ htouch hbeside_le

/-- A lookup for a text has room: the session store takes the text as a new entry, or there is
room for what the lookup may leave over. -/
def AutoOk (cfg : Setting) (w : NativeEntryStore) (text : Text) : Prop :=
  AUTO_MIN_BYTES ≤ utf8Len text ∧ w.Takes cfg text ∨
    ∀ n ∈ w.lingering cfg text (w.candidates text), w.residentBytes + n ≤ cfg.budget

theorem Takes.of_moves {text : Text} (hmove : Moves w w') (h : w.Takes cfg text) :
    w'.Takes cfg text := by
  intro S hset
  rw [hmove.keyId]
  exact h S (hmove.carries.toSameSetUp.trans hset)

theorem residentBytes_encodeAuto (hc : w.Coherent) (ht : w.store.Tracked) (hk : w.Known)
    {text : Text} (hok : w.AutoOk cfg text) :
    (w.encodeAuto cfg text).2.residentBytes ≤ cfg.budget := by
  have hserved := served_serveCandidates cfg hc ht text (w.candidates text)
    (w.nodup_candidates text) ⟨.refl w, rfl, fun _ _ => rfl⟩
  have hmove := moves_serveCandidates cfg text (w.candidates text) w
  -- The lookup alone met the budget, unless the text is long and got no ids from it.
  have hlookup : (serveCandidates cfg text (w.candidates text) w).2.residentBytes ≤ cfg.budget ∨
      (serveCandidates cfg text (w.candidates text) w).1 = none ∧
        AUTO_MIN_BYTES ≤ utf8Len text ∧ w.Takes cfg text := by
    rcases hserved with hle | ⟨hids, n, hn, hle⟩
    · exact .inl hle
    · rcases hok with ⟨hlong, htakes⟩ | hroom
      · exact .inr ⟨hids hlong, hlong, htakes⟩
      · obtain ⟨k, hk, rfl⟩ := Option.map_eq_some_iff.mp hn
        exact .inl (hle.trans (hroom k hk))
  unfold encodeAuto serveFromIndex
  cases hserve : serveCandidates cfg text (w.candidates text) w with
  | mk ids? w₁ =>
    rw [hserve] at hlookup hmove
    cases ids? with
    | some ids =>
      rcases hlookup with hle | ⟨hnone, -⟩
      · exact hle
      · cases hnone
    | none =>
      dsimp only at hlookup hmove ⊢
      have hmiss := residentBytes_missAuto cfg (hmove.coherent hc)
        (hmove.carries.tracked ht) (hmove.known hk) text
      rcases hlookup with hle | ⟨-, hlong, htakes⟩
      · split
        · exact hle
        · exact hmiss.1.trans (max_le le_rfl hle)
      · rw [if_neg (not_lt.mpr hlong)]
        exact hmiss.2 (htakes.of_moves hmove)

end NativeEntryStore

/-! ### Runs -/

open NativeEntryStore

section Runs

variable [Digests] {cfg : Setting} {w : NativeEntryStore}

/-- A step leaves no more than the budget has room for: only a lookup by content may fail to. -/
def MakesRoom (cfg : Setting) (w : NativeEntryStore) : Act → Prop
  | .encodeAuto text => w.AutoOk cfg text
  | _ => True

theorem residentBytes_after (hc : w.Coherent) (ht : w.store.Tracked) (hk : w.Known) {a : Act}
    (hroom : MakesRoom cfg w a) (hle : w.residentBytes ≤ cfg.budget) :
    (w.after cfg a).residentBytes ≤ cfg.budget := by
  cases a with
  | encodeSession sessionId text =>
    exact (residentBytes_encodeSession hc ht sessionId text).trans (max_le le_rfl hle)
  | encodeAuto text => exact residentBytes_encodeAuto hc ht hk hroom
  | dropEntry name removeFile =>
    exact ((residentBytes_dropEntry removeFile).trans_le (bytesBeside_le w name)).trans hle
  | evictEntry name => exact (residentBytes_evictEntry_le cfg w name).trans hle
  | evictOverBudget pin => exact residentBytes_evictOverBudget hc pin
  | capAutoEntries => exact (residentBytes_capLoop_le _ w).trans hle
  | disturb disk => exact hle

/-- In every run whose steps make room, the bytes in memory are within the budget in every
state; and the loop that evicts ends, in whatever state it starts. -/
theorem resident_within_budget (cfg : Setting) :
    (∀ w, Reach cfg (fun _ => True) (MakesRoom cfg) w → w.residentBytes ≤ cfg.budget) ∧
      ∀ (w : NativeEntryStore) (pin : Text), Ended cfg pin (w.evictOverBudget cfg pin) := by
  refine ⟨fun w h => ?_, fun w pin => evictOverBudget_ends cfg w pin⟩
  have hopened {disk : Disk} {faults : ℕ → Bool} {tick : ℕ} {w : NativeEntryStore}
      (hopen : openStore cfg disk faults tick = .ok w) : w.residentBytes ≤ cfg.budget := by
    rw [residentBytes_eq_zero]
    · exact Nat.zero_le _
    intro name
    by_contra hholds
    rw [Bool.not_eq_false] at hholds
    obtain ⟨e, hname, htext⟩ := holds_iff.mp hholds
    rw [(opened_of_open hopen).unread hname] at htext
    cases htext
  induction h with
  | opened _ hopen => exact hopened hopen
  | act a hreach hroom ih =>
    exact residentBytes_after hreach.coherent hreach.tracked hreach.known hroom ih
  | reopened _ _ hopen _ => exact hopened hopen

end Runs

/-! ### Short texts that go on from sessions -/

def emptyDisk : Disk := ⟨none, ∅, ∅⟩

/-- Two sessions, and a short text that goes on from each. -/
def shortCalls : List Act :=
  [.encodeSession "a".toList "a".toList, .encodeSession "b".toList "b".toList,
    .encodeAuto "aa".toList, .encodeAuto "bb".toList]

def afterShortCalls (w : NativeEntryStore) : NativeEntryStore :=
  shortCalls.foldl (NativeEntryStore.after zeroBudget) w

/-- Both sessions were read back, and both stay in memory. -/
theorem weights_afterShortCalls :
    ((openStore zeroBudget emptyDisk (fun _ => false) 0).toOption.map fun w =>
      (afterShortCalls w).entries.entries.map fun e => residentWeight e.2) = some [1, 1] := by
  decide +kernel

/-- Two entries of one byte each: there is a byte beside any one of them. -/
theorem bytesBeside_of_weights {w : NativeEntryStore}
    (h : (w.entries.entries.map fun e => residentWeight e.2) = [1, 1]) (name : Text) :
    0 < w.bytesBeside name := by
  have htotal : total residentWeight w.entries = 2 := by
    unfold total
    rw [h]
    rfl
  unfold bytesBeside
  cases hname : w.entries.lookup name with
  | none =>
    rw [erase_of_lookup_none hname, htotal]
    exact Nat.two_pos
  | some e =>
    have hmem : residentWeight e ∈ w.entries.entries.map fun e => residentWeight e.2 :=
      List.mem_map.mpr ⟨⟨name, e⟩, AList.mem_lookup_iff.mp hname, rfl⟩
    rw [h] at hmem
    simp only [List.mem_cons, List.not_mem_nil, or_false, or_self] at hmem
    rw [total_of_lookup _ hname] at htotal
    omega

/-- With no budget at all there are bytes in memory beside any one entry, whichever it is. -/
theorem short_extensions_stay :
    ∃ w, openStore zeroBudget emptyDisk (fun _ => false) 0 = .ok w ∧
      ∀ name, zeroBudget.budget < (afterShortCalls w).bytesBeside name := by
  have hweights := weights_afterShortCalls
  cases hopen : openStore zeroBudget emptyDisk (fun _ => false) 0 with
  | error e =>
    rw [hopen] at hweights
    cases hweights
  | ok w =>
    rw [hopen] at hweights
    exact ⟨w, rfl, bytesBeside_of_weights (Option.some.inj hweights)⟩

end Toktier.Routing.Entries
