import Toktier.Facade.SessionLaws

/-!
# Failures of the façade

An operation on a named session takes a lease, changes the store, changes the table of names
and saves, and each of these can fail with what came before left in place. Here is exactly when
a failing operation leaves names, leases and sessions as they were.

## Main definitions

* `Unchanged`: the names, the leases and the sessions that a client sees are the same.
* `OpenSafe`, `SeedSafe`, `AppendSafe`, `OverwriteSafe`, `ForkSafe`: the conditions.

## Main results

* `facade_failure_clean_iff`: the operations fail clean exactly under their conditions.
* `overwrite_loses_transcript`: a failed overwrite takes the old session away.
-/
namespace Toktier.Facade

open Toktier.Lib
open Toktier.StoreCore hiding Session Call Along FailsClean AppendSafe

variable {α : Type} {s s' : SessionStoreState} {S S' : Store}

/-! ## What a client sees -/

/-- The ids, the text and the revision of a session. -/
def viewed (sess : StoreCore.Session) : List UInt32 × Text × ℕ := (sess.allIds, sess.text, sess.revision)

/-- The same handles are live, with the same ids, texts and revisions. -/
def SameView (S S' : Store) : Prop :=
  ∀ h, (S'.sessions.lookup h).map viewed = (S.sessions.lookup h).map viewed

/-- Names, leases and live sessions are as they were. -/
structure Unchanged (s s' : SessionStoreState) : Prop where
  names : ∀ name, s'.names.lookup name = s.names.lookup name
  leased : s'.leased = s.leased
  live : SameView s.store s'.store

/-- When `m` fails, it leaves names, leases and live sessions as they were. -/
def FailsClean (m : Step α) (s : SessionStoreState) : Prop :=
  ∀ e s', m.run s = .error e s' → Unchanged s s'

theorem SameView.of_sessions (h : S'.sessions = S.sessions) : SameView S S' := by
  intro k
  rw [h]

theorem SameView.of_sameLive (h : SameLive S S') : SameView S S' := by
  intro k
  have hk := congrArg (Option.map fun o : List UInt32 × Text × ℕ × BlockHash => (o.1, o.2.1, o.2.2.1)) (h k)
  rw [Option.map_map, Option.map_map] at hk
  exact hk

theorem SameView.live (h : SameView S S') {k : ℕ} (hk : (S.sessions.lookup k).isSome) :
    (S'.sessions.lookup k).isSome := by
  have hview := congrArg Option.isSome (h k)
  rw [Option.isSome_map, Option.isSome_map] at hview
  rw [hview]
  exact hk

theorem Unchanged.refl (s : SessionStoreState) : Unchanged s s := ⟨fun _ => rfl, rfl, fun _ => rfl⟩

theorem Unchanged.withStore (h : SameView s.store S) : Unchanged s (s.withStore S) := ⟨fun _ => rfl, rfl, h⟩

/-- When each failure settles whether `C` holds, the failures are clean exactly when it does. -/
theorem failsClean_iff {m : Step α} {C : Prop}
    (h : wp m (fun _ _ => C) (fun _ s' => (C ∧ Unchanged s s') ∨ (¬C ∧ ¬Unchanged s s')) s) : FailsClean m s ↔ C := by
  constructor
  · intro hclean
    cases hrun : m.run s with
    | ok a s' => exact h.of_ok hrun
    | error e s' =>
        rcases h.of_error hrun with ⟨hC, -⟩ | ⟨-, hchanged⟩
        · exact hC
        · exact absurd (hclean e s' hrun) hchanged
  · intro hC e s' hrun
    rcases h.of_error hrun with ⟨-, hsame⟩ | ⟨hno, -⟩
    · exact hsame
    · exact absurd hC hno

/-- `m` returns on `s`. -/
def Returns (m : Step α) (s : SessionStoreState) : Prop := ∃ a s', m.run s = .ok a s'

theorem wp_returns (m : Step α) (s : SessionStoreState) :
    wp m (fun _ _ => Returns m s) (fun _ _ => ¬Returns m s) s := by
  refine wp_mono (wp_run m s) (fun a s' hrun => ⟨a, s', hrun⟩) ?_
  rintro e s' hrun ⟨a, s'', hok⟩
  rw [hok] at hrun
  cases hrun

/-! ## Names and handles -/

/-- The handles of the names have been given out. -/
def NamesUsed (s : SessionStoreState) : Prop := ∀ name h, s.names.lookup name = some h → h < s.store.nextHandle

/-- A name that is given the next handle changes. -/
theorem not_unchanged_of_bound {name : String} (h : NamesUsed s)
    (hbound : s'.names.lookup name = some s.store.nextHandle) : ¬Unchanged s s' := by
  intro hsame
  rw [hsame.names name] at hbound
  exact lt_irrefl _ (h name _ hbound)

/-- Saving changes nothing but the seal. -/
theorem wp_persist_frame (save : Save) (s : SessionStoreState) :
    wp (SessionStoreState.persist save) (fun _ s' => s' = s)
      (fun _ s' => ∃ persistenceFault, s' = { s with persistenceFault }) s := by
  unfold SessionStoreState.persist
  rw [wp_bind, wp_ensureHealthy]
  refine ⟨fun _ => ?_, fun _ _ => ⟨s.persistenceFault, rfl⟩⟩
  rw [wp_bind, wp_get, wp_ite]
  refine ⟨fun _ => ?_, fun _ => rfl⟩
  split
  · exact ⟨s.persistenceFault, rfl⟩
  · rw [wp_bind, wp_fromExcept]
    refine ⟨fun refs _ => ?_, fun _ _ => ⟨s.persistenceFault, rfl⟩⟩
    cases save s.store refs with
    | ok _ => rfl
    | error e => exact ⟨some e, rfl⟩

section Store

variable [Digests]

/-- A `put` that fails is safe, and has left the sessions, or it is not, and one is gone. -/
theorem wp_put_safe (keyId : ℕ) (text : Text) (eng : Engine) :
    wp (Store.put keyId text eng)
      (fun out S' => S.PutSafe keyId text eng ∧ out.handle = S.nextHandle ∧ (S'.sessions.lookup S.nextHandle).isSome)
      (fun _ S' => ((S.PutSafe keyId text eng ∧ SameView S S') ∨ (¬S.PutSafe keyId text eng ∧ ¬SameView S S')) ∧
        ∀ k, S.sessions.lookup k = none → S'.sessions.lookup k = none) S := by
  have hnext : S.putStart.nextHandle = S.nextHandle := by rw [Store.putStart_eq]
  have hput : wp (Store.put keyId text eng)
      (fun out S' => out.handle = S.nextHandle ∧ (S'.sessions.lookup S.nextHandle).isSome) (fun _ _ => True) S := by
    rw [Store.wp_put]
    refine ⟨fun key _ => wp_mono (wp_run _ _) (fun sess w _ => ⟨rfl, ?_⟩) fun _ _ _ => trivial, fun _ => trivial⟩
    show ((S.putStart.sessions.insert S.putStart.nextHandle sess).lookup S.nextHandle).isSome
    rw [hnext, AList.lookup_insert]
    rfl
  refine wp_mono (wp_and (S.wp_put_passes keyId text eng) hput) ?_ ?_
  · rintro out S' ⟨hpass, hout⟩
    exact ⟨fun key hkey => .inr (hpass key hkey), hout⟩
  · rintro e S' ⟨⟨hkey, hsame⟩ | ⟨⟨key, hkey, hfail⟩, hgone⟩, -⟩
    · refine ⟨.inl ⟨fun key hkey' => ?_, .of_sessions hsame⟩, fun k hk => by rw [hsame, hk]⟩
      rw [hkey] at hkey'
      cases hkey'
    · refine ⟨?_, fun k hk => ?_⟩
      · by_cases hslot : S.HasSlot
        · left
          refine ⟨fun _ _ => .inl hslot, .of_sessions ?_⟩
          have hslot' : S.tick.HasSlot := hslot
          rw [hgone, Store.evictForCapacity_of_hasSlot hslot']
          rfl
        · right
          refine ⟨fun hsafe => ?_, fun hsame => ?_⟩
          · exact hfail ((hsafe key hkey).resolve_left hslot)
          · obtain ⟨k, hlive, hdead⟩ := Store.exists_evicted (S := S.tick) hslot
            have hstill := hsame.live (k := k) hlive
            rw [hgone, hdead] at hstill
            cases hstill
      · rw [hgone]
        exact Store.lookup_evictLoop _ k hk

/-- An append that fails is safe, and has left the sessions, or it is not, and its session has
changed; one that returns has changed its session. -/
theorem wp_appendPatch_safe (handle : ℕ) (delta : Text) (rev : ℕ) (eng : Engine) :
    wp (Store.appendPatch handle delta rev eng) (fun _ S' => ¬SameView S S')
      (fun _ S' => (StoreCore.AppendSafe S handle delta rev eng ∧ SameView S S') ∨
        (¬StoreCore.AppendSafe S handle delta rev eng ∧ ¬SameView S S')) S := by
  refine wp_mono (wp_run _ _) ?_ ?_
  · intro patch S' hrun hsame
    obtain ⟨sess, sess', hs, hs', hpatch⟩ := Store.patchOk_of_ok S handle delta rev eng hrun
    have hview := hsame handle
    rw [hs, hs'] at hview
    have hrev : sess'.revision = sess.revision := congrArg (fun v => v.2.2) (Option.some.inj hview)
    rw [hpatch.revision] at hrev
    exact Nat.succ_ne_self _ hrev
  · intro e S' hrun
    by_cases hsafe : StoreCore.AppendSafe S handle delta rev eng
    · refine .inl ⟨hsafe, fun k => ?_⟩
      obtain ⟨hothers, hnone, hsame⟩ := Store.appendPatch_clean_iff.mpr hsafe e S' hrun
      by_cases heq : k = handle
      · subst heq
        cases hs : S.sessions.lookup k with
        | none => rw [hnone hs]
        | some sess =>
            obtain ⟨sess', hs', hcontent⟩ := hsame sess hs
            rw [hs', Option.map_some, Option.map_some, viewed, viewed, hcontent.ids, hcontent.text,
              hcontent.revision]
      · rw [hothers k heq]
    · refine .inr ⟨hsafe, fun hsame => hsafe (Store.appendSafe_of_same fun e' S'' hrun' sess hs => ?_)⟩
      cases hrun.symm.trans hrun'
      have hview := hsame handle
      rw [hs] at hview
      obtain ⟨sess', hs', hsess'⟩ := Option.map_eq_some_iff.mp hview
      exact ⟨sess', hs', congrArg (fun v => v.1) hsess', congrArg (fun v => v.2.1) hsess'⟩

end Store

/-! ## Opening -/

/-- The handle of a name that is opened is live. -/
def OpenSafe (s : SessionStoreState) (name : String) : Prop :=
  validateName name = .ok () → s.persistenceFault = none → name ∉ s.leased →
    ∀ h, s.names.lookup name = some h → (s.store.sessions.lookup h).isSome

theorem wp_open_safe (s : SessionStoreState) (name : String) :
    wp (Session.open name) (fun _ _ => OpenSafe s name)
      (fun _ s' => (OpenSafe s name ∧ Unchanged s s') ∨ (¬OpenSafe s name ∧ ¬Unchanged s s')) s := by
  unfold Session.open lease
  simp only [wp_bind, wp_fromExcept, wp_ensureHealthy, wp_get, wp_throwIf, wp_modify]
  refine ⟨fun _ hvalid => ⟨fun healthy => ⟨fun hleased => ?_, fun hfree => ?_⟩, fun cause hfault => ?_⟩,
    fun e hinvalid => ?_⟩
  · exact .inl ⟨fun _ _ hno => absurd hleased hno, .refl s⟩
  · cases hname : s.names.lookup name with
    | none =>
        intro _ _ _ h hh
        rw [hname] at hh
        cases hh
    | some handle =>
        simp only [wp_bind, wp_onStore, Store.wp_session, wp_pure]
        refine ⟨fun sess hsess => ?_, fun hnone => ?_⟩
        · intro _ _ _ h hh
          cases hname.symm.trans hh
          rw [hsess]
          rfl
        · right
          refine ⟨fun hsafe => ?_, fun hsame => ?_⟩
          · have hlive := hsafe hvalid healthy hfree handle hname
            rw [hnone] at hlive
            cases hlive
          · have hleased : insert name s.leased = s.leased := hsame.leased
            rw [← hleased] at hfree
            exact hfree (Finset.mem_insert_self _ _)
  · refine .inl ⟨fun _ healthy => ?_, .refl s⟩
    rw [healthy] at hfault
    cases hfault
  · refine .inl ⟨fun hvalid => ?_, .refl s⟩
    rw [hvalid] at hinvalid
    cases hinvalid

theorem withoutSession_of_dead {old : ℕ} (h : S.sessions.lookup old = none) :
    SameView S (withoutSession S old) := by
  intro k
  show ((S.sessions.erase old).lookup k).map viewed = _
  by_cases heq : k = old
  · rw [heq, AList.lookup_erase, h]
  · rw [AList.lookup_erase_ne heq]

theorem lookup_withoutSession (S : Store) (old : ℕ) : (withoutSession S old).sessions.lookup old = none :=
  AList.lookup_erase old S.sessions

section Operations

variable [Digests]

/-! ## Seeding and overwriting -/

/-- The `put` of a genesis fails without an eviction if it fails, and what it leaves is saved
if it returns. -/
def GenesisSafe (s : SessionStoreState) (name : String) (text : Text) (eng : Engine) (save : Save) : Prop :=
  s.store.PutSafe s.key text eng ∧
    ∀ out S row S', (Store.put s.key text eng).run s.store = .ok out S →
      (Store.sharedAllIds out.handle).run S = .ok row S' →
        Returns (SessionStoreState.persist save) (s.named name text S' out.handle)

/-- Where a genesis fails. -/
inductive GenesisFailure (s : SessionStoreState) (name : String) (text : Text) (eng : Engine) (save : Save)
    (s' : SessionStoreState) : Prop
  /-- The `put` fails, and evicts nobody. -/
  | refused {e : StoreError} (put : (Store.put s.key text eng).run s.store = .error e s'.store)
      (safe : GenesisSafe s name text eng save) (state : s' = s.withStore s'.store)
      (same : SameView s.store s'.store)
  /-- The `put` fails, and has evicted a session. -/
  | evicted {e : StoreError} (put : (Store.put s.key text eng).run s.store = .error e s'.store)
      (harm : ¬GenesisSafe s name text eng save) (state : s' = s.withStore s'.store)
      (lost : ¬SameView s.store s'.store)
      (shrunk : ∀ k, s.store.sessions.lookup k = none → s'.store.sessions.lookup k = none)
  /-- The session is there, and cannot be saved. -/
  | unsaved (harm : ¬GenesisSafe s name text eng save)
      (bound : s'.names.lookup name = some s.store.nextHandle)

/-- A genesis that fails, and what it leaves. -/
theorem wp_genesis_safe (s : SessionStoreState) (name : String) (text : Text) (eng : Engine) (save : Save) :
    wp (genesis name text eng save)
      (fun _ _ => GenesisSafe s name text eng save ∧ ∃ out S, (Store.put s.key text eng).run s.store = .ok out S)
      (fun _ s' => GenesisFailure s name text eng save s') s := by
  unfold genesis bindName recordTranscript
  rw [wp_bind, wp_get, wp_bind, wp_onStore]
  refine wp_mono (wp_and (wp_run (Store.put s.key text eng) s.store) (wp_put_safe s.key text eng)) ?_ ?_
  · rintro out S ⟨hput, hsafe, hhandle, hlive⟩
    rw [wp_bind, wp_modify, wp_bind, wp_modify, wp_bind, wp_onStore]
    -- What is left to settle is the save.
    have hiff (row : SharedIds) (S' : Store) (hrow : (Store.sharedAllIds out.handle).run S = .ok row S') :
        GenesisSafe s name text eng save ↔
          Returns (SessionStoreState.persist save) (s.named name text S' out.handle) := by
      refine ⟨fun h => h.2 out S row S' hput hrow, fun h => ⟨hsafe, ?_⟩⟩
      rintro out' S₁ row' S₁' hput' hrow'
      cases hput.symm.trans hput'
      cases hrow.symm.trans hrow'
      exact h
    refine wp_mono (wp_run (Store.sharedAllIds out.handle) S) ?_ ?_
    · intro row S' hrow
      have hpersist := wp_and (wp_returns (SessionStoreState.persist save) (s.named name text S' out.handle))
        (wp_persist_frame save (s.named name text S' out.handle))
      rw [wp_bind]
      refine wp_mono hpersist (fun _ _ h => ⟨(hiff row S' hrow).mpr h.1, out, S, hput⟩) ?_
      rintro e s' ⟨hno, fault, rfl⟩
      refine .unsaved (fun h => hno ((hiff row S' hrow).mp h)) ?_
      show (s.names.insert name out.handle).lookup name = _
      rw [AList.lookup_insert, hhandle]
    · intro e S' hrow
      have hreturns : wp (Store.sharedAllIds out.handle) (fun _ _ => True) (fun _ _ => False) S := by
        unfold Store.sharedAllIds Store.touch
        simp only [wp_bind, wp_modify, Store.wp_session, wp_pure]
        refine ⟨fun _ _ => trivial, fun hnone => ?_⟩
        rw [hhandle] at hnone
        replace hnone : S.sessions.lookup s.store.nextHandle = none := hnone
        rw [hnone] at hlive
        cases hlive
      exact (hreturns.of_error hrow).elim
  · rintro e S ⟨hput, ⟨hsafe, hsame⟩ | ⟨hno, hlost⟩, hshrunk⟩
    · refine .refused hput ⟨hsafe, ?_⟩ rfl hsame
      intro out S' row S'' hput'
      cases hput.symm.trans hput'
    · exact .evicted hput (fun h => hno h.1) rfl hlost hshrunk

/-- The seed is refused before it starts, or its genesis is safe. -/
def SeedSafe (s : SessionStoreState) (self : Session) (text : Text) (eng : Engine) (save : Save) : Prop :=
  self.closed = false → self.handle = none → s.persistenceFault = none → GenesisSafe s self.name text eng save

/-- A genesis over the state a client saw. -/
theorem GenesisFailure.settles {name : String} {text : Text} {eng : Engine} {save : Save} (hused : NamesUsed s)
    (h : GenesisFailure s name text eng save s') :
    (GenesisSafe s name text eng save ∧ Unchanged s s') ∨ (¬GenesisSafe s name text eng save ∧ ¬Unchanged s s') := by
  cases h with
  | refused put safe state same =>
      left
      rw [state]
      exact ⟨safe, .withStore same⟩
  | evicted put harm state lost shrunk => exact .inr ⟨harm, fun hsame => lost hsame.live⟩
  | unsaved harm bound => exact .inr ⟨harm, not_unchanged_of_bound hused bound⟩

theorem wp_seed_safe (hused : NamesUsed s) (self : Session) (text : Text) (eng : Engine) (save : Save) :
    wp (self.seed text eng save) (fun _ _ => SeedSafe s self text eng save)
      (fun _ s' => (SeedSafe s self text eng save ∧ Unchanged s s') ∨
        (¬SeedSafe s self text eng save ∧ ¬Unchanged s s')) s := by
  unfold Session.seed
  simp only [wp_bind, wp_requireOpen, wp_throwIf, wp_ensureHealthy, wp_pure]
  refine ⟨fun hclosed => .inl ⟨fun hopen => ?_, .refl s⟩, fun hopen => ⟨fun hsome => .inl ⟨fun _ hnone => ?_, .refl s⟩,
    fun hnone => ⟨fun healthy => ?_, fun cause hfault => .inl ⟨fun _ _ healthy => ?_, .refl s⟩⟩⟩⟩
  · rw [hclosed] at hopen
    cases hopen
  · rw [hnone] at hsome
    cases hsome
  · have hiff : SeedSafe s self text eng save ↔ GenesisSafe s self.name text eng save :=
      ⟨fun h => h (by simpa using hopen) (by simpa using hnone) healthy, fun h _ _ _ => h⟩
    rw [hiff]
    exact wp_mono (wp_genesis_safe s self.name text eng save) (fun _ _ h => h.1) fun _ _ h => h.settles hused
  · rw [healthy] at hfault
    cases hfault

/-- The overwrite is refused before it starts; or its genesis is safe, and if an old session
was evicted, its `put` returns. -/
def OverwriteSafe (s : SessionStoreState) (self : Session) (text : Text) (eng : Engine) (save : Save) : Prop :=
  self.closed = false → s.persistenceFault = none →
    (self.handle = none → GenesisSafe s self.name text eng save) ∧
      ∀ old, self.handle = some old →
        GenesisSafe (s.withStore (withoutSession s.store old)) self.name text eng save ∧
          ((s.store.sessions.lookup old).isSome →
            ∃ out S, (Store.put s.key text eng).run (withoutSession s.store old) = .ok out S)

theorem wp_overwrite_safe (hused : NamesUsed s) (self : Session) (text : Text) (eng : Engine) (save : Save) :
    wp (self.overwrite text eng save) (fun _ _ => OverwriteSafe s self text eng save)
      (fun _ s' => (OverwriteSafe s self text eng save ∧ Unchanged s s') ∨
        (¬OverwriteSafe s self text eng save ∧ ¬Unchanged s s')) s := by
  unfold Session.overwrite
  simp only [wp_bind, wp_requireOpen, wp_ensureHealthy, wp_pure]
  refine ⟨fun hclosed => .inl ⟨fun hopen => ?_, .refl s⟩, fun hopen => ⟨fun healthy => ?_,
    fun cause hfault => .inl ⟨fun _ healthy => ?_, .refl s⟩⟩⟩
  · rw [hclosed] at hopen
    cases hopen
  · have hopen : self.closed = false := by simpa using hopen
    refine wp_evict self (fun hnone => ?_) fun old hold => ?_
    · have hiff : OverwriteSafe s self text eng save ↔ GenesisSafe s self.name text eng save := by
        refine ⟨fun h => (h hopen healthy).1 hnone, fun h _ _ => ⟨fun _ => h, fun old hold => ?_⟩⟩
        rw [hnone] at hold
        cases hold
      rw [hiff]
      exact wp_mono (wp_genesis_safe s self.name text eng save) (fun _ _ h => h.1) fun _ _ h => h.settles hused
    · have hiff : OverwriteSafe s self text eng save ↔
          GenesisSafe (s.withStore (withoutSession s.store old)) self.name text eng save ∧
            ((s.store.sessions.lookup old).isSome →
              ∃ out S, (Store.put s.key text eng).run (withoutSession s.store old) = .ok out S) := by
        refine ⟨fun h => (h hopen healthy).2 old hold, fun h _ _ => ⟨fun hnone => ?_, fun old' hold' => ?_⟩⟩
        · rw [hnone] at hold
          cases hold
        · cases hold.symm.trans hold'
          exact h
      rw [hiff]
      refine wp_mono (wp_genesis_safe (s.withStore (withoutSession s.store old)) self.name text eng save)
        (fun _ _ h => ⟨h.1, fun _ => h.2⟩) fun e s' h => ?_
      have hgone (hlive : (s.store.sessions.lookup old).isSome) (hdead : s'.store.sessions.lookup old = none) :
          ¬Unchanged s s' := by
        intro hsame
        have hstill := hsame.live.live hlive
        rw [hdead] at hstill
        cases hstill
      have hgone' := lookup_withoutSession s.store old
      by_cases hlive : (s.store.sessions.lookup old).isSome
      · right
        cases h with
        | refused put safe state same =>
            refine ⟨fun hsafe => ?_, hgone hlive ?_⟩
            · obtain ⟨out, S, hput⟩ := hsafe.2 hlive
              cases hput.symm.trans put
            · have hview := same old
              rw [show (s.withStore (withoutSession s.store old)).store = withoutSession s.store old from rfl,
                hgone'] at hview
              exact Option.map_eq_none_iff.mp hview
        | evicted put harm state lost shrunk => exact ⟨fun hsafe => harm hsafe.1, hgone hlive (shrunk old hgone')⟩
        | unsaved harm bound => exact ⟨fun hsafe => harm hsafe.1, not_unchanged_of_bound hused bound⟩
      · have hdead : s.store.sessions.lookup old = none := by simpa using hlive
        have hview := withoutSession_of_dead hdead
        cases h with
        | refused put safe state same =>
            refine .inl ⟨⟨safe, fun hlive' => absurd hlive' hlive⟩, ?_⟩
            rw [state]
            exact .withStore fun k => (same k).trans (hview k)
        | evicted put harm state lost shrunk =>
            refine .inr ⟨fun hsafe => harm hsafe.1, fun hsame => lost fun k => ?_⟩
            exact (hsame.live k).trans (hview k).symm
        | unsaved harm bound => exact .inr ⟨fun hsafe => harm hsafe.1, not_unchanged_of_bound hused bound⟩
  · rw [healthy] at hfault
    cases hfault

/-! ## Appending and forking -/

/-- What an append does to the façade's own tables, and its save. -/
def keepAppend (name : String) (delta : Text) (save : Save) : Step Unit := do
  extendTranscript name delta
  SessionStoreState.persist save

/-- The store's part of an append is safe, and what it leaves is kept if it returns. -/
def AppendKept (s : SessionStoreState) (self : Session) (handle rev : ℕ) (delta : Text) (eng : Engine)
    (save : Save) : Prop :=
  StoreCore.AppendSafe s.store handle delta rev eng ∧
    ∀ patch S, (Store.appendPatch handle delta rev eng).run s.store = .ok patch S →
      Returns (keepAppend self.name delta save) (s.withStore S)

/-- The append is refused before it starts, or it is safe. -/
def AppendSafe (s : SessionStoreState) (self : Session) (delta : Text) (eng : Engine) (save : Save) : Prop :=
  self.closed = false → ∀ handle rev, self.handle = some handle → self.revision = some rev →
    s.persistenceFault = none → AppendKept s self handle rev delta eng save

omit [Digests] in
theorem wp_keepAppend_store (name : String) (delta : Text) (save : Save) (s : SessionStoreState) :
    wp (keepAppend name delta save) (fun _ _ => True) (fun _ s' => s'.store = s.store) s := by
  have hpersist (s₁ : SessionStoreState) (h₁ : s₁.store = s.store) :
      wp (SessionStoreState.persist save) (fun _ _ => True) (fun _ s' => s'.store = s.store) s₁ := by
    refine wp_mono (wp_persist_frame save s₁) (fun _ _ _ => trivial) ?_
    rintro e s' ⟨fault, rfl⟩
    exact h₁
  unfold keepAppend extendTranscript
  rw [wp_bind, wp_bind, wp_get]
  split
  · exact hpersist s rfl
  · split
    · rfl
    · exact hpersist _ rfl

theorem wp_append_safe (self : Session) (delta : Text) (eng : Engine) (save : Save) (s : SessionStoreState) :
    wp (self.append delta eng save) (fun _ _ => AppendSafe s self delta eng save)
      (fun _ s' => (AppendSafe s self delta eng save ∧ Unchanged s s') ∨
        (¬AppendSafe s self delta eng save ∧ ¬Unchanged s s')) s := by
  unfold Session.append
  simp only [wp_bind, wp_requireOpen, wp_seeded]
  refine ⟨fun hclosed => .inl ⟨fun hopen => ?_, .refl s⟩, fun hopen => ⟨fun handle hhandle => ?_,
    fun hnone => .inl ⟨fun _ handle rev hhandle => ?_, .refl s⟩⟩⟩
  · rw [hclosed] at hopen
    cases hopen
  · split
    · rename_i hnone
      refine .inl ⟨fun _ _ rev _ hrev => ?_, .refl s⟩
      rw [hnone] at hrev
      cases hrev
    · rename_i rev hrev
      simp only [wp_bind, wp_ensureHealthy, wp_onStore, wp_pure]
      refine ⟨fun healthy => ?_, fun cause hfault => .inl ⟨fun _ _ _ _ _ healthy => ?_, .refl s⟩⟩
      · have hiff : AppendSafe s self delta eng save ↔ AppendKept s self handle rev delta eng save := by
          refine ⟨fun h => h (by simpa using hopen) handle rev hhandle hrev healthy, fun h _ handle' rev' h₁ h₂ _ => ?_⟩
          cases hhandle.symm.trans h₁
          cases hrev.symm.trans h₂
          exact h
        rw [hiff]
        refine wp_mono (wp_and (wp_run (Store.appendPatch handle delta rev eng) s.store)
          (wp_appendPatch_safe handle delta rev eng)) ?_ ?_
        · rintro patch S ⟨hrun, hchanged⟩
          have hsafe : StoreCore.AppendSafe s.store handle delta rev eng := by
            refine Store.appendSafe_of_same fun e S' hrun' => ?_
            cases hrun.symm.trans hrun'
          have hkept : wp (keepAppend self.name delta save)
              (fun _ _ => Returns (keepAppend self.name delta save) (s.withStore S))
              (fun _ s' => ¬Returns (keepAppend self.name delta save) (s.withStore S) ∧ s'.store = S)
              (s.withStore S) :=
            wp_mono (wp_and (wp_returns (keepAppend self.name delta save) (s.withStore S))
              (wp_keepAppend_store self.name delta save (s.withStore S))) (fun _ _ h => h.1) fun _ _ h => h
          have hrest : wp (keepAppend self.name delta save) (fun _ _ => AppendKept s self handle rev delta eng save)
              (fun _ s' => (AppendKept s self handle rev delta eng save ∧ Unchanged s s') ∨
                (¬AppendKept s self handle rev delta eng save ∧ ¬Unchanged s s')) (s.withStore S) := by
            refine wp_mono hkept (fun _ _ hreturns => ⟨hsafe, fun patch' S' hrun' => ?_⟩) ?_
            · cases hrun.symm.trans hrun'
              exact hreturns
            · rintro e s' ⟨hno, hstore⟩
              refine .inr ⟨fun h => hno (h.2 patch S hrun), fun hsame => hchanged ?_⟩
              rw [← hstore]
              exact hsame.live
          unfold keepAppend at hrest
          rw [wp_bind] at hrest
          exact hrest
        · rintro e S ⟨hrun, ⟨hsafe, hsame⟩ | ⟨hno, hchanged⟩⟩
          · refine .inl ⟨⟨hsafe, fun patch S' hrun' => ?_⟩, .withStore hsame⟩
            cases hrun.symm.trans hrun'
          · exact .inr ⟨fun h => hno h.1, fun hsame => hchanged hsame.live⟩
      · rw [healthy] at hfault
        cases hfault
  · rw [hnone] at hhandle
    cases hhandle

/-- What a fork does to the façade's own tables, once its name is bound, and its save. -/
def keepFork (self : Session) (newName : String) (save : Save) : Step Unit := do
  self.forkTranscript newName
  lease newName
  SessionStoreState.persist save

/-- The fork is refused before it starts, or by the store, or what it leaves is kept. -/
def ForkSafe (s : SessionStoreState) (self : Session) (newName : String) (save : Save) : Prop :=
  self.closed = false → validateName newName = .ok () → ∀ handle, self.handle = some handle →
    s.persistenceFault = none → s.names.lookup newName = none → newName ∉ s.leased →
      ∀ forked S, (Store.fork handle).run s.store = .ok forked S →
        Returns (keepFork self newName save) { s with store := S, names := s.names.insert newName forked }

omit [Digests] in
theorem wp_keepFork_names (self : Session) (newName : String) (save : Save) (s : SessionStoreState) :
    wp (keepFork self newName save) (fun _ _ => True) (fun _ s' => s'.names = s.names) s := by
  have hrest (s₁ : SessionStoreState) (h₁ : s₁.names = s.names) :
      wp (do lease newName; SessionStoreState.persist save) (fun _ _ => True) (fun _ s' => s'.names = s.names) s₁ := by
    unfold lease
    rw [wp_bind, wp_modify]
    refine wp_mono (wp_persist_frame save _) (fun _ _ _ => trivial) ?_
    rintro e s' ⟨fault, rfl⟩
    exact h₁
  unfold keepFork Session.forkTranscript
  rw [wp_bind, wp_bind, wp_get]
  split
  · exact hrest s rfl
  · split
    · rfl
    · exact hrest _ rfl

theorem wp_fork_safe (self : Session) (newName : String) (save : Save) (s : SessionStoreState) :
    wp (self.fork newName save) (fun _ _ => ForkSafe s self newName save)
      (fun _ s' => (ForkSafe s self newName save ∧ Unchanged s s') ∨
        (¬ForkSafe s self newName save ∧ ¬Unchanged s s')) s := by
  unfold Session.fork bindName
  simp only [wp_bind, wp_requireOpen, wp_fromExcept, wp_seeded, wp_ensureHealthy, wp_get, wp_throwIf, wp_onStore,
    wp_modify, wp_pure]
  refine ⟨fun hclosed => .inl ⟨fun hopen => ?_, .refl s⟩, fun hopen => ⟨fun _ hvalid => ⟨fun handle hhandle =>
    ⟨fun healthy => ⟨fun htaken => .inl ⟨fun _ _ _ _ _ hnew hfree => ?_, .refl s⟩, fun hfree => ?_⟩,
      fun cause hfault => .inl ⟨fun _ _ _ _ healthy => ?_, .refl s⟩⟩,
    fun hnone => .inl ⟨fun _ _ handle hhandle => ?_, .refl s⟩⟩,
    fun e hinvalid => .inl ⟨fun _ hvalid => ?_, .refl s⟩⟩⟩
  · rw [hclosed] at hopen
    cases hopen
  · rw [hnew] at htaken
    rcases htaken with htaken | htaken
    · cases htaken
    · exact absurd htaken hfree
  · obtain ⟨hnew, hfree⟩ := not_or.mp hfree
    have hnew : s.names.lookup newName = none := by simpa using hnew
    have hopen : self.closed = false := by simpa using hopen
    refine wp_mono (wp_run (Store.fork handle) s.store) ?_ ?_
    · intro forked S hrun
      have hiff : ForkSafe s self newName save ↔
          Returns (keepFork self newName save) { s with store := S, names := s.names.insert newName forked } := by
        refine ⟨fun h => h hopen hvalid handle hhandle healthy hnew hfree forked S hrun, fun h => ?_⟩
        intro _ _ handle' hhandle' _ _ _ forked' S' hrun'
        cases hhandle.symm.trans hhandle'
        cases hrun.symm.trans hrun'
        exact h
      have hrest : wp (keepFork self newName save) (fun _ _ => ForkSafe s self newName save)
          (fun _ s' => (ForkSafe s self newName save ∧ Unchanged s s') ∨
            (¬ForkSafe s self newName save ∧ ¬Unchanged s s'))
          { s with store := S, names := s.names.insert newName forked } := by
        rw [hiff]
        refine wp_mono (wp_and (wp_returns (keepFork self newName save) _) (wp_keepFork_names self newName save _))
          (fun _ _ h => h.1) ?_
        rintro e s' ⟨hno, hnames⟩
        refine .inr ⟨hno, fun hsame => ?_⟩
        have hlookup := hsame.names newName
        rw [hnames, AList.lookup_insert, hnew] at hlookup
        cases hlookup
      unfold keepFork at hrest
      simp only [wp_bind] at hrest
      exact hrest
    · intro e S hrun
      refine .inl ⟨?_, .withStore (.of_sameLive (Store.fork_losesNothing handle e S hrun))⟩
      intro _ _ handle' hhandle' _ _ _ forked' S' hrun'
      cases hhandle.symm.trans hhandle'
      cases hrun.symm.trans hrun'
  · rw [healthy] at hfault
    cases hfault
  · rw [hnone] at hhandle
    cases hhandle
  · rw [hvalid] at hinvalid
    cases hinvalid

/-! ## Every reachable state -/

omit [Digests] in
theorem TableMove.nextHandle_le {c : StoreCore.Call} (h : TableMove c S S') : S.nextHandle ≤ S'.nextHandle := by
  cases h.effect with
  | kept next table => exact next.ge
  | changed next found table own stamp row => exact next.ge
  | dropped next own table => exact next.ge
  | slot next later own table => exact next.ge
  | created next later own table stamp row =>
      rw [next]
      exact Nat.le_succ _

omit [Digests] in
theorem NamesUsed.withStore (h : NamesUsed s) (hle : s.store.nextHandle ≤ S.nextHandle) :
    NamesUsed (s.withStore S) := fun name k hk => (h name k hk).trans_le hle

omit [Digests] in
theorem NamesUsed.insert {name : String} {k : ℕ} (h : NamesUsed s) (hk : k < s.store.nextHandle)
    (hnames : s'.names = s.names.insert name k) (hstore : s'.store = s.store) : NamesUsed s' := by
  intro n k' hk'
  rw [hnames] at hk'
  rw [hstore]
  rcases lookup_insert_eq_some.mp hk' with ⟨-, rfl⟩ | ⟨-, hold⟩
  · exact hk
  · exact h n k' hold

/-- Work on the store that a call makes keeps the handles of names below the next one. -/
theorem keeps_onStore {m : Fallible Store StoreError α} {c : StoreCore.Call} (hc : c.run = ignore m) :
    Keeps NamesUsed (onStore m) := by
  intro s hs
  rw [wp_onStore]
  exact wp_mono (wp_tableMove hc) (fun _ S hmove => hs.withStore (TableMove.nextHandle_le hmove))
    fun _ S hmove => hs.withStore (TableMove.nextHandle_le hmove)

omit [Digests] in
theorem keeps_ensureHealthy : Keeps NamesUsed SessionStoreState.ensureHealthy := by
  intro s hs
  rw [wp_ensureHealthy]
  exact ⟨fun _ => hs, fun _ _ => hs⟩

omit [Digests] in
theorem keeps_persist (save : Save) : Keeps NamesUsed (SessionStoreState.persist save) := by
  intro s hs
  refine wp_mono (wp_persist_frame save s) (fun _ s' h => ?_) fun e s' h => ?_
  · rw [h]
    exact hs
  · obtain ⟨fault, rfl⟩ := h
    exact hs

omit [Digests] in
theorem keeps_extendTranscript (name : String) (delta : Text) : Keeps NamesUsed (extendTranscript name delta) := by
  refine .get_bind fun s hs => ?_
  split
  · exact hs
  · split
    · exact hs
    · exact hs

omit [Digests] in
theorem keeps_forkTranscript (self : Session) (newName : String) : Keeps NamesUsed (self.forkTranscript newName) := by
  refine .get_bind fun s hs => ?_
  split
  · exact hs
  · split
    · exact hs
    · exact hs

omit [Digests] in
theorem keeps_seeded (self : Session) (message : String) : Keeps NamesUsed (self.seeded message) := by
  intro s hs
  rw [wp_seeded]
  exact ⟨fun _ _ => hs, fun _ => hs⟩

omit [Digests] in
theorem keeps_requireOpen (self : Session) : Keeps NamesUsed self.requireOpen := .throwIf _ _

theorem keeps_evict (self : Session) : Keeps NamesUsed self.evict := by
  unfold Session.evict
  split
  · exact .pure ()
  · exact (keeps_onStore (c := .evict _) rfl).map

/-- A session that was put or forked is bound to the handle it was given. -/
theorem keeps_bindNext {m : Fallible Store StoreError α} {c : StoreCore.Call} (hc : c.run = ignore m) (name : String)
    (handle : α → ℕ) (hhandle : ∀ S, wp m (fun a S' => handle a < S'.nextHandle) (fun _ _ => True) S)
    {β : Type} {f : α → Step β} (hf : ∀ a, Keeps NamesUsed (f a)) :
    Keeps NamesUsed (do let a ← onStore m; bindName name (handle a); f a) := by
  intro s hs
  rw [wp_bind, wp_onStore]
  refine wp_mono (wp_and (wp_tableMove hc) (hhandle s.store)) ?_
    fun _ S h => hs.withStore (TableMove.nextHandle_le h.1)
  rintro a S ⟨hmove, hlt⟩
  unfold bindName
  rw [wp_bind, wp_modify]
  have hnamed : NamesUsed { s with store := S, names := s.names.insert name (handle a) } :=
    (hs.withStore (TableMove.nextHandle_le hmove)).insert hlt rfl rfl
  exact hf a _ hnamed

theorem wp_put_handle (keyId : ℕ) (text : Text) (eng : Engine) (S : Store) :
    wp (Store.put keyId text eng) (fun out S' => out.handle < S'.nextHandle) (fun _ _ => True) S := by
  have hnext : S.putStart.nextHandle = S.nextHandle := by rw [Store.putStart_eq]
  rw [Store.wp_put]
  refine ⟨fun key _ => wp_mono (wp_run _ _) (fun sess w _ => ?_) fun _ _ _ => trivial, fun _ => trivial⟩
  show S.nextHandle < S.putStart.nextHandle + 1
  rw [hnext]
  exact Nat.lt_succ_self _

theorem wp_fork_handle (handle : ℕ) (S : Store) :
    wp (Store.fork handle) (fun forked S' => forked < S'.nextHandle) (fun _ _ => True) S := by
  refine Store.wp_fork handle (fun _ => trivial) fun sess key _ _ => ?_
  show S.nextHandle < (S.forkStart handle sess).nextHandle + 1
  rw [Store.forkStart_eq]
  exact Nat.lt_succ_self _

theorem keeps_genesis (name : String) (text : Text) (eng : Engine) (save : Save) :
    Keeps NamesUsed (genesis name text eng save) := by
  refine .get_bind fun s hs => ?_
  refine keeps_bindNext (c := .put s.key text eng) rfl name PutOutcome.handle (wp_put_handle s.key text eng)
    (fun put => ?_) s hs
  have hrecord : Keeps NamesUsed (recordTranscript name text) := .modify fun _ h => h
  exact hrecord.bind fun _ => (keeps_onStore (c := .sharedAllIds put.handle) rfl).bind fun _ =>
    (keeps_persist save).bind fun _ => .pure _

theorem keeps_run (writers : List Session) (c : FacadeCall) : Keeps NamesUsed (c.run writers) := by
  have hlease (name : String) : Keeps NamesUsed (lease name) := .modify fun _ h => h
  have hrelease (name : String) : Keeps NamesUsed (releaseLease name) := .modify fun _ h => h
  -- a call to a writer that is not there does nothing
  cases c with
  | openName name =>
      refine .map (.bind (.fromExcept _) fun _ => keeps_ensureHealthy.bind fun _ => .get_bind fun s hs => ?_)
      refine Keeps.bind (.throwIf _ _) (fun _ => (hlease name).bind fun _ => ?_) s hs
      cases s.names.lookup name with
      | none => exact .pure _
      | some handle =>
          refine .bind (fun s hs => ?_) fun _ => .pure _
          rw [wp_onStore, Store.wp_session]
          exact ⟨fun _ _ => hs, fun _ => hs⟩
  | seed i text eng save =>
      unfold FacadeCall.run
      dsimp only
      cases writers[i]? with
      | none => exact .pure _
      | some self =>
          exact .map ((keeps_requireOpen self).bind fun _ => .bind (.throwIf _ _) fun _ =>
            keeps_ensureHealthy.bind fun _ => (keeps_genesis self.name text eng save).bind fun _ => .pure _)
  | append i delta eng save =>
      unfold FacadeCall.run
      dsimp only
      cases writers[i]? with
      | none => exact .pure _
      | some self =>
          refine .map ((keeps_requireOpen self).bind fun _ => (keeps_seeded self _).bind fun handle => ?_)
          split
          · exact .throw _
          · exact keeps_ensureHealthy.bind fun _ => (keeps_onStore (c := .appendPatch handle delta _ eng) rfl).bind fun _ =>
              (keeps_extendTranscript _ _).bind fun _ => (keeps_persist save).bind fun _ => .pure _
  | snapshot i =>
      unfold FacadeCall.run
      dsimp only
      cases writers[i]? with
      | none => exact .pure _
      | some self =>
          exact .map ((keeps_requireOpen self).bind fun _ => (keeps_seeded self _).bind fun handle =>
            keeps_ensureHealthy.bind fun _ => keeps_onStore (c := .sharedAllIds handle) rfl)
  | overwrite i text eng save =>
      unfold FacadeCall.run
      dsimp only
      cases writers[i]? with
      | none => exact .pure _
      | some self =>
          exact .map ((keeps_requireOpen self).bind fun _ => keeps_ensureHealthy.bind fun _ =>
            (keeps_evict self).bind fun _ => (keeps_genesis self.name text eng save).bind fun _ => .pure _)
  | fork i newName save =>
      unfold FacadeCall.run
      dsimp only
      cases writers[i]? with
      | none => exact .pure _
      | some self =>
          refine .map ((keeps_requireOpen self).bind fun _ => .bind (.fromExcept _) fun _ =>
            (keeps_seeded self _).bind fun handle => keeps_ensureHealthy.bind fun _ => .get_bind fun s hs => ?_)
          refine Keeps.bind (.throwIf _ _) (fun _ => keeps_bindNext (c := .fork handle) rfl newName id
            (wp_fork_handle handle) fun forked => ?_) s hs
          exact (keeps_forkTranscript self newName).bind fun _ => (hlease newName).bind fun _ =>
            (keeps_persist save).bind fun _ => .pure _
  | delete i save =>
      have hstate (self : Session) : Keeps NamesUsed (self.deleteState save) := by
        refine (keeps_requireOpen self).bind fun _ => keeps_ensureHealthy.bind fun _ => (keeps_evict self).bind fun _ =>
          .bind (.modify fun s hs => ?_) fun _ => keeps_persist save
        intro n k hk
        exact hs n k (lookup_erase_eq_some.mp hk).2
      unfold FacadeCall.run
      dsimp only
      cases writers[i]? with
      | none => exact .pure _
      | some self =>
          refine .map fun s hs => ?_
          unfold Session.delete
          rw [wp_tryCatch]
          refine wp_mono (hstate self s hs) (fun _ _ h => h) fun e s' h => ?_
          exact (hrelease self.name).bind (fun _ => .throw e) s' h
  | close i =>
      unfold FacadeCall.run
      dsimp only
      cases writers[i]? with
      | none => exact .pure _
      | some self =>
          exact .map (hrelease self.name)

theorem FacadeRun.namesUsed {ok : Process → FacadeCall → Prop} {P : Process} (h : FacadeRun ok P) :
    NamesUsed P.state := by
  induction h with
  | start new =>
      have hok := namesOk_new new
      exact fun name k hk => (hok.names.1 name k hk |> Option.isSome_iff_exists.mp).elim fun sess => hok.table.used k sess
  | @call P _ c _ ih =>
      have hwp := keeps_run P.writers c P.state ih
      unfold Process.after
      cases hrun : (c.run P.writers).run P.state with
      | ok change s' => exact hwp.of_ok hrun
      | error e s' => exact hwp.of_error hrun

/-- Failures of the façade. After every run, and for every writer, name, text, engine and save:
an `open`, `seed`, `append`, `overwrite` or `fork` leaves names, leases and live sessions as
they were whenever it fails, exactly when it is safe. -/
theorem facade_failure_clean_iff {P : Process} (h : FacadeRun (fun _ _ => True) P) (self : Session) (save : Save) :
    (∀ name, FailsClean (Session.open name) P.state ↔ OpenSafe P.state name) ∧
      (∀ text eng, FailsClean (self.seed text eng save) P.state ↔ SeedSafe P.state self text eng save) ∧
      (∀ delta eng, FailsClean (self.append delta eng save) P.state ↔ AppendSafe P.state self delta eng save) ∧
      (∀ text eng, FailsClean (self.overwrite text eng save) P.state ↔ OverwriteSafe P.state self text eng save) ∧
      ∀ newName, FailsClean (self.fork newName save) P.state ↔ ForkSafe P.state self newName save := by
  have hused := h.namesUsed
  refine ⟨fun name => failsClean_iff (wp_open_safe P.state name),
    fun text eng => failsClean_iff (wp_seed_safe hused self text eng save),
    fun delta eng => failsClean_iff (wp_append_safe self delta eng save P.state),
    fun text eng => failsClean_iff (wp_overwrite_safe hused self text eng save),
    fun newName => failsClean_iff (wp_fork_safe self newName save P.state)⟩

end Operations

/-- On a new state, opening fails clean. -/
theorem facade_failure_clean_new :
    ∃ P : Process, P.writers = [] ∧ FailsClean (Session.open "a") P.state := by
  obtain ⟨state, hstate⟩ : ∃ state, SessionStoreState.new ZERO_HASH 0 false false (fun _ _ => .ok ()) = .ok state :=
    ⟨_, rfl⟩
  have hiff := (facade_failure_clean_iff (.start hstate) ⟨"a", none, none, false⟩ fun _ _ => .ok ()).1 "a"
  refine ⟨⟨state, []⟩, rfl, hiff.mpr ?_⟩
  intro _ _ _ k hk
  cases hstate
  cases hk

/-- The old session is evicted before the engine refuses the new text: nothing is left to be
read under the name. -/
theorem overwrite_loses_transcript :
    ∃ (P : Process) (self : Session), FacadeRun (fun _ _ => True) P ∧ P.writers = [self] ∧
      ¬FailsClean (self.overwrite ['a'] refusingEngine fun _ _ => .ok ()) P.state := by
  obtain ⟨state, hstate⟩ : ∃ state, SessionStoreState.new ZERO_HASH 0 false false (fun _ _ => .ok ()) = .ok state :=
    ⟨_, rfl⟩
  refine ⟨_, ⟨"a", some 1, some 0, false⟩, .call (.call (.start hstate) (.openName "a") trivial)
    (.seed 0 [] unitEngine fun _ _ => .ok ()) trivial, ?_, fun hclean => ?_⟩
  · cases hstate
    rfl
  · cases hstate
    have hlost := (hclean _ _ rfl).live 1
    cases hlost

end Toktier.Facade
