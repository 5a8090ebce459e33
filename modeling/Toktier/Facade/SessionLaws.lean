import Toktier.Facade.Session
import Toktier.StoreCore.Isolation

/-!
# Named sessions stay live

The table of names and the table of sessions are changed by different code: the store evicts
its least recently used session to make room for a new one and knows nothing of names, and
`overwrite` evicts the old session before it has a new one. As long as neither takes the
session of a name away, every name has a live session of its own, and every writer the session
of its name.

## Main definitions

* `NamesLive`: every name has a live session, and no two have the same.
* `Spares`: the call takes no session away that keeps its name.

## Main results

* `named_sessions_live`: if every call spares, the names are live after every run.
* `overwrite_kills_name`: one call that does not is enough.
-/
namespace Toktier.Facade

open Toktier.Lib
open Toktier.StoreCore hiding Session Call Along

variable {α : Type} {s s' : SessionStoreState} {S S' : Store}

/-! ## Rules -/

section Rules

variable {Q : α → SessionStoreState → Prop} {R : FacadeError → SessionStoreState → Prop}

@[simp] theorem wp_onStore (m : Fallible Store StoreError α) :
    wp (onStore m) Q R s ↔ wp m (fun a S => Q a { s with store := S })
      (fun e S => R (.Store e) { s with store := S }) s.store := by
  simp only [wp, onStore, EStateM.run]
  cases m s.store <;> rfl

/-- A handler runs from the state the failure left. -/
theorem wp_tryCatch (m : Step α) (f : FacadeError → Step α) :
    wp (tryCatch m f) Q R s ↔ wp m Q (fun e s' => wp (f e) Q R s') s := by
  have hrun : (tryCatch m f : Step α).run s =
      match m.run s with
      | .ok a s' => .ok a s'
      | .error e s' => (f e).run s' := by
    show EStateM.tryCatch m f s = _
    unfold EStateM.tryCatch EStateM.run
    cases m s <;> rfl
  unfold wp
  rw [hrun]
  cases m.run s <;> rfl

@[simp] theorem wp_ensureHealthy {Q : Unit → SessionStoreState → Prop} :
    wp SessionStoreState.ensureHealthy Q R s ↔
      (s.persistenceFault = none → Q () s) ∧ ∀ cause, s.persistenceFault = some cause → R (.Sealed cause) s := by
  unfold SessionStoreState.ensureHealthy
  rw [wp_bind, wp_get]
  cases s.persistenceFault <;> simp

theorem wp_requireOpen {Q : Unit → SessionStoreState → Prop} (self : Session) : wp self.requireOpen Q R s ↔
      (self.closed = true → R (.Named .InvalidArgument self.name "is closed") s) ∧ (self.closed ≠ true → Q () s) := by
  unfold Session.requireOpen
  rw [wp_throwIf]

theorem wp_seeded {Q : ℕ → SessionStoreState → Prop} (self : Session) (message : String) :
    wp (self.seeded message) Q R s ↔
      (∀ h, self.handle = some h → Q h s) ∧ (self.handle = none → R (.Own .InvalidArgument message) s) := by
  unfold Session.seeded
  cases self.handle <;> simp

end Rules

/-! ## Saving -/

/-- A durable state keeps texts, and the texts of all named sessions are there if any are kept. -/
structure SessionStoreState.Texts (s : SessionStoreState) : Prop where
  kept : s.durable = true → s.transcripts ≠ none
  complete : ∀ texts, s.transcripts = some texts → ∀ name, (s.names.lookup name).isSome →
    (texts.lookup name).isSome

theorem exists_sessionRefs {names : List (Sigma fun _ : String => ℕ)} {texts : Table String Text}
    (h : ∀ entry ∈ names, (texts.lookup entry.1).isSome) :
    ∃ refs, SessionStoreState.sessionRefs names texts = .ok refs := by
  unfold SessionStoreState.sessionRefs
  induction names with
  | nil => exact ⟨[], rfl⟩
  | cons entry names ih =>
      obtain ⟨refs, hrefs⟩ := ih fun e he => h e (List.mem_cons_of_mem _ he)
      obtain ⟨text, htext⟩ := Option.isSome_iff_exists.mp (h entry List.mem_cons_self)
      refine ⟨⟨entry.1, entry.2, text⟩ :: refs, ?_⟩
      rw [List.mapM_cons, hrefs]
      simp only [htext]
      rfl

/-- Saving changes nothing but the seal, and seals when it fails. -/
theorem wp_persist {Q : Unit → SessionStoreState → Prop} {R : FacadeError → SessionStoreState → Prop}
    (save : Save) (healthy : s.persistenceFault = none) (texts : s.Texts) (hQ : Q () s)
    (hR : ∀ e, R e { s with persistenceFault := some e }) : wp (SessionStoreState.persist save) Q R s := by
  unfold SessionStoreState.persist
  rw [wp_bind, wp_ensureHealthy]
  refine ⟨fun _ => ?_, fun cause hcause => by rw [healthy] at hcause; cases hcause⟩
  rw [wp_bind, wp_get, wp_ite]
  refine ⟨fun hdurable => ?_, fun _ => hQ⟩
  split
  · rename_i hnone
    exact absurd hnone (texts.kept hdurable)
  · rename_i table hsome
    have hall : ∀ entry ∈ s.names.entries, (table.lookup entry.1).isSome := fun entry hentry =>
      texts.complete table hsome entry.1 (Option.isSome_iff_exists.mpr ⟨entry.2, AList.mem_lookup_iff.mpr hentry⟩)
    obtain ⟨refs, hrefs⟩ := exists_sessionRefs hall
    rw [wp_bind, wp_fromExcept, hrefs]
    refine ⟨?_, fun e he => by cases he⟩
    rintro _ ⟨rfl⟩
    cases save s.store refs with
    | ok _ => exact hQ
    | error e => exact hR e

/-! ## What calls on the store do to the handles -/

/-- The same handles are live. -/
def SameHandles (S S' : Store) : Prop :=
  ∀ h, (S'.sessions.lookup h).isSome = (S.sessions.lookup h).isSome

/-- One more handle is live, the next one. -/
structure OneMore (S S' : Store) : Prop where
  next : (S'.sessions.lookup S.nextHandle).isSome
  others : ∀ h, h ≠ S.nextHandle → (S'.sessions.lookup h).isSome = (S.sessions.lookup h).isSome

theorem SameHandles.of_sessions (h : S'.sessions = S.sessions) : SameHandles S S' := by
  intro k
  rw [h]

section Store

variable [Digests]

/-- The call a computation on the store is made by. -/
theorem wp_tableMove {m : Fallible Store StoreError α} {c : StoreCore.Call} (hc : c.run = ignore m) :
    wp m (fun _ S' => TableMove c S S') (fun _ S' => TableMove c S S') S := by
  have h := Store.wp_of_after (tableMove_after S c)
  rw [hc, wp_ignore] at h
  exact h

end Store

theorem sameHandles_of_move {c : StoreCore.Call} (h : TableMove c S S') (hc : ¬c.Creates)
    (he : ∀ k, c ≠ .evict k) : SameHandles S S' := by
  cases h.effect with
  | kept next table => exact .of_sessions table
  | @changed k sess sess' next found table own stamp row =>
      intro k'
      rw [table]
      exact isSome_lookup_replace (by rw [found]; rfl) sess' k'
  | @dropped k next own table => exact absurd own (he k)
  | slot next later own table => exact absurd own hc
  | created next later own table stamp row => exact absurd own hc

/-- The store without a session. -/
def withoutSession (S : Store) (h : ℕ) : Store := { S with sessions := S.sessions.erase h }

theorem lookup_nextHandle (h : TableOk S) : S.sessions.lookup S.nextHandle = none := by
  cases hs : S.sessions.lookup S.nextHandle with
  | none => rfl
  | some sess => exact absurd (h.used _ _ hs) (lt_irrefl _)

theorem OneMore.withSession {T : Store} (hT : SameHandles S T) (hnext : T.nextHandle = S.nextHandle)
    (sess : StoreCore.Session) : OneMore S (T.withSession sess) where
  next := by
    rw [Store.withSession, hnext, AList.lookup_insert]
    rfl
  others k hk := by
    rw [Store.withSession, hnext, AList.lookup_insert_ne hk]
    exact hT k

/-- The slot of a fork takes no session away, when there is one. -/
theorem sameHandles_forkStart (slot : S.HasSlot) {handle : ℕ} {sess : StoreCore.Session}
    (hsess : S.sessions.lookup handle = some sess) : SameHandles S (S.forkStart handle sess) := by
  have hopened : (StoreCore.Call.fork handle).opened S = S.tick.touched handle sess := by
    simp only [Call.opened, hsess]
  have hslot := hasSlot_opened (S := S) (c := .fork handle) |>.mpr slot
  rw [hopened] at hslot
  have hcount : (S.tick.touched handle sess).countFork.HasSlot := hslot
  rw [Store.forkStart, Store.evictForCapacity_of_hasSlot hcount]
  intro k
  exact isSome_lookup_replace (m := S.sessions) (by rw [hsess]; rfl) _ k

section Store

variable [Digests]

/-- A `put` that finds a slot opens the next handle, or nothing. -/
theorem wp_put_slot (hok : TableOk S) (slot : S.HasSlot) (keyId : ℕ) (text : Text) (eng : Engine) :
    wp (Store.put keyId text eng)
      (fun out S' => TableOk S' ∧ OneMore S S' ∧ out.handle = S.nextHandle ∧ out.revision = 0)
      (fun _ S' => TableOk S' ∧ SameHandles S S') S := by
  have hstart : SameHandles S S.putStart := by
    have hslot : S.tick.HasSlot := slot
    rw [Store.putStart, Store.evictForCapacity_of_hasSlot hslot]
    exact .of_sessions rfl
  have hnext : S.putStart.nextHandle = S.nextHandle := by rw [Store.putStart_eq]
  have hput : wp (Store.put keyId text eng)
      (fun out S' => OneMore S S' ∧ out.handle = S.nextHandle ∧ out.revision = 0)
      (fun _ S' => SameHandles S S') S := by
    rw [Store.wp_put]
    refine ⟨fun key _ => ?_, fun _ => .of_sessions rfl⟩
    exact wp_mono (wp_run _ _)
      (fun sess w _ => ⟨.withSession (T := S.putStart.putBackShared w) hstart hnext sess, rfl, rfl⟩)
      fun e w _ => hstart
  refine wp_mono (wp_and (Store.wp_put_table (S := S) keyId text eng) hput) ?_ ?_
  · rintro out S' ⟨hmove, hout⟩
    exact ⟨hmove.tableOk hok, hout⟩
  · rintro e S' ⟨hmove, hsame⟩
    exact ⟨hmove.tableOk hok, hsame⟩

/-- A fork that finds a slot opens the next handle, or nothing. -/
theorem wp_fork_slot (hok : TableOk S) (slot : S.HasSlot) (handle : ℕ) :
    wp (Store.fork handle) (fun forked S' => TableOk S' ∧ OneMore S S' ∧ forked = S.nextHandle)
      (fun _ S' => TableOk S' ∧ SameHandles S S') S := by
  have hfork : wp (Store.fork handle) (fun forked S' => OneMore S S' ∧ forked = S.nextHandle)
      (fun _ S' => SameHandles S S') S := by
    refine Store.wp_fork handle (fun _ => .of_sessions rfl) ?_
    intro sess key hsess _
    have hnext : (S.forkStart handle sess).nextHandle = S.nextHandle := by rw [Store.forkStart_eq]
    exact ⟨.withSession (sameHandles_forkStart slot hsess) hnext _, rfl⟩
  refine wp_mono (wp_and (Store.wp_fork_table (S := S) handle) hfork) ?_ ?_
  · rintro forked S' ⟨hmove, hforked⟩
    exact ⟨hmove.tableOk hok, hforked⟩
  · rintro e S' ⟨hmove, hsame⟩
    exact ⟨hmove.tableOk hok, hsame⟩

/-- An append keeps the handles. -/
theorem wp_appendPatch_handles (hok : TableOk S) (handle : ℕ) (delta : Text) (rev : ℕ) (eng : Engine) :
    wp (Store.appendPatch handle delta rev eng) (fun _ S' => TableOk S' ∧ SameHandles S S')
      (fun _ S' => TableOk S' ∧ SameHandles S S') S := by
  have hmove : wp (Store.appendPatch handle delta rev eng)
      (fun _ S' => TableMove (.appendPatch handle delta rev eng) S S')
      (fun _ S' => TableMove (.appendPatch handle delta rev eng) S S') S :=
    Store.wp_appendPatch_table handle delta rev eng rfl
  have hkeeps (S' : Store) (h : TableMove (.appendPatch handle delta rev eng) S S') :
      TableOk S' ∧ SameHandles S S' :=
    ⟨h.tableOk hok, sameHandles_of_move h not_false fun k hk => by cases hk⟩
  exact wp_mono hmove (fun _ S' h => hkeeps S' h) fun _ S' h => hkeeps S' h

/-- Reading the row of a live session returns, and keeps the handles. -/
theorem wp_sharedAllIds_live (hok : TableOk S) {handle : ℕ} (hlive : (S.sessions.lookup handle).isSome) :
    wp (Store.sharedAllIds handle) (fun _ S' => TableOk S' ∧ SameHandles S S') (fun _ _ => False) S := by
  refine wp_mono (wp_and (wp_tableMove (S := S) (c := .sharedAllIds handle) rfl)
    (?_ : wp (Store.sharedAllIds handle) (fun _ _ => True) (fun _ _ => False) S)) ?_ fun _ _ h => h.2
  · unfold Store.sharedAllIds Store.touch
    simp only [wp_bind, wp_modify, Store.wp_session, wp_pure]
    refine ⟨fun _ _ => trivial, fun hnone => ?_⟩
    replace hnone : S.sessions.lookup handle = none := hnone
    rw [hnone] at hlive
    cases hlive
  · rintro _ S' ⟨hmove, -⟩
    exact ⟨hmove.tableOk hok, sameHandles_of_move hmove not_false fun k hk => by cases hk⟩

end Store

/-! ## Live names -/

/-- The names other than `but` have live sessions, each its own. -/
structure SessionStoreState.NamesLiveBut (s : SessionStoreState) (but : String) : Prop where
  live : ∀ name h, name ≠ but → s.names.lookup name = some h → (s.store.sessions.lookup h).isSome
  distinct : ∀ name name' h, name ≠ but → name' ≠ but → s.names.lookup name = some h →
    s.names.lookup name' = some h → name = name'

/-- Every name has a live session of its own. -/
def SessionStoreState.NamesLive (s : SessionStoreState) : Prop :=
  (∀ name h, s.names.lookup name = some h → (s.store.sessions.lookup h).isSome) ∧
    ∀ name name' h, s.names.lookup name = some h → s.names.lookup name' = some h → name = name'

theorem SessionStoreState.NamesLive.but (h : s.NamesLive) (name : String) : s.NamesLiveBut name :=
  ⟨fun n k _ => h.1 n k, fun n n' k _ _ => h.2 n n' k⟩

/-- The state with another store. -/
def SessionStoreState.withStore (s : SessionStoreState) (S : Store) : SessionStoreState := { s with store := S }

theorem SessionStoreState.NamesLive.withStore (h : s.NamesLive) (hS : SameHandles s.store S) :
    (s.withStore S).NamesLive := by
  refine ⟨fun name k hk => ?_, h.2⟩
  rw [show (s.withStore S).store = S from rfl, hS k]
  exact h.1 name k hk

/-- The next handle is given to `name`. -/
theorem SessionStoreState.NamesLiveBut.bind {name : String} (h : s.NamesLiveBut name)
    (hok : TableOk s.store) (hS : OneMore s.store S)
    (hnames : s'.names = s.names.insert name s.store.nextHandle) (hstore : s'.store = S) : s'.NamesLive := by
  have hother {n : String} {k : ℕ} (hn : n ≠ name) (hk : s'.names.lookup n = some k) :
      s.names.lookup n = some k ∧ k ≠ s.store.nextHandle := by
    rw [hnames, AList.lookup_insert_ne hn] at hk
    refine ⟨hk, fun heq => ?_⟩
    have hlive := h.live n k hn hk
    rw [heq, lookup_nextHandle hok] at hlive
    cases hlive
  constructor
  · intro n k hk
    rw [hstore]
    by_cases hn : n = name
    · rw [hn, hnames, AList.lookup_insert] at hk
      cases hk
      exact hS.next
    · obtain ⟨hold, hne⟩ := hother hn hk
      rw [hS.others k hne]
      exact h.live n k hn hold
  · intro n n' k hk hk'
    by_cases hn : n = name
    · by_cases hn' : n' = name
      · rw [hn, hn']
      · rw [hn, hnames, AList.lookup_insert] at hk
        exact absurd (Option.some.inj hk).symm (hother hn' hk').2
    · by_cases hn' : n' = name
      · rw [hn', hnames, AList.lookup_insert] at hk'
        exact absurd (Option.some.inj hk').symm (hother hn hk).2
      · exact h.distinct n n' k hn hn' (hother hn hk).1 (hother hn' hk').1

/-- What holds of the writers while the state is not sealed. -/
structure Healthy (s : SessionStoreState) (writers : List Session) : Prop where
  leased : ∀ w ∈ writers, w.name ∈ s.leased
  alone : (writers.map Session.name).Nodup
  held : ∀ w ∈ writers, w.handle = s.names.lookup w.name
  texts : s.Texts

/-- What holds of a state and its writers. -/
structure NamesOk (s : SessionStoreState) (writers : List Session) : Prop where
  table : TableOk s.store
  names : s.NamesLive
  healthy : s.persistenceFault = none → Healthy s writers

/-- The state with a session of another store under a name. -/
def SessionStoreState.named (s : SessionStoreState) (name : String) (text : Text) (S : Store) (h : ℕ) :
    SessionStoreState :=
  { s with
    store := S
    names := s.names.insert name h
    transcripts := s.transcripts.map fun texts => texts.insert name text }

/-- The state with one more lease. -/
def SessionStoreState.leaseTo (s : SessionStoreState) (name : String) : SessionStoreState :=
  { s with leased := insert name s.leased }

theorem NamesOk.withStore {writers : List Session} (h : NamesOk s writers) (hok : TableOk S)
    (hS : SameHandles s.store S) : NamesOk (s.withStore S) writers :=
  ⟨hok, h.names.withStore hS, fun healthy =>
    ⟨(h.healthy healthy).leased, (h.healthy healthy).alone, (h.healthy healthy).held,
      ⟨(h.healthy healthy).texts.kept, (h.healthy healthy).texts.complete⟩⟩⟩

/-- A state that is sealed asks nothing of its writers. -/
theorem NamesOk.of_sealed {writers : List Session} (hok : TableOk s.store) (hnames : s.NamesLive)
    {cause : FacadeError} (hfault : s.persistenceFault = some cause) : NamesOk s writers :=
  ⟨hok, hnames, fun healthy => by rw [healthy] at hfault; cases hfault⟩

/-- A session was given the name `name`. -/
structure Grown (s : SessionStoreState) (name : String) (s' : SessionStoreState) : Prop where
  table : TableOk s'.store
  names : s'.NamesLive
  bound : s'.names = s.names.insert name s.store.nextHandle
  leased : s'.leased = s.leased
  texts : s'.Texts

theorem Grown.sealed {name : String} (h : Grown s name s') (e : FacadeError) :
    Grown s name { s' with persistenceFault := some e } :=
  ⟨h.table, h.names, h.bound, h.leased, ⟨h.texts.kept, h.texts.complete⟩⟩

/-- A name and its text are added together. -/
theorem SessionStoreState.Texts.insert {name : String} {text : Text} (h : s.Texts)
    (hnames : ∃ k, s'.names = s.names.insert name k)
    (htexts : s'.transcripts = s.transcripts.map fun texts => texts.insert name text)
    (hdurable : s'.durable = s.durable) : s'.Texts := by
  refine ⟨fun hs' => ?_, fun texts' hs' n hn => ?_⟩
  · rw [hdurable] at hs'
    rw [htexts]
    simpa using h.kept hs'
  · rw [htexts] at hs'
    obtain ⟨texts, hsome, rfl⟩ := Option.map_eq_some_iff.mp hs'
    obtain ⟨k, hk⟩ := hnames
    rw [hk] at hn
    by_cases heq : n = name
    · rw [heq, AList.lookup_insert]
      rfl
    · rw [AList.lookup_insert_ne heq] at hn ⊢
      exact h.complete texts hsome n hn

/-- The text of a session changes. -/
theorem SessionStoreState.Texts.update {name : String} {text : Text} {texts : Table String Text} (h : s.Texts)
    (hsome : s.transcripts = some texts) (hnames : s'.names = s.names)
    (htexts : s'.transcripts = some (texts.insert name text)) : s'.Texts := by
  refine ⟨fun _ => by rw [htexts]; exact Option.some_ne_none _, fun texts' hs' n hn => ?_⟩
  cases htexts.symm.trans hs'
  rw [hnames] at hn
  exact isSome_lookup_insert (h.complete texts hsome n hn) name text

/-- A name and its text are removed together. -/
theorem SessionStoreState.Texts.erase {name : String} (h : s.Texts) (hnames : s'.names = s.names.erase name)
    (htexts : s'.transcripts = s.transcripts.map fun texts => texts.erase name)
    (hdurable : s'.durable = s.durable) : s'.Texts := by
  refine ⟨fun hs' => ?_, fun texts' hs' n hn => ?_⟩
  · rw [hdurable] at hs'
    rw [htexts]
    simpa using h.kept hs'
  · rw [htexts] at hs'
    obtain ⟨texts, hsome, rfl⟩ := Option.map_eq_some_iff.mp hs'
    rw [hnames] at hn
    by_cases heq : n = name
    · rw [heq, AList.lookup_erase] at hn
      cases hn
    · rw [AList.lookup_erase_ne heq] at hn ⊢
      exact h.complete texts hsome n hn

section Writers

variable {writers : List Session}

/-- Two writers at different places have different names. -/
theorem name_ne {self w : Session} {i j : ℕ} (alone : (writers.map Session.name).Nodup)
    (hi : writers[i]? = some self) (hj : writers[j]? = some w) (hne : j ≠ i) : w.name ≠ self.name := by
  intro heq
  obtain ⟨hlt, -⟩ := List.getElem?_eq_some_iff.mp hj
  refine hne ((List.getElem?_inj (by rwa [List.length_map]) alone).mp ?_)
  rw [List.getElem?_map, List.getElem?_map, hi, hj, Option.map_some, Option.map_some, heq]

/-- What a writer's name is bound to changes, and the writer with it. -/
theorem Healthy.replace {self w : Session} {i : ℕ} (h : Healthy s writers) (hi : writers[i]? = some self)
    (hname : w.name = self.name) (hleased : s'.leased = s.leased) (htexts : s'.Texts)
    (hheld : w.handle = s'.names.lookup self.name)
    (hothers : ∀ n, n ≠ self.name → s'.names.lookup n = s.names.lookup n) : Healthy s' (writers.set i w) := by
  have hcases {v : Session} (hv : v ∈ writers.set i w) : v = w ∨ ∃ j, j ≠ i ∧ writers[j]? = some v := by
    obtain ⟨j, hj⟩ := List.mem_iff_getElem?.mp hv
    by_cases heq : j = i
    · subst heq
      obtain ⟨hlt, -⟩ := List.getElem?_eq_some_iff.mp hi
      rw [List.getElem?_set_self hlt] at hj
      exact .inl (Option.some.inj hj).symm
    · rw [List.getElem?_set_ne (Ne.symm heq)] at hj
      exact .inr ⟨j, heq, hj⟩
  have hself : self ∈ writers := List.mem_iff_getElem?.mpr ⟨i, hi⟩
  refine ⟨fun v hv => ?_, ?_, fun v hv => ?_, htexts⟩
  · rw [hleased]
    rcases hcases hv with rfl | ⟨j, -, hj⟩
    · rw [hname]
      exact h.leased self hself
    · exact h.leased v (List.mem_iff_getElem?.mpr ⟨j, hj⟩)
  · have hmap : (writers.set i w).map Session.name = writers.map Session.name := by
      rw [List.map_set, hname]
      apply List.ext_getElem?
      intro j
      by_cases heq : j = i
      · subst heq
        obtain ⟨hlt, -⟩ := List.getElem?_eq_some_iff.mp hi
        rw [List.getElem?_set_self (by rwa [List.length_map]), List.getElem?_map, hi, Option.map_some]
      · rw [List.getElem?_set_ne (Ne.symm heq)]
    rw [hmap]
    exact h.alone
  · rcases hcases hv with rfl | ⟨j, hne, hj⟩
    · rw [hname]
      exact hheld
    · rw [hothers v.name (name_ne h.alone hi hj hne)]
      exact h.held v (List.mem_iff_getElem?.mpr ⟨j, hj⟩)

/-- A name that nobody writes is leased to a new writer. -/
theorem Healthy.add {w : Session} (h : Healthy s writers) (hfree : w.name ∉ s.leased)
    (hleased : s'.leased = insert w.name s.leased) (htexts : s'.Texts)
    (hheld : w.handle = s'.names.lookup w.name)
    (hothers : ∀ n, n ≠ w.name → s'.names.lookup n = s.names.lookup n) : Healthy s' (writers ++ [w]) := by
  have hne {v : Session} (hv : v ∈ writers) : v.name ≠ w.name := fun heq => hfree (heq ▸ h.leased v hv)
  refine ⟨fun v hv => ?_, ?_, fun v hv => ?_, htexts⟩
  · rw [hleased]
    rcases List.mem_append.mp hv with hv | hv
    · exact Finset.mem_insert_of_mem (h.leased v hv)
    · rw [List.mem_singleton.mp hv]
      exact Finset.mem_insert_self _ _
  · rw [List.map_append, List.nodup_append]
    refine ⟨h.alone, List.nodup_singleton _, ?_⟩
    intro n hn n' hn'
    obtain ⟨v, hv, rfl⟩ := List.mem_map.mp hn
    obtain ⟨v', hv', rfl⟩ := List.mem_map.mp hn'
    rw [List.mem_singleton.mp hv']
    exact hne hv
  · rcases List.mem_append.mp hv with hv | hv
    · rw [hothers v.name (hne hv)]
      exact h.held v hv
    · rw [List.mem_singleton.mp hv]
      exact hheld

/-- A writer gives its lease back. -/
theorem Healthy.remove {self : Session} {i : ℕ} (h : Healthy s writers) (hi : writers[i]? = some self)
    (hleased : s'.leased = s.leased.erase self.name) (htexts : s'.Texts)
    (hothers : ∀ n, n ≠ self.name → s'.names.lookup n = s.names.lookup n) :
    Healthy s' (writers.eraseIdx i) := by
  have hne {v : Session} (hv : v ∈ writers.eraseIdx i) : v ∈ writers ∧ v.name ≠ self.name := by
    obtain ⟨j, hji, hj⟩ := List.mem_eraseIdx_iff_getElem?.mp hv
    exact ⟨List.mem_iff_getElem?.mpr ⟨j, hj⟩, name_ne h.alone hi hj hji⟩
  refine ⟨fun v hv => ?_, ?_, fun v hv => ?_, htexts⟩
  · rw [hleased]
    exact Finset.mem_erase.mpr ⟨(hne hv).2, h.leased v (hne hv).1⟩
  · exact ((List.eraseIdx_sublist writers i).map _).nodup h.alone
  · rw [hothers v.name (hne hv).2]
    exact h.held v (hne hv).1

/-- Opening a name keeps the names alive. -/
theorem wp_open (h : NamesOk s writers) (name : String) :
    wp (Session.open name) (fun w s' => NamesOk s' (writers ++ [w])) (fun _ s' => NamesOk s' writers) s := by
  unfold Session.open lease
  simp only [wp_bind, wp_fromExcept, wp_ensureHealthy, wp_get, wp_throwIf, wp_modify]
  refine ⟨fun _ _ => ⟨fun healthy => ⟨fun _ => h, fun hfree => ?_⟩, fun _ _ => h⟩, fun _ _ => h⟩
  have hh := h.healthy healthy
  cases hname : s.names.lookup name with
  | none => exact ⟨h.table, h.names, fun _ => hh.add hfree rfl ⟨hh.texts.kept, hh.texts.complete⟩ hname.symm fun _ _ => rfl⟩
  | some handle =>
      simp only [wp_bind, wp_onStore, Store.wp_session, wp_pure]
      refine ⟨fun sess _ => ?_, fun hnone => ?_⟩
      · exact ⟨h.table, h.names, fun _ => hh.add hfree rfl ⟨hh.texts.kept, hh.texts.complete⟩ hname.symm fun _ _ => rfl⟩
      · have hlive := h.names.1 name handle hname
        rw [hnone] at hlive
        cases hlive

/-- After a genesis the writer has the session of its name. -/
theorem Grown.replace {name : String} {self w : Session} {i : ℕ} (h : Grown s name s') (hh : Healthy s writers)
    (hi : writers[i]? = some self) (hself : self.name = name) (hname : w.name = name)
    (hhandle : w.handle = some s.store.nextHandle) : NamesOk s' (writers.set i w) := by
  subst hself
  refine ⟨h.table, h.names, fun _ => hh.replace hi hname h.leased h.texts ?_ fun n hn => ?_⟩
  · rw [hhandle, h.bound, AList.lookup_insert]
  · rw [h.bound, AList.lookup_insert_ne hn]

/-- Growing the text of a session. -/
theorem wp_extendTranscript {Q : Unit → SessionStoreState → Prop} {R : FacadeError → SessionStoreState → Prop}
    {name : String} {delta : Text} (texts : s.Texts)
    (hQ : ∀ transcripts, ({ s with transcripts } : SessionStoreState).Texts → Q () { s with transcripts })
    (hR : ∀ e, R e s) : wp (extendTranscript name delta) Q R s := by
  unfold extendTranscript
  rw [wp_bind, wp_get]
  split
  · exact hQ s.transcripts texts
  · rename_i table hsome
    split
    · exact hR _
    · exact hQ _ (texts.update hsome rfl rfl)

/-- Copying the text of a session that has one. -/
theorem wp_forkTranscript {Q : Unit → SessionStoreState → Prop} {R : FacadeError → SessionStoreState → Prop}
    {self : Session} {newName : String}
    (htext : ∀ texts, s.transcripts = some texts → (texts.lookup self.name).isSome)
    (hQ : ∀ text, Q () { s with transcripts := s.transcripts.map fun texts => texts.insert newName text }) :
    wp (self.forkTranscript newName) Q R s := by
  unfold Session.forkTranscript
  rw [wp_bind, wp_get]
  split
  · rename_i hnone
    have hsame := hQ []
    rw [hnone, Option.map_none, ← hnone] at hsame
    exact hsame
  · rename_i table hsome
    split
    · rename_i hmissing
      have hfound := htext table hsome
      rw [hmissing] at hfound
      cases hfound
    · rename_i text _
      have hcopied := hQ text
      rw [hsome, Option.map_some] at hcopied
      exact hcopied

/-- Evicting the session of a writer, if it has one. -/
theorem wp_evict {Q : Unit → SessionStoreState → Prop} {R : FacadeError → SessionStoreState → Prop} (self : Session)
    (hnone : self.handle = none → Q () s)
    (hsome : ∀ old, self.handle = some old →
      Q () (s.withStore (withoutSession s.store old))) : wp self.evict Q R s := by
  unfold Session.evict
  split
  · rename_i h
    exact hnone h
  · rename_i old h
    simp only [wp_map, wp_onStore, Store.evict, wp_bind, wp_get, wp_set, wp_pure]
    exact hsome old h

/-- Without the session of a writer, the other names are alive, and there is a free slot. -/
theorem NamesOk.without (h : NamesOk s writers) (healthy : s.persistenceFault = none) {self : Session}
    (hself : self ∈ writers) {old : ℕ} (hold : self.handle = some old) :
    TableOk (withoutSession s.store old) ∧ (withoutSession s.store old).HasSlot ∧
      (s.withStore (withoutSession s.store old)).NamesLiveBut self.name := by
  have hname : s.names.lookup self.name = some old := by rw [← (h.healthy healthy).held self hself, hold]
  obtain ⟨sess, hsess⟩ := Option.isSome_iff_exists.mp (h.names.1 self.name old hname)
  have hmove : TableMove (.evict old) s.store (withoutSession s.store old) := ⟨rfl, le_rfl, .dropped rfl rfl rfl⟩
  refine ⟨hmove.tableOk h.table, ?_, ⟨fun n k hn hk => ?_, fun n n' k _ _ => h.names.2 n n' k⟩⟩
  · have hlen := Store.length_erase hsess
    have hroom := h.table.room
    show (s.store.sessions.erase old).entries.length < s.store.cfg.maxSessions
    omega
  · have hne : k ≠ old := by
      rintro rfl
      exact hn (h.names.2 n self.name k hk hname)
    show ((s.store.sessions.erase old).lookup k).isSome
    rw [AList.lookup_erase_ne hne]
    exact h.names.1 n k hk

/-- A writer is dropped, and its lease with it. -/
theorem NamesOk.release (h : NamesOk s writers) {self : Session} {i : ℕ} (hi : writers[i]? = some self) :
    NamesOk { s with leased := s.leased.erase self.name } (writers.eraseIdx i) := by
  refine ⟨h.table, h.names, fun healthy => ?_⟩
  have hh := h.healthy healthy
  exact hh.remove hi rfl ⟨hh.texts.kept, hh.texts.complete⟩ fun _ _ => rfl

/-- The state without a session. -/
def SessionStoreState.unnamed (s : SessionStoreState) (name : String) : SessionStoreState :=
  { s with
    names := s.names.erase name
    transcripts := s.transcripts.map fun texts => texts.erase name
    leased := s.leased.erase name }

/-- A name goes with its session. -/
theorem SessionStoreState.NamesLiveBut.unnamed {name : String} (h : s.NamesLiveBut name) :
    (s.unnamed name).NamesLive := by
  have hother {n : String} {k : ℕ} (hk : (s.names.erase name).lookup n = some k) :
      n ≠ name ∧ s.names.lookup n = some k := by
    exact lookup_erase_eq_some.mp hk
  refine ⟨fun n k hk => ?_, fun n n' k hk hk' => ?_⟩
  · obtain ⟨hn, hk⟩ := hother hk
    exact h.live n k hn hk
  · obtain ⟨hn, hk⟩ := hother hk
    obtain ⟨hn', hk'⟩ := hother hk'
    exact h.distinct n n' k hn hn' hk hk'

/-- A call on a writer. -/
theorem wp_writer {Q : WriterChange → SessionStoreState → Prop} {R : FacadeError → SessionStoreState → Prop} {i : ℕ}
    {f : Session → Step WriterChange} (hnone : writers[i]? = none → Q .kept s)
    (hsome : ∀ self, writers[i]? = some self → wp (f self) Q R s) :
    wp (match writers[i]? with
      | none => pure .kept
      | some self => f self) Q R s := by
  cases hi : writers[i]? with
  | none => exact hnone hi
  | some self => exact hsome self hi

end Writers

section Steps

variable [Digests] {writers : List Session}

theorem wp_genesis {name : String} (hok : TableOk s.store) (slot : s.store.HasSlot)
    (others : s.NamesLiveBut name) (healthy : s.persistenceFault = none) (texts : s.Texts) (text : Text)
    (eng : Engine) (save : Save) :
    wp (genesis name text eng save)
      (fun out s' => Grown s name s' ∧ out.1.handle = s.store.nextHandle)
      (fun _ s' => (∃ e S, (Store.put s.key text eng).run s.store = .error e S ∧ s' = s.withStore S ∧
          TableOk S ∧ SameHandles s.store S) ∨
        (Grown s name s' ∧ ∃ cause, s'.persistenceFault = some cause)) s := by
  unfold genesis bindName recordTranscript
  rw [wp_bind, wp_get, wp_bind, wp_onStore]
  refine wp_mono (wp_and (wp_run (Store.put s.key text eng) s.store) (wp_put_slot hok slot s.key text eng)) ?_ ?_
  · rintro out S ⟨-, htable, hone, hhandle, -⟩
    rw [wp_bind, wp_modify, wp_bind, wp_modify, wp_bind, wp_onStore]
    have hlive : (S.sessions.lookup out.handle).isSome := by
      rw [hhandle]
      exact hone.next
    refine wp_mono (wp_sharedAllIds_live htable hlive) ?_ fun _ _ hno => hno.elim
    rintro row S' ⟨htable', hsame⟩
    have hone' : OneMore s.store S' := by
      refine ⟨?_, fun k hk => ?_⟩
      · rw [hsame]
        exact hone.next
      · rw [hsame]
        exact hone.others k hk
    have htexts : (s.named name text S' out.handle).Texts := texts.insert ⟨_, rfl⟩ rfl rfl
    have hgrown : Grown s name (s.named name text S' out.handle) :=
      ⟨htable', others.bind hok hone' (by rw [hhandle]; rfl) rfl, by rw [hhandle]; rfl, rfl, htexts⟩
    rw [wp_bind]
    have hpersist : wp (SessionStoreState.persist save) (fun _ s' => Grown s name s')
        (fun _ s' => Grown s name s' ∧ ∃ cause, s'.persistenceFault = some cause)
        (s.named name text S' out.handle) :=
      wp_persist save healthy htexts hgrown fun e => ⟨hgrown.sealed e, e, rfl⟩
    exact wp_mono hpersist (fun _ _ h => ⟨h, hhandle⟩) fun _ _ h => .inr h
  · rintro e S ⟨hrun, htable, hsame⟩
    exact .inl ⟨e, S, hrun, rfl, htable, hsame⟩

/-- Seeding into a free slot keeps the names alive. -/
theorem wp_seed (h : NamesOk s writers) {self : Session} {i : ℕ} (hi : writers[i]? = some self) (text : Text)
    (eng : Engine) (save : Save)
    (slot : self.handle = none → s.persistenceFault = none → s.store.HasSlot) :
    wp (self.seed text eng save) (fun out s' => NamesOk s' (writers.set i out.2)) (fun _ s' => NamesOk s' writers) s := by
  unfold Session.seed
  simp only [wp_bind, wp_requireOpen, wp_throwIf, wp_ensureHealthy, wp_pure]
  refine ⟨fun _ => h, fun _ => ⟨fun _ => h, fun hnone => ⟨fun healthy => ?_, fun _ _ => h⟩⟩⟩
  have hnone : self.handle = none := by simpa using hnone
  have hh := h.healthy healthy
  refine wp_mono (wp_genesis h.table (slot hnone healthy) (h.names.but self.name) healthy hh.texts text eng save) ?_ ?_
  · rintro out s' ⟨hgrown, hhandle⟩
    exact hgrown.replace hh hi rfl rfl (by rw [← hhandle]; rfl)
  · rintro e s' (⟨e', S, -, rfl, hok, hsame⟩ | ⟨hgrown, cause, hfault⟩)
    · exact h.withStore hok hsame
    · exact .of_sealed hgrown.table hgrown.names hfault

/-- Appending keeps the names alive. -/
theorem wp_append (h : NamesOk s writers) {self : Session} {i : ℕ} (hi : writers[i]? = some self) (delta : Text)
    (eng : Engine) (save : Save) :
    wp (self.append delta eng save) (fun out s' => NamesOk s' (writers.set i out.2))
      (fun _ s' => NamesOk s' writers) s := by
  unfold Session.append
  simp only [wp_bind, wp_requireOpen, wp_seeded]
  refine ⟨fun _ => h, fun _ => ⟨fun handle hhandle => ?_, fun _ => h⟩⟩
  split
  · exact h
  rename_i rev _
  simp only [wp_bind, wp_ensureHealthy, wp_onStore, wp_pure]
  refine ⟨fun healthy => ?_, fun _ _ => h⟩
  have hh := h.healthy healthy
  refine wp_mono (wp_appendPatch_handles h.table handle delta rev eng) ?_ ?_
  · rintro patch S ⟨hok, hsame⟩
    have hS := h.withStore hok hsame
    have hhS := hS.healthy healthy
    refine wp_extendTranscript (s := s.withStore S) hhS.texts (fun transcripts htexts => ?_) fun _ => hS
    refine wp_persist save healthy htexts ?_ fun e => .of_sealed hok hS.names rfl
    exact ⟨hok, hS.names, fun _ => hhS.replace hi rfl rfl htexts (hh.held self (List.mem_iff_getElem?.mpr ⟨i, hi⟩))
      fun _ _ => rfl⟩
  · rintro e S ⟨hok, hsame⟩
    exact h.withStore hok hsame

/-- Reading a stream keeps the names alive. -/
theorem wp_snapshot (h : NamesOk s writers) (self : Session) :
    wp self.snapshot (fun _ s' => NamesOk s' writers) (fun _ s' => NamesOk s' writers) s := by
  unfold Session.snapshot
  simp only [wp_bind, wp_requireOpen, wp_seeded, wp_ensureHealthy, wp_onStore]
  refine ⟨fun _ => h, fun _ => ⟨fun handle _ => ⟨fun _ => ?_, fun _ _ => h⟩, fun _ => h⟩⟩
  have hkeeps (S : Store) (hmove : TableMove (.sharedAllIds handle) s.store S) : NamesOk (s.withStore S) writers :=
    h.withStore (hmove.tableOk h.table) (sameHandles_of_move hmove not_false fun k hk => by cases hk)
  exact wp_mono (wp_tableMove (S := s.store) (c := .sharedAllIds handle) rfl) (fun _ S hmove => hkeeps S hmove)
    fun _ S hmove => hkeeps S hmove

/-- Overwriting keeps the names alive, if there is room for a new session or the old one is replaced. -/
theorem wp_overwrite (h : NamesOk s writers) {self : Session} {i : ℕ} (hi : writers[i]? = some self) (text : Text)
    (eng : Engine) (save : Save)
    (slot : self.handle = none → s.persistenceFault = none → s.store.HasSlot)
    (replaced : ∀ old, self.handle = some old → s.persistenceFault = none →
      ∃ out S, (Store.put s.key text eng).run (withoutSession s.store old) = .ok out S) :
    wp (self.overwrite text eng save) (fun out s' => NamesOk s' (writers.set i out.2))
      (fun _ s' => NamesOk s' writers) s := by
  unfold Session.overwrite
  simp only [wp_bind, wp_requireOpen, wp_ensureHealthy, wp_pure]
  refine ⟨fun _ => h, fun _ => ⟨fun healthy => ?_, fun _ _ => h⟩⟩
  have hh := h.healthy healthy
  refine wp_evict self (fun hnone => ?_) fun old hold => ?_
  · refine wp_mono (wp_genesis h.table (slot hnone healthy) (h.names.but self.name) healthy hh.texts text eng save) ?_ ?_
    · rintro out s' ⟨hgrown, hhandle⟩
      exact hgrown.replace hh hi rfl rfl (by rw [← hhandle]; rfl)
    · rintro e s' (⟨e', S, -, rfl, hok, hsame⟩ | ⟨hgrown, cause, hfault⟩)
      · exact h.withStore hok hsame
      · exact .of_sealed hgrown.table hgrown.names hfault
  · obtain ⟨hok, hslot, hbut⟩ := h.without healthy (List.mem_iff_getElem?.mpr ⟨i, hi⟩) hold
    obtain ⟨out, S, hput⟩ := replaced old hold healthy
    refine wp_mono (wp_genesis hok hslot hbut healthy ⟨hh.texts.kept, hh.texts.complete⟩ text eng save) ?_ ?_
    · rintro out s' ⟨hgrown, hhandle⟩
      have hh' : Healthy (s.withStore (withoutSession s.store old)) writers :=
        ⟨hh.leased, hh.alone, hh.held, ⟨hh.texts.kept, hh.texts.complete⟩⟩
      exact hgrown.replace hh' hi rfl rfl (by rw [← hhandle]; rfl)
    · rintro e s' (⟨e', S', hfail, -⟩ | ⟨hgrown, cause, hfault⟩)
      · rw [show (s.withStore (withoutSession s.store old)).store = withoutSession s.store old from rfl,
          show (s.withStore (withoutSession s.store old)).key = s.key from rfl, hput] at hfail
        cases hfail
      · exact .of_sealed hgrown.table hgrown.names hfault

/-- Forking into a free slot keeps the names alive. -/
theorem wp_fork_names (h : NamesOk s writers) {self : Session} (hself : self ∈ writers) (newName : String)
    (save : Save)
    (slot : ∀ handle, self.handle = some handle → s.persistenceFault = none → s.names.lookup newName = none →
      s.store.HasSlot) :
    wp (self.fork newName save) (fun w s' => NamesOk s' (writers ++ [w])) (fun _ s' => NamesOk s' writers) s := by
  unfold Session.fork bindName lease
  simp only [wp_bind, wp_requireOpen, wp_fromExcept, wp_seeded, wp_ensureHealthy, wp_get, wp_throwIf, wp_onStore,
    wp_modify, wp_pure]
  refine ⟨fun _ => h, fun _ => ⟨fun _ _ => ⟨fun handle hhandle => ⟨fun healthy => ⟨fun _ => h, fun hfree => ?_⟩,
    fun _ _ => h⟩, fun _ => h⟩, fun _ _ => h⟩⟩
  obtain ⟨hnew, hfree⟩ := not_or.mp hfree
  have hnew : s.names.lookup newName = none := by simpa using hnew
  have hh := h.healthy healthy
  have hname : s.names.lookup self.name = some handle := by rw [← hh.held self hself, hhandle]
  refine wp_mono (wp_fork_slot h.table (slot handle hhandle healthy hnew) handle) ?_ ?_
  · rintro forked S ⟨hok, hone, hforked⟩
    refine wp_forkTranscript (fun texts hsome => ?_) fun text => ?_
    · exact hh.texts.complete texts hsome self.name (by rw [hname]; rfl)
    · have htexts : ((s.named newName text S forked).leaseTo newName).Texts := by
        have hnamed : (s.named newName text S forked).Texts := hh.texts.insert ⟨_, rfl⟩ rfl rfl
        exact ⟨hnamed.kept, hnamed.complete⟩
      have hnames : ((s.named newName text S forked).leaseTo newName).NamesLive :=
        (h.names.but newName).bind h.table hone (by rw [hforked]; rfl) rfl
      refine wp_persist (s := (s.named newName text S forked).leaseTo newName) save healthy htexts ?_
        fun e => .of_sealed hok hnames rfl
      refine ⟨hok, hnames, fun _ => hh.add hfree rfl htexts ?_ fun n hn => ?_⟩
      · exact (AList.lookup_insert s.names).symm
      · exact AList.lookup_insert_ne hn
  · rintro e S ⟨hok, hsame⟩
    exact h.withStore hok hsame

omit [Digests] in
/-- Deleting keeps the other names alive. -/
theorem wp_delete (h : NamesOk s writers) {self : Session} {i : ℕ} (hi : writers[i]? = some self) (save : Save) :
    wp (self.delete save) (fun _ s' => NamesOk s' (writers.eraseIdx i))
      (fun _ s' => NamesOk s' (writers.eraseIdx i)) s := by
  have hself : self ∈ writers := List.mem_iff_getElem?.mpr ⟨i, hi⟩
  unfold Session.delete
  rw [wp_tryCatch]
  -- A failure releases the lease that the state it left may still hold.
  suffices hstate : wp (self.deleteState save) (fun _ s' => NamesOk s' (writers.eraseIdx i))
      (fun _ s' => NamesOk s' writers ∨ NamesOk s' (writers.eraseIdx i) ∧ ∃ cause, s'.persistenceFault = some cause)
      s by
    refine wp_mono hstate (fun _ _ h' => h') fun e s' h' => ?_
    unfold releaseLease
    simp only [wp_bind, wp_modify, wp_throw]
    rcases h' with h' | ⟨h', cause, hfault⟩
    · exact h'.release hi
    · exact .of_sealed h'.table h'.names hfault
  unfold Session.deleteState
  simp only [wp_bind, wp_requireOpen, wp_ensureHealthy, wp_modify]
  refine ⟨fun _ => .inl h, fun _ => ⟨fun healthy => ?_, fun _ _ => .inl h⟩⟩
  have hh := h.healthy healthy
  refine wp_evict self (fun hnone => ?_) fun old hold => ?_
  · have htexts : (s.unnamed self.name).Texts := hh.texts.erase rfl rfl rfl
    have hnames : (s.unnamed self.name).NamesLive := (h.names.but self.name).unnamed
    refine wp_persist (s := s.unnamed self.name) save healthy htexts ?_
      fun e => .inr ⟨.of_sealed h.table hnames rfl, e, rfl⟩
    exact ⟨h.table, hnames, fun _ => hh.remove hi rfl htexts fun n hn => AList.lookup_erase_ne hn⟩
  · obtain ⟨hok, -, hbut⟩ := h.without healthy hself hold
    have htexts : ((s.withStore (withoutSession s.store old)).unnamed self.name).Texts :=
      SessionStoreState.Texts.erase (s := s) hh.texts rfl rfl rfl
    refine wp_persist (s := (s.withStore (withoutSession s.store old)).unnamed self.name) save healthy htexts ?_
      fun e => .inr ⟨.of_sealed hok hbut.unnamed rfl, e, rfl⟩
    exact ⟨hok, hbut.unnamed, fun _ => hh.remove hi rfl htexts fun n hn => AList.lookup_erase_ne hn⟩

/-! ## Runs -/

/-- The call takes no session away that keeps its name: a new session finds a free slot, and an
old one is evicted for an overwrite whose `put` succeeds. -/
def Spares (P : Process) : FacadeCall → Prop
  | .seed i _ _ _ => ∀ self, P.writers[i]? = some self → self.handle = none →
      P.state.persistenceFault = none → P.state.store.HasSlot
  | .overwrite i text eng _ => ∀ self, P.writers[i]? = some self → P.state.persistenceFault = none →
      (self.handle = none → P.state.store.HasSlot) ∧
        ∀ old, self.handle = some old →
          ∃ out S, (Store.put P.state.key text eng).run (withoutSession P.state.store old) = .ok out S
  | .fork i newName _ => ∀ self, P.writers[i]? = some self → (∃ old, self.handle = some old) →
      P.state.persistenceFault = none → P.state.names.lookup newName = none → P.state.store.HasSlot
  | _ => True

/-- A process that was started by `new`, and reached by calls that meet `ok`. -/
inductive FacadeRun (ok : Process → FacadeCall → Prop) : Process → Prop
  | start {fingerprint : SemanticFingerprint} {sealGuard : ℕ} {durable overlap : Bool} {save : Save}
      {state : SessionStoreState} (new : SessionStoreState.new fingerprint sealGuard durable overlap save = .ok state) :
      FacadeRun ok ⟨state, []⟩
  | call {P : Process} (run : FacadeRun ok P) (c : FacadeCall) (meets : ok P c) : FacadeRun ok (P.after c)

/-- A call that spares keeps the names alive. -/
theorem NamesOk.after {P : Process} (h : NamesOk P.state P.writers) {c : FacadeCall} (hc : Spares P c) :
    NamesOk (P.after c).state (P.after c).writers := by
  suffices hwp : wp (c.run P.writers)
      (fun change s' => NamesOk s' (change.apply (c.consumed P.writers)))
      (fun _ s' => NamesOk s' (c.consumed P.writers)) P.state by
    unfold Process.after
    cases hrun : (c.run P.writers).run P.state with
    | ok change s' => exact hwp.of_ok hrun
    | error e s' => exact hwp.of_error hrun
  cases c with
  | openName name =>
      unfold FacadeCall.run
      rw [wp_map]
      exact wp_open h name
  | seed i text eng save =>
      refine wp_writer (fun _ => h) fun self hi => ?_
      rw [wp_map]
      exact wp_seed h hi text eng save (hc self hi)
  | append i delta eng save =>
      refine wp_writer (fun _ => h) fun self hi => ?_
      rw [wp_map]
      exact wp_append h hi delta eng save
  | snapshot i =>
      refine wp_writer (fun _ => h) fun self hi => ?_
      rw [wp_map]
      exact wp_snapshot h self
  | overwrite i text eng save =>
      refine wp_writer (fun _ => h) fun self hi => ?_
      rw [wp_map]
      exact wp_overwrite h hi text eng save (fun hnone healthy => (hc self hi healthy).1 hnone)
        fun old hold healthy => (hc self hi healthy).2 old hold
  | fork i newName save =>
      refine wp_writer (fun _ => h) fun self hi => ?_
      rw [wp_map]
      exact wp_fork_names h (List.mem_iff_getElem?.mpr ⟨i, hi⟩) newName save
        fun handle hhandle => hc self hi ⟨handle, hhandle⟩
  | delete i save =>
      refine wp_writer (fun hnone => ?_) fun self hi => ?_
      · rw [WriterChange.apply, FacadeCall.consumed, List.eraseIdx_of_length_le (List.getElem?_eq_none_iff.mp hnone)]
        exact h
      · rw [wp_map]
        exact wp_delete h hi save
  | close i =>
      refine wp_writer (fun hnone => ?_) fun self hi => ?_
      · rw [WriterChange.apply, FacadeCall.consumed, List.eraseIdx_of_length_le (List.getElem?_eq_none_iff.mp hnone)]
        exact h
      · rw [wp_map]
        exact h.release hi

omit [Digests] in
theorem tableOk_of_empty (h : S.sessions = ∅) : TableOk S := by
  refine ⟨by rw [h]; exact Nat.zero_le _, ?_, ?_, ?_⟩
  all_goals
    intro k sess hs
    rw [h] at hs
    cases hs

omit [Digests] in
theorem wp_registerFingerprint_sessions {fingerprint : SemanticFingerprint} {sealGuard : ℕ} (h : S.sessions = ∅) :
    wp (Store.registerFingerprint fingerprint sealGuard) (fun _ S' => S'.sessions = ∅) (fun _ _ => True) S := by
  unfold Store.registerFingerprint
  rw [wp_bind, wp_get]
  dsimp only
  split
  · simp only [wp_bind, wp_throwIf, wp_pure, implies_true, true_and]
    exact fun _ => h
  · simp only [wp_bind, wp_throwIf, wp_set, wp_pure, implies_true, true_and]
    exact fun _ => h

omit [Digests] in
/-- A new store is empty. -/
theorem sessions_newStore {persistent overlap : Bool} {fingerprint : SemanticFingerprint} {sealGuard key : ℕ}
    (h : SessionStoreState.newStore persistent overlap fingerprint sealGuard = .ok (S, key)) : S.sessions = ∅ := by
  unfold SessionStoreState.newStore at h
  cases hnew : Store.new SessionStoreState.defaultConfig with
  | error e =>
      rw [hnew] at h
      cases h
  | ok S₀ =>
      have hempty : S₀.sessions = ∅ := (Store.new_ok hnew).2.2.1
      have hsetup : wp (do
          runIf (persistent = true) Store.enableRecoveryTracking
          Store.enableContentTracking
          runIf (overlap = true) (Store.setSeedOverlap (some SessionStoreState.rayonSeedOverlap))
          Store.registerFingerprint fingerprint sealGuard) (fun _ S' => S'.sessions = ∅) (fun _ _ => True) S₀ := by
        simp only [Store.enableRecoveryTracking, Store.enableContentTracking, Store.setSeedOverlap, wp_bind, wp_runIf,
          wp_get, wp_throwIf, wp_set, wp_modify, implies_true, true_and]
        refine ⟨fun _ _ _ => ⟨fun _ => ?_, fun _ => ?_⟩, fun _ _ => ⟨fun _ => ?_, fun _ => ?_⟩⟩ <;>
        · exact wp_registerFingerprint_sessions hempty
      rw [hnew] at h
      simp only [ok_bind] at h
      split at h
      · rename_i key' S' hrun
        cases h
        exact hsetup.of_ok hrun
      · cases h

omit [Digests] in
/-- A new state has no names. -/
theorem namesOk_new {fingerprint : SemanticFingerprint} {sealGuard : ℕ} {durable overlap : Bool} {save : Save}
    (h : SessionStoreState.new fingerprint sealGuard durable overlap save = .ok s) : NamesOk s [] := by
  unfold SessionStoreState.new at h
  split at h
  · cases h
  rename_i store key hstore
  have htable : TableOk store := tableOk_of_empty (sessions_newStore hstore)
  have hfresh : NamesOk (.empty store key durable) [] := by
    refine ⟨htable, ⟨fun name k hk => (by cases hk), fun name name' k hk => (by cases hk)⟩, fun _ => ?_⟩
    refine ⟨fun w hw => absurd hw List.not_mem_nil, List.nodup_nil, fun w hw => absurd hw List.not_mem_nil, ?_, ?_⟩
    · intro hdurable
      replace hdurable : durable = true := hdurable
      subst hdurable
      exact Option.some_ne_none _
    · intro texts _ name hname
      cases hname
  have hpersist := wp_persist (Q := fun _ s' => NamesOk s' []) (R := fun _ _ => True) save rfl
    (hfresh.healthy rfl).texts hfresh fun _ => trivial
  split at h
  · rename_i hrun
    cases h
    exact hpersist.of_ok hrun
  · cases h

theorem FacadeRun.namesOk {P : Process} (h : FacadeRun Spares P) : NamesOk P.state P.writers := by
  induction h with
  | start new => exact namesOk_new new
  | call _ c meets ih => exact ih.after meets

omit [Digests] in
/-- Opening a name fails on no call on the store. -/
theorem NamesOk.open_error {P : Process} (h : NamesOk P.state P.writers) (name : String) {e : FacadeError}
    {s' : SessionStoreState} (hrun : (Session.open name).run P.state = .error e s') (k : StoreError) : e ≠ .Store k := by
  have hwp : wp (Session.open name) (fun _ _ => True) (fun e _ => e ≠ .Store k) P.state := by
    unfold Session.open lease
    simp only [wp_bind, wp_fromExcept, wp_ensureHealthy, wp_get, wp_throwIf, wp_modify]
    refine ⟨fun _ _ => ⟨fun _ => ⟨fun _ => FacadeError.noConfusion, fun _ => ?_⟩,
      fun _ _ => FacadeError.noConfusion⟩, fun e he => ?_⟩
    · cases hname : P.state.names.lookup name with
      | none => trivial
      | some handle =>
          simp only [wp_bind, wp_onStore, Store.wp_session, wp_pure]
          refine ⟨fun _ _ => trivial, fun hnone => ?_⟩
          have hlive := h.names.1 name handle hname
          rw [hnone] at hlive
          cases hlive
    · unfold validateName at he
      split_ifs at he
      cases he
      exact FacadeError.noConfusion
  exact hwp.of_error hrun

/-- Named sessions stay live. If every call spares, then after every run each name has a live
session of its own, every writer of a state that is not sealed has the live session of its name,
and opening a name never fails on its handle. -/
theorem named_sessions_live {P : Process} (h : FacadeRun Spares P) :
    P.state.NamesLive ∧
      (P.state.persistenceFault = none → ∀ w ∈ P.writers, w.handle = P.state.names.lookup w.name ∧
        ∀ k, w.handle = some k → (P.state.store.sessions.lookup k).isSome) ∧
      ∀ name e s', (Session.open name).run P.state = .error e s' → ∀ k, e ≠ .Store k := by
  have hok := h.namesOk
  refine ⟨hok.names, fun healthy w hw => ?_, fun name e s' hrun => hok.open_error name hrun⟩
  have hheld := (hok.healthy healthy).held w hw
  refine ⟨hheld, fun k hk => hok.names.1 w.name k ?_⟩
  rw [← hheld, hk]

end Steps

/-- A session is seeded, and its name is alive. -/
theorem named_sessions_live_seed :
    ∃ P : Process, P.state.names.lookup "a" = some 1 ∧ P.state.NamesLive := by
  obtain ⟨state, hstate⟩ : ∃ state, SessionStoreState.new ZERO_HASH 0 false false (fun _ _ => .ok ()) = .ok state :=
    ⟨_, rfl⟩
  have hrun : FacadeRun Spares ((Process.after ⟨state, []⟩ (.openName "a")).after
      (.seed 0 [] unitEngine fun _ _ => .ok ())) := by
    refine .call (.call (.start hstate) (.openName "a") trivial) (.seed 0 [] unitEngine fun _ _ => .ok ()) ?_
    intro self _ _ _
    cases hstate
    exact Nat.succ_pos 1023
  refine ⟨_, ?_, (named_sessions_live hrun).1⟩
  cases hstate
  decide

/-- The old session is evicted, the `put` of the new one fails, and the name keeps the handle. -/
theorem overwrite_kills_name :
    ∃ P, FacadeRun (fun _ _ => True) P ∧ P.state.names.lookup "a" = some 1 ∧
      P.state.store.sessions.lookup 1 = none := by
  obtain ⟨state, hstate⟩ : ∃ state, SessionStoreState.new ZERO_HASH 0 false false (fun _ _ => .ok ()) = .ok state :=
    ⟨_, rfl⟩
  refine ⟨_, .call (.call (.call (.start hstate) (.openName "a") trivial)
    (.seed 0 [] unitEngine fun _ _ => .ok ()) trivial)
    (.overwrite 0 ['a'] refusingEngine fun _ _ => .ok ()) trivial,
    ?_, ?_⟩
  · cases hstate
    decide
  · cases hstate
    decide

end Toktier.Facade
