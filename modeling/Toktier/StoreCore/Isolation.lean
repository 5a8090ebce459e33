import Toktier.StoreCore.Runs
import Toktier.StoreCore.Creation

/-!
# Sessions do not disturb each other

Sessions share sealed runs, chain nodes and cached rows, and a creation in a full store
evicts. What a call may do to the table of sessions is said once, for all calls: leave it,
change the session it works on, drop it, or make a slot and put a new session there.

## Main definitions

* `Call.Writes`, `Call.Creates`, `Call.opened`: what a call works on.
* `LeastRecent`: the session the eviction policy names.
* `TableMove`: what one call did to the table.
* `TableOk`: the invariant of the table.

## Main results

* `tableMove_after`: every call moves the table in one of these ways.
* `session_isolation`: isolation, eviction order and capacity along runs.
-/
namespace Toktier.StoreCore

open Toktier.Lib

/-! ## Rows -/

/-- A cached row that is current is the stream. -/
def Session.RowOk (s : Session) : Prop :=
  ∀ generation view, s.idsSnapshot = some (generation, view) → generation = s.idsGeneration →
    view.asSlice = s.allIds

theorem Session.RowOk.of_none {s : Session} (h : s.idsSnapshot = none) : s.RowOk := by
  intro generation view hs
  rw [h] at hs
  cases hs

/-- A view that needs no copy is the stream. -/
theorem Session.asSlice_joinedRow {s : Session} {row : SharedIds} (h : s.joinedRow = some row) :
    row.asSlice = s.allIds := by
  have htail {view : SharedIds} (hv : s.tail.sharedIds = some view) : s.tail.ids = view.asSlice := by
    unfold TailState.sharedIds at hv
    unfold TailState.ids TailIds.asSlice
    split at hv <;> simp_all
  unfold Session.joinedRow at h
  cases hsealed : s.sealedIds.asSingleShared with
  | none =>
      cases hshared : s.tail.sharedIds with
      | none => simp only [hsealed, hshared, reduceCtorEq] at h
      | some view =>
          simp only [hsealed, hshared] at h
          split at h
          · rename_i hempty
            cases h
            have hids : s.sealedIds.ids = [] := by
              rw [← List.length_eq_zero_iff, SealedIds.length_ids]
              exact hempty.1
            rw [Session.allIds_eq, hids, htail hshared, List.nil_append]
          · cases h
  | some head =>
      cases hshared : s.tail.sharedIds with
      | none => simp only [hsealed, hshared, reduceCtorEq] at h
      | some view =>
          simp only [hsealed, hshared] at h
          split at h
          · have hids : s.sealedIds.ids = head.asSlice := by
              unfold SealedIds.asSingleShared at hsealed
              split at hsealed
              · rename_i hblocks howned
                cases hsealed
                rw [SealedIds.ids_eq, hblocks, howned]
                simp
              · cases hsealed
            rw [SharedIds.asSlice_joinAdjacent h, Session.allIds_eq, hids, htail hshared]
          · cases h

/-- Whatever it is made from, the shared row is the stream. -/
theorem Session.RowOk.asSlice_sharedRow {s : Session} (h : s.RowOk) :
    s.sharedRow.asSlice = s.allIds := by
  have hfresh : (s.joinedRow.getD (SharedIds.fromVec 0 s.allIds)).asSlice = s.allIds := by
    cases hrow : s.joinedRow with
    | none => exact SharedIds.asSlice_fromVec _ _
    | some row => exact Session.asSlice_joinedRow hrow
  unfold Session.sharedRow
  split
  · rename_i generation snapshot hsnap
    split
    · rename_i hcurrent
      exact h generation snapshot hsnap hcurrent
    · exact hfresh
  · exact hfresh

/-- The two sessions differ in their stamp, their cached row and their digests alone. -/
def SameStream (s s' : Session) : Prop :=
  s' = { s with
    lastUsed := s'.lastUsed, idsSnapshot := s'.idsSnapshot
    recovery := s'.recovery, content := s'.content }

theorem SameStream.observed_eq {s s' : Session} (h : SameStream s s') : s'.observed = s.observed := by
  rw [h]
  rfl

/-! ## What a call works on -/

/-- The call works on the contents of session `h`. -/
def Call.Writes (h : ℕ) : Call → Prop
  | .append handle _ _ _ => h = handle
  | .appendPatch handle _ _ _ => h = handle
  | _ => False

/-- The call creates a session when it succeeds. -/
def Call.Creates : Call → Prop
  | .put .. | .lookup .. | .fork .. | .importSession .. | .importWithRecovery .. |
    .importWithBinding .. | .importWithBindingCandidate .. | .importWithSidecar .. => True
  | _ => False

/-- The store a creation makes its slot in: the source of a fork has just been used. -/
def Call.opened (S : Store) : Call → Store
  | .fork handle =>
      match S.sessions.lookup handle with
      | some s => S.tick.touched handle s
      | none => S.tick
  | _ => S.tick

/-- Session `h` is the least recently used one; ties break toward the smallest handle. -/
def LeastRecent (S : Store) (h : ℕ) : Prop :=
  ∃ s, S.sessions.lookup h = some s ∧ ∀ h' s', S.sessions.lookup h' = some s' →
    s.lastUsed < s'.lastUsed ∨ s.lastUsed = s'.lastUsed ∧ h ≤ h'

/-! ## Eviction -/

namespace Store

theorem leastRecent_of_lruHandle {S : Store} {h : ℕ} (hl : S.lruHandle = some h) :
    LeastRecent S h := by
  unfold lruHandle at hl
  obtain ⟨e, he, rfl⟩ := Option.map_eq_some_iff.mp hl
  refine ⟨e.2, ?_, ?_⟩
  · exact Option.mem_def.mp (AList.mem_lookup_iff.mpr (List.argmin_mem he))
  · intro h' s' hs'
    have hmem : ⟨h', s'⟩ ∈ S.sessions.entries := AList.mem_lookup_iff.mp (Option.mem_def.mpr hs')
    have hle := List.le_of_mem_argmin hmem he
    rcases Prod.Lex.le_iff.mp hle with hlt | ⟨heq, hh⟩
    · exact .inl hlt
    · exact .inr ⟨heq, hh⟩

/-- The sessions an eviction leaves depend on the sessions and the configuration alone. -/
theorem sessions_evictForCapacity_congr {S T : Store} (hs : S.sessions = T.sessions)
    (hc : S.cfg = T.cfg) : S.evictForCapacity.sessions = T.evictForCapacity.sessions := by
  have hloop : ∀ fuel (S T : Store), S.sessions = T.sessions → S.cfg = T.cfg →
      (evictLoop fuel S).sessions = (evictLoop fuel T).sessions := by
    intro fuel
    induction fuel with
    | zero => intro S T hs _; exact hs
    | succ fuel ih =>
        intro S T hs hc
        have hlru : S.lruHandle = T.lruHandle := by
          unfold lruHandle
          rw [hs]
        simp only [evictLoop, hlru, hs, hc]
        split
        · exact hs
        · split
          · exact hs
          · exact ih _ _ rfl rfl
  unfold evictForCapacity
  rw [hs]
  exact hloop _ S T hs hc

theorem length_erase {S : Store} {h : ℕ} {s : Session} (hs : S.sessions.lookup h = some s) :
    (S.sessions.erase h).entries.length + 1 = S.sessions.entries.length := by
  have hmem : h ∈ S.sessions.keys := AList.lookup_isSome.mp (by rw [hs]; rfl)
  have hlen := List.length_erase_of_mem hmem
  have hpos := List.length_pos_of_mem hmem
  rw [← AList.keys_erase] at hlen
  simp only [AList.keys, List.keys, List.length_map] at hlen hpos
  omega

/-- A store within its capacity loses at most the least recently used session. -/
theorem evictForCapacity_cases {S : Store} (hroom : S.sessions.entries.length ≤ S.cfg.maxSessions) :
    (S.HasSlot ∧ S.evictForCapacity.sessions = S.sessions) ∨
      (¬S.HasSlot ∧ ∃ h, LeastRecent S h ∧
        S.evictForCapacity.sessions = S.sessions.erase h ∧
        (S.sessions.erase h).entries.length < S.cfg.maxSessions) := by
  by_cases hslot : S.HasSlot
  · left
    exact ⟨hslot, by rw [evictForCapacity_of_hasSlot hslot]⟩
  right
  refine ⟨hslot, ?_⟩
  have hpos := S.maxSessions_pos
  have hne : S.sessions.entries ≠ [] := by
    intro hnil
    simp only [HasSlot, hnil, List.length_nil] at hslot
    omega
  obtain ⟨h, hlru, hlive⟩ := exists_lruHandle hne
  obtain ⟨s, hs⟩ := Option.isSome_iff_exists.mp hlive
  have hlen := length_erase hs
  have hlt : (S.sessions.erase h).entries.length < S.cfg.maxSessions := by omega
  refine ⟨h, leastRecent_of_lruHandle hlru, ?_, hlt⟩
  have hfull : ¬S.sessions.entries.length < S.cfg.maxSessions := hslot
  -- One round makes the slot, and the next one stops.
  unfold evictForCapacity
  rw [← hlen, evictLoop, if_neg hfull]
  simp only [hlru]
  cases (S.sessions.erase h).entries.length with
  | zero => rfl
  | succ n => rw [evictLoop, if_pos hlt]

end Store

/-! ## What one call does -/

/-- How a call moved the table of sessions. -/
inductive TableEffect (c : Call) (S S' : Store) : Prop
  | kept (next : S'.nextHandle = S.nextHandle) (table : S'.sessions = S.sessions)
  | changed {h : ℕ} {s s' : Session} (next : S'.nextHandle = S.nextHandle)
      (found : S.sessions.lookup h = some s) (table : S'.sessions = S.sessions.insert h s')
      (own : c.Writes h ∨ SameStream s s') (stamp : s'.lastUsed ≤ max s.lastUsed S'.clock)
      (row : s.RowOk → s'.RowOk)
      (digest : c.Writes h ∨ (∃ text binding, c = .restoreTracking h text binding) ∨
        s'.content = s.content)
  | dropped {h : ℕ} (next : S'.nextHandle = S.nextHandle) (own : c = .evict h)
      (table : S'.sessions = S.sessions.erase h)
  | slot (next : S'.nextHandle = S.nextHandle) (later : S.clock < S'.clock) (own : c.Creates)
      (table : S'.sessions = (c.opened S).evictForCapacity.sessions)
  | created {s : Session} (next : S'.nextHandle = S.nextHandle + 1) (later : S.clock < S'.clock)
      (own : c.Creates)
      (table : S'.sessions = (c.opened S).evictForCapacity.sessions.insert S.nextHandle s)
      (stamp : s.lastUsed ≤ S'.clock)
      (row : (∀ h s', S.sessions.lookup h = some s' → s'.RowOk) → s.RowOk)

/-- One call: the configuration stays, the clock does not go back, and the table moves. -/
structure TableMove (c : Call) (S S' : Store) : Prop where
  cfg : S'.cfg = S.cfg
  clock : S.clock ≤ S'.clock
  effect : TableEffect c S S'

section Calls

variable [Digests] {S : Store}

omit [Digests] in
/-- The two sessions have the same stamp and cached row. -/
def SameStamp (s s' : Session) : Prop :=
  s'.lastUsed = s.lastUsed ∧ s'.idsSnapshot = s.idsSnapshot

omit [Digests] in
theorem SameStamp.of_ledger {s s' : Session} (h : SameLedger s s') : SameStamp s s' := by
  rw [SameStamp, h]
  exact ⟨rfl, rfl⟩

omit [Digests] in
theorem SameStamp.of_digests {s s' : Session} (h : SameButDigests s s') : SameStamp s s' := by
  rw [SameStamp, h]
  exact ⟨rfl, rfl⟩

omit [Digests] in
theorem SameStamp.trans {s s' s'' : Session} (h : SameStamp s s') (h' : SameStamp s' s'') :
    SameStamp s s'' :=
  ⟨h'.1.trans h.1, h'.2.trans h.2⟩

/-- Settling an append leaves stamp and row alone, on either exit. -/
theorem wp_settleAppend_stamp (cfg : StoreConfig) (key : KeyCtx) (eng : Engine)
    (hB : 0 < cfg.blockChars) (path : String) (delta : Text) (w : Work) :
    wp (settleAppend cfg key eng path delta) (fun _ w' => SameStamp w.sess w'.sess)
      (fun _ w' => SameStamp w.sess w'.sess) w := by
  unfold settleAppend
  simp only [wp_bind, wp_runIf, countPath, wp_modify]
  have hfeed (w₁ : Work) (h₁ : SameStamp w.sess w₁.sess) :
      wp (feedRecovery delta)
        (fun _ w₂ => wp (feedContent delta) (fun _ w' => SameStamp w.sess w'.sess)
          (fun _ w' => SameStamp w.sess w'.sess) w₂)
        (fun _ w' => SameStamp w.sess w'.sess) w₁ := by
    refine wp_mono (wp_feedRecovery_frame delta w₁) ?_ ?_
    · intro _ w₂ h₂
      have h₂ := h₁.trans (.of_digests h₂.2.1)
      refine wp_mono (wp_feedContent_frame delta w₂) ?_ ?_
      · intro _ w₃ h₃
        exact h₂.trans (.of_digests h₃.2)
      · intro _ w₃ h₃
        exact h₂.trans (.of_digests h₃.2)
    · intro _ w₂ h₂
      rw [h₂]
      exact h₁
  constructor
  · intro _
    refine wp_mono (wp_postTextOps_frame cfg key eng hB w) ?_ ?_
    · rintro _ w₁ ⟨J, T, hreg⟩
      exact hfeed _ (.of_ledger hreg.ledger)
    · intro _ w₁ hdist
      exact .of_ledger hdist.ledger
  · intro _
    exact hfeed _ ⟨rfl, rfl⟩

/-- An append stamps its session, and leaves no stale row on either exit. -/
theorem wp_appendSession_row (cfg : StoreConfig) (key : KeyCtx) (eng : Engine)
    (hB : 0 < cfg.blockChars) (clock : ℕ) (delta : Text) (w : Work) :
    wp (appendSession cfg key eng clock delta)
      (fun _ w' => w'.sess.lastUsed = clock ∧ (w.sess.RowOk → w'.sess.RowOk))
      (fun _ w' => w'.sess.lastUsed = clock ∧ (w.sess.RowOk → w'.sess.RowOk)) w := by
  unfold appendSession
  simp only [wp_bind, wp_get, wp_set, wp_fromExcept, wp_modify, appendOutcome, wp_throwIf, wp_pure]
  by_cases hd : delta = []
  · -- An empty delta changes neither the stream nor the row.
    subst hd
    have hsame {s : Session} (hs : s = { w.sess.openAppend clock [] with tail := w.sess.tail })
        (fingerprint : SemanticFingerprint) (replaceFrom : ℕ) :
        (s.commit fingerprint replaceFrom).lastUsed = clock ∧
          (w.sess.RowOk → (s.commit fingerprint replaceFrom).RowOk) := by
      subst hs
      exact ⟨rfl, id⟩
    simp only [growTail_nil]
    refine ⟨?_, fun _ h => by cases h⟩
    intro _ _
    refine ⟨fun _ _ => ?_, fun _ _ => ⟨rfl, id⟩⟩
    refine wp_mono (wp_settleAppend_nil cfg key eng _ _) ?_ ?_
    · intro _ w₁ h₁
      exact ⟨fun _ => hsame h₁ _ _, fun _ => hsame h₁ _ _⟩
    · intro _ w₁ h₁
      rw [h₁]
      exact ⟨rfl, id⟩
  · have hopen : (w.sess.openAppend clock delta).lastUsed = clock ∧
        (w.sess.openAppend clock delta).idsSnapshot = none := by
      rw [Session.openAppend, if_neg hd]
      exact ⟨rfl, rfl⟩
    have hnone {s : Session} (hs : SameStamp (w.sess.openAppend clock delta) s) :
        s.lastUsed = clock ∧ (w.sess.RowOk → s.RowOk) :=
      ⟨hs.1.trans hopen.1, fun _ => .of_none (hs.2.trans hopen.2)⟩
    have hgrown := hnone (s := { w.sess.openAppend clock delta with
      tail := (growTail cfg eng w.sess.tail delta).2 }) ⟨rfl, rfl⟩
    refine ⟨?_, fun _ _ => hgrown⟩
    intro _ _
    refine ⟨fun _ _ => ?_, fun _ _ => hgrown⟩
    refine wp_mono (wp_settleAppend_stamp cfg key eng hB _ delta _) ?_ ?_
    · intro _ w₁ h₁
      exact ⟨fun _ => hnone h₁, fun _ => hnone h₁⟩
    · intro _ w₁ h₁
      exact hnone h₁

/-- A seeded session has the stamp it started with, and no row. -/
theorem wp_seedSession_stamp (cfg : StoreConfig) (key : KeyCtx) (eng : Engine)
    (hB : 0 < cfg.blockChars) (recoveryTracking contentTracking : Bool) (runs : ℕ) (text : Text)
    (w : Work) :
    wp (seedSession cfg key eng recoveryTracking contentTracking runs text)
      (fun sess _ => SameStamp w.sess sess) (fun _ _ => True) w := by
  unfold seedSession
  simp only [wp_bind, wp_runIf, wp_fromExcept, wp_get, wp_pure, implies_true, and_true]
  constructor
  · intro _
    refine wp_mono (wp_seedText_frame cfg key eng hB runs text w) ?_ (fun _ _ _ => trivial)
    rintro _ w₁ ⟨tail, J, T, hreg⟩ digests _
    have hledger := hreg.ledger
    exact (SameStamp.of_ledger hledger).trans ⟨rfl, rfl⟩
  · intro _ digests _
    exact ⟨rfl, rfl⟩

namespace TableMove

variable {c : Call} {S' : Store}

omit [Digests] in
/-- The table was not touched. -/
theorem kept (hcfg : S'.cfg = S.cfg) (hclock : S.clock ≤ S'.clock)
    (hnext : S'.nextHandle = S.nextHandle) (hs : S'.sessions = S.sessions) : TableMove c S S' :=
  ⟨hcfg, hclock, .kept hnext hs⟩

omit [Digests] in
theorem opened_of_ne_fork (hfork : ∀ h, c ≠ .fork h) : c.opened S = S.tick := by
  unfold Call.opened
  split
  · rename_i h
    exact absurd rfl (hfork h)
  · rfl

omit [Digests] in
/-- A slot was made, and the creation failed afterwards. -/
theorem slot (own : c.Creates) (hfork : ∀ h, c ≠ .fork h) (hcfg : S'.cfg = S.cfg)
    (hclock : S.clock < S'.clock) (hnext : S'.nextHandle = S.nextHandle)
    (hs : S'.sessions = S.tick.evictForCapacity.sessions) : TableMove c S S' := by
  refine ⟨hcfg, hclock.le, .slot hnext hclock own ?_⟩
  rw [opened_of_ne_fork hfork]
  exact hs

omit [Digests] in
/-- A slot was made, and a session without a row was put there. -/
theorem created (own : c.Creates) (hfork : ∀ h, c ≠ .fork h) {T : Store} {s : Session}
    (hcfg : T.cfg = S.cfg) (hclock : T.clock = S.clock + 1) (hnext : T.nextHandle = S.nextHandle)
    (hs : T.sessions = S.tick.evictForCapacity.sessions) (hstamp : s.lastUsed = S.clock + 1)
    (hrow : s.idsSnapshot = none) (hS' : S'.sessions = (T.withSession s).sessions)
    (hS'cfg : S'.cfg = T.cfg) (hS'clock : S'.clock = T.clock)
    (hS'next : S'.nextHandle = T.nextHandle + 1) : TableMove c S S' := by
  refine ⟨hS'cfg.trans hcfg, by omega, .created (by omega) (by omega) own ?_ (by omega)
    (fun _ => .of_none hrow)⟩
  rw [hS', opened_of_ne_fork hfork, ← hs, ← hnext]
  rfl

end TableMove

namespace Store

theorem wp_put_table (keyId : ℕ) (text : Text) (eng : Engine) :
    wp (put keyId text eng) (fun _ S' => TableMove (.put keyId text eng) S S')
      (fun _ S' => TableMove (.put keyId text eng) S S') S := by
  rw [wp_put]
  have hcfg : S.putStart.cfg = S.cfg := by rw [putStart_eq]
  have hclock : S.putStart.clock = S.clock + 1 := by rw [putStart_eq]
  have hnext : S.putStart.nextHandle = S.nextHandle := by rw [putStart_eq]
  refine ⟨?_, fun _ => .kept rfl le_rfl rfl rfl⟩
  intro key _
  refine wp_mono (wp_seedSession_stamp S.cfg key eng S.blockChars_pos _ _ _ _ _) ?_ ?_
  · intro sess w hstamp
    refine .created (T := S.putStart.putBackShared w) trivial (fun _ => by simp) hcfg hclock hnext
      rfl hstamp.1 hstamp.2 rfl rfl rfl rfl
  · intro e w _
    refine .slot trivial (fun _ => by simp) hcfg ?_ hnext rfl
    have : S.clock < S.putStart.clock := by omega
    exact this

theorem wp_lookup_table (keyId : ℕ) (text : Text) (eng : Engine) :
    wp (lookup keyId text eng) (fun _ S' => TableMove (.lookup keyId text eng) S S')
      (fun _ S' => TableMove (.lookup keyId text eng) S S') S := by
  refine wp_lookup keyId text eng (fun _ => .kept rfl le_rfl rfl rfl) ?_ ?_
  · intro S' hsame
    rw [hsame]
    exact .kept rfl le_rfl rfl rfl
  · intro key wk deepKey deep S₁ _ _ _ hsame
    have hcfg : S₁.adoptStart.cfg = S.cfg := by rw [adoptStart_eq, hsame]
    have hclock : S₁.adoptStart.clock = S.clock + 1 := by rw [adoptStart_eq, hsame]
    have hnext : S₁.adoptStart.nextHandle = S.nextHandle := by rw [adoptStart_eq, hsame]
    have hclock₁ : S₁.clock = S.clock := by rw [hsame]
    have htable : S₁.adoptStart.sessions = S.tick.evictForCapacity.sessions := by
      apply sessions_evictForCapacity_congr
      · rw [hsame]
        rfl
      · rw [hsame]
        rfl
    have hearly : TableMove (.lookup keyId text eng) S S₁ := by
      rw [hsame]
      exact .kept rfl le_rfl rfl rfl
    have hlate : TableMove (.lookup keyId text eng) S S₁.adoptStart :=
      .slot trivial (fun _ => by simp) hcfg (by omega) hnext htable
    refine wp_adopt keyId key text eng wk deepKey deep (fun _ _ => hearly) ?_
    intro enc _
    refine ⟨fun _ _ => hearly, ?_⟩
    intro tail _
    refine ⟨fun _ => hlate, fun _ => ⟨fun _ _ => hlate, ?_⟩⟩
    intro digests _ sess hsess
    have hstamp : sess.lastUsed = S.clock + 1 := by
      rw [hsess, ← hclock₁]
      rfl
    refine .created (T := S₁.adoptStart)
      (s := { sess with recordHash := sess.commitHash key.fingerprint })
      trivial (fun _ => by simp) hcfg hclock hnext htable hstamp ?_ rfl rfl rfl rfl
    rw [hsess]
    rfl

theorem wp_fork_table (handle : ℕ) :
    wp (fork handle) (fun _ S' => TableMove (.fork handle) S S')
      (fun _ S' => TableMove (.fork handle) S S') S := by
  refine wp_fork handle (fun _ => .kept rfl (Nat.le_succ _) rfl rfl) ?_
  intro sess key hsess _
  have hcfg : (S.forkStart handle sess).cfg = S.cfg := by rw [forkStart_eq]
  have hclock : (S.forkStart handle sess).clock = S.clock + 1 := by rw [forkStart_eq]
  have hnext : (S.forkStart handle sess).nextHandle = S.nextHandle := by rw [forkStart_eq]
  have hopened : (Call.fork handle).opened S = S.tick.touched handle sess := by
    simp only [Call.opened, hsess]
  have htable : (S.forkStart handle sess).sessions =
      ((Call.fork handle).opened S).evictForCapacity.sessions := by
    rw [hopened]
    exact sessions_evictForCapacity_congr rfl rfl
  refine ⟨hcfg, ?_, .created (s := forkOf sess key (S.clock + 1)) ?_ ?_ trivial ?_ ?_ ?_⟩
  · simp only [withSession]
    omega
  · simp only [withSession]
    omega
  · simp only [withSession]
    omega
  · simp only [withSession, htable, hnext]
  · simp only [withSession, hclock]
    exact le_rfl
  · intro hrows
    exact hrows handle sess hsess

theorem wp_appendPatch_table (handle : ℕ) (delta : Text) (rev : ℕ) (eng : Engine) {c : Call}
    (hc : c.Writes handle) :
    wp (appendPatch handle delta rev eng) (fun _ S' => TableMove c S S')
      (fun _ S' => TableMove c S S') S := by
  refine wp_appendPatch S handle delta rev eng ?_ ?_
  · rintro e S' (rfl | rfl) _
    · exact .kept rfl le_rfl rfl rfl
    · exact .kept rfl le_rfl rfl rfl
  · intro s key hpass
    have hmove (w : Work) (hw : w.sess.lastUsed = S.clock + 1 ∧ (s.RowOk → w.sess.RowOk)) :
        TableMove c S (S.tick.countExtend.putBack handle w) := by
      refine ⟨rfl, Nat.le_succ _, .changed rfl hpass.found rfl (.inl hc) ?_ hw.2 (.inl hc)⟩
      rw [hw.1]
      exact le_max_right _ _
    exact wp_mono (wp_appendSession_row S.cfg key eng S.blockChars_pos (S.clock + 1) delta _)
      (fun _ w hw => hmove w hw) (fun _ w hw => hmove w hw)

theorem wp_append_table (handle : ℕ) (delta : Text) (rev : ℕ) (eng : Engine) {c : Call}
    (hc : c.Writes handle) :
    wp (append handle delta rev eng) (fun _ S' => TableMove c S S')
      (fun _ S' => TableMove c S S') S := by
  unfold append
  simp only [wp_bind, wp_session, wp_pure]
  refine wp_mono (wp_appendPatch_table handle delta rev eng hc) ?_ (fun _ _ h => h)
  intro _ S' h
  exact ⟨fun _ _ => h, fun _ => h⟩

section Imports

variable {c : Call} {α : Type}

omit [Digests] in
/-- A slot was made for an imported session. -/
theorem tableMove_import (own : c.Creates) (hfork : ∀ h, c ≠ .fork h) {s : Session}
    (hstamp : s.lastUsed = S.tick.evictForCapacity.clock) (hrow : s.idsSnapshot = none) :
    TableMove c S (S.tick.evictForCapacity.withSession s) := by
  have hclock : S.tick.evictForCapacity.clock = S.clock + 1 := clock_evictForCapacity _
  exact .created (T := S.tick.evictForCapacity) own hfork (cfg_evictForCapacity _) hclock
    (nextHandle_evictForCapacity _) rfl (hstamp.trans hclock) hrow rfl rfl rfl rfl

omit [Digests] in
theorem tableMove_evicted (own : c.Creates) (hfork : ∀ h, c ≠ .fork h) :
    TableMove c S S.tick.evictForCapacity := by
  refine .slot own hfork (cfg_evictForCapacity _) ?_ (nextHandle_evictForCapacity _) rfl
  rw [clock_evictForCapacity]
  exact Nat.lt_succ_self _

/-- The gates of an import leave the table alone. -/
theorem wp_gates_table (key : KeyCtx) (recBytes : List UInt8) (eng : Engine)
    {f : SessionRecordV1 × ℕ × TailState → Fallible Store StoreError α}
    (h : ∀ parsed sealedCount tail, wp (f (parsed, sealedCount, tail))
      (fun _ S' => TableMove c S S') (fun _ S' => TableMove c S S') S) :
    wp (importRecordGates key recBytes eng >>= f) (fun _ S' => TableMove c S S')
      (fun _ S' => TableMove c S S') S := by
  rw [wp_bind]
  refine wp_mono (wp_importRecordGates key recBytes eng) ?_ ?_
  · rintro ⟨parsed, sealedCount, tail⟩ S' ⟨rfl, -⟩
    exact h parsed sealedCount tail
  · rintro e S' (rfl | rfl)
    · exact .kept rfl le_rfl rfl rfl
    · exact .kept rfl le_rfl rfl rfl

theorem wp_importSession_table (keyId : ℕ) (recBytes : List UInt8) (eng : Engine)
    (sealedText : Text) (own : c.Creates) (hfork : ∀ h, c ≠ .fork h) :
    wp (importSession keyId recBytes eng sealedText) (fun _ S' => TableMove c S S')
      (fun _ S' => TableMove c S S') S := by
  unfold importSession
  rw [wp_bind, wp_keyCtx]
  refine ⟨?_, fun _ => .kept rfl le_rfl rfl rfl⟩
  intro key _
  refine wp_gates_table key recBytes eng ?_
  intro parsed sealedCount tail
  simp only [wp_bind, wp_get, wp_fromExcept, wp_modify, wp_insertSession]
  exact ⟨fun _ _ => tableMove_import own hfork rfl rfl, fun _ _ => .kept rfl le_rfl rfl rfl⟩

theorem wp_importSessionWithRecovery_table (keyId : ℕ) (recBytes : List UInt8)
    (historicalText : Text) (expected : RecoveryMaterial) (eng : Engine) (own : c.Creates)
    (hfork : ∀ h, c ≠ .fork h) :
    wp (importSessionWithRecovery keyId recBytes historicalText expected eng)
      (fun _ S' => TableMove c S S') (fun _ S' => TableMove c S S') S := by
  unfold importSessionWithRecovery
  rw [wp_bind, wp_keyCtx]
  refine ⟨?_, fun _ => .kept rfl le_rfl rfl rfl⟩
  intro key _
  refine wp_gates_table key recBytes eng ?_
  intro parsed sealedCount tail
  have hkept : TableMove c S S := .kept rfl le_rfl rfl rfl
  simp only [wp_bind, wp_get, wp_fromExcept, wp_modify, wp_throwIf, wp_rejectUnless,
    wp_insertSession]
  refine ⟨fun _ => hkept, fun _ => ⟨fun recovery _ => ⟨?_, ?_⟩, fun _ _ => hkept⟩⟩
  · intro _
    exact ⟨fun _ _ => tableMove_import own hfork rfl rfl, fun _ _ => tableMove_evicted own hfork⟩
  · intro _
    exact .kept rfl le_rfl rfl rfl

theorem wp_importSessionWithBinding_table (keyId : ℕ) (recBytes : List UInt8)
    (historicalText : Text) (bindingBytes : List UInt8) (eng : Engine) (own : c.Creates)
    (hfork : ∀ h, c ≠ .fork h) :
    wp (importSessionWithBinding keyId recBytes historicalText bindingBytes eng)
      (fun _ S' => TableMove c S S') (fun _ S' => TableMove c S S') S := by
  unfold importSessionWithBinding
  rw [wp_bind, wp_keyCtx]
  refine ⟨?_, fun _ => .kept rfl le_rfl rfl rfl⟩
  intro key _
  refine wp_gates_table key recBytes eng ?_
  intro parsed sealedCount tail
  have hkept : TableMove c S S := .kept rfl le_rfl rfl rfl
  have hreject : TableMove c S S.countReject := .kept rfl le_rfl rfl rfl
  simp only [wp_bind, wp_get, wp_fromExcept, wp_modify, wp_throwIf, wp_rejectUnless, wp_counted,
    wp_insertSession]
  refine ⟨fun binding _ => ⟨fun _ => hkept, fun _ => ⟨fun recovery _ => ⟨fun content _ => ⟨?_, ?_⟩,
    fun _ _ => hkept⟩, fun _ _ => hkept⟩⟩, fun _ _ => hreject⟩
  · intro _
    exact tableMove_import own hfork rfl rfl
  · intro _
    exact hreject

theorem wp_importSessionWithBindingCandidate_table (keyId : ℕ) (recBytes : List UInt8)
    (candidateText : Text) (bindingBytes : List UInt8) (eng : Engine) (own : c.Creates)
    (hfork : ∀ h, c ≠ .fork h) :
    wp (importSessionWithBindingCandidate keyId recBytes candidateText bindingBytes eng)
      (fun _ S' => TableMove c S S') (fun _ S' => TableMove c S S') S := by
  unfold importSessionWithBindingCandidate
  simp only [wp_bind, wp_fromExcept, wp_pure]
  have hkept : TableMove c S S := .kept rfl le_rfl rfl rfl
  refine ⟨fun binding _ => ⟨fun historicalText _ => ?_, fun _ _ => hkept⟩, fun _ _ => hkept⟩
  exact wp_importSessionWithBinding_table keyId recBytes historicalText bindingBytes eng own hfork

theorem wp_importSessionWithSidecar_table (keyId : ℕ) (recBytes sidecarBytes : List UInt8)
    (eng : Engine) (sealedText : Text) (own : c.Creates) (hfork : ∀ h, c ≠ .fork h) :
    wp (importSessionWithSidecar keyId recBytes sidecarBytes eng sealedText)
      (fun _ S' => TableMove c S S') (fun _ S' => TableMove c S S') S := by
  unfold importSessionWithSidecar
  rw [wp_bind, wp_keyCtx]
  refine ⟨?_, fun _ => .kept rfl le_rfl rfl rfl⟩
  intro key _
  refine wp_gates_table key recBytes eng ?_
  intro parsed sealedCount tail
  have hreject : TableMove c S S.countReject := .kept rfl le_rfl rfl rfl
  simp only [wp_bind, wp_get, wp_fromExcept, wp_modify, wp_rejectUnless, wp_counted,
    wp_insertSession]
  refine ⟨fun sc _ => ⟨?_, fun _ => hreject⟩, fun _ _ => hreject⟩
  intro _
  exact ⟨fun _ _ => tableMove_import own hfork rfl rfl, fun _ _ => .kept rfl le_rfl rfl rfl⟩

end Imports

end Store

/-- Every call moves the table in one of the ways above. -/
theorem tableMove_after (S : Store) (c : Call) : TableMove c S (S.after c) := by
  apply Store.after_of_wp
  have hkept : TableMove c S S := .kept rfl le_rfl rfl rfl
  cases c with
  | registerFingerprint fingerprint guard =>
      simp only [Call.run, wp_ignore, Store.registerFingerprint, wp_bind, wp_get]
      split
      · simp only [wp_bind, wp_throwIf, wp_pure]
        exact ⟨fun _ => hkept, fun _ => hkept⟩
      · simp only [wp_bind, wp_throwIf, wp_set, wp_pure]
        exact ⟨fun _ => hkept, fun _ => .kept rfl le_rfl rfl rfl⟩
  | enableRecoveryTracking =>
      simp only [Call.run, Store.enableRecoveryTracking, wp_bind, wp_get, wp_throwIf, wp_set]
      exact ⟨fun _ => hkept, fun _ => .kept rfl le_rfl rfl rfl⟩
  | enableContentTracking =>
      simp only [Call.run, Store.enableContentTracking, wp_bind, wp_get, wp_throwIf, wp_set]
      exact ⟨fun _ => hkept, fun _ => .kept rfl le_rfl rfl rfl⟩
  | setSeedOverlap runner =>
      simp only [Call.run, Store.setSeedOverlap, wp_modify]
      exact .kept rfl le_rfl rfl rfl
  | put keyId text eng =>
      rw [Call.run, wp_ignore]
      exact Store.wp_put_table keyId text eng
  | append handle delta rev eng =>
      rw [Call.run, wp_ignore]
      exact Store.wp_append_table handle delta rev eng rfl
  | appendPatch handle delta rev eng =>
      rw [Call.run, wp_ignore]
      exact Store.wp_appendPatch_table handle delta rev eng rfl
  | lookup keyId text eng =>
      rw [Call.run, wp_ignore]
      exact Store.wp_lookup_table keyId text eng
  | fork handle =>
      rw [Call.run, wp_ignore]
      exact Store.wp_fork_table handle
  | evict handle =>
      simp only [Call.run, wp_ignore, Store.evict, wp_bind, wp_get, wp_set, wp_pure]
      exact ⟨rfl, le_rfl, .dropped rfl rfl rfl⟩
  | readAllIds handle =>
      simp only [Call.run, wp_ignore, Store.readAllIds, wp_bind, wp_modify, Store.wp_session,
        Store.touch, wp_pure]
      refine ⟨?_, fun _ => .kept rfl (Nat.le_succ _) rfl rfl⟩
      intro sess hsess
      exact ⟨rfl, Nat.le_succ _, .changed rfl hsess rfl (.inr rfl) (le_max_right _ _) id
        (.inr (.inr rfl))⟩
  | sharedAllIds handle =>
      simp only [Call.run, wp_ignore, Store.sharedAllIds, wp_bind, wp_modify, Store.wp_session,
        Store.touch, wp_pure]
      refine ⟨?_, fun _ => .kept rfl (Nat.le_succ _) rfl rfl⟩
      intro sess hsess
      refine ⟨rfl, Nat.le_succ _, .changed rfl hsess rfl (.inr rfl) (le_max_right _ _) ?_
        (.inr (.inr rfl))⟩
      intro hrow generation view hview _
      cases hview
      exact hrow.asSlice_sharedRow
  | importNodeItem key record =>
      simp only [Call.run, wp_ignore, Store.importNodeItem, wp_bind, wp_get]
      split
      · simp only [wp_bind, wp_set, wp_pure]
        exact .kept rfl le_rfl rfl rfl
      · simp only [wp_bind, wp_set, wp_pure]
        exact .kept rfl le_rfl rfl rfl
  | importSession keyId recBytes eng sealedText =>
      rw [Call.run, wp_ignore]
      exact Store.wp_importSession_table keyId recBytes eng sealedText trivial (fun _ => by simp)
  | importWithRecovery keyId recBytes historicalText expected eng =>
      rw [Call.run, wp_ignore]
      exact Store.wp_importSessionWithRecovery_table keyId recBytes historicalText expected eng
        trivial (fun _ => by simp)
  | importWithBinding keyId recBytes historicalText bindingBytes eng =>
      rw [Call.run, wp_ignore]
      exact Store.wp_importSessionWithBinding_table keyId recBytes historicalText bindingBytes eng
        trivial (fun _ => by simp)
  | importWithBindingCandidate keyId recBytes candidateText bindingBytes eng =>
      rw [Call.run, wp_ignore]
      exact Store.wp_importSessionWithBindingCandidate_table keyId recBytes candidateText
        bindingBytes eng trivial (fun _ => by simp)
  | importWithSidecar keyId recBytes sidecarBytes eng sealedText =>
      rw [Call.run, wp_ignore]
      exact Store.wp_importSessionWithSidecar_table keyId recBytes sidecarBytes eng sealedText
        trivial (fun _ => by simp)
  | restoreTracking handle historicalText bindingBytes =>
      simp only [Call.run, Store.restoreTrackingWithBinding, wp_bind, Store.wp_session,
        wp_fromExcept, wp_modify]
      refine ⟨fun sess hsess => ⟨?_, fun _ _ => hkept⟩, fun _ => hkept⟩
      intro digests _
      exact ⟨rfl, le_rfl, .changed rfl hsess rfl (.inr rfl) (le_max_left _ _) id
        (.inr (.inl ⟨historicalText, bindingBytes, rfl⟩))⟩

end Calls

/-! ## The invariant of the table -/

/-- In every reachable store the table is within its capacity, every handle has been given
out, no stamp is ahead of the clock, and no cached row is stale. -/
structure TableOk (S : Store) : Prop where
  room : S.sessions.entries.length ≤ S.cfg.maxSessions
  used : ∀ h s, S.sessions.lookup h = some s → h < S.nextHandle
  stamped : ∀ h s, S.sessions.lookup h = some s → s.lastUsed ≤ S.clock
  rows : ∀ h s, S.sessions.lookup h = some s → s.RowOk

theorem Store.length_insert {S : Store} {h : ℕ} {s : Session} (s' : Session)
    (hs : S.sessions.lookup h = some s) :
    (S.sessions.insert h s').entries.length = S.sessions.entries.length := by
  have hlen := Store.length_erase hs
  rw [AList.entries_insert, List.length_cons]
  exact hlen

theorem Store.length_insert_fresh {table : Table ℕ Session} {h : ℕ} (s : Session)
    (hnone : table.lookup h = none) :
    (table.insert h s).entries.length = table.entries.length + 1 := by
  have hmem : h ∉ table := by
    rw [← AList.lookup_eq_none]
    exact hnone
  rw [AList.entries_insert_of_notMem hmem, List.length_cons]

namespace TableOk

variable {S S' : Store}

/-- Sessions may go, and the clock may advance. -/
theorem of_subset (h : TableOk S) (hcfg : S'.cfg = S.cfg) (hclock : S.clock ≤ S'.clock)
    (hnext : S'.nextHandle = S.nextHandle)
    (hlen : S'.sessions.entries.length ≤ S.sessions.entries.length)
    (hsub : ∀ k s, S'.sessions.lookup k = some s → S.sessions.lookup k = some s) : TableOk S' where
  room := by
    rw [hcfg]
    exact hlen.trans h.room
  used := by
    intro k s hs
    rw [hnext]
    exact h.used k s (hsub k s hs)
  stamped := by
    intro k s hs
    exact (h.stamped k s (hsub k s hs)).trans hclock
  rows := by
    intro k s hs
    exact h.rows k s (hsub k s hs)

/-- One session may change in place. -/
theorem of_insert (h : TableOk S) (hcfg : S'.cfg = S.cfg) (hclock : S.clock ≤ S'.clock)
    (hnext : S'.nextHandle = S.nextHandle) {k : ℕ} {s s' : Session}
    (hfound : S.sessions.lookup k = some s) (htable : S'.sessions = S.sessions.insert k s')
    (hstamp : s'.lastUsed ≤ max s.lastUsed S'.clock) (hrow : s.RowOk → s'.RowOk) : TableOk S' := by
  have hcase (k' : ℕ) (s₁ : Session) (hs₁ : S'.sessions.lookup k' = some s₁) :
      k' = k ∧ s₁ = s' ∨ S.sessions.lookup k' = some s₁ := by
    rw [htable] at hs₁
    exact (lookup_insert_eq_some.mp hs₁).imp_right And.right
  constructor
  · rw [hcfg, htable, Store.length_insert s' hfound]
    exact h.room
  · intro k' s₁ hs₁
    rw [hnext]
    rcases hcase k' s₁ hs₁ with ⟨rfl, -⟩ | hold
    · exact h.used _ _ hfound
    · exact h.used _ _ hold
  · intro k' s₁ hs₁
    rcases hcase k' s₁ hs₁ with ⟨-, rfl⟩ | hold
    · have hle := h.stamped k s hfound
      exact hstamp.trans (max_le (hle.trans hclock) le_rfl)
    · exact (h.stamped _ _ hold).trans hclock
  · intro k' s₁ hs₁
    rcases hcase k' s₁ hs₁ with ⟨-, rfl⟩ | hold
    · exact hrow (h.rows k s hfound)
    · exact h.rows _ _ hold

/-- A session was put under the next handle. -/
theorem of_created (h : TableOk S) {s : Session} (hslot : S.sessions.entries.length < S.cfg.maxSessions)
    (hcfg : S'.cfg = S.cfg) (hclock : S.clock ≤ S'.clock) (hnext : S'.nextHandle = S.nextHandle + 1)
    (htable : S'.sessions = S.sessions.insert S.nextHandle s) (hstamp : s.lastUsed ≤ S'.clock)
    (hrow : s.RowOk) : TableOk S' := by
  have hnone : S.sessions.lookup S.nextHandle = none := by
    cases hs : S.sessions.lookup S.nextHandle with
    | none => rfl
    | some s' => exact absurd (h.used _ _ hs) (lt_irrefl _)
  have hcase (k : ℕ) (s₁ : Session) (hs₁ : S'.sessions.lookup k = some s₁) :
      k = S.nextHandle ∧ s₁ = s ∨ S.sessions.lookup k = some s₁ := by
    rw [htable] at hs₁
    exact (lookup_insert_eq_some.mp hs₁).imp_right And.right
  constructor
  · rw [hcfg, htable, Store.length_insert_fresh s hnone]
    omega
  · intro k s₁ hs₁
    rcases hcase k s₁ hs₁ with ⟨rfl, -⟩ | hold
    · omega
    · have := h.used _ _ hold
      omega
  · intro k s₁ hs₁
    rcases hcase k s₁ hs₁ with ⟨-, rfl⟩ | hold
    · exact hstamp
    · exact (h.stamped _ _ hold).trans hclock
  · intro k s₁ hs₁
    rcases hcase k s₁ hs₁ with ⟨-, rfl⟩ | hold
    · exact hrow
    · exact h.rows _ _ hold

end TableOk

/-! ## Making a slot -/

section Opened

variable {S : Store} {c : Call}

/-- Opening a creation touches the source of a fork. -/
theorem opened_cases (S : Store) (c : Call) :
    c.opened S = S.tick ∨ ∃ h s, c = .fork h ∧ S.sessions.lookup h = some s ∧
      c.opened S = S.tick.touched h s := by
  unfold Call.opened
  split
  · rename_i handle
    cases hs : S.sessions.lookup handle with
    | none => exact .inl rfl
    | some s => exact .inr ⟨handle, s, rfl, hs, rfl⟩
  · exact .inl rfl

theorem opened_fields (S : Store) (c : Call) :
    (c.opened S).cfg = S.cfg ∧ (c.opened S).clock = S.clock + 1 ∧
      (c.opened S).nextHandle = S.nextHandle := by
  rcases opened_cases S c with h | ⟨_, _, _, _, h⟩
  · rw [h]
    exact ⟨rfl, rfl, rfl⟩
  · rw [h]
    exact ⟨rfl, rfl, rfl⟩

theorem TableOk.opened (h : TableOk S) (c : Call) : TableOk (c.opened S) := by
  rcases opened_cases S c with ho | ⟨k, s, -, hs, ho⟩
  · rw [ho]
    exact h.of_subset rfl (Nat.le_succ _) rfl le_rfl fun _ _ h => h
  · rw [ho]
    exact TableOk.of_insert h rfl (Nat.le_succ _) rfl hs rfl (le_max_right _ _) id

/-- Opening a creation leaves every session where it was, with its contents. -/
theorem lookup_opened (S : Store) (c : Call) (h : ℕ) :
    ((c.opened S).sessions.lookup h).map Session.observed =
      (S.sessions.lookup h).map Session.observed := by
  rcases opened_cases S c with ho | ⟨k, s, -, hs, ho⟩
  · rw [ho]
    rfl
  · rw [ho]
    simp only [Store.touched]
    by_cases heq : h = k
    · subst heq
      rw [AList.lookup_insert, hs]
      rfl
    · rw [AList.lookup_insert_ne heq]
      rfl

/-- Opening a creation does not change how many sessions there are. -/
theorem hasSlot_opened : (c.opened S).HasSlot ↔ S.HasSlot := by
  rcases opened_cases S c with ho | ⟨k, s, -, hs, ho⟩
  · rw [ho]
    rfl
  · rw [ho]
    have hlen : (S.tick.touched k s).sessions.entries.length = S.sessions.entries.length :=
      Store.length_insert _ hs
    unfold Store.HasSlot
    rw [hlen]
    rfl

/-- What an eviction for a creation leaves is within the capacity, with room for one more. -/
theorem TableOk.evicted (h : TableOk S) :
    TableOk S.evictForCapacity ∧ S.evictForCapacity.sessions.entries.length < S.cfg.maxSessions := by
  have hsub (k : ℕ) (s : Session) (hs : S.evictForCapacity.sessions.lookup k = some s) :
      S.sessions.lookup k = some s := Store.lookup_of_evictForCapacity hs
  have hfields : S.evictForCapacity.cfg = S.cfg ∧ S.clock ≤ S.evictForCapacity.clock ∧
      S.evictForCapacity.nextHandle = S.nextHandle := by
    rw [Store.cfg_evictForCapacity, Store.clock_evictForCapacity, Store.nextHandle_evictForCapacity]
    exact ⟨rfl, le_rfl, rfl⟩
  rcases Store.evictForCapacity_cases h.room with ⟨hslot, hs⟩ | ⟨-, k, -, hs, hlt⟩
  · refine ⟨h.of_subset hfields.1 hfields.2.1 hfields.2.2 (by rw [hs]) hsub, ?_⟩
    rw [hs]
    exact hslot
  · have hle : S.evictForCapacity.sessions.entries.length ≤ S.sessions.entries.length := by
      rw [hs]
      exact (List.kerase_sublist k _).length_le
    refine ⟨h.of_subset hfields.1 hfields.2.1 hfields.2.2 hle hsub, ?_⟩
    rw [hs]
    exact hlt

end Opened

/-! ## One call -/

/-- Why session `h` is no longer live after the call: it was evicted by name, or it was the
least recently used one when a creation found the store full. -/
def Gone (c : Call) (S : Store) (h : ℕ) : Prop :=
  c = .evict h ∨ c.Creates ∧ ¬S.HasSlot ∧ LeastRecent (c.opened S) h

namespace TableMove

variable {c : Call} {S S' : Store}

/-- The invariant of the table is kept. -/
theorem tableOk (h : TableMove c S S') (ok : TableOk S) : TableOk S' := by
  obtain ⟨hcfg', hclock', hnext'⟩ := opened_fields S c
  obtain ⟨hevicted, hlt⟩ := (ok.opened c).evicted
  cases h.effect with
  | kept next table =>
      exact ok.of_subset h.cfg h.clock next (by rw [table]) fun k s hs => by rwa [table] at hs
  | changed next found table own stamp row =>
      exact ok.of_insert h.cfg h.clock next found table stamp row
  | @dropped k next own table =>
      have hlen : S'.sessions.entries.length ≤ S.sessions.entries.length := by
        rw [table]
        exact (List.kerase_sublist k _).length_le
      refine ok.of_subset h.cfg h.clock next hlen ?_
      intro k' s hs
      rw [table] at hs
      exact (lookup_erase_eq_some.mp hs).2
  | slot next later own table =>
      refine hevicted.of_subset ?_ ?_ ?_ (by rw [table]) fun k s hs => by rwa [table] at hs
      · rw [Store.cfg_evictForCapacity, hcfg', h.cfg]
      · rw [Store.clock_evictForCapacity, hclock']
        exact later
      · rw [Store.nextHandle_evictForCapacity, hnext', next]
  | @created s next later own table stamp row =>
      refine hevicted.of_created (s := s) ?_ ?_ ?_ ?_ ?_ stamp (row ok.rows)
      · rw [Store.cfg_evictForCapacity]
        exact hlt
      · rw [Store.cfg_evictForCapacity, hcfg', h.cfg]
      · rw [Store.clock_evictForCapacity, hclock']
        exact later
      · rw [Store.nextHandle_evictForCapacity, hnext', next]
      · rw [Store.nextHandle_evictForCapacity, hnext', table]

/-- What the slot of a creation leaves of a session. -/
theorem lookup_slot (ok : TableOk S) (own : c.Creates) {h : ℕ} {s : Session}
    (hs : S.sessions.lookup h = some s) :
    ((c.opened S).evictForCapacity.sessions.lookup h = none ∧ Gone c S h) ∨
      ∃ s', (c.opened S).evictForCapacity.sessions.lookup h = some s' ∧ s'.observed = s.observed := by
  have hopened := lookup_opened S c h
  rw [hs] at hopened
  obtain ⟨s', hs', hobs⟩ := Option.map_eq_some_iff.mp hopened
  rcases Store.evictForCapacity_cases (ok.opened c).room with ⟨-, htable⟩ | ⟨hfull, k, hleast, htable, -⟩
  · right
    exact ⟨s', by rw [htable, hs'], hobs⟩
  · by_cases heq : h = k
    · left
      subst heq
      refine ⟨?_, .inr ⟨own, ?_, hleast⟩⟩
      · rw [htable]
        exact AList.lookup_erase _ _
      · rwa [hasSlot_opened] at hfull
    · right
      refine ⟨s', ?_, hobs⟩
      rw [htable, AList.lookup_erase_ne heq, hs']

/-- A live session stays as it is, unless the call works on it or it is gone for a reason. -/
theorem isolated (h : TableMove c S S') (ok : TableOk S) {k : ℕ} {s : Session}
    (hs : S.sessions.lookup k = some s) :
    (S'.sessions.lookup k = none ∧ Gone c S k) ∨
      ∃ s', S'.sessions.lookup k = some s' ∧ (¬c.Writes k → s'.observed = s.observed) := by
  cases h.effect with
  | kept next table =>
      right
      exact ⟨s, by rw [table, hs], fun _ => rfl⟩
  | @changed k' s₁ s₂ next found table own stamp row =>
      right
      rw [table]
      by_cases heq : k = k'
      · subst heq
        cases found.symm.trans hs
        refine ⟨s₂, AList.lookup_insert _, ?_⟩
        intro hno
        exact (own.resolve_left hno).observed_eq
      · exact ⟨s, by rw [AList.lookup_insert_ne heq, hs], fun _ => rfl⟩
  | @dropped k' next own table =>
      rw [table]
      by_cases heq : k = k'
      · left
        subst heq
        exact ⟨AList.lookup_erase _ _, .inl own⟩
      · right
        exact ⟨s, by rw [AList.lookup_erase_ne heq, hs], fun _ => rfl⟩
  | slot next later own table =>
      rw [table]
      rcases lookup_slot ok own hs with hgone | ⟨s', hs', hobs⟩
      · exact .inl hgone
      · exact .inr ⟨s', hs', fun _ => hobs⟩
  | created next later own table stamp row =>
      rw [table]
      have hne : k ≠ S.nextHandle := by
        have := ok.used k s hs
        omega
      rw [AList.lookup_insert_ne hne]
      rcases lookup_slot ok own hs with hgone | ⟨s', hs', hobs⟩
      · exact .inl hgone
      · exact .inr ⟨s', hs', fun _ => hobs⟩

/-- Only a creation makes a handle live, and it is one that was never used. -/
theorem fresh (h : TableMove c S S') {k : ℕ} {s' : Session} (hnone : S.sessions.lookup k = none)
    (hs' : S'.sessions.lookup k = some s') : c.Creates ∧ k = S.nextHandle := by
  have hslot {t : Session} (ht : (c.opened S).evictForCapacity.sessions.lookup k = some t) : False := by
    have hopened := lookup_opened S c k
    rw [Store.lookup_of_evictForCapacity ht, hnone] at hopened
    cases hopened
  cases h.effect with
  | kept next table =>
      rw [table, hnone] at hs'
      cases hs'
  | @changed k' s₁ s₂ next found table own stamp row =>
      have hne : k ≠ k' := by
        rintro rfl
        rw [hnone] at found
        cases found
      rw [table, AList.lookup_insert_ne hne, hnone] at hs'
      cases hs'
  | @dropped k' next own table =>
      rw [table] at hs'
      cases hnone.symm.trans (lookup_erase_eq_some.mp hs').2
  | slot next later own table =>
      rw [table] at hs'
      exact (hslot hs').elim
  | created next later own table stamp row =>
      by_cases heq : k = S.nextHandle
      · exact ⟨own, heq⟩
      · rw [table, AList.lookup_insert_ne heq] at hs'
        exact (hslot hs').elim

end TableMove

/-- The source of a fork has just been used: with another session next to it, it is not the
least recent one. -/
theorem not_gone_of_fork {S : Store} (ok : TableOk S) (hmax : 2 ≤ S.cfg.maxSessions) {h : ℕ}
    {s : Session} (hs : S.sessions.lookup h = some s) : ¬Gone (.fork h) S h := by
  rintro (hevict | ⟨-, hfull, hleast⟩)
  · cases hevict
  have hopened : (Call.fork h).opened S = S.tick.touched h s := by
    simp only [Call.opened, hs]
  rw [hopened] at hleast
  obtain ⟨s', hs', hmin⟩ := hleast
  have hstamp : s'.lastUsed = S.clock + 1 := by
    have htouched : (S.tick.touched h s).sessions.lookup h = some { s with lastUsed := S.clock + 1 } :=
      AList.lookup_insert _
    cases htouched.symm.trans hs'
    rfl
  -- The store is full, so there is another session.
  have hmany : 2 ≤ S.sessions.keys.length := by
    have hlen : S.sessions.keys.length = S.sessions.entries.length := by
      simp only [AList.keys, List.keys, List.length_map]
    simp only [Store.HasSlot] at hfull
    omega
  obtain ⟨k, hk, hne⟩ : ∃ k ∈ S.sessions.keys, k ≠ h := by
    by_contra hall
    push Not at hall
    have hsub : S.sessions.keys ⊆ [h] := by
      intro k hk
      rw [List.mem_singleton]
      exact hall k hk
    have hle := (List.subperm_of_subset S.sessions.keys_nodup hsub).length_le
    simp only [List.length_singleton] at hle
    omega
  obtain ⟨t, ht⟩ := Option.isSome_iff_exists.mp (AList.lookup_isSome.mpr hk)
  have hold := ok.stamped k t ht
  have htouched : (S.tick.touched h s).sessions.lookup k = some t := by
    simp only [Store.touched]
    rw [AList.lookup_insert_ne hne]
    exact ht
  rcases hmin k t htouched with hlt | ⟨heq, -⟩
  · omega
  · omega

/-! ## Runs -/

section Runs

variable [Digests]

omit [Digests] in
theorem tableOk_new {cfg : StoreConfig} {S : Store} (h : Store.new cfg = .ok S) : TableOk S := by
  obtain ⟨-, -, hempty, -⟩ := Store.new_ok h
  constructor
  · rw [hempty]
    exact Nat.zero_le _
  all_goals
    intro k s hs
    rw [hempty] at hs
    cases hs

/-- The table of every store that a run reaches keeps its invariant. -/
theorem tableOk_afterAll {cfg : StoreConfig} {S₀ : Store} (hnew : Store.new cfg = .ok S₀)
    (calls : List Call) : TableOk (S₀.afterAll calls) ∧ (S₀.afterAll calls).cfg = cfg := by
  refine afterAll_induction (P := fun _ _ => True) (I := fun S => TableOk S ∧ S.cfg = cfg) ?_
    ⟨tableOk_new hnew, (Store.new_ok hnew).1⟩ ?_
  · intro S c hI _
    have hmove := tableMove_after S c
    exact ⟨hmove.tableOk hI.1, hmove.cfg.trans hI.2⟩
  · exact Along.of_forall calls fun _ _ => trivial

/-- Sessions do not disturb each other. In every store a run reaches, and for every next
call: a live session the call does not append to keeps its ids, text, revision and record
hash; it is gone only by its own eviction, or as the least recently used session when a
creation finds the store full; a creation uses a handle that was never used; every row
handed out for a live session is its stream; the store stays within its capacity; and with
a capacity of two or more a fork does not evict its source. -/
theorem session_isolation {cfg : StoreConfig} {S₀ : Store} (hnew : Store.new cfg = .ok S₀)
    (calls : List Call) (c : Call) :
    let S := S₀.afterAll calls
    let S' := S.after c
    (∀ h s, S.sessions.lookup h = some s →
      (S'.sessions.lookup h = none ∧ Gone c S h) ∨
        ∃ s', S'.sessions.lookup h = some s' ∧ (¬c.Writes h → s'.observed = s.observed)) ∧
    (∀ h s', S.sessions.lookup h = none → S'.sessions.lookup h = some s' →
      c.Creates ∧ h = S.nextHandle) ∧
    (∀ h s', S'.sessions.lookup h = some s' → s'.sharedRow.asSlice = s'.allIds) ∧
    S'.sessions.entries.length ≤ cfg.maxSessions ∧
    (2 ≤ cfg.maxSessions → ∀ h s, c = .fork h → S.sessions.lookup h = some s →
      ∃ s', S'.sessions.lookup h = some s' ∧ s'.observed = s.observed) := by
  intro S S'
  obtain ⟨ok, hcfg⟩ := tableOk_afterAll hnew calls
  have hmove : TableMove c S S' := tableMove_after S c
  have ok' := hmove.tableOk ok
  refine ⟨fun h s hs => hmove.isolated ok hs, fun h s' hn hs' => hmove.fresh hn hs', ?_, ?_, ?_⟩
  · intro h s' hs'
    exact (ok'.rows h s' hs').asSlice_sharedRow
  · have hroom := ok'.room
    rwa [hmove.cfg, hcfg] at hroom
  · rintro hmax h s rfl hs
    rw [← hcfg] at hmax
    rcases hmove.isolated ok hs with ⟨-, hgone⟩ | ⟨s', hs', hobs⟩
    · exact (not_gone_of_fork ok hmax hs hgone).elim
    · exact ⟨s', hs', hobs not_false⟩

end Runs

/-- In a store for two sessions, a fork of the older one evicts the other. -/
theorem session_isolation_fork :
    ∃ S₀ S s s', Store.new smallConfig = .ok S₀ ∧
      S = S₀.afterAll [.registerFingerprint ZERO_HASH 0, .put 0 ['a'] unitEngine,
        .put 0 ['b'] unitEngine] ∧
      S.sessions.lookup 1 = some s ∧ (S.after (.fork 1)).sessions.lookup 1 = some s' ∧
      s'.observed = s.observed := by
  obtain ⟨S₀, hnew⟩ : ∃ S₀, Store.new smallConfig = .ok S₀ := ⟨_, rfl⟩
  have hlive : ((S₀.afterAll [.registerFingerprint ZERO_HASH 0, .put 0 ['a'] unitEngine,
      .put 0 ['b'] unitEngine]).sessions.lookup 1).isSome = true := by
    cases hnew
    decide +kernel
  obtain ⟨s, hs⟩ := Option.isSome_iff_exists.mp hlive
  obtain ⟨-, -, -, -, hfork⟩ := session_isolation hnew [.registerFingerprint ZERO_HASH 0,
    .put 0 ['a'] unitEngine, .put 0 ['b'] unitEngine] (.fork 1)
  obtain ⟨s', hs', hobs⟩ := hfork (by decide) 1 s rfl hs
  exact ⟨S₀, _, s, s', hnew, rfl, hs, hs', hobs⟩

end Toktier.StoreCore
