import Toktier.StoreCore.AppendLaws
import Toktier.StoreCore.Checkpoints
import Toktier.StoreCore.TransportLaws

/-!
# Content tracking

A store that tracks contents keeps a content digest with every session, so that a session it
has just made or grown has a row for the content index. No operation changes the keys or what
is tracked, and whether a record can be imported depends on nothing else of the store.

## Main definitions

* `Store.Tracked`: contents are tracked, and every session has its digest.
* `Carries`: what an operation keeps.
* `BareReads`, `BoundReads`: what an import of a record gives back.

## Main results

* `wp_put_carries`, `wp_append_carries`: sessions that were made or grown have their digest.
* `wp_importSession_reads`, `wp_importBound_reads`: an import succeeds exactly when it reads
  something back.
-/
namespace Toktier.StoreCore

open Toktier.Lib

/-- Contents are tracked, and every session has its digest. -/
structure Store.Tracked (S : Store) : Prop where
  on : S.contentTracking = true
  live : ∀ h s, S.sessions.lookup h = some s → s.content.isSome

/-- The same configuration, keys and tracking. -/
structure SameSetUp (S S' : Store) : Prop where
  cfg : S'.cfg = S.cfg
  keys : S'.keys = S.keys
  recoveryTracking : S'.recoveryTracking = S.recoveryTracking
  contentTracking : S'.contentTracking = S.contentTracking
  seedOverlap : S'.seedOverlap = S.seedOverlap

/-- From `S` to `S'` the set-up stays, and the store stays tracked. -/
structure Carries (S S' : Store) : Prop extends SameSetUp S S' where
  next : S.nextHandle ≤ S'.nextHandle
  tracked : S.Tracked → S'.Tracked

namespace SameSetUp

variable {S S' S'' : Store}

theorem refl (S : Store) : SameSetUp S S := ⟨rfl, rfl, rfl, rfl, rfl⟩

theorem trans (h : SameSetUp S S') (h' : SameSetUp S' S'') : SameSetUp S S'' :=
  ⟨h'.cfg.trans h.cfg, h'.keys.trans h.keys, h'.recoveryTracking.trans h.recoveryTracking,
    h'.contentTracking.trans h.contentTracking, h'.seedOverlap.trans h.seedOverlap⟩

theorem symm (h : SameSetUp S S') : SameSetUp S' S :=
  ⟨h.cfg.symm, h.keys.symm, h.recoveryTracking.symm, h.contentTracking.symm, h.seedOverlap.symm⟩

end SameSetUp

namespace Carries

variable {S S' S'' : Store}

theorem refl (S : Store) : Carries S S := ⟨.refl S, le_rfl, id⟩

theorem trans (h : Carries S S') (h' : Carries S' S'') : Carries S S'' :=
  ⟨h.toSameSetUp.trans h'.toSameSetUp, h.next.trans h'.next, fun ht => h'.tracked (h.tracked ht)⟩

/-- Sessions may have gone. -/
theorem of_subset (hset : SameSetUp S S') (hn : S.nextHandle ≤ S'.nextHandle)
    (hs : ∀ h s, S'.sessions.lookup h = some s → S.sessions.lookup h = some s) : Carries S S' where
  toSameSetUp := hset
  next := hn
  tracked ht := ⟨hset.contentTracking.trans ht.on, fun h s h' => ht.live h s (hs h s h')⟩

theorem of_sessions (hset : SameSetUp S S') (hn : S'.nextHandle = S.nextHandle)
    (hs : S'.sessions = S.sessions) : Carries S S' :=
  .of_subset hset hn.ge fun h s h' => by rwa [hs] at h'

/-- One session was put in, with its digest if contents are tracked. -/
theorem of_insert {T : Store} (hT : Carries S T) (hset : SameSetUp T S')
    (hn : T.nextHandle ≤ S'.nextHandle) {h : ℕ} {sess : Session}
    (hs : S'.sessions = T.sessions.insert h sess) (hsess : S.Tracked → sess.content.isSome) :
    Carries S S' where
  toSameSetUp := hT.toSameSetUp.trans hset
  next := hT.next.trans hn
  tracked ht := by
    refine ⟨(hT.toSameSetUp.trans hset).contentTracking.trans ht.on, ?_⟩
    intro k s hk
    rw [hs] at hk
    rcases lookup_insert_eq_some.mp hk with ⟨-, rfl⟩ | ⟨-, hold⟩
    · exact hsess ht
    · exact (hT.tracked ht).live k s hold

/-- A session that was there changed. -/
theorem of_update (hset : SameSetUp S S') (hn : S'.nextHandle = S.nextHandle) {h : ℕ}
    {s sess : Session} (hfound : S.sessions.lookup h = some s)
    (hs : S'.sessions = S.sessions.insert h sess)
    (hsess : s.content.isSome → sess.content.isSome) : Carries S S' :=
  (refl S).of_insert hset hn.ge hs fun ht => hsess (ht.live h s hfound)

theorem evict (hS : Carries S S') : Carries S S'.evictForCapacity := by
  refine hS.trans (.of_subset ⟨?_, ?_, ?_, ?_, ?_⟩ (Store.nextHandle_evictForCapacity S').ge
    fun _ _ => Store.lookup_of_evictForCapacity)
  all_goals simp only [Store.cfg_evictForCapacity, Store.keys_evictForCapacity,
    Store.recoveryTracking_evictForCapacity, Store.contentTracking_evictForCapacity,
    Store.seedOverlap_evictForCapacity]

theorem tick (S : Store) : Carries S S.tick := .of_sessions ⟨rfl, rfl, rfl, rfl, rfl⟩ rfl rfl

theorem withSession {T : Store} (hT : Carries S T) {sess : Session}
    (hsess : S.Tracked → sess.content.isSome) : Carries S (T.withSession sess) :=
  hT.of_insert ⟨rfl, rfl, rfl, rfl, rfl⟩ (Nat.le_succ _) rfl hsess

end Carries

variable [Digests]

/-! ## Digests of new and of grown sessions -/

/-- A text whose content is tracked gets a digest. -/
theorem trackText_content {recoveryTracking contentTracking : Bool} {text : Text}
    {digests : Option RecoveryDigest × Option ContentDigest}
    (h : trackText recoveryTracking contentTracking text = .ok digests) (hon : contentTracking = true) :
    ∃ d, ContentDigest.fromBytes (utf8 text) = .ok d ∧ digests.2 = some d := by
  subst hon
  unfold trackText at h
  cases hr : optionally recoveryTracking (RecoveryDigest.fromText text) with
  | error e =>
    rw [hr] at h
    cases h
  | ok recovery =>
    rw [hr] at h
    cases hc : ContentDigest.fromBytes (utf8 text) with
    | error e =>
      simp only [optionally, hc] at h
      cases h
    | ok d =>
      simp only [optionally, hc] at h
      cases h
      exact ⟨d, rfl, rfl⟩

/-- A session that had its digest still has it. -/
def KeepsDigest (s s' : Session) : Prop := s.content.isSome → s'.content.isSome

omit [Digests] in
theorem KeepsDigest.of_eq {s s' : Session} (h : s'.content = s.content) : KeepsDigest s s' := by
  intro hs
  rwa [h]

theorem wp_feedContent_digest (delta : Text) (w : Work) :
    wp (feedContent delta) (fun _ w' => KeepsDigest w.sess w'.sess)
      (fun _ w' => KeepsDigest w.sess w'.sess) w := by
  unfold feedContent
  simp only [wp_bind, wp_get]
  cases w.sess.content with
  | none => exact id
  | some d =>
    simp only [wp_zoomIn]
    unfold wp
    split <;> exact fun _ => rfl

theorem wp_settleAppend_digest (cfg : StoreConfig) (key : KeyCtx) (eng : Engine)
    (hB : 0 < cfg.blockChars) (path : String) (delta : Text) (w : Work) :
    wp (settleAppend cfg key eng path delta) (fun _ w' => KeepsDigest w.sess w'.sess)
      (fun _ w' => KeepsDigest w.sess w'.sess) w := by
  unfold settleAppend
  simp only [wp_bind, wp_runIf, countPath, wp_modify]
  have hfeed (w₁ : Work) (h₁ : w₁.sess.content = w.sess.content) :
      wp (feedRecovery delta)
        (fun _ w₂ => wp (feedContent delta) (fun _ w' => KeepsDigest w.sess w'.sess)
          (fun _ w' => KeepsDigest w.sess w'.sess) w₂)
        (fun _ w' => KeepsDigest w.sess w'.sess) w₁ := by
    refine wp_mono (wp_feedRecovery_frame delta w₁) ?_ ?_
    · rintro _ w₂ ⟨-, -, h₂⟩
      have hkeeps : KeepsDigest w.sess w₂.sess := .of_eq (h₂.trans h₁)
      refine wp_mono (wp_feedContent_digest delta w₂) ?_ ?_
      · intro _ w₃ h₃ hs
        exact h₃ (hkeeps hs)
      · intro _ w₃ h₃ hs
        exact h₃ (hkeeps hs)
    · rintro _ w₂ rfl
      exact .of_eq h₁
  constructor
  · intro _
    refine wp_mono (wp_postTextOps_frame cfg key eng hB w) ?_ ?_
    · rintro _ w₁ ⟨J, T, hreg⟩
      refine hfeed _ ?_
      exact hreg.ledger.content
    · intro _ w₁ hdist
      exact .of_eq hdist.ledger.content
  · intro _
    exact hfeed _ rfl

/-- An append keeps the digest on either exit. -/
theorem wp_appendSession_digest (cfg : StoreConfig) (key : KeyCtx) (eng : Engine)
    (hB : 0 < cfg.blockChars) (clock : ℕ) (delta : Text) (w : Work) :
    wp (appendSession cfg key eng clock delta) (fun _ w' => KeepsDigest w.sess w'.sess)
      (fun _ w' => KeepsDigest w.sess w'.sess) w := by
  obtain ⟨generation, snapshot, hopen⟩ := openAppend_eq w.sess clock delta
  unfold appendSession
  simp only [wp_bind, wp_get, wp_set, wp_fromExcept, wp_modify, appendOutcome, wp_throwIf, wp_pure]
  rw [hopen]
  refine ⟨?_, fun _ _ => id⟩
  intro _ _
  refine ⟨fun _ _ => ?_, fun _ _ => id⟩
  refine wp_mono (wp_settleAppend_digest cfg key eng hB _ delta _) ?_ ?_
  · intro _ w₁ h₁
    exact ⟨fun _ => h₁, fun _ => h₁⟩
  · intro _ w₁ h₁
    exact h₁

namespace Store

variable {S : Store}

/-! ## The calls -/

theorem wp_appendPatch_carries (handle : ℕ) (delta : Text) (rev : ℕ) (eng : Engine) :
    wp (appendPatch handle delta rev eng)
      (fun _ S' => Carries S S' ∧ (S.Tracked →
        ∃ s, S'.sessions.lookup handle = some s ∧ s.content.isSome))
      (fun _ S' => Carries S S') S := by
  refine wp_appendPatch S handle delta rev eng ?_ ?_
  · rintro e S' (rfl | rfl) _
    · exact .refl _
    · exact .of_sessions ⟨rfl, rfl, rfl, rfl, rfl⟩ rfl rfl
  · intro s key hpass
    have hput (w : Work) (hkeep : KeepsDigest s w.sess) :
        Carries S (S.tick.countExtend.putBack handle w) :=
      .of_update ⟨rfl, rfl, rfl, rfl, rfl⟩ rfl hpass.found rfl hkeep
    refine wp_mono (wp_appendSession_digest S.cfg key eng S.blockChars_pos (S.clock + 1) delta _) ?_ ?_
    · intro patch w hkeep
      refine ⟨hput w hkeep, fun ht => ⟨w.sess, lookup_putBack _ _ _, ?_⟩⟩
      exact hkeep (ht.live handle s hpass.found)
    · intro e w hkeep
      exact hput w hkeep

/-- An append of a tracked store leaves its session with a digest. -/
theorem wp_append_carries (handle : ℕ) (delta : Text) (rev : ℕ) (eng : Engine) :
    wp (append handle delta rev eng)
      (fun _ S' => Carries S S' ∧ (S.Tracked →
        ∃ s, S'.sessions.lookup handle = some s ∧ s.content.isSome))
      (fun _ S' => Carries S S') S := by
  unfold append
  rw [wp_bind]
  refine wp_mono (wp_appendPatch_carries handle delta rev eng) ?_ (fun _ _ h => h)
  intro patch S' h
  simp only [wp_bind, wp_session, wp_pure]
  exact ⟨fun _ _ => h, fun _ => h.1⟩

theorem wp_seedSession_digest (cfg : StoreConfig) (key : KeyCtx) (eng : Engine)
    (recoveryTracking : Bool) (runs : ℕ) (text : Text) (w : Work) :
    wp (seedSession cfg key eng recoveryTracking true runs text)
      (fun sess _ => sess.content.isSome) (fun _ _ => True) w := by
  unfold seedSession
  simp only [wp_bind, wp_runIf, wp_fromExcept, wp_get, wp_pure, implies_true, and_true]
  have htrack : ∀ digests, trackText recoveryTracking true text = .ok digests →
      digests.2.isSome = true := by
    intro digests hd
    obtain ⟨d, -, h⟩ := trackText_content hd rfl
    rw [h]
    rfl
  exact ⟨fun _ => wp_mono (wp_run _ _) (fun _ _ _ digests hd => htrack digests hd)
    (fun _ _ _ => trivial), fun _ digests hd => htrack digests hd⟩

/-- A session that was put has its digest, under a handle of its own. -/
theorem wp_put_carries (keyId : ℕ) (text : Text) (eng : Engine) :
    wp (put keyId text eng)
      (fun out S' => Carries S S' ∧ out.handle = S.nextHandle ∧ out.handle < S'.nextHandle ∧
        (S.Tracked → ∃ s, S'.sessions.lookup out.handle = some s ∧ s.content.isSome))
      (fun _ S' => Carries S S') S := by
  rw [wp_put]
  refine ⟨?_, fun _ => .refl S⟩
  intro key _
  have hstart (w : Work) : Carries S (S.putStart.putBackShared w) := by
    have hslot : Carries S S.tick.evictForCapacity := (Carries.tick S).evict
    exact hslot.trans (.of_sessions ⟨rfl, rfl, rfl, rfl, rfl⟩ rfl rfl)
  have hnext : S.putStart.nextHandle = S.nextHandle := by rw [putStart_eq]
  have hseed : wp (seedSession S.cfg key eng S.recoveryTracking S.contentTracking S.seedRuns text)
      (fun sess _ => S.contentTracking = true → sess.content.isSome) (fun _ _ => True)
      ⟨.fresh keyId eng.witnessCategory (S.clock + 1), S.nodes, S.putStart.stats⟩ := by
    cases hon : S.contentTracking with
    | false => exact wp_mono (wp_run _ _) (fun _ _ _ h => by cases h) (fun _ _ _ => trivial)
    | true =>
      exact wp_mono (wp_seedSession_digest S.cfg key eng S.recoveryTracking S.seedRuns text _)
        (fun _ _ h _ => h) (fun _ _ _ => trivial)
  refine wp_mono hseed ?_ ?_
  · intro sess w hsess
    refine ⟨(hstart w).withSession fun ht => hsess ht.on, rfl, ?_, fun ht => ⟨sess, ?_, hsess ht.on⟩⟩
    · exact hnext ▸ Nat.lt_succ_self _
    · rw [← hnext]
      exact AList.lookup_insert _
  · intro e w _
    exact hstart w

/-- A fork has the digest of its source. -/
theorem wp_fork_carries (handle : ℕ) :
    wp (fork handle) (fun forked S' => Carries S S' ∧ forked < S'.nextHandle)
      (fun _ S' => Carries S S') S := by
  refine wp_fork handle (fun _ => .tick S) ?_
  intro sess key hsess _
  have htouch : Carries S (S.tick.touched handle sess).countFork :=
    .of_update ⟨rfl, rfl, rfl, rfl, rfl⟩ rfl hsess rfl id
  have hnext : (S.forkStart handle sess).nextHandle = S.nextHandle := by rw [forkStart_eq]
  refine ⟨htouch.evict.withSession fun ht => ht.live handle sess hsess, ?_⟩
  exact hnext ▸ Nat.lt_succ_self _

omit [Digests] in
theorem wp_evict_carries (handle : ℕ) :
    wp (evict handle) (fun _ S' => Carries S S') (fun _ S' => Carries S S') S := by
  simp only [evict, wp_bind, wp_get, wp_set, wp_pure]
  refine .of_subset ⟨rfl, rfl, rfl, rfl, rfl⟩ le_rfl ?_
  intro k s hs
  exact (lookup_erase_eq_some.mp hs).2

omit [Digests] in
/-- The ids of a live session can be read. -/
theorem wp_readAllIds_carries (handle : ℕ) :
    wp (readAllIds handle) (fun _ S' => Carries S S')
      (fun _ S' => Carries S S' ∧ S.sessions.lookup handle = none) S := by
  simp only [readAllIds, wp_bind, wp_modify, wp_session, touch, wp_pure]
  refine ⟨?_, fun hnone => ⟨.tick S, hnone⟩⟩
  intro sess hsess
  exact .of_update ⟨rfl, rfl, rfl, rfl, rfl⟩ rfl hsess rfl id

theorem run_contentIndexEntry {handle : ℕ} {s : Session}
    (h : S.sessions.lookup handle = some s) :
    (contentIndexEntry handle).run S = .ok (s.content.map ContentDigest.entry) S := by
  simp only [contentIndexEntry, session, EStateM.run_bind, EStateM.run_get, h]
  rfl

/-! ## Imports -/

section Imports

variable (keyId : ℕ) (raw : List UInt8) (eng : Engine)

/-- The gates of an import refuse only what they would refuse in any store. -/
theorem wp_importRecordGates_refuses (key : KeyCtx) :
    wp (importRecordGates key raw eng) (fun _ _ => True)
      (fun _ _ => ∀ parsed sealedCount tail, ¬GatesOk key raw eng parsed sealedCount tail) S := by
  unfold importRecordGates
  simp only [wp_bind, wp_counted, wp_rejectUnless, wp_fromExcept, wp_pure]
  -- Each exit contradicts the field of the gates it is about.
  refine ⟨?_, fun e he parsed _ _ h => by cases he.symm.trans h.decoded⟩
  intro parsed hdec
  have hsame {parsed' sealedCount tail} (h : GatesOk key raw eng parsed' sealedCount tail) :
      parsed' = parsed := Except.ok.inj (h.decoded.symm.trans hdec)
  refine ⟨?_, fun hne parsed' _ _ h => hne (by rw [← hsame h]; exact h.fingerprint)⟩
  intro _
  refine ⟨?_, fun hne parsed' _ _ h => hne (by rw [← hsame h]; exact h.witness)⟩
  intro _
  refine ⟨?_, ?_⟩
  · intro enc henc
    have htail {parsed' sealedCount tail} (h : GatesOk key raw eng parsed' sealedCount tail) :
        sealedCount + enc.ids.length = parsed.ids.length ∧ parsed.ids.drop sealedCount = enc.ids ∧
          (sealedCount = 0 ↔ parsed.stablePrefixBytes = 0) ∧
          TailState.fill parsed.tailText enc = .ok tail := by
      obtain ⟨enc', henc', hfill⟩ := h.encoded
      rw [hsame h, henc] at henc'
      cases henc'
      have hids := (TailState.fill_ok hfill).2.1
      have hcount := h.count
      have hsuffix := h.suffix
      rw [TailState.nTokens, hids] at hcount
      rw [hids] at hsuffix
      rw [← hsame h]
      exact ⟨hcount, hsuffix, h.unsealed, hfill⟩
    refine ⟨?_, fun hlt parsed' n tail h => hlt (by have := (htail h).1; omega)⟩
    intro hle
    have hcount {parsed' n tail} (h : GatesOk key raw eng parsed' n tail) :
        n = parsed.ids.length - enc.ids.length := by
      have := (htail h).1
      omega
    refine ⟨?_, fun hne parsed' n tail h => hne (by rw [← hcount h]; exact (htail h).2.1)⟩
    intro _
    refine ⟨?_, fun hne parsed' n tail h => hne (by rw [← hcount h]; exact (htail h).2.2.1)⟩
    intro _
    refine ⟨fun _ _ => trivial, fun e he parsed' n tail h => ?_⟩
    cases he.symm.trans (htail h).2.2.2
  · intro e he parsed' n tail h
    obtain ⟨enc', henc', -⟩ := h.encoded
    rw [hsame h, he] at henc'
    cases henc'

/-- A bare record with nothing sealed gives back a row. -/
def BareReads (S : Store) (row : ContentIndexEntry) : Prop :=
  ∃ key parsed sealedCount tail digests d, S.keys[keyId]? = some key ∧
    GatesOk key raw eng parsed sealedCount tail ∧ S.trackUnsealed parsed = .ok digests ∧
    digests.2 = some d ∧ row = d.entry

/-- The record, the historical text and the binding belong together. -/
def BindingChecks (binding : RecoveryBindingV1) (parsed : SessionRecordV1) (text : Text)
    (recovery : RecoveryDigest) (content : ContentDigest) : Prop :=
  binding.recordHash = parsed.currBlockHash ∧ utf8Len text = binding.indexEntry.byteLength ∧
    utf8Len text = parsed.fullTextBytes ∧ parsed.tailText <:+ text ∧
    binding.textDigest = (recovery.material parsed.currBlockHash).textDigest ∧
    binding.indexEntry = content.entry

/-- A record, its binding and a candidate give back a text of some characters, and a row. -/
def BoundReads (S : Store) (candidate : Text) (bindingBytes : List UInt8) (chars : ℕ)
    (row : ContentIndexEntry) : Prop :=
  ∃ key parsed sealedCount tail binding text recovery content, S.keys[keyId]? = some key ∧
    RecoveryBindingV1.fromBytes bindingBytes = .ok binding ∧
    historicalPrefix candidate binding = .ok text ∧
    GatesOk key raw eng parsed sealedCount tail ∧ parsed.fullTextBytes < 2 ^ 64 ∧
    RecoveryDigest.fromText text = .ok recovery ∧
    ContentDigest.fromBytes (utf8 text) = .ok content ∧
    BindingChecks binding parsed text recovery content ∧ chars = text.length ∧ row = content.entry

variable {keyId raw eng}

theorem BareReads.congr {S' : Store} {row : ContentIndexEntry} (hset : SameSetUp S S')
    (h : BareReads keyId raw eng S row) : BareReads keyId raw eng S' row := by
  obtain ⟨key, parsed, n, tail, digests, d, hkey, hgates, htrack, hd, hrow⟩ := h
  refine ⟨key, parsed, n, tail, digests, d, ?_, hgates, ?_, hd, hrow⟩
  · rwa [hset.keys]
  · unfold trackUnsealed
    rw [hset.recoveryTracking, hset.contentTracking]
    exact htrack

theorem BareReads.unique {row row' : ContentIndexEntry} (h : BareReads keyId raw eng S row)
    (h' : BareReads keyId raw eng S row') : row = row' := by
  obtain ⟨_, parsed, _, _, digests, d, -, hgates, htrack, hd, rfl⟩ := h
  obtain ⟨_, parsed', _, _, digests', d', -, hgates', htrack', hd', rfl⟩ := h'
  cases hgates.decoded.symm.trans hgates'.decoded
  cases htrack.symm.trans htrack'
  cases hd.symm.trans hd'
  rfl

theorem BoundReads.congr {S' : Store} {candidate : Text} {bindingBytes : List UInt8} {chars : ℕ}
    {row : ContentIndexEntry} (hset : SameSetUp S S')
    (h : BoundReads keyId raw eng S candidate bindingBytes chars row) :
    BoundReads keyId raw eng S' candidate bindingBytes chars row := by
  obtain ⟨key, parsed, n, tail, binding, text, recovery, content, hkey, hrest⟩ := h
  refine ⟨key, parsed, n, tail, binding, text, recovery, content, ?_, hrest⟩
  rwa [hset.keys]

theorem BoundReads.unique {candidate : Text} {bindingBytes : List UInt8} {chars chars' : ℕ}
    {row row' : ContentIndexEntry} (h : BoundReads keyId raw eng S candidate bindingBytes chars row)
    (h' : BoundReads keyId raw eng S candidate bindingBytes chars' row') :
    chars = chars' ∧ row = row' := by
  obtain ⟨_, _, _, _, binding, text, _, content, -, hbind, htext, -, -, -, hcon, -, rfl, rfl⟩ := h
  obtain ⟨_, _, _, _, binding', text', _, content', -, hbind', htext', -, -, -, hcon', -, rfl,
    rfl⟩ := h'
  cases hbind.symm.trans hbind'
  cases htext.symm.trans htext'
  cases hcon.symm.trans hcon'
  exact ⟨rfl, rfl⟩

variable (keyId raw eng)

omit [Digests] in
/-- The store that an import leaves. -/
theorem carries_imported {sess : Session} (hsess : S.Tracked → sess.content.isSome) :
    Carries S (S.tick.evictForCapacity.withSession sess) :=
  (Carries.tick S).evict.withSession hsess

/-- The import of a record with nothing sealed succeeds exactly when it reads something back. -/
theorem wp_importSession_reads (sealedText : Text)
    (hzero : ∀ view, SessionRecordV1.fromBytes raw = .ok view → view.stablePrefixBytes = 0) :
    wp (importSession keyId raw eng sealedText)
      (fun handle S' => (Carries S S' ∧ handle < S'.nextHandle) ∧
        (S.Tracked → ∃ row s, BareReads keyId raw eng S row ∧
          S'.sessions.lookup handle = some s ∧ s.content.map ContentDigest.entry = some row))
      (fun _ S' => Carries S S' ∧ ∀ row, ¬BareReads keyId raw eng S row) S := by
  unfold importSession
  rw [wp_bind, wp_keyCtx]
  constructor
  · intro key hkey
    have hkeyed {row : ContentIndexEntry} (h : BareReads keyId raw eng S row) :
        ∃ parsed n tail digests, GatesOk key raw eng parsed n tail ∧
          S.trackUnsealed parsed = .ok digests := by
      obtain ⟨key', parsed, n, tail, digests, d, hkey', hgates, htrack, -⟩ := h
      cases hkey.symm.trans hkey'
      exact ⟨parsed, n, tail, digests, hgates, htrack⟩
    rw [wp_bind]
    refine wp_mono (wp_and (wp_importRecordGates key raw eng)
      (wp_importRecordGates_refuses raw eng key)) ?_ ?_
    · rintro ⟨parsed, sealedCount, tail⟩ S' ⟨⟨hS', hgates⟩, -⟩
      rw [hS']
      simp only [wp_bind, wp_get, wp_fromExcept, wp_modify, wp_insertSession]
      constructor
      · intro digests htrack
        have hcontent (ht : S.Tracked) : ∃ d, digests.2 = some d := by
          have hon := ht.on
          have hstable : parsed.stablePrefixBytes = 0 := hzero parsed hgates.decoded
          unfold trackUnsealed at htrack
          rw [hstable, hon] at htrack
          obtain ⟨d, -, hd⟩ := trackText_content htrack (by simp)
          exact ⟨d, hd⟩
        refine ⟨⟨carries_imported fun ht => ?_, Nat.lt_succ_self _⟩, fun ht => ?_⟩
        · obtain ⟨d, hd⟩ := hcontent ht
          simp only [detachedImportSession, hd, Option.isSome_some]
        · obtain ⟨d, hd⟩ := hcontent ht
          refine ⟨d.entry, _, ⟨key, parsed, sealedCount, tail, digests, d, hkey, hgates, htrack, hd,
            rfl⟩, AList.lookup_insert _, ?_⟩
          simp only [detachedImportSession, hd, Option.map_some]
      · intro e htrack
        refine ⟨.refl _, fun row h => ?_⟩
        obtain ⟨parsed', _, _, digests, hgates', htrack'⟩ := hkeyed h
        cases hgates.decoded.symm.trans hgates'.decoded
        cases htrack.symm.trans htrack'
    · rintro e S' ⟨hS', hrefuses⟩
      refine ⟨?_, fun row h => ?_⟩
      · rcases hS' with rfl | rfl
        · exact .refl _
        · exact .of_sessions ⟨rfl, rfl, rfl, rfl, rfl⟩ rfl rfl
      · obtain ⟨parsed, n, tail, digests, hgates, -⟩ := hkeyed h
        exact hrefuses parsed n tail hgates
  · intro hnone
    refine ⟨.refl _, fun row h => ?_⟩
    obtain ⟨key, _, _, _, _, _, hkey, -⟩ := h
    cases hnone.symm.trans hkey

/-- The import of a bound record succeeds exactly when it reads something back. -/
theorem wp_importBound_reads (candidate : Text) (bindingBytes : List UInt8) :
    wp (importSessionWithBindingCandidate keyId raw candidate bindingBytes eng)
      (fun out S' => (Carries S S' ∧ out.1 < S'.nextHandle) ∧ (S.Tracked → ∃ row s,
        BoundReads keyId raw eng S candidate bindingBytes out.2 row ∧
        S'.sessions.lookup out.1 = some s ∧ s.content.map ContentDigest.entry = some row))
      (fun _ S' => Carries S S' ∧
        ∀ chars row, ¬BoundReads keyId raw eng S candidate bindingBytes chars row) S := by
  unfold importSessionWithBindingCandidate importSessionWithBinding
  simp only [wp_bind, wp_fromExcept, wp_pure, wp_keyCtx]
  refine ⟨fun binding hbind => ⟨fun text htext => ⟨fun key hkey => ?_, fun hnone => ?_⟩,
    fun e he => ?_⟩, fun e he => ?_⟩
  · -- The key, the binding and the historical text are there; the gates and the checks follow.
    have hfacts {chars : ℕ} {row : ContentIndexEntry}
        (h : BoundReads keyId raw eng S candidate bindingBytes chars row) :
        ∃ parsed n tail recovery content, GatesOk key raw eng parsed n tail ∧
          parsed.fullTextBytes < 2 ^ 64 ∧ RecoveryDigest.fromText text = .ok recovery ∧
          ContentDigest.fromBytes (utf8 text) = .ok content ∧
          BindingChecks binding parsed text recovery content := by
      obtain ⟨key', parsed, n, tail, binding', text', recovery, content, hkey', hbind', htext',
        hgates, hfull, hrec, hcon, hchecks, -⟩ := h
      cases hkey.symm.trans hkey'
      cases hbind.symm.trans hbind'
      cases htext.symm.trans htext'
      exact ⟨parsed, n, tail, recovery, content, hgates, hfull, hrec, hcon, hchecks⟩
    refine wp_mono (wp_and (wp_importRecordGates key raw eng)
      (wp_importRecordGates_refuses raw eng key)) ?_ ?_
    · rintro ⟨parsed, sealedCount, tail⟩ S' ⟨⟨hS', hgates⟩, -⟩
      rw [hS']
      have hparsed {chars : ℕ} {row : ContentIndexEntry}
          (h : BoundReads keyId raw eng S candidate bindingBytes chars row) :
          ∃ recovery content, parsed.fullTextBytes < 2 ^ 64 ∧
            RecoveryDigest.fromText text = .ok recovery ∧
            ContentDigest.fromBytes (utf8 text) = .ok content ∧
            BindingChecks binding parsed text recovery content := by
        obtain ⟨parsed', _, _, recovery, content, hgates', hrest⟩ := hfacts h
        cases hgates.decoded.symm.trans hgates'.decoded
        exact ⟨recovery, content, hrest⟩
      simp only [wp_get, wp_modify, wp_throwIf, wp_rejectUnless, wp_counted, wp_insertSession]
      refine ⟨fun binding' hbind' => ?_, fun e he => by cases hbind.symm.trans he⟩
      cases hbind.symm.trans hbind'
      refine ⟨fun hlt => ?_, fun hfull => ⟨fun recovery hrec => ⟨fun content hcon => ⟨?_, ?_⟩, ?_⟩, ?_⟩⟩
      · refine ⟨.refl _, fun chars row h => ?_⟩
        obtain ⟨_, _, hfull, -⟩ := hparsed h
        omega
      · intro hchecks
        have hon (ht : S.Tracked) : S.tick.evictForCapacity.contentTracking = true :=
          (Carries.tick S).evict.contentTracking.trans ht.on
        refine ⟨⟨carries_imported fun ht => ?_, Nat.lt_succ_self _⟩, fun ht => ⟨content.entry, _, ⟨key, parsed, sealedCount,
          tail, binding, text, recovery, content, hkey, hbind, htext, hgates, by omega, hrec, hcon,
          hchecks, rfl, rfl⟩, AList.lookup_insert _, ?_⟩⟩
        · simp only [detachedImportSession, hon ht, if_true, Option.isSome_some]
        · simp only [detachedImportSession, hon ht, if_true, Option.map_some]
      · intro hne
        refine ⟨.of_sessions ⟨rfl, rfl, rfl, rfl, rfl⟩ rfl rfl, fun chars row h => ?_⟩
        obtain ⟨recovery', content', -, hrec', hcon', hchecks⟩ := hparsed h
        cases hrec.symm.trans hrec'
        cases hcon.symm.trans hcon'
        exact hne hchecks
      · intro e he
        refine ⟨.refl _, fun chars row h => ?_⟩
        obtain ⟨_, _, -, -, hcon, -⟩ := hparsed h
        cases he.symm.trans hcon
      · intro e he
        refine ⟨.refl _, fun chars row h => ?_⟩
        obtain ⟨_, _, -, hrec, -⟩ := hparsed h
        cases he.symm.trans hrec
    · rintro e S' ⟨hS', hrefuses⟩
      refine ⟨?_, fun chars row h => ?_⟩
      · rcases hS' with rfl | rfl
        · exact .refl _
        · exact .of_sessions ⟨rfl, rfl, rfl, rfl, rfl⟩ rfl rfl
      · obtain ⟨parsed, n, tail, -, -, hgates, -⟩ := hfacts h
        exact hrefuses parsed n tail hgates
  · refine ⟨.refl _, fun chars row h => ?_⟩
    obtain ⟨key, _, _, _, _, _, _, _, hkey, -⟩ := h
    cases hnone.symm.trans hkey
  · refine ⟨.refl _, fun chars row h => ?_⟩
    obtain ⟨_, _, _, _, binding', _, _, _, -, hbind', htext, -⟩ := h
    cases hbind.symm.trans hbind'
    cases he.symm.trans htext
  · refine ⟨.refl _, fun chars row h => ?_⟩
    obtain ⟨_, _, _, _, _, _, _, _, -, hbind, -⟩ := h
    cases he.symm.trans hbind

end Imports

end Store

end Toktier.StoreCore
