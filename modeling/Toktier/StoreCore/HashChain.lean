import Toktier.StoreCore.AppendAtomic
import Toktier.StoreCore.Runs

/-!
# The hash chain of a session

Every revision of a session is bound by a link hash over its contents and the hash of the
revision before. The store keeps the payload state of the sealed stream and completes it
with the tail, so the hash is right only as long as the two go together and nothing
changes the contents without committing.

## Main definitions

* `HashOk`: the hash state of a session is that of its contents.
* `Succeeds`: a session at the same revision of a lineage, or at the next one.
* `HashSafe`: the condition on a call under which it keeps the chain.

## Main results

* `commitHash_eq`: the link hash the store commits is the one of the exported record.
* `hash_chain_invariant`: the chain along runs.
-/
namespace Toktier.StoreCore

open Toktier.Lib

section Committed

variable [Digests]

/-- The payload state, completed with the tail, is the digest of the whole stream. -/
theorem Session.PayloadFed.digest_eq {s : Session} (h : s.PayloadFed) :
    s.sealedPayload.digestWithTail s.tail.ids (utf8 s.tail.text) =
      payloadDigestParts [s.allIds] (utf8 s.tail.text) := by
  rw [h, PayloadHasher.digestWithTail_new, payloadDigestParts_pair]
  rfl

omit [Digests] in
theorem leBytes_toNat_ofNat (n : ℕ) : leBytes 8 (UInt64.ofNat n).toNat = leBytes 8 n := by
  have hmod := leBytes_mod 8 n
  rwa [UInt64.toNat_ofNat']

/-- The link hash the store commits is the one the exported record computes. -/
theorem commitHash_eq {s : Session} (h : s.PayloadFed) (fingerprint : SemanticFingerprint) :
    s.commitHash fingerprint = (s.record fingerprint).computeCurr := by
  have hfull : leBytes 8 (s.record fingerprint).fullTextBytes =
      leBytes 8 (s.safeByte + s.tail.textBytes) := by
    rw [← leBytes_mod 8 (s.safeByte + s.tail.textBytes), ← leBytes_mod 8 (s.record _).fullTextBytes]
    simp only [SessionRecordV1.fullTextBytes, Session.record, UInt64.toNat_ofNat', TailState.textBytes]
    rw [show (256 : ℕ) ^ 8 = 2 ^ 64 by norm_num, Nat.mod_add_mod]
  have hcount : s.allIds.length = s.tokenCount := s.length_allIds
  simp only [Session.commitHash, SessionRecordV1.computeCurr, linkHash, SessionRecordV1.linkInputs,
    hfull, h.digest_eq]
  simp only [Session.record, leBytes_toNat_ofNat, hcount]
  rfl

/-- The hash state of a session is that of its contents. -/
structure HashOk (keys : List KeyCtx) (s : Session) : Prop where
  payload : s.PayloadFed
  committed : ∃ key, keys[s.keyId]? = some key ∧ s.recordHash = s.commitHash key.fingerprint
  genesis : s.revision = 0 ↔ s.prevRecordHash = ZERO_HASH

/-- The session is at the same revision of its lineage, or at the next one. -/
def Succeeds (s s' : Session) : Prop :=
  (s'.revision = s.revision ∧ s'.recordHash = s.recordHash ∧
    s'.prevRecordHash = s.prevRecordHash) ∨
  (s'.revision = s.revision + 1 ∧ s'.prevRecordHash = s.recordHash)

/-- A move that keeps the chain. -/
def HashMove (keys : List KeyCtx) (s s' : Session) : Prop :=
  Succeeds s s' ∧ (s.recordHash ≠ ZERO_HASH → HashOk keys s → HashOk keys s')

theorem HashMove.refl (keys : List KeyCtx) (s : Session) : HashMove keys s s :=
  ⟨.inl ⟨rfl, rfl, rfl⟩, fun _ h => h⟩

/-- A move that leaves everything a hash is taken of. -/
theorem HashMove.of_same {keys : List KeyCtx} {s s' : Session} (hk : s'.keyId = s.keyId)
    (hr : s'.revision = s.revision) (hh : s'.recordHash = s.recordHash)
    (hp : s'.prevRecordHash = s.prevRecordHash) (hpay : s.PayloadFed → s'.PayloadFed)
    (hc : ∀ fingerprint, s'.commitHash fingerprint = s.commitHash fingerprint) :
    HashMove keys s s' := by
  refine ⟨.inl ⟨hr, hh, hp⟩, ?_⟩
  intro _ hs
  refine ⟨hpay hs.payload, ?_, ?_⟩
  · obtain ⟨key, hkey, hcommit⟩ := hs.committed
    exact ⟨key, by rwa [hk], by rw [hh, hc, hcommit]⟩
  · rw [hr, hp]
    exact hs.genesis

/-- Nothing a hash is taken of has changed. -/
theorem HashMove.of_tailKept {keys : List KeyCtx} {s : Session} {clock : ℕ} {delta : Text}
    {tail : TailState} (h : TailKept s.tail tail) :
    HashMove keys s { s.openAppend clock delta with tail := tail } := by
  obtain ⟨generation, snapshot, hopen⟩ := openAppend_eq s clock delta
  rw [hopen]
  refine .of_same rfl rfl rfl rfl id ?_
  intro fingerprint
  simp only [Session.commitHash, Session.tokenCount, Session.recordedReplaceOffset,
    TailState.textBytes, TailState.nTokens, h.1, h.2]

/-! ## One append -/

section Append

variable (cfg : StoreConfig) (key : KeyCtx) (eng : Engine)

/-- An append that returns commits the next revision over the old record. -/
theorem wp_appendSession_hash (hB : 0 < cfg.blockChars) (clock : ℕ) (delta : Text) (w : Work)
    {keys : List KeyCtx} (hkey : keys[w.sess.keyId]? = some key) :
    wp (appendSession cfg key eng clock delta) (fun _ w' => HashMove keys w.sess w'.sess)
      (fun _ _ => True) w := by
  unfold appendSession
  simp only [wp_bind, wp_get, wp_set, wp_fromExcept]
  refine ⟨?_, fun _ _ => trivial⟩
  rintro ⟨path, kept⟩ -
  refine ⟨fun _ _ => ?_, fun _ _ => trivial⟩
  refine wp_mono (wp_settleAppend cfg key eng hB path delta _) ?_ (fun _ _ _ => trivial)
  rintro _ w₂ ⟨s₁, J, T, hreg, hdig⟩
  simp only [wp_modify, appendOutcome, wp_bind, wp_get, wp_throwIf, wp_pure]
  refine ⟨fun _ => trivial, fun _ => ?_⟩
  have hledger := hreg.ledger
  have hrev : w₂.sess.revision = w.sess.revision ∧ w₂.sess.recordHash = w.sess.recordHash ∧
      w₂.sess.keyId = w.sess.keyId := by
    rw [hdig]
    refine ⟨hledger.revision.trans ?_, hledger.recordHash.trans ?_, hledger.keyId.trans ?_⟩ <;>
    · unfold Session.openAppend
      split <;> rfl
  refine ⟨.inr ⟨by rw [← hrev.1]; rfl, by rw [← hrev.2.1]; rfl⟩, ?_⟩
  intro hzero hs
  refine ⟨?_, ⟨key, ?_, rfl⟩, ?_⟩
  · have hfed : s₁.PayloadFed := by
      apply hreg.payloadFed
      have hpay := hs.payload
      unfold Session.openAppend
      split <;> exact hpay
    rw [hdig]
    exact hfed
  · rw [← hrev.2.2] at hkey
    exact hkey
  · refine iff_of_false (Nat.succ_ne_zero _) ?_
    rw [← hrev.2.1] at hzero
    exact hzero

end Append

/-! ## New sessions -/

section New

variable {keys : List KeyCtx}

theorem wp_seedSession_hash {cfg : StoreConfig} {key : KeyCtx} (eng : Engine)
    (hB : 0 < cfg.blockChars) (recoveryTracking contentTracking : Bool) (runs : ℕ) (text : Text)
    {w : Work} (hkey : keys[w.sess.keyId]? = some key) (hfed : w.sess.PayloadFed)
    (hgen : w.sess.revision = 0 ∧ w.sess.prevRecordHash = ZERO_HASH) :
    wp (seedSession cfg key eng recoveryTracking contentTracking runs text)
      (fun sess _ => HashOk keys sess) (fun _ _ => True) w := by
  unfold seedSession
  simp only [wp_bind, wp_runIf, wp_fromExcept, wp_get, wp_pure, implies_true, and_true]
  have hdone (w₁ : Work) (hledger : SameLedger w.sess w₁.sess) (hpay : w₁.sess.PayloadFed)
      (recovery : Option RecoveryDigest) (content : Option ContentDigest) :
      HashOk keys { w₁.sess with
        recovery, content
        recordHash := ({ w₁.sess with recovery, content } : Session).commitHash
          key.fingerprint } := by
    refine ⟨hpay, ⟨key, ?_, rfl⟩, ?_⟩
    · rw [← hledger.keyId] at hkey
      exact hkey
    · exact iff_of_true (hledger.revision.trans hgen.1) (hledger.prevRecordHash.trans hgen.2)
  constructor
  · intro _
    refine wp_mono (wp_seedText_frame cfg key eng hB runs text w) ?_ (fun _ _ _ => trivial)
    rintro _ w₁ ⟨tail, J, T, hreg⟩ digests _
    have hgrown : SameLedger w.sess { w.sess with tail := tail } := rfl
    exact hdone w₁ (hgrown.trans hreg.ledger) (hreg.payloadFed hfed) _ _
  · intro _ digests _
    exact hdone w (.refl _) hfed _ _

theorem hashOk_adoptedSession {keyId : ℕ} {key : KeyCtx} (hkey : keys[keyId]? = some key)
    (witness : WitnessCategory) (clock : ℕ) (wk : Walk) (deepKey : BlockHash)
    (deep : NodeCacheRecord) (tail : TailState) (query : Text) (recovery : Option RecoveryDigest)
    (content : Option ContentDigest) {sess : Session}
    (hsess : sess = { adoptedSession keyId witness clock wk deepKey deep tail query with
      recovery := recovery, content := content }) :
    HashOk keys { sess with recordHash := sess.commitHash key.fingerprint } := by
  subst hsess
  refine ⟨?_, ⟨key, hkey, rfl⟩, iff_of_true rfl rfl⟩
  simp [Session.PayloadFed, adoptedSession]

theorem hashOk_forkOf {sess : Session} {key : KeyCtx} (hkey : keys[sess.keyId]? = some key)
    (hfed : sess.PayloadFed) (clock : ℕ) : HashOk keys (Store.forkOf sess key clock) :=
  ⟨hfed, ⟨key, hkey, rfl⟩, iff_of_true rfl rfl⟩

/-- A decoded record is the record of the session it is imported as, once the offset the
session keeps is the record's. -/
theorem hashOk_import {keyId : ℕ} {key : KeyCtx} {recBytes : List UInt8} {eng : Engine}
    {parsed : SessionRecordV1} {sealedCount : ℕ} {tail : TailState} {sess : Session}
    (hkey : keys[keyId]? = some key)
    (hgates : Store.GatesOk key recBytes eng parsed sealedCount tail) (hid : sess.keyId = keyId)
    (hwit : sess.witness = parsed.witness) (hrev : sess.revision = parsed.revision.toNat)
    (hprev : sess.prevRecordHash = parsed.prevBlockHash)
    (hcurr : sess.recordHash = parsed.currBlockHash)
    (hoff : parsed.witness ≠ .NoneFullReencode →
      sess.lastReplaceFrom = parsed.replaceTokenOffset.toNat)
    (hsafe : sess.safeByte = parsed.stablePrefixBytes.toNat) (htail : sess.tail = tail)
    (hsealed : sess.sealedIds = .fromVec (parsed.ids.take sealedCount))
    (hpay : sess.sealedPayload = PayloadHasher.new.updateIds (parsed.ids.take sealedCount)) :
    HashOk keys sess := by
  obtain ⟨hwritable, hself⟩ :=
    SessionRecordV1.writable_of_decode (SessionRecordV1.fromBytes_eq_ok.mp hgates.decoded)
  have hfed : sess.PayloadFed := by
    rw [Session.PayloadFed, hpay, hsealed, SealedIds.ids_fromVec]
  obtain ⟨enc, -, hfill⟩ := hgates.encoded
  have hoffset : UInt64.ofNat sess.recordedReplaceOffset = parsed.replaceTokenOffset := by
    unfold Session.recordedReplaceOffset
    by_cases hnone : parsed.witness = .NoneFullReencode
    · rw [if_pos (hwit.trans hnone), (hwritable.uncertified hnone).2]
      rfl
    · rw [if_neg (by rwa [hwit]), hoff hnone, UInt64.ofNat_toNat]
  have hids : sess.allIds = parsed.ids := by
    rw [Session.allIds_eq, hsealed, SealedIds.ids_fromVec, htail, ← hgates.suffix,
      List.take_append_drop]
  have hrecord : sess.record key.fingerprint = parsed := by
    simp only [Session.record, hwit, hrev, hprev, hcurr, hsafe, hoffset, hids, htail,
      (TailState.fill_ok hfill).1, UInt64.ofNat_toNat, ← hgates.fingerprint]
  refine ⟨hfed, ⟨key, by rwa [hid], ?_⟩, ?_⟩
  · rw [commitHash_eq hfed, hrecord, hcurr, hself]
  · rw [hrev, hprev, ← hwritable.genesis]
    exact SessionRecordV1.toNat_eq_zero _

end New

/-! ## The calls -/

/-- A call keeps the chain: an append does not fail after it has changed its session, and
a sidecar carries the replace offset of its record. -/
def HashSafe (S : Store) : Call → Prop
  | .append handle delta rev eng => AppendSafe S handle delta rev eng
  | .appendPatch handle delta rev eng => AppendSafe S handle delta rev eng
  | .importWithSidecar _ recBytes sidecarBytes _ _ => ∀ parsed sc,
      SessionRecordV1.fromBytes recBytes = .ok parsed → SessionSidecar.fromBytes sidecarBytes = .ok sc →
        parsed.witness ≠ .NoneFullReencode →
          sc.lastReplaceFrom = parsed.replaceTokenOffset.toNat
  | _ => True

variable {S : Store}

/-- How the calls of a run move the sessions, as far as their hashes go. -/
def HashMoves (S S' : Store) : Prop := Moves (HashMove S.keys) (HashOk S.keys) S S'

theorem HashMoves.of_subset {S' : Store} (hk : S'.keys = S.keys) (hn : S'.nextHandle = S.nextHandle)
    (hs : ∀ h s, S'.sessions.lookup h = some s → S.sessions.lookup h = some s) : HashMoves S S' :=
  Moves.of_subset (.refl S.keys) (fun i key h => by rwa [hk]) hn hs

theorem HashMoves.of_sessions {S' : Store} (hk : S'.keys = S.keys)
    (hn : S'.nextHandle = S.nextHandle) (hs : S'.sessions = S.sessions) : HashMoves S S' :=
  .of_subset hk hn fun h s h' => by rwa [hs] at h'

/-- A slot was made, and a session whose hash state is right was put there. -/
theorem HashMoves.of_created {T : Store} {sess : Session} (hT : HashMoves S T)
    (hn : T.nextHandle = S.nextHandle) (hnew : HashOk S.keys sess) :
    HashMoves S (T.withSession sess) :=
  Moves.withSession hT hn hnew

theorem HashMoves.of_touched {handle : ℕ} {sess : Session}
    (hfound : S.sessions.lookup handle = some sess) :
    HashMoves S (S.tick.touched handle sess) := by
  have hmove : HashMove S.keys sess { sess with lastUsed := S.clock + 1 } :=
    .of_same rfl rfl rfl rfl id fun _ => rfl
  exact Moves.of_insert (.refl S.keys) hfound hmove rfl rfl rfl

theorem HashMoves.evict {T : Store} (hT : HashMoves S T) : HashMoves S T.evictForCapacity where
  keys i key h := by
    rw [Store.keys_evictForCapacity]
    exact hT.keys i key h
  next := by
    rw [Store.nextHandle_evictForCapacity]
    exact hT.next
  live := by
    intro h s' hs'
    rw [Store.nextHandle_evictForCapacity]
    exact hT.live h s' (Store.lookup_of_evictForCapacity hs')

/-- The slot made on the way to a new session. -/
theorem hashMoves_evict (S : Store) : HashMoves S S.tick.evictForCapacity :=
  HashMoves.evict (T := S.tick) (.of_sessions rfl rfl rfl)

namespace Store

theorem wp_appendPatch_hash {handle rev : ℕ} {delta : Text} {eng : Engine}
    (hsafe : AppendSafe S handle delta rev eng) :
    wp (appendPatch handle delta rev eng) (fun _ S' => HashMoves S S')
      (fun _ S' => HashMoves S S') S := by
  refine wp_appendPatch S handle delta rev eng ?_ ?_
  · rintro e S' (rfl | rfl) _
    · exact .of_sessions rfl rfl rfl
    · exact .of_sessions rfl rfl rfl
  · intro s key hpass
    have hmove := wp_and (wp_appendSession_hash S.cfg key eng S.blockChars_pos (S.clock + 1) delta
      ⟨s, S.nodes, S.tick.countExtend.stats⟩ hpass.keyed) (wp_run _ _)
    refine wp_mono hmove ?_ ?_
    · rintro patch w' ⟨hw', -⟩
      exact Moves.of_insert (.refl S.keys) hpass.found hw' rfl rfl rfl
    · rintro e w' ⟨-, hrun⟩
      obtain ⟨tail, ⟨hids, htext⟩, hw'⟩ := appendSession_safe_error S.blockChars_pos
        (hsafe.imp_right fun h => h s key hpass) hrun
      refine Moves.of_insert (.refl S.keys) hpass.found ?_ rfl rfl rfl
      rw [hw']
      exact .of_tailKept ⟨hids, htext⟩

theorem wp_append_hash {handle rev : ℕ} {delta : Text} {eng : Engine}
    (hsafe : AppendSafe S handle delta rev eng) :
    wp (append handle delta rev eng) (fun _ S' => HashMoves S S') (fun _ S' => HashMoves S S') S := by
  unfold append
  simp only [wp_bind]
  refine wp_mono (wp_appendPatch_hash hsafe) ?_ (fun _ _ h => h)
  intro patch S' hmoves
  simp only [wp_session, wp_pure]
  exact ⟨fun _ _ => hmoves, fun _ => hmoves⟩

theorem wp_put_hash (keyId : ℕ) (text : Text) (eng : Engine) :
    wp (put keyId text eng) (fun _ S' => HashMoves S S') (fun _ S' => HashMoves S S') S := by
  rw [wp_put]
  refine ⟨?_, fun _ => .of_sessions rfl rfl rfl⟩
  intro key hkey
  have hslot (w : Work) : HashMoves S (S.putStart.putBackShared w) := by
    have hevict := hashMoves_evict S
    exact ⟨hevict.keys, hevict.next, hevict.live⟩
  have hseed : wp (seedSession S.cfg key eng S.recoveryTracking S.contentTracking S.seedRuns text)
      (fun sess _ => HashOk S.keys sess) (fun _ _ => True)
      ⟨.fresh keyId eng.witnessCategory (S.clock + 1), S.nodes, S.putStart.stats⟩ :=
    wp_seedSession_hash eng S.blockChars_pos _ _ _ _ hkey rfl ⟨rfl, rfl⟩
  refine wp_mono (wp_and hseed (wp_run _ _)) ?_ ?_
  · rintro sess w ⟨hsess, -⟩
    exact (hslot w).of_created (nextHandle_evictForCapacity S.tick) hsess
  · intro e w _
    exact hslot w

theorem wp_lookup_hash (keyId : ℕ) (text : Text) (eng : Engine) :
    wp (lookup keyId text eng) (fun _ S' => HashMoves S S') (fun _ S' => HashMoves S S') S := by
  refine wp_lookup keyId text eng (fun _ => .of_sessions rfl rfl rfl) ?_ ?_
  · intro S' hsame
    rw [hsame]
    exact .of_sessions rfl rfl rfl
  · intro key wk deepKey deep S' hkey _ _ hsame
    have htick : HashMoves S S'.tick := by
      rw [hsame]
      exact .of_sessions rfl rfl rfl
    have hslot : HashMoves S S'.adoptStart := htick.evict
    have hnext : S'.adoptStart.nextHandle = S.nextHandle := by
      rw [adoptStart_eq, hsame]
    have hearly : HashMoves S S' := by
      rw [hsame]
      exact .of_sessions rfl rfl rfl
    refine wp_adopt keyId key text eng wk deepKey deep (fun _ _ => hearly) ?_
    intro enc _
    refine ⟨fun _ _ => hearly, ?_⟩
    intro tail _
    refine ⟨fun _ => hslot, fun _ => ⟨fun _ _ => hslot, ?_⟩⟩
    intro digests _ sess hsess
    have hcreated := hslot.of_created hnext (hashOk_adoptedSession hkey _ _ _ _ _ _ _ _ _ hsess)
    exact ⟨hcreated.keys, hcreated.next, hcreated.live⟩

theorem wp_fork_hash (handle : ℕ)
    (hok : ∀ sess, S.sessions.lookup handle = some sess → sess.PayloadFed) :
    wp (fork handle) (fun _ S' => HashMoves S S') (fun _ S' => HashMoves S S') S := by
  refine wp_fork handle (fun _ => .of_sessions rfl rfl rfl) ?_
  intro sess key hsess hkey
  have htouch : HashMoves S (S.tick.touched handle sess).countFork :=
    ⟨(HashMoves.of_touched hsess).keys, (HashMoves.of_touched hsess).next,
      (HashMoves.of_touched hsess).live⟩
  have hslot : HashMoves S (S.forkStart handle sess) := htouch.evict
  exact hslot.of_created (nextHandle_evictForCapacity _) (hashOk_forkOf hkey (hok sess hsess) _)

section Imports

variable (keyId : ℕ) (recBytes : List UInt8) (eng : Engine)

/-- The slot an import makes, and the session it puts there. -/
theorem hashMoves_import {key : KeyCtx} {parsed : SessionRecordV1} {sealedCount : ℕ}
    {tail : TailState} (hkey : S.keys[keyId]? = some key)
    (hgates : GatesOk key recBytes eng parsed sealedCount tail) (clock : ℕ)
    (recovery : Option RecoveryDigest) (content : Option ContentDigest) (sealedText : Text) :
    HashMoves S (S.tick.evictForCapacity.withSession
      (detachedImportSession keyId parsed sealedCount tail clock recovery content sealedText)) :=
  (hashMoves_evict S).of_created (nextHandle_evictForCapacity S.tick)
    (hashOk_import hkey hgates rfl rfl rfl rfl rfl (fun _ => rfl) rfl rfl rfl rfl)

theorem hashMoves_countReject (S : Store) : HashMoves S S.countReject := .of_sessions rfl rfl rfl

/-- The gates of an import move nothing; what follows may rely on them. -/
theorem wp_gates_hash {α : Type} {key : KeyCtx}
    {f : SessionRecordV1 × ℕ × TailState → Fallible Store StoreError α}
    (h : ∀ parsed sealedCount tail, GatesOk key recBytes eng parsed sealedCount tail →
      wp (f (parsed, sealedCount, tail)) (fun _ S' => HashMoves S S') (fun _ S' => HashMoves S S') S) :
    wp (importRecordGates key recBytes eng >>= f) (fun _ S' => HashMoves S S')
      (fun _ S' => HashMoves S S') S := by
  rw [wp_bind]
  refine wp_mono (wp_importRecordGates key recBytes eng) ?_ ?_
  · rintro ⟨parsed, sealedCount, tail⟩ S' ⟨rfl, hgates⟩
    exact h parsed sealedCount tail hgates
  · rintro e S' (rfl | rfl)
    · exact .of_sessions rfl rfl rfl
    · exact hashMoves_countReject S

theorem wp_importSession_hash (sealedText : Text) :
    wp (importSession keyId recBytes eng sealedText) (fun _ S' => HashMoves S S')
      (fun _ S' => HashMoves S S') S := by
  unfold importSession
  rw [wp_bind, wp_keyCtx]
  refine ⟨?_, fun _ => .of_sessions rfl rfl rfl⟩
  intro key hkey
  refine wp_gates_hash recBytes eng ?_
  intro parsed sealedCount tail hgates
  simp only [wp_bind, wp_get, wp_fromExcept, wp_modify, wp_insertSession]
  refine ⟨?_, fun _ _ => .of_sessions rfl rfl rfl⟩
  intro digests _
  exact hashMoves_import keyId recBytes eng hkey hgates _ _ _ _

theorem wp_importSessionWithRecovery_hash (historicalText : Text) (expected : RecoveryMaterial) :
    wp (importSessionWithRecovery keyId recBytes historicalText expected eng)
      (fun _ S' => HashMoves S S') (fun _ S' => HashMoves S S') S := by
  unfold importSessionWithRecovery
  rw [wp_bind, wp_keyCtx]
  refine ⟨?_, fun _ => .of_sessions rfl rfl rfl⟩
  intro key hkey
  refine wp_gates_hash recBytes eng ?_
  intro parsed sealedCount tail hgates
  simp only [wp_bind, wp_get, wp_fromExcept, wp_modify, wp_throwIf, wp_rejectUnless,
    wp_insertSession]
  refine ⟨fun _ => .of_sessions rfl rfl rfl, fun _ => ⟨fun recovery _ => ⟨?_, ?_⟩,
    fun _ _ => .of_sessions rfl rfl rfl⟩⟩
  · intro _
    refine ⟨?_, fun _ _ => hashMoves_evict S⟩
    intro digests _
    exact hashMoves_import keyId recBytes eng hkey hgates _ _ _ _
  · intro _
    exact hashMoves_countReject S

theorem wp_importSessionWithBinding_hash (historicalText : Text) (bindingBytes : List UInt8) :
    wp (importSessionWithBinding keyId recBytes historicalText bindingBytes eng)
      (fun _ S' => HashMoves S S') (fun _ S' => HashMoves S S') S := by
  unfold importSessionWithBinding
  rw [wp_bind, wp_keyCtx]
  refine ⟨?_, fun _ => .of_sessions rfl rfl rfl⟩
  intro key hkey
  refine wp_gates_hash recBytes eng ?_
  intro parsed sealedCount tail hgates
  simp only [wp_bind, wp_get, wp_fromExcept, wp_modify, wp_throwIf, wp_rejectUnless, wp_counted,
    wp_insertSession]
  refine ⟨fun binding _ => ⟨fun _ => .of_sessions rfl rfl rfl, fun _ => ⟨fun recovery _ =>
    ⟨fun content _ => ⟨?_, ?_⟩, fun _ _ => .of_sessions rfl rfl rfl⟩,
    fun _ _ => .of_sessions rfl rfl rfl⟩⟩, fun _ _ => hashMoves_countReject S⟩
  · intro _
    exact hashMoves_import keyId recBytes eng hkey hgates _ _ _ _
  · intro _
    exact hashMoves_countReject S

theorem wp_importSessionWithBindingCandidate_hash (candidateText : Text)
    (bindingBytes : List UInt8) :
    wp (importSessionWithBindingCandidate keyId recBytes candidateText bindingBytes eng)
      (fun _ S' => HashMoves S S') (fun _ S' => HashMoves S S') S := by
  unfold importSessionWithBindingCandidate
  simp only [wp_bind, wp_fromExcept, wp_pure]
  refine ⟨fun binding _ => ⟨fun historicalText _ => ?_, fun _ _ => .of_sessions rfl rfl rfl⟩,
    fun _ _ => .of_sessions rfl rfl rfl⟩
  exact wp_importSessionWithBinding_hash keyId recBytes eng historicalText bindingBytes

theorem wp_importSessionWithSidecar_hash (sidecarBytes : List UInt8) (sealedText : Text)
    (hsafe : HashSafe S (.importWithSidecar keyId recBytes sidecarBytes eng sealedText)) :
    wp (importSessionWithSidecar keyId recBytes sidecarBytes eng sealedText)
      (fun _ S' => HashMoves S S') (fun _ S' => HashMoves S S') S := by
  unfold importSessionWithSidecar
  rw [wp_bind, wp_keyCtx]
  refine ⟨?_, fun _ => .of_sessions rfl rfl rfl⟩
  intro key hkey
  refine wp_gates_hash recBytes eng ?_
  intro parsed sealedCount tail hgates
  simp only [wp_bind, wp_get, wp_fromExcept, wp_modify, wp_rejectUnless, wp_counted,
    wp_insertSession]
  refine ⟨fun sc hsc => ⟨?_, fun _ => hashMoves_countReject S⟩, fun _ _ => hashMoves_countReject S⟩
  intro hbinds
  refine ⟨?_, fun _ _ => .of_sessions rfl rfl rfl⟩
  intro digests _
  exact (hashMoves_evict S).of_created (nextHandle_evictForCapacity S.tick)
    (hashOk_import hkey hgates rfl rfl rfl rfl rfl (hsafe parsed sc hgates.decoded hsc)
      hbinds.2.2.1 rfl rfl rfl)

end Imports

end Store

/-- Every live session has the hash state of its contents. -/
def AllHashed (S : Store) : Prop := ∀ h s, S.sessions.lookup h = some s → HashOk S.keys s

/-- One call, on a store where every session is hashed. -/
theorem hashMoves_after {c : Call} (hall : AllHashed S) (hsafe : HashSafe S c) :
    HashMoves S (S.after c) := by
  apply Store.after_of_wp
  cases c with
  | registerFingerprint fingerprint guard =>
      simp only [Call.run, wp_ignore, Store.registerFingerprint, wp_bind, wp_get]
      split
      · simp only [wp_bind, wp_throwIf, wp_pure]
        exact ⟨fun _ => .of_sessions rfl rfl rfl, fun _ => .of_sessions rfl rfl rfl⟩
      · simp only [wp_bind, wp_throwIf, wp_set, wp_pure]
        refine ⟨fun _ => .of_sessions rfl rfl rfl, fun _ => ?_⟩
        refine Moves.of_subset (.refl S.keys) ?_ rfl (fun _ _ h => h)
        intro i key hi
        rw [List.getElem?_append_left (List.getElem?_eq_some_iff.mp hi).1]
        exact hi
  | enableRecoveryTracking =>
      simp only [Call.run, Store.enableRecoveryTracking, wp_bind, wp_get, wp_throwIf, wp_set]
      exact ⟨fun _ => .of_sessions rfl rfl rfl, fun _ => .of_sessions rfl rfl rfl⟩
  | enableContentTracking =>
      simp only [Call.run, Store.enableContentTracking, wp_bind, wp_get, wp_throwIf, wp_set]
      exact ⟨fun _ => .of_sessions rfl rfl rfl, fun _ => .of_sessions rfl rfl rfl⟩
  | setSeedOverlap runner =>
      simp only [Call.run, Store.setSeedOverlap, wp_modify]
      exact .of_sessions rfl rfl rfl
  | put keyId text eng =>
      rw [Call.run, wp_ignore]
      exact Store.wp_put_hash keyId text eng
  | append handle delta rev eng =>
      rw [Call.run, wp_ignore]
      exact Store.wp_append_hash hsafe
  | appendPatch handle delta rev eng =>
      rw [Call.run, wp_ignore]
      exact Store.wp_appendPatch_hash hsafe
  | lookup keyId text eng =>
      rw [Call.run, wp_ignore]
      exact Store.wp_lookup_hash keyId text eng
  | fork handle =>
      rw [Call.run, wp_ignore]
      exact Store.wp_fork_hash handle fun s hs => (hall handle s hs).payload
  | evict handle =>
      simp only [Call.run, wp_ignore, Store.evict, wp_bind, wp_get, wp_set, wp_pure]
      refine .of_subset rfl rfl ?_
      intro h s hs
      exact (lookup_erase_eq_some.mp hs).2
  | readAllIds handle =>
      simp only [Call.run, wp_ignore, Store.readAllIds, wp_bind, wp_modify, Store.wp_session, Store.touch,
        wp_pure]
      refine ⟨?_, fun _ => .of_sessions rfl rfl rfl⟩
      intro sess hsess
      exact .of_touched hsess
  | sharedAllIds handle =>
      simp only [Call.run, wp_ignore, Store.sharedAllIds, wp_bind, wp_modify, Store.wp_session,
        Store.touch, wp_pure]
      refine ⟨?_, fun _ => .of_sessions rfl rfl rfl⟩
      intro sess hsess
      refine Moves.of_insert (.refl S.keys) hsess ?_ rfl rfl rfl
      exact .of_same rfl rfl rfl rfl id fun _ => rfl
  | importNodeItem key record =>
      simp only [Call.run, wp_ignore, Store.importNodeItem, wp_bind, wp_get]
      split
      · simp only [wp_bind, wp_set, wp_pure]
        exact .of_sessions rfl rfl rfl
      · simp only [wp_bind, wp_set, wp_pure]
        exact .of_sessions rfl rfl rfl
  | importSession keyId recBytes eng sealedText =>
      rw [Call.run, wp_ignore]
      exact Store.wp_importSession_hash keyId recBytes eng sealedText
  | importWithRecovery keyId recBytes historicalText expected eng =>
      rw [Call.run, wp_ignore]
      exact Store.wp_importSessionWithRecovery_hash keyId recBytes eng historicalText expected
  | importWithBinding keyId recBytes historicalText bindingBytes eng =>
      rw [Call.run, wp_ignore]
      exact Store.wp_importSessionWithBinding_hash keyId recBytes eng historicalText bindingBytes
  | importWithBindingCandidate keyId recBytes candidateText bindingBytes eng =>
      rw [Call.run, wp_ignore]
      exact Store.wp_importSessionWithBindingCandidate_hash keyId recBytes eng candidateText
        bindingBytes
  | importWithSidecar keyId recBytes sidecarBytes eng sealedText =>
      rw [Call.run, wp_ignore]
      exact Store.wp_importSessionWithSidecar_hash keyId recBytes eng sidecarBytes sealedText hsafe
  | restoreTracking handle historicalText bindingBytes =>
      simp only [Call.run, Store.restoreTrackingWithBinding, wp_bind, Store.wp_session,
        wp_fromExcept, wp_modify]
      refine ⟨fun sess hsess => ⟨?_, fun _ _ => .of_sessions rfl rfl rfl⟩,
        fun _ => .of_sessions rfl rfl rfl⟩
      intro digests _
      refine Moves.of_insert (.refl S.keys) hsess ?_ rfl rfl rfl
      exact .of_same rfl rfl rfl rfl id fun _ => rfl

/-! ## Runs -/

/-- No live session's record hash is the genesis hash: the hash never returns it on what
the run commits. -/
def NoZeroRecord (S : Store) : Prop :=
  ∀ h s, S.sessions.lookup h = some s → s.recordHash ≠ ZERO_HASH

/-- Every handle in use has been given out. -/
def HandlesUsed (S : Store) : Prop := ∀ h s, S.sessions.lookup h = some s → h < S.nextHandle

theorem HashMoves.allHashed {S' : Store} (h : HashMoves S S') (hall : AllHashed S)
    (hz : NoZeroRecord S) : AllHashed S' := by
  have hkeys {s : Session} (hs : HashOk S.keys s) : HashOk S'.keys s := by
    obtain ⟨key, hkey, hcommit⟩ := hs.committed
    exact ⟨hs.payload, ⟨key, h.keys _ _ hkey, hcommit⟩, hs.genesis⟩
  intro k s' hs'
  rcases h.live k s' hs' with ⟨s, hs, -, hmove⟩ | ⟨-, -, hnew⟩
  · exact hkeys (hmove (hz k s hs) (hall k s hs))
  · exact hkeys hnew

theorem HashMoves.handlesUsed {S' : Store} (h : HashMoves S S') (hu : HandlesUsed S) :
    HandlesUsed S' := by
  intro k s' hs'
  rcases h.live k s' hs' with ⟨s, hs, -⟩ | ⟨-, hlt, -⟩
  · exact lt_of_lt_of_le (hu k s hs) h.next
  · exact hlt

/-- A session of `S` that is live in `S'` is at its revision or a later one, and the record
it had is the current one, the previous one, or older than that. -/
structure Descends (S S' : Store) : Prop where
  next : S.nextHandle ≤ S'.nextHandle
  later : ∀ h s s', S.sessions.lookup h = some s → S'.sessions.lookup h = some s' →
    s.revision ≤ s'.revision ∧
      (s'.revision = s.revision → s'.recordHash = s.recordHash) ∧
      (s'.revision = s.revision + 1 → s'.prevRecordHash = s.recordHash)

omit [Digests] in
theorem Descends.refl (S : Store) : Descends S S where
  next := le_rfl
  later := by
    intro h s s' hs hs'
    cases hs.symm.trans hs'
    exact ⟨le_rfl, fun _ => rfl, fun h => absurd h (by omega)⟩

theorem Descends.step {S₀ S S' : Store} (h : Descends S₀ S) (hu : HandlesUsed S₀)
    (hm : HashMoves S S') : Descends S₀ S' where
  next := h.next.trans hm.next
  later := by
    intro k s₀ s' hs₀ hs'
    rcases hm.live k s' hs' with ⟨s, hs, hsucc, -⟩ | ⟨rfl, -, -⟩
    · obtain ⟨hle, hsame, hprev⟩ := h.later k s₀ s hs₀ hs
      rcases hsucc with ⟨hr, hh, hp⟩ | ⟨hr, hp⟩
      · rw [hr, hh, hp]
        exact ⟨hle, hsame, hprev⟩
      · refine ⟨by omega, fun h => absurd h (by omega), ?_⟩
        intro heq
        rw [hp]
        exact hsame (by omega)
    · have hlt := hu _ _ hs₀
      have hle := h.next
      omega

end Committed

/-- A run with one revision past the genesis. -/
def committedRun : List Call :=
  [.registerFingerprint ZERO_HASH 0, .put 0 ['a'] unitEngine, .append 1 ['b'] 0 unitEngine]

theorem noZeroRecord_of_entries {S : Store}
    (h : (S.sessions.entries.all fun e => decide (e.2.recordHash ≠ ZERO_HASH)) = true) :
    NoZeroRecord S := by
  intro k s hs
  have hmem := AList.mem_lookup_iff.mp (Option.mem_def.mpr hs)
  exact of_decide_eq_true (List.all_eq_true.mp h _ hmem)

/-- A run whose append fails after it has changed the tail. -/
def staleRun : List Call :=
  [.registerFingerprint ZERO_HASH 0, .put 0 [] noBoundaryEngine, .append 1 ['a'] 0 noBoundaryEngine]

end Toktier.StoreCore
