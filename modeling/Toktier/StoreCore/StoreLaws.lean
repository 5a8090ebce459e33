import Toktier.StoreCore.SealingLaws
import Toktier.StoreCore.Store

/-!
# Rules for the store's small operations

Weakest preconditions of the lookups and of the work on one session, and what an
eviction does to the table of sessions.

## Main definitions

* `Store.HasSlot`: there is room for one more session.

## Main results

* `wp_onSession`, `wp_onFresh`: postconditions of a session's part carry over to the store.
* `exists_evicted`: making room in a full store removes a live session.
-/
namespace Toktier.StoreCore

open Toktier.Lib

/-! ## Rules for the small operations -/

namespace Store

variable {α : Type} {S : Store}

@[simp] theorem wp_keyCtx {Q : KeyCtx → Store → Prop} {R : StoreError → Store → Prop} (k : ℕ) :
    wp (keyCtx k) Q R S ↔
      (∀ key, S.keys[k]? = some key → Q key S) ∧ (S.keys[k]? = none → R (.UnknownKey k) S) := by
  unfold keyCtx
  simp only [wp_bind, wp_get]
  cases S.keys[k]? <;> simp

@[simp] theorem wp_session {Q : Session → Store → Prop} {R : StoreError → Store → Prop} (h : ℕ) :
    wp (session h) Q R S ↔
      (∀ s, S.sessions.lookup h = some s → Q s S) ∧
        (S.sessions.lookup h = none → R (.UnknownSession h) S) := by
  unfold session
  simp only [wp_bind, wp_get]
  cases S.sessions.lookup h <;> simp

/-- Work on a session: the store gets back whatever the work left, on both exits. -/
theorem wp_onSession {Q : α → Store → Prop} {R : StoreError → Store → Prop} (h : ℕ)
    (m : Fallible Work StoreError α) :
    wp (onSession h m) Q R S ↔
      (∀ s, S.sessions.lookup h = some s →
        wp m (fun a w => Q a (S.putBack h w)) (fun e w => R e (S.putBack h w))
          ⟨s, S.nodes, S.stats⟩) ∧
        (S.sessions.lookup h = none → R (.UnknownSession h) S) := by
  unfold onSession
  simp only [wp_bind, wp_session, wp_zoomIn]

theorem wp_onFresh {Q : α → Store → Prop} {R : StoreError → Store → Prop} (sess : Session)
    (m : Fallible Work StoreError α) :
    wp (onFresh sess m) Q R S ↔
      wp m (fun a w => Q a (S.putBackShared w)) (fun e w => R e (S.putBackShared w))
        ⟨sess, S.nodes, S.stats⟩ := by
  unfold onFresh
  rw [wp_zoomIn]

@[simp] theorem lookup_putBack (S : Store) (h : ℕ) (w : Work) :
    (S.putBack h w).sessions.lookup h = some w.sess := AList.lookup_insert _

theorem lookup_putBack_ne (S : Store) {h h' : ℕ} (hne : h' ≠ h) (w : Work) :
    (S.putBack h w).sessions.lookup h' = S.sessions.lookup h' := AList.lookup_insert_ne hne

/-! ## Tracking -/

/-- The digests of a text of at most `2 ^ 63` bytes can be computed. -/
theorem exists_trackText [Digests] (recoveryTracking contentTracking : Bool) {text : Text}
    (h : utf8Len text ≤ 2 ^ 63) :
    ∃ digests, trackText recoveryTracking contentTracking text = .ok digests := by
  have hlen : (utf8 text).length ≤ 2 ^ 63 := by rwa [length_utf8]
  obtain ⟨d, hd, -⟩ := ContentDigest.exists_fromBytes hlen
  have hr : RecoveryDigest.fromText text = .ok _ :=
    RecoveryDigest.append_of_lt (by simp only [RecoveryDigest.empty]; omega)
  cases recoveryTracking <;> cases contentTracking <;>
    simp [trackText, optionally, hd, hr, Except.map, ok_bind]

/-! ## Eviction -/

/-- Eviction leaves everything but the sessions and a counter. -/
theorem evictLoop_eq (fuel : ℕ) (S : Store) :
    evictLoop fuel S =
      { S with sessions := (evictLoop fuel S).sessions, stats := (evictLoop fuel S).stats } := by
  induction fuel generalizing S with
  | zero => rfl
  | succ fuel ih =>
      unfold evictLoop
      split
      · rfl
      · split
        · rfl
        · rw [ih]

theorem evictForCapacity_eq (S : Store) :
    S.evictForCapacity =
      { S with
        sessions := S.evictForCapacity.sessions, stats := S.evictForCapacity.stats } :=
  evictLoop_eq _ S

/-- The victims do not depend on the counters. -/
theorem sessions_evictForCapacity_of_stats (S : Store) (stats : Stats) :
    ({ S with stats } : Store).evictForCapacity.sessions = S.evictForCapacity.sessions := by
  have hloop : ∀ fuel (S : Store) (stats : Stats),
      (evictLoop fuel { S with stats }).sessions = (evictLoop fuel S).sessions := by
    intro fuel
    induction fuel with
    | zero => intro S stats; rfl
    | succ fuel ih =>
        intro S stats
        have hlru : ({ S with stats } : Store).lruHandle = S.lruHandle := rfl
        simp only [evictLoop, hlru]
        split
        · rfl
        · split
          · rfl
          · rename_i victim _
            exact (ih _ _).trans (ih { S with sessions := S.sessions.erase victim } _).symm
  exact hloop _ S stats

@[simp] theorem cfg_evictForCapacity (S : Store) : S.evictForCapacity.cfg = S.cfg := by
  rw [evictForCapacity_eq]

@[simp] theorem keys_evictForCapacity (S : Store) : S.evictForCapacity.keys = S.keys := by
  rw [evictForCapacity_eq]

@[simp] theorem nodes_evictForCapacity (S : Store) : S.evictForCapacity.nodes = S.nodes := by
  rw [evictForCapacity_eq]

@[simp] theorem clock_evictForCapacity (S : Store) : S.evictForCapacity.clock = S.clock := by
  rw [evictForCapacity_eq]

@[simp] theorem nextHandle_evictForCapacity (S : Store) :
    S.evictForCapacity.nextHandle = S.nextHandle := by
  rw [evictForCapacity_eq]

@[simp] theorem seedOverlap_evictForCapacity (S : Store) :
    S.evictForCapacity.seedOverlap = S.seedOverlap := by
  rw [evictForCapacity_eq]

@[simp] theorem recoveryTracking_evictForCapacity (S : Store) :
    S.evictForCapacity.recoveryTracking = S.recoveryTracking := by
  rw [evictForCapacity_eq]

@[simp] theorem contentTracking_evictForCapacity (S : Store) :
    S.evictForCapacity.contentTracking = S.contentTracking := by
  rw [evictForCapacity_eq]

/-- There is room for one more session. -/
def HasSlot (S : Store) : Prop := S.sessions.entries.length < S.cfg.maxSessions

theorem evictForCapacity_of_hasSlot {S : Store} (h : S.HasSlot) : S.evictForCapacity = S := by
  unfold evictForCapacity
  cases S.sessions.entries.length with
  | zero => rfl
  | succ n => exact if_pos h

/-- A store with sessions has a least recently used one. -/
theorem exists_lruHandle {S : Store} (h : S.sessions.entries ≠ []) :
    ∃ k, S.lruHandle = some k ∧ (S.sessions.lookup k).isSome := by
  unfold lruHandle
  cases harg : S.sessions.entries.argmin fun e => toLex (e.2.lastUsed, e.1) with
  | none => exact absurd (List.argmin_eq_none.mp harg) h
  | some e =>
      refine ⟨e.1, rfl, ?_⟩
      rw [AList.lookup_isSome]
      exact List.mem_map_of_mem (List.argmin_mem harg)

/-- Eviction only removes sessions. -/
theorem lookup_evictLoop {S : Store} (fuel k : ℕ) (h : S.sessions.lookup k = none) :
    (evictLoop fuel S).sessions.lookup k = none := by
  induction fuel generalizing S with
  | zero => exact h
  | succ fuel ih =>
      unfold evictLoop
      split
      · exact h
      · split
        · exact h
        · rename_i victim _
          apply ih
          by_cases hk : k = victim
          · subst hk
            exact AList.lookup_erase _ _
          · rw [AList.lookup_erase_ne hk]
            exact h

/-- What survives an eviction is as it was. -/
theorem lookup_of_evictForCapacity {S : Store} {k : ℕ} {s : Session}
    (h : S.evictForCapacity.sessions.lookup k = some s) : S.sessions.lookup k = some s := by
  have hloop : ∀ fuel (S : Store), (evictLoop fuel S).sessions.lookup k = some s →
      S.sessions.lookup k = some s := by
    intro fuel
    induction fuel with
    | zero => intro S h; exact h
    | succ fuel ih =>
        intro S h
        unfold evictLoop at h
        split at h
        · exact h
        · split at h
          · exact h
          · rename_i victim _
            have hrest := ih _ h
            exact (lookup_erase_eq_some.mp hrest).2
  exact hloop _ S h

/-- A full store loses a live session. -/
theorem exists_evicted {S : Store} (h : ¬S.HasSlot) :
    ∃ k, (S.sessions.lookup k).isSome ∧ S.evictForCapacity.sessions.lookup k = none := by
  have hpos := S.maxSessions_pos
  have hne : S.sessions.entries ≠ [] := by
    intro hnil
    simp only [HasSlot, hnil, List.length_nil] at h
    omega
  obtain ⟨k, hlru, hlive⟩ := exists_lruHandle hne
  refine ⟨k, hlive, ?_⟩
  have hfull : ¬S.sessions.entries.length < S.cfg.maxSessions := h
  unfold evictForCapacity
  obtain ⟨n, hlen⟩ := Nat.exists_eq_succ_of_ne_zero (mt List.length_eq_zero_iff.mp hne)
  rw [hlen, evictLoop, if_neg hfull]
  simp only [hlru]
  apply lookup_evictLoop
  exact AList.lookup_erase _ _

end Store

/-! ## Rules for the calls that create a session -/

section Creating

variable [Digests]

/-- A seed that returns has grown the tail of a fresh session and regrouped it. -/
theorem wp_seedText_frame (cfg : StoreConfig) (key : KeyCtx) (eng : Engine)
    (hB : 0 < cfg.blockChars) (runs : ℕ) (text : Text) (w : Work) :
    wp (seedText cfg key eng runs text)
      (fun _ w' => ∃ tail J T, Regrouped { w.sess with tail := tail } w'.sess J T)
      (fun _ _ => True) w := by
  unfold seedText
  simp only [wp_bind, wp_get, wp_modify]
  generalize seedEncode eng runs text w.sess.tail = grown
  obtain ⟨result, tail⟩ := grown
  rcases result with _ | _ | report
  case none => simp
  case some.error => simp
  case some.ok =>
      simp only [wp_bind, wp_fromExcept, wp_modify, implies_true, and_true]
      intro _ _
      refine wp_mono (wp_postTextOps_frame cfg key eng hB _) ?_ (fun _ _ _ => trivial)
      rintro _ w' ⟨J, T, hreg⟩
      exact ⟨tail, J, T, hreg⟩

namespace Store

/-- The store with one more session. -/
def withSession (S : Store) (sess : Session) : Store :=
  { S with nextHandle := S.nextHandle + 1, sessions := S.sessions.insert S.nextHandle sess }

/-- The store a seed starts from: the slot has been made, the call has been counted. -/
def putStart (S : Store) : Store := S.tick.evictForCapacity.countPut

/-- The store a lookup hit is adopted into. -/
def adoptStart (S : Store) : Store := S.tick.evictForCapacity

/-- The store a fork is put into. -/
def forkStart (S : Store) (handle : ℕ) (sess : Session) : Store :=
  (S.tick.touched handle sess).countFork.evictForCapacity

variable {S : Store}

omit [Digests] in
@[simp] theorem wp_insertSession {Q : ℕ → Store → Prop} {R : StoreError → Store → Prop}
    (sess : Session) : wp (insertSession sess) Q R S ↔ Q S.nextHandle (S.withSession sess) := by
  unfold insertSession
  simp only [wp_bind, wp_get, wp_set, wp_pure]
  rfl

omit [Digests] in
/-- Making the slot for a seed leaves everything but the sessions, the clock and a counter. -/
theorem putStart_eq (S : Store) :
    S.putStart = { S with
      clock := S.clock + 1, sessions := S.putStart.sessions, stats := S.putStart.stats } := by
  have h := evictForCapacity_eq S.tick
  unfold putStart countPut
  rw [h]
  rfl

omit [Digests] in
theorem adoptStart_eq (S : Store) :
    S.adoptStart = { S with
      clock := S.clock + 1, sessions := S.adoptStart.sessions, stats := S.adoptStart.stats } :=
  evictForCapacity_eq S.tick

omit [Digests] in
theorem forkStart_eq (S : Store) (handle : ℕ) (sess : Session) :
    S.forkStart handle sess = { S with
      clock := S.clock + 1, sessions := (S.forkStart handle sess).sessions,
      stats := (S.forkStart handle sess).stats } :=
  evictForCapacity_eq (S.tick.touched handle sess).countFork

/-- A `put` is the seed of a fresh session, over the nodes as they are. -/
theorem wp_put {Q : PutOutcome → Store → Prop} {R : StoreError → Store → Prop} (keyId : ℕ)
    (text : Text) (eng : Engine) :
    wp (put keyId text eng) Q R S ↔
      (∀ key, S.keys[keyId]? = some key →
        wp (seedSession S.cfg key eng S.recoveryTracking S.contentTracking S.seedRuns text)
          (fun sess w => Q ⟨S.nextHandle, 0, sess.tokenCount⟩
            ((S.putStart.putBackShared w).withSession sess))
          (fun e w => R e (S.putStart.putBackShared w))
          ⟨.fresh keyId eng.witnessCategory (S.clock + 1), S.nodes, S.putStart.stats⟩) ∧
        (S.keys[keyId]? = none → R (.UnknownKey keyId) S) := by
  have hstart : S.tick.evictForCapacity.countPut = S.putStart := rfl
  have hcfg : S.putStart.cfg = S.cfg := by rw [putStart_eq]
  have hnodes : S.putStart.nodes = S.nodes := by rw [putStart_eq]
  have hclock : S.putStart.clock = S.clock + 1 := by rw [putStart_eq]
  have hnext : S.putStart.nextHandle = S.nextHandle := by rw [putStart_eq]
  have hrec : S.putStart.recoveryTracking = S.recoveryTracking := by rw [putStart_eq]
  have hcon : S.putStart.contentTracking = S.contentTracking := by rw [putStart_eq]
  have hruns : S.putStart.seedRuns = S.seedRuns := by
    rw [putStart_eq]
    rfl
  unfold put
  simp only [wp_bind, wp_keyCtx, wp_modify, wp_get, wp_onFresh, wp_insertSession, wp_pure, hstart,
    hcfg, hnodes, hclock, hrec, hcon, hruns, putBackShared, hnext]

/-- The two stores differ in their counters alone. -/
def SameButStats (S S' : Store) : Prop := S' = { S with stats := S'.stats }

/-- A lookup misses, or adopts the last node of its walk; until then it only counts. -/
theorem wp_lookup {Q : Option LookupHit → Store → Prop} {R : StoreError → Store → Prop} (keyId : ℕ)
    (text : Text) (eng : Engine) (hnone : S.keys[keyId]? = none → R (.UnknownKey keyId) S)
    (hmiss : ∀ S', SameButStats S S' → Q none S')
    (hadopt : ∀ key wk deepKey deep S', S.keys[keyId]? = some key →
      wk = (walkBlocks S.nodes key.fingerprint eng.witnessCategory S.cfg.blockChars 0
        (blockSlices text S.cfg.blockChars) .start).1 →
      wk.path.getLast? = some (deepKey, deep) → SameButStats S S' →
      wp (adopt keyId key text eng wk deepKey deep) (fun hit S'' => Q (some hit) S'') R S') :
    wp (lookup keyId text eng) Q R S := by
  unfold lookup
  simp only [wp_bind, wp_keyCtx, wp_modify, wp_get, wp_runIf]
  refine ⟨?_, hnone⟩
  intro key hkey
  cases hlast : (walkBlocks S.countLookup.nodes key.fingerprint eng.witnessCategory
      S.countLookup.cfg.blockChars 0 (blockSlices text S.countLookup.cfg.blockChars)
      .start).1.path.getLast? with
  | none =>
      simp only [wp_bind, wp_modify, wp_pure]
      exact ⟨fun _ => hmiss _ rfl, fun _ => hmiss _ rfl⟩
  | some found =>
      simp only [wp_map]
      exact ⟨fun _ => hadopt key _ _ _ _ hkey rfl hlast rfl, fun _ => hadopt key _ _ _ _ hkey rfl hlast rfl⟩

/-- The adoption of a node: the engine encodes its text tail, and the session it gives is
put into a slot that was made for it. -/
theorem wp_adopt {Q : LookupHit → Store → Prop} {R : StoreError → Store → Prop} (keyId : ℕ)
    (key : KeyCtx) (text : Text) (eng : Engine) (wk : Walk) (deepKey : BlockHash)
    (deep : NodeCacheRecord)
    (hearly : ∀ e, eng.encodeStore deep.textTail = .error e → R e S)
    (hok : ∀ enc, eng.encodeStore deep.textTail = .ok enc →
      (∀ e, TailState.fill deep.textTail enc = .error e → R e S) ∧
      ∀ tail, TailState.fill deep.textTail enc = .ok tail →
        (deep.endByte < tail.textBytes →
          R (internal "node byte accounting underflow") S.adoptStart) ∧
        (tail.textBytes ≤ deep.endByte →
          (∀ e, trackQuery S.recoveryTracking S.contentTracking text deep.endChar = .error e →
            R e S.adoptStart) ∧
          ∀ digests, trackQuery S.recoveryTracking S.contentTracking text deep.endChar =
              .ok digests →
            ∀ sess : Session,
              sess = { adoptedSession keyId eng.witnessCategory (S.clock + 1) wk deepKey deep tail
                text with recovery := digests.1, content := digests.2 } →
              Q ⟨S.nextHandle, deep.endChar, 0⟩ (S.adoptStart.withSession
                { sess with recordHash := sess.commitHash key.fingerprint }).countHit)) :
    wp (adopt keyId key text eng wk deepKey deep) Q R S := by
  have hstart : S.tick.evictForCapacity = S.adoptStart := rfl
  have hnext : S.adoptStart.nextHandle = S.nextHandle := by rw [adoptStart_eq]
  have hclock : S.adoptStart.clock = S.clock + 1 := by rw [adoptStart_eq]
  have hrec : S.adoptStart.recoveryTracking = S.recoveryTracking := by rw [adoptStart_eq]
  have hcon : S.adoptStart.contentTracking = S.contentTracking := by rw [adoptStart_eq]
  unfold adopt
  simp only [wp_bind, wp_fromExcept, wp_modify, wp_get, wp_throwIf, wp_insertSession, wp_pure,
    hstart, hrec, hcon, hclock, hnext]
  refine ⟨fun enc henc => ⟨fun tail hfill => ⟨?_, fun hle => ⟨?_, ?_⟩⟩, (hok enc henc).1⟩, hearly⟩
  · exact ((hok enc henc).2 tail hfill).1
  · intro digests hdigests
    exact (((hok enc henc).2 tail hfill).2 (not_lt.mp hle)).2 digests hdigests _ rfl
  · exact (((hok enc henc).2 tail hfill).2 (not_lt.mp hle)).1

/-- The source of a fork is touched; the copy goes into a slot that was made for it. -/
theorem wp_fork {Q : ℕ → Store → Prop} {R : StoreError → Store → Prop} (handle : ℕ)
    (hnone : ∀ e, R e S.tick)
    (hok : ∀ sess key, S.sessions.lookup handle = some sess → S.keys[sess.keyId]? = some key →
      Q S.nextHandle ((S.forkStart handle sess).withSession (forkOf sess key (S.clock + 1)))) :
    wp (fork handle) Q R S := by
  unfold fork
  simp only [wp_bind, wp_modify, wp_session, wp_keyCtx, touch, wp_get, wp_insertSession]
  refine ⟨fun sess hsess => ⟨fun key hkey => ?_, fun _ => hnone _⟩, fun _ => hnone _⟩
  have hnext : (S.forkStart handle sess).nextHandle = S.nextHandle := by rw [forkStart_eq]
  have hq := hok sess key hsess hkey
  rw [← hnext] at hq
  exact hq

end Store

end Creating

end Toktier.StoreCore
