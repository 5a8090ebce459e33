import Toktier.StoreCore.AppendAtomic
import Toktier.StoreCore.TransportLaws

/-!
# What a failed creation leaves behind

A session is created by `put`, by adopting a lookup hit, by a fork or by an import. In a
full store each of them evicts the least recently used session first, or last, and what
can still fail after the eviction loses that session for nothing.

## Main definitions

* `Creation`: one call that creates a session.
* `LosesNothing`: a failing call leaves the live sessions as they were.
* `Creation.Safe`: the condition on the store and the inputs of the call.

## Main results

* `creation_loses_nothing_iff`: a failed creation loses nothing exactly when it is safe.
-/
namespace Toktier.StoreCore

open Toktier.Lib

/-! ## Live sessions -/

/-- What a client sees of a session: ids, text, revision and record hash. -/
def Session.observed (s : Session) : List UInt32 × Text × ℕ × BlockHash :=
  (s.allIds, s.text, s.revision, s.recordHash)

/-- The same handles are live, with the same contents. -/
def SameLive (S S' : Store) : Prop :=
  ∀ h, (S'.sessions.lookup h).map Session.observed = (S.sessions.lookup h).map Session.observed

/-- When `m` fails on `S`, the live sessions are as they were. -/
def LosesNothing {α : Type} (m : Fallible Store StoreError α) (S : Store) : Prop :=
  ∀ e S', m.run S = .error e S' → SameLive S S'

theorem SameLive.of_sessions {S S' : Store} (h : S'.sessions = S.sessions) : SameLive S S' := by
  intro k
  rw [h]

theorem losesNothing_of_wp {α : Type} {m : Fallible Store StoreError α} {S : Store}
    (h : wp m (fun _ _ => True) (fun _ S' => S'.sessions = S.sessions) S) : LosesNothing m S := by
  intro e S' hrun
  exact .of_sessions (h.of_error hrun)

namespace Store

theorem not_sameLive_of_evicted {S S' : Store} (hfull : ¬S.HasSlot)
    (h : S'.sessions = S.evictForCapacity.sessions) : ¬SameLive S S' := by
  intro hsame
  obtain ⟨k, hlive, hgone⟩ := exists_evicted hfull
  have hk := hsame k
  rw [h, hgone] at hk
  obtain ⟨s, hs⟩ := Option.isSome_iff_exists.mp hlive
  rw [hs] at hk
  cases hk

end Store

section Calls

variable [Digests]

/-! ## put -/

/-- The encode of a seed is accepted, and the bookkeeping over it passes. -/
def SeedTextPasses (cfg : StoreConfig) (key : KeyCtx) (eng : Engine) (runs : ℕ) (text : Text)
    (w : Work) : Prop :=
  ∃ report tail, seedEncode eng runs text w.sess.tail = (some (.ok report), tail) ∧
    verifyAppendShape tail 0 text [] report.keptTokens = .ok () ∧
    PostTextPasses cfg key eng
      { w with sess := { w.sess with tail }, stats := w.stats.bumpPath report.path }

/-- The seed of a fresh session passes, and the digests that are tracked can be computed. -/
def SeedPasses (cfg : StoreConfig) (key : KeyCtx) (eng : Engine)
    (recoveryTracking contentTracking : Bool) (runs : ℕ) (text : Text) (w : Work) : Prop :=
  (text ≠ [] → SeedTextPasses cfg key eng runs text w) ∧
    ∃ digests, trackText recoveryTracking contentTracking text = .ok digests

section Seed

variable {cfg : StoreConfig} {key : KeyCtx} {eng : Engine} {recoveryTracking contentTracking : Bool}
  {runs : ℕ} {text : Text} {w : Work}

/-- The encode, its check and the bookkeeping return exactly when each of them passes. -/
theorem wp_seedText_passes (hB : 0 < cfg.blockChars) :
    wp (seedText cfg key eng runs text) (fun _ _ => SeedTextPasses cfg key eng runs text w)
      (fun _ _ => ¬SeedTextPasses cfg key eng runs text w) w := by
  unfold seedText SeedTextPasses
  simp only [wp_bind, wp_get, wp_modify]
  generalize seedEncode eng runs text w.sess.tail = grown
  obtain ⟨result, tail⟩ := grown
  rcases result with _ | _ | report
  case none => simp
  case some.error => simp
  case some.ok =>
      simp only [wp_bind, wp_fromExcept, wp_modify, Prod.mk.injEq, Option.some.injEq,
        Except.ok.injEq, exists_and_left, exists_eq_left', and_assoc]
      refine ⟨?_, ?_⟩
      · intro _ hshape
        refine wp_mono (wp_postTextOps_passes hB _) ?_ ?_
        · intro _ _ hpass
          exact ⟨hshape, hpass⟩
        · rintro _ _ hfail ⟨-, hpass⟩
          exact hfail hpass
      · rintro e hshape ⟨hok, -⟩
        rw [hshape] at hok
        cases hok

theorem wp_seedSession_passes (hB : 0 < cfg.blockChars) :
    wp (seedSession cfg key eng recoveryTracking contentTracking runs text)
      (fun _ _ => SeedPasses cfg key eng recoveryTracking contentTracking runs text w)
      (fun _ _ => ¬SeedPasses cfg key eng recoveryTracking contentTracking runs text w) w := by
  unfold seedSession SeedPasses
  simp only [wp_bind, wp_runIf, wp_fromExcept, wp_get, wp_pure]
  have htrack (P : Prop) (hP : P) :
      (∀ a, trackText recoveryTracking contentTracking text = .ok a →
        P ∧ ∃ digests, trackText recoveryTracking contentTracking text = .ok digests) ∧
      ∀ e, trackText recoveryTracking contentTracking text = .error e →
        ¬(P ∧ ∃ digests, trackText recoveryTracking contentTracking text = .ok digests) := by
    constructor
    · intro a ha
      exact ⟨hP, a, ha⟩
    · rintro e he ⟨-, a, ha⟩
      rw [he] at ha
      cases ha
  constructor
  · intro htext
    refine wp_mono (wp_seedText_passes hB) ?_ ?_
    · intro _ _ hpass
      exact htrack _ fun _ => hpass
    · intro _ _ hfail hboth
      exact hfail (hboth.1 htext)
  · intro htext
    exact htrack _ fun hne => absurd hne htext

end Seed

namespace Store

/-- A `put` with a known key has a free slot, or a seed that passes. -/
def PutSafe (S : Store) (keyId : ℕ) (text : Text) (eng : Engine) : Prop :=
  ∀ key, S.keys[keyId]? = some key → S.HasSlot ∨
    SeedPasses S.cfg key eng S.recoveryTracking S.contentTracking S.seedRuns text
      ⟨.fresh keyId eng.witnessCategory (S.clock + 1), S.nodes, S.putStart.stats⟩

variable {S : Store}

theorem wp_put_passes (keyId : ℕ) (text : Text) (eng : Engine) :
    wp (put keyId text eng)
      (fun _ _ => ∀ key, S.keys[keyId]? = some key →
        SeedPasses S.cfg key eng S.recoveryTracking S.contentTracking S.seedRuns text
          ⟨.fresh keyId eng.witnessCategory (S.clock + 1), S.nodes, S.putStart.stats⟩)
      (fun _ S' => (S.keys[keyId]? = none ∧ S'.sessions = S.sessions) ∨
        ((∃ key, S.keys[keyId]? = some key ∧
          ¬SeedPasses S.cfg key eng S.recoveryTracking S.contentTracking S.seedRuns text
            ⟨.fresh keyId eng.witnessCategory (S.clock + 1), S.nodes, S.putStart.stats⟩) ∧
          S'.sessions = S.tick.evictForCapacity.sessions)) S := by
  rw [wp_put]
  constructor
  · intro key hkey
    refine wp_mono (wp_seedSession_passes S.blockChars_pos) ?_ ?_
    · intro _ _ hpass key' hkey'
      cases hkey.symm.trans hkey'
      exact hpass
    · intro _ _ hfail
      exact .inr ⟨⟨key, hkey, hfail⟩, rfl⟩
  · intro hkey
    exact .inl ⟨hkey, rfl⟩

theorem put_losesNothing_iff {keyId : ℕ} {text : Text} {eng : Engine} :
    LosesNothing (put keyId text eng) S ↔ S.PutSafe keyId text eng := by
  have hwp := S.wp_put_passes keyId text eng
  constructor
  · intro hclean key hkey
    by_cases hslot : S.HasSlot
    · exact .inl hslot
    right
    cases hrun : (put keyId text eng).run S with
    | ok out S' => exact hwp.of_ok hrun key hkey
    | error e S' =>
        rcases hwp.of_error hrun with ⟨hnone, -⟩ | ⟨-, hgone⟩
        · rw [hkey] at hnone
          cases hnone
        · exact absurd (hclean e S' hrun) (not_sameLive_of_evicted (S := S.tick) hslot hgone)
  · intro hsafe e S' hrun
    rcases hwp.of_error hrun with ⟨-, hsame⟩ | ⟨⟨key, hkey, hfail⟩, hgone⟩
    · exact .of_sessions hsame
    · rcases hsafe key hkey with hslot | hpass
      · have hslot' : S.tick.HasSlot := hslot
        rw [evictForCapacity_of_hasSlot hslot'] at hgone
        exact .of_sessions hgone
      · exact absurd hpass hfail

/-! ## lookup -/

/-- The walk of a lookup, before it changes anything. -/
def lookupWalk (S : Store) (key : KeyCtx) (text : Text) (eng : Engine) : Walk :=
  (walkBlocks S.nodes key.fingerprint eng.witnessCategory S.cfg.blockChars 0
    (blockSlices text S.cfg.blockChars) .start).1

/-- What is checked after the slot was made: the byte counts of the node, and the digests. -/
def AdoptPasses (S : Store) (text : Text) (deep : NodeCacheRecord) : Prop :=
  utf8Len deep.textTail ≤ deep.endByte ∧
    ∃ digests, trackQuery S.recoveryTracking S.contentTracking text deep.endChar = .ok digests

/-- The engine encodes the text tail of a node. -/
def TailEncodes (eng : Engine) (deep : NodeCacheRecord) : Prop :=
  ∃ enc tail, eng.encodeStore deep.textTail = .ok enc ∧ TailState.fill deep.textTail enc = .ok tail

/-- A lookup goes as far as adopting `deep`. -/
def AdoptsAt (S : Store) (keyId : ℕ) (text : Text) (eng : Engine) (deep : NodeCacheRecord) : Prop :=
  ∃ key deepKey, S.keys[keyId]? = some key ∧
    (S.lookupWalk key text eng).path.getLast? = some (deepKey, deep) ∧ TailEncodes eng deep

/-- A lookup that goes as far as adopting a node has a free slot, or a node that passes. -/
def LookupSafe (S : Store) (keyId : ℕ) (text : Text) (eng : Engine) : Prop :=
  ∀ deep, S.AdoptsAt keyId text eng deep → S.HasSlot ∨ S.AdoptPasses text deep

theorem wp_adopt_passes (keyId : ℕ) (key : KeyCtx) (text : Text) (eng : Engine) (wk : Walk)
    (deepKey : BlockHash) (deep : NodeCacheRecord) :
    wp (adopt keyId key text eng wk deepKey deep)
      (fun _ _ => S.AdoptPasses text deep)
      (fun _ S' => (¬TailEncodes eng deep ∧ S'.sessions = S.sessions) ∨
        (TailEncodes eng deep ∧ ¬S.AdoptPasses text deep ∧
          S'.sessions = S.tick.evictForCapacity.sessions)) S := by
  unfold adopt AdoptPasses
  simp only [wp_bind, wp_fromExcept, wp_modify, wp_get, wp_throwIf, insertSession, wp_set, wp_pure]
  constructor
  case right =>
    rintro e he
    refine .inl ⟨?_, trivial⟩
    rintro ⟨enc, tail, henc, -⟩
    cases he.symm.trans henc
  intro enc henc
  constructor
  case right =>
    rintro e he
    refine .inl ⟨?_, trivial⟩
    rintro ⟨enc', tail, henc', hfill⟩
    cases henc.symm.trans henc'
    cases he.symm.trans hfill
  intro tail hfill
  have hbytes : tail.textBytes = utf8Len deep.textTail := by
    rw [TailState.textBytes, (TailState.fill_ok hfill).1]
  rw [hbytes, recoveryTracking_evictForCapacity, contentTracking_evictForCapacity]
  constructor
  · intro hunder
    refine .inr ⟨⟨enc, tail, henc, hfill⟩, ?_, trivial⟩
    intro hpass
    omega
  · intro hbyte
    refine ⟨fun digests hdigests => ⟨not_lt.mp hbyte, digests, hdigests⟩, ?_⟩
    intro e he
    refine .inr ⟨⟨enc, tail, henc, hfill⟩, ?_, trivial⟩
    rintro ⟨-, digests, hdigests⟩
    cases he.symm.trans hdigests

theorem wp_lookup_passes (keyId : ℕ) (text : Text) (eng : Engine) :
    wp (lookup keyId text eng)
      (fun _ _ => ∀ deep, S.AdoptsAt keyId text eng deep → S.AdoptPasses text deep)
      (fun _ S' => ((∀ deep, ¬S.AdoptsAt keyId text eng deep) ∧ S'.sessions = S.sessions) ∨
        ∃ deep, S.AdoptsAt keyId text eng deep ∧ ¬S.AdoptPasses text deep ∧
          S'.sessions = S.tick.evictForCapacity.sessions) S := by
  unfold lookup
  simp only [wp_bind, wp_keyCtx, wp_modify, wp_get, wp_runIf]
  constructor
  case right =>
    intro hkey
    refine .inl ⟨?_, trivial⟩
    rintro deep ⟨key, deepKey, hkey', -⟩
    cases hkey.symm.trans hkey'
  intro key hkey
  have hunique : ∀ deep', S.AdoptsAt keyId text eng deep' → ∃ deepKey',
      (S.lookupWalk key text eng).path.getLast? = some (deepKey', deep') ∧
        TailEncodes eng deep' := by
    rintro deep' ⟨key', deepKey', hkey', hpath, henc⟩
    cases hkey.symm.trans hkey'
    exact ⟨deepKey', hpath, henc⟩
  have hwalk : (walkBlocks S.countLookup.nodes key.fingerprint eng.witnessCategory
      S.countLookup.cfg.blockChars 0 (blockSlices text S.countLookup.cfg.blockChars) .start).1 =
        S.lookupWalk key text eng := rfl
  simp only [hwalk]
  cases hlast : (S.lookupWalk key text eng).path.getLast? with
  | none =>
      simp only [wp_bind, wp_modify, wp_pure]
      have hno : ∀ deep, S.AdoptsAt keyId text eng deep → S.AdoptPasses text deep := by
        intro deep hadopt
        obtain ⟨deepKey, hpath, -⟩ := hunique deep hadopt
        cases hlast.symm.trans hpath
      exact ⟨fun _ => hno, fun _ => hno⟩
  | some found =>
      obtain ⟨deepKey, deep⟩ := found
      -- Whether the rejection is counted or not, the rest starts from the same sessions.
      suffices hrest : ∀ S₁ : Store, S₁.AdoptPasses = S.AdoptPasses → S₁.sessions = S.sessions →
          S₁.tick.evictForCapacity.sessions = S.tick.evictForCapacity.sessions →
          wp (some <$> adopt keyId key text eng (S.lookupWalk key text eng) deepKey deep) _ _ S₁ from
        ⟨fun _ => hrest _ rfl rfl (sessions_evictForCapacity_of_stats S.tick _), fun _ =>
          hrest _ rfl rfl (sessions_evictForCapacity_of_stats S.tick _)⟩
      intro S₁ hpasses hsame hevict
      simp only [wp_map]
      refine wp_mono (wp_adopt_passes keyId key text eng _ deepKey deep) ?_ ?_
      · intro _ _ hok deep' hadopt
        obtain ⟨deepKey', hpath, -⟩ := hunique deep' hadopt
        cases hlast.symm.trans hpath
        rwa [← hpasses]
      · intro e S' herr
        rcases herr with ⟨hno, hkeep⟩ | ⟨henc, hfail, hgone⟩
        · refine .inl ⟨?_, hkeep.trans hsame⟩
          intro deep' hadopt
          obtain ⟨deepKey', hpath, henc⟩ := hunique deep' hadopt
          cases hlast.symm.trans hpath
          exact hno henc
        · rw [hpasses] at hfail
          exact .inr ⟨deep, ⟨key, deepKey, hkey, hlast, henc⟩, hfail, hgone.trans hevict⟩

theorem lookup_losesNothing_iff {keyId : ℕ} {text : Text} {eng : Engine} :
    LosesNothing (lookup keyId text eng) S ↔ S.LookupSafe keyId text eng := by
  have hwp := wp_lookup_passes (S := S) keyId text eng
  constructor
  · intro hclean deep hadopt
    by_cases hslot : S.HasSlot
    · exact .inl hslot
    right
    cases hrun : (lookup keyId text eng).run S with
    | ok out S' => exact hwp.of_ok hrun deep hadopt
    | error e S' =>
        rcases hwp.of_error hrun with ⟨hno, -⟩ | ⟨-, -, -, hgone⟩
        · exact absurd hadopt (hno deep)
        · exact absurd (hclean e S' hrun) (not_sameLive_of_evicted (S := S.tick) hslot hgone)
  · intro hsafe e S' hrun
    rcases hwp.of_error hrun with ⟨-, hsame⟩ | ⟨deep, hadopt, hfail, hgone⟩
    · exact .of_sessions hsame
    · rcases hsafe deep hadopt with hslot | hpass
      · have hslot' : S.tick.HasSlot := hslot
        rw [evictForCapacity_of_hasSlot hslot'] at hgone
        exact .of_sessions hgone
      · exact absurd hpass hfail

/-! ## fork -/

/-- A fork fails before it touches anything but the clock. -/
theorem fork_losesNothing (handle : ℕ) : LosesNothing (fork handle) S := by
  apply losesNothing_of_wp
  unfold fork
  simp [touch, insertSession, tick]

/-! ## imports -/

omit [Digests] in
theorem sessions_of_gates {S' : Store} (h : S' = S ∨ S' = S.countReject) :
    S'.sessions = S.sessions := by
  rcases h with rfl | rfl <;> rfl

section Imports

variable (keyId : ℕ) (recBytes : List UInt8) (eng : Engine)

theorem importSession_losesNothing (sealedText : Text) :
    LosesNothing (importSession keyId recBytes eng sealedText) S := by
  apply losesNothing_of_wp
  unfold importSession
  simp only [wp_bind, wp_keyCtx, wp_get, wp_fromExcept, wp_modify, insertSession, wp_set, wp_pure]
  refine ⟨fun key _ => ?_, fun _ => trivial⟩
  refine wp_mono (wp_importRecordGates key recBytes eng) ?_ (fun _ _ h => sessions_of_gates h)
  rintro ⟨parsed, sealedCount, tail⟩ S' ⟨rfl, -⟩
  simp

/-- The content scan that follows the eviction is of a text the record's bounds admit. -/
theorem importSessionWithRecovery_losesNothing (historicalText : Text)
    (expected : RecoveryMaterial) :
    LosesNothing (importSessionWithRecovery keyId recBytes historicalText expected eng) S := by
  apply losesNothing_of_wp
  unfold importSessionWithRecovery
  simp only [wp_bind, wp_keyCtx, wp_get, wp_fromExcept, wp_modify, wp_throwIf, wp_rejectUnless,
    insertSession, wp_set, wp_pure]
  refine ⟨fun key _ => ?_, fun _ => trivial⟩
  refine wp_mono (wp_importRecordGates key recBytes eng) ?_ (fun _ _ h => sessions_of_gates h)
  rintro ⟨parsed, sealedCount, tail⟩ S' ⟨rfl, hgates⟩
  refine ⟨fun _ => rfl, fun _ => ⟨fun recovery _ => ⟨?_, fun _ => rfl⟩, fun _ _ => rfl⟩⟩
  rintro ⟨-, -, hbytes, -⟩
  refine ⟨fun _ _ => trivial, ?_⟩
  intro e he
  have hlen : utf8Len historicalText ≤ 2 ^ 63 := by
    have hmax : MAX_FULL_TEXT_BYTES ≤ 2 ^ 63 := by decide
    rw [hbytes]
    exact hgates.fullTextBytes_le.trans hmax
  obtain ⟨digests, hdigests⟩ := exists_trackText false S'.tick.evictForCapacity.contentTracking hlen
  cases he.symm.trans hdigests

theorem importSessionWithBinding_losesNothing (historicalText : Text) (bindingBytes : List UInt8) :
    LosesNothing (importSessionWithBinding keyId recBytes historicalText bindingBytes eng) S := by
  apply losesNothing_of_wp
  unfold importSessionWithBinding
  simp only [wp_bind, wp_keyCtx, wp_get, wp_fromExcept, wp_modify, wp_throwIf, wp_rejectUnless,
    wp_counted, insertSession, wp_set, wp_pure]
  refine ⟨fun key _ => ?_, fun _ => trivial⟩
  refine wp_mono (wp_importRecordGates key recBytes eng) ?_ (fun _ _ h => sessions_of_gates h)
  rintro ⟨parsed, sealedCount, tail⟩ S' ⟨rfl, -⟩
  simp

theorem importSessionWithBindingCandidate_losesNothing (candidateText : Text)
    (bindingBytes : List UInt8) :
    LosesNothing (importSessionWithBindingCandidate keyId recBytes candidateText bindingBytes eng)
      S := by
  intro e S' hrun
  have hwp : wp (importSessionWithBindingCandidate keyId recBytes candidateText bindingBytes eng)
      (fun _ _ => True) (fun _ S' => SameLive S S') S := by
    unfold importSessionWithBindingCandidate
    simp only [wp_bind, wp_fromExcept, wp_pure]
    refine ⟨fun binding _ => ⟨fun historicalText _ => ?_, fun _ _ => .of_sessions rfl⟩,
      fun _ _ => .of_sessions rfl⟩
    refine wp_mono (wp_run _ _) (fun _ _ _ => trivial) ?_
    intro e S' hrun
    exact importSessionWithBinding_losesNothing keyId recBytes eng historicalText bindingBytes e S'
      hrun
  exact hwp.of_error hrun

theorem importSessionWithSidecar_losesNothing (sidecarBytes : List UInt8) (sealedText : Text) :
    LosesNothing (importSessionWithSidecar keyId recBytes sidecarBytes eng sealedText) S := by
  apply losesNothing_of_wp
  unfold importSessionWithSidecar
  simp only [wp_bind, wp_keyCtx, wp_get, wp_fromExcept, wp_modify, wp_rejectUnless, wp_counted,
    insertSession, wp_set, wp_pure]
  refine ⟨fun key _ => ?_, fun _ => trivial⟩
  refine wp_mono (wp_importRecordGates key recBytes eng) ?_ (fun _ _ h => sessions_of_gates h)
  rintro ⟨parsed, sealedCount, tail⟩ S' ⟨rfl, -⟩
  simp

end Imports

end Store

/-! ## All creations -/

/-- One call that creates a session. -/
inductive Creation
  | put (keyId : ℕ) (text : Text) (eng : Engine)
  | lookup (keyId : ℕ) (text : Text) (eng : Engine)
  | fork (handle : ℕ)
  | importSession (keyId : ℕ) (recBytes : List UInt8) (eng : Engine) (sealedText : Text)
  | importWithRecovery (keyId : ℕ) (recBytes : List UInt8) (historicalText : Text)
      (expected : RecoveryMaterial) (eng : Engine)
  | importWithBinding (keyId : ℕ) (recBytes : List UInt8) (historicalText : Text)
      (bindingBytes : List UInt8) (eng : Engine)
  | importWithBindingCandidate (keyId : ℕ) (recBytes : List UInt8) (candidateText : Text)
      (bindingBytes : List UInt8) (eng : Engine)
  | importWithSidecar (keyId : ℕ) (recBytes sidecarBytes : List UInt8) (eng : Engine)
      (sealedText : Text)

/-- When the call fails on `S`, the live sessions are as they were. -/
def Creation.LosesNothing (S : Store) : Creation → Prop
  | .put keyId text eng => StoreCore.LosesNothing (Store.put keyId text eng) S
  | .lookup keyId text eng => StoreCore.LosesNothing (Store.lookup keyId text eng) S
  | .fork handle => StoreCore.LosesNothing (Store.fork handle) S
  | .importSession keyId recBytes eng sealedText =>
      StoreCore.LosesNothing (Store.importSession keyId recBytes eng sealedText) S
  | .importWithRecovery keyId recBytes historicalText expected eng => StoreCore.LosesNothing
      (Store.importSessionWithRecovery keyId recBytes historicalText expected eng) S
  | .importWithBinding keyId recBytes historicalText bindingBytes eng => StoreCore.LosesNothing
      (Store.importSessionWithBinding keyId recBytes historicalText bindingBytes eng) S
  | .importWithBindingCandidate keyId recBytes candidateText bindingBytes eng =>
      StoreCore.LosesNothing
        (Store.importSessionWithBindingCandidate keyId recBytes candidateText bindingBytes eng) S
  | .importWithSidecar keyId recBytes sidecarBytes eng sealedText => StoreCore.LosesNothing
      (Store.importSessionWithSidecar keyId recBytes sidecarBytes eng sealedText) S

/-- The condition under which it does: only `put` and `lookup` need one. -/
def Creation.Safe (S : Store) : Creation → Prop
  | .put keyId text eng => S.PutSafe keyId text eng
  | .lookup keyId text eng => S.LookupSafe keyId text eng
  | _ => True

/-- A creation that fails leaves the live sessions as they were exactly when it is safe:
forks and imports always are; a `put` or a `lookup` that has come to its eviction needs a
free slot, or must not fail any more. -/
theorem creation_loses_nothing_iff (S : Store) (c : Creation) : c.LosesNothing S ↔ c.Safe S := by
  cases c with
  | put => exact Store.put_losesNothing_iff
  | lookup => exact Store.lookup_losesNothing_iff
  | fork handle => exact iff_of_true (Store.fork_losesNothing handle) trivial
  | importSession => exact iff_of_true (Store.importSession_losesNothing _ _ _ _) trivial
  | importWithRecovery =>
      exact iff_of_true (Store.importSessionWithRecovery_losesNothing _ _ _ _ _) trivial
  | importWithBinding =>
      exact iff_of_true (Store.importSessionWithBinding_losesNothing _ _ _ _ _) trivial
  | importWithBindingCandidate =>
      exact iff_of_true (Store.importSessionWithBindingCandidate_losesNothing _ _ _ _ _) trivial
  | importWithSidecar =>
      exact iff_of_true (Store.importSessionWithSidecar_losesNothing _ _ _ _ _) trivial

end Calls

/-- Room for one session. -/
def oneSlotConfig : StoreConfig := ⟨4096, 64, 1024, 64, 1⟩

/-- An engine that refuses every append. -/
def refusingEngine : Engine := { unitEngine with append := fun tail _ => (.error ⟨"refused"⟩, tail) }

/-- The only session is evicted for a `put` that the engine then refuses. -/
theorem put_loses_session :
    ∃ S₀ S out, Store.new oneSlotConfig = .ok S₀ ∧ (openSession [] unitEngine).run S₀ = .ok out S ∧
      ¬(Creation.put 0 ['a'] refusingEngine).LosesNothing S := by
  refine ⟨_, _, _, rfl, rfl, ?_⟩
  intro hclean
  have hlost := hclean _ _ rfl 1
  cases hlost

end Toktier.StoreCore
