import Toktier.StoreCore.AppendLaws
import Mathlib.Logic.Relation

/-!
# What a failed append leaves behind

An append works on the session's tail in place and verifies the engine's claim
afterwards. A failure before the tail has changed leaves the session as it was; a later
one does not. This file says exactly when a failed append is clean.

## Main definitions

* `SameContent`: everything a client observes of a session is unchanged.
* `FailsClean`: a failing operation leaves its session's content and the others alone.
* `SettlePasses`: no block round, seal or digest step of the bookkeeping fails.
* `AppendSafe`: the condition on the store, the delta and the engine.

## Main results

* `append_clean_iff`: failed appends are clean exactly under `AppendSafe`.
-/
namespace Toktier.StoreCore

open Toktier.Lib

/-- Ids, text, revision, hashes, totals, chain state and digests are unchanged. -/
structure SameContent (s s' : Session) : Prop where
  ids : s'.allIds = s.allIds
  text : s'.text = s.text
  revision : s'.revision = s.revision
  record_hash : s'.recordHash = s.recordHash
  prev_record_hash : s'.prevRecordHash = s.prevRecordHash
  total_chars : s'.totalChars = s.totalChars
  chain : s'.chainOk = s.chainOk ∧ s'.chainTail = s.chainTail ∧
    s'.chainBaseSafe = s.chainBaseSafe ∧ s'.chainBaseIdx = s.chainBaseIdx ∧
    s'.blocksEnd = s.blocksEnd ∧ s'.blocksEndByte = s.blocksEndByte ∧ s'.buf = s.buf ∧
    s'.sealLog = s.sealLog
  digests : s'.recovery = s.recovery ∧ s'.content = s.content

/-- Session `h` has kept its content, and no other session has changed. -/
def CleanAt (S : Store) (h : ℕ) (S' : Store) : Prop :=
  (∀ h', h' ≠ h → S'.sessions.lookup h' = S.sessions.lookup h') ∧
    (S.sessions.lookup h = none → S'.sessions.lookup h = none) ∧
    ∀ s, S.sessions.lookup h = some s →
      ∃ s', S'.sessions.lookup h = some s' ∧ SameContent s s'

/-- When `m` fails on `S`, session `h` keeps its content and no other session changes. -/
def FailsClean {α : Type} (m : Fallible Store StoreError α) (S : Store) (h : ℕ) : Prop :=
  ∀ e S', m.run S = .error e S' → CleanAt S h S'

/-- The tail's ids and text are the old ones. -/
def TailKept (tail tail' : TailState) : Prop := tail'.ids = tail.ids ∧ tail'.text = tail.text

section Condition

variable [Digests] (cfg : StoreConfig) (key : KeyCtx) (eng : Engine)

/-- The session an append continues with once the tail has grown. -/
def grownWork (clock : ℕ) (delta : Text) (w : Work) : Work :=
  { w with sess := { w.sess.openAppend clock delta with
      tail := (growTail cfg eng w.sess.tail delta).2 } }

/-- No round of the block loop fails, from `w` on. -/
def RoundsPass (w : Work) : Prop :=
  ∀ w', Relation.ReflTransGen (fun a b => sealBlock cfg key a = .ok (true, b)) w w' →
    ∀ e, sealBlock cfg key w' ≠ .error e

/-- The cut passes the checks before a seal, and the rest of the tail can be rebuilt. -/
def CutFits (tail : TailState) (cut : BoundaryCut) : Prop :=
  ∃ starts ends shared rebased, checkCut tail cut = .ok (starts, ends, shared) ∧
    rebase tail cut starts ends (shared.map Prod.snd) = .ok rebased

/-- A boundary query that is due is answered, with a cut that fits if it names one. -/
def SealPasses (s : Session) : Prop :=
  SealDue cfg key s → ∃ found,
    eng.lastCertifiedBoundary s.tail s.scanFloor (s.tail.textChars - key.sealGuardChars) =
      .ok found ∧ ∀ cut ∈ found, CutFits s.tail cut

/-- The digests that are kept can take `delta`. -/
def DigestsPass (s : Session) (delta : Text) : Prop :=
  (∀ d ∈ s.recovery, d.textBytes + utf8Len delta < 2 ^ 64) ∧
    ∀ d ∈ s.content, ∃ d', (ContentDigest.append (utf8 delta)).run d = .ok () d'

/-- The bookkeeping passes after text came in: every block round, then the seal. -/
def PostTextPasses (w : Work) : Prop :=
  (w.sess.chainOk = true → RoundsPass cfg key { w with sess := w.sess.recount }) ∧
    SealPasses cfg key eng w.sess

/-- Nothing fails once the grown tail is accepted. -/
def SettlePasses (delta : Text) (w : Work) : Prop :=
  (delta ≠ [] → PostTextPasses cfg key eng w) ∧ DigestsPass w.sess delta

/-- On one session: a step that fails before the tail is accepted has left it alone, and
nothing fails after that. -/
def SessionSafe (clock : ℕ) (delta : Text) (w : Work) : Prop :=
  let grown := growTail cfg eng w.sess.tail delta
  match grown.1 with
  | .error _ => TailKept w.sess.tail grown.2
  | .ok (_, kept) =>
      match verifyAppendShape grown.2 w.sess.tail.textBytes delta w.sess.tail.ids kept with
      | .error _ => TailKept w.sess.tail grown.2
      | .ok _ => SettlePasses cfg key eng delta (grownWork cfg eng clock delta w)

end Condition

/-- The append is refused by its gates, or its delta is empty, or its session is safe. -/
def AppendSafe [Digests] (S : Store) (h : ℕ) (delta : Text) (rev : ℕ) (eng : Engine) : Prop :=
  delta = [] ∨ ∀ s key, S.GatesPass h rev eng s key →
    SessionSafe S.cfg key eng (S.clock + 1) delta ⟨s, S.nodes, S.tick.countExtend.stats⟩

/-! ## When the bookkeeping passes -/

section Passes

variable [Digests] {cfg : StoreConfig} {key : KeyCtx} {eng : Engine}

theorem roundsPass_of_step {w w₁ : Work} (h : sealBlock cfg key w = .ok (true, w₁)) :
    RoundsPass cfg key w ↔ RoundsPass cfg key w₁ := by
  refine ⟨fun hp w' hr => hp w' (.head h hr), fun hp w' hr => ?_⟩
  obtain rfl | ⟨w₂, hw₂, hr⟩ := hr.cases_head
  · exact fun e he => by rw [h] at he; cases he
  · rw [h] at hw₂
    cases hw₂
    exact hp w' hr

theorem roundsPass_of_stop {w w₁ : Work} (h : sealBlock cfg key w = .ok (false, w₁)) :
    RoundsPass cfg key w := by
  intro w' hr
  obtain rfl | ⟨w₂, hw₂, -⟩ := hr.cases_head
  · exact fun e he => by rw [h] at he; cases he
  · rw [h] at hw₂
    cases hw₂

/-- The loop returns exactly when none of its rounds fails. -/
theorem wp_sealBlocksLoop_passes (hB : 0 < cfg.blockChars) (fuel : ℕ) {w : Work}
    (hfuel : w.sess.totalChars < w.sess.blocksEnd + fuel) :
    wp (sealBlocksLoop cfg key fuel) (fun _ _ => RoundsPass cfg key w)
      (fun _ _ => ¬RoundsPass cfg key w) w := by
  induction fuel generalizing w with
  | zero =>
      have hdue : ¬w.sess.BlockDue cfg := fun h => by
        have := h.2
        simp only [Session.nextEnd] at this
        omega
      exact roundsPass_of_stop (if_neg hdue)
  | succ fuel ih =>
      simp only [sealBlocksLoop, wp_bind, wp_get, wp_fromExcept]
      obtain ⟨more, w', hr, hround⟩ | ⟨e, hr, -⟩ := sealBlock_cases w
      · refine ⟨fun a ha => ?_, fun e he => by rw [hr] at he; cases he⟩
        rw [hr] at ha
        cases ha
        simp only [wp_set]
        cases more with
        | true =>
            obtain ⟨hend, hle, htotal⟩ := hround.nextEnd_le
            have hnext : w.sess.nextEnd cfg = w.sess.blocksEnd + cfg.blockChars := rfl
            simp only [roundsPass_of_step hr]
            exact ih (by omega)
        | false => exact roundsPass_of_stop hr
      · refine ⟨fun a ha => absurd ha (by simp [hr]), fun e' _ hp => ?_⟩
        exact hp w .refl e hr

omit [Digests] in
theorem wp_sealTail_passes (cut : BoundaryCut) (w : Work) :
    wp (sealTail cut) (fun _ _ => CutFits w.sess.tail cut)
      (fun _ _ => ¬CutFits w.sess.tail cut) w := by
  unfold sealTail CutFits
  simp only [wp_bind, wp_get, wp_fromExcept, wp_set, wp_modify]
  refine ⟨?_, fun e he => ?_⟩
  · rintro ⟨starts, ends, shared⟩ hcheck
    refine ⟨fun rebased hre => ⟨starts, ends, shared, rebased, hcheck, hre⟩, fun e he => ?_⟩
    rintro ⟨starts', ends', shared', rebased, hcheck', hre⟩
    rw [hcheck] at hcheck'
    cases hcheck'
    rw [he] at hre
    cases hre
  · rintro ⟨starts, ends, shared, rebased, hcheck, -⟩
    rw [he] at hcheck
    cases hcheck

omit [Digests] in
theorem wp_advanceSeal_passes (w : Work) (hdue : SealDue cfg key w.sess) :
    wp (advanceSeal eng (w.sess.tail.textChars - key.sealGuardChars))
      (fun _ _ => SealPasses cfg key eng w.sess) (fun _ _ => ¬SealPasses cfg key eng w.sess) w := by
  unfold advanceSeal
  simp only [wp_bind, wp_get, wp_fromExcept]
  set answer := eng.lastCertifiedBoundary w.sess.tail w.sess.scanFloor
    (w.sess.tail.textChars - key.sealGuardChars) with hanswer
  have hiff : SealPasses cfg key eng w.sess ↔
      ∃ found, answer = .ok found ∧ ∀ cut ∈ found, CutFits w.sess.tail cut :=
    ⟨fun h => h hdue, fun h _ => h⟩
  simp only [hiff]
  cases answer with
  | error e => simp [Except.mapError]
  | ok found =>
      simp only [Except.mapError, Except.ok.injEq, forall_eq', reduceCtorEq, false_imp_iff,
        implies_true, and_true, exists_eq_left']
      cases found with
      | none => simp
      | some cut =>
          simp only [wp_bind, wp_modify, Option.mem_some_iff, forall_eq']
          exact wp_sealTail_passes cut w

omit [Digests] in
theorem wp_trySeal_passes (w : Work) :
    wp (trySeal cfg key eng) (fun _ _ => SealPasses cfg key eng w.sess)
      (fun _ _ => ¬SealPasses cfg key eng w.sess) w := by
  unfold trySeal countSoftCap
  simp only [wp_bind, wp_get, wp_runIf, wp_modify]
  exact ⟨fun hdue => wp_advanceSeal_passes w hdue, fun hdue => fun h => absurd h hdue⟩

omit [Digests] in
theorem SameButChain.sealPasses_iff {s s' : Session} (h : SameButChain s s') :
    SealPasses cfg key eng s' ↔ SealPasses cfg key eng s := by
  rw [h]
  rfl

theorem wp_postTextOps_passes (hB : 0 < cfg.blockChars) (w : Work) :
    wp (postTextOps cfg key eng) (fun _ _ => PostTextPasses cfg key eng w)
      (fun _ _ => ¬PostTextPasses cfg key eng w) w := by
  unfold postTextOps PostTextPasses
  simp only [wp_bind, wp_modify, wp_get, wp_runIf]
  refine ⟨fun hok => ?_, fun hok => ?_⟩
  · have hok' : w.sess.chainOk = true := hok
    simp only [hok', true_imp_iff]
    have hloop : wp (sealBlocks cfg key)
        (fun _ w' => RoundsPass cfg key { w with sess := w.sess.recount } ∧
          SameButChain w.sess.recount w'.sess)
        (fun _ _ => ¬RoundsPass cfg key { w with sess := w.sess.recount })
        { w with sess := w.sess.recount } := by
      have hpass : wp (sealBlocks cfg key) _ _ { w with sess := w.sess.recount } :=
        wp_sealBlocksLoop_passes hB (w.sess.recount.totalChars + 1) (by simp only; omega)
      exact wp_mono (wp_and hpass (wp_sealBlocks_frame hB _)) (fun _ _ h => h) (fun _ _ h => h.1)
    refine wp_mono hloop ?_ (fun _ _ hp h => hp h.1)
    rintro _ w₁ ⟨hp, hsame⟩
    have hiff : SealPasses cfg key eng w₁.sess ↔ SealPasses cfg key eng w.sess :=
      hsame.sealPasses_iff
    exact wp_mono (wp_trySeal_passes w₁) (fun _ _ h => ⟨hp, hiff.mp h⟩)
      (fun _ _ h h' => h (hiff.mpr h'.2))
  · have hno : ¬w.sess.chainOk = true := hok
    have hseal : wp (trySeal cfg key eng) (fun _ _ => SealPasses cfg key eng w.sess)
        (fun _ _ => ¬SealPasses cfg key eng w.sess) { w with sess := w.sess.recount } :=
      wp_trySeal_passes { w with sess := w.sess.recount }
    exact wp_mono hseal (fun _ _ h => ⟨fun h' => absurd h' hno, h⟩) (fun _ _ h h' => h h'.2)

omit [Digests] in
theorem wp_feedRecovery_passes (delta : Text) (w : Work) :
    wp (feedRecovery delta)
      (fun _ w' => (∀ d ∈ w.sess.recovery, d.textBytes + utf8Len delta < 2 ^ 64) ∧
        w'.sess.content = w.sess.content)
      (fun _ _ => ¬∀ d ∈ w.sess.recovery, d.textBytes + utf8Len delta < 2 ^ 64) w := by
  unfold feedRecovery
  simp only [wp_bind, wp_get]
  cases w.sess.recovery with
  | none => simp
  | some d =>
      simp only [RecoveryDigest.append, wp_bind, wp_fromExcept, wp_set, Option.mem_some_iff,
        forall_eq']
      split_ifs with h
      · simpa using h
      · simpa using h

theorem wp_feedContent_passes (delta : Text) (w : Work) :
    wp (feedContent delta)
      (fun _ _ => ∀ d ∈ w.sess.content, ∃ d', (ContentDigest.append (utf8 delta)).run d = .ok () d')
      (fun _ _ => ¬∀ d ∈ w.sess.content,
        ∃ d', (ContentDigest.append (utf8 delta)).run d = .ok () d') w := by
  unfold feedContent
  simp only [wp_bind, wp_get]
  cases w.sess.content with
  | none => simp
  | some d =>
      simp only [wp_zoomIn, Option.mem_some_iff, forall_eq']
      refine wp_mono (wp_run _ _) (fun _ d' h => ⟨d', h⟩) (fun e d' h => ?_)
      rintro ⟨d'', h'⟩
      rw [h] at h'
      cases h'

/-- Settling returns exactly when each of its steps passes. -/
theorem wp_settleAppend_passes (hB : 0 < cfg.blockChars) (path : String) (delta : Text) (w : Work) :
    wp (settleAppend cfg key eng path delta) (fun _ _ => SettlePasses cfg key eng delta w)
      (fun _ _ => ¬SettlePasses cfg key eng delta w) w := by
  unfold settleAppend SettlePasses
  simp only [wp_bind, wp_runIf, countPath, wp_modify]
  have hfeed (w₁ : Work) (hr : w₁.sess.recovery = w.sess.recovery)
      (hc : w₁.sess.content = w.sess.content) :
      wp (feedRecovery delta)
        (fun _ w₂ => wp (feedContent delta) (fun _ _ => DigestsPass w.sess delta)
          (fun _ _ => ¬DigestsPass w.sess delta) w₂)
        (fun _ _ => ¬DigestsPass w.sess delta) w₁ := by
    refine wp_mono (wp_feedRecovery_passes delta w₁) (fun _ w₂ h₂ => ?_)
      (fun _ _ h h' => h (by rw [hr]; exact h'.1))
    rw [hr] at h₂
    refine wp_mono (wp_feedContent_passes delta w₂) (fun _ _ h => ⟨h₂.1, ?_⟩) (fun _ _ h h' => h ?_)
    · rwa [h₂.2, hc] at h
    · rw [h₂.2, hc]
      exact h'.2
  refine ⟨fun hd => ?_, fun hd => ?_⟩
  · simp only [hd, true_imp_iff, ne_eq, not_false_eq_true]
    refine wp_mono (wp_and (wp_postTextOps_passes hB w) (wp_postTextOps_frame cfg key eng hB w))
      ?_ (fun _ _ h h' => h.1 h'.1)
    rintro _ w₁ ⟨hp, J, T, hreg⟩
    exact wp_mono (hfeed _ hreg.ledger.recovery hreg.ledger.content)
      (fun _ _ h => wp_mono h (fun _ _ h => ⟨hp, h⟩) (fun _ _ h h' => h h'.2))
      (fun _ _ h h' => h h'.2)
  · exact wp_mono (hfeed _ rfl rfl)
      (fun _ _ h => wp_mono h (fun _ _ h => ⟨fun h' => absurd h' hd, h⟩) (fun _ _ h h' => h h'.2))
      (fun _ _ h h' => h h'.2)

end Passes

/-! ## An empty delta changes no digest -/

theorem RecoveryDigest.append_nil {d d' : RecoveryDigest} (h : d.append [] = .ok d') : d' = d := by
  unfold append at h
  split at h
  · cases h
  · cases h
    simp

theorem wp_feedRecovery_nil (w : Work) :
    wp (feedRecovery []) (fun _ w' => w' = w) (fun _ w' => w' = w) w := by
  unfold feedRecovery
  simp only [wp_bind, wp_get]
  cases hr : w.sess.recovery with
  | none => exact rfl
  | some d =>
      simp only [wp_bind, wp_fromExcept, wp_set]
      refine ⟨fun d' hd' => ?_, fun _ _ => trivial⟩
      rw [RecoveryDigest.append_nil hd', ← hr]

section Empty

variable [Digests]

/-- A mark below the length cannot be passed: the state is left as it is. -/
theorem ContentDigest.wp_append_nil (d : ContentDigest) :
    wp (ContentDigest.append []) (fun _ d' => d' = d) (fun _ d' => d' = d) d := by
  unfold ContentDigest.append
  simp only [wp_bind, wp_get, wp_throwIf, wp_modify, List.length_nil, Nat.add_zero]
  refine ⟨fun _ => trivial, fun _ => ?_⟩
  unfold passMarks
  simp only [wp_bind, wp_get]
  by_cases hlt : d.nextMark < d.byteLength
  · simp only [if_pos hlt, MAX_MARKS, wp_bind, wp_throwIf]
    exact ⟨fun _ => trivial, fun h => absurd hlt h⟩
  · simp only [if_neg hlt, wp_pure]
    simp

theorem wp_feedContent_nil (w : Work) :
    wp (feedContent []) (fun _ w' => w' = w) (fun _ w' => w' = w) w := by
  unfold feedContent
  simp only [wp_bind, wp_get]
  cases hc : w.sess.content with
  | none => exact rfl
  | some d =>
      simp only [wp_zoomIn]
      refine wp_mono (ContentDigest.wp_append_nil d) (fun _ d' hd => ?_) (fun _ d' hd => ?_)
      · rw [hd, ← hc]
      · rw [hd, ← hc]

theorem wp_settleAppend_nil (cfg : StoreConfig) (key : KeyCtx) (eng : Engine) (path : String)
    (w : Work) :
    wp (settleAppend cfg key eng path []) (fun _ w' => w'.sess = w.sess)
      (fun _ w' => w'.sess = w.sess) w := by
  unfold settleAppend
  simp only [wp_bind, wp_runIf, countPath, wp_modify, ne_eq, not_true_eq_false, false_imp_iff,
    not_false_eq_true, true_imp_iff, true_and]
  refine wp_mono (wp_feedRecovery_nil _) (fun _ w₁ h₁ => ?_) (fun _ w₁ h₁ => by rw [h₁])
  subst h₁
  exact wp_mono (wp_feedContent_nil _) (fun _ w₂ h₂ => by rw [h₂]) (fun _ w₂ h₂ => by rw [h₂])

end Empty

/-! ## The course of an append on one session -/

section Course

variable [Digests] {cfg : StoreConfig} {key : KeyCtx} {eng : Engine} {clock : ℕ} {delta : Text}
  {w : Work}

theorem appendSession_run_of_grow_error {e : StoreError}
    (hg : (growTail cfg eng w.sess.tail delta).1 = .error e) :
    (appendSession cfg key eng clock delta).run w =
      .error e (grownWork cfg eng clock delta w) := by
  simp only [appendSession, EStateM.run_bind, EStateM.run_get, EStateM.run_set, hg]
  rfl

theorem appendSession_run_of_verify_error {e : StoreError} {path : String} {kept : ℕ}
    (hg : (growTail cfg eng w.sess.tail delta).1 = .ok (path, kept))
    (hv : verifyAppendShape (growTail cfg eng w.sess.tail delta).2 w.sess.tail.textBytes delta
      w.sess.tail.ids kept = .error e) :
    (appendSession cfg key eng clock delta).run w =
      .error e (grownWork cfg eng clock delta w) := by
  simp only [appendSession, EStateM.run_bind, EStateM.run_get, EStateM.run_set, hg, fromExcept,
    EStateM.run_pure, hv]
  rfl

theorem appendSession_run_of_settle_error {e : StoreError} {path : String} {kept : ℕ} {w' : Work}
    (hg : (growTail cfg eng w.sess.tail delta).1 = .ok (path, kept))
    (hv : verifyAppendShape (growTail cfg eng w.sess.tail delta).2 w.sess.tail.textBytes delta
      w.sess.tail.ids kept = .ok ())
    (hs : (settleAppend cfg key eng path delta).run (grownWork cfg eng clock delta w) =
      .error e w') :
    (appendSession cfg key eng clock delta).run w = .error e w' := by
  have hw : { w with sess := { w.sess.openAppend clock delta with
      tail := (growTail cfg eng w.sess.tail delta).2 } } = grownWork cfg eng clock delta w := rfl
  simp only [appendSession, EStateM.run_bind, EStateM.run_get, EStateM.run_set, hg, hv, fromExcept,
    EStateM.run_pure, hw, hs]

theorem appendSession_run_of_settle_ok (hB : 0 < cfg.blockChars) {path : String} {kept : ℕ}
    {w' : Work} (hg : (growTail cfg eng w.sess.tail delta).1 = .ok (path, kept))
    (hv : verifyAppendShape (growTail cfg eng w.sess.tail delta).2 w.sess.tail.textBytes delta
      w.sess.tail.ids kept = .ok ())
    (hs : (settleAppend cfg key eng path delta).run (grownWork cfg eng clock delta w) =
      .ok () w') :
    ∃ patch w'', (appendSession cfg key eng clock delta).run w = .ok patch w'' := by
  have hshape : ShapeOk w.sess.tail (growTail cfg eng w.sess.tail delta).2 delta kept :=
    growTail_shape (Prod.ext hg rfl) hv
  obtain ⟨s₁, J, T, hreg, hdig⟩ := (wp_settleAppend cfg key eng hB path delta _).of_ok hs
  -- The offset is within the stream: the bookkeeping keeps the token count.
  have hcount : w.sess.sealedIds.len + kept ≤ w'.sess.tokenCount := by
    rw [← Session.length_allIds, hdig.allIds_eq, hreg.allIds_eq, Session.length_allIds]
    have hlen : (grownWork cfg eng clock delta w).sess.tokenCount =
        w.sess.sealedIds.len + (growTail cfg eng w.sess.tail delta).2.nTokens := by
      simp only [grownWork, Session.tokenCount, Session.openAppend]
      split <;> rfl
    have := hshape.kept_le'
    omega
  have hcommit (r : ℕ) : (w'.sess.commit key.fingerprint r).tokenCount = w'.sess.tokenCount := rfl
  have hw : { w with sess := { w.sess.openAppend clock delta with
      tail := (growTail cfg eng w.sess.tail delta).2 } } = grownWork cfg eng clock delta w := rfl
  simp only [appendSession, EStateM.run_bind, EStateM.run_get, EStateM.run_set, hg, hv, fromExcept,
    EStateM.run_pure, hw, hs, EStateM.run_modify, appendOutcome, throwIf, hcommit,
    if_neg (not_lt.mpr hcount)]
  exact ⟨_, _, rfl⟩

end Course

/-! ## The condition is exact -/

section Exact

variable [Digests]

omit [Digests] in
/-- Before the tail has changed, nothing a client observes has. -/
theorem SameContent.of_tailKept {s : Session} {clock : ℕ} {delta : Text} {tail : TailState}
    (ht : TailKept s.tail tail) : SameContent s { s.openAppend clock delta with tail := tail } := by
  obtain ⟨hids, htext⟩ := ht
  unfold Session.openAppend
  split <;>
    exact ⟨by simp [Session.allIds_eq, Session.bumpIdsGeneration, hids],
      by simp [Session.text, Session.bumpIdsGeneration, htext], rfl, rfl, rfl, rfl,
      ⟨rfl, rfl, rfl, rfl, rfl, rfl, rfl, rfl⟩, ⟨rfl, rfl⟩⟩

omit [Digests] in
theorem tailKept_of_same {s : Session} {clock : ℕ} {delta : Text} {tail : TailState}
    (h : ({ s.openAppend clock delta with tail := tail } : Session).allIds = s.allIds ∧
      ({ s.openAppend clock delta with tail := tail } : Session).text = s.text) : TailKept s.tail tail := by
  obtain ⟨hids, htext⟩ := h
  have hopen : (s.openAppend clock delta).sealedIds = s.sealedIds ∧
      (s.openAppend clock delta).sealedText = s.sealedText := by
    unfold Session.openAppend
    split <;> exact ⟨rfl, rfl⟩
  simp only [Session.allIds_eq, hopen.1] at hids
  simp only [Session.text, hopen.2] at htext
  exact ⟨List.append_cancel_left hids, List.append_cancel_left htext⟩

omit [Digests] in
/-- A non-empty delta that was accepted has made the text longer. -/
theorem utf8Len_text_grownWork {cfg : StoreConfig} {eng : Engine} {clock : ℕ} {delta : Text}
    {w : Work} {kept : ℕ} (hd : delta ≠ [])
    (hshape : ShapeOk w.sess.tail (growTail cfg eng w.sess.tail delta).2 delta kept) :
    utf8Len w.sess.text < utf8Len (grownWork cfg eng clock delta w).sess.text := by
  have hbytes := hshape.bytes
  have hpos := utf8Len_pos hd
  have hsealed : (grownWork cfg eng clock delta w).sess.sealedText = w.sess.sealedText := by
    simp only [grownWork, Session.openAppend]
    split <;> rfl
  have htail : (grownWork cfg eng clock delta w).sess.tail =
      (growTail cfg eng w.sess.tail delta).2 := rfl
  simp only [TailState.textBytes] at hbytes
  simp only [Session.text, utf8Len_append, hsealed, htail, hbytes]
  omega

variable {cfg : StoreConfig} {key : KeyCtx} {eng : Engine} {clock : ℕ} {delta : Text} {w : Work}

/-- A safe append that fails leaves the session it opened, over a tail with the old ids and
text. -/
theorem appendSession_safe_error (hB : 0 < cfg.blockChars)
    (hsafe : delta = [] ∨ SessionSafe cfg key eng clock delta w) {e : StoreError} {w' : Work}
    (hrun : (appendSession cfg key eng clock delta).run w = .error e w') :
    ∃ tail, TailKept w.sess.tail tail ∧
      w'.sess = { w.sess.openAppend clock delta with tail := tail } := by
  by_cases hd : delta = []
  · subst hd
    have hg : growTail cfg eng w.sess.tail [] = (.ok ("noop", w.sess.tail.nTokens), w.sess.tail) :=
      growTail_nil
    have hv : verifyAppendShape (growTail cfg eng w.sess.tail []).2 w.sess.tail.textBytes []
        w.sess.tail.ids w.sess.tail.nTokens = .ok () := if_pos rfl
    have hg₁ := congrArg Prod.fst hg
    cases hs : (settleAppend cfg key eng "noop" []).run (grownWork cfg eng clock [] w) with
    | ok _ w₁ =>
        obtain ⟨patch, w₂, hok⟩ := appendSession_run_of_settle_ok hB hg₁ hv hs
        rw [hok] at hrun
        cases hrun
    | error e₁ w₁ =>
        rw [appendSession_run_of_settle_error hg₁ hv hs] at hrun
        cases hrun
        refine ⟨w.sess.tail, ⟨rfl, rfl⟩, ?_⟩
        rw [(wp_settleAppend_nil cfg key eng "noop" _).of_error hs, grownWork, hg]
  · have hsafe : SessionSafe cfg key eng clock delta w := hsafe.resolve_left hd
    unfold SessionSafe at hsafe
    simp only at hsafe
    cases hg : (growTail cfg eng w.sess.tail delta).1 with
    | error e₁ =>
        rw [appendSession_run_of_grow_error hg] at hrun
        cases hrun
        rw [hg] at hsafe
        exact ⟨_, hsafe, rfl⟩
    | ok grown =>
        obtain ⟨path, kept⟩ := grown
        rw [hg] at hsafe
        simp only at hsafe
        cases hv : verifyAppendShape (growTail cfg eng w.sess.tail delta).2 w.sess.tail.textBytes
            delta w.sess.tail.ids kept with
        | error e₁ =>
            rw [appendSession_run_of_verify_error hg hv] at hrun
            cases hrun
            rw [hv] at hsafe
            exact ⟨_, hsafe, rfl⟩
        | ok _ =>
            rw [hv] at hsafe
            have hpass : wp (settleAppend cfg key eng path delta) _ _ _ :=
              wp_settleAppend_passes hB path delta (grownWork cfg eng clock delta w)
            cases hs : (settleAppend cfg key eng path delta).run
                (grownWork cfg eng clock delta w) with
            | ok _ w₁ =>
                obtain ⟨patch, w₂, hok⟩ := appendSession_run_of_settle_ok hB hg hv hs
                rw [hok] at hrun
                cases hrun
            | error e₁ w₁ => exact absurd hsafe (hpass.of_error hs)

/-- An append that always leaves ids and text when it fails is safe: a tail that was changed
would show. -/
theorem sessionSafe_of_clean (hB : 0 < cfg.blockChars) (hd : delta ≠ [])
    (hclean : ∀ e w', (appendSession cfg key eng clock delta).run w = .error e w' →
      w'.sess.allIds = w.sess.allIds ∧ w'.sess.text = w.sess.text) : SessionSafe cfg key eng clock delta w := by
  unfold SessionSafe
  simp only
  cases hg : (growTail cfg eng w.sess.tail delta).1 with
  | error e =>
      exact tailKept_of_same (hclean e _ (appendSession_run_of_grow_error hg))
  | ok grown =>
      obtain ⟨path, kept⟩ := grown
      simp only
      cases hv : verifyAppendShape (growTail cfg eng w.sess.tail delta).2 w.sess.tail.textBytes
          delta w.sess.tail.ids kept with
      | error e =>
          exact tailKept_of_same (hclean e _ (appendSession_run_of_verify_error hg hv))
      | ok _ =>
          have hpass : wp (settleAppend cfg key eng path delta) _ _ _ :=
            wp_settleAppend_passes hB path delta (grownWork cfg eng clock delta w)
          simp only
          cases hs : (settleAppend cfg key eng path delta).run
              (grownWork cfg eng clock delta w) with
          | ok _ w' => exact hpass.of_ok hs
          | error e w' =>
              have hrun := appendSession_run_of_settle_error hg hv hs
              have hlong : _ < utf8Len (grownWork cfg eng clock delta w).sess.text :=
                utf8Len_text_grownWork hd (growTail_shape (Prod.ext hg rfl) hv)
              have hkeep := (wp_settleAppend cfg key eng hB path delta _).of_error hs
              rw [(hclean e w' hrun).2] at hkeep
              omega

end Exact

/-! ## The store -/

theorem SameContent.refl (s : Session) : SameContent s s :=
  ⟨rfl, rfl, rfl, rfl, rfl, rfl, ⟨rfl, rfl, rfl, rfl, rfl, rfl, rfl, rfl⟩, ⟨rfl, rfl⟩⟩

theorem CleanAt.of_sessions {S S' : Store} {h : ℕ} (hs : S'.sessions = S.sessions) : CleanAt S h S' := by
  refine ⟨fun h' _ => by rw [hs], fun hn => by rw [hs, hn], fun s hf => ⟨s, ?_, .refl s⟩⟩
  rw [hs, hf]

namespace Store

variable [Digests] {S : Store} {h rev : ℕ} {delta : Text} {eng : Engine}

/-- A failure after the gates leaves the store with what the session's part left. -/
theorem appendPatch_run_error {s : Session} {key : KeyCtx} {e : StoreError} {w' : Work}
    (hpass : S.GatesPass h rev eng s key)
    (hrun : (appendSession S.cfg key eng (S.clock + 1) delta).run
      ⟨s, S.nodes, S.tick.countExtend.stats⟩ = .error e w') :
    (appendPatch h delta rev eng).run S = .error e (S.tick.countExtend.putBack h w') := by
  have hwp := wp_appendPatch S h delta rev eng (Q := fun _ _ => False)
    (R := fun e' S' => e' = e ∧ S' = S.tick.countExtend.putBack h w')
    (fun _ _ _ hno => absurd hpass (hno s key)) fun s' key' hpass' => by
      obtain ⟨rfl, rfl⟩ := hpass.unique hpass'
      unfold wp
      rw [hrun]
      exact ⟨rfl, rfl⟩
  cases hr : (appendPatch h delta rev eng).run S with
  | ok patch S' => exact (hwp.of_ok hr).elim
  | error e' S' =>
      obtain ⟨rfl, rfl⟩ := hwp.of_error hr
      rfl

/-- An append whose failures leave the ids and the text of its session is safe. -/
theorem appendSafe_of_same
    (hsame : ∀ e S', (appendPatch h delta rev eng).run S = .error e S' → ∀ s, S.sessions.lookup h = some s →
      ∃ s', S'.sessions.lookup h = some s' ∧ s'.allIds = s.allIds ∧ s'.text = s.text) :
    AppendSafe S h delta rev eng := by
  by_cases hd : delta = []
  · exact .inl hd
  refine .inr fun s key hpass => ?_
  apply sessionSafe_of_clean S.blockChars_pos hd
  intro e w' hrun
  obtain ⟨s', hs', hids, htext⟩ := hsame e _ (appendPatch_run_error hpass hrun) s hpass.found
  rw [lookup_putBack] at hs'
  cases hs'
  exact ⟨hids, htext⟩

theorem appendPatch_clean_iff :
    FailsClean (appendPatch h delta rev eng) S h ↔ AppendSafe S h delta rev eng := by
  constructor
  · intro hclean
    refine appendSafe_of_same fun e S' hrun s hs => ?_
    obtain ⟨-, -, hsame⟩ := hclean e S' hrun
    obtain ⟨s', hs', hcontent⟩ := hsame s hs
    exact ⟨s', hs', hcontent.ids, hcontent.text⟩
  · intro hsafe
    suffices hwp : wp (appendPatch h delta rev eng) (fun _ _ => True)
        (fun _ S' => CleanAt S h S') S from fun e S' hr => hwp.of_error hr
    refine wp_appendPatch S h delta rev eng ?_ fun s key hpass => ?_
    · rintro e S' (rfl | rfl) -
      · exact .of_sessions rfl
      · exact .of_sessions rfl
    · refine wp_mono (wp_run _ _) (fun _ _ _ => trivial) fun e w' hrun => ?_
      have hsame : SameContent s w'.sess := by
        obtain ⟨tail, hkept, hw'⟩ := appendSession_safe_error S.blockChars_pos
          (hsafe.imp_right fun h => h s key hpass) hrun
        rw [hw']
        exact .of_tailKept hkept
      refine ⟨fun h' hne => lookup_putBack_ne _ hne _, fun hn => ?_, fun s' hs' => ?_⟩
      · rw [hpass.found] at hn
        cases hn
      · rw [hpass.found] at hs'
        cases hs'
        exact ⟨w'.sess, lookup_putBack _ _ _, hsame⟩

/-- `append` fails where `appendPatch` does, and in the same state. -/
theorem append_failsClean_iff :
    FailsClean (append h delta rev eng) S h ↔ FailsClean (appendPatch h delta rev eng) S h := by
  refine ⟨fun hclean e S' hr => hclean e S' (append_eq_of_error S h delta rev eng hr),
    fun hclean e S' hr => ?_⟩
  cases hp : (appendPatch h delta rev eng).run S with
  | ok patch S₁ =>
      obtain ⟨-, s', -, hs', -⟩ := patchOk_of_ok S h delta rev eng hp
      rw [append_eq_of_ok S h delta rev eng hp hs'] at hr
      cases hr
  | error e₁ S₁ =>
      rw [append_eq_of_error S h delta rev eng hp] at hr
      cases hr
      exact hclean e S' hp

/-- A failed append leaves its session's content and every other session alone exactly
when the call is safe: the delta is empty, a gate refuses the call, or no step after a
change of the tail fails. -/
theorem append_clean_iff :
    (FailsClean (appendPatch h delta rev eng) S h ∧ FailsClean (append h delta rev eng) S h) ↔
      AppendSafe S h delta rev eng := by
  rw [append_failsClean_iff, and_self, appendPatch_clean_iff]

end Store

/-- A store that tries to seal as soon as there is text. -/
def eagerConfig : StoreConfig := ⟨4096, 0, 1048576, 65536, 1024⟩

/-- An engine that appends well, and whose boundary queries fail. -/
def noBoundaryEngine : Engine :=
  { unitEngine with lastCertifiedBoundary := fun _ _ _ => .error ⟨"no boundary"⟩ }

/-- The append fails on the boundary query, and the delta stays in the session. -/
theorem Store.append_not_clean :
    ∃ S₀ S out, Store.new eagerConfig = .ok S₀ ∧ (openSession [] noBoundaryEngine).run S₀ = .ok out S ∧
      ¬(FailsClean (appendPatch 1 ['a'] 0 noBoundaryEngine) S 1 ∧
        FailsClean (append 1 ['a'] 0 noBoundaryEngine) S 1) := by
  refine ⟨_, _, _, rfl, rfl, fun ⟨hclean, _⟩ => ?_⟩
  obtain ⟨-, -, hsame⟩ := hclean _ _ rfl
  obtain ⟨s', hs', hcontent⟩ := hsame _ rfl
  cases hs'
  exact List.cons_ne_nil _ _ hcontent.text

end Toktier.StoreCore
