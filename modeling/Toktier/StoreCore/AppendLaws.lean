import Toktier.StoreCore.SealingLaws
import Toktier.StoreCore.StoreLaws
import Toktier.StoreCore.Primitives

/-!
# Laws of append

What an append does for any engine, on any store: the patch it returns rebuilds the new
stream from the old one, and no other session is touched.

## Main results

* `wp_appendSession`: the patch law on one session.
* `append_patch_law`: the patch law of the store.
-/
namespace Toktier.StoreCore

open Toktier.Lib

/-! ## The gates -/

namespace Store

variable {S : Store}

/-- The gates of an append let a call through. -/
structure GatesPass (S : Store) (h rev : ℕ) (eng : Engine) (s : Session) (key : KeyCtx) : Prop where
  found : S.sessions.lookup h = some s
  keyed : S.keys[s.keyId]? = some key
  witness : s.witness = eng.witnessCategory
  revision : s.revision = rev

theorem GatesPass.unique {h rev : ℕ} {eng : Engine} {s s' : Session} {key key' : KeyCtx}
    (hp : S.GatesPass h rev eng s key) (hp' : S.GatesPass h rev eng s' key') :
    s = s' ∧ key = key' := by
  have hs : s = s' := Option.some.inj (hp.found.symm.trans hp'.found)
  subst hs
  exact ⟨rfl, Option.some.inj (hp.keyed.symm.trans hp'.keyed)⟩

/-- The gates change nothing but a counter, and a call they let through meets them. -/
theorem wp_appendGate (h rev : ℕ) (eng : Engine) :
    wp (appendGate h rev eng) (fun key S' => S' = S ∧ ∃ s, S.GatesPass h rev eng s key)
      (fun _ S' => (S' = S ∨ S' = S.countConflict) ∧ ∀ s key, ¬S.GatesPass h rev eng s key) S := by
  unfold appendGate
  simp only [wp_bind, wp_session, wp_keyCtx, wp_throwIf, wp_runIf, wp_modify, wp_pure]
  refine ⟨fun s hs => ⟨fun key hk => ⟨fun hw => ?_, fun hw => ⟨fun hr => ⟨fun _ => ?_, ?_⟩, ?_⟩⟩,
    fun hk => ?_⟩, fun hn => ?_⟩
  · refine ⟨.inl trivial, fun s' key' hp => hw ?_⟩
    rw [Option.some.inj (hs.symm.trans hp.found)]
    exact hp.witness
  · refine ⟨.inr trivial, fun s' key' hp => hr ?_⟩
    rw [Option.some.inj (hs.symm.trans hp.found)]
    exact hp.revision
  · exact fun hr' => absurd hr hr'
  · exact fun hr => ⟨fun hr' => absurd hr' hr,
      fun _ => ⟨trivial, s, hs, hk, not_not.mp hw, not_not.mp hr⟩⟩
  · refine ⟨.inl trivial, fun s' key' hp => ?_⟩
    have hkey := hp.keyed
    rw [← Option.some.inj (hs.symm.trans hp.found), hk] at hkey
    cases hkey
  · refine ⟨.inl trivial, fun s' key' hp => ?_⟩
    rw [hp.found] at hn
    cases hn

end Store

/-! ## Growing the tail -/

/-- What an accepted append shape says about the grown tail. -/
structure ShapeOk (tail grown : TailState) (delta : Text) (kept : ℕ) : Prop where
  bytes : grown.textBytes = tail.textBytes + utf8Len delta
  kept_le : kept ≤ tail.nTokens
  kept_le' : kept ≤ grown.nTokens
  take_eq : grown.ids.take kept = tail.ids.take kept

theorem verifyAppendShape_ok {tail grown : TailState} {delta : Text} {kept : ℕ} (hd : delta ≠ [])
    (h : verifyAppendShape grown tail.textBytes delta tail.ids kept = .ok ()) :
    ShapeOk tail grown delta kept := by
  unfold verifyAppendShape at h
  rw [if_neg hd] at h
  split_ifs at h with h1 h2
  rw [not_or, not_not] at h1
  rw [not_or, not_or, not_not, not_lt, not_lt] at h2
  exact ⟨h1.1, h2.1, h2.2.1, h2.2.2⟩

section AppendOne

variable {cfg : StoreConfig} {eng : Engine} {tail : TailState} {delta : Text}

theorem growTail_nil : growTail cfg eng tail [] = (.ok ("noop", tail.nTokens), tail) := by
  unfold growTail
  rw [if_pos rfl]

/-- The shape of the grown tail, also for an empty delta, where nothing is verified. -/
theorem growTail_shape {path : String} {kept : ℕ} {grown : TailState}
    (hg : growTail cfg eng tail delta = (.ok (path, kept), grown))
    (hv : verifyAppendShape grown tail.textBytes delta tail.ids kept = .ok ()) :
    ShapeOk tail grown delta kept := by
  by_cases hd : delta = []
  · subst hd
    rw [growTail_nil] at hg
    cases hg
    exact ⟨rfl, le_rfl, le_rfl, rfl⟩
  · exact verifyAppendShape_ok hd hv

end AppendOne

/-! ## Settling the append -/

/-- Opening an append touches the clock and the row snapshot. -/
theorem openAppend_eq (s : Session) (clock : ℕ) (delta : Text) :
    ∃ generation snapshot, s.openAppend clock delta = { s with
      lastUsed := clock, idsGeneration := generation, idsSnapshot := snapshot } := by
  unfold Session.openAppend
  split <;> exact ⟨_, _, rfl⟩

/-- The two sessions differ in their digests alone. -/
def SameButDigests (s s' : Session) : Prop :=
  s' = { s with recovery := s'.recovery, content := s'.content }

theorem SameButDigests.text_eq {s s' : Session} (h : SameButDigests s s') : s'.text = s.text := by
  rw [h]
  rfl

theorem SameButDigests.allIds_eq {s s' : Session} (h : SameButDigests s s') :
    s'.allIds = s.allIds := by
  rw [h]
  rfl

theorem wp_feedRecovery_frame (delta : Text) (w : Work) :
    wp (feedRecovery delta)
      (fun _ w' => w'.nodes = w.nodes ∧ SameButDigests w.sess w'.sess ∧
        w'.sess.content = w.sess.content)
      (fun _ w' => w' = w) w := by
  unfold feedRecovery
  simp only [wp_bind, wp_get]
  cases w.sess.recovery with
  | none => exact ⟨rfl, rfl, rfl⟩
  | some d =>
      simp only [wp_bind, wp_fromExcept, wp_set]
      exact ⟨fun d' _ => ⟨trivial, rfl, trivial⟩, fun _ _ => trivial⟩

section Digest

variable [Digests]

theorem wp_feedContent_frame (delta : Text) (w : Work) :
    wp (feedContent delta)
      (fun _ w' => w'.nodes = w.nodes ∧ SameButDigests w.sess w'.sess)
      (fun _ w' => w'.nodes = w.nodes ∧ SameButDigests w.sess w'.sess) w := by
  unfold feedContent
  simp only [wp_bind, wp_get]
  cases w.sess.content with
  | none => exact ⟨rfl, rfl⟩
  | some d =>
      simp only [wp_zoomIn]
      unfold wp
      split <;> exact ⟨trivial, rfl⟩

end Digest

section Settle

variable [Digests] (cfg : StoreConfig) (key : KeyCtx) (eng : Engine)

/-- After the bookkeeping, the session is regrouped and its digests are fed. -/
def Settled (s s' : Session) : Prop := ∃ s₁ J T, Regrouped s s₁ J T ∧ SameButDigests s₁ s'

theorem wp_settleAppend (hB : 0 < cfg.blockChars) (path : String) (delta : Text) (w : Work) :
    wp (settleAppend cfg key eng path delta) (fun _ w' => Settled w.sess w'.sess)
      (fun _ w' => utf8Len w.sess.text ≤ utf8Len w'.sess.text) w := by
  unfold settleAppend
  simp only [wp_bind, wp_runIf, countPath, wp_modify]
  have hfeed (w₁ : Work) (h₁ : ∃ J T, Regrouped w.sess w₁.sess J T) :
      wp (feedRecovery delta)
        (fun _ w₂ => wp (feedContent delta) (fun _ w' => Settled w.sess w'.sess)
          (fun _ w' => utf8Len w.sess.text ≤ utf8Len w'.sess.text) w₂)
        (fun _ w' => utf8Len w.sess.text ≤ utf8Len w'.sess.text) w₁ := by
    obtain ⟨J, T, h₁⟩ := h₁
    refine wp_mono (wp_feedRecovery_frame delta w₁) (fun _ w₂ h₂ => ?_) (fun _ w₂ h₂ => ?_)
    · refine wp_mono (wp_feedContent_frame delta w₂) (fun _ w₃ h₃ => ?_) (fun _ w₃ h₃ => ?_)
      · have hboth : SameButDigests w₁.sess w₃.sess := by
          have h12 := h₂.2.1
          have h23 := h₃.2
          unfold SameButDigests at *
          rw [h23, h12]
        exact ⟨w₁.sess, J, T, h₁, hboth⟩
      · rw [h₃.2.text_eq, h₂.2.1.text_eq, h₁.text_eq]
    · rw [h₂, h₁.text_eq]
  refine ⟨fun _ => wp_mono (wp_postTextOps_frame cfg key eng hB w) (fun _ w₁ h₁ => ?_)
    (fun _ _ h => h.text_le), fun _ => hfeed _ ⟨[], [], .of_chain (.refl _)⟩⟩
  exact hfeed _ h₁

end Settle

/-! ## The patch law -/

/-- The suffix of a session's stream, wherever it is kept. -/
theorem Session.suffixFrom_eq (s : Session) (replace : ℕ) :
    s.suffixFrom replace = s.allIds.drop replace := by
  unfold Session.suffixFrom
  rw [Session.allIds_eq, List.drop_append, SealedIds.length_ids, SealedIds.suffixToVec_eq]
  split
  · rename_i h
    rw [Nat.sub_eq_zero_of_le h.le, List.drop_zero]
  · rename_i h
    have hdrop : s.sealedIds.ids.drop replace = [] :=
      List.drop_of_length_le (by rw [SealedIds.length_ids]; omega)
    rw [hdrop, List.nil_append]

/-- What a patch that was returned says about the session before and after. -/
structure PatchOk (s s' : Session) (patch : AppendPatchOutcome) : Prop where
  splice : s'.allIds = s.allIds.take patch.replaceFrom ++ patch.replacementIds
  count : patch.tokenCount = s'.allIds.length
  revision : s'.revision = s.revision + 1
  reported : patch.revision = s'.revision

section Law

variable [Digests] (cfg : StoreConfig) (key : KeyCtx) (eng : Engine)

/-- The patch law on one session, for any engine. The offset is counted before anything
is sealed and the replacement is read afterwards; sealing moves ids without changing the
stream, so the two agree. -/
theorem wp_appendSession_patch (hB : 0 < cfg.blockChars) (clock : ℕ) (delta : Text) (w : Work) :
    wp (appendSession cfg key eng clock delta) (fun patch w' => PatchOk w.sess w'.sess patch)
      (fun _ _ => True) w := by
  unfold appendSession
  simp only [wp_bind, wp_get, wp_set, wp_fromExcept]
  refine ⟨?_, fun _ _ => trivial⟩
  rintro ⟨path, kept⟩ hgrow
  refine ⟨fun _ hverify => ?_, fun _ _ => trivial⟩
  have hshape : ShapeOk w.sess.tail (growTail cfg eng w.sess.tail delta).2 delta kept :=
    growTail_shape (Prod.ext hgrow rfl) hverify
  refine wp_mono (wp_settleAppend cfg key eng hB path delta _) (fun _ w₂ hs => ?_)
    (fun _ _ _ => trivial)
  obtain ⟨s₁, J, T, hreg, hdig⟩ := hs
  simp only [wp_modify, appendOutcome, wp_bind, wp_get, wp_throwIf, wp_pure]
  refine ⟨fun _ => trivial, fun _ => ?_⟩
  -- The stream after the bookkeeping: the old sealed ids, then the grown tail's.
  have hids : w₂.sess.allIds =
      w.sess.sealedIds.ids ++ (growTail cfg eng w.sess.tail delta).2.ids := by
    rw [hdig.allIds_eq, hreg.allIds_eq]
    unfold Session.openAppend
    split <;> rfl
  have hrev : w₂.sess.revision = w.sess.revision := by
    rw [hdig]
    refine hreg.ledger.revision.trans ?_
    unfold Session.openAppend
    split <;> rfl
  have htake : w.sess.allIds.take (w.sess.sealedIds.len + kept) =
      w₂.sess.allIds.take (w.sess.sealedIds.len + kept) := by
    rw [hids, Session.allIds_eq, ← SealedIds.length_ids, List.take_length_add_append,
      List.take_length_add_append, hshape.take_eq]
  exact
    { splice := by
        simp only [Session.suffixFrom_eq]
        rw [htake]
        exact (List.take_append_drop _ _).symm
      count := (Session.length_allIds _).symm
      revision := by rw [← hrev]; rfl
      reported := rfl }

end Law

/-! ## The store -/

namespace Store

variable [Digests] (S : Store) (h : ℕ) (delta : Text) (rev : ℕ) (eng : Engine)

/-- An append works on its own session: the postconditions of the session's part carry
over to the store. -/
theorem wp_appendPatch {Q : AppendPatchOutcome → Store → Prop} {R : StoreError → Store → Prop}
    (hgate : ∀ e S', (S' = S ∨ S' = S.countConflict) → (∀ s key, ¬S.GatesPass h rev eng s key) →
      R e S')
    (hwork : ∀ s key, S.GatesPass h rev eng s key →
      wp (appendSession S.cfg key eng (S.clock + 1) delta)
        (fun patch w => Q patch (S.tick.countExtend.putBack h w))
        (fun e w => R e (S.tick.countExtend.putBack h w))
        ⟨s, S.nodes, S.tick.countExtend.stats⟩) :
    wp (appendPatch h delta rev eng) Q R S := by
  unfold appendPatch
  simp only [wp_bind]
  refine wp_mono (wp_appendGate h rev eng) ?_ (fun e S' hS => hgate e S' hS.1 hS.2)
  rintro key S' ⟨rfl, s, hpass⟩
  simp only [wp_modify, wp_get, wp_onSession]
  refine ⟨fun s' hs' => ?_, fun hn => ?_⟩
  · have hfound : S'.sessions.lookup h = some s' := hs'
    rw [Option.some.inj (hfound.symm.trans hpass.found)]
    exact hwork s key hpass
  · have hnone : S'.sessions.lookup h = none := hn
    rw [hpass.found] at hnone
    cases hnone

/-- After a patch the session is there: reading its stream back does not fail. -/
theorem append_eq_of_ok {patch : AppendPatchOutcome} {S' : Store} {s' : Session}
    (hrun : (appendPatch h delta rev eng).run S = .ok patch S')
    (hs' : S'.sessions.lookup h = some s') :
    (append h delta rev eng).run S = .ok
      ⟨patch.path, patch.revision, patch.replaceFrom, patch.replacementIds, s'.allIds⟩ S' := by
  have hget : (session h).run S' = .ok s' S' := by
    simp only [session, EStateM.run_bind, EStateM.run_get, hs']
    rfl
  simp only [append, EStateM.run_bind, hrun, hget]
  rfl

theorem append_eq_of_error {e : StoreError} {S' : Store}
    (hrun : (appendPatch h delta rev eng).run S = .error e S') :
    (append h delta rev eng).run S = .error e S' := by
  simp only [append, EStateM.run_bind, hrun]

/-- What a returned patch does to its session. -/
theorem patchOk_of_ok {patch : AppendPatchOutcome} {S' : Store}
    (hrun : (appendPatch h delta rev eng).run S = .ok patch S') :
    ∃ s s', S.sessions.lookup h = some s ∧ S'.sessions.lookup h = some s' ∧ PatchOk s s' patch := by
  have hlaw := wp_appendPatch S h delta rev eng
    (Q := fun patch S' => ∃ s s', S.sessions.lookup h = some s ∧
      S'.sessions.lookup h = some s' ∧ PatchOk s s' patch)
    (R := fun _ _ => True) (fun _ _ _ _ => trivial) fun s key hpass =>
      wp_mono (wp_appendSession_patch S.cfg key eng S.blockChars_pos (S.clock + 1) delta _)
        (fun patch w hp => ⟨s, w.sess, hpass.found, lookup_putBack _ _ _, hp⟩)
        (fun _ _ _ => trivial)
  exact hlaw.of_ok hrun

end Store

/-- A registered key, and one session over `text`. -/
def openSession (text : Text) (eng : Engine) : Fallible Store StoreError PutOutcome := do
  let keyId ← Store.registerFingerprint ZERO_HASH 0
  Store.put keyId text eng

/-- Blocks of two characters. -/
def smallConfig : StoreConfig := ⟨2, 64, 1024, 64, 2⟩

end Toktier.StoreCore
