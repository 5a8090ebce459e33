import Toktier.StoreCore.AppendLaws

/-!
# The text after an append

The check after an append compares the length in bytes of the tail's text and its end. It does
not compare the old text, so an engine that exchanges a character for one of the same width is
not found out.

## Main definitions

* `KeepsText`: the old tail text still stands at the front.

## Main results

* `growTail_text_iff`: which accepted tails hold the old text and the delta.
* `Store.append_text_iff`: when an accepted append represents the text it should.
-/
namespace Toktier.StoreCore

open Toktier.Lib

/-- Two fronts of one text with the same number of bytes are one. -/
theorem eq_of_prefix_of_utf8Len {a b t : Text} (ha : a <+: t) (hb : b <+: t)
    (hlen : utf8Len a = utf8Len b) : a = b := by
  rcases List.prefix_or_prefix_of_prefix ha hb with ⟨c, rfl⟩ | ⟨c, rfl⟩
  · have hc : utf8Len c = 0 := by
      rw [utf8Len_append] at hlen
      omega
    rw [utf8Len_eq_zero.mp hc, List.append_nil]
  · have hc : utf8Len c = 0 := by
      rw [utf8Len_append] at hlen
      omega
    rw [utf8Len_eq_zero.mp hc, List.append_nil]

/-- The old tail text still stands at the front: nothing is appended, or the tail is over the
hard cap and the store encodes the whole text itself, or the engine left it there. -/
def KeepsText (cfg : StoreConfig) (eng : Engine) (tail : TailState) (delta : Text) : Prop :=
  delta = [] ∨ cfg.tailHardCapBytes < tail.textBytes ∨ tail.text <+: (eng.append tail delta).2.text

section AppendOne

variable {cfg : StoreConfig} {eng : Engine} {tail : TailState} {delta : Text}

/-- An accepted tail ends with the delta and has the length of both texts. -/
theorem text_eq_iff_of_verify {grown : TailState} {kept : ℕ} (hd : delta ≠ [])
    (hv : verifyAppendShape grown tail.textBytes delta tail.ids kept = .ok ()) :
    grown.text = tail.text ++ delta ↔ tail.text <+: grown.text := by
  have hbytes : grown.textBytes = tail.textBytes + utf8Len delta := (verifyAppendShape_ok hd hv).bytes
  have hsuffix : delta <:+ grown.text := by
    unfold verifyAppendShape at hv
    rw [if_neg hd] at hv
    split_ifs at hv with hshape
    exact not_not.mp (not_or.mp hshape).2
  refine ⟨fun h => ⟨delta, h.symm⟩, fun hold => ?_⟩
  obtain ⟨front, hfront⟩ := hsuffix
  have hlen : utf8Len tail.text = utf8Len front := by
    rw [TailState.textBytes, TailState.textBytes, ← hfront, utf8Len_append] at hbytes
    omega
  rw [eq_of_prefix_of_utf8Len hold ⟨delta, hfront⟩ hlen, hfront]

/-- The grown tail that is accepted holds the old text and the delta exactly when the old text
was kept. -/
theorem growTail_text_iff {path : String} {kept : ℕ} {grown : TailState}
    (hg : growTail cfg eng tail delta = (.ok (path, kept), grown))
    (hv : verifyAppendShape grown tail.textBytes delta tail.ids kept = .ok ()) :
    grown.text = tail.text ++ delta ↔ KeepsText cfg eng tail delta := by
  unfold growTail at hg
  split_ifs at hg with hd hcap
  · cases hg
    exact iff_of_true (by rw [hd, List.append_nil]) (.inl hd)
  · -- over the hard cap the store fills the tail with the whole text
    refine iff_of_true ?_ (.inr (.inl hcap))
    split at hg
    · cases hg
    · split at hg
      · cases hg
      · rename_i hfill
        cases hg
        exact (TailState.fill_ok hfill).1
  · have hgrown : grown = (eng.append tail delta).2 := by
      split at hg <;> cases hg
      rename_i heq
      rw [heq]
    rw [text_eq_iff_of_verify hd hv, hgrown]
    exact ⟨fun h => .inr (.inr h), fun h => (h.resolve_left hd).resolve_left hcap⟩

end AppendOne

section Law

variable [Digests] (cfg : StoreConfig) (key : KeyCtx) (eng : Engine)

/-- Sealing moves text and keeps the whole of it, so what the session represents after an append
is decided by the tail that was accepted. -/
theorem wp_appendSession_text (hB : 0 < cfg.blockChars) (clock : ℕ) (delta : Text) (w : Work) :
    wp (appendSession cfg key eng clock delta)
      (fun _ w' => w'.sess.text = w.sess.text ++ delta ↔ KeepsText cfg eng w.sess.tail delta)
      (fun _ _ => True) w := by
  unfold appendSession
  simp only [wp_bind, wp_get, wp_set, wp_fromExcept]
  refine ⟨?_, fun _ _ => trivial⟩
  rintro ⟨path, kept⟩ hgrow
  refine ⟨fun _ hverify => ?_, fun _ _ => trivial⟩
  refine wp_mono (wp_settleAppend cfg key eng hB path delta _) (fun _ w₂ hs => ?_)
    (fun _ _ _ => trivial)
  obtain ⟨s₁, J, T, hreg, hdig⟩ := hs
  simp only [wp_modify, appendOutcome, wp_bind, wp_get, wp_throwIf, wp_pure]
  refine ⟨fun _ => trivial, fun _ => ?_⟩
  have htext : w₂.sess.text = w.sess.sealedText ++ (growTail cfg eng w.sess.tail delta).2.text := by
    rw [hdig.text_eq, hreg.text_eq]
    unfold Session.openAppend
    split <;> rfl
  change w₂.sess.text = _ ↔ _
  rw [htext, Session.text, List.append_assoc, List.append_cancel_left_eq]
  exact growTail_text_iff (Prod.ext hgrow rfl) hverify

end Law

namespace Store

variable [Digests] (S : Store) (h : ℕ) (delta : Text) (rev : ℕ) (eng : Engine)

theorem appendPatch_text_iff {patch : AppendPatchOutcome} {S' : Store}
    (hrun : (appendPatch h delta rev eng).run S = .ok patch S') :
    ∃ s s', S.sessions.lookup h = some s ∧ S'.sessions.lookup h = some s' ∧
      (s'.text = s.text ++ delta ↔ KeepsText S.cfg eng s.tail delta) := by
  have hlaw := wp_appendPatch S h delta rev eng
    (Q := fun _ S' => ∃ s s', S.sessions.lookup h = some s ∧ S'.sessions.lookup h = some s' ∧
      (s'.text = s.text ++ delta ↔ KeepsText S.cfg eng s.tail delta))
    (R := fun _ _ => True) (fun _ _ _ _ => trivial) fun s key hpass =>
      wp_mono (wp_appendSession_text S.cfg key eng S.blockChars_pos (S.clock + 1) delta _)
        (fun _ w hw => ⟨s, w.sess, hpass.found, lookup_putBack _ _ _, hw⟩) (fun _ _ _ => trivial)
  exact hlaw.of_ok hrun

/-- **When an accepted append represents the text it should**: for every store and engine, the
session's text is the old one and the delta exactly when the old tail text was kept. -/
theorem append_text_iff :
    (∀ patch S', (appendPatch h delta rev eng).run S = .ok patch S' →
      ∃ s s', S.sessions.lookup h = some s ∧ S'.sessions.lookup h = some s' ∧
        (s'.text = s.text ++ delta ↔ KeepsText S.cfg eng s.tail delta)) ∧
      ∀ out S', (append h delta rev eng).run S = .ok out S' →
        ∃ s s', S.sessions.lookup h = some s ∧ S'.sessions.lookup h = some s' ∧
          (s'.text = s.text ++ delta ↔ KeepsText S.cfg eng s.tail delta) := by
  refine ⟨fun patch S' hrun => appendPatch_text_iff S h delta rev eng hrun, fun out S' hrun => ?_⟩
  cases hpatch : (appendPatch h delta rev eng).run S with
  | ok patch S'' =>
    obtain ⟨s, s', hs, hs', hiff⟩ := appendPatch_text_iff S h delta rev eng hpatch
    rw [append_eq_of_ok S h delta rev eng hpatch hs'] at hrun
    obtain ⟨rfl, rfl⟩ := EStateM.Result.ok.inj hrun
    exact ⟨s, s', hs, hs', hiff⟩
  | error e S'' =>
    rw [append_eq_of_error S h delta rev eng hpatch] at hrun
    cases hrun

end Store

theorem Store.append_text_unit : ∃ S₀ S S' out patch s s', Store.new smallConfig = .ok S₀ ∧
    (openSession ['a'] unitEngine).run S₀ = .ok out S ∧
    (appendPatch 1 ['c'] 0 unitEngine).run S = .ok patch S' ∧
    S.sessions.lookup 1 = some s ∧ S'.sessions.lookup 1 = some s' ∧
    (s'.text = s.text ++ ['c'] ↔ KeepsText S.cfg unitEngine s.tail ['c']) := by
  obtain ⟨S₀, hnew⟩ : ∃ S₀, Store.new smallConfig = .ok S₀ := ⟨_, rfl⟩
  have hreturns : returnsSuch (openSession ['a'] unitEngine >>= fun _ =>
      appendPatch 1 ['c'] 0 unitEngine) (fun _ _ => true) S₀ = true := by
    cases hnew
    decide +kernel
  obtain ⟨patch, S', hboth, -⟩ := exists_of_returnsSuch hreturns
  obtain ⟨out, S, hopen, hrun⟩ := run_bind_eq_ok hboth
  obtain ⟨s, s', hs, hs', hiff⟩ := (append_text_iff S 1 ['c'] 0 unitEngine).1 patch S' hrun
  exact ⟨S₀, S, S', out, patch, s, s', hnew, hopen, hrun, hs, hs', hiff⟩

/-- An encoder that writes a `b` for every character it had. -/
def blottingEngine : Engine where
  encode := unitEngine.encode
  append tail delta :=
    match TailState.fill (tail.text.map (fun _ => 'b') ++ delta)
        (unitEncode (tail.text.map (fun _ => 'b') ++ delta)) with
    | .ok grown => (.ok ⟨"extend", 0⟩, grown)
    | .error _ => (.error ⟨"text too long"⟩, tail)
  lastCertifiedBoundary _ _ _ := .ok none
  witnessCategory := .BpeSyncTransition

/-- An append of `c` to `a` is accepted, and the session then represents `bc`. -/
theorem Store.append_text_blotted : ∃ S₀ S S' out patch s s', Store.new smallConfig = .ok S₀ ∧
    (openSession ['a'] blottingEngine).run S₀ = .ok out S ∧
    (appendPatch 1 ['c'] 0 blottingEngine).run S = .ok patch S' ∧
    S.sessions.lookup 1 = some s ∧ S'.sessions.lookup 1 = some s' ∧
    s.text = ['a'] ∧ s'.text = ['b', 'c'] := by
  obtain ⟨S₀, hnew⟩ : ∃ S₀, Store.new smallConfig = .ok S₀ := ⟨_, rfl⟩
  have hopens : returnsSuch (openSession ['a'] blottingEngine)
      (fun _ S => (S.sessions.lookup 1).any fun s => s.text == ['a']) S₀ = true := by
    cases hnew
    decide +kernel
  have hreturns : returnsSuch (openSession ['a'] blottingEngine >>= fun _ =>
      appendPatch 1 ['c'] 0 blottingEngine)
      (fun _ S' => (S'.sessions.lookup 1).any fun s => s.text == ['b', 'c']) S₀ = true := by
    cases hnew
    decide +kernel
  obtain ⟨patch, S', hboth, hafter⟩ := exists_of_returnsSuch hreturns
  obtain ⟨out', S₁, hopen', hbefore⟩ := exists_of_returnsSuch hopens
  obtain ⟨out, S, hopen, hrun⟩ := run_bind_eq_ok hboth
  obtain ⟨rfl, rfl⟩ := EStateM.Result.ok.inj (hopen'.symm.trans hopen)
  obtain ⟨s, hs, htext⟩ := (Option.any_eq_true _ _).mp hbefore
  obtain ⟨s', hs', htext'⟩ := (Option.any_eq_true _ _).mp hafter
  exact ⟨S₀, _, S', _, patch, s, s', hnew, hopen, hrun, hs, hs', eq_of_beq htext, eq_of_beq htext'⟩

end Toktier.StoreCore
