import Toktier.StoreCore.TransportLaws

/-!
# Runs of a store

A client drives a store by calls, one after the other; a call that fails leaves the store
as far as it had come, and the next one starts there.

## Main definitions

* `Call`: one call, with everything the client passes, the engine included.
* `Store.after`, `Store.afterAll`: the store after a call, and after a sequence of calls.
* `Along`: a condition on each call of a sequence, in the state it starts from.

## Main results

* `afterAll_induction`: what each call preserves holds in every state of a run.
-/
namespace Toktier.StoreCore

open Toktier.Lib

/-- One call on a store. -/
inductive Call
  | registerFingerprint (fingerprint : SemanticFingerprint) (sealEndGuardChars : ℕ)
  | enableRecoveryTracking
  | enableContentTracking
  | setSeedOverlap (runner : Option OverlapRunner)
  | put (keyId : ℕ) (text : Text) (eng : Engine)
  | append (handle : ℕ) (delta : Text) (expectedRevision : ℕ) (eng : Engine)
  | appendPatch (handle : ℕ) (delta : Text) (expectedRevision : ℕ) (eng : Engine)
  | lookup (keyId : ℕ) (text : Text) (eng : Engine)
  | fork (handle : ℕ)
  | evict (handle : ℕ)
  | readAllIds (handle : ℕ)
  | sharedAllIds (handle : ℕ)
  | importNodeItem (key record : List UInt8)
  | importSession (keyId : ℕ) (recBytes : List UInt8) (eng : Engine) (sealedText : Text)
  | importWithRecovery (keyId : ℕ) (recBytes : List UInt8) (historicalText : Text)
      (expected : RecoveryMaterial) (eng : Engine)
  | importWithBinding (keyId : ℕ) (recBytes : List UInt8) (historicalText : Text)
      (bindingBytes : List UInt8) (eng : Engine)
  | importWithBindingCandidate (keyId : ℕ) (recBytes : List UInt8) (candidateText : Text)
      (bindingBytes : List UInt8) (eng : Engine)
  | importWithSidecar (keyId : ℕ) (recBytes sidecarBytes : List UInt8) (eng : Engine)
      (sealedText : Text)
  | restoreTracking (handle : ℕ) (historicalText : Text) (bindingBytes : List UInt8)

/-- Run for the effect on the state. -/
def ignore {α : Type} (m : Fallible Store StoreError α) : Fallible Store StoreError Unit :=
  (fun _ => ()) <$> m

section

variable [Digests]

/-- What a call runs. -/
def Call.run : Call → Fallible Store StoreError Unit
  | .registerFingerprint fingerprint guard => ignore (Store.registerFingerprint fingerprint guard)
  | .enableRecoveryTracking => Store.enableRecoveryTracking
  | .enableContentTracking => Store.enableContentTracking
  | .setSeedOverlap runner => Store.setSeedOverlap runner
  | .put keyId text eng => ignore (Store.put keyId text eng)
  | .append handle delta rev eng => ignore (Store.append handle delta rev eng)
  | .appendPatch handle delta rev eng => ignore (Store.appendPatch handle delta rev eng)
  | .lookup keyId text eng => ignore (Store.lookup keyId text eng)
  | .fork handle => ignore (Store.fork handle)
  | .evict handle => ignore (Store.evict handle)
  | .readAllIds handle => ignore (Store.readAllIds handle)
  | .sharedAllIds handle => ignore (Store.sharedAllIds handle)
  | .importNodeItem key record => ignore (Store.importNodeItem key record)
  | .importSession keyId recBytes eng sealedText =>
      ignore (Store.importSession keyId recBytes eng sealedText)
  | .importWithRecovery keyId recBytes historicalText expected eng =>
      ignore (Store.importSessionWithRecovery keyId recBytes historicalText expected eng)
  | .importWithBinding keyId recBytes historicalText bindingBytes eng =>
      ignore (Store.importSessionWithBinding keyId recBytes historicalText bindingBytes eng)
  | .importWithBindingCandidate keyId recBytes candidateText bindingBytes eng =>
      ignore (Store.importSessionWithBindingCandidate keyId recBytes candidateText bindingBytes eng)
  | .importWithSidecar keyId recBytes sidecarBytes eng sealedText =>
      ignore (Store.importSessionWithSidecar keyId recBytes sidecarBytes eng sealedText)
  | .restoreTracking handle historicalText bindingBytes =>
      Store.restoreTrackingWithBinding handle historicalText bindingBytes

namespace Store

/-- The store after a call, whether it returned or failed. -/
def after (S : Store) (c : Call) : Store :=
  match c.run.run S with
  | .ok _ S' => S'
  | .error _ S' => S'

/-- The store after a sequence of calls. -/
def afterAll (S : Store) (calls : List Call) : Store := calls.foldl after S

theorem afterAll_append (S : Store) (calls calls' : List Call) :
    S.afterAll (calls ++ calls') = (S.afterAll calls).afterAll calls' :=
  List.foldl_append

theorem after_of_wp {S : Store} {c : Call} {P : Store → Prop}
    (h : wp c.run (fun _ S' => P S') (fun _ S' => P S') S) : P (S.after c) := by
  unfold after
  cases hrun : c.run.run S with
  | ok a S' => exact h.of_ok hrun
  | error e S' => exact h.of_error hrun

theorem wp_of_after {S : Store} {c : Call} {P : Store → Prop} (h : P (S.after c)) :
    wp c.run (fun _ S' => P S') (fun _ S' => P S') S := by
  unfold after at h
  unfold wp
  cases hrun : c.run.run S with
  | ok a S' =>
      rw [hrun] at h
      exact h
  | error e S' =>
      rw [hrun] at h
      exact h

end Store

/-- Each call of the sequence meets `P` in the state it starts from. -/
def Along (P : Call → Store → Prop) : List Call → Store → Prop
  | [], _ => True
  | c :: calls, S => P c S ∧ Along P calls (S.after c)

theorem Along.append_left {P : Call → Store → Prop} {calls calls' : List Call} {S : Store}
    (h : Along P (calls ++ calls') S) : Along P calls S := by
  induction calls generalizing S with
  | nil => trivial
  | cons c calls ih => exact ⟨h.1, ih h.2⟩

theorem Along.append_right {P : Call → Store → Prop} {calls calls' : List Call} {S : Store}
    (h : Along P (calls ++ calls') S) : Along P calls' (S.afterAll calls) := by
  induction calls generalizing S with
  | nil => exact h
  | cons c calls ih => exact ih h.2

theorem Along.and {P P' : Call → Store → Prop} {calls : List Call} {S : Store}
    (h : Along P calls S) (h' : Along P' calls S) : Along (fun c S => P c S ∧ P' c S) calls S := by
  induction calls generalizing S with
  | nil => trivial
  | cons c calls ih => exact ⟨⟨h.1, h'.1⟩, ih h.2 h'.2⟩

theorem Along.of_forall {P : Call → Store → Prop} (calls : List Call) {S : Store}
    (h : ∀ c S, P c S) : Along P calls S := by
  induction calls generalizing S with
  | nil => trivial
  | cons c calls ih => exact ⟨h c S, ih⟩

/-- What each call preserves under its condition holds after the run. -/
theorem afterAll_induction {P : Call → Store → Prop} {I : Store → Prop}
    (step : ∀ {S c}, I S → P c S → I (S.after c)) {calls : List Call} {S : Store} (hI : I S)
    (h : Along P calls S) : I (S.afterAll calls) := by
  induction calls generalizing S with
  | nil => exact hI
  | cons c calls ih => exact ih (step hI h.1) h.2

end

@[simp] theorem wp_ignore {α : Type} {m : Fallible Store StoreError α} {Q : Unit → Store → Prop}
    {R : StoreError → Store → Prop} {S : Store} :
    wp (ignore m) Q R S ↔ wp m (fun _ S' => Q () S') R S :=
  wp_map _ _

/-- A new store has no keys, no sessions and no nodes. -/
theorem Store.new_ok {cfg : StoreConfig} {S : Store} (h : Store.new cfg = .ok S) :
    S.cfg = cfg ∧ S.keys = [] ∧ S.sessions = ∅ ∧ S.nodes = ∅ := by
  unfold Store.new at h
  split at h
  · cases h
    exact ⟨rfl, rfl, rfl, rfl⟩
  · cases h

/-! ## How the sessions move -/

/-- From `S` to `S'` keys are only added, handles are not reused, and every live session is
an old one that moved by `Old`, or a new one that meets `New`. -/
structure Moves (Old : Session → Session → Prop) (New : Session → Prop) (S S' : Store) : Prop where
  keys : ∀ (i : ℕ) (key : KeyCtx), S.keys[i]? = some key → S'.keys[i]? = some key
  next : S.nextHandle ≤ S'.nextHandle
  live : ∀ h s', S'.sessions.lookup h = some s' →
    (∃ s, S.sessions.lookup h = some s ∧ Old s s') ∨
      (h = S.nextHandle ∧ h < S'.nextHandle ∧ New s')

namespace Moves

variable {Old : Session → Session → Prop} {New : Session → Prop} {S S' : Store}

/-- Nothing moved but that sessions may have gone. -/
theorem of_subset (refl : ∀ s, Old s s)
    (hk : ∀ (i : ℕ) (key : KeyCtx), S.keys[i]? = some key → S'.keys[i]? = some key)
    (hn : S'.nextHandle = S.nextHandle)
    (hs : ∀ h s, S'.sessions.lookup h = some s → S.sessions.lookup h = some s) :
    Moves Old New S S' where
  keys := hk
  next := hn.ge
  live := by
    intro h s' hs'
    exact .inl ⟨s', hs h s' hs', refl s'⟩

/-- One session moved in place. -/
theorem of_insert (refl : ∀ s, Old s s) {h : ℕ} {s s' : Session} (hfound : S.sessions.lookup h = some s)
    (hmove : Old s s') (hk : S'.keys = S.keys) (hn : S'.nextHandle = S.nextHandle)
    (hs : S'.sessions = S.sessions.insert h s') : Moves Old New S S' where
  keys := by
    intro i key hi
    rwa [hk]
  next := hn.ge
  live := by
    intro h' s₁ hs₁
    rw [hs] at hs₁
    rcases lookup_insert_eq_some.mp hs₁ with ⟨rfl, rfl⟩ | ⟨-, hold⟩
    · exact .inl ⟨s, hfound, hmove⟩
    · exact .inl ⟨s₁, hold, refl s₁⟩

/-- A session was added to what was left. -/
theorem withSession {T : Store} {sess : Session} (h : Moves Old New S T)
    (hn : T.nextHandle = S.nextHandle) (hnew : New sess) :
    Moves Old New S (T.withSession sess) where
  keys := h.keys
  next := by
    have := h.next
    simp only [Store.withSession]
    omega
  live := by
    intro k s' hs'
    simp only [Store.withSession] at hs' ⊢
    by_cases heq : k = T.nextHandle
    · subst heq
      rw [AList.lookup_insert] at hs'
      cases hs'
      exact .inr ⟨hn, Nat.lt_succ_self _, hnew⟩
    · rw [AList.lookup_insert_ne heq] at hs'
      rcases h.live k s' hs' with hold | ⟨rfl, hlt, -⟩
      · exact .inl hold
      · omega

end Moves

end Toktier.StoreCore
