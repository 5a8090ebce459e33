import Mathlib.Control.Lawful
import Mathlib.Tactic.Common

/-!
# Fallible code that keeps its state

Code that mutates a state in place and returns `Result` leaves, when it fails,
the state it had reached: nothing is rolled back. `EStateM` is that discipline.
This file adds the handful of combinators such code is written with and a
weakest-precondition calculus over them, in which a failure exit has a
postcondition of its own.

## Main definitions

* `Fallible σ ε α`: a computation over `σ` that returns `α` or fails with `ε`.
* `throwIf`, `runIf`, `fromExcept`, `zoomIn`: a guard, a conditional step, a pure
  fallible step, and a computation on a component of the state.
* `returnsSuch m p s`: `m` run from `s` returns into `p`; this one can be evaluated.
* `wp m Q R`: `m` run from a state ends in `Q` when it returns and in `R` when
  it fails.
-/
namespace Toktier.Lib

universe u

/-- A computation over a state `σ` that fails with `ε` in the state it had reached. -/
abbrev Fallible (σ ε α : Type u) := EStateM ε σ α

variable {σ τ ε α β : Type u}

/-- Fail with `e` when `c` holds; otherwise go on. -/
def throwIf {σ : Type} {ε : Type} (c : Prop) [Decidable c] (e : ε) : Fallible σ ε Unit :=
  if c then throw e else pure ()

/-- Run `m` when `c` holds; otherwise go on. -/
def runIf {σ : Type} {ε : Type} (c : Prop) [Decidable c] (m : Fallible σ ε Unit) :
    Fallible σ ε Unit :=
  if c then m else pure ()

/-- A pure fallible step. -/
def fromExcept (x : Except ε α) : Fallible σ ε α :=
  match x with
  | .ok a => pure a
  | .error e => throw e

/-- Run `m` on the component `get s`; the component it leaves is put back on both exits. -/
def zoomIn (get : σ → τ) (set : τ → σ → σ) (m : Fallible τ ε α) : Fallible σ ε α := fun s =>
  match m.run (get s) with
  | .ok a t => .ok a (set t s)
  | .error e t => .error e (set t s)

/-- `m` run from `s` returns, with a result and a state that pass `p`. -/
def returnsSuch (m : Fallible σ ε α) (p : α → σ → Bool) (s : σ) : Bool :=
  match m.run s with
  | .ok a s' => p a s'
  | .error _ _ => false

/-- `m` run from `s` returns into `Q` or fails into `R`. -/
def wp (m : Fallible σ ε α) (Q : α → σ → Prop) (R : ε → σ → Prop) (s : σ) : Prop :=
  match m.run s with
  | .ok a s' => Q a s'
  | .error e s' => R e s'

section Rules

variable {Q : α → σ → Prop} {R : ε → σ → Prop} {s : σ}

@[simp] theorem wp_pure (a : α) : wp (pure a : Fallible σ ε α) Q R s ↔ Q a s := Iff.rfl

@[simp] theorem wp_throw (e : ε) : wp (throw e : Fallible σ ε α) Q R s ↔ R e s := Iff.rfl

/-- Sequencing: the continuation runs from the state the first part returned in. -/
@[simp] theorem wp_bind (m : Fallible σ ε β) (f : β → Fallible σ ε α) :
    wp (m >>= f) Q R s ↔ wp m (fun b s' => wp (f b) Q R s') R s := by
  simp only [wp, EStateM.run_bind]
  cases m.run s <;> rfl

@[simp] theorem wp_map (g : β → α) (m : Fallible σ ε β) :
    wp (g <$> m) Q R s ↔ wp m (fun b s' => Q (g b) s') R s := by
  rw [← bind_pure_comp, wp_bind]
  simp only [wp_pure]

@[simp] theorem wp_get {Q : σ → σ → Prop} {R : ε → σ → Prop} {s : σ} :
    wp (get : Fallible σ ε σ) Q R s ↔ Q s s := Iff.rfl

@[simp] theorem wp_set {σ ε : Type} {Q : PUnit → σ → Prop} {R : ε → σ → Prop} {s : σ} (t : σ) :
    wp (set t : Fallible σ ε PUnit) Q R s ↔ Q ⟨⟩ t := Iff.rfl

@[simp] theorem wp_modify {σ ε : Type} {Q : PUnit → σ → Prop} {R : ε → σ → Prop} {s : σ}
    (f : σ → σ) : wp (modify f : Fallible σ ε PUnit) Q R s ↔ Q ⟨⟩ (f s) := Iff.rfl

theorem wp_ite (c : Prop) [Decidable c] (m n : Fallible σ ε α) :
    wp (if c then m else n) Q R s ↔ (c → wp m Q R s) ∧ (¬c → wp n Q R s) := by
  by_cases h : c <;> simp [h]

@[simp] theorem wp_throwIf {σ ε : Type} {Q : Unit → σ → Prop} {R : ε → σ → Prop} {s : σ}
    (c : Prop) [Decidable c] (e : ε) :
    wp (throwIf c e) Q R s ↔ (c → R e s) ∧ (¬c → Q () s) := by
  by_cases h : c <;> simp [throwIf, h]

@[simp] theorem wp_runIf {σ ε : Type} {Q : Unit → σ → Prop} {R : ε → σ → Prop} {s : σ}
    (c : Prop) [Decidable c] (m : Fallible σ ε Unit) :
    wp (runIf c m) Q R s ↔ (c → wp m Q R s) ∧ (¬c → Q () s) := by
  by_cases h : c <;> simp [runIf, h]

@[simp] theorem wp_fromExcept (x : Except ε α) :
    wp (fromExcept x : Fallible σ ε α) Q R s ↔
      (∀ a, x = .ok a → Q a s) ∧ (∀ e, x = .error e → R e s) := by
  cases x <;> simp [fromExcept]

@[simp] theorem wp_zoomIn (g : σ → τ) (st : τ → σ → σ) (m : Fallible τ ε α) :
    wp (zoomIn g st m) Q R s ↔
      wp m (fun a t => Q a (st t s)) (fun e t => R e (st t s)) (g s) := by
  simp only [wp, zoomIn, EStateM.run]
  cases m (g s) <;> rfl

/-- Weaken both postconditions. -/
theorem wp_mono {m : Fallible σ ε α} {Q' : α → σ → Prop} {R' : ε → σ → Prop}
    (h : wp m Q R s) (hQ : ∀ a s', Q a s' → Q' a s') (hR : ∀ e s', R e s' → R' e s') :
    wp m Q' R' s := by
  unfold wp at *
  cases hm : m.run s with
  | ok a s' => rw [hm] at h; exact hQ a s' h
  | error e s' => rw [hm] at h; exact hR e s' h

/-- Two facts about one run hold together. -/
theorem wp_and {m : Fallible σ ε α} {Q' : α → σ → Prop} {R' : ε → σ → Prop}
    (h : wp m Q R s) (h' : wp m Q' R' s) :
    wp m (fun a s' => Q a s' ∧ Q' a s') (fun e s' => R e s' ∧ R' e s') s := by
  unfold wp at *
  cases hm : m.run s with
  | ok a s' => rw [hm] at h h'; exact ⟨h, h'⟩
  | error e s' => rw [hm] at h h'; exact ⟨h, h'⟩

/-- Read a postcondition off a run that returned. -/
theorem wp.of_ok {m : Fallible σ ε α} {a : α} {s' : σ} (h : wp m Q R s)
    (hm : m.run s = .ok a s') : Q a s' := by
  unfold wp at h
  rwa [hm] at h

/-- Read a postcondition off a run that failed. -/
theorem wp.of_error {m : Fallible σ ε α} {e : ε} {s' : σ} (h : wp m Q R s)
    (hm : m.run s = .error e s') : R e s' := by
  unfold wp at h
  rwa [hm] at h

/-- The exact postcondition of a run. -/
theorem wp_run (m : Fallible σ ε α) (s : σ) :
    wp m (fun a s' => m.run s = .ok a s') (fun e s' => m.run s = .error e s') s := by
  unfold wp
  cases h : m.run s <;> rfl

/-- When each exit settles `C`, the computation returns into `P` exactly when `C` holds. -/
theorem wp.returns_iff {m : Fallible σ ε α} {P : α → Prop} {C : Prop}
    (h : wp m (fun a _ => P a ∧ C) (fun _ _ => ¬C) s) :
    (∃ a s', m.run s = .ok a s' ∧ P a) ↔ C := by
  unfold wp at h
  cases hm : m.run s with
  | ok a s' =>
      rw [hm] at h
      exact ⟨fun _ => h.2, fun _ => ⟨a, s', rfl, h.1⟩⟩
  | error e s' =>
      rw [hm] at h
      exact ⟨fun ⟨_, _, hrun, _⟩ => (by cases hrun), fun hC => absurd hC h⟩

/-- A loop keeps what each of its rounds keeps. -/
theorem wp_forM {σ ε : Type} {β : Type} {R : ε → σ → Prop} {s : σ} {f : β → Fallible σ ε Unit}
    (I : σ → Prop) (xs : List β) (h0 : I s)
    (hstep : ∀ x ∈ xs, ∀ s, I s → wp (f x) (fun _ s' => I s') R s) :
    wp (xs.forM f) (fun _ s' => I s') R s := by
  induction xs generalizing s with
  | nil => exact h0
  | cons x xs ih =>
      rw [show (x :: xs).forM f = (f x >>= fun _ => xs.forM f) from rfl, wp_bind]
      refine wp_mono (hstep x (by simp) s h0) (fun _ s' hs' => ?_) fun _ _ hR => hR
      exact ih hs' fun y hy => hstep y (by simp [hy])

/-- A loop over indices keeps an invariant that says how far it is. -/
theorem wp_foldlM_range {σ ε : Type} {R : ε → σ → Prop} {s : σ} {α : Type}
    {f : α → ℕ → Fallible σ ε α} (I : ℕ → α → σ → Prop) {a : α} (n : ℕ) (h0 : I 0 a s)
    (hstep : ∀ i < n, ∀ a s, I i a s → wp (f a i) (I (i + 1)) R s) :
    wp ((List.range n).foldlM f a) (I n) R s := by
  induction n with
  | zero => exact h0
  | succ n ih =>
      rw [List.range_succ, List.foldlM_append, wp_bind]
      refine wp_mono (ih fun i hi => hstep i (by omega)) (fun b s' hb => ?_) fun _ _ hR => hR
      rw [List.foldlM_cons, wp_bind]
      exact wp_mono (hstep n (by omega) b s' hb) (fun _ _ hI => hI) fun _ _ hR => hR

/-- A loop over a list keeps an invariant that knows the part that is done. -/
theorem wp_foldlM {σ ε : Type} {R : ε → σ → Prop} {s : σ} {α β : Type}
    {f : α → β → Fallible σ ε α} (I : List β → α → σ → Prop) (xs : List β) {a : α} (h0 : I [] a s)
    (hstep : ∀ done x rest, xs = done ++ x :: rest → ∀ a s, I done a s →
      wp (f a x) (I (done ++ [x])) R s) :
    wp (xs.foldlM f a) (I xs) R s := by
  suffices hsuffix : ∀ rest done a s, xs = done ++ rest → I done a s →
      wp (rest.foldlM f a) (I xs) R s from hsuffix xs [] a s rfl h0
  intro rest
  induction rest with
  | nil =>
      intro done a s hxs hI
      rw [List.append_nil] at hxs
      exact hxs ▸ hI
  | cons x rest ih =>
      intro done a s hxs hI
      rw [List.foldlM_cons, wp_bind]
      refine wp_mono (hstep done x rest hxs a s hI) (fun b s' hb => ?_) fun _ _ hR => hR
      exact ih (done ++ [x]) b s' (by rw [hxs, List.append_assoc, List.singleton_append]) hb

/-- A map gives a result for each element, and an element that fails is known. -/
theorem wp_mapM {σ ε : Type} {s : σ} {α β : Type} {f : β → Fallible σ ε α} {E : β → Prop}
    (I : List β → List α → σ → Prop) (xs : List β) (h0 : I [] [] s)
    (hstep : ∀ done x rest, xs = done ++ x :: rest → ∀ ys s, I done ys s →
      wp (f x) (fun y => I (done ++ [x]) (ys ++ [y])) (fun _ _ => E x) s) :
    wp (xs.mapM f) (I xs) (fun _ _ => ∃ x ∈ xs, E x) s := by
  suffices hsuffix : ∀ rest done ys s, xs = done ++ rest → I done ys s →
      wp (rest.mapM f) (fun zs => I xs (ys ++ zs)) (fun _ _ => ∃ x ∈ rest, E x) s from
    hsuffix xs [] [] s rfl h0
  intro rest
  induction rest with
  | nil =>
      intro done ys s hxs hI
      rw [List.append_nil] at hxs
      rw [List.mapM_nil, wp_pure, List.append_nil]
      exact hxs ▸ hI
  | cons x rest ih =>
      intro done ys s hxs hI
      rw [List.mapM_cons, wp_bind]
      refine wp_mono (hstep done x rest hxs ys s hI) (fun y s' hy => ?_)
        fun _ _ hE => ⟨x, List.mem_cons_self, hE⟩
      rw [wp_bind]
      refine wp_mono (ih (done ++ [x]) (ys ++ [y]) s'
        (by rw [hxs, List.append_assoc, List.singleton_append]) hy) (fun zs s'' hzs => ?_)
        fun _ _ hE => hE.imp fun z hz => ⟨List.mem_cons_of_mem x hz.1, hz.2⟩
      rw [wp_pure, ← List.singleton_append, ← List.append_assoc]
      exact hzs

/-- `m` keeps `I`, whether it returns or fails. -/
def Keeps (I : σ → Prop) (m : Fallible σ ε α) : Prop :=
  ∀ s, I s → wp m (fun _ s' => I s') (fun _ s' => I s') s

theorem Keeps.pure {I : σ → Prop} (a : α) : Keeps I (Pure.pure a : Fallible σ ε α) := fun _ hs => hs

theorem Keeps.throw {I : σ → Prop} (e : ε) : Keeps I (throw e : Fallible σ ε α) := fun _ hs => hs

/-- A sequence keeps what both of its parts keep. -/
theorem Keeps.bind {I : σ → Prop} {m : Fallible σ ε β} {f : β → Fallible σ ε α} (hm : Keeps I m)
    (hf : ∀ b, Keeps I (f b)) : Keeps I (m >>= f) := by
  intro s hs
  rw [wp_bind]
  exact wp_mono (hm s hs) (fun b s' hs' => hf b s' hs') fun _ _ hs' => hs'

theorem Keeps.map {I : σ → Prop} {g : β → α} {m : Fallible σ ε β} (hm : Keeps I m) : Keeps I (g <$> m) := by
  intro s hs
  rw [wp_map]
  exact hm s hs

theorem Keeps.throwIf {σ ε : Type} {I : σ → Prop} (c : Prop) [Decidable c] (e : ε) :
    Keeps I (Toktier.Lib.throwIf c e : Fallible σ ε Unit) := by
  intro s hs
  rw [wp_throwIf]
  exact ⟨fun _ => hs, fun _ => hs⟩

theorem Keeps.fromExcept {I : σ → Prop} (x : Except ε α) :
    Keeps I (Toktier.Lib.fromExcept x : Fallible σ ε α) := by
  intro s hs
  rw [wp_fromExcept]
  exact ⟨fun _ _ => hs, fun _ _ => hs⟩

theorem Keeps.modify {σ ε : Type} {I : σ → Prop} {f : σ → σ} (hf : ∀ s, I s → I (f s)) :
    Keeps I (modify f : Fallible σ ε PUnit) := fun s hs => hf s hs

/-- What is read from the state is known to be it. -/
theorem Keeps.get_bind {I : σ → Prop} {f : σ → Fallible σ ε α}
    (hf : ∀ s, I s → wp (f s) (fun _ s' => I s') (fun _ s' => I s') s) : Keeps I (get >>= f) := by
  intro s hs
  rw [wp_bind, wp_get]
  exact hf s hs

theorem exists_of_returnsSuch {m : Fallible σ ε α} {p : α → σ → Bool}
    (h : returnsSuch m p s = true) : ∃ a s', m.run s = .ok a s' ∧ p a s' = true := by
  unfold returnsSuch at h
  split at h
  · rename_i a s' hm
    exact ⟨a, s', hm, h⟩
  · cases h

/-- A sequence that returned ran through both of its parts. -/
theorem run_bind_eq_ok {m : Fallible σ ε β} {f : β → Fallible σ ε α} {a : α} {s'' : σ}
    (h : (m >>= f).run s = .ok a s'') :
    ∃ b s', m.run s = .ok b s' ∧ (f b).run s' = .ok a s'' := by
  rw [EStateM.run_bind] at h
  cases hm : m.run s with
  | ok b s' =>
      rw [hm] at h
      exact ⟨b, s', rfl, h⟩
  | error e s' =>
      rw [hm] at h
      cases h

theorem run_map_eq_ok {m : Fallible σ ε β} {g : β → α} {a : α} {s'' : σ}
    (h : (g <$> m).run s = .ok a s'') : ∃ b, m.run s = .ok b s'' ∧ g b = a := by
  rw [← bind_pure_comp] at h
  obtain ⟨b, s', hm, hg⟩ := run_bind_eq_ok h
  obtain ⟨rfl, rfl⟩ := EStateM.Result.ok.inj hg
  exact ⟨b, hm, rfl⟩

theorem run_throwIf_eq_ok {σ ε : Type} {s s' : σ} {c : Prop} [Decidable c] {e : ε} {u : Unit}
    (h : (throwIf c e : Fallible σ ε Unit).run s = .ok u s') : ¬c ∧ s' = s := by
  by_cases hc : c
  · rw [throwIf, if_pos hc] at h
    cases h
  · rw [throwIf, if_neg hc] at h
    exact ⟨hc, (EStateM.Result.ok.inj h).2.symm⟩

theorem run_fromExcept_eq_ok {σ ε α : Type} {s s' : σ} {x : Except ε α} {a : α}
    (h : (fromExcept x : Fallible σ ε α).run s = .ok a s') : x = .ok a ∧ s' = s := by
  cases x with
  | ok b =>
      obtain ⟨rfl, rfl⟩ := EStateM.Result.ok.inj h
      exact ⟨rfl, rfl⟩
  | error e => cases h

end Rules

end Toktier.Lib
