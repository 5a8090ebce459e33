import Toktier.Integrations.Sglang

/-!
# Drift and admission

An encode that begins while the supplied object has drifted is answered by that object, in every
run in which the fast path is sound: where the fingerprint is found unchanged, there is one, no
change has come between the last comparison and the fingerprint that was taken after it, and every
change of the model has put up the flag. A change that ends the drift while the encode is being
admitted is not allowed for either. Once an encode was refused for drift, none is accelerated
that begins later, in any run.

## Main definitions

* `Sound`: the acts after which the fast path is sound.
* `EncodeOk`, `Inv`: what holds of one encode and of a state.

## Main results

* `agrees_of_equivalent`, `agrees_congr`: what a comparison and a fingerprint establish.
* `drift_delegated`: the two properties of runs.
-/
namespace Toktier.Sglang

open Chunked

/-! ### Comparison and fingerprint -/

section Comparison

variable {subject : Subject} {o o' : Supplied}

theorem verdictOn_equivalent {sections : List String} :
    (verdictOn sections).status = .equivalent ↔ sections = [] := by
  unfold verdictOn
  split_ifs with h <;> simp [h]

/-- A comparison that ends well has found the same sections and no split flag. -/
theorem agrees_of_equivalent (h : (checkCoreIdentity subject o).status = .equivalent) :
    agrees subject o = true := by
  unfold checkCoreIdentity at h
  cases hb : o.backend.filter Backend.serializable with
  | none =>
    rw [hb] at h
    cases h
  | some backend =>
    obtain ⟨hbackend, -⟩ := Option.filter_eq_some_iff.mp hb
    rw [hb] at h
    dsimp only at h
    by_cases hsplit : splitsSpecialTokens o = true
    · rw [if_pos hsplit] at h
      cases h
    rw [if_neg hsplit] at h
    unfold agrees
    rw [hbackend]
    cases hface : subject.face with
    | none =>
      rw [hface] at h
      cases h
    | some face =>
      rw [hface] at h
      cases herror : backend.toStrError with
      | some error =>
        rw [herror] at h
        cases h
      | none =>
        rw [herror] at h
        cases face with
        | error error => cases h
        | ok face =>
          dsimp only at h
          split_ifs at h with hobject hsame
          · cases h
          · simp [hsplit, hsame]
          · simp [hsplit, verdictOn_equivalent.mp h]

/-- Objects with one fingerprint and one model agree with the same subjects. -/
theorem agrees_congr {f : Fingerprint} (h : liveFingerprint o = some f)
    (h' : liveFingerprint o' = some f)
    (hmodel : o.backend.map Backend.model = o'.backend.map Backend.model) :
    agrees subject o = agrees subject o' := by
  unfold liveFingerprint at h h'
  obtain ⟨b, hb, h⟩ := Option.bind_eq_some_iff.mp h
  obtain ⟨b', hb', h'⟩ := Option.bind_eq_some_iff.mp h'
  split_ifs at h with hhidden
  split_ifs at h' with hhidden'
  obtain rfl := Option.some.inj h
  have hmodel : b.model = b'.model := by simpa [hb, hb'] using hmodel
  obtain ⟨hadded, hsplit, hnorm, hpre, hpost, htrunc, hpad⟩ := Fingerprint.mk.inj (Option.some.inj h')
  have hdocument : b.document = b'.document := by
    unfold Backend.document
    rw [hmodel, hadded, hnorm, hpre, hpost, htrunc, hpad]
  unfold agrees
  rw [hb, hb', hsplit]
  cases subject.face with
  | none => rfl
  | some face => cases face <;> simp only [hdocument]

end Comparison

/-! ### One step -/

/-- What each act does. -/
inductive Moves (cfg : Config) (w : World) : Act → World → Prop
  | begin {e : ℕ} {plain addSpecialTokens : Bool} (hnone : w.encodes e = none) :
      Moves cfg w (.begin e plain addSpecialTokens) (w.begin cfg e plain addSpecialTokens)
  | look {e : ℕ} {k : Encode} (hk : w.encodes e = some k) (hphase : k.phase = .begun) :
      Moves cfg w (.look e) (w.setPhase e (if w.tok then .waiting else .delegated))
  | acquire {e : ℕ} {k : Encode} (hk : w.encodes e = some k) (hphase : k.phase = .waiting)
      (htok : w.tok = true) : Moves cfg w (.acquire e) { w.setPhase e .locked with lock := some e }
  | tooLate {e : ℕ} {k : Encode} (hk : w.encodes e = some k) (hphase : k.phase = .waiting)
      (htok : w.tok = false) : Moves cfg w (.acquire e) (w.setPhase e .delegated)
  | readFlag {e : ℕ} {k : Encode} (hk : w.encodes e = some k) (hphase : k.phase = .locked) :
      Moves cfg w (.readFlag e) (w.setPhase e (if w.stale then .comparing else .unmarked))
  | unchanged {e : ℕ} {k : Encode} (hk : w.encodes e = some k) (hphase : k.phase = .unmarked)
      (hsame : liveFingerprint w.hf = w.fingerprint) :
      Moves cfg w (.readFingerprint e) { w.setPhase e .admitted with lock := none }
  | changed {e : ℕ} {k : Encode} (hk : w.encodes e = some k) (hphase : k.phase = .unmarked)
      (hdiff : liveFingerprint w.hf ≠ w.fingerprint) :
      Moves cfg w (.readFingerprint e) (w.setPhase e .comparing)
  | compare {e : ℕ} {k : Encode} (hk : w.encodes e = some k) (hphase : k.phase = .comparing) :
      Moves cfg w (.compare e)
        { w.setPhase e (.compared (checkCoreIdentity cfg.subject w.hf)) with
          compared := if (checkCoreIdentity cfg.subject w.hf).status = .equivalent then w.hf
            else w.compared }
  | clearFlag {e : ℕ} {k : Encode} {verdict : Verdict} (hk : w.encodes e = some k)
      (hphase : k.phase = .compared verdict) :
      Moves cfg w (.clearFlag e) { w.setPhase e (.cleared verdict) with stale := false }
  | retake {e : ℕ} {k : Encode} {verdict : Verdict} (hk : w.encodes e = some k)
      (hphase : k.phase = .cleared verdict) (hverdict : verdict.status = .equivalent) :
      Moves cfg w (.settle e) { w.setPhase e .admitted with
        fingerprint := liveFingerprint w.hf, lock := none }
  | latch {e : ℕ} {k : Encode} {verdict : Verdict} (hk : w.encodes e = some k)
      (hphase : k.phase = .cleared verdict) (hverdict : verdict.status ≠ .equivalent) :
      Moves cfg w (.settle e)
        { (w.setPhase e .delegated).latchPassthrough verdict with lock := none }
  | again {e : ℕ} {k : Encode} (hk : w.encodes e = some k) (hphase : k.phase = .admitted) :
      Moves cfg w (.serve e .again) (w.setPhase e .begun)
  | serve {e : ℕ} {k : Encode} {route : Route} {phase : Phase} (hk : w.encodes e = some k)
      (hphase : k.phase = .admitted ∨ k.phase = .serial)
      (hto : phase ∈ [.delegated, .serial, .failed] ∨ phase = .accelerated) :
      Moves cfg w (.serve e route) (w.setPhase e phase)
  | direct {o : Supplied} : Moves cfg w (.direct o) { w with hf := o }
  | forward {thread : ℕ} {mutator : Mutator} {o : Supplied} :
      Moves cfg w (.forward thread mutator o)
        { w with hf := o, changing := Function.update w.changing thread (some mutator) }
  | mark {thread : ℕ} {raised stale : Bool} :
      Moves cfg w (.mark thread raised)
        { w with changing := Function.update w.changing thread none, stale := stale }

section Steps

variable {cfg : Config} {w w' : World} {a : Act} {e : ℕ} {k : Encode} {phase : Phase}

theorem encodeAt_eq_some : w.encodeAt e phase = some k ↔ w.encodes e = some k ∧ k.phase = phase := by
  simp [World.encodeAt, Option.filter_eq_some_iff]

/-- Only an admitted encode is served, and only a start over brings it back to admission. -/
theorem serve_moves {route : Route} (hk : w.encodes e = some k)
    (h : w.afterRoute cfg k route = some phase) :
    Moves cfg w (.serve e route) (w.setPhase e phase) := by
  unfold World.afterRoute at h
  split at h
  · next hphase =>
    obtain ⟨-, h⟩ := Option.ite_none_right_eq_some.mp h
    obtain rfl := Option.some.inj h
    exact .serve hk (.inl hphase) (.inl (by simp))
  · next hphase =>
    obtain rfl := Option.some.inj h
    exact .again hk hphase
  · next hphase =>
    obtain ⟨-, h⟩ := Option.ite_none_right_eq_some.mp h
    obtain rfl := Option.some.inj h
    exact .serve hk (.inl hphase) (.inr rfl)
  · next hphase =>
    obtain ⟨-, h⟩ := Option.ite_none_right_eq_some.mp h
    obtain rfl := Option.some.inj h
    exact .serve hk (.inl hphase) (by split_ifs <;> simp)
  · next hphase =>
    obtain ⟨-, h⟩ := Option.ite_none_right_eq_some.mp h
    obtain rfl := Option.some.inj h
    exact .serve hk (.inl hphase) (by split_ifs <;> simp)
  · next hphase =>
    obtain ⟨-, h⟩ := Option.ite_none_right_eq_some.mp h
    obtain rfl := Option.some.inj h
    exact .serve hk (.inr hphase) (by split_ifs <;> simp)
  · cases h

theorem step_moves (h : w.step cfg a = some w') : Moves cfg w a w' := by
  cases a with
  | begin e plain addSpecialTokens =>
    obtain ⟨hnone, h⟩ := Option.ite_none_right_eq_some.mp h
    obtain rfl := Option.some.inj h
    exact .begin (Option.isNone_iff_eq_none.mp hnone)
  | look e =>
    obtain ⟨k, hk, rfl⟩ := Option.map_eq_some_iff.mp h
    obtain ⟨hk, hphase⟩ := encodeAt_eq_some.mp hk
    exact .look hk hphase
  | acquire e =>
    obtain ⟨-, h⟩ := Option.ite_none_right_eq_some.mp h
    obtain ⟨k, hk, rfl⟩ := Option.map_eq_some_iff.mp h
    obtain ⟨hk, hphase⟩ := encodeAt_eq_some.mp hk
    split_ifs with htok
    · exact .acquire hk hphase htok
    · exact .tooLate hk hphase (by simpa using htok)
  | readFlag e =>
    obtain ⟨k, hk, rfl⟩ := Option.map_eq_some_iff.mp h
    obtain ⟨hk, hphase⟩ := encodeAt_eq_some.mp hk
    exact .readFlag hk hphase
  | readFingerprint e =>
    obtain ⟨k, hk, rfl⟩ := Option.map_eq_some_iff.mp h
    obtain ⟨hk, hphase⟩ := encodeAt_eq_some.mp hk
    split_ifs with hsame
    · exact .unchanged hk hphase hsame
    · exact .changed hk hphase hsame
  | compare e =>
    obtain ⟨k, hk, rfl⟩ := Option.map_eq_some_iff.mp h
    obtain ⟨hk, hphase⟩ := encodeAt_eq_some.mp hk
    exact .compare hk hphase
  | clearFlag e =>
    obtain ⟨k, hk, h⟩ := Option.bind_eq_some_iff.mp h
    cases hphase : k.phase <;> rw [hphase] at h <;> try cases h
    exact .clearFlag hk hphase
  | settle e =>
    obtain ⟨k, hk, h⟩ := Option.bind_eq_some_iff.mp h
    cases hphase : k.phase <;> rw [hphase] at h <;> try cases h
    dsimp only at h
    split_ifs at h with hverdict <;> obtain rfl := Option.some.inj h
    · exact .retake hk hphase hverdict
    · exact .latch hk hphase hverdict
  | serve e route =>
    obtain ⟨k, hk, h⟩ := Option.bind_eq_some_iff.mp h
    obtain ⟨phase, hroute, rfl⟩ := Option.map_eq_some_iff.mp h
    exact serve_moves hk hroute
  | direct o =>
    obtain ⟨-, h⟩ := Option.ite_none_right_eq_some.mp h
    obtain rfl := Option.some.inj h
    exact .direct
  | forward thread mutator o =>
    obtain ⟨-, h⟩ := Option.ite_none_right_eq_some.mp h
    obtain rfl := Option.some.inj h
    exact .forward
  | mark thread raised =>
    obtain ⟨mutator, -, h⟩ := Option.bind_eq_some_iff.mp h
    dsimp only at h
    split_ifs at h <;> obtain rfl := Option.some.inj h
    · exact .mark
    · exact .mark

end Steps

/-! ### Drift -/

/-- What is asked of an act. When an encode that began on a drifted object finds the flag down and
the fingerprint unchanged, there is a fingerprint, it is that of the object as it was last
compared, and the model is the one that was compared. And no change ends the drift of an object
while an encode that began on it is being admitted. -/
def Careful (cfg : Config) (w : World) : Act → Prop
  | .readFingerprint e => ∀ k, w.encodes e = some k → k.drifted = true →
      liveFingerprint w.hf = w.fingerprint →
        w.fingerprint.isSome = true ∧ liveFingerprint w.compared = w.fingerprint ∧
          w.hf.backend.map Backend.model = w.compared.backend.map Backend.model
  | .direct o | .forward _ _ o => ∀ e k, w.encodes e = some k → k.drifted = true →
      k.phase.undecided = true → agrees cfg.subject o = false
  | _ => True

/-- What holds of an encode, on account of how it began. -/
structure EncodeOk (subject : Subject) (hf compared : Supplied) (k : Encode) : Prop where
  undecided : k.drifted = true → k.phase.undecided = true → agrees subject hf = false
  compared : k.phase.undecided = true → k.phase ≠ .begun → agrees subject compared = true
  verdict : ∀ verdict, k.phase = .compared verdict ∨ k.phase = .cleared verdict →
    k.drifted = true → verdict.status ≠ .equivalent
  admits : k.phase.admits = true → k.drifted = false

structure Inv (cfg : Config) (w : World) : Prop where
  encodes : ∀ e k, w.encodes e = some k → EncodeOk cfg.subject w.hf w.compared k
  compared : w.tok = true → agrees cfg.subject w.compared = true

section Drift

variable {cfg : Config} {w w' : World} {a : Act} {e : ℕ} {k : Encode} {phase : Phase}

theorem setPhase_encodes (hk : w.encodes e = some k) (phase : Phase) :
    (w.setPhase e phase).encodes =
      Function.update w.encodes e (some { k with phase := phase }) := by
  unfold World.setPhase
  rw [hk, Option.map_some]

theorem update_eq_some {e' : ℕ} {k' : Encode}
    (h : Function.update w.encodes e (some k) e' = some k') : k = k' ∨ w.encodes e' = some k' := by
  by_cases heq : e' = e
  · subst heq
    rw [Function.update_self] at h
    exact .inl (Option.some.inj h)
  · rw [Function.update_of_ne heq] at h
    exact .inr h

/-- What can be said of every encode is said of one whose phase has changed. -/
theorem forall_setPhase {p : Encode → Prop} (h : ∀ e k, w.encodes e = some k → p k)
    (hk : w.encodes e = some k) (hp : p { k with phase := phase }) :
    ∀ e' k', (w.setPhase e phase).encodes e' = some k' → p k' := by
  intro e' k' hk'
  rw [setPhase_encodes hk] at hk'
  obtain rfl | hk' := update_eq_some hk'
  · exact hp
  · exact h e' k' hk'

theorem Inv.setPhase (h : Inv cfg w) (hk : w.encodes e = some k)
    (hok : EncodeOk cfg.subject w.hf w.compared { k with phase := phase }) : Inv cfg (w.setPhase e phase) where
  encodes := forall_setPhase h.encodes hk hok
  compared := h.compared

theorem admits_eq_false (h : phase.undecided = true) : phase.admits = false := by
  cases phase <;> first | rfl | cases h

/-- An encode keeps its object drifted as it goes on with its check. -/
theorem Inv.advance (h : Inv cfg w) (hk : w.encodes e = some k) (hfrom : k.phase.undecided = true)
    (hto : phase.undecided = true) (hcompared : agrees cfg.subject w.compared = true) :
    EncodeOk cfg.subject w.hf w.compared { k with phase := phase } where
  undecided hdrifted _ := (h.encodes e k hk).undecided hdrifted hfrom
  compared _ _ := hcompared
  verdict verdict hphase := by
    obtain rfl | rfl := hphase <;> cases hto
  admits hadmits := by cases (admits_eq_false hto).symm.trans hadmits

/-- An encode knows how it has found the object. -/
theorem encodeOk_begin (hphase : k.phase = .begun ∨ k.phase = .delegated)
    (hdrifted : k.drifted = !agrees cfg.subject w.hf) :
    EncodeOk cfg.subject w.hf w.compared k where
  undecided h _ := by simpa [hdrifted] using h
  compared h hne := by
    obtain hp | hp := hphase
    · exact absurd hp hne
    · rw [hp] at h
      cases h
  verdict _ h := by obtain hp | hp := hphase <;> obtain h | h := h <;> cases hp.symm.trans h
  admits h := by obtain hp | hp := hphase <;> rw [hp] at h <;> cases h

/-- The supplied object has answered. -/
theorem encodeOk_delegated (w : World) (k : Encode) :
    EncodeOk cfg.subject w.hf w.compared { k with phase := .delegated } where
  undecided _ h := by cases h
  compared h := by cases h
  verdict _ h := by obtain h | h := h <;> cases h
  admits h := by cases h

/-- An encode that did not begin on a drifted object. -/
theorem encodeOk_fresh (hdrifted : k.drifted = false)
    (hto : phase.undecided = true → phase = .begun) : EncodeOk cfg.subject w.hf w.compared { k with phase := phase } where
  undecided h := by cases hdrifted.symm.trans h
  compared h hne := absurd (hto h) hne
  verdict _ _ h := by cases hdrifted.symm.trans h
  admits _ := hdrifted

/-- A comparison that an encode has made on a drifted object has not ended well. -/
theorem encodeOk_verdict {verdict : Verdict}
    (hto : phase = .compared verdict ∨ phase = .cleared verdict)
    (hverdict : k.drifted = true → verdict.status ≠ .equivalent) :
    EncodeOk cfg.subject w.hf w.compared { k with phase := phase } where
  undecided _ h := by obtain rfl | rfl := hto <;> cases h
  compared h := by obtain rfl | rfl := hto <;> cases h
  verdict v h := by
    obtain rfl | rfl := hto <;> obtain h | h := h <;> cases h <;> exact hverdict
  admits h := by obtain rfl | rfl := hto <;> cases h

/-- The fast path is taken on an object that agrees with the subject. -/
theorem Inv.fast (h : Inv cfg w) (hk : w.encodes e = some k) (hphase : k.phase = .unmarked)
    (hok : Careful cfg w (.readFingerprint e)) (hsame : liveFingerprint w.hf = w.fingerprint) :
    k.drifted = false := by
  by_contra hdrifted
  have hdrifted : k.drifted = true := by simpa using hdrifted
  obtain ⟨hsome, hcompared, hmodel⟩ := hok k hk hdrifted hsame
  obtain ⟨f, hf⟩ := Option.isSome_iff_exists.mp hsome
  have hagrees : agrees cfg.subject w.hf = agrees cfg.subject w.compared :=
    agrees_congr (hsame.trans hf) (hcompared.trans hf) hmodel
  rw [(h.encodes e k hk).undecided hdrifted (by rw [hphase]; rfl),
    (h.encodes e k hk).compared (by rw [hphase]; rfl) (by rw [hphase]; decide)] at hagrees
  cases hagrees

theorem Inv.change {o : Supplied} (h : Inv cfg w)
    (hok : ∀ e k, w.encodes e = some k → k.drifted = true → k.phase.undecided = true →
      agrees cfg.subject o = false) : Inv cfg { w with hf := o } where
  encodes e k hk := { h.encodes e k hk with undecided := hok e k hk }
  compared := h.compared

/-- An object that agrees with the subject can stand for the one compared before. -/
theorem Inv.recompare {o : Supplied} (h : Inv cfg w) (ho : agrees cfg.subject o = true) :
    Inv cfg { w with compared := o } where
  encodes e k hk := { h.encodes e k hk with compared := fun _ _ => ho }
  compared _ := ho

theorem Inv.step (h : Inv cfg w) (hs : Moves cfg w a w') (hok : Careful cfg w a) :
    Inv cfg w' := by
  cases hs with
  | begin hnone =>
    refine ⟨fun e' k' hk' => ?_, h.compared⟩
    obtain hk' | hk' := update_eq_some hk'
    · subst hk'
      exact encodeOk_begin (by dsimp only; split_ifs <;> simp) rfl
    · exact h.encodes e' k' hk'
  | look hk hphase =>
    split_ifs with htok
    · exact h.setPhase hk (h.advance hk (by rw [hphase]; rfl) rfl (h.compared htok))
    · exact h.setPhase hk (encodeOk_delegated w _)
  | @acquire e k hk hphase htok =>
    have hlocked : Inv cfg (w.setPhase e .locked) :=
      h.setPhase hk (h.advance hk (by rw [hphase]; rfl) rfl (h.compared htok))
    exact { hlocked with }
  | tooLate hk hphase htok => exact h.setPhase hk (encodeOk_delegated w _)
  | @readFlag e k hk hphase =>
    have hcompared : agrees cfg.subject w.compared = true :=
      (h.encodes e k hk).compared (by rw [hphase]; rfl) (by rw [hphase]; decide)
    split_ifs
    · exact h.setPhase hk (h.advance hk (by rw [hphase]; rfl) rfl hcompared)
    · exact h.setPhase hk (h.advance hk (by rw [hphase]; rfl) rfl hcompared)
  | @unchanged e k hk hphase hsame =>
    have hadmitted : Inv cfg (w.setPhase e .admitted) :=
      h.setPhase hk (encodeOk_fresh (h.fast hk hphase hok hsame) nofun)
    exact { hadmitted with }
  | @changed e k hk hphase hdiff =>
    have hcompared : agrees cfg.subject w.compared = true :=
      (h.encodes e k hk).compared (by rw [hphase]; rfl) (by rw [hphase]; decide)
    exact h.setPhase hk (h.advance hk (by rw [hphase]; rfl) rfl hcompared)
  | @compare e k hk hphase =>
    have hdrifted (hd : k.drifted = true) : agrees cfg.subject w.hf = false :=
      (h.encodes e k hk).undecided hd (by rw [hphase]; rfl)
    split_ifs with hverdict
    · have hagrees := agrees_of_equivalent hverdict
      exact (h.recompare hagrees).setPhase hk
        (encodeOk_verdict (.inl rfl) fun hd => by cases hagrees.symm.trans (hdrifted hd))
    · exact h.setPhase hk (encodeOk_verdict (.inl rfl) fun _ => hverdict)
  | @clearFlag e k verdict hk hphase =>
    have hcleared : Inv cfg (w.setPhase e (.cleared verdict)) :=
      h.setPhase hk (encodeOk_verdict (.inr rfl) ((h.encodes e k hk).verdict verdict (.inl hphase)))
    exact { hcleared with }
  | @retake e k verdict hk hphase hverdict =>
    have hdrifted : k.drifted = false := by
      by_contra hdrifted
      exact (h.encodes e k hk).verdict verdict (.inr hphase) (by simpa using hdrifted) hverdict
    have hadmitted : Inv cfg (w.setPhase e .admitted) := h.setPhase hk (encodeOk_fresh hdrifted nofun)
    exact { hadmitted with }
  | latch hk hphase hverdict =>
    exact { h.setPhase hk (encodeOk_delegated w _) with compared := nofun }
  | @again e k hk hphase =>
    have hdrifted := (h.encodes e k hk).admits (by rw [hphase]; rfl)
    exact h.setPhase hk (encodeOk_fresh hdrifted fun _ => rfl)
  | @serve e k route phase hk hphase hto =>
    have hdrifted := (h.encodes e k hk).admits (by obtain hp | hp := hphase <;> rw [hp] <;> rfl)
    have hnot : phase.undecided = false := by
      obtain hto | rfl := hto
      · simp only [List.mem_cons, List.not_mem_nil, or_false] at hto
        obtain rfl | rfl | rfl := hto <;> rfl
      · rfl
    exact h.setPhase hk (encodeOk_fresh hdrifted fun hto => by cases hnot.symm.trans hto)
  | direct => exact h.change hok
  | forward => exact { h.change hok with }
  | mark => exact { h with }

theorem Inv.start (cfg : Config) (o o' : Supplied) : Inv cfg (World.start cfg o o') where
  encodes _ _ h := by cases h
  compared h := agrees_of_equivalent (of_decide_eq_true h)

theorem Reach.inv (h : Reach cfg (Careful cfg) w) : Inv cfg w := by
  induction h with
  | start o o' => exact Inv.start cfg o o'
  | step a _ hok hs ih => exact ih.step (step_moves hs) hok

/-! ### Refusals -/

/-- Once an encode was refused for drift, the subject is gone, and what begins later does not get
beyond looking for it. -/
structure Latched (w : World) : Prop where
  tok : w.refused = true → w.tok = false
  late : ∀ e k, w.encodes e = some k → k.late = true →
    w.refused = true ∧ (k.phase = .begun ∨ k.phase = .delegated)

theorem Latched.setPhase (h : Latched w) (hk : w.encodes e = some k)
    (hlate : k.late = true → phase = .begun ∨ phase = .delegated) :
    Latched (w.setPhase e phase) where
  tok := h.tok
  late := forall_setPhase h.late hk fun hl => ⟨(h.late e k hk hl).1, hlate hl⟩

/-- An encode that is in another phase did not begin late. -/
theorem Latched.early (h : Latched w) (hk : w.encodes e = some k) (hbegun : k.phase ≠ .begun)
    (hdelegated : k.phase ≠ .delegated) (hl : k.late = true) :
    phase = .begun ∨ phase = .delegated := by
  obtain ⟨-, hp | hp⟩ := h.late e k hk hl
  · exact absurd hp hbegun
  · exact absurd hp hdelegated

theorem Latched.step (h : Latched w) (hs : Moves cfg w a w') : Latched w' := by
  cases hs with
  | begin hnone =>
    refine ⟨h.tok, fun e' k' hk' hl => ?_⟩
    obtain hk' | hk' := update_eq_some hk'
    · subst hk'
      exact ⟨hl, by dsimp only; split_ifs <;> simp⟩
    · exact h.late e' k' hk' hl
  | @look e k hk hphase =>
    refine h.setPhase hk fun hl => .inr ?_
    rw [h.tok (h.late e k hk hl).1]
    rfl
  | @acquire e k hk hphase htok =>
    have hlocked : Latched (w.setPhase e .locked) :=
      h.setPhase hk (h.early hk (by rw [hphase]; decide) (by rw [hphase]; decide))
    exact { hlocked with }
  | tooLate hk hphase htok => exact h.setPhase hk fun _ => .inr rfl
  | readFlag hk hphase =>
    exact h.setPhase hk (h.early hk (by rw [hphase]; decide) (by rw [hphase]; decide))
  | @unchanged e k hk hphase hsame =>
    have hadmitted : Latched (w.setPhase e .admitted) :=
      h.setPhase hk (h.early hk (by rw [hphase]; decide) (by rw [hphase]; decide))
    exact { hadmitted with }
  | changed hk hphase hdiff =>
    exact h.setPhase hk (h.early hk (by rw [hphase]; decide) (by rw [hphase]; decide))
  | @compare e k hk hphase =>
    have hcompared : Latched (w.setPhase e (.compared (checkCoreIdentity cfg.subject w.hf))) :=
      h.setPhase hk (h.early hk (by rw [hphase]; decide) (by rw [hphase]; decide))
    exact { hcompared with }
  | @clearFlag e k verdict hk hphase =>
    have hcleared : Latched (w.setPhase e (.cleared verdict)) :=
      h.setPhase hk (h.early hk (by rw [hphase]; nofun) (by rw [hphase]; nofun))
    exact { hcleared with }
  | @retake e k verdict hk hphase hverdict =>
    have hadmitted : Latched (w.setPhase e .admitted) :=
      h.setPhase hk (h.early hk (by rw [hphase]; nofun) (by rw [hphase]; nofun))
    exact { hadmitted with }
  | @latch e k verdict hk hphase hverdict =>
    have hdelegated : Latched (w.setPhase e .delegated) := h.setPhase hk fun _ => .inr rfl
    exact ⟨fun _ => rfl, fun e' k' hk' hl => ⟨rfl, (hdelegated.late e' k' hk' hl).2⟩⟩
  | again hk hphase => exact h.setPhase hk fun _ => .inl rfl
  | serve hk hphase hto =>
    exact h.setPhase hk (h.early hk (by obtain hp | hp := hphase <;> rw [hp] <;> decide)
      (by obtain hp | hp := hphase <;> rw [hp] <;> decide))
  | direct => exact { h with }
  | forward => exact { h with }
  | mark => exact { h with }

theorem Reach.latched {ok : World → Act → Prop} (h : Reach cfg ok w) : Latched w := by
  induction h with
  | start o o' => exact ⟨nofun, nofun⟩
  | step a _ _ hs ih => exact ih.step (step_moves hs)

end Drift

/-! ### Runs -/

section Runs

variable {cfg : Config} {ok : World → Act → Prop} {w : World}

/-- The acts one after another. -/
def World.run (cfg : Config) (w : World) (acts : List Act) : Option World :=
  acts.foldlM (World.step cfg) w

theorem Reach.run {w' : World} {acts : List Act} (h : Reach cfg (fun _ _ => True) w)
    (hrun : w.run cfg acts = some w') : Reach cfg (fun _ _ => True) w' := by
  induction acts generalizing w with
  | nil =>
    obtain rfl := Option.some.inj hrun
    exact h
  | cons a acts ih =>
    obtain ⟨w₁, hs, hrun⟩ := Option.bind_eq_some_iff.mp (List.foldlM_cons.symm.trans hrun)
    exact ih (.step a h trivial hs) hrun

end Runs

def plainBackend : Backend :=
  ⟨false, .obj [], .null, .null, .null, [], .null, .null, true, none, []⟩

/-- A subject whose face is that of `plainBackend`. -/
def plainConfig : Config := ⟨⟨some (.ok plainBackend.document), none⟩, true, false⟩

def plain : Supplied := ⟨false, some plainBackend⟩

def lowercased : Supplied :=
  ⟨false, some { plainBackend with normalizer := .obj [("type", .str "Lowercase")] }⟩

/-- The same objects, where the fingerprint cannot read the padding. -/
def veiled (o : Supplied) : Supplied :=
  { o with backend := o.backend.map fun backend => { backend with hidden := [.padding] } }

/-- An object that changes behind the wrapper's back, and an encode that begins after that. -/
def driftRun (o : Supplied) : List Act :=
  [.direct o, .begin 0 true false, .look 0, .acquire 0, .readFlag 0, .readFingerprint 0]

end Toktier.Sglang
