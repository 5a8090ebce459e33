import Toktier.Routing.BoundarySeals
import Toktier.Routing.RepairLaws
import Toktier.StoreCore.ChainReady
import Toktier.StoreCore.Isolation

/-!
# The floor of the seal search

A session notes up to which place of its tail no boundary is certified, and its next search for a
cut starts there. The note outlives the text it was taken for: the tail grows behind it, and a seal
moves its origin. Whether a place is certified is decided by the characters that meet there, so a
place in front of a character stays what it was. The end of the tail is in front of none, and an
append may turn it into a boundary; with no guard the floor may stand there.

## Main definitions

* `Certificates`: the certified places of texts, with what the store relies on.
* `Serves`: an engine that meets the contract of a session encoder for them.
* `EndStays`: an append that makes no boundary of the place the floor stands at.
* `SearchAt`: the states in which a call starts a seal search.

## Main results

* `scan_floor_sound`: under that condition no search misses a cut behind the last seal.
* `scan_floor_unguarded`: without it one does.
-/
namespace Toktier.Routing

open Toktier.Lib Toktier.StoreCore

/-! ## Certificates -/

/-- The certified places of texts, over the encoding they split. Text behind a place and the
character after it do not change it, and neither does a cut at a certified place before it. -/
structure Certificates where
  encoding : ReferenceEncoding
  certified : Text → ℕ → Prop
  encode_nil : encoding.encode [] = ⟨[], []⟩
  inner : ∀ {t : Text} {p : ℕ}, certified t p → 0 < p ∧ p < t.length
  stays : ∀ {t r : Text} {p : ℕ}, certified (t ++ r) p → p < t.length → certified t p
  behind : ∀ {t : Text} {n p : ℕ}, certified t n → certified (t.drop n) p → certified t (n + p)

/-- The cut is at the last certified place in `(floor, ceil]`. -/
structure Certificates.LastIn (C : Certificates) (tail : TailState) (floor ceil : ℕ)
    (cut : BoundaryCut) : Prop where
  certified : C.certified tail.text cut.cutChar
  above : floor < cut.cutChar
  le : cut.cutChar ≤ ceil
  last : ∀ p ≤ ceil, C.certified tail.text p → p ≤ cut.cutChar
  inside : cut.Inside tail
  splits : SplitsAt C.encoding tail.text cut.cutChar
  tokens : tokensBefore C.encoding tail.text cut.cutChar = cut.cutTokens

/-- No place up to the floor is certified. -/
def Certificates.Clear (C : Certificates) (t : Text) (floor : ℕ) : Prop :=
  ∀ p ≤ floor, ¬C.certified t p

/-- The contract of a session encoder, on tails that hold the encoding of their text. An append
that fails leaves the tail with its text. -/
structure Serves (eng : Engine) (C : Certificates) : Prop where
  encode : ∀ {t : Text} {enc : Encoding}, eng.encode t = .ok enc → enc = C.encoding.encode t
  append_holds : ∀ {tail : TailState} (delta : Text), Holds C.encoding tail →
    Holds C.encoding (eng.append tail delta).2
  append_text : ∀ {tail grown : TailState} {delta : Text} {report : AppendReport},
    Holds C.encoding tail → eng.append tail delta = (.ok report, grown) →
      grown.text = tail.text ++ delta
  append_failed : ∀ {tail left : TailState} {delta : Text} {e : EngineError},
    Holds C.encoding tail → eng.append tail delta = (.error e, left) → left.text = tail.text
  found : ∀ {tail : TailState} {floor ceil : ℕ} {cut : BoundaryCut}, Holds C.encoding tail →
    eng.lastCertifiedBoundary tail floor ceil = .ok (some cut) → C.LastIn tail floor ceil cut
  missed : ∀ {tail : TailState} {floor ceil : ℕ}, Holds C.encoding tail →
    eng.lastCertifiedBoundary tail floor ceil = .ok none →
      ∀ p, floor < p → p ≤ ceil → ¬C.certified tail.text p

section Certificates

variable {C : Certificates} {t r : Text} {floor ceil : ℕ} {tail : TailState} {cut : BoundaryCut}

namespace Certificates.Clear

/-- Nothing lies at or before the start of a text. -/
theorem zero (C : Certificates) (t : Text) : C.Clear t 0 := by
  intro p hp hcert
  have := (C.inner hcert).1
  omega

/-- Text behind the floor does not matter, but for the place at the end. -/
theorem grow (h : C.Clear t floor) (hle : floor ≤ t.length)
    (hend : floor = t.length → ¬C.certified (t ++ r) floor) : C.Clear (t ++ r) floor := by
  intro p hp hcert
  obtain hlt | hge := Nat.lt_or_ge p t.length
  · exact h p hp (C.stays hcert hlt)
  · obtain rfl : p = floor := by omega
    exact hend (by omega) hcert

/-- A search that finds nothing lifts the floor to where it started. -/
theorem lift (h : C.Clear t floor)
    (hmiss : ∀ p, floor < p → p ≤ ceil → ¬C.certified t p) : C.Clear t ceil := by
  intro p hp hcert
  obtain hlt | hle := Nat.lt_or_ge floor p
  · exact hmiss p hlt hp hcert
  · exact h p hle hcert

/-- Behind the last certified place there is none up to where the search started. -/
theorem rest (hcut : C.LastIn tail floor ceil cut) :
    C.Clear (tail.text.drop cut.cutChar) (ceil - cut.cutChar) := by
  intro p hp hcert
  have hpos := (C.inner hcert).1
  have hle := hcut.le
  have hlast := hcut.last (cut.cutChar + p) (by omega) (C.behind hcut.certified hcert)
  omega

end Certificates.Clear

theorem map_sub_shift (n : ℕ) (spans : List (ℕ × ℕ)) :
    (spans.map fun s => (s.1 + n, s.2 + n)).map (Prod.map (· - n) (· - n)) = spans := by
  rw [List.map_map]
  refine (List.map_congr_left fun s _ => ?_).trans (List.map_id spans)
  simp only [Function.comp_apply, Prod.map_apply, Nat.add_sub_cancel, id_eq]

/-- The rest of a tail that is sealed at the cut holds the encoding of its text. -/
theorem Certificates.LastIn.holds_rest {s s' : Session} (h : C.LastIn s.tail floor ceil cut)
    (htail : Holds C.encoding s.tail) (hseal : CleanSeal cut s s') :
    Holds C.encoding s'.tail := by
  have hsplit : C.encoding.encode s.tail.text = _ := h.splits
  have hids : (C.encoding.encode (s.tail.text.take cut.cutChar)).ids.length = cut.cutTokens := h.tokens
  have hspans : (C.encoding.encode (s.tail.text.take cut.cutChar)).spans.length = cut.cutTokens := by
    rw [← C.encoding.aligned, hids]
  constructor
  · rw [hseal.tail_ids, hseal.tail_text, htail.1, hsplit, Encoding.ids_append, ← hids,
      List.drop_left, Encoding.ids_shift]
  · have hdrop : s'.tail.spans =
        (s.tail.spans.drop cut.cutTokens).map (Prod.map (· - cut.cutChar) (· - cut.cutChar)) := by
      have hzip : (s.tail.spanStarts.zip s.tail.spanEnds).drop cut.cutTokens =
          (s.tail.spanStarts.drop cut.cutTokens).zip (s.tail.spanEnds.drop cut.cutTokens) :=
        List.drop_zipWith
      rw [TailState.spans, TailState.spans, hseal.tail_starts, hseal.tail_ends, List.zip_map, hzip]
    rw [hdrop, htail.2, hsplit, Encoding.spans_append, ← hspans, List.drop_left,
      Encoding.spans_shift, map_sub_shift, hseal.tail_text]

end Certificates

/-! ## One session -/

/-- The tail has the encoding of its text, and no place up to the floor is certified. -/
structure FloorOk (C : ℕ → Certificates) (s : Session) : Prop where
  holds : Holds (C s.keyId).encoding s.tail
  clear : (C s.keyId).Clear s.tail.text s.scanFloor
  le : s.scanFloor ≤ s.tail.text.length

/-- The append makes no boundary of the end of the tail, where the floor stands there. -/
def EndStays (C : Certificates) (s : Session) (delta : Text) : Prop :=
  s.scanFloor = s.tail.text.length → ¬C.certified (s.tail.text ++ delta) s.scanFloor

section Session

variable {C : ℕ → Certificates} {cfg : StoreConfig} {key : KeyCtx} {eng : Engine} {s s' : Session}

namespace FloorOk

theorem congr (h : FloorOk C s) (hkey : s'.keyId = s.keyId) (htail : s'.tail = s.tail)
    (hfloor : s'.scanFloor = s.scanFloor) : FloorOk C s' where
  holds := by
    rw [hkey, htail]
    exact h.holds
  clear := by
    rw [hkey, htail, hfloor]
    exact h.clear
  le := by
    rw [htail, hfloor]
    exact h.le

theorem of_zero (hholds : Holds (C s.keyId).encoding s.tail) (hfloor : s.scanFloor = 0) :
    FloorOk C s where
  holds := hholds
  clear := by
    rw [hfloor]
    exact .zero _ _
  le := by
    rw [hfloor]
    exact Nat.zero_le _

end FloorOk

theorem holds_of_fill {E : ReferenceEncoding} {t : Text} {tail : TailState}
    (h : TailState.fill t (E.encode t) = .ok tail) : Holds E tail ∧ tail.text = t := by
  obtain ⟨htext, hids, hstarts, hends⟩ := TailState.fill_ok h
  have hzip : (E.encode t).spans =
      ((E.encode t).spans.map Prod.fst).zip ((E.encode t).spans.map Prod.snd) :=
    List.zip_of_prod rfl rfl
  refine ⟨⟨by rw [hids, htext], ?_⟩, htext⟩
  rw [TailState.spans, hstarts, hends, htext]
  exact hzip.symm

theorem Serves.of_encodeStore {D : Certificates} (h : Serves eng D) {t : Text} {enc : Encoding}
    (henc : eng.encodeStore t = .ok enc) : enc = D.encoding.encode t := by
  unfold Engine.encodeStore at henc
  cases hplain : eng.encode t with
  | error e =>
    rw [hplain] at henc
    cases henc
  | ok enc' =>
    rw [hplain] at henc
    cases henc
    exact h.encode hplain

/-- The tail that an append goes on with holds the encoding of the text it had, or of that and
the delta. -/
theorem growTail_holds (cfg : StoreConfig) {D : Certificates} (hserve : Serves eng D) {tail : TailState}
    (htail : Holds D.encoding tail) (delta : Text) :
    Holds D.encoding (growTail cfg eng tail delta).2 ∧
      ((growTail cfg eng tail delta).2.text = tail.text ∨
        (growTail cfg eng tail delta).2.text = tail.text ++ delta) := by
  unfold growTail
  split_ifs with hnil hcap
  · exact ⟨htail, .inl rfl⟩
  · -- over the hard cap the store fills the tail itself
    cases hencode : eng.encodeStore (tail.text ++ delta) with
    | error e => exact ⟨htail, .inl rfl⟩
    | ok enc =>
      obtain rfl := hserve.of_encodeStore hencode
      dsimp only
      cases hfill : TailState.fill (tail.text ++ delta) (D.encoding.encode (tail.text ++ delta)) with
      | error e => exact ⟨htail, .inl rfl⟩
      | ok grown => exact ⟨(holds_of_fill hfill).1, .inr (holds_of_fill hfill).2⟩
  · have hholds := hserve.append_holds delta htail
    rcases happend : eng.append tail delta with ⟨_ | report, grown⟩
    · rw [happend] at hholds
      exact ⟨hholds, .inl (hserve.append_failed htail happend)⟩
    · rw [happend] at hholds
      exact ⟨hholds, .inr (hserve.append_text htail happend)⟩

/-- Where no boundary is made of the end of the tail, the floor holds on the grown tail. -/
theorem FloorOk.grown (h : FloorOk C s) (hserve : Serves eng (C s.keyId)) {delta : Text}
    (hend : EndStays (C s.keyId) s delta) (clock : ℕ) (nodes : Table BlockHash NodeEntry)
    (stats : Stats) :
    FloorOk C (grownWork cfg eng clock delta ⟨s, nodes, stats⟩).sess := by
  obtain ⟨generation, snapshot, hopen⟩ := openAppend_eq s clock delta
  obtain ⟨hholds, htext⟩ := growTail_holds cfg hserve h.holds delta
  have hgrown : (grownWork cfg eng clock delta ⟨s, nodes, stats⟩).sess = { s with
      lastUsed := clock, idsGeneration := generation, idsSnapshot := snapshot
      tail := (growTail cfg eng s.tail delta).2 } := by
    unfold grownWork
    rw [hopen]
  rw [hgrown]
  refine ⟨hholds, ?_, ?_⟩
  · rcases htext with htext | htext
    · exact htext.symm ▸ h.clear
    · exact htext.symm ▸ h.clear.grow h.le hend
  · dsimp only
    have hle := h.le
    rcases htext with htext | htext
    · rwa [htext]
    · rw [htext, List.length_append]
      omega

/-- A seal, or a search that finds none, leaves a floor that holds. -/
theorem wp_advanceSeal_floor {w : Work} (h : FloorOk C w.sess)
    (hserve : Serves eng (C w.sess.keyId)) {ceil : ℕ} (hceil : ceil ≤ w.sess.tail.text.length) :
    wp (advanceSeal eng ceil) (fun _ w' => FloorOk C w'.sess) (fun _ w' => FloorOk C w'.sess) w := by
  have hchars := w.sess.tail.chars_lt
  unfold advanceSeal
  simp only [wp_bind, wp_get, wp_fromExcept]
  refine ⟨fun found hfound => ?_, fun _ _ => h⟩
  have hfound : eng.lastCertifiedBoundary w.sess.tail w.sess.scanFloor ceil = .ok found := by
    revert hfound
    cases eng.lastCertifiedBoundary w.sess.tail w.sess.scanFloor ceil <;> simp [Except.mapError]
  cases found with
  | none =>
    simp only [wp_modify]
    exact ⟨h.holds, h.clear.lift (hserve.missed h.holds hfound), hceil⟩
  | some cut =>
    have hlast := hserve.found h.holds hfound
    obtain ⟨w', hrun, hclean⟩ := hlast.inside.sealable.sealTail (w := w)
    obtain ⟨hsealed, -⟩ := (wp_sealTail cut w).of_ok hrun
    have hkey : w'.sess.keyId = w.sess.keyId := by rw [hsealed.shape]
    have hle := hlast.le
    -- the subtraction does not wrap
    have hfloor : (ceil + 2 ^ 64 - cut.cutChar) % 2 ^ 64 = ceil - cut.cutChar := by
      rw [show ceil + 2 ^ 64 - cut.cutChar = ceil - cut.cutChar + 2 ^ 64 by omega,
        Nat.add_mod_right, Nat.mod_eq_of_lt (by omega)]
    have hrest : FloorOk C { w'.sess with scanFloor := ceil - cut.cutChar } := by
      refine ⟨?_, ?_, ?_⟩
      · dsimp only
        rw [hkey]
        exact hlast.holds_rest h.holds hclean
      · dsimp only
        rw [hkey, hclean.tail_text]
        exact .rest hlast
      · dsimp only
        rw [hclean.tail_text, List.length_drop]
        omega
    simp only [wp_bind, wp_modify, hfloor]
    unfold wp
    rw [hrun]
    exact hrest

theorem wp_trySeal_floor {w : Work} (h : FloorOk C w.sess) (hserve : Serves eng (C w.sess.keyId)) :
    wp (trySeal cfg key eng) (fun _ w' => FloorOk C w'.sess) (fun _ w' => FloorOk C w'.sess) w := by
  unfold trySeal
  simp only [wp_bind, wp_get, wp_runIf]
  have hcap (w' : Work) (h' : FloorOk C w'.sess) :
      wp (countSoftCap cfg) (fun _ w' => FloorOk C w'.sess) (fun _ w' => FloorOk C w'.sess) w' :=
    wp_countSoftCap cfg w' fun w'' hs _ => by rwa [hs]
  refine ⟨fun _ => ?_, fun _ => hcap w h⟩
  exact wp_mono (wp_advanceSeal_floor h hserve (Nat.sub_le _ _)) (fun _ w' h' => hcap w' h')
    fun _ _ h' => h'

end Session

/-! ## Searches -/

section Searches

variable [Digests] {C : ℕ → Certificates} {cfg : StoreConfig} {key : KeyCtx} {eng : Engine}

/-- The bookkeeping before the seal search: the totals, then the blocks. -/
def hashBlocks (cfg : StoreConfig) (key : KeyCtx) : Fallible Work StoreError Unit := do
  modify fun w => { w with sess := w.sess.recount }
  let w ← get
  runIf (w.sess.chainOk = true) (sealBlocks cfg key)

theorem postTextOps_eq (cfg : StoreConfig) (key : KeyCtx) (eng : Engine) :
    postTextOps cfg key eng = hashBlocks cfg key >>= fun _ => trySeal cfg key eng := by
  simp only [postTextOps, hashBlocks, bind_assoc]

/-- From `w` the bookkeeping comes to a seal search, in the state `w'`. -/
def SearchStarts (cfg : StoreConfig) (key : KeyCtx) (w w' : Work) : Prop :=
  (hashBlocks cfg key).run w = .ok () w' ∧ SealDue cfg key w'.sess

/-- No certified place lies behind the last seal and not behind the floor, and a search from the
last seal finds the same place. -/
structure NothingHidden (C : Certificates) (eng : Engine) (key : KeyCtx) (s : Session) : Prop where
  clear : ∀ p, 0 < p → p ≤ s.scanFloor → ¬C.certified s.tail.text p
  same : ∀ found found₀,
    eng.lastCertifiedBoundary s.tail s.scanFloor (s.tail.textChars - key.sealGuardChars) = .ok found →
    eng.lastCertifiedBoundary s.tail 0 (s.tail.textChars - key.sealGuardChars) = .ok found₀ →
      found.map BoundaryCut.cutChar = found₀.map BoundaryCut.cutChar

omit [Digests] in
/-- A search from the floor and one from the last seal find the same place. -/
theorem FloorOk.nothingHidden {s : Session} (h : FloorOk C s) (hserve : Serves eng (C s.keyId))
    (key : KeyCtx) : NothingHidden (C s.keyId) eng key s where
  clear p _ hp := h.clear p hp
  same found found₀ hfound hfound₀ := by
    cases found with
    | some cut =>
      have hcut := hserve.found h.holds hfound
      cases found₀ with
      | some cut₀ =>
        have hcut₀ := hserve.found h.holds hfound₀
        exact congrArg some (le_antisymm (hcut₀.last _ hcut.le hcut.certified)
          (hcut.last _ hcut₀.le hcut₀.certified))
      | none =>
        have hpos := ((C s.keyId).inner hcut.certified).1
        exact absurd hcut.certified (hserve.missed h.holds hfound₀ _ hpos hcut.le)
    | none =>
      cases found₀ with
      | some cut₀ =>
        have hcut₀ := hserve.found h.holds hfound₀
        obtain hlt | hge := Nat.lt_or_ge s.scanFloor cut₀.cutChar
        · exact absurd hcut₀.certified (hserve.missed h.holds hfound _ hlt hcut₀.le)
        · exact absurd hcut₀.certified (h.clear _ hge)
      | none => rfl

/-- The block loop leaves the tail and the floor alone. -/
theorem wp_hashBlocks_floor (key : KeyCtx) (hB : 0 < cfg.blockChars) {w : Work} (h : FloorOk C w.sess) :
    wp (hashBlocks cfg key) (fun _ w' => FloorOk C w'.sess ∧ w'.sess.keyId = w.sess.keyId)
      (fun _ w' => FloorOk C w'.sess) w := by
  have hcount : FloorOk C w.sess.recount := h.congr rfl rfl rfl
  have hchain {s' : Session} (hs : SameButChain w.sess.recount s') :
      FloorOk C s' ∧ s'.keyId = w.sess.recount.keyId := by
    refine ⟨hcount.congr ?_ ?_ ?_, ?_⟩ <;> rw [hs]
  unfold hashBlocks
  simp only [wp_bind, wp_modify, wp_get, wp_runIf]
  refine ⟨fun _ => ?_, fun _ => ⟨hcount, rfl⟩⟩
  exact wp_mono (wp_sealBlocks_frame hB _) (fun _ _ hs => hchain hs) fun _ _ hs => (hchain hs).1

/-- A search that starts hides nothing. -/
theorem SearchStarts.nothingHidden (hB : 0 < cfg.blockChars) {w w' : Work}
    (hstart : SearchStarts cfg key w w') (h : FloorOk C w.sess)
    (hserve : Serves eng (C w.sess.keyId)) : NothingHidden (C w'.sess.keyId) eng key w'.sess := by
  obtain ⟨hfloor, hkey⟩ := (wp_hashBlocks_floor key hB h).of_ok hstart.1
  exact hfloor.nothingHidden (by rwa [hkey]) key

theorem wp_postTextOps_floor (hB : 0 < cfg.blockChars) {w : Work} (h : FloorOk C w.sess)
    (hserve : Serves eng (C w.sess.keyId)) :
    wp (postTextOps cfg key eng) (fun _ w' => FloorOk C w'.sess) (fun _ w' => FloorOk C w'.sess)
      w := by
  rw [postTextOps_eq, wp_bind]
  refine wp_mono (wp_hashBlocks_floor key hB h) (fun _ w' hw => ?_) fun _ _ hw => hw
  exact wp_trySeal_floor hw.1 (by rwa [hw.2])

theorem wp_settleAppend_floor (hB : 0 < cfg.blockChars) (path : String) (delta : Text) {w : Work}
    (h : FloorOk C w.sess) (hserve : Serves eng (C w.sess.keyId)) :
    wp (settleAppend cfg key eng path delta) (fun _ w' => FloorOk C w'.sess)
      (fun _ w' => FloorOk C w'.sess) w := by
  have hdigest {s s' : Session} (hs : FloorOk C s) (hd : SameButDigests s s') : FloorOk C s' := by
    refine hs.congr ?_ ?_ ?_ <;> rw [hd]
  have hfeed (w₁ : Work) (h₁ : FloorOk C w₁.sess) :
      wp (feedRecovery delta)
        (fun _ w₂ => wp (feedContent delta) (fun _ w' => FloorOk C w'.sess)
          (fun _ w' => FloorOk C w'.sess) w₂)
        (fun _ w' => FloorOk C w'.sess) w₁ := by
    refine wp_mono (wp_feedRecovery_frame delta w₁) (fun _ w₂ h₂ => ?_) fun _ w₂ h₂ => h₂ ▸ h₁
    exact wp_mono (wp_feedContent_frame delta w₂) (fun _ _ h₃ => hdigest (hdigest h₁ h₂.2.1) h₃.2)
      fun _ _ h₃ => hdigest (hdigest h₁ h₂.2.1) h₃.2
  unfold settleAppend
  simp only [wp_bind, wp_runIf, countPath, wp_modify]
  refine ⟨fun _ => ?_, fun _ => hfeed _ h⟩
  exact wp_mono (wp_postTextOps_floor hB h hserve) (fun _ w₁ h₁ => hfeed _ h₁) fun _ _ h₁ => h₁

omit [Digests] in
theorem keyId_grownWork (cfg : StoreConfig) (eng : Engine) (clock : ℕ) (delta : Text) (w : Work) :
    (grownWork cfg eng clock delta w).sess.keyId = w.sess.keyId := by
  unfold grownWork Session.openAppend
  dsimp only
  split <;> rfl

/-- An append that makes no boundary of the end of the tail, where the floor stands there, leaves
a floor that holds, whether it returns or not. -/
theorem wp_appendSession_floor (hB : 0 < cfg.blockChars) (clock : ℕ) {delta : Text} {w : Work}
    (h : FloorOk C w.sess) (hserve : Serves eng (C w.sess.keyId))
    (hend : EndStays (C w.sess.keyId) w.sess delta) :
    wp (appendSession cfg key eng clock delta) (fun _ w' => FloorOk C w'.sess)
      (fun _ w' => FloorOk C w'.sess) w := by
  have hgrown : FloorOk C (grownWork cfg eng clock delta w).sess :=
    h.grown hserve hend clock w.nodes w.stats
  have hserve' : Serves eng (C (grownWork cfg eng clock delta w).sess.keyId) := by
    rwa [keyId_grownWork]
  unfold appendSession
  simp only [wp_bind, wp_get, wp_set, wp_fromExcept]
  refine ⟨?_, fun _ _ => hgrown⟩
  rintro ⟨path, kept⟩ -
  refine ⟨fun _ _ => ?_, fun _ _ => hgrown⟩
  refine wp_mono (wp_settleAppend_floor hB path delta hgrown hserve') (fun _ w' hw => ?_)
    fun _ _ hw => hw
  have hcommit : FloorOk C (w'.sess.commit key.fingerprint (w.sess.sealedIds.len + kept)) :=
    hw.congr rfl rfl rfl
  simp only [wp_modify, appendOutcome, wp_bind, wp_get, wp_throwIf, wp_pure]
  exact ⟨fun _ => hcommit, fun _ => hcommit⟩

omit [Digests] in
theorem holds_new (D : Certificates) : Holds D.encoding .new := by
  constructor
  · rw [TailState.text_new, D.encode_nil]
    rfl
  · rw [TailState.text_new, D.encode_nil]
    rfl

omit [Digests] in
theorem seedEncode_holds {D : Certificates} (hserve : Serves eng D) (runs : ℕ) (text : Text)
    {tail : TailState} (htail : Holds D.encoding tail) :
    Holds D.encoding (seedEncode eng runs text tail).2 := by
  unfold seedEncode
  induction runs with
  | zero => exact htail
  | succ runs ih =>
    rw [Function.iterate_succ_apply']
    exact hserve.append_holds text ih

theorem wp_seedText_floor (hB : 0 < cfg.blockChars) {w : Work} (hserve : Serves eng (C w.sess.keyId))
    (hholds : Holds (C w.sess.keyId).encoding w.sess.tail) (hfloor : w.sess.scanFloor = 0)
    (runs : ℕ) (text : Text) :
    wp (seedText cfg key eng runs text) (fun _ w' => FloorOk C w'.sess) (fun _ _ => True) w := by
  have hseeded := seedEncode_holds hserve runs text hholds
  unfold seedText
  simp only [wp_bind, wp_get, wp_modify]
  generalize seedEncode eng runs text w.sess.tail = grown at hseeded ⊢
  obtain ⟨result, tail⟩ := grown
  rcases result with _ | _ | report
  case none => simp
  case some.error => simp
  case some.ok =>
    simp only [wp_bind, wp_fromExcept, wp_modify, implies_true, and_true]
    intro _ _
    exact wp_mono (wp_postTextOps_floor hB (.of_zero hseeded hfloor) hserve) (fun _ _ hw => hw)
      fun _ _ _ => trivial

/-- A session is put with a floor that holds. -/
theorem wp_seedSession_floor (hB : 0 < cfg.blockChars) {w : Work}
    (hserve : Serves eng (C w.sess.keyId)) (hholds : Holds (C w.sess.keyId).encoding w.sess.tail)
    (hfloor : w.sess.scanFloor = 0) (recoveryTracking contentTracking : Bool) (runs : ℕ)
    (text : Text) :
    wp (seedSession cfg key eng recoveryTracking contentTracking runs text)
      (fun sess _ => FloorOk C sess) (fun _ _ => True) w := by
  unfold seedSession
  simp only [wp_bind, wp_runIf, wp_fromExcept, wp_get, wp_pure, implies_true, and_true]
  constructor
  · intro _
    exact wp_mono (wp_seedText_floor hB hserve hholds hfloor runs text)
      (fun _ _ hw _ _ => hw.congr rfl rfl rfl) fun _ _ _ => trivial
  · exact fun _ _ _ => (FloorOk.of_zero hholds hfloor).congr rfl rfl rfl

end Searches

/-! ## The calls -/

/-- The engine of a call meets the contract for the key of its session. A record that is imported
brings a floor that no search of this store has set. -/
def Served (C : ℕ → Certificates) (S : Store) : Call → Prop
  | .put keyId _ eng => Serves eng (C keyId)
  | .lookup keyId _ eng => Serves eng (C keyId)
  | .append handle _ _ eng => ∀ s ∈ S.sessions.lookup handle, Serves eng (C s.keyId)
  | .appendPatch handle _ _ eng => ∀ s ∈ S.sessions.lookup handle, Serves eng (C s.keyId)
  | .importSession .. | .importWithRecovery .. | .importWithBinding .. |
    .importWithBindingCandidate .. | .importWithSidecar .. => False
  | _ => True

/-- An append makes no boundary of the end of its session's tail, where the floor stands there. -/
def EndStaysAt (C : ℕ → Certificates) (S : Store) : Call → Prop
  | .append handle delta _ _ => ∀ s ∈ S.sessions.lookup handle, EndStays (C s.keyId) s delta
  | .appendPatch handle delta _ _ => ∀ s ∈ S.sessions.lookup handle, EndStays (C s.keyId) s delta
  | _ => True

/-- Every live session has a floor that holds. -/
def FloorsOk (C : ℕ → Certificates) (S : Store) : Prop :=
  ∀ h s, S.sessions.lookup h = some s → FloorOk C s

section Calls

variable [Digests] {C : ℕ → Certificates} {S S' : Store}

namespace FloorsOk

omit [Digests] in
theorem of_subset (h : FloorsOk C S)
    (hsub : ∀ k s, S'.sessions.lookup k = some s → S.sessions.lookup k = some s) :
    FloorsOk C S' :=
  fun k s hs => h k s (hsub k s hs)

omit [Digests] in
theorem insert (h : FloorsOk C S) {k : ℕ} {s : Session} (hs : FloorOk C s)
    (htable : S'.sessions = S.sessions.insert k s) : FloorsOk C S' := by
  intro k' s' hs'
  rw [htable] at hs'
  rcases lookup_insert_eq_some.mp hs' with ⟨-, rfl⟩ | ⟨-, hold⟩
  · exact hs
  · exact h k' s' hold

omit [Digests] in
theorem evict (h : FloorsOk C S) : FloorsOk C S.evictForCapacity :=
  h.of_subset fun _ _ => Store.lookup_of_evictForCapacity

end FloorsOk

namespace Store

theorem wp_appendPatch_floor (h : FloorsOk C S) {handle rev : ℕ} {delta : Text} {eng : Engine}
    (hserve : ∀ s ∈ S.sessions.lookup handle, Serves eng (C s.keyId))
    (hend : ∀ s ∈ S.sessions.lookup handle, EndStays (C s.keyId) s delta) :
    wp (Store.appendPatch handle delta rev eng) (fun _ S' => FloorsOk C S')
      (fun _ S' => FloorsOk C S') S := by
  refine Store.wp_appendPatch S handle delta rev eng ?_ ?_
  · rintro e S' (rfl | rfl) _
    · exact h
    · exact h
  · intro s key hpass
    exact wp_mono (wp_appendSession_floor S.blockChars_pos (S.clock + 1)
      (w := ⟨s, S.nodes, S.tick.countExtend.stats⟩) (h handle s hpass.found)
      (hserve s hpass.found) (hend s hpass.found))
      (fun _ w hw => h.insert hw rfl) fun _ w hw => h.insert hw rfl

theorem wp_append_floor (h : FloorsOk C S) {handle rev : ℕ} {delta : Text} {eng : Engine}
    (hserve : ∀ s ∈ S.sessions.lookup handle, Serves eng (C s.keyId))
    (hend : ∀ s ∈ S.sessions.lookup handle, EndStays (C s.keyId) s delta) :
    wp (Store.append handle delta rev eng) (fun _ S' => FloorsOk C S')
      (fun _ S' => FloorsOk C S') S := by
  unfold Store.append
  simp only [wp_bind, Store.wp_session, wp_pure]
  exact wp_mono (wp_appendPatch_floor h hserve hend) (fun _ _ hS => ⟨fun _ _ => hS, fun _ => hS⟩)
    fun _ _ hS => hS

theorem wp_put_floor (h : FloorsOk C S) {keyId : ℕ} {eng : Engine} (hserve : Serves eng (C keyId))
    (text : Text) :
    wp (Store.put keyId text eng) (fun _ S' => FloorsOk C S') (fun _ S' => FloorsOk C S') S := by
  rw [Store.wp_put]
  refine ⟨fun key _ => ?_, fun _ => h⟩
  have hslot (w : Work) : FloorsOk C (S.putStart.putBackShared w) :=
    FloorsOk.evict (S := S.tick) h
  refine wp_mono (wp_and (wp_seedSession_floor (C := C) S.blockChars_pos hserve
    (holds_new (C keyId)) rfl _ _ _ _) (wp_run _ _)) (fun sess w hw => ?_) fun _ w _ => hslot w
  exact (hslot w).insert hw.1 rfl

theorem wp_lookup_floor (h : FloorsOk C S) {keyId : ℕ} {eng : Engine}
    (hserve : Serves eng (C keyId)) (text : Text) :
    wp (Store.lookup keyId text eng) (fun _ S' => FloorsOk C S') (fun _ S' => FloorsOk C S') S := by
  refine Store.wp_lookup keyId text eng (fun _ => h) (fun S' hsame => ?_) ?_
  · rw [hsame]
    exact h
  · intro key wk deepKey deep S' _ _ _ hsame
    have hearly : FloorsOk C S' := by
      rw [hsame]
      exact h
    have hslot : FloorsOk C S'.adoptStart := FloorsOk.evict (S := S'.tick) hearly
    refine Store.wp_adopt keyId key text eng wk deepKey deep (fun _ _ => hearly) ?_
    intro enc henc
    refine ⟨fun _ _ => hearly, ?_⟩
    intro tail hfill
    refine ⟨fun _ => hslot, fun _ => ⟨fun _ _ => hslot, ?_⟩⟩
    intro digests _ sess hsess
    obtain rfl := hserve.of_encodeStore henc
    refine hslot.insert (FloorOk.of_zero ?_ ?_) rfl
    · rw [hsess]
      exact (holds_of_fill hfill).1
    · rw [hsess]
      rfl

theorem wp_fork_floor (h : FloorsOk C S) (handle : ℕ) :
    wp (Store.fork handle) (fun _ S' => FloorsOk C S') (fun _ S' => FloorsOk C S') S := by
  refine Store.wp_fork handle (fun _ => h) ?_
  intro sess key hsess _
  have htouched : FloorsOk C (S.tick.touched handle sess).countFork :=
    h.insert (k := handle) (s := { sess with lastUsed := S.clock + 1 })
      ((h handle sess hsess).congr rfl rfl rfl) rfl
  exact htouched.evict.insert (s := Store.forkOf sess key (S.clock + 1))
    ((h handle sess hsess).congr rfl rfl rfl) rfl

end Store

/-- One call keeps the floors. -/
theorem floorsOk_after (h : FloorsOk C S) {c : Call} (hserved : Served C S c)
    (hend : EndStaysAt C S c) : FloorsOk C (S.after c) := by
  -- a call that neither appends nor creates a session leaves every tail and floor as it was
  have hquiet (hwrites : ∀ k, ¬c.Writes k) (hcreates : ¬c.Creates) : FloorsOk C (S.after c) := by
    rcases (tableMove_after S c).effect with ⟨-, htable⟩ | ⟨-, hfound, htable, hown, -⟩ |
      ⟨-, -, htable⟩ | ⟨-, -, hown, -⟩ | ⟨-, -, hown, -⟩
    · exact h.of_subset fun k s hs => htable ▸ hs
    · have hsame := hown.resolve_left (hwrites _)
      exact h.insert ((h _ _ hfound).congr (by rw [hsame]) (by rw [hsame]) (by rw [hsame])) htable
    · exact h.of_subset fun k s hs => (lookup_erase_eq_some.mp (htable ▸ hs)).2
    · exact absurd hown hcreates
    · exact absurd hown hcreates
  cases c with
  | put keyId text eng =>
    refine Store.after_of_wp ?_
    rw [Call.run, wp_ignore]
    exact Store.wp_put_floor h hserved text
  | append handle delta rev eng =>
    refine Store.after_of_wp ?_
    rw [Call.run, wp_ignore]
    exact Store.wp_append_floor h hserved hend
  | appendPatch handle delta rev eng =>
    refine Store.after_of_wp ?_
    rw [Call.run, wp_ignore]
    exact Store.wp_appendPatch_floor h hserved hend
  | lookup keyId text eng =>
    refine Store.after_of_wp ?_
    rw [Call.run, wp_ignore]
    exact Store.wp_lookup_floor h hserved text
  | fork handle =>
    refine Store.after_of_wp ?_
    rw [Call.run, wp_ignore]
    exact Store.wp_fork_floor h handle
  | importSession | importWithRecovery | importWithBinding | importWithBindingCandidate |
    importWithSidecar => exact hserved.elim
  | _ => exact hquiet (fun _ => id) id

/-! ## Runs -/

/-- The call comes to a seal search in the state `w`, with the key and the engine of the search. -/
inductive SearchAt (S : Store) : Call → KeyCtx → Engine → Work → Prop
  | put {keyId : ℕ} {text : Text} {eng : Engine} {key : KeyCtx} {report : AppendReport}
      {tail : TailState} {w : Work} (found : S.keys[keyId]? = some key)
      (seeded : seedEncode eng S.seedRuns text .new = (some (.ok report), tail))
      (starts : SearchStarts S.cfg key
        ⟨{ Session.fresh keyId eng.witnessCategory (S.clock + 1) with tail := tail }, S.nodes,
          S.putStart.stats.bumpPath report.path⟩ w) :
      SearchAt S (.put keyId text eng) key eng w
  | append {handle rev : ℕ} {delta : Text} {eng : Engine} {s : Session} {key : KeyCtx} {w : Work}
      (passes : S.GatesPass handle rev eng s key)
      (starts : SearchStarts S.cfg key
        (grownWork S.cfg eng (S.clock + 1) delta ⟨s, S.nodes, S.tick.countExtend.stats⟩) w) :
      SearchAt S (.append handle delta rev eng) key eng w
  | appendPatch {handle rev : ℕ} {delta : Text} {eng : Engine} {s : Session} {key : KeyCtx}
      {w : Work} (passes : S.GatesPass handle rev eng s key)
      (starts : SearchStarts S.cfg key
        (grownWork S.cfg eng (S.clock + 1) delta ⟨s, S.nodes, S.tick.countExtend.stats⟩) w) :
      SearchAt S (.appendPatch handle delta rev eng) key eng w

/-- No search of the call misses a place behind the last seal. -/
def SearchesSound (C : ℕ → Certificates) (c : Call) (S : Store) : Prop :=
  ∀ key eng w, SearchAt S c key eng w → NothingHidden (C w.sess.keyId) eng key w.sess

theorem searchesSound_of_append (h : FloorsOk C S) {handle rev : ℕ} {delta : Text} {eng : Engine}
    (hserve : ∀ s ∈ S.sessions.lookup handle, Serves eng (C s.keyId))
    (hend : ∀ s ∈ S.sessions.lookup handle, EndStays (C s.keyId) s delta) {s : Session}
    {key : KeyCtx} (hpass : S.GatesPass handle rev eng s key) {w : Work}
    (hstarts : SearchStarts S.cfg key
      (grownWork S.cfg eng (S.clock + 1) delta ⟨s, S.nodes, S.tick.countExtend.stats⟩) w) :
    NothingHidden (C w.sess.keyId) eng key w.sess := by
  have hs := hserve s hpass.found
  have hkey := keyId_grownWork S.cfg eng (S.clock + 1) delta ⟨s, S.nodes, S.tick.countExtend.stats⟩
  exact hstarts.nothingHidden S.blockChars_pos
    ((h handle s hpass.found).grown hs (hend s hpass.found) _ _ _) (by rwa [hkey])

/-- Where the floors hold, the searches of a call miss nothing. -/
theorem searchesSound_of_floorsOk (h : FloorsOk C S) {c : Call} (hserved : Served C S c)
    (hend : EndStaysAt C S c) : SearchesSound C c S := by
  intro key eng w hsearch
  cases hsearch with
  | @put keyId text _ _ _ _ _ found seeded starts =>
    have hholds := seedEncode_holds hserved S.seedRuns text (holds_new (C keyId))
    rw [seeded] at hholds
    exact starts.nothingHidden S.blockChars_pos (.of_zero hholds rfl) hserved
  | append passes starts => exact searchesSound_of_append h hserved hend passes starts
  | appendPatch passes starts => exact searchesSound_of_append h hserved hend passes starts

/-- **The scan floor is sound**: in every run of a store whose engines meet the contract, and whose
appends make no boundary of the end of a tail while the floor stands there, every seal search finds
what a search from the last seal would find. -/
theorem scan_floor_sound (C : ℕ → Certificates) {cfg : StoreConfig} {S₀ : Store}
    (hnew : Store.new cfg = .ok S₀) {calls : List Call}
    (hserved : Along (fun c S => Served C S c) calls S₀)
    (hend : Along (fun c S => EndStaysAt C S c) calls S₀) : Along (SearchesSound C) calls S₀ := by
  have hstart : FloorsOk C S₀ := by
    intro h s hs
    rw [(Store.new_ok hnew).2.2.1] at hs
    cases hs
  clear hnew
  induction calls generalizing S₀ with
  | nil => trivial
  | cons c calls ih =>
    exact ⟨searchesSound_of_floorsOk hstart hserved.1 hend.1,
      ih hserved.2 hend.2 (floorsOk_after hstart hserved.1 hend.1)⟩

end Calls

/-! ### A floor at the end of the tail -/

theorem TailState.spanStarts_eq (t : TailState) : t.spanStarts = t.spans.map Prod.fst :=
  (List.map_fst_zip (t.starts_length.trans t.ends_length.symm).le).symm

theorem TailState.spanEnds_eq (t : TailState) : t.spanEnds = t.spans.map Prod.snd :=
  (List.map_snd_zip (t.ends_length.trans t.starts_length.symm).le).symm

theorem unitSpans_add (m n : ℕ) :
    unitSpans (m + n) = unitSpans m ++ (unitSpans n).map fun s => (s.1 + m, s.2 + m) := by
  unfold unitSpans
  rw [List.range_add, List.map_append, List.map_map, List.map_map]
  congr 1
  refine List.map_congr_left fun i _ => ?_
  simp only [Function.comp_apply, Prod.mk.injEq]
  omega

/-- Every place between two characters is certified. -/
def unitCertificates : Certificates where
  encoding :=
    { encode := unitEncode
      aligned := fun t => by simp [unitEncode]
      within := fun t => spansWithin_unitSpans t.length }
  certified t p := 0 < p ∧ p < t.length
  encode_nil := rfl
  inner h := h
  stays h hp := ⟨h.1, hp⟩
  behind h h' := by
    rw [List.length_drop] at h'
    omega

/-- The one-token-per-character encoder, with the search of its last place in a range. -/
def edgeEngine : Engine :=
  { unitEngine with
    lastCertifiedBoundary := fun tail floor ceil =>
      if floor < min ceil (tail.text.length - 1) then
        .ok (some ⟨min ceil (tail.text.length - 1), min ceil (tail.text.length - 1)⟩)
      else .ok none }

section Edge

variable {tail : TailState}

theorem unitCertificates_splits {t : Text} {p : ℕ} (hp : p ≤ t.length) :
    SplitsAt unitCertificates.encoding t p ∧
      tokensBefore unitCertificates.encoding t p = p := by
  have hlen : (t.take p).length = p := by rw [List.length_take, min_eq_left hp]
  constructor
  · change unitEncode t = (unitEncode (t.take p)).append ((unitEncode (t.drop p)).shift p)
    unfold unitEncode Encoding.append Encoding.shift
    dsimp only
    rw [← unitIds_append, List.take_append_drop, hlen, List.length_drop, ← unitSpans_add,
      Nat.add_sub_cancel' hp]
  · change (unitIds (t.take p)).length = p
    rw [length_unitIds, hlen]

theorem inside_unit (htail : Holds unitCertificates.encoding tail) {p : ℕ} (hpos : 0 < p)
    (hlt : p < tail.text.length) : BoundaryCut.Inside tail ⟨p, p⟩ := by
  have hspans : tail.spans = unitSpans tail.text.length := htail.2
  have hids : tail.ids = unitIds tail.text := htail.1
  have hstarts : tail.spanStarts = List.range tail.text.length := by
    rw [TailState.spanStarts_eq, hspans, unitSpans, List.map_map]
    exact List.map_id _
  have hends : tail.spanEnds = (List.range tail.text.length).map (· + 1) := by
    rw [TailState.spanEnds_eq, hspans, unitSpans, List.map_map]
    rfl
  refine ⟨hpos, ?_, ?_, fun stop hstop => ?_, fun start hstart => ?_⟩
  · rw [TailState.nTokens, hids, length_unitIds]
    exact hlt
  · rw [hstarts, List.getElem?_range hlt]
  · rw [hends, ← List.map_take, List.take_range, List.mem_map] at hstop
    obtain ⟨i, hi, rfl⟩ := hstop
    exact (lt_min_iff.mp (List.mem_range.mp hi)).1
  · rw [hstarts, List.mem_drop_iff_getElem] at hstart
    obtain ⟨i, hi, rfl⟩ := hstart
    rw [List.getElem_range]
    exact Nat.le_add_right _ _

/-- Growing the tail gives it the encoding of the longer text, or leaves it. -/
theorem edgeEngine_append (tail : TailState) (delta : Text) :
    (∃ grown, edgeEngine.append tail delta = (.ok ⟨"extend", tail.nTokens⟩, grown) ∧
      Holds unitCertificates.encoding grown ∧ grown.text = tail.text ++ delta) ∨
      edgeEngine.append tail delta = (.error ⟨"text too long"⟩, tail) := by
  change (∃ grown, unitEngine.append tail delta = _ ∧ _) ∨ unitEngine.append tail delta = _
  unfold unitEngine
  dsimp only
  cases hfill : TailState.fill (tail.text ++ delta) (unitEncode (tail.text ++ delta)) with
  | error e => exact .inr rfl
  | ok grown =>
    obtain ⟨hholds, htext⟩ := holds_of_fill (E := unitCertificates.encoding) hfill
    exact .inl ⟨grown, rfl, hholds, htext⟩

theorem serves_edgeEngine : Serves edgeEngine unitCertificates where
  encode {t enc} h := by
    change (if t.length < 2 ^ 32 then Except.ok (unitEncode t) else _) = _ at h
    split_ifs at h
    cases h
    rfl
  append_holds {tail} delta htail := by
    rcases edgeEngine_append tail delta with ⟨grown, happend, hholds, -⟩ | happend
    · rwa [happend]
    · rwa [happend]
  append_text {tail grown delta report} _ h := by
    rcases edgeEngine_append tail delta with ⟨grown', happend, -, htext⟩ | happend
    · cases happend.symm.trans h
      exact htext
    · cases happend.symm.trans h
  append_failed {tail left delta e} _ h := by
    rcases edgeEngine_append tail delta with ⟨grown', happend, -, -⟩ | happend
    · cases happend.symm.trans h
    · cases happend.symm.trans h
      rfl
  found {tail floor ceil cut} htail h := by
    unfold edgeEngine at h
    dsimp only at h
    by_cases hlt : floor < min ceil (tail.text.length - 1)
    case neg =>
      rw [if_neg hlt] at h
      cases h
    rw [if_pos hlt] at h
    cases h
    have hinner : 0 < min ceil (tail.text.length - 1) ∧
        min ceil (tail.text.length - 1) < tail.text.length := by omega
    obtain ⟨hsplits, htokens⟩ := unitCertificates_splits hinner.2.le
    refine ⟨hinner, hlt, min_le_left _ _, fun p hp hcert => ?_, inside_unit htail hinner.1 hinner.2,
      hsplits, htokens⟩
    have hcert : 0 < p ∧ p < tail.text.length := hcert
    exact le_min hp (by omega)
  missed {tail floor ceil} _ h := by
    unfold edgeEngine at h
    dsimp only at h
    by_cases hlt : floor < min ceil (tail.text.length - 1)
    case pos =>
      rw [if_pos hlt] at h
      cases h
    intro p hfloor hceil hcert
    have hcert : 0 < p ∧ p < tail.text.length := hcert
    omega

end Edge

/-- Blocks of one character. -/
def edgeConfig : StoreConfig := ⟨1, 64, 1024, 64, 2⟩

/-- A session over `ab`, and an append to it. -/
def edgeRun (guard : ℕ) : List Call :=
  [.registerFingerprint ZERO_HASH guard, .put 0 ['a', 'b'] edgeEngine, .append 1 ['c'] 0 edgeEngine]

theorem served_edgeRun (guard : ℕ) (S : Store) :
    Along (fun c S => Served (fun _ => unitCertificates) S c) (edgeRun guard) S :=
  ⟨trivial, serves_edgeEngine, fun _ _ => serves_edgeEngine, trivial⟩

/-- With a guard of one character the floor keeps away from the end. -/
theorem scan_floor_sound_guarded :
    ∃ S₀, Store.new edgeConfig = .ok S₀ ∧
      Along (SearchesSound fun _ => unitCertificates) (edgeRun 1) S₀ := by
  obtain ⟨S₀, hnew⟩ : ∃ S₀, Store.new edgeConfig = .ok S₀ := ⟨_, rfl⟩
  have hfloor : (((S₀.afterAll ((edgeRun 1).take 2)).sessions.lookup 1).all fun s =>
      decide (s.scanFloor < s.tail.text.length)) = true := by
    cases hnew
    decide +kernel
  refine ⟨S₀, hnew, scan_floor_sound _ hnew (served_edgeRun 1 S₀) ⟨trivial, trivial, ?_, trivial⟩⟩
  intro s hs hat
  have hs : (S₀.afterAll ((edgeRun 1).take 2)).sessions.lookup 1 = some s := hs
  rw [hs] at hfloor
  exact absurd hat (of_decide_eq_true hfloor).ne

/-- **With no guard the memo hides a cut**: the seal of `ab` leaves the floor at the end of the tail
`b`. The append of `c` makes that place a boundary, and the next search starts behind it. -/
theorem scan_floor_unguarded :
    ∃ S₀, Store.new edgeConfig = .ok S₀ ∧ Serves edgeEngine unitCertificates ∧
      Along (fun c S => Served (fun _ => unitCertificates) S c) (edgeRun 0) S₀ ∧
      ¬Along (SearchesSound fun _ => unitCertificates) (edgeRun 0) S₀ := by
  obtain ⟨S₀, hnew⟩ : ∃ S₀, Store.new edgeConfig = .ok S₀ := ⟨_, rfl⟩
  refine ⟨S₀, hnew, serves_edgeEngine, served_edgeRun 0 S₀, fun hsound => ?_⟩
  -- the state before the append, and the search it starts
  set S := S₀.afterAll ((edgeRun 0).take 2) with hS
  have hlast : SearchesSound _ (.append 1 ['c'] 0 edgeEngine) S := hsound.2.2.1
  have hcheck : ((S.sessions.lookup 1).any fun s =>
      decide (S.keys[s.keyId]? = some ⟨ZERO_HASH, 0⟩ ∧ s.witness = .BpeSyncTransition ∧
        s.revision = 0) &&
      returnsSuch (hashBlocks S.cfg ⟨ZERO_HASH, 0⟩)
        (fun _ w => decide (SealDue S.cfg ⟨ZERO_HASH, 0⟩ w.sess ∧ w.sess.tail.text = ['b', 'c'] ∧
          w.sess.scanFloor = 1))
        (grownWork S.cfg edgeEngine (S.clock + 1) ['c']
          ⟨s, S.nodes, S.tick.countExtend.stats⟩)) = true := by
    rw [hS]
    clear hlast hsound hS S
    cases hnew
    decide +kernel
  obtain ⟨s, hs, hfacts⟩ := (Option.any_eq_true _ _).mp hcheck
  obtain ⟨hpass, hreturns⟩ := Bool.and_eq_true_iff.mp hfacts
  obtain ⟨hkey, hwitness, hrevision⟩ := of_decide_eq_true hpass
  obtain ⟨_, w, hrun, hw⟩ := exists_of_returnsSuch hreturns
  obtain ⟨hdue, htext, hfloor⟩ := of_decide_eq_true hw
  have hhidden := hlast _ _ w (.append ⟨hs, hkey, hwitness, hrevision⟩ ⟨hrun, hdue⟩)
  refine hhidden.clear 1 one_pos hfloor.ge ?_
  rw [htext]
  exact ⟨one_pos, by decide⟩

end Toktier.Routing
