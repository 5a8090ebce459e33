import Toktier.StoreCore.SealCuts

/-!
# Sessions that are ready for more text

The bookkeeping after an append relies on the pending buffer, the byte cursor, the seal points and
the place of the safe point. Where they are right, and the engine names cuts that lie inside
the tail, no append ends in an internal error, and they stay right.

## Main definitions

* `Engine.Contract`: what the bookkeeping relies on from an engine.
* `Session.Attached`: the chain fields agree with the session's text and stream.

## Main results

* `wp_appendSession_ready`: an append keeps a session ready and has no internal error.
-/
namespace Toktier.StoreCore

open Toktier.Lib

/-- The error reports a broken invariant of the store. -/
def StoreError.isInternal : StoreError → Bool
  | .Internal _ => true
  | _ => false

/-- A cut between two tokens: the tokens before it cover its characters. -/
structure BoundaryCut.Inside (tail : TailState) (cut : BoundaryCut) : Prop where
  pos : 0 < cut.cutTokens
  lt : cut.cutTokens < tail.nTokens
  starts : tail.spanStarts[cut.cutTokens]? = some cut.cutChar
  before : ∀ stop ∈ tail.spanEnds.take cut.cutTokens, stop ≤ cut.cutChar
  behind : ∀ start ∈ tail.spanStarts.drop cut.cutTokens, cut.cutChar ≤ start

/-- The contract of a session encoder, as far as the bookkeeping relies on it: the rest is
verified after each append. -/
def Engine.Contract (eng : Engine) : Prop :=
  ∀ tail floor ceil cut, eng.lastCertifiedBoundary tail floor ceil = .ok (some cut) →
    cut.Inside tail

/-- An attached chain agrees with the sealed text, the seal points and the stream. A character
has four bytes at most. -/
structure Session.Attached (cfg : StoreConfig) (s : Session) : Prop where
  safe : s.sealedText.length = s.safeChar
  pending : s.buf = s.sealedText.drop s.blocksEnd
  bytes : s.blocksEndByte ≤ 4 * s.blocksEnd
  near : s.safeChar ≤ s.blocksEnd + cfg.blockChars
  base : s.chainBaseIdx ≤ s.sealedIds.len
  log : ∀ p ∈ s.sealLog, p.2 ≤ s.sealedIds.len

/-- The chain is attached as it should be, or detached; the content digest has its marks ahead. -/
structure Session.Ready (cfg : StoreConfig) (s : Session) : Prop where
  chain : s.chainOk = true → s.Attached cfg
  content : ∀ d ∈ s.content, d.Aligned

/-! ### Text of an attached session -/

section Text

variable {cfg : StoreConfig} {s s' : Session}

/-- The raw text between two places is that of the session. -/
theorem Session.Attached.textRange (h : s.Attached cfg) (htotal : s.totalChars = s.text.length)
    {a b : ℕ} (hstart : s.blocksEnd ≤ a ∨ s.safeChar ≤ a) (hab : a ≤ b) (hb : b ≤ s.totalChars) :
    StoreCore.textRange s a b = .ok ((s.text.take b).drop a) := by
  have hlen : s.text.length = s.safeChar + s.tail.text.length := by
    rw [Session.text, List.length_append, h.safe]
  have hhead : bufRange s a b = .ok ((s.sealedText.take b).drop a) := by
    unfold bufRange
    by_cases hsafe : a < s.safeChar
    · have hblocks := hstart.resolve_right (not_le.mpr hsafe)
      rw [if_pos hsafe, if_neg (not_lt.mpr hblocks), h.pending]
      have hfront : s.sealedText.take (min b s.safeChar) = s.sealedText.take b := by
        rw [← h.safe, ← List.take_take, List.take_length]
      rw [← List.drop_take, hfront, List.drop_drop, Nat.add_sub_cancel' hblocks]
    · rw [if_neg hsafe, List.drop_of_length_le]
      rw [List.length_take, h.safe]
      omega
  have hrest : tailRange s a b =
      .ok ((s.tail.text.take (b - s.safeChar)).drop (a - s.safeChar)) := by
    have hchars := s.tail.chars_lt
    unfold tailRange
    by_cases hsafe : b > s.safeChar
    · dsimp only
      have hlo : max a s.safeChar - s.safeChar = a - s.safeChar := by omega
      rw [if_pos hsafe, hlo, if_neg (by omega)]
    · rw [if_neg hsafe, Nat.sub_eq_zero_of_le (not_lt.mp hsafe), List.take_zero, List.drop_nil]
  unfold StoreCore.textRange
  rw [if_neg (by omega), hhead, ok_bind, hrest, ok_bind, Session.text, List.take_append,
    List.drop_append, h.safe]
  congr 3
  rw [List.length_take, h.safe]
  omega

/-- The tail is no part of what the chain relies on. -/
theorem Session.Attached.of_chain (h : s.Attached cfg) (hsafe : s'.safeChar = s.safeChar)
    (hsealed : s'.sealedText = s.sealedText) (hbuf : s'.buf = s.buf)
    (hend : s'.blocksEnd = s.blocksEnd) (hbyte : s'.blocksEndByte = s.blocksEndByte)
    (hbase : s'.chainBaseIdx = s.chainBaseIdx) (hids : s'.sealedIds = s.sealedIds)
    (hlog : s'.sealLog = s.sealLog) : s'.Attached cfg where
  safe := by rw [hsealed, hsafe, h.safe]
  pending := by rw [hbuf, hsealed, hend, h.pending]
  bytes := by
    rw [hbyte, hend]
    exact h.bytes
  near := by
    rw [hsafe, hend]
    exact h.near
  base := by
    rw [hbase, hids]
    exact h.base
  log := by
    rw [hlog, hids]
    exact h.log

end Text

/-! ### Blocks -/

section Blocks

variable [Digests] {cfg : StoreConfig} {key : KeyCtx}

/-- An attached chain with the totals counted, over a text whose bytes can be counted. -/
structure Session.Counted (cfg : StoreConfig) (s : Session) : Prop extends s.Attached cfg where
  total : s.totalChars = s.text.length
  room : 4 * s.text.length < 2 ^ 64

omit [Digests] in
theorem Session.Counted.block {s : Session} (h : s.Counted cfg) (hdue : s.BlockDue cfg) :
    textRange s s.blocksEnd (s.nextEnd cfg) = .ok ((s.text.take (s.nextEnd cfg)).drop s.blocksEnd) :=
  h.toAttached.textRange h.total (.inl le_rfl) (Nat.le_add_right _ _) hdue.2

omit [Digests] in
/-- The bytes up to the end of a block are within those of its characters. -/
theorem Session.Counted.bytes_block {s : Session} (h : s.Counted cfg) {block : Text}
    (hdue : s.BlockDue cfg) (hblock : textRange s s.blocksEnd (s.nextEnd cfg) = .ok block) :
    s.blocksEndByte + utf8Len block ≤ 4 * s.nextEnd cfg := by
  rw [h.block hdue] at hblock
  obtain rfl := Except.ok.inj hblock
  have hbytes := h.bytes
  have hlen := utf8Len_le_four_mul ((s.text.take (s.nextEnd cfg)).drop s.blocksEnd)
  have htake : (s.text.take (s.nextEnd cfg)).length ≤ s.nextEnd cfg := List.length_take_le _ _
  have hle : s.blocksEnd ≤ s.nextEnd cfg := Nat.le_add_right _ _
  rw [List.length_drop] at hlen
  omega

/-- The chain past a block, standing at a seal point of the session. -/
theorem Session.Counted.stepChain {s : Session} (h : s.Counted cfg) {block : Text}
    (hdue : s.BlockDue cfg) (hblock : textRange s s.blocksEnd (s.nextEnd cfg) = .ok block)
    (baseSafe : ℕ) {baseIdx : ℕ} (hbase : baseIdx ≤ s.sealedIds.len) :
    (s.stepChain cfg key block baseSafe baseIdx).Counted cfg where
  safe := h.safe
  pending := by
    change s.buf.drop cfg.blockChars = s.sealedText.drop (s.nextEnd cfg)
    rw [h.pending, List.drop_drop, Session.nextEnd]
  bytes := h.bytes_block hdue hblock
  near := h.near.trans (Nat.add_le_add_right (Nat.le_add_right _ _) _)
  base := hbase
  log := h.log
  total := h.total
  room := h.room

/-- A round keeps an attached chain as it should be. -/
theorem BlockRound.counted {w w' : Work} {more : Bool} (hround : BlockRound cfg key w more w')
    (h : w.sess.chainOk = true → w.sess.Counted cfg) :
    w'.sess.chainOk = true → w'.sess.Counted cfg := by
  cases hround with
  | idle => exact h
  | adopt due range found ours =>
    refine fun _ => (h due.1).stepChain due range _ ?_
    -- the node was sealed at one of the session's own seal points
    obtain ⟨p, hp, hmatch⟩ := List.any_eq_true.mp ours
    have hmem := List.mem_reverse.mp (List.takeWhile_subset _ hp)
    have hcount := (of_decide_eq_true hmatch).2
    exact hcount ▸ (h due.1).log p hmem
  | mismatch => exact fun hok => Bool.noConfusion hok
  | oversize => exact fun hok => Bool.noConfusion hok
  | publish due range missing before tailRange small base created =>
    exact fun _ => (h due.1).stepChain due range _ le_rfl

/-- A node record that does not serialize is not an internal error. -/
theorem NodeEntry.isInternal_of_create {record : NodeCacheRecord} {e : StoreError}
    (h : NodeEntry.create record = .error e) : e.isInternal = false := by
  unfold NodeEntry.create NodeCacheRecord.toBytes NodeCacheRecord.body at h
  by_cases hids : record.ids.length < 2 ^ 32
  · rw [lenU32_of_lt hids, ok_bind] at h
    by_cases htail : utf8Len record.textTail < 2 ^ 32
    · obtain ⟨entry, hentry⟩ := NodeEntry.create_of_lt hids htail
      unfold NodeEntry.create NodeCacheRecord.toBytes NodeCacheRecord.body at hentry
      rw [lenU32_of_lt hids, ok_bind, h] at hentry
      cases hentry
    · rw [lenU32, if_neg htail] at h
      cases h
      rfl
  · rw [lenU32, if_neg hids] at h
    cases h
    rfl

/-- A round of an attached chain fails only where a node record does not serialize. -/
theorem Session.Counted.sealBlock_error {w : Work} (h : w.sess.Counted cfg)
    (hdue : w.sess.BlockDue cfg) {e : StoreError} (he : sealBlock cfg key w = .error e) :
    e.isInternal = false := by
  have hblock := h.block hdue
  have hbytes := h.bytes_block hdue hblock
  have hroom : 4 * w.sess.nextEnd cfg < 2 ^ 64 :=
    lt_of_le_of_lt (Nat.mul_le_mul_left 4 (h.total ▸ hdue.2)) h.room
  have hnear : w.sess.safeChar ≤ w.sess.nextEnd cfg := h.near
  have htail := h.toAttached.textRange h.total (.inr le_rfl) hnear hdue.2
  unfold sealBlock at he
  rw [if_pos hdue, hblock, ok_bind] at he
  dsimp only at he
  rw [if_neg (by omega)] at he
  split at he
  · split_ifs at he
  · rw [if_neg (not_lt.mpr hnear), htail, ok_bind, if_neg (not_lt.mpr h.base)] at he
    split_ifs at he
    rcases hcreate : NodeEntry.create _ with e' | entry
    · rw [hcreate] at he
      cases he
      exact NodeEntry.isInternal_of_create hcreate
    · rw [hcreate] at he
      cases he

/-- The block loop keeps a session ready, and has no internal error. -/
theorem wp_sealBlocks_counted (hB : 0 < cfg.blockChars) {w : Work}
    (h : w.sess.chainOk = true → w.sess.Counted cfg) :
    wp (sealBlocks cfg key)
      (fun _ w' => (w'.sess.chainOk = true → w'.sess.Counted cfg) ∧ ¬w'.sess.BlockDue cfg)
      (fun e w' => e.isInternal = false ∧ (w'.sess.chainOk = true → w'.sess.Counted cfg)) w := by
  refine wp_mono (wp_sealBlocks (I := fun w => w.sess.chainOk = true → w.sess.Counted cfg) hB
    (fun hI hround => hround.counted hI) h) (fun _ _ h => h) fun e w' hw => ?_
  obtain ⟨hI, he, hdue, -⟩ := hw
  exact ⟨(hI hdue.1).sealBlock_error hdue he, hI⟩

end Blocks

/-! ### Seals -/

section Seals

variable {cfg : StoreConfig} {key : KeyCtx} {eng : Engine} {tail : TailState} {cut : BoundaryCut}

/-- A cut between two tokens can be sealed at. -/
theorem BoundaryCut.Inside.sealable (h : cut.Inside tail) : Sealable tail cut where
  pos := h.pos
  lt := h.lt
  starts := h.starts
  before stop hstop := by
    have hpos := h.pos
    obtain ⟨hlt, rfl⟩ := List.getElem?_eq_some_iff.mp hstop
    exact h.before _ (List.mem_take_iff_getElem.mpr ⟨cut.cutTokens - 1, by omega, rfl⟩)
  behind := h.behind

/-- An attached chain stays as it should be when the tail is sealed inside the last block. -/
theorem SealedAt.counted {s s' : Session} (hs : SealedAt cut s s') (h : s.Counted cfg)
    (hok : s.chainOk = true) (hcut : cut.cutChar ≤ s.tail.text.length) (hdue : ¬s.BlockDue cfg) :
    s'.Counted cfg := by
  have htext : s'.text = s.text := (Regrouped.of_sealedAt hs).text_eq
  have hlast : s.text.length < s.blocksEnd + cfg.blockChars := by
    rw [← h.total]
    exact not_le.mp fun hle => hdue ⟨hok, hle⟩
  have hlen : s.text.length = s.safeChar + s.tail.text.length := by
    rw [Session.text, List.length_append, h.safe]
  have hids : s.sealedIds.len ≤ s'.sealedIds.len := by
    rw [← SealedIds.length_ids, ← SealedIds.length_ids, hs.ids, List.length_append]
    exact Nat.le_add_right _ _
  have hend : s'.blocksEnd = s.blocksEnd := by rw [hs.shape]
  have hsafe : s'.safeChar = s.safeChar + cut.cutChar := by rw [hs.shape]
  have hsealed : s'.sealedText = s.sealedText ++ s.tail.text.take cut.cutChar := by rw [hs.shape]
  refine ⟨⟨?_, ?_, ?_, ?_, ?_, ?_⟩, ?_, by rw [htext]; exact h.room⟩
  · rw [hsealed, hsafe, List.length_append, h.safe, List.length_take, Nat.min_eq_left hcut]
  · have hbuf : s'.buf = if s.chainOk then
        s.buf ++ (s.tail.text.take cut.cutChar).drop (s.blocksEnd - s.safeChar) else s.buf := by
      rw [hs.shape]
    rw [hbuf, if_pos hok, hsealed, hend, List.drop_append, h.safe, h.pending]
  · have hbyte : s'.blocksEndByte = s.blocksEndByte := by rw [hs.shape]
    rw [hbyte, hend]
    exact h.bytes
  · rw [hsafe, hend]
    omega
  · have hbase : s'.chainBaseIdx = s.chainBaseIdx := by rw [hs.shape]
    rw [hbase]
    exact h.base.trans hids
  · have hlog : s'.sealLog = s.sealLog ++ [(s.safeChar + cut.cutChar, s'.sealedIds.len)] := by
      rw [hs.shape]
    intro p hp
    rw [hlog, List.mem_append, List.mem_singleton] at hp
    rcases hp with hp | rfl
    · exact (h.log p hp).trans hids
    · exact le_rfl
  · have htotal : s'.totalChars = s.totalChars := by rw [hs.shape]
    rw [htotal, htext, h.total]

theorem Session.Counted.withScanFloor {s : Session} (h : s.Counted cfg) (floor : ℕ) :
    ({ s with scanFloor := floor } : Session).Counted cfg :=
  ⟨⟨h.safe, h.pending, h.bytes, h.near, h.base, h.log⟩, h.total, h.room⟩

theorem isInternal_of_mapError {α : Type} {x : Except EngineError α} {e : StoreError}
    (h : x.mapError EngineError.toStoreError = .error e) : e.isInternal = false := by
  cases x with
  | ok a => cases h
  | error e' =>
    cases h
    rfl

/-- A contract engine names cuts that can be sealed: only the query itself may fail. -/
theorem wp_advanceSeal_error (hc : eng.Contract) (ceil : ℕ) (w : Work) :
    wp (advanceSeal eng ceil) (fun _ _ => True)
      (fun e w' => e.isInternal = false ∧ w'.sess = w.sess) w := by
  unfold advanceSeal
  simp only [wp_bind, wp_get, wp_fromExcept]
  refine ⟨fun found hfound => ?_, fun e he => ⟨isInternal_of_mapError he, trivial⟩⟩
  cases found with
  | none => simp only [wp_modify]
  | some cut =>
    have hanswer : eng.lastCertifiedBoundary w.sess.tail w.sess.scanFloor ceil =
        .ok (some cut) := by
      cases hquery : eng.lastCertifiedBoundary w.sess.tail w.sess.scanFloor ceil with
      | ok found => rw [hquery] at hfound; exact congrArg _ (Except.ok.inj hfound)
      | error e => rw [hquery] at hfound; cases hfound
    have hfits := (hc _ _ _ _ hanswer).sealable.cutFits
    simp only [wp_bind, wp_modify]
    exact wp_mono (wp_sealTail_passes cut w) (fun _ _ _ => trivial) fun _ _ hw => absurd hfits hw

theorem wp_advanceSeal_counted (hc : eng.Contract) (ceil : ℕ) {w : Work}
    (h : w.sess.chainOk = true → w.sess.Counted cfg) (hdue : ¬w.sess.BlockDue cfg) :
    wp (advanceSeal eng ceil) (fun _ w' => w'.sess.chainOk = true → w'.sess.Counted cfg)
      (fun e w' => e.isInternal = false ∧ (w'.sess.chainOk = true → w'.sess.Counted cfg)) w := by
  refine wp_mono (wp_and (wp_advanceSeal eng ceil w) (wp_advanceSeal_error hc ceil w))
    (fun _ w' hw => ?_) fun e w' hw => ⟨hw.2.1, by rw [hw.2.2]; exact h⟩
  obtain ⟨⟨-, ⟨cut, s₁, hanswer, hs, hw'⟩ | ⟨-, hw'⟩⟩, -⟩ := hw
  · have hok : s₁.chainOk = w.sess.chainOk := by rw [hs.shape]
    generalize (ceil + 2 ^ 64 - cut.cutChar) % 2 ^ 64 = floor at hw'
    rw [hw']
    intro hok'
    have hattached := hok.symm.trans hok'
    have hinside := hc _ _ _ _ hanswer
    exact (hs.counted (h hattached) hattached hinside.sealable.char_le hdue).withScanFloor floor
  · rw [hw']
    exact fun hok => (h hok).withScanFloor ceil

theorem wp_trySeal_counted (hc : eng.Contract) {w : Work}
    (h : w.sess.chainOk = true → w.sess.Counted cfg) (hdue : ¬w.sess.BlockDue cfg) :
    wp (trySeal cfg key eng) (fun _ w' => w'.sess.chainOk = true → w'.sess.Counted cfg)
      (fun e w' => e.isInternal = false ∧ (w'.sess.chainOk = true → w'.sess.Counted cfg)) w := by
  unfold trySeal
  simp only [wp_bind, wp_get, wp_runIf]
  have hcap (w' : Work) (h' : w'.sess.chainOk = true → w'.sess.Counted cfg) :
      wp (countSoftCap cfg) (fun _ w' => w'.sess.chainOk = true → w'.sess.Counted cfg)
        (fun e w' => e.isInternal = false ∧ (w'.sess.chainOk = true → w'.sess.Counted cfg)) w' :=
    wp_countSoftCap cfg w' fun w'' hs _ => by rwa [hs]
  exact ⟨fun _ => wp_mono (wp_advanceSeal_counted hc _ h hdue) (fun _ w' h' => hcap w' h')
    (fun _ _ h' => h'), fun _ => hcap w h⟩

variable [Digests]

/-- The bookkeeping keeps an attached chain as it should be, and has no internal error. -/
theorem wp_postTextOps_attached (hB : 0 < cfg.blockChars) (hc : eng.Contract) {w : Work}
    (h : w.sess.chainOk = true → w.sess.Attached cfg) (hroom : 4 * w.sess.text.length < 2 ^ 64) :
    wp (postTextOps cfg key eng) (fun _ w' => w'.sess.chainOk = true → w'.sess.Attached cfg)
      (fun e w' => e.isInternal = false ∧ (w'.sess.chainOk = true → w'.sess.Attached cfg)) w := by
  have hcounted : w.sess.recount.chainOk = true → w.sess.recount.Counted cfg := fun hok =>
    { safe := (h hok).safe, pending := (h hok).pending, bytes := (h hok).bytes
      near := (h hok).near, base := (h hok).base, log := (h hok).log
      total := by
        change w.sess.safeChar + w.sess.tail.text.length =
          (w.sess.sealedText ++ w.sess.tail.text).length
        rw [List.length_append, (h hok).safe]
      room := hroom }
  have hseal (w' : Work) (h' : w'.sess.chainOk = true → w'.sess.Counted cfg)
      (hdue : ¬w'.sess.BlockDue cfg) : wp (trySeal cfg key eng)
        (fun _ w' => w'.sess.chainOk = true → w'.sess.Attached cfg)
        (fun e w' => e.isInternal = false ∧ (w'.sess.chainOk = true → w'.sess.Attached cfg)) w' :=
    wp_mono (wp_trySeal_counted hc h' hdue) (fun _ _ h' hok => (h' hok).toAttached)
      fun _ _ h' => ⟨h'.1, fun hok => (h'.2 hok).toAttached⟩
  unfold postTextOps
  simp only [wp_bind, wp_modify, wp_get, wp_runIf]
  refine ⟨fun _ => ?_, fun hno => hseal _ hcounted fun hdue => hno hdue.1⟩
  refine wp_mono (wp_sealBlocks_counted hB hcounted) (fun _ w' hw => hseal w' hw.1 hw.2)
    fun _ _ hw => ⟨hw.1, fun hok => (hw.2 hok).toAttached⟩

end Seals


/-! ### Digests -/

section Digests

variable [Digests]

/-- The rounds end before their number is used up: a mark doubles in each, and is 64 bits wide. -/
theorem ContentDigest.wp_passMarks_aligned {stop : ℕ} (hstop : stop < 2 ^ 64) (fuel : ℕ)
    (delta : List UInt8) {d : ContentDigest} (hle : fuel ≤ 64)
    (hfuel : 2 ^ (64 - fuel) ≤ d.nextMark) (ha : d.Aligned) :
    wp (passMarks stop fuel delta) (fun _ d' => 1 ≤ d'.nextMark ∧ stop ≤ d'.nextMark)
      (fun e d' => e.isInternal = false ∧ d'.Aligned) d := by
  induction fuel generalizing delta d with
  | zero =>
    have hbig : ¬d.nextMark < stop := not_lt.mpr (hstop.le.trans hfuel)
    unfold passMarks
    simp only [wp_bind, wp_get, if_neg hbig, wp_pure]
    exact ⟨ha.1, not_lt.mp hbig⟩
  | succ fuel ih =>
    unfold passMarks
    simp only [wp_bind, wp_get]
    by_cases hlt : d.nextMark < stop
    · have hpow : 2 ^ (64 - fuel) = 2 ^ (64 - (fuel + 1)) * 2 := by
        rw [← pow_succ]
        congr 1
        omega
      simp only [if_pos hlt, wp_bind, wp_throwIf, wp_set]
      refine ⟨fun hback => absurd ha.2 (not_le.mpr hback), fun _ =>
        ⟨fun _ => ⟨rfl, ha.1, le_rfl⟩, fun _ => ih _ (Nat.le_of_succ_le hle) ?_ ?_⟩⟩
      · rw [hpow]
        exact Nat.mul_le_mul_right 2 hfuel
      · exact ⟨ha.1.trans (Nat.le_mul_of_pos_right _ two_pos), Nat.le_mul_of_pos_right _ two_pos⟩
    · simp only [if_neg hlt, wp_pure]
      exact ⟨ha.1, not_lt.mp hlt⟩

/-- An append keeps the marks ahead, and has no internal error. -/
theorem ContentDigest.wp_append_aligned (delta : List UInt8) {d : ContentDigest} (ha : d.Aligned) :
    wp (append delta) (fun _ d' => d'.Aligned) (fun e d' => e.isInternal = false ∧ d'.Aligned) d := by
  unfold append
  simp only [wp_bind, wp_get, wp_throwIf, wp_modify]
  refine ⟨fun _ => ⟨rfl, ha⟩, fun hstop => ?_⟩
  exact wp_mono (wp_passMarks_aligned (not_le.mp hstop) MAX_MARKS delta le_rfl ha.1 ha)
    (fun _ _ hd => hd) fun _ _ hd => hd

/-- A digest of a text has its marks ahead. -/
theorem ContentDigest.aligned_of_fromBytes {data : List UInt8} {d : ContentDigest}
    (h : fromBytes data = .ok d) : d.Aligned := by
  unfold fromBytes at h
  cases hrun : (append data).run empty with
  | ok u d' =>
    rw [hrun] at h
    cases h
    exact (wp_append_aligned data aligned_empty).of_ok hrun
  | error e d' =>
    rw [hrun] at h
    cases h

omit [Digests] in
/-- Feeding the recovery digest touches no other field, and has no internal error. -/
theorem wp_feedRecovery_ready (delta : Text) {w : Work} (h : w.sess.Ready cfg) :
    wp (feedRecovery delta) (fun _ w' => w'.sess.Ready cfg)
      (fun e w' => e.isInternal = false ∧ w'.sess.Ready cfg) w := by
  unfold feedRecovery
  simp only [wp_bind, wp_get]
  cases w.sess.recovery with
  | none => exact h
  | some d =>
    simp only [RecoveryDigest.append, wp_bind, wp_fromExcept, wp_set]
    refine ⟨fun d' _ => ⟨fun hok => ?_, h.content⟩, fun e he => ⟨?_, h⟩⟩
    · exact (h.chain hok).of_chain rfl rfl rfl rfl rfl rfl rfl rfl
    · split_ifs at he
      cases he
      rfl

theorem wp_feedContent_ready (delta : Text) {w : Work} (h : w.sess.Ready cfg) :
    wp (feedContent delta) (fun _ w' => w'.sess.Ready cfg)
      (fun e w' => e.isInternal = false ∧ w'.sess.Ready cfg) w := by
  have hput {d : ContentDigest} (hd : d.Aligned) :
      ({ w.sess with content := some d } : Session).Ready cfg := by
    refine ⟨fun hok => (h.chain hok).of_chain rfl rfl rfl rfl rfl rfl rfl rfl, fun d' hd' => ?_⟩
    obtain rfl := Option.mem_some_iff.mp hd'
    exact hd
  unfold feedContent
  simp only [wp_bind, wp_get]
  cases hcontent : w.sess.content with
  | none => exact h
  | some d =>
    simp only [wp_zoomIn]
    exact wp_mono (ContentDigest.wp_append_aligned (utf8 delta) (h.content d hcontent))
      (fun _ _ hd => hput hd) fun _ _ hd => ⟨hd.1, hput hd.2⟩

end Digests

/-! ### Appends -/

section Appends

variable [Digests] {cfg : StoreConfig} {key : KeyCtx} {eng : Engine}

/-- What follows an accepted append keeps a session ready, and has no internal error. -/
theorem wp_settleAppend_ready (hB : 0 < cfg.blockChars) (hc : eng.Contract) (path : String)
    (delta : Text) {w : Work} (h : w.sess.Ready cfg) (hroom : 4 * w.sess.text.length < 2 ^ 64) :
    wp (settleAppend cfg key eng path delta) (fun _ w' => w'.sess.Ready cfg)
      (fun e w' => e.isInternal = false ∧ w'.sess.Ready cfg) w := by
  have hfeed (w₁ : Work) (h₁ : w₁.sess.Ready cfg) :
      wp (feedRecovery delta)
        (fun _ w₂ => wp (feedContent delta) (fun _ w' => w'.sess.Ready cfg)
          (fun e w' => e.isInternal = false ∧ w'.sess.Ready cfg) w₂)
        (fun e w' => e.isInternal = false ∧ w'.sess.Ready cfg) w₁ :=
    wp_mono (wp_feedRecovery_ready delta h₁) (fun _ _ h₂ => wp_feedContent_ready delta h₂)
      fun _ _ h₂ => h₂
  unfold settleAppend
  simp only [wp_bind, wp_runIf, countPath, wp_modify]
  refine ⟨fun _ => ?_, fun _ => hfeed _ h⟩
  refine wp_mono (wp_and (wp_postTextOps_attached hB hc h.chain hroom)
    (wp_postTextOps_frame cfg key eng hB w)) (fun _ w₁ hw => ?_) fun e w₁ hw => ?_
  · obtain ⟨hchain, J, T, hreg⟩ := hw
    exact hfeed _ ⟨hchain, fun d hd => h.content d (hreg.ledger.content ▸ hd)⟩
  · exact ⟨hw.1.1, hw.1.2, fun d hd => h.content d (hw.2.ledger.content ▸ hd)⟩

omit [Digests] in
theorem isInternal_of_validate {chars index : ℕ} {spans : List (ℕ × ℕ)} {e : StoreError}
    (h : validateSpanArrays chars index spans = .error e) : e.isInternal = false := by
  induction spans generalizing index with
  | nil => cases h
  | cons p rest ih =>
    obtain ⟨start, stop⟩ := p
    rw [validateSpanArrays] at h
    split_ifs at h
    · cases h
      rfl
    · exact ih h

omit [Digests] in
theorem isInternal_of_fill {text : Text} {enc : Encoding} {e : StoreError}
    (h : TailState.fill text enc = .error e) : e.isInternal = false := by
  unfold TailState.fill TailState.build at h
  split_ifs at h
  · split at h
    · cases h
    · rename_i hv
      cases h
      exact isInternal_of_validate hv
  · cases h
    rfl
  · cases h
    rfl

omit [Digests] in
/-- The errors of the engine and of the tail it left are not internal. -/
theorem isInternal_of_growTail {tail : TailState} {delta : Text} {e : StoreError}
    (h : (growTail cfg eng tail delta).1 = .error e) : e.isInternal = false := by
  unfold growTail at h
  split_ifs at h
  · split at h
    · rename_i henc
      cases h
      exact isInternal_of_mapError henc
    · split at h
      · rename_i hfill
        cases h
        exact isInternal_of_fill hfill
      · cases h
  · split at h
    · cases h
      rfl
    · cases h

omit [Digests] in
theorem isInternal_of_verify {tail : TailState} {len kept : ℕ} {delta : Text} {ids : List UInt32}
    {e : StoreError} (h : verifyAppendShape tail len delta ids kept = .error e) :
    e.isInternal = false := by
  unfold verifyAppendShape at h
  split_ifs at h <;>
  · cases h
    rfl

omit [Digests] in
/-- The session an append goes on with is ready, whatever tail it has. -/
theorem Session.Ready.grown {w : Work} (h : w.sess.Ready cfg) (clock : ℕ) (delta : Text) :
    (grownWork cfg eng clock delta w).sess.Ready cfg := by
  unfold grownWork Session.openAppend
  dsimp only
  split <;>
    exact ⟨fun hok => (h.chain hok).of_chain rfl rfl rfl rfl rfl rfl rfl rfl, h.content⟩

omit [Digests] in
/-- The tail grew by as many bytes as the delta has, so a text with room for it has room. -/
theorem length_text_grownWork_le {clock kept : ℕ} {delta : Text} {w : Work}
    (hshape : ShapeOk w.sess.tail (growTail cfg eng w.sess.tail delta).2 delta kept) :
    (grownWork cfg eng clock delta w).sess.text.length ≤ utf8Len (w.sess.text ++ delta) := by
  have hbytes := hshape.bytes
  have hsealed : (grownWork cfg eng clock delta w).sess.sealedText = w.sess.sealedText := by
    unfold grownWork Session.openAppend
    dsimp only
    split <;> rfl
  refine (length_le_utf8Len _).trans_eq ?_
  rw [Session.text, Session.text, hsealed, utf8Len_append, utf8Len_append, utf8Len_append,
    Nat.add_assoc]
  exact congrArg (utf8Len w.sess.sealedText + ·) hbytes

/-- **An append keeps a session ready, and has no internal error**, whether it returns or not. -/
theorem wp_appendSession_ready (hB : 0 < cfg.blockChars) (hc : eng.Contract) (clock : ℕ)
    (delta : Text) {w : Work} (h : w.sess.Ready cfg)
    (hroom : 4 * utf8Len (w.sess.text ++ delta) < 2 ^ 64) :
    wp (appendSession cfg key eng clock delta) (fun _ w' => w'.sess.Ready cfg)
      (fun e w' => e.isInternal = false ∧ w'.sess.Ready cfg) w := by
  have hgrown : (grownWork cfg eng clock delta w).sess.Ready cfg := h.grown clock delta
  unfold appendSession
  simp only [wp_bind, wp_get, wp_set, wp_fromExcept]
  refine ⟨?_, fun e he => ⟨isInternal_of_growTail he, hgrown⟩⟩
  rintro ⟨path, kept⟩ hgrow
  refine ⟨fun _ hverify => ?_, fun e he => ⟨isInternal_of_verify he, hgrown⟩⟩
  have hshape : ShapeOk w.sess.tail (growTail cfg eng w.sess.tail delta).2 delta kept :=
    growTail_shape (Prod.ext hgrow rfl) hverify
  have hlen : (grownWork cfg eng clock delta w).sess.text.length ≤ utf8Len (w.sess.text ++ delta) :=
    length_text_grownWork_le hshape
  have hroom' : 4 * (grownWork cfg eng clock delta w).sess.text.length < 2 ^ 64 :=
    (Nat.mul_le_mul_left 4 hlen).trans_lt hroom
  refine wp_mono (wp_and (wp_settleAppend_ready hB hc path delta hgrown hroom')
    (wp_settleAppend cfg key eng hB path delta _)) (fun _ w₂ hw => ?_) fun _ _ hw => hw.1
  obtain ⟨hready, s₁, J, T, hreg, hdig⟩ := hw
  simp only [wp_modify, appendOutcome, wp_bind, wp_get, wp_throwIf, wp_pure]
  -- the bookkeeping moves tokens, and keeps their number
  have hcount : w.sess.sealedIds.len + kept ≤ w₂.sess.tokenCount := by
    have hlen : (grownWork cfg eng clock delta w).sess.tokenCount =
        w.sess.sealedIds.len + (growTail cfg eng w.sess.tail delta).2.nTokens := by
      unfold grownWork Session.tokenCount Session.openAppend
      dsimp only
      split <;> rfl
    have hsame : w₂.sess.tokenCount = (grownWork cfg eng clock delta w).sess.tokenCount := by
      rw [← Session.length_allIds, hdig.allIds_eq, Session.length_allIds]
      exact hreg.tokenCount_eq
    rw [hsame, hlen]
    exact Nat.add_le_add_left hshape.kept_le' _
  refine ⟨fun hpast => absurd hcount (not_le.mpr hpast), fun _ => ?_⟩
  exact ⟨fun hok => (hready.chain hok).of_chain rfl rfl rfl rfl rfl rfl rfl rfl, hready.content⟩

end Appends

end Toktier.StoreCore
