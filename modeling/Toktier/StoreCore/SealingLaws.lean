import Toktier.StoreCore.Sealing

/-!
# What blocks and seals do

Inversion lemmas for the bookkeeping, for any engine and any state: the outcomes of one
round of the block loop, the rule that carries an invariant through the loop, and the
effect of a seal on the stream and on the text.

## Main definitions

* `BlockRound`: the outcomes of one round.
* `SameButChain`: two sessions that differ in their chain fields alone.
* `SealedAt`: a session and the one a seal leaves.

## Main results

* `wp_sealBlocks`: the invariant rule of the loop, which ends with no complete block left.
* `wp_sealTail`, `wp_advanceSeal`, `wp_postTextOps`.
-/
namespace Toktier.StoreCore

open Toktier.Lib

/-! ## One round of the block loop -/

section Rounds

variable [Digests] {cfg : StoreConfig} {key : KeyCtx}

/-- The outcomes of a round that does not fail. -/
inductive BlockRound (cfg : StoreConfig) (key : KeyCtx) (w : Work) : Bool → Work → Prop
  | idle (h : ¬w.sess.BlockDue cfg) : BlockRound cfg key w false w
  | adopt (due : w.sess.BlockDue cfg) {block : Text} {e : NodeEntry}
      (range : textRange w.sess w.sess.blocksEnd (w.sess.nextEnd cfg) = .ok block)
      (found : w.nodes.lookup (w.sess.nextKey cfg key block) = some e)
      (ours : adoptable w.sess.sealLog e.record.safeChar
        (e.record.idsBase + e.record.ids.length) = true) :
      BlockRound cfg key w true { w with
        sess := w.sess.stepChain cfg key block e.record.safeChar
          (e.record.idsBase + e.record.ids.length) }
  | mismatch (due : w.sess.BlockDue cfg) {block : Text} {e : NodeEntry}
      (range : textRange w.sess w.sess.blocksEnd (w.sess.nextEnd cfg) = .ok block)
      (found : w.nodes.lookup (w.sess.nextKey cfg key block) = some e) :
      BlockRound cfg key w false { w with
        sess := w.sess.detach, stats := w.stats.countDetach }
  | oversize (due : w.sess.BlockDue cfg) {block textTail : Text}
      (range : textRange w.sess w.sess.blocksEnd (w.sess.nextEnd cfg) = .ok block)
      (missing : w.nodes.lookup (w.sess.nextKey cfg key block) = none)
      (tailRange : textRange w.sess w.sess.safeChar (w.sess.nextEnd cfg) = .ok textTail)
      (big : cfg.nodeTailCapBytes < utf8Len textTail) :
      BlockRound cfg key w false { w with
        sess := w.sess.detach, stats := w.stats.countTailCap.countDetach }
  | publish (due : w.sess.BlockDue cfg) {block textTail : Text} {e : NodeEntry}
      (range : textRange w.sess w.sess.blocksEnd (w.sess.nextEnd cfg) = .ok block)
      (missing : w.nodes.lookup (w.sess.nextKey cfg key block) = none)
      (before : w.sess.safeChar ≤ w.sess.nextEnd cfg)
      (tailRange : textRange w.sess w.sess.safeChar (w.sess.nextEnd cfg) = .ok textTail)
      (small : utf8Len textTail ≤ cfg.nodeTailCapBytes)
      (base : w.sess.chainBaseIdx ≤ w.sess.sealedIds.len)
      (created : NodeEntry.create (w.sess.nextNode cfg key block textTail) = .ok e) :
      BlockRound cfg key w true { w with
        nodes := w.nodes.insert (w.sess.nextKey cfg key block) e
        sess := w.sess.stepChain cfg key block w.sess.safeChar w.sess.sealedIds.len }

/-- A round that fails hit one of the store's invariants, or a node record that does
not serialize. -/
inductive BlockFault (cfg : StoreConfig) (key : KeyCtx) (w : Work) : Prop
  | blockRange {e : StoreError}
      (h : textRange w.sess w.sess.blocksEnd (w.sess.nextEnd cfg) = .error e)
  | bytesPast {block : Text}
      (range : textRange w.sess w.sess.blocksEnd (w.sess.nextEnd cfg) = .ok block)
      (h : 2 ^ 64 ≤ w.sess.blocksEndByte + utf8Len block)
  | safePast (h : w.sess.nextEnd cfg < w.sess.safeChar)
  | tailRange {e : StoreError} (before : w.sess.safeChar ≤ w.sess.nextEnd cfg)
      (h : textRange w.sess w.sess.safeChar (w.sess.nextEnd cfg) = .error e)
  | basePast (h : w.sess.sealedIds.len < w.sess.chainBaseIdx)
  | refused {block textTail : Text} {e : StoreError}
      (range : textRange w.sess w.sess.blocksEnd (w.sess.nextEnd cfg) = .ok block)
      (missing : w.nodes.lookup (w.sess.nextKey cfg key block) = none)
      (tailRange : textRange w.sess w.sess.safeChar (w.sess.nextEnd cfg) = .ok textTail)
      (small : utf8Len textTail ≤ cfg.nodeTailCapBytes)
      (h : NodeEntry.create (w.sess.nextNode cfg key block textTail) = .error e)

/-- Inversion of one round. -/
theorem sealBlock_cases (w : Work) :
    (∃ more w', sealBlock cfg key w = .ok (more, w') ∧ BlockRound cfg key w more w') ∨
      (∃ e, sealBlock cfg key w = .error e ∧ w.sess.BlockDue cfg ∧ BlockFault cfg key w) := by
  by_cases hdue : w.sess.BlockDue cfg
  case neg => exact .inl ⟨false, w, if_neg hdue, .idle hdue⟩
  unfold sealBlock
  rw [if_pos hdue]
  cases hr : textRange w.sess w.sess.blocksEnd (w.sess.nextEnd cfg) with
  | error e => exact .inr ⟨e, rfl, hdue, .blockRange hr⟩
  | ok block =>
    simp only [ok_bind]
    by_cases hf : 2 ^ 64 ≤ w.sess.blocksEndByte + utf8Len block
    · simp only [if_pos hf]
      exact .inr ⟨_, rfl, hdue, .bytesPast hr hf⟩
    simp only [if_neg hf]
    cases hn : w.nodes.lookup (w.sess.nextKey cfg key block) with
    | some e =>
        by_cases ha : adoptable w.sess.sealLog e.record.safeChar
            (e.record.idsBase + e.record.ids.length) = true
        · simp only [if_pos ha]
          exact .inl ⟨_, _, rfl, .adopt hdue hr hn ha⟩
        · simp only [if_neg ha]
          exact .inl ⟨_, _, rfl, .mismatch hdue hr hn⟩
    | none =>
        by_cases hs : w.sess.safeChar > w.sess.nextEnd cfg
        · simp only [if_pos hs]
          exact .inr ⟨_, rfl, hdue, .safePast hs⟩
        simp only [if_neg hs]
        cases ht : textRange w.sess w.sess.safeChar (w.sess.nextEnd cfg) with
        | error e => exact .inr ⟨e, rfl, hdue, .tailRange (not_lt.mp hs) ht⟩
        | ok textTail =>
          simp only [ok_bind]
          by_cases hb : utf8Len textTail > cfg.nodeTailCapBytes
          · simp only [if_pos hb]
            exact .inl ⟨_, _, rfl, .oversize hdue hr hn ht hb⟩
          simp only [if_neg hb]
          by_cases hi : w.sess.chainBaseIdx > w.sess.sealedIds.len
          · simp only [if_pos hi]
            exact .inr ⟨_, rfl, hdue, .basePast hi⟩
          simp only [if_neg hi]
          cases hc : NodeEntry.create (w.sess.nextNode cfg key block textTail) with
          | error e => exact .inr ⟨e, rfl, hdue, .refused hr hn ht (not_lt.mp hb) hc⟩
          | ok e => exact .inl ⟨_, _, rfl,
              .publish hdue hr hn (not_lt.mp hs) ht (not_lt.mp hb) (not_lt.mp hi) hc⟩

/-- A round that goes on has passed exactly one block. -/
theorem BlockRound.nextEnd_le {w w' : Work} (h : BlockRound cfg key w true w') :
    w'.sess.blocksEnd = w.sess.nextEnd cfg ∧ w.sess.nextEnd cfg ≤ w.sess.totalChars ∧
      w'.sess.totalChars = w.sess.totalChars := by
  cases h with
  | adopt due => exact ⟨rfl, due.2, rfl⟩
  | publish due => exact ⟨rfl, due.2, rfl⟩

/-- A round that stops leaves no complete block. -/
theorem BlockRound.not_due {w w' : Work} (h : BlockRound cfg key w false w') :
    ¬w'.sess.BlockDue cfg := by
  cases h with
  | idle h => exact h
  | mismatch => exact fun h => Bool.noConfusion h.1
  | oversize => exact fun h => Bool.noConfusion h.1

/-! ## The loop -/

/-- What every round preserves holds after the loop. The loop returns when no block is
complete; when it fails, the round that failed starts in the state it leaves. -/
theorem wp_sealBlocksLoop {I : Work → Prop} (hB : 0 < cfg.blockChars)
    (step : ∀ {w more w'}, I w → BlockRound cfg key w more w' → I w') (fuel : ℕ) {w : Work}
    (hI : I w) (hfuel : w.sess.totalChars < w.sess.blocksEnd + fuel) :
    wp (sealBlocksLoop cfg key fuel) (fun _ w' => I w' ∧ ¬w'.sess.BlockDue cfg)
      (fun e w' => I w' ∧ sealBlock cfg key w' = .error e ∧ w'.sess.BlockDue cfg ∧
        BlockFault cfg key w') w := by
  induction fuel generalizing w with
  | zero =>
      have hdue : ¬w.sess.BlockDue cfg := fun h => by
        have := h.2
        simp only [Session.nextEnd] at this
        omega
      exact ⟨hI, hdue⟩
  | succ fuel ih =>
      simp only [sealBlocksLoop, wp_bind, wp_get, wp_fromExcept]
      obtain ⟨more, w', hr, hround⟩ | ⟨e, hr, hdue, hfault⟩ := sealBlock_cases w
      · refine ⟨fun a ha => ?_, fun e he => by rw [hr] at he; cases he⟩
        rw [hr] at ha
        cases ha
        simp only [wp_set]
        cases more with
        | true =>
            obtain ⟨hend, hle, htotal⟩ := hround.nextEnd_le
            have hnext : w.sess.nextEnd cfg = w.sess.blocksEnd + cfg.blockChars := rfl
            exact ih (step hI hround) (by omega)
        | false =>
            simp only [Bool.false_eq_true, if_false, wp_pure]
            exact ⟨step hI hround, hround.not_due⟩
      · refine ⟨fun a ha => absurd ha (by simp [hr]), fun e' he => ?_⟩
        rw [hr] at he
        cases he
        exact ⟨hI, hr, hdue, hfault⟩

theorem wp_sealBlocks {I : Work → Prop} (hB : 0 < cfg.blockChars)
    (step : ∀ {w more w'}, I w → BlockRound cfg key w more w' → I w') {w : Work} (hI : I w) :
    wp (sealBlocks cfg key) (fun _ w' => I w' ∧ ¬w'.sess.BlockDue cfg)
      (fun e w' => I w' ∧ sealBlock cfg key w' = .error e ∧ w'.sess.BlockDue cfg ∧
        BlockFault cfg key w') w := by
  simp only [sealBlocks, wp_bind, wp_get]
  exact wp_sealBlocksLoop hB step _ hI (by omega)

end Rounds

/-! ## Frames -/

/-- The two sessions differ at most in the fields of the block chain. -/
def SameButChain (s s' : Session) : Prop :=
  s' = { s with
    blocksEnd := s'.blocksEnd, blocksEndByte := s'.blocksEndByte, buf := s'.buf
    chainTail := s'.chainTail, chainBaseSafe := s'.chainBaseSafe
    chainBaseIdx := s'.chainBaseIdx, chainOk := s'.chainOk }

theorem SameButChain.refl (s : Session) : SameButChain s s := rfl

theorem SameButChain.trans {s s' s'' : Session} (h : SameButChain s s') (h' : SameButChain s' s'') :
    SameButChain s s'' := by
  unfold SameButChain at *
  rw [h', h]

section

variable [Digests] {cfg : StoreConfig} {key : KeyCtx}

/-- A round touches the chain fields only. -/
theorem BlockRound.sameButChain {w w' : Work} {more : Bool} (h : BlockRound cfg key w more w') :
    SameButChain w.sess w'.sess := by
  cases h <;> rfl

/-- The block loop touches the chain fields only, on either exit. -/
theorem wp_sealBlocks_frame (hB : 0 < cfg.blockChars) (w : Work) :
    wp (sealBlocks cfg key) (fun _ w' => SameButChain w.sess w'.sess)
      (fun _ w' => SameButChain w.sess w'.sess) w :=
  wp_mono (wp_sealBlocks (I := fun w' => SameButChain w.sess w'.sess) hB
      (fun hI hr => hI.trans hr.sameButChain) (SameButChain.refl _))
    (fun _ _ h => h.1) (fun _ _ h => h.1)

end

/-! ## One seal -/

/-- The two windows of a shared tail are its head and its rest. -/
theorem splitShared_ok {tail : TailState} {k : ℕ} {shared : Option (SharedIds × SharedIds)}
    (h : splitShared tail k = .ok shared) :
    ∀ p ∈ shared, p.1.asSlice = tail.ids.take k ∧ p.2.asSlice = tail.ids.drop k := by
  unfold splitShared at h
  cases hs : tail.sharedIds with
  | none =>
      rw [hs] at h
      cases h
      simp
  | some view =>
      have hids : tail.ids = view.asSlice := by
        unfold TailState.sharedIds at hs
        unfold TailState.ids TailIds.asSlice
        split at hs <;> simp_all
      rw [hs] at h
      obtain ⟨head, hhead, h⟩ := bind_eq_ok.mp h
      obtain ⟨rest, hrest, h⟩ := bind_eq_ok.mp h
      cases h
      obtain ⟨-, -, hh⟩ := SharedIds.slice_ok hhead
      obtain ⟨-, -, hr⟩ := SharedIds.slice_ok hrest
      rintro p hp
      cases hp
      refine ⟨by rw [hh, hids, List.drop_zero], ?_⟩
      rw [hr, ← hids, TailState.nTokens, List.take_length]

/-- What the checks before a seal have established. -/
theorem checkCut_ok {tail : TailState} {cut : BoundaryCut} {starts ends : List ℕ}
    {shared : Option (SharedIds × SharedIds)}
    (h : checkCut tail cut = .ok (starts, ends, shared)) :
    (cut.cutChar < 2 ^ 32 ∧ 0 < cut.cutTokens ∧ cut.cutTokens < tail.nTokens) ∧
      splitShared tail cut.cutTokens = .ok shared ∧
      starts = tail.spanStarts.drop cut.cutTokens ∧ ends = tail.spanEnds.drop cut.cutTokens := by
  unfold checkCut at h
  split at h
  · cases h
  split at h
  · cases h
  rename_i hchar htok
  have htok : 0 < cut.cutTokens ∧ cut.cutTokens < tail.nTokens := by omega
  obtain ⟨⟨winStarts, winEnds⟩, hwin, h⟩ := bind_eq_ok.mp h
  have hspan : winStarts = (tail.spanStarts.take tail.nTokens).drop (cut.cutTokens - 1) ∧
      winEnds = (tail.spanEnds.take tail.nTokens).drop (cut.cutTokens - 1) := by
    unfold TailState.spanWindow at hwin
    rw [if_neg (by omega)] at hwin
    cases hwin
    exact ⟨rfl, rfl⟩
  have hstarts : tail.spanStarts.take tail.nTokens = tail.spanStarts :=
    List.take_of_length_le tail.starts_length.le
  have hends : tail.spanEnds.take tail.nTokens = tail.spanEnds :=
    List.take_of_length_le tail.ends_length.le
  have hone : cut.cutTokens - 1 + 1 = cut.cutTokens := by omega
  simp only at h
  split_ifs at h
  obtain ⟨sh, hsh, h⟩ := bind_eq_ok.mp h
  cases h
  refine ⟨⟨by omega, htok⟩, hsh, ?_, ?_⟩
  · rw [hspan.1, hstarts, List.drop_drop, hone]
  · rw [hspan.2, hends, List.drop_drop, hone]

/-- The session a seal at `cut` leaves: the head of the tail is now the end of the
sealed stream, with its ids fed to the payload state and its text to the buffer. -/
structure SealedAt (cut : BoundaryCut) (s s' : Session) : Prop where
  shape : s' = { s with
    sealedPayload := s.sealedPayload.updateIds (s.tail.ids.take cut.cutTokens)
    sealedIds := s'.sealedIds
    buf := if s.chainOk then
        s.buf ++ (s.tail.text.take cut.cutChar).drop (s.blocksEnd - s.safeChar)
      else s.buf
    safeChar := s.safeChar + cut.cutChar
    safeByte := s.safeByte + utf8Len (s.tail.text.take cut.cutChar)
    sealLog := s.sealLog ++ [(s.safeChar + cut.cutChar, s'.sealedIds.len)]
    sealedText := s.sealedText ++ s.tail.text.take cut.cutChar
    tail := s'.tail }
  ids : s'.sealedIds.ids = s.sealedIds.ids ++ s.tail.ids.take cut.cutTokens
  tail_ids : s'.tail.ids = s.tail.ids.drop cut.cutTokens
  tail_text : s'.tail.text = s.tail.text.drop cut.cutChar
  tokens : 0 < cut.cutTokens ∧ cut.cutTokens < s.tail.nTokens
  char_lt : cut.cutChar < 2 ^ 32

theorem rebase_ok {tail t : TailState} {cut : BoundaryCut} {starts ends : List ℕ}
    {rest : Option SharedIds} (h : rebase tail cut starts ends rest = .ok t)
    (hrest : ∀ view ∈ rest, view.asSlice = tail.ids.drop cut.cutTokens) :
    t.text = tail.text.drop cut.cutChar ∧ t.ids = tail.ids.drop cut.cutTokens := by
  unfold rebase at h
  cases rest with
  | none =>
      obtain ⟨htext, hids, -⟩ := TailState.build_ok h
      exact ⟨htext, by rw [TailState.ids, hids]; rfl⟩
  | some view =>
      obtain ⟨htext, hids, -⟩ := TailState.build_ok h
      exact ⟨htext, by rw [TailState.ids, hids]; exact hrest view rfl⟩

/-- A seal, for any cut: it succeeds as a seal, or it fails with nothing changed, or it
fails with the head moved and the tail not rebuilt. -/
theorem wp_sealTail (cut : BoundaryCut) (w : Work) :
    wp (sealTail cut) (fun _ w' => SealedAt cut w.sess w'.sess ∧ w'.nodes = w.nodes)
      (fun _ w' => (w'.sess = w.sess ∨ ∃ view, w'.sess = w.sess.sealHead cut view) ∧
        w'.nodes = w.nodes) w := by
  unfold sealTail
  simp only [wp_bind, wp_get, wp_fromExcept]
  refine ⟨?_, fun e _ => ⟨.inl trivial, trivial⟩⟩
  rintro ⟨starts, ends, shared⟩ hcheck
  obtain ⟨⟨hchar, htok⟩, hsplit, -, -⟩ := checkCut_ok hcheck
  have hshared := splitShared_ok hsplit
  simp only [wp_set, wp_modify]
  refine ⟨fun rebased hre => ⟨?_, trivial⟩, fun e _ => ⟨.inr ⟨_, rfl⟩, trivial⟩⟩
  have hrest : ∀ view ∈ shared.map Prod.snd, view.asSlice = w.sess.tail.ids.drop cut.cutTokens := by
    intro view hview
    obtain ⟨p, hp, rfl⟩ := Option.mem_map.mp hview
    exact (hshared p hp).2
  obtain ⟨htext, hids⟩ := rebase_ok hre hrest
  cases shared with
  | none => exact ⟨rfl, by simp [Session.sealHead], hids, htext, htok, hchar⟩
  | some p =>
      have hhead : p.1.asSlice = w.sess.tail.ids.take cut.cutTokens := (hshared p rfl).1
      refine ⟨?_, by simp [Session.sealHead, hhead], hids, htext, htok, hchar⟩
      simp only [Session.sealHead, Option.map_some, hhead]

/-! ## The bookkeeping as a whole -/

/-- Both sessions are at the same revision of the same lineage: they differ at most in
how stream and text are spread over the sealed part, the tail and the chain. -/
def SameLedger (s s' : Session) : Prop :=
  s' = { s with
    totalChars := s'.totalChars, safeChar := s'.safeChar, safeByte := s'.safeByte
    sealedIds := s'.sealedIds, sealedPayload := s'.sealedPayload
    blocksEnd := s'.blocksEnd, blocksEndByte := s'.blocksEndByte, buf := s'.buf
    chainTail := s'.chainTail, chainBaseSafe := s'.chainBaseSafe
    chainBaseIdx := s'.chainBaseIdx, chainOk := s'.chainOk, sealLog := s'.sealLog
    scanFloor := s'.scanFloor, tail := s'.tail, sealedText := s'.sealedText }

namespace SameLedger

variable {s s' s'' : Session}

theorem refl (s : Session) : SameLedger s s := rfl

theorem trans (h : SameLedger s s') (h' : SameLedger s' s'') : SameLedger s s'' := by
  unfold SameLedger at *
  rw [h', h]

theorem of_chain (h : SameButChain s s') : SameLedger s s' := by
  unfold SameButChain at h
  rw [h]
  rfl

theorem of_sealedAt {cut : BoundaryCut} (h : SealedAt cut s s') : SameLedger s s' := by
  rw [h.shape]
  rfl

theorem keyId (h : SameLedger s s') : s'.keyId = s.keyId := by rw [h]
theorem witness (h : SameLedger s s') : s'.witness = s.witness := by rw [h]
theorem revision (h : SameLedger s s') : s'.revision = s.revision := by rw [h]
theorem recordHash (h : SameLedger s s') : s'.recordHash = s.recordHash := by rw [h]
theorem prevRecordHash (h : SameLedger s s') : s'.prevRecordHash = s.prevRecordHash := by rw [h]
theorem lastReplaceFrom (h : SameLedger s s') : s'.lastReplaceFrom = s.lastReplaceFrom := by rw [h]
theorem recovery (h : SameLedger s s') : s'.recovery = s.recovery := by rw [h]
theorem content (h : SameLedger s s') : s'.content = s.content := by rw [h]

end SameLedger

/-- The ids `J` and the text `T` moved from the head of the tail to the end of the sealed
stream; nothing else about stream, text and payload state changed. -/
structure Regrouped (s s' : Session) (J : List UInt32) (T : Text) : Prop where
  ledger : SameLedger s s'
  sealed_ids : s'.sealedIds.ids = s.sealedIds.ids ++ J
  tail_ids : s.tail.ids = J ++ s'.tail.ids
  payload : s'.sealedPayload = s.sealedPayload.updateIds J
  sealed_text : s'.sealedText = s.sealedText ++ T
  tail_text : s.tail.text = T ++ s'.tail.text
  safe_byte : s'.safeByte = s.safeByte + utf8Len T

namespace Regrouped

variable {s s' s'' : Session} {J J' : List UInt32} {T T' : Text}

theorem trans (h : Regrouped s s' J T) (h' : Regrouped s' s'' J' T') :
    Regrouped s s'' (J ++ J') (T ++ T') where
  ledger := h.ledger.trans h'.ledger
  sealed_ids := by rw [h'.sealed_ids, h.sealed_ids, List.append_assoc]
  tail_ids := by rw [h.tail_ids, h'.tail_ids, List.append_assoc]
  payload := by rw [h'.payload, h.payload, PayloadHasher.updateIds_append]
  sealed_text := by rw [h'.sealed_text, h.sealed_text, List.append_assoc]
  tail_text := by rw [h.tail_text, h'.tail_text, List.append_assoc]
  safe_byte := by rw [h'.safe_byte, h.safe_byte, utf8Len_append, add_assoc]

/-- Nothing moved. -/
theorem of_eq (hl : SameLedger s s') (hi : s'.sealedIds = s.sealedIds) (ht : s'.tail = s.tail)
    (hp : s'.sealedPayload = s.sealedPayload) (hx : s'.sealedText = s.sealedText)
    (hb : s'.safeByte = s.safeByte) : Regrouped s s' [] [] where
  ledger := hl
  sealed_ids := by rw [hi, List.append_nil]
  tail_ids := by rw [ht, List.nil_append]
  payload := by rw [hp, PayloadHasher.updateIds_nil]
  sealed_text := by rw [hx, List.append_nil]
  tail_text := by rw [ht, List.nil_append]
  safe_byte := by rw [hb, utf8Len_nil, add_zero]

theorem of_chain (h : SameButChain s s') : Regrouped s s' [] [] := by
  refine of_eq (.of_chain h) ?_ ?_ ?_ ?_ ?_ <;> rw [h]

theorem of_sealedAt {cut : BoundaryCut} (h : SealedAt cut s s') :
    Regrouped s s' (s.tail.ids.take cut.cutTokens) (s.tail.text.take cut.cutChar) where
  ledger := .of_sealedAt h
  sealed_ids := h.ids
  tail_ids := by rw [h.tail_ids, List.take_append_drop]
  payload := by rw [h.shape]
  sealed_text := by rw [h.shape]
  tail_text := by rw [h.tail_text, List.take_append_drop]
  safe_byte := by rw [h.shape]

/-- The full stream does not depend on where it is kept. -/
theorem allIds_eq (h : Regrouped s s' J T) : s'.allIds = s.allIds := by
  rw [Session.allIds_eq, Session.allIds_eq, h.sealed_ids, h.tail_ids, List.append_assoc]

theorem text_eq (h : Regrouped s s' J T) : s'.text = s.text := by
  rw [Session.text, Session.text, h.sealed_text, h.tail_text, List.append_assoc]

theorem tokenCount_eq (h : Regrouped s s' J T) : s'.tokenCount = s.tokenCount := by
  rw [← Session.length_allIds, ← Session.length_allIds, h.allIds_eq]

end Regrouped

/-- The payload state has been fed exactly the sealed stream. -/
def Session.PayloadFed (s : Session) : Prop :=
  s.sealedPayload = PayloadHasher.new.updateIds s.sealedIds.ids

theorem Regrouped.payloadFed {s s' : Session} {J : List UInt32} {T : Text} (h : Regrouped s s' J T)
    (hs : s.PayloadFed) : s'.PayloadFed := by
  rw [Session.PayloadFed, h.payload, hs, h.sealed_ids, PayloadHasher.updateIds_append]

/-- What a failed bookkeeping step may leave: the ledger is as it was, and no text is lost. -/
structure Disturbed (s s' : Session) : Prop where
  ledger : SameLedger s s'
  text_le : utf8Len s.text ≤ utf8Len s'.text

theorem Disturbed.refl (s : Session) : Disturbed s s := ⟨.refl s, le_rfl⟩

theorem Regrouped.disturbed_trans {s s' s'' : Session} {J : List UInt32} {T : Text}
    (h : Regrouped s s' J T) (h' : Disturbed s' s'') : Disturbed s s'' :=
  ⟨h.ledger.trans h'.ledger, by rw [← h.text_eq]; exact h'.text_le⟩

/-- A seal that stops half way has the head twice: sealed, and still in the tail. -/
theorem Disturbed.of_sealHead (s : Session) (cut : BoundaryCut) (view : Option SharedIds) :
    Disturbed s (s.sealHead cut view) where
  ledger := rfl
  text_le := by
    simp only [Session.text, Session.sealHead, utf8Len_append]
    omega

theorem wp_advanceSeal (eng : Engine) (ceil : ℕ) (w : Work) :
    wp (advanceSeal eng ceil)
      (fun _ w' => w'.nodes = w.nodes ∧
        ((∃ cut s₁, eng.lastCertifiedBoundary w.sess.tail w.sess.scanFloor ceil = .ok (some cut) ∧
            SealedAt cut w.sess s₁ ∧
            w'.sess = { s₁ with scanFloor := (ceil + 2 ^ 64 - cut.cutChar) % 2 ^ 64 }) ∨
          (eng.lastCertifiedBoundary w.sess.tail w.sess.scanFloor ceil = .ok none ∧
            w'.sess = { w.sess with scanFloor := ceil })))
      (fun _ w' => w'.nodes = w.nodes ∧ Disturbed w.sess w'.sess) w := by
  unfold advanceSeal
  simp only [wp_bind, wp_get, wp_fromExcept]
  refine ⟨fun found hfound => ?_, fun e _ => ⟨trivial, .refl _⟩⟩
  have hfound : eng.lastCertifiedBoundary w.sess.tail w.sess.scanFloor ceil = .ok found := by
    revert hfound
    cases eng.lastCertifiedBoundary w.sess.tail w.sess.scanFloor ceil <;> simp [Except.mapError]
  cases found with
  | none =>
      simp only [wp_modify]
      exact ⟨trivial, .inr ⟨hfound, trivial⟩⟩
  | some cut =>
      simp only [wp_bind, wp_modify]
      refine wp_mono (wp_sealTail cut w) ?_ ?_
      · rintro _ w' ⟨hs, hn⟩
        exact ⟨hn, .inl ⟨cut, w'.sess, hfound, hs, rfl⟩⟩
      · rintro _ w' ⟨hs | ⟨view, hs⟩, hn⟩
        · exact ⟨hn, hs ▸ .refl _⟩
        · exact ⟨hn, hs ▸ .of_sealHead _ _ _⟩

theorem wp_countSoftCap (cfg : StoreConfig) (w : Work) {Q : PUnit → Work → Prop} {R : StoreError → Work → Prop}
    (h : ∀ w', w'.sess = w.sess → w'.nodes = w.nodes → Q ⟨⟩ w') : wp (countSoftCap cfg) Q R w := by
  unfold countSoftCap
  simp only [wp_modify]
  split
  · exact h _ rfl rfl
  · exact h _ rfl rfl

theorem wp_trySeal_frame (cfg : StoreConfig) (key : KeyCtx) (eng : Engine) (w : Work) :
    wp (trySeal cfg key eng) (fun _ w' => ∃ J T, Regrouped w.sess w'.sess J T)
      (fun _ w' => Disturbed w.sess w'.sess) w := by
  unfold trySeal
  simp only [wp_bind, wp_get, wp_runIf]
  have hcap (w₂ : Work) (h₂ : ∃ J T, Regrouped w.sess w₂.sess J T) :
      wp (countSoftCap cfg) (fun _ w' => ∃ J T, Regrouped w.sess w'.sess J T)
        (fun _ w' => Disturbed w.sess w'.sess) w₂ :=
    wp_countSoftCap cfg w₂ fun w' hs _ => by rw [hs]; exact h₂
  refine ⟨fun _ => ?_, fun _ => hcap w ⟨_, _, .of_chain (.refl _)⟩⟩
  refine wp_mono (wp_advanceSeal eng _ w) ?_ (fun _ w₂ h => h.2)
  rintro _ w₂ ⟨-, ⟨cut, s₁, -, hs, hw⟩ | ⟨-, hw⟩⟩
  · have hfloor : Regrouped s₁ w₂.sess [] [] := by rw [hw]; exact .of_eq rfl rfl rfl rfl rfl rfl
    exact hcap w₂ ⟨_, _, (Regrouped.of_sealedAt hs).trans hfloor⟩
  · exact hcap w₂ ⟨_, _, by rw [hw]; exact .of_eq rfl rfl rfl rfl rfl rfl⟩

section

variable [Digests] (cfg : StoreConfig) (key : KeyCtx) (eng : Engine)

/-- Any engine, any state: the bookkeeping that succeeds only regroups the session, and
one that fails loses neither text nor ledger. -/
theorem wp_postTextOps_frame (hB : 0 < cfg.blockChars) (w : Work) :
    wp (postTextOps cfg key eng) (fun _ w' => ∃ J T, Regrouped w.sess w'.sess J T)
      (fun _ w' => Disturbed w.sess w'.sess) w := by
  unfold postTextOps
  simp only [wp_bind, wp_modify, wp_get, wp_runIf]
  have hrecount : Regrouped w.sess w.sess.recount [] [] := .of_eq rfl rfl rfl rfl rfl rfl
  -- Whatever the block loop did, it moved the chain alone.
  have hseal (w₁ : Work) (h₁ : Regrouped w.sess w₁.sess [] []) :
      wp (trySeal cfg key eng) (fun _ w' => ∃ J T, Regrouped w.sess w'.sess J T)
        (fun _ w' => Disturbed w.sess w'.sess) w₁ :=
    wp_mono (wp_trySeal_frame cfg key eng w₁) (fun _ _ h => h.imp fun _ h => h.imp fun _ h => h₁.trans h)
      (fun _ _ h => h₁.disturbed_trans h)
  refine ⟨fun _ => ?_, fun _ => hseal { w with sess := w.sess.recount } hrecount⟩
  refine wp_mono (wp_sealBlocks_frame hB _) (fun _ w₁ h => ?_) (fun _ w₁ h => ?_)
  · exact hseal w₁ (hrecount.trans (.of_chain h))
  · exact (hrecount.trans (.of_chain h)).disturbed_trans (.refl _)

end

end Toktier.StoreCore
