import Toktier.StoreCore.Sealing
import Mathlib.Data.List.MinMax
import Mathlib.Data.Prod.Lex

/-!
# The session store

Append-only sessions behind handles, a shared table of chain nodes, and the
operations on them. An operation that fails leaves the store as far as it had come.

## Main definitions

* `Store`, with its configuration checked at construction.
* `Store.put`, `Store.appendPatch`, `Store.append`, `Store.lookup`, `Store.fork`,
  `Store.evict`, `Store.readAllIds`.
* `verifyAppendShape`: the structural check of an engine's append.
-/
namespace Toktier.StoreCore

open Toktier.Lib

/-! ## The store -/

/-- A worker that overlaps the content scan of a seed with its encode. The scan's result
is the same wherever it runs; what matters is how often the encode is run. -/
structure OverlapRunner where
  foregroundRuns : ℕ
  deriving DecidableEq

/-- In-memory session store. -/
structure Store where
  cfg : StoreConfig
  cfg_ok : cfg.validate = .ok ()
  recoveryTracking : Bool
  contentTracking : Bool
  seedOverlap : Option OverlapRunner
  keys : List KeyCtx
  nodes : Table BlockHash NodeEntry
  sessions : Table ℕ Session
  nextHandle : ℕ
  clock : ℕ
  stats : Stats

theorem Store.blockChars_pos (S : Store) : 0 < S.cfg.blockChars :=
  (StoreConfig.validate_eq_ok.mp S.cfg_ok).1

theorem Store.maxSessions_pos (S : Store) : 0 < S.cfg.maxSessions :=
  (StoreConfig.validate_eq_ok.mp S.cfg_ok).2.2

/-- New store with the given configuration. -/
def Store.new (cfg : StoreConfig) : Except StoreError Store :=
  match h : cfg.validate with
  | .ok () => .ok
      { cfg, cfg_ok := h, recoveryTracking := false, contentTracking := false, seedOverlap := none,
        keys := [], nodes := ∅, sessions := ∅, nextHandle := 1, clock := 0, stats := .zero }
  | .error e => .error e

structure PutOutcome where
  handle : ℕ
  revision : ℕ
  tokenCount : ℕ
  deriving DecidableEq

structure AppendPatchOutcome where
  path : String
  revision : ℕ
  /-- Number of tokens of the old stream that remain. -/
  replaceFrom : ℕ
  replacementIds : List UInt32
  tokenCount : ℕ
  deriving DecidableEq

structure AppendOutcome where
  path : String
  revision : ℕ
  replaceFrom : ℕ
  replacementIds : List UInt32
  allIds : List UInt32
  deriving DecidableEq

structure LookupHit where
  handle : ℕ
  matchedChars : ℕ
  revision : ℕ
  deriving DecidableEq

/-! ## Verification of an append -/

/-- The text grew by exactly `delta`, and the kept tokens are the old ones. -/
def verifyAppendShape (tail : TailState) (oldTextLen : ℕ) (delta : Text) (oldIds : List UInt32)
    (keptTokens : ℕ) : Except StoreError Unit :=
  if delta = [] then .ok ()
  else if tail.textBytes ≠ oldTextLen + utf8Len delta ∨ ¬delta <:+ tail.text then
    .error (.Engine "append contract violation: tail text is not old text + delta")
  else if keptTokens > oldIds.length ∨ keptTokens > tail.nTokens ∨
      tail.ids.take keptTokens ≠ oldIds.take keptTokens then
    .error (.Engine "append contract violation: kept token prefix does not match")
  else .ok ()

section Operations

variable [Digests]

/-! ## Appending to one session -/

section AppendOne

variable (cfg : StoreConfig) (key : KeyCtx) (eng : Engine)

/-- Grow the tail by `delta`: path label, kept tokens, and the tail that is left. Above
the hard cap the tail and `delta` are encoded afresh. -/
def growTail (tail : TailState) (delta : Text) : Except StoreError (String × ℕ) × TailState :=
  if delta = [] then (.ok ("noop", tail.nTokens), tail)
  else if tail.textBytes > cfg.tailHardCapBytes then
    match eng.encodeStore (tail.text ++ delta) with
    | .error e => (.error e, tail)
    | .ok enc =>
        match TailState.fill (tail.text ++ delta) enc with
        | .error e => (.error e, tail)
        | .ok tail' => (.ok ("degraded_full_reencode", 0), tail')
  else
    match eng.append tail delta with
    | (.error e, tail') => (.error e.toStoreError, tail')
    | (.ok report, tail') => (.ok (report.path, report.keptTokens), tail')

/-- Advance the recovery digest, when it is kept. -/
def feedRecovery (delta : Text) : Fallible Work StoreError Unit := do
  let w ← get
  match w.sess.recovery with
  | none => pure ()
  | some d => do
      let d' ← fromExcept (d.append delta)
      set { w with sess := { w.sess with recovery := some d' } }

/-- Advance the content digest, when it is kept. -/
def feedContent (delta : Text) : Fallible Work StoreError Unit := do
  let w ← get
  match w.sess.content with
  | none => pure ()
  | some d =>
      zoomIn (fun _ => d) (fun d' w => { w with sess := { w.sess with content := some d' } })
        (ContentDigest.append (utf8 delta))

/-- The next revision over the current contents. -/
def Session.commit (s : Session) (fingerprint : SemanticFingerprint) (replaceFrom : ℕ) : Session :=
  let next := { s with
    revision := s.revision + 1
    prevRecordHash := s.recordHash
    lastReplaceFrom := replaceFrom }
  { next with recordHash := next.commitHash fingerprint }

/-- The stream from an absolute index on, over the sealed parts and the tail. -/
def Session.suffixFrom (s : Session) (replace : ℕ) : List UInt32 :=
  if replace < s.sealedIds.len then s.sealedIds.suffixToVec replace ++ s.tail.ids
  else s.tail.ids.drop (replace - s.sealedIds.len)

/-- The outcome of a committed append. -/
def appendOutcome (path : String) (replaceFrom : ℕ) :
    Fallible Work StoreError AppendPatchOutcome := do
  let w ← get
  let sess := w.sess
  throwIf (replaceFrom > sess.tokenCount) (internal "replace_from exceeds the new token count")
  return { path, revision := sess.revision, replaceFrom,
           replacementIds := sess.suffixFrom replaceFrom, tokenCount := sess.tokenCount }

/-- Count a finished append under its path label. -/
def countPath (path : String) : Fallible Work StoreError Unit :=
  modify fun w =>
    let stats := if path = "degraded_full_reencode" then
        { w.stats with hardCapDegrades := w.stats.hardCapDegrades + 1 }
      else w.stats
    { w with stats := stats.bumpPath path }

/-- What follows once the grown tail is accepted: bookkeeping, counters, digests. -/
def settleAppend (path : String) (delta : Text) : Fallible Work StoreError Unit := do
  runIf (delta ≠ []) (postTextOps cfg key eng)
  countPath path
  feedRecovery delta
  feedContent delta

/-- Touch the session; a delta that changes the stream invalidates the row snapshot. -/
def Session.openAppend (s : Session) (clock : ℕ) (delta : Text) : Session :=
  let touched := { s with lastUsed := clock }
  if delta = [] then touched else touched.bumpIdsGeneration

/-- The part of an append that works on its session. -/
def appendSession (clock : ℕ) (delta : Text) : Fallible Work StoreError AppendPatchOutcome := do
  let w ← get
  let old := w.sess
  let grown := growTail cfg eng old.tail delta
  set { w with sess := { old.openAppend clock delta with tail := grown.2 } }
  let (path, keptTokens) ← fromExcept grown.1
  fromExcept (verifyAppendShape grown.2 old.tail.textBytes delta old.tail.ids keptTokens)
  settleAppend cfg key eng path delta
  let replaceFrom := old.sealedIds.len + keptTokens
  modify fun w => { w with sess := w.sess.commit key.fingerprint replaceFrom }
  appendOutcome path replaceFrom

/-- Compute a value that is tracked only on demand. -/
def optionally {α : Type} (wanted : Bool) (x : Except StoreError α) :
    Except StoreError (Option α) :=
  if wanted then x.map some else .ok none

/-- Run the seed encode `runs` times: its last result, and the tail it left. `runs` is one
but for an overlap runner that breaks its contract. -/
def seedEncode (runs : ℕ) (text : Text) (tail : TailState) :
    Option (Except EngineError AppendReport) × TailState :=
  (fun g =>
    let (r, tail) := eng.append g.2 text
    (some r, tail))^[runs] (none, tail)

/-- Seed a fresh session with `text`. -/
def seedText (runs : ℕ) (text : Text) : Fallible Work StoreError Unit := do
  let w ← get
  let grown := seedEncode eng runs text w.sess.tail
  modify fun w => { w with sess := { w.sess with tail := grown.2 } }
  match grown.1 with
  | none => throw (internal "the overlap runner skipped the foreground encode")
  | some (.error e) => throw e.toStoreError
  | some (.ok report) => do
      fromExcept (verifyAppendShape grown.2 0 text [] report.keptTokens)
      modify fun w => { w with stats := w.stats.bumpPath report.path }
      postTextOps cfg key eng

/-- Digests of a text that is known in full, as far as the store tracks them. -/
def trackText (recoveryTracking contentTracking : Bool) (text : Text) :
    Except StoreError (Option RecoveryDigest × Option ContentDigest) := do
  let recovery ← optionally recoveryTracking (RecoveryDigest.fromText text)
  let content ← optionally contentTracking (ContentDigest.fromBytes (utf8 text))
  return (recovery, content)

/-- Everything `put` does to the session it is building. -/
def seedSession (recoveryTracking contentTracking : Bool) (runs : ℕ) (text : Text) :
    Fallible Work StoreError Session := do
  runIf (text ≠ []) (seedText cfg key eng runs text)
  let (recovery, content) ← fromExcept (trackText recoveryTracking contentTracking text)
  let w ← get
  let sess := { w.sess with recovery, content }
  return { sess with recordHash := sess.commitHash key.fingerprint }

end AppendOne

namespace Store

/-! ## Small operations -/

def keyCtx (keyId : ℕ) : Fallible Store StoreError KeyCtx := do
  let S ← get
  match S.keys[keyId]? with
  | some key => pure key
  | none => throw (.UnknownKey keyId)

def session (handle : ℕ) : Fallible Store StoreError Session := do
  let S ← get
  match S.sessions.lookup handle with
  | some sess => pure sess
  | none => throw (.UnknownSession handle)

def tick (S : Store) : Store := { S with clock := S.clock + 1 }

/-- The least recently used session; ties break toward the smallest handle. -/
def lruHandle (S : Store) : Option ℕ :=
  (S.sessions.entries.argmin fun e => toLex (e.2.lastUsed, e.1)).map Sigma.fst

/-- Evict one session at a time until a slot is free. -/
def evictLoop : ℕ → Store → Store
  | 0, S => S
  | fuel + 1, S =>
      if S.sessions.entries.length < S.cfg.maxSessions then S
      else
        match S.lruHandle with
        | none => S
        | some h => evictLoop fuel { S with
            sessions := S.sessions.erase h
            stats := { S.stats with sessionsEvicted := S.stats.sessionsEvicted + 1 } }

/-- Make room for one session. -/
def evictForCapacity (S : Store) : Store := evictLoop S.sessions.entries.length S

def insertSession (sess : Session) : Fallible Store StoreError ℕ := do
  let S ← get
  set { S with nextHandle := S.nextHandle + 1, sessions := S.sessions.insert S.nextHandle sess }
  return S.nextHandle

/-- The store with a session, the nodes and the counters put back. -/
def putBack (S : Store) (handle : ℕ) (w : Work) : Store :=
  { S with nodes := w.nodes, stats := w.stats, sessions := S.sessions.insert handle w.sess }

/-- Work on the session behind `handle`, the nodes and the counters, in place. -/
def onSession {α : Type} (handle : ℕ) (m : Fallible Work StoreError α) :
    Fallible Store StoreError α := do
  let sess ← session handle
  zoomIn (fun S => Work.mk sess S.nodes S.stats) (fun w S => S.putBack handle w) m

/-- The store with the nodes and the counters put back. -/
def putBackShared (S : Store) (w : Work) : Store := { S with nodes := w.nodes, stats := w.stats }

/-- Work on a session that is not in the store yet. -/
def onFresh {α : Type} (sess : Session) (m : Fallible Work StoreError α) :
    Fallible Store StoreError α :=
  zoomIn (fun S => Work.mk sess S.nodes S.stats) (fun w S => S.putBackShared w) m

/-- Intern a fingerprint; registering it again with a different guard is an error. -/
def registerFingerprint (fingerprint : SemanticFingerprint) (sealEndGuardChars : ℕ) :
    Fallible Store StoreError ℕ := do
  let S ← get
  let ix := S.keys.findIdx fun k => k.fingerprint = fingerprint
  match S.keys[ix]? with
  | some k => do
      throwIf (k.sealGuardChars ≠ sealEndGuardChars) .GuardMismatch
      return ix
  | none => do
      throwIf (2 ^ 32 ≤ S.keys.length) (.InvalidInput "key table full")
      set { S with keys := S.keys ++ [KeyCtx.mk fingerprint sealEndGuardChars] }
      return S.keys.length

def enableRecoveryTracking : Fallible Store StoreError Unit := do
  let S ← get
  throwIf (S.sessions.entries ≠ [])
    (.InvalidInput "recovery tracking must be enabled before sessions exist")
  set { S with recoveryTracking := true }

def enableContentTracking : Fallible Store StoreError Unit := do
  let S ← get
  throwIf (S.sessions.entries ≠ [])
    (.InvalidInput "content tracking must be enabled before sessions exist")
  set { S with contentTracking := true }

def setSeedOverlap (runner : Option OverlapRunner) : Fallible Store StoreError Unit :=
  modify fun S => { S with seedOverlap := runner }

/-! ## put -/

/-- How often the seed encode runs: an overlap runner is used only with content tracking. -/
def seedRuns (S : Store) : ℕ :=
  match S.seedOverlap with
  | some runner => if S.contentTracking then runner.foregroundRuns else 1
  | none => 1

def countPut (S : Store) : Store := { S with stats := { S.stats with puts := S.stats.puts + 1 } }

/-- Full encode of `text` into a new session at revision 0. -/
def put (keyId : ℕ) (text : Text) (eng : Engine) : Fallible Store StoreError PutOutcome := do
  let key ← keyCtx keyId
  modify fun S => S.tick.evictForCapacity
  modify countPut
  let S ← get
  let sess ← onFresh (.fresh keyId eng.witnessCategory S.clock)
    (seedSession S.cfg key eng S.recoveryTracking S.contentTracking S.seedRuns text)
  let handle ← insertSession sess
  return { handle, revision := 0, tokenCount := sess.tokenCount }

/-! ## append -/

def countConflict (S : Store) : Store :=
  { S with stats := { S.stats with revisionConflicts := S.stats.revisionConflicts + 1 } }

def countExtend (S : Store) : Store :=
  { S with stats := { S.stats with extends_ := S.stats.extends_ + 1 } }

/-- The gates of an append. A revision conflict is counted. -/
def appendGate (handle : ℕ) (expectedRevision : ℕ) (eng : Engine) :
    Fallible Store StoreError KeyCtx := do
  let sess ← session handle
  let key ← keyCtx sess.keyId
  throwIf (sess.witness ≠ eng.witnessCategory)
    (.WitnessCategoryMismatch sess.witness eng.witnessCategory)
  runIf (sess.revision ≠ expectedRevision) (modify countConflict)
  throwIf (sess.revision ≠ expectedRevision) (.RevisionConflict expectedRevision sess.revision)
  return key

/-- Certified append returning only the replacement suffix. -/
def appendPatch (handle : ℕ) (delta : Text) (expectedRevision : ℕ) (eng : Engine) :
    Fallible Store StoreError AppendPatchOutcome := do
  let key ← appendGate handle expectedRevision eng
  modify fun S => S.tick.countExtend
  let S ← get
  onSession handle (appendSession S.cfg key eng S.clock delta)

/-- Certified append. -/
def append (handle : ℕ) (delta : Text) (expectedRevision : ℕ) (eng : Engine) :
    Fallible Store StoreError AppendOutcome := do
  let patch ← appendPatch handle delta expectedRevision eng
  let sess ← session handle
  return { path := patch.path, revision := patch.revision, replaceFrom := patch.replaceFrom,
           replacementIds := patch.replacementIds, allIds := sess.allIds }

end Store

/-! ## lookup -/

/-- The complete blocks of a text. -/
def blockSlices (text : Text) (blockChars : ℕ) : List Text :=
  (List.range (text.length / blockChars)).map fun i => (text.drop (i * blockChars)).take blockChars

/-- How far a walk down the chain has verified. -/
structure Walk where
  parent : Option BlockHash
  cumSafe : ℕ
  cumIdx : ℕ
  cumEndByte : ℕ
  /-- The verified nodes, root first. -/
  path : List (BlockHash × NodeCacheRecord)

def Walk.start : Walk := ⟨none, 0, 0, 0, []⟩

/-- Extend the walk by a verified node. -/
def Walk.extend (wk : Walk) (key : BlockHash) (r : NodeCacheRecord) : Walk where
  parent := some key
  cumSafe := r.safeChar
  cumIdx := wk.cumIdx + r.ids.length
  cumEndByte := r.endByte
  path := wk.path ++ [(key, r)]

/-- The checks every node on the walk passes. -/
def Walk.accepts (wk : Walk) (fingerprint : SemanticFingerprint) (witness : WitnessCategory)
    (blockChars index : ℕ) (e : NodeEntry) : Bool :=
  e.verify && decide (e.record.fingerprint = fingerprint ∧ e.record.witness = witness ∧
    e.record.parent = wk.parent ∧ e.record.blockIndex = index ∧
    e.record.endChar = (index + 1) * blockChars ∧ wk.cumSafe ≤ e.record.safeChar ∧
    e.record.safeChar ≤ (index + 1) * blockChars ∧ e.record.idsBase = wk.cumIdx ∧
    wk.cumEndByte < e.record.endByte)

/-- Walk the chain over the blocks of a query, from block `index` on. The flag tells
that a node was rejected. -/
def walkBlocks (nodes : Table BlockHash NodeEntry) (fingerprint : SemanticFingerprint)
    (witness : WitnessCategory) (blockChars : ℕ) : ℕ → List Text → Walk → Walk × Bool
  | _, [], wk => (wk, false)
  | index, block :: rest, wk =>
      let keyHash := nodeKey wk.parent fingerprint index (utf8 block)
      match nodes.lookup keyHash with
      | none => (wk, false)
      | some entry =>
          if wk.accepts fingerprint witness blockChars index entry then
            walkBlocks nodes fingerprint witness blockChars (index + 1) rest
              (wk.extend keyHash entry.record)
          else (wk, true)

/-- The session a hit materializes, before its digests and its hash. -/
def adoptedSession (keyId : ℕ) (witness : WitnessCategory) (clock : ℕ) (wk : Walk)
    (deepKey : BlockHash) (deep : NodeCacheRecord) (tail : TailState) (query : Text) : Session :=
  let sealedIds := wk.path.flatMap fun p => p.2.ids
  { Session.fresh keyId witness clock with
    totalChars := deep.endChar
    safeChar := deep.safeChar
    safeByte := deep.endByte - tail.textBytes
    sealedPayload := PayloadHasher.new.updateIds sealedIds
    sealedIds := .fromVec sealedIds
    blocksEnd := deep.endChar
    blocksEndByte := deep.endByte
    chainTail := some deepKey
    chainBaseSafe := deep.safeChar
    chainBaseIdx := wk.cumIdx
    sealLog := if deep.safeChar > 0 then [(0, 0), (deep.safeChar, wk.cumIdx)] else [(0, 0)]
    tail
    sealedText := query.take deep.safeChar }

/-- The digests of the matched part of a query. -/
def trackQuery (recoveryTracking contentTracking : Bool) (query : Text) (endChar : ℕ) :
    Except StoreError (Option RecoveryDigest × Option ContentDigest) :=
  if (recoveryTracking ∨ contentTracking) ∧ query.length < endChar then
    .error (internal "character offset exceeds text length")
  else trackText recoveryTracking contentTracking (query.take endChar)

namespace Store

def countLookup (S : Store) : Store :=
  { S with stats := { S.stats with lookups := S.stats.lookups + 1 } }

def countMiss (S : Store) : Store :=
  { S with stats := { S.stats with lookupMisses := S.stats.lookupMisses + 1 } }

def countHit (S : Store) : Store :=
  { S with stats := { S.stats with lookupHits := S.stats.lookupHits + 1 } }

def countChecksumReject (S : Store) : Store :=
  { S with stats := { S.stats with checksumRejects := S.stats.checksumRejects + 1 } }

/-- Materialize a session from the deepest node of a walk. -/
def adopt (keyId : ℕ) (key : KeyCtx) (text : Text) (eng : Engine) (wk : Walk)
    (deepKey : BlockHash) (deep : NodeCacheRecord) : Fallible Store StoreError LookupHit := do
  let enc ← fromExcept (eng.encodeStore deep.textTail)
  let tail ← fromExcept (TailState.fill deep.textTail enc)
  modify fun S => S.tick.evictForCapacity
  let S ← get
  throwIf (deep.endByte < tail.textBytes) (internal "node byte accounting underflow")
  let sess := adoptedSession keyId eng.witnessCategory S.clock wk deepKey deep tail text
  let (recovery, content) ← fromExcept
    (trackQuery S.recoveryTracking S.contentTracking text deep.endChar)
  let sess := { sess with recovery, content }
  let handle ← insertSession { sess with recordHash := sess.commitHash key.fingerprint }
  modify countHit
  return { handle, matchedChars := deep.endChar, revision := 0 }

/-- Longest block-prefix hit for `text`, as a fresh session over the deepest verified node. -/
def lookup (keyId : ℕ) (text : Text) (eng : Engine) :
    Fallible Store StoreError (Option LookupHit) := do
  let key ← keyCtx keyId
  modify countLookup
  let S ← get
  let (wk, rejected) := walkBlocks S.nodes key.fingerprint eng.witnessCategory S.cfg.blockChars 0
    (blockSlices text S.cfg.blockChars) .start
  runIf (rejected = true) (modify countChecksumReject)
  match wk.path.getLast? with
  | none => do
      modify countMiss
      return none
  | some (deepKey, deep) => some <$> adopt keyId key text eng wk deepKey deep

/-! ## fork, evict, read -/

def countFork (S : Store) : Store :=
  { S with stats := { S.stats with forks := S.stats.forks + 1 } }

/-- The copy of a session that starts a new lineage. -/
def forkOf (sess : Session) (key : KeyCtx) (clock : ℕ) : Session :=
  let cloned := { sess with
    revision := 0
    prevRecordHash := ZERO_HASH
    recordHash := ZERO_HASH
    lastReplaceFrom := 0
    lastUsed := clock }
  { cloned with recordHash := cloned.commitHash key.fingerprint }

/-- The store with a session as the most recently used one. -/
def touched (S : Store) (handle : ℕ) (sess : Session) : Store :=
  { S with sessions := S.sessions.insert handle { sess with lastUsed := S.clock } }

def touch (handle : ℕ) (sess : Session) : Fallible Store StoreError Unit :=
  modify fun S => S.touched handle sess

/-- Duplicate a session under a new handle; the copy starts at revision 0. -/
def fork (handle : ℕ) : Fallible Store StoreError ℕ := do
  modify tick
  let sess ← session handle
  let key ← keyCtx sess.keyId
  touch handle sess
  let S ← get
  let cloned := forkOf sess key S.clock
  modify countFork
  modify evictForCapacity
  insertSession cloned

/-- Remove a session; tells whether it existed. -/
def evict (handle : ℕ) : Fallible Store StoreError Bool := do
  let S ← get
  set { S with sessions := S.sessions.erase handle }
  return (S.sessions.lookup handle).isSome

/-- Full token stream of a session; reading touches it. -/
def readAllIds (handle : ℕ) : Fallible Store StoreError (List UInt32) := do
  modify tick
  let sess ← session handle
  touch handle sess
  return sess.allIds

/-- Full token stream of a session as a shared row, which is cached under the session's
id generation. -/
def sharedAllIds (handle : ℕ) : Fallible Store StoreError SharedIds := do
  modify tick
  let sess ← session handle
  let row := sess.sharedRow
  touch handle { sess with idsSnapshot := some (sess.idsGeneration, row) }
  return row

end Store

end Operations

end Toktier.StoreCore
