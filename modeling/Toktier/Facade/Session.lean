import Toktier.StoreCore.Runs
import Mathlib.Data.Finset.Basic

/-!
# Named sessions

Clients know sessions by name. A table maps the names to the handles of a session store, and a
name is leased to one writer at a time. A durable state also keeps the texts of its sessions,
and saves itself after each change; once a save has failed, the state is sealed.

What a save answers is left open: it is a function of what is to be saved. The state starts
empty here; a state that was loaded from a database starts where an earlier one ended.

## Main definitions

* `SessionStoreState`: the store, the names, the leases and the texts.
* `Session`: one writer, with `Session.open`, `seed`, `append`, `overwrite`, `fork`, `snapshot`,
  `delete` and `close`.
* `FacadeCall`, `Process.after`: a call of a client, and what it leaves.
-/
namespace Toktier.Facade

open Toktier.Lib
open Toktier.StoreCore hiding Session Call Along

/-! ## Errors -/

inductive ErrorCode
  | InvalidArgument
  | SessionRevisionConflict
  | SessionStateMismatch
  | Internal
  | Io
  deriving DecidableEq

/-- An error of the façade. -/
inductive FacadeError
  | Own (code : ErrorCode) (message : String)
  /-- The message is about a session, which it names first. -/
  | Named (code : ErrorCode) (name : String) (message : String)
  /-- The state is sealed, by the failure of a save. -/
  | Sealed (cause : FacadeError)
  /-- An error of the store, under its own code. -/
  | Store (error : StoreError)

/-! ## The state -/

/-- What is saved of a session. -/
structure NamedSessionRef where
  name : String
  handle : ℕ
  transcript : Text

/-- `save_named_recoverable`, as far as the façade sees it. -/
abbrev Save := Store → List NamedSessionRef → Except FacadeError Unit

structure SessionStoreState where
  store : Store
  key : ℕ
  names : Table String ℕ
  leased : Finset String
  /-- The texts of the sessions, when they are kept. -/
  transcripts : Option (Table String Text)
  /-- The first save that failed. -/
  persistenceFault : Option FacadeError
  /-- Whether there is a database. -/
  durable : Bool

/-- A step of the façade. -/
abbrev Step (α : Type) := Fallible SessionStoreState FacadeError α

/-- Work on the store. -/
def onStore {α : Type} (m : Fallible Store StoreError α) : Step α := fun s =>
  match m.run s.store with
  | .ok a S => .ok a { s with store := S }
  | .error e S => .error (.Store e) { s with store := S }

namespace SessionStoreState

def ensureHealthy : Step Unit := do
  let s ← get
  match s.persistenceFault with
  | some cause => throw (.Sealed cause)
  | none => pure ()

/-- The named sessions with their texts. -/
def sessionRefs (names : List (Sigma fun _ : String => ℕ)) (transcripts : Table String Text) :
    Except FacadeError (List NamedSessionRef) :=
  names.mapM fun ⟨name, handle⟩ =>
    match transcripts.lookup name with
    | none => .error (.Named .SessionStateMismatch name "has no recovery transcript")
    | some transcript => .ok ⟨name, handle, transcript⟩

/-- Save the state. A save that fails seals it. -/
def persist (save : Save) : Step Unit := do
  ensureHealthy
  let s ← get
  if s.durable then
    match s.transcripts with
    | none => throw (.Own .Internal "persistent session state lost its recovery transcripts")
    | some transcripts => do
        let sessions ← fromExcept (sessionRefs s.names.entries transcripts)
        match save s.store sessions with
        | .ok () => pure ()
        | .error e => do
            set { s with persistenceFault := some e }
            throw e
  else pure ()

/-- The runner that a state with overlapped seeds uses. -/
def rayonSeedOverlap : OverlapRunner := ⟨1⟩

def defaultConfig : StoreConfig := ⟨4096, 65536, 1048576, 65536, 1024⟩

def newStore (persistent seedDigestOverlap : Bool) (fingerprint : SemanticFingerprint) (sealGuard : ℕ) :
    Except StoreError (Store × ℕ) := do
  let store ← Store.new defaultConfig
  let setup : Fallible Store StoreError ℕ := do
    runIf (persistent = true) Store.enableRecoveryTracking
    Store.enableContentTracking
    runIf (seedDigestOverlap = true) (Store.setSeedOverlap (some rayonSeedOverlap))
    Store.registerFingerprint fingerprint sealGuard
  match setup.run store with
  | .ok key S => .ok (S, key)
  | .error e _ => .error e

/-- A state without sessions. -/
def empty (store : Store) (key : ℕ) (durable : Bool) : SessionStoreState where
  store := store
  key := key
  names := ∅
  leased := ∅
  transcripts := if durable then some ∅ else none
  persistenceFault := none
  durable := durable

/-- A new state, in memory or over an empty database. -/
def new (fingerprint : SemanticFingerprint) (sealGuard : ℕ) (durable seedDigestOverlap : Bool) (save : Save) :
    Except FacadeError SessionStoreState :=
  match newStore durable seedDigestOverlap fingerprint sealGuard with
  | .error e => .error (.Store e)
  | .ok (store, key) =>
      match (persist save).run (empty store key durable) with
      | .ok () state => .ok state
      | .error e _ => .error e

end SessionStoreState

/-! ## Sessions -/

/-- One writer of a named session. -/
structure Session where
  name : String
  handle : Option ℕ
  revision : Option ℕ
  closed : Bool

def validateName (name : String) : Except FacadeError Unit :=
  if name.toList = [] ∨ name.utf8ByteSize > 1024 ∨ '\x00' ∈ name.toList then
    .error (.Own .InvalidArgument "session name must contain 1..=1024 non-NUL UTF-8 bytes")
  else .ok ()

/-- Give a session of the store a name. -/
def bindName (name : String) (handle : ℕ) : Step Unit :=
  modify fun s => { s with names := s.names.insert name handle }

def lease (name : String) : Step Unit :=
  modify fun s => { s with leased := insert name s.leased }

def releaseLease (name : String) : Step Unit :=
  modify fun s => { s with leased := s.leased.erase name }

/-- Keep the text of a session, if texts are kept. -/
def recordTranscript (name : String) (text : Text) : Step Unit :=
  modify fun s => { s with transcripts := s.transcripts.map fun texts => texts.insert name text }

/-- Grow the text of a session, if texts are kept. -/
def extendTranscript (name : String) (delta : Text) : Step Unit := do
  let s ← get
  match s.transcripts with
  | none => pure ()
  | some texts =>
      match texts.lookup name with
      | none =>
          throw (.Own .SessionStateMismatch "persistent session is missing its recovery transcript")
      | some text => set { s with transcripts := some (texts.insert name (text ++ delta)) }

section Operations

variable [Digests]

/-- Put `text` into the store as the session `name`, and save. -/
def genesis (name : String) (text : Text) (eng : Engine) (save : Save) : Step (PutOutcome × SharedIds) := do
  let s ← get
  let put ← onStore (Store.put s.key text eng)
  bindName name put.handle
  recordTranscript name text
  let ids ← onStore (Store.sharedAllIds put.handle)
  SessionStoreState.persist save
  return (put, ids)

/-- Lease a name, and look its session up. -/
def Session.open (name : String) : Step Session := do
  fromExcept (validateName name)
  SessionStoreState.ensureHealthy
  let s ← get
  throwIf (name ∈ s.leased)
    (.Named .SessionRevisionConflict name "already has a writer in this process")
  lease name
  match s.names.lookup name with
  | none => return { name, handle := none, revision := none, closed := false }
  | some handle => do
      let sess ← onStore (Store.session handle)
      return { name, handle := some handle, revision := some sess.revision, closed := false }

namespace Session

variable (self : Session)

def requireOpen : Step Unit :=
  throwIf (self.closed = true) (.Named .InvalidArgument self.name "is closed")

/-- The handle of a session that was seeded. -/
def seeded (message : String) : Step ℕ :=
  match self.handle with
  | some handle => pure handle
  | none => throw (.Own .InvalidArgument message)

/-- The writer of a session, after a genesis. -/
def started (put : PutOutcome) : Session :=
  { self with handle := some put.handle, revision := some put.revision }

/-- Seed a newly named session. -/
def seed (text : Text) (eng : Engine) (save : Save) : Step (SharedIds × Session) := do
  self.requireOpen
  throwIf (self.handle.isSome = true) (.Own .SessionRevisionConflict
    "seed requires a new session; use overwrite for an existing name")
  SessionStoreState.ensureHealthy
  let (put, ids) ← genesis self.name text eng save
  return (ids, self.started put)

/-- Append new text. -/
def append (delta : Text) (eng : Engine) (save : Save) : Step (AppendPatchOutcome × Session) := do
  self.requireOpen
  let handle ← self.seeded "seed the session before append"
  match self.revision with
  | none => throw (.Own .Internal "seeded session has no revision")
  | some expectedRevision => do
      SessionStoreState.ensureHealthy
      let patch ← onStore (Store.appendPatch handle delta expectedRevision eng)
      extendTranscript self.name delta
      SessionStoreState.persist save
      return (patch, { self with revision := some patch.revision })

/-- The complete stream. -/
def snapshot : Step SharedIds := do
  self.requireOpen
  let handle ← self.seeded "seed the session before snapshot"
  SessionStoreState.ensureHealthy
  onStore (Store.sharedAllIds handle)

/-- Drop the session of the store behind this one, if there is one. -/
def evict : Step Unit :=
  match self.handle with
  | none => pure ()
  | some handle => (fun _ => ()) <$> onStore (Store.evict handle)

/-- Replace a session by a new one. -/
def overwrite (text : Text) (eng : Engine) (save : Save) : Step (SharedIds × Session) := do
  self.requireOpen
  SessionStoreState.ensureHealthy
  self.evict
  let (put, ids) ← genesis self.name text eng save
  return (ids, self.started put)

/-- Copy the text of a session to a new name, if texts are kept. -/
def forkTranscript (newName : String) : Step Unit := do
  let s ← get
  match s.transcripts with
  | none => pure ()
  | some texts =>
      match texts.lookup self.name with
      | none => throw (.Own .SessionStateMismatch "persistent source session has no recovery transcript")
      | some text => set { s with transcripts := some (texts.insert newName text) }

/-- Fork a session under a new name. -/
def fork (newName : String) (save : Save) : Step Session := do
  self.requireOpen
  fromExcept (validateName newName)
  let handle ← self.seeded "seed the session before fork"
  SessionStoreState.ensureHealthy
  let s ← get
  throwIf ((s.names.lookup newName).isSome = true ∨ newName ∈ s.leased)
    (.Named .SessionRevisionConflict newName "already exists")
  let forked ← onStore (Store.fork handle)
  bindName newName forked
  self.forkTranscript newName
  lease newName
  SessionStoreState.persist save
  return { name := newName, handle := some forked, revision := some 0, closed := false }

/-- Delete a session with its name. -/
def deleteState (save : Save) : Step Unit := do
  self.requireOpen
  SessionStoreState.ensureHealthy
  self.evict
  modify fun s => { s with
    names := s.names.erase self.name
    transcripts := s.transcripts.map fun texts => texts.erase self.name
    leased := s.leased.erase self.name }
  SessionStoreState.persist save

/-- Delete a session, and drop its writer; one whose deletion failed still releases its lease. -/
def delete (save : Save) : Step Unit :=
  tryCatch (self.deleteState save) fun e => do
    releaseLease self.name
    throw e

/-- Release the lease of a session; a writer that is dropped does the same. -/
def close : Step Unit := releaseLease self.name

end Session

end Operations

/-! ## Clients -/

/-- The state, and the writers that clients hold. -/
structure Process where
  state : SessionStoreState
  writers : List Session

/-- A call of a client; the writer it is made on is given by its place. -/
inductive FacadeCall
  | openName (name : String)
  | seed (i : ℕ) (text : Text) (eng : Engine) (save : Save)
  | append (i : ℕ) (delta : Text) (eng : Engine) (save : Save)
  | snapshot (i : ℕ)
  | overwrite (i : ℕ) (text : Text) (eng : Engine) (save : Save)
  | fork (i : ℕ) (newName : String) (save : Save)
  | delete (i : ℕ) (save : Save)
  | close (i : ℕ)

/-- What a call does to the writers, when it returns. -/
inductive WriterChange
  | kept
  | opened (writer : Session)
  | replaced (i : ℕ) (writer : Session)

def WriterChange.apply (writers : List Session) : WriterChange → List Session
  | kept => writers
  | opened writer => writers ++ [writer]
  | replaced i writer => writers.set i writer

section Runs

variable [Digests]

/-- What a call runs on a state, given the writers. -/
def FacadeCall.run (writers : List Session) : FacadeCall → Step WriterChange
  | openName name => .opened <$> Session.open name
  | seed i text eng save =>
      match writers[i]? with
      | none => pure .kept
      | some self => (fun out => .replaced i out.2) <$> self.seed text eng save
  | append i delta eng save =>
      match writers[i]? with
      | none => pure .kept
      | some self => (fun out => .replaced i out.2) <$> self.append delta eng save
  | snapshot i =>
      match writers[i]? with
      | none => pure .kept
      | some self => (fun _ => .kept) <$> self.snapshot
  | overwrite i text eng save =>
      match writers[i]? with
      | none => pure .kept
      | some self => (fun out => .replaced i out.2) <$> self.overwrite text eng save
  | fork i newName save =>
      match writers[i]? with
      | none => pure .kept
      | some self => .opened <$> self.fork newName save
  | delete i save =>
      match writers[i]? with
      | none => pure .kept
      | some self => (fun _ => .kept) <$> self.delete save
  | close i =>
      match writers[i]? with
      | none => pure .kept
      | some self => (fun _ => .kept) <$> self.close

/-- The writers a call takes away, whether it returns or fails. -/
def FacadeCall.consumed (writers : List Session) : FacadeCall → List Session
  | delete i _ | close i => writers.eraseIdx i
  | _ => writers

/-- The state and the writers after a call. -/
def Process.after (P : Process) (call : FacadeCall) : Process :=
  match (call.run P.writers).run P.state with
  | .ok change state => ⟨state, change.apply (call.consumed P.writers)⟩
  | .error _ state => ⟨state, call.consumed P.writers⟩

end Runs

end Toktier.Facade
