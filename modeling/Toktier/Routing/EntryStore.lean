import Mathlib.Data.Char
import Mathlib.Data.List.Lex
import Mathlib.Data.List.Sort
import Toktier.Lib.Hex
import Toktier.StoreCore.Transport

/-!
# The native entry store

Named entries and entries that were found by their content, over one session store. An entry
is resident, with its text and a handle, or only on disk, as a record with its recovery
binding. An index of digests proposes entries for a text, and a list orders them from the
least recently used one on. Entries go out of memory when they take more than the budget.

The session store is the one of the store core. A directory is what its files hold; a write
or a removal may fail, as the faults say, and a read that fails is a file that is not there
at the time. Base64 is a parameter.

## Main definitions

* `NativeEntryStore`, with the directory it writes to.
* `NativeEntryStore.encodeSession`, `NativeEntryStore.encodeAuto`, `openStore`: the calls.
* `evictOverBudget`, `capAutoEntries`: the loops that make room.
-/
namespace Toktier.Routing.Entries

open Toktier.Lib Toktier.StoreCore

def AUTO_MIN_BYTES : ℕ := 4096
def MAX_AUTO_ENTRIES : ℕ := 1024
def NATIVE_MAX_SESSIONS : ℕ := 4096

inductive EntryKind
  | session
  | auto
  deriving DecidableEq

structure Entry where
  kind : EntryKind
  byteLength : ℕ
  text : Option Text
  handle : Option ℕ
  revision : ℕ
  index : ContentIndexEntry
  deriving DecidableEq

/-- What a directory holds: the index file as far as it can be read, the records and the
bindings, each under the name of its entry. -/
structure Disk where
  indexFile : Option (Table Text ContentIndexEntry)
  records : Table Text (List UInt8)
  bindings : Table Text (List UInt8)

/-- What a store is opened with. -/
structure Setting where
  fingerprint : SemanticFingerprint
  router : Engine
  /-- There is a directory. -/
  directory : Bool
  budget : ℕ
  sealEndGuardChars : ℕ
  /-- `URL_SAFE_NO_PAD.encode` -/
  base64 : List UInt8 → Text

/-- The kind that the name of a file tells. -/
def EntryKind.ofName (name : Text) : EntryKind :=
  if "s-".toList <+: name then .session else .auto

def entryName (cfg : Setting) : EntryKind → Text → Text
  | .session, token => "s-".toList ++ cfg.base64 (utf8 token)
  | .auto, token => "a-".toList ++ token

structure NativeEntryStore where
  entries : Table Text Entry
  /-- The names, the least recently used first. -/
  lru : List Text
  index : Table Text ContentIndexEntry
  store : Store
  keyId : ℕ
  disk : Disk
  /-- Which of the writes and removals fail. -/
  faults : ℕ → Bool
  tick : ℕ

/-- The bytes of the entries that are in memory. -/
def residentBytesOf (entries : Table Text Entry) : ℕ :=
  ((entries.entries.filter fun e => e.2.text.isSome).map fun e => e.2.byteLength).sum

/-- What `resident` reads back. -/
structure Recovered where
  handle : ℕ
  historical : Text
  revision : ℕ
  row : ContentIndexEntry

namespace NativeEntryStore

variable [Digests] (cfg : Setting) (w : NativeEntryStore)

/-! ### The session store -/

omit [Digests] in
/-- An operation of the session store; its errors are all answered alike. -/
def call {α : Type} (m : Fallible Store StoreError α) : Option α × NativeEntryStore :=
  match m.run w.store with
  | .ok a S => (some a, { w with store := S })
  | .error _ S => (none, { w with store := S })

omit [Digests] in
def release (handle : ℕ) : NativeEntryStore := (w.call (Store.evict handle)).2

omit [Digests] in
def releaseHandle (handle : Option ℕ) : NativeEntryStore :=
  match handle with
  | some handle => w.release handle
  | none => w

/-- `content_index_entry`, where it gives a row. -/
def rowOf (handle : ℕ) : Option ContentIndexEntry :=
  (w.call (Store.contentIndexEntry handle)).1.join

/-! ### Files -/

omit [Digests] in
def ticked : NativeEntryStore := { w with tick := w.tick + 1 }

omit [Digests] in
/-- A write or a removal: what it does to the files, unless it fails. -/
def change (f : Disk → Disk) : Bool × NativeEntryStore :=
  if w.faults w.tick then (false, w.ticked) else (true, { w.ticked with disk := f w.disk })

omit [Digests] in
def persistIndex : NativeEntryStore :=
  if cfg.directory then (w.change fun d => { d with indexFile := some w.index }).2 else w

/-- The record, and then the binding, unless the export or a write fails. -/
def persistEntry (name : Text) : NativeEntryStore :=
  if ¬cfg.directory then w
  else
    match (w.entries.lookup name).bind Entry.handle with
    | none => w
    | some handle =>
      match (w.call (Store.exportSession handle)).1,
          (w.call (Store.exportRecoveryBinding handle)).1.join with
      | some record, some binding =>
        match w.change fun d => { d with records := d.records.insert name record } with
        | (true, w) => (w.change fun d => { d with bindings := d.bindings.insert name binding }).2
        | (false, w) => w
      | _, _ => w

/-! ### Memory -/

omit [Digests] in
def residentBytes : ℕ := residentBytesOf w.entries

omit [Digests] in
/-- Move a name to the end of the list. -/
def touch (name : Text) : NativeEntryStore := { w with lru := w.lru.erase name ++ [name] }

omit [Digests] in
/-- The entry has its text in memory. -/
def holds (name : Text) : Bool := (w.entries.lookup name).any fun e => e.text.isSome

omit [Digests] in
/-- A name goes from the entries, the index and the list. -/
def forget (name : Text) : NativeEntryStore :=
  { w with
    entries := w.entries.erase name
    index := w.index.erase name
    lru := w.lru.filter (· ≠ name) }

omit [Digests] in
def evictEntry (name : Text) : NativeEntryStore :=
  let entry := w.entries.lookup name
  let w := w.releaseHandle (entry.bind Entry.handle)
  if cfg.directory then
    match entry with
    | some e => { w with entries := w.entries.insert name { e with text := none, handle := none } }
    | none => w
  else w.forget name

omit [Digests] in
/-- The entry that the loop of `evict_over_budget` takes next: the pinned one goes last. -/
def victim (pin : Text) : Option Text :=
  (w.lru.find? fun name => name ≠ pin && w.holds name).or (if w.holds pin then some pin else none)

omit [Digests] in
def evictLoop (pin : Text) : ℕ → NativeEntryStore → NativeEntryStore
  | 0, w => w
  | fuel + 1, w =>
    if w.residentBytes ≤ cfg.budget then w
    else
      match w.victim pin with
      | none => w
      | some name => evictLoop pin fuel (w.evictEntry cfg name)

omit [Digests] in
/-- Every round takes one entry out of memory. -/
def evictOverBudget (pin : Text) : NativeEntryStore :=
  evictLoop cfg pin w.entries.entries.length w

omit [Digests] in
def removeFiles (name : Text) : NativeEntryStore :=
  ((w.change fun d => { d with records := d.records.erase name }).2.change fun d =>
    { d with bindings := d.bindings.erase name }).2

omit [Digests] in
def dropEntry (name : Text) (removeFile : Bool) : NativeEntryStore :=
  let w := (w.releaseHandle ((w.entries.lookup name).bind Entry.handle)).forget name
  if removeFile ∧ cfg.directory then w.removeFiles name else w

omit [Digests] in
def isAuto (name : Text) : Bool := (w.entries.lookup name).any fun e => e.kind = .auto

omit [Digests] in
/-- How many automatic entries there are. -/
def autoCount : ℕ := w.entries.entries.countP fun e => e.2.kind = .auto

omit [Digests] in
def capLoop : ℕ → NativeEntryStore → NativeEntryStore
  | 0, w => w
  | fuel + 1, w =>
    if w.autoCount ≤ MAX_AUTO_ENTRIES then w
    else
      match w.lru.find? w.isAuto with
      | none => w
      | some name => capLoop fuel (w.dropEntry cfg name true)

omit [Digests] in
def capAutoEntries : NativeEntryStore := capLoop cfg w.entries.entries.length w

/-! ### Recovery -/

/-- What was imported, with its row. -/
def recovered (handle : ℕ) (historical : Text) (revision : ℕ) : Option Recovered :=
  (w.rowOf handle).map fun row => ⟨handle, historical, revision, row⟩

/-- Read an entry back from the directory. -/
def recover (name : Text) (candidate : Option Text) : Option Recovered × NativeEntryStore :=
  match w.disk.records.lookup name with
  | none => (none, w)
  | some raw =>
    match SessionRecordV1.fromBytes raw with
    | .error _ => (none, w)
    | .ok view =>
      if view.stablePrefixBytes = 0 then
        match w.call (Store.importSession w.keyId raw cfg.router []) with
        | (none, w) => (none, w)
        | (some handle, w) => (w.recovered handle view.tailText view.revision.toNat, w)
      else
        match candidate, w.disk.bindings.lookup name with
        | some candidate, some binding =>
          match w.call (Store.importSessionWithBindingCandidate w.keyId raw candidate binding
              cfg.router) with
          | (none, w) => (none, w)
          | (some (handle, historicalChars), w) =>
            (w.recovered handle (candidate.take historicalChars) view.revision.toNat, w)
        | _, _ => (none, w)

omit [Digests] in
/-- An entry takes what was read back. -/
def restore (name : Text) (r : Recovered) : NativeEntryStore :=
  match w.entries.lookup name with
  | none => w
  | some e => { w with
      entries := w.entries.insert name { e with
        handle := some r.handle
        byteLength := r.row.byteLength
        text := some r.historical
        revision := r.revision
        index := r.row }
      index := w.index.insert name r.row }

def resident (name : Text) (candidate : Option Text) : Bool × NativeEntryStore :=
  if (w.entries.lookup name).any fun e => e.text.isSome && e.handle.isSome then (true, w)
  else if ¬cfg.directory then (false, w)
  else
    match w.recover cfg name candidate with
    | (none, w) => (false, w.dropEntry cfg name false)
    | (some r, w) => (true, w.restore name r)

/-! ### Writing -/

/-- A new entry over a session; then the cap, the files, and the budget. -/
def keep (name : Text) (kind : EntryKind) (text : Text) (handle revision : ℕ)
    (row : ContentIndexEntry) : NativeEntryStore :=
  let w := { w with
    entries := w.entries.insert name ⟨kind, row.byteLength, some text, some handle, revision, row⟩
    index := w.index.insert name row }
  let w := (w.touch name).capAutoEntries cfg
  let w := (w.persistEntry cfg name).persistIndex cfg
  w.evictOverBudget cfg name

def writeEntry (name : Text) (kind : EntryKind) (text : Text) :
    Option (List UInt32) × NativeEntryStore :=
  let w := w.releaseHandle ((w.entries.lookup name).bind Entry.handle)
  match w.call (Store.put w.keyId text cfg.router) with
  | (none, w) => (none, w.dropEntry cfg name false)
  | (some put, w) =>
    match w.rowOf put.handle with
    | none => (none, w.release put.handle)
    | some row =>
      match w.call (Store.readAllIds put.handle) with
      | (none, w) => (none, w.release put.handle)
      | (some ids, w) => (some ids, w.keep cfg name kind text put.handle put.revision row)

def appendEntry (name delta : Text) : Option (List UInt32) × NativeEntryStore :=
  match w.entries.lookup name with
  | none => (none, w)
  | some e =>
    match e.handle with
    | none => (none, w)
    | some handle =>
      match w.call (Store.append handle delta e.revision cfg.router) with
      | (none, w) => (none, w.dropEntry cfg name false)
      | (some outcome, w) =>
        match w.rowOf handle with
        | none => (none, w.dropEntry cfg name false)
        | some row =>
          match e.text with
          | none => (none, w)
          | some held =>
            let w := { w with
              entries := w.entries.insert name { e with
                text := some (held ++ delta)
                byteLength := row.byteLength
                revision := outcome.revision
                index := row }
              index := w.index.insert name row }
            let w := (w.persistEntry cfg name).persistIndex cfg
            (some outcome.allIds, w.evictOverBudget cfg name)

def entryIds (name : Text) : Option (List UInt32) × NativeEntryStore :=
  match (w.entries.lookup name).bind Entry.handle with
  | none => (none, w)
  | some handle =>
    match w.call (Store.readAllIds handle) with
    | (none, w) => (none, w.dropEntry cfg name false)
    | (some ids, w) => (some ids, w)

/-- The ids of an entry that holds the very text of a call; then the budget. -/
def serveHit (name : Text) : Option (List UInt32) × NativeEntryStore :=
  let (ids, w) := w.entryIds cfg name
  (ids, w.evictOverBudget cfg name)

/-- The text of an entry, where it is in memory. -/
def heldText (name : Text) : Option Text := (w.entries.lookup name).bind Entry.text

/-! ### Calls -/

def encodeSession (sessionId text : Text) : Option (List UInt32) × NativeEntryStore :=
  let name := entryName cfg .session sessionId
  if (w.entries.lookup name).isNone then w.writeEntry cfg name .session text
  else
    match w.resident cfg name (some text) with
    | (false, w) => w.writeEntry cfg name .session text
    | (true, w) =>
      let w := w.touch name
      match w.heldText name with
      | none => (none, w)
      | some stored =>
        if stored = text then w.serveHit cfg name
        else if stored <+: text then w.appendEntry cfg name (text.drop stored.length)
        else w.writeEntry cfg name .session text

/-- Keep an extended fork as an entry of its own. -/
def adoptFork (fork : ℕ) (text : Text) (revision : ℕ) : NativeEntryStore :=
  match w.rowOf fork with
  | none => w.release fork
  | some row =>
    let name := entryName cfg .auto (hex row.endDigest.bytes)
    let w := if (w.entries.lookup name).isSome then w.dropEntry cfg name false else w
    w.keep cfg name .auto text fork revision row

/-- The entry's text is a proper beginning of the call's. -/
def serveExtension (name stored text : Text) : Option (List UInt32) × NativeEntryStore :=
  let delta := text.drop stored.length
  match w.entries.lookup name with
  | none => (none, w)
  | some e =>
    match e.kind with
    | .auto => w.appendEntry cfg name delta
    | .session =>
      match e.handle with
      | none => (none, w)
      | some handle =>
        match w.call (Store.fork handle) with
        | (none, w) => (none, w)
        | (some fork, w) =>
          match w.call (Store.append fork delta 0 cfg.router) with
          | (none, w) => (none, w.release fork)
          | (some outcome, w) =>
            if AUTO_MIN_BYTES ≤ utf8Len text then
              (some outcome.allIds, w.adoptFork cfg fork text outcome.revision)
            else (some outcome.allIds, w.release fork)

/-- The lengths the index has digests of, in ascending order. -/
def queryLengths (limit : ℕ) : List ℕ :=
  ((w.index.entries.flatMap fun e => e.2.byteLength :: e.2.marks.map Prod.fst).filter fun length =>
    0 < length ∧ length ≤ limit).dedup.insertionSort (· ≤ ·)

/-- One digest for each length, from a single pass over the data. -/
def digestsAt (data : List UInt8) : List ℕ → ℕ → ContentDigest → Option (List (ℕ × Bytes16))
  | [], _, _ => some []
  | length :: lengths, consumed, state =>
    match (ContentDigest.append ((data.take length).drop consumed)).run state with
    | .error _ _ => none
    | .ok _ state =>
      (digestsAt data lengths length state).map ((length, state.entry.endDigest) :: ·)

def queryDigests (data : List UInt8) : List (ℕ × Bytes16) :=
  (digestsAt data (w.queryLengths data.length) 0 .empty).getD []

/-- The entries that the index proposes for a text, the longest first. -/
def candidates (text : Text) : List Text :=
  let digests := w.queryDigests (utf8 text)
  let found := w.index.entries.filter fun e =>
    0 < e.2.byteLength ∧ digests.lookup e.2.byteLength = some e.2.endDigest
  (found.insertionSort fun a b =>
    b.2.byteLength < a.2.byteLength ∨ a.2.byteLength = b.2.byteLength ∧ a.1 ≤ b.1).map Sigma.fst

/-- The loop of `serve_from_index`. -/
def serveCandidates (text : Text) :
    List Text → NativeEntryStore → Option (List UInt32) × NativeEntryStore
  | [], w => (none, w)
  | name :: names, w =>
    if (w.entries.lookup name).isNone then
      serveCandidates text names { w with index := w.index.erase name }
    else
      match w.resident cfg name (some text) with
      | (false, w) => serveCandidates text names w
      | (true, w) =>
        match w.heldText name with
        | none => (none, w)
        | some stored =>
          if ¬stored <+: text then serveCandidates text names w
          else
            let w := w.touch name
            if stored = text then w.serveHit cfg name else w.serveExtension cfg name stored text

def serveFromIndex (text : Text) : Option (List UInt32) × NativeEntryStore :=
  serveCandidates cfg text (w.candidates text) w

/-- A text that nothing served, as a new entry. -/
def missAuto (text : Text) : Option (List UInt32) × NativeEntryStore :=
  match w.call (Store.put w.keyId text cfg.router) with
  | (none, w) => (none, w)
  | (some put, w) =>
    match w.rowOf put.handle with
    | none => (none, w.release put.handle)
    | some row =>
      let name := entryName cfg .auto (hex row.endDigest.bytes)
      let w := if (w.entries.lookup name).isSome then w.dropEntry cfg name false else w
      match w.call (Store.readAllIds put.handle) with
      | (none, w) => (none, w.release put.handle)
      | (some ids, w) => (some ids, w.keep cfg name .auto text put.handle put.revision row)

def encodeAuto (text : Text) : Option (List UInt32) × NativeEntryStore :=
  match w.serveFromIndex cfg text with
  | (some ids, w) => (some ids, w)
  | (none, w) => if utf8Len text < AUTO_MIN_BYTES then (none, w) else w.missAuto cfg text

end NativeEntryStore

/-! ### Opening -/

section Opening

variable [Digests] (cfg : Setting)

/-- One record of `rebuild_index`. -/
def Disk.rebuildRow (disk : Disk) (name : Text) : Except StoreError (Option ContentIndexEntry) :=
  match (disk.records.lookup name).map SessionRecordV1.fromBytes with
  | some (.ok record) =>
    if record.stablePrefixBytes = 0 then
      (ContentDigest.fromBytes (utf8 record.tailText)).map fun d => some d.entry
    else
      match (disk.bindings.lookup name).map RecoveryBindingV1.fromBytes with
      | some (.ok binding) =>
        if binding.recordHash = record.currBlockHash ∧ record.fullTextBytes < 2 ^ 64 ∧
            binding.indexEntry.byteLength = record.fullTextBytes then
          .ok (some binding.indexEntry)
        else .ok none
      | _ => .ok none
  | _ => .ok none

def Disk.rebuildIndex (disk : Disk) : Except StoreError (Table Text ContentIndexEntry) :=
  let paths := disk.records.keys.insertionSort fun a b => a ++ ".rec".toList ≤ b ++ ".rec".toList
  paths.foldlM (fun index name => do
    match ← disk.rebuildRow name with
    | some row => return index.insert name row
    | none => return index) ∅

/-- The index of a directory, from its file or rebuilt. -/
def Disk.loadIndex (disk : Disk) : Except StoreError (Table Text ContentIndexEntry) :=
  match disk.indexFile with
  | some index => .ok index
  | none => disk.rebuildIndex

/-- The entry of a row, which is only on disk. -/
def diskEntry (name : Text) (row : ContentIndexEntry) : Entry :=
  ⟨.ofName name, row.byteLength, none, none, 0, row⟩

/-- A session store with the key of a setting. -/
def openSessions : Except StoreError (ℕ × Store) := do
  let S ← Store.new ⟨4096, 65536, 1048576, 65536, NATIVE_MAX_SESSIONS⟩
  let setUp : Fallible Store StoreError ℕ := do
    runIf (cfg.directory = true) Store.enableRecoveryTracking
    Store.enableContentTracking
    Store.registerFingerprint cfg.fingerprint cfg.sealEndGuardChars
  match setUp.run S with
  | .ok keyId S => .ok (keyId, S)
  | .error e _ => .error e

/-- The entries of the names of an index, added to a table. -/
def diskEntries (index : Table Text ContentIndexEntry) (names : List Text)
    (entries : Table Text Entry) : Table Text Entry :=
  names.foldl (fun entries name =>
    match index.lookup name with
    | some row => entries.insert name (diskEntry name row)
    | none => entries) entries

/-- The rows of an index become entries, and their names the list. -/
def NativeEntryStore.withIndex (w : NativeEntryStore) (index : Table Text ContentIndexEntry) :
    NativeEntryStore :=
  let names := index.keys.insertionSort (· ≤ ·)
  { w with index, entries := diskEntries index names w.entries, lru := w.lru ++ names }

/-- `load_or_rebuild_index` -/
def NativeEntryStore.loadOrRebuildIndex (w : NativeEntryStore) :
    Except StoreError NativeEntryStore := do
  let index ← w.disk.loadIndex
  return if w.disk.indexFile.isSome then w.withIndex index
    else (w.withIndex index).persistIndex cfg

def openStore (disk : Disk) (faults : ℕ → Bool) (tick : ℕ) : Except StoreError NativeEntryStore := do
  let (keyId, store) ← openSessions cfg
  let w : NativeEntryStore := ⟨∅, [], ∅, store, keyId, disk, faults, tick⟩
  if cfg.directory then w.loadOrRebuildIndex cfg else return w

end Opening

/-! ### Runs -/

/-- A step: a call, one of the operations that the calls are made of, or something else that
happens to the directory. -/
inductive Act
  | encodeSession (sessionId text : Text)
  | encodeAuto (text : Text)
  | dropEntry (name : Text) (removeFile : Bool)
  | evictEntry (name : Text)
  | evictOverBudget (pin : Text)
  | capAutoEntries
  | disturb (disk : Disk)

variable [Digests]

def NativeEntryStore.after (cfg : Setting) (w : NativeEntryStore) : Act → NativeEntryStore
  | .encodeSession sessionId text => (w.encodeSession cfg sessionId text).2
  | .encodeAuto text => (w.encodeAuto cfg text).2
  | .dropEntry name removeFile => w.dropEntry cfg name removeFile
  | .evictEntry name => w.evictEntry cfg name
  | .evictOverBudget pin => w.evictOverBudget cfg pin
  | .capAutoEntries => w.capAutoEntries cfg
  | .disturb disk => { w with disk }

/-- What is reached from a store that was opened on any directory, by acts that meet `ok`, and
by opening its directory again where that directory meets `okDisk`. -/
inductive Reach (cfg : Setting) (okDisk : Disk → Prop) (ok : NativeEntryStore → Act → Prop) :
    NativeEntryStore → Prop
  | opened {disk : Disk} {faults : ℕ → Bool} {tick : ℕ} {w : NativeEntryStore}
      (hdisk : okDisk disk) (hopen : openStore cfg disk faults tick = .ok w) : Reach cfg okDisk ok w
  | act {w : NativeEntryStore} (a : Act) (h : Reach cfg okDisk ok w) (hok : ok w a) :
      Reach cfg okDisk ok (w.after cfg a)
  | reopened {w w' : NativeEntryStore} (h : Reach cfg okDisk ok w) (hdisk : okDisk w.disk)
      (hopen : openStore cfg w.disk w.faults w.tick = .ok w') : Reach cfg okDisk ok w'

end Toktier.Routing.Entries
