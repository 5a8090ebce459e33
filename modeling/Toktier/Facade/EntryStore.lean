import Mathlib.Data.List.Dedup
import Mathlib.Data.List.Sort
import Toktier.Lib.Maps
import Toktier.Lib.Utf8

/-!
# The entry store

Named entries and entries that were found by their content, each a text with a session of the
native store. An entry is resident, with its text and a handle, or only on disk, as a record
and a binding that tells which text the record is of. An index of digests proposes entries for
a text. Entries go out of memory when they take more than the budget.

The native store is given by its contract: a handle that was given out stands for one session
until the session goes, and what goes beside an eviction that is asked for is left open. So is
which calls of the native store fail, and which reads and writes of files; a write may be told
whether an older record is there. A file is read as it was last written, or not at all.

## Main definitions

* `Row`, `CheckpointIndex`: the index of digests.
* `World`: the entries, the native sessions and the files.
* `World.encodeSession`, `World.encodeAuto`, `World.reopen`: the calls.
* `Reach`: what allowed calls reach.
-/
namespace Toktier.Facade.Entries

open Toktier.Lib

variable {D : Type} [DecidableEq D]

def AUTO_MIN_BYTES : ℕ := 4096
def MAX_AUTO_ENTRIES : ℕ := 1024
def MARK_FLOOR_BYTES : ℕ := 4096

/-! ### The checkpoint index -/

/-- `IndexEntry` -/
structure Row (D : Type) where
  byteLength : ℕ
  endDigest : D
  marks : List (ℕ × D)
  deriving DecidableEq

inductive Kind
  | session
  | auto
  deriving DecidableEq

/-- `_entry_name`: the name of an entry, and of its files. -/
inductive Name (D : Type)
  | session (id : Text)
  | auto (digest : D)
  deriving DecidableEq

def Name.kind : Name D → Kind
  | session _ => .session
  | auto _ => .auto

/-- Doubling positions inside an entry of this size. -/
def markPositions (byteLength : ℕ) : List ℕ :=
  ((List.range byteLength).map fun i => MARK_FLOOR_BYTES * 2 ^ i).takeWhile (· < byteLength)

def prefixDigests (digest : List UInt8 → D) (data : List UInt8) (lengths : List ℕ) :
    List (ℕ × D) :=
  lengths.map fun length => (length, digest (data.take length))

def entryFor (digest : List UInt8 → D) (data : List UInt8) : Row D :=
  ⟨data.length, digest data, prefixDigests digest data (markPositions data.length)⟩

abbrev CheckpointIndex (D : Type) := AList fun _ : Name D => Row D

/-- The lengths of the index within a limit, in ascending order. -/
def CheckpointIndex.queryLengths (index : CheckpointIndex D) (limit : ℕ) : List ℕ :=
  ((index.entries.flatMap fun e => e.2.byteLength :: e.2.marks.map Prod.fst).filter fun length =>
    0 < length ∧ length ≤ limit).dedup.mergeSort (· ≤ ·)

/-- The entries that end with a digest of the query, the longest first. -/
def CheckpointIndex.endpointCandidates (index : CheckpointIndex D)
    (nameLe : Name D → Name D → Bool) (digests : List (ℕ × D)) : List (Name D) :=
  let found := index.entries.filter fun e =>
    0 < e.2.byteLength ∧ digests.lookup e.2.byteLength = some e.2.endDigest
  (found.mergeSort fun a b => a.2.byteLength > b.2.byteLength ||
    (a.2.byteLength == b.2.byteLength && nameLe a.1 b.1)).map Sigma.fst

/-! ### The store and its surroundings -/

/-- A session of the native store. -/
structure NativeSession where
  text : Text
  revision : ℕ
  deriving DecidableEq

/-- A record: of which session it is, and how much of the text it leaves out. -/
structure Record where
  session : NativeSession
  stable : ℕ

namespace Record

/-- `stable_prefix_byte_length` -/
def stablePrefixByteLength (r : Record) : ℕ := utf8Len (r.session.text.take r.stable)

/-- `text_tail` -/
def textTail (r : Record) : Text := r.session.text.drop r.stable

/-- `full_text_byte_length` -/
def fullTextByteLength (r : Record) : ℕ := utf8Len r.session.text

end Record

structure Entry (D : Type) where
  name : Name D
  kind : Kind
  byteLength : ℕ
  text : Option Text
  handle : Option ℕ
  revision : ℕ
  indexEntry : Option (Row D)

/-- What is left open about one operation: whether it fails, which sessions go for a new one,
how much of its text an export leaves out, and, where an older record is or is not there,
whether the record is not written. -/
structure Choice where
  fails : Bool
  evicted : List ℕ
  stable : ℕ
  unwritten : Bool → Bool

/-- What the store is given. `nameLe` orders names as the names of their files. -/
structure Config (D : Type) where
  digest : List UInt8 → D
  encode : Text → List ℤ
  directory : Bool
  budget : ℕ
  nameLe : Name D → Name D → Bool

structure World (D : Type) where
  sessions : ℕ → Option NativeSession
  next : ℕ
  /-- The handles whose sessions the native store let go by itself. -/
  lost : List ℕ
  /-- The entries, the least recently used first. -/
  entries : List (Entry D)
  index : CheckpointIndex D
  records : AList fun _ : Name D => Record
  bindings : AList fun _ : Name D => NativeSession
  indexFile : Option (CheckpointIndex D)
  choices : ℕ → Choice
  tick : ℕ

namespace World

variable (cfg : Config D) (w : World D)

/-! ### The native store -/

def choice : Choice := w.choices w.tick

def ticked : World D := { w with tick := w.tick + 1 }

/-- A new session; others may go. -/
def insertSession (s : NativeSession) (evicted : List ℕ) : ℕ × World D :=
  (w.next, { w with
    sessions := Function.update
      (fun h => if h ∈ evicted then none else w.sessions h) w.next (some s)
    next := w.next + 1
    lost := evicted.filter (· < w.next) ++ w.lost })

/-- `put`: the handle and the revision. -/
def put (text : Text) : Option (ℕ × ℕ) × World D :=
  if w.choice.fails then (none, w.ticked)
  else
    let (handle, w') := w.ticked.insertSession ⟨text, 0⟩ w.choice.evicted
    (some (handle, 0), w')

def idsBytes (handle : ℕ) : Option (List ℤ) × World D :=
  (if w.choice.fails then none else (w.sessions handle).map fun s => cfg.encode s.text, w.ticked)

/-- `append`: all ids and the revision. -/
def append (handle : ℕ) (delta : Text) (expected : ℕ) : Option (List ℤ × ℕ) × World D :=
  match w.sessions handle with
  | none => (none, w.ticked)
  | some s =>
    if w.choice.fails ∨ s.revision ≠ expected then (none, w.ticked)
    else
      (some (cfg.encode (s.text ++ delta), s.revision + 1), { w.ticked with
        sessions := Function.update w.sessions handle (some ⟨s.text ++ delta, s.revision + 1⟩) })

def fork (handle : ℕ) : Option ℕ × World D :=
  match w.sessions handle with
  | none => (none, w.ticked)
  | some s =>
    if w.choice.fails then (none, w.ticked)
    else
      let (fork, w') := w.ticked.insertSession ⟨s.text, 0⟩ w.choice.evicted
      (some fork, w')

/-- `evict` -/
def release (handle : ℕ) : World D :=
  { w with sessions := Function.update w.sessions handle none }

/-- `content_index_entry`: the row of the session's text; raises without a session. -/
def contentIndexEntry (handle : ℕ) : Option (Row D) :=
  (w.sessions handle).map fun s => entryFor cfg.digest (utf8 s.text)

def importSession (raw : Record) : Option ℕ × World D :=
  if w.choice.fails then (none, w.ticked)
  else
    let (handle, w') := w.ticked.insertSession raw.session w.choice.evicted
    (some handle, w')

/-- `import_session_with_binding`: the handle and the characters of the historical text. -/
def importSessionWithBinding (raw : Record) (candidate : Text) (binding : NativeSession) :
    Option (ℕ × ℕ) × World D :=
  if w.choice.fails ∨ binding ≠ raw.session ∨ ¬raw.session.text <+: candidate then
    (none, w.ticked)
  else
    let (handle, w') := w.ticked.insertSession raw.session w.choice.evicted
    (some (handle, raw.session.text.length), w')

/-! ### Files -/

def readRecord (name : Name D) : Option Record × World D :=
  (if w.choice.fails then none else w.records.lookup name, w.ticked)

def readBinding (name : Name D) : Option NativeSession × World D :=
  (if w.choice.fails then none else w.bindings.lookup name, w.ticked)

def persistIndex : World D :=
  if ¬cfg.directory ∨ w.choice.fails then w.ticked
  else { w.ticked with indexFile := some w.index }

/-- `_persist_entry`: the record, unless the export or the write fails, and then the binding. -/
def persistEntry (e : Entry D) : World D :=
  match e.handle, e.text with
  | some handle, some _ =>
    match w.sessions handle with
    | none => w
    | some s =>
      if ¬cfg.directory ∨ w.choice.unwritten (w.records.lookup e.name).isSome then w.ticked
      else
        { w.ticked with
          records := w.records.insert e.name ⟨s, w.choice.stable⟩
          bindings := if w.choice.fails then w.bindings else w.bindings.insert e.name s }
  | _, _ => w

/-! ### Entries -/

def get (name : Name D) : Option (Entry D) := w.entries.find? fun e => e.name = name

/-- The dictionary without a name. -/
def pop (name : Name D) : World D :=
  { w with entries := w.entries.filter fun e => e.name ≠ name }

/-- The dictionary with a new entry. -/
def add (e : Entry D) : World D := { w with entries := w.entries ++ [e] }

/-- An entry is changed in place. -/
def set (e : Entry D) : World D :=
  { w with entries := w.entries.map fun x => if x.name = e.name then e else x }

def discard (name : Name D) : World D := { w with index := w.index.erase name }

/-- `self._index.put` -/
def indexPut (name : Name D) (row : Row D) : World D :=
  { w with index := w.index.insert name row }

def residentBytes : ℕ := ((w.entries.filter fun e => e.text.isSome).map Entry.byteLength).sum

def touch (e : Entry D) : World D := (w.pop e.name).add e

def releaseHandle (e : Entry D) : World D :=
  match e.handle with
  | none => w
  | some handle => w.release handle

def unlinkRecord (name : Name D) : World D :=
  { w.ticked with records := if w.choice.fails then w.records else w.records.erase name }

def unlinkBinding (name : Name D) : World D :=
  { w.ticked with bindings := if w.choice.fails then w.bindings else w.bindings.erase name }

def evictEntry (e : Entry D) : World D :=
  let w := w.releaseHandle e
  if cfg.directory then w.set { e with text := none, handle := none }
  else (w.pop e.name).discard e.name

def drop (e : Entry D) (removeFile : Bool) : World D :=
  let w := ((w.releaseHandle e).pop e.name).discard e.name
  if removeFile && cfg.directory then (w.unlinkRecord e.name).unlinkBinding e.name else w

/-- The loop of `_evict_over_budget`. -/
def evictNames (pin : Name D) : List (Name D) → World D → World D
  | [], w => w
  | name :: names, w =>
    if name = pin then evictNames pin names w
    else
      match w.get name with
      | none => evictNames pin names w
      | some e =>
        if e.text.isNone then evictNames pin names w
        else
          let w := w.evictEntry cfg e
          if w.residentBytes ≤ cfg.budget then w else evictNames pin names w

def evictOverBudget (pin : Name D) : World D :=
  if w.residentBytes ≤ cfg.budget then w
  else evictNames cfg pin (w.entries.map Entry.name) w

def capAutoEntries : World D :=
  let autos := w.entries.filter fun e => e.kind = .auto
  (autos.take (autos.length - MAX_AUTO_ENTRIES)).foldl (fun w e => w.drop cfg e true) w

/-- Bring the text and the handle of an entry back. -/
def resident (e : Entry D) (candidate : Text) : Option (Entry D) × World D :=
  if e.text.isSome && e.handle.isSome then (some e, w)
  else if ¬cfg.directory then (none, w)
  else
    match w.readRecord e.name with
    | (none, w) => (none, w.drop cfg e false)
    | (some view, w) =>
      if view.stablePrefixByteLength = 0 then
        match w.importSession view with
        | (none, w) => (none, w.drop cfg e false)
        | (some handle, w) =>
          let e := { e with
            handle := some handle
            text := some view.textTail
            byteLength := view.fullTextByteLength
            revision := view.session.revision }
          (some e, (w.set e).evictOverBudget cfg e.name)
      else
        match w.readBinding e.name with
        | (none, w) => (none, w.drop cfg e false)
        | (some binding, w) =>
          match w.importSessionWithBinding view candidate binding with
          | (none, w) => (none, w.drop cfg e false)
          | (some (handle, historicalChars), w) =>
            match w.contentIndexEntry cfg handle with
            | none => (none, w.drop cfg { e with handle := some handle } false)
            | some row =>
              let e := { e with
                handle := some handle
                text := some (candidate.take historicalChars)
                byteLength := view.fullTextByteLength
                revision := view.session.revision
                indexEntry := some row }
              (some e, (w.set e).evictOverBudget cfg e.name)

end World

/-- What a call returns. Without ids the caller runs the plain path. -/
inductive Reply
  | ids (ids : List ℤ)
  | plain
  | raised
  deriving DecidableEq

namespace World

variable (cfg : Config D) (w : World D)

/-- A new entry over a native session; then the files, and the budget. -/
def keep (name : Name D) (kind : Kind) (text : Text) (handle revision : ℕ) (row : Row D) :
    World D :=
  let entry : Entry D := ⟨name, kind, row.byteLength, some text, some handle, revision, some row⟩
  let w := ((w.pop name).add entry).indexPut name row
  let w := w.capAutoEntries cfg
  let w := w.persistEntry cfg entry
  let w := w.persistIndex cfg
  w.evictOverBudget cfg name

def writeEntry (name : Name D) (kind : Kind) (text : Text) : Reply × World D :=
  let previous := w.get name
  let w := (previous.map w.releaseHandle).getD w
  let miss (w : World D) : World D := (previous.map fun e => w.drop cfg e false).getD w
  match w.put text with
  | (none, w) => (.plain, miss w)
  | (some (handle, revision), w) =>
    match w.idsBytes cfg handle with
    | (none, w) => (.plain, miss w)
    | (some ids, w) =>
      match w.contentIndexEntry cfg handle with
      | none => (.raised, w)
      | some row => (.ids ids, w.keep cfg name kind text handle revision row)

def appendEntry (e : Entry D) (delta : Text) : Reply × World D :=
  match e.handle, e.text with
  | some handle, some text =>
    match w.append cfg handle delta e.revision with
    | (none, w) => (.plain, w.drop cfg e false)
    | (some (ids, revision), w) =>
      match w.contentIndexEntry cfg handle with
      | none => (.raised, w.set { e with text := some (text ++ delta), revision := revision })
      | some row =>
        let e := { e with
          text := some (text ++ delta)
          revision := revision
          indexEntry := some row
          byteLength := row.byteLength }
        let w := (w.set e).indexPut e.name row
        let w := w.persistEntry cfg e
        let w := w.persistIndex cfg
        (.ids ids, w.evictOverBudget cfg e.name)
  | _, _ => (.raised, w)

def entryIds (e : Entry D) : Reply × World D :=
  match e.handle with
  | none => (.raised, w)
  | some handle =>
    match w.idsBytes cfg handle with
    | (none, w) => (.plain, w.drop cfg e false)
    | (some ids, w) => (.ids ids, w)

/-- `encode_session` -/
def encodeSession (id text : Text) : Reply × World D :=
  match w.get (.session id) with
  | none => w.writeEntry cfg (.session id) .session text
  | some e =>
    match w.resident cfg e text with
    | (none, w) => w.writeEntry cfg (.session id) .session text
    | (some e, w) =>
      let w := w.touch e
      match e.text with
      | none => (.raised, w)
      | some held =>
        if held = text then w.entryIds cfg e
        else if held <+: text then w.appendEntry cfg e (text.drop held.length)
        else w.writeEntry cfg (.session id) .session text

/-- Keep an extended fork as an entry of its own. -/
def adoptFork (fork : ℕ) (text : Text) (revision : ℕ) : Option (World D) :=
  (w.contentIndexEntry cfg fork).map fun row =>
    let name := Name.auto row.endDigest
    let w := ((w.get name).map fun e => w.drop cfg e false).getD w
    w.keep cfg name .auto text fork revision row

/-- The entry is a proper prefix of the text. -/
def serveExtension (e : Entry D) (held text : Text) : Reply × World D :=
  let delta := text.drop held.length
  match e.kind with
  | .auto => w.appendEntry cfg e delta
  | .session =>
    match e.handle with
    | none => (.raised, w)
    | some handle =>
      match w.fork handle with
      | (none, w) => (.plain, w)
      | (some fork, w) =>
        match w.append cfg fork delta 0 with
        | (none, w) => (.plain, w.release fork)
        | (some (ids, revision), w) =>
          if (utf8 text).length ≥ AUTO_MIN_BYTES then
            match w.adoptFork cfg fork text revision with
            | none => (.raised, w)
            | some w => (.ids ids, w)
          else (.ids ids, w.release fork)

/-- The loop of `_serve_from_index`. -/
def serveCandidates (text : Text) : List (Name D) → World D → Reply × World D
  | [], w => (.plain, w)
  | name :: names, w =>
    match w.get name with
    | none => serveCandidates text names (w.discard name)
    | some e =>
      match w.resident cfg e text with
      | (none, w) => serveCandidates text names w
      | (some e, w) =>
        match e.text with
        | none => (.raised, w)
        | some held =>
          if ¬held <+: text then serveCandidates text names w
          else
            let w := w.touch e
            if held = text then w.entryIds cfg e else w.serveExtension cfg e held text

def serveFromIndex (text : Text) : Reply × World D :=
  let lengths := w.index.queryLengths (utf8 text).length
  if lengths = [] then (.plain, w)
  else
    let digests := prefixDigests cfg.digest (utf8 text) lengths
    serveCandidates cfg text (w.index.endpointCandidates cfg.nameLe digests) w

/-- `encode_auto` -/
def encodeAuto (text : Text) : Reply × World D :=
  match w.serveFromIndex cfg text with
  | (.plain, w) =>
    if (utf8 text).length < AUTO_MIN_BYTES then (.plain, w)
    else
      w.writeEntry cfg (.auto (entryFor cfg.digest (utf8 text)).endDigest) .auto text
  | served => served

/-! ### Opening -/

/-- One record of `_rebuild_index`. -/
def rebuildRow (name : Name D) (index : CheckpointIndex D) : CheckpointIndex D × World D :=
  match w.readRecord name with
  | (none, w) => (index, w)
  | (some view, w) =>
    if view.stablePrefixByteLength = 0 then
      (index.insert name (entryFor cfg.digest (utf8 view.textTail)), w)
    else
      match w.readBinding name with
      | (none, w) => (index, w)
      | (some binding, w) =>
        let row := entryFor cfg.digest (utf8 binding.text)
        if binding ≠ view.session ∨ row.byteLength ≠ view.fullTextByteLength then (index, w)
        else (index.insert name row, w)

def rebuildIndex : CheckpointIndex D × World D :=
  (w.records.keys.mergeSort cfg.nameLe).foldl (fun a name => a.2.rebuildRow cfg name a.1) (∅, w)

def loadOrRebuildIndex : CheckpointIndex D × World D :=
  match if w.choice.fails then none else w.indexFile with
  | some index => (index, w.ticked)
  | none =>
    let (index, w) := w.ticked.rebuildIndex cfg
    (index, { w with index := index }.persistIndex cfg)

/-- A new store over the same directory. -/
def reopen : World D :=
  let w : World D := { w with
    sessions := fun _ => none, next := 0, lost := [], entries := [], index := ∅ }
  if ¬cfg.directory then w
  else
    let (index, w) := w.loadOrRebuildIndex cfg
    { w with
      index := index
      entries := (index.keys.mergeSort cfg.nameLe).filterMap fun name =>
        (index.lookup name).map fun row =>
          ⟨name, name.kind, row.byteLength, none, none, 0, some row⟩ }

end World

/-! ### Runs -/

inductive Act
  | encodeSession (id text : Text)
  | encodeAuto (text : Text)
  | reopen

namespace World

def step (cfg : Config D) (w : World D) : Act → Reply × World D
  | .encodeSession id text => w.encodeSession cfg id text
  | .encodeAuto text => w.encodeAuto cfg text
  | .reopen => (.plain, w.reopen cfg)

/-- A store over an empty directory. -/
def start (choices : ℕ → Choice) : World D :=
  ⟨fun _ => none, 0, [], [], ∅, ∅, ∅, none, choices, 0⟩

end World

/-- What acts that satisfy `ok` reach from an empty directory. -/
inductive Reach (cfg : Config D) (choices : ℕ → Choice) (ok : World D → Act → Prop) :
    World D → Prop
  | start : Reach cfg choices ok ((World.start choices).reopen cfg)
  | step {w : World D} (a : Act) (h : Reach cfg choices ok w) (hok : ok w a) :
      Reach cfg choices ok (w.step cfg a).2

end Toktier.Facade.Entries
