import Mathlib.Data.Char
import Mathlib.Data.List.DropRight
import Mathlib.Data.List.Lex
import Mathlib.Order.Basic
import Toktier.Facade.Jit
import Toktier.Lib.FileTree

/-!
# Bundles

Files are exported into an archive with a manifest of their sizes and digests, and imported from
it into a cache under the alias of the bundle. An import verifies the archive, extracts it into a
staging directory and renames that; where the alias is there already, the tree that is there has
to be the bundle's.

An archive is the row of its members, and the cache a tree of files. Links in the file system are
left out. What the archive format makes of a path, and JSON, are taken as they are documented.

## Main definitions

* `components`, `validateRelative`, `names`: names in archives, and the paths that they spell.
* `exportBundle`, `inspectBundle`: an archive of files, and what an archive says of itself.
* `readAndValidateManifest`, `verifyArchiveFiles`: the two passes over an archive.
* `verifyInstalled`: an installed tree is the one of a manifest.
* `importBundle`: one import into a cache.
-/
namespace Toktier.Facade.Bundle

open Toktier.Lib

/-! ### Constants -/

def MANIFEST_NAME : Text := "bundle_manifest.json".toList

/-- What the cache writes beside an installed artifact. -/
def VERIFIED_MARKER_NAME : Text := ".toktier-verified.json".toList

def ROOT_DOMAIN : List UInt8 := utf8 "toktier.bundle.v1".toList ++ [0]
def MAX_MEMBERS : ℕ := 4096
def MAX_UNCOMPRESSED : ℕ := 8 * 1024 * 1024 * 1024
def MAX_MANIFEST : ℕ := 16 * 1024 * 1024

/-! ### Errors -/

inductive ErrorCode
  | BundleInvalid
  | ArtifactNotFound
  | ArtifactSizeMismatch
  | ArtifactHashMismatch
  | AliasConflict
  | ConfigInvalid
  | CacheBusy
  | Io
  deriving DecidableEq

/-- A message quotes at most one name, where it has dots; the texts of the system are empty. -/
structure BundleError where
  code : ErrorCode
  message : String
  name : Option Text := none
  deriving DecidableEq

def bundleError (message : String) (name : Option Text := none) : BundleError :=
  ⟨.BundleInvalid, message, name⟩

/-- The alias the cache holds is not the bundle being imported. -/
def aliasConflict (message : String) (name : Option Text := none) : BundleError :=
  ⟨.AliasConflict, message, name⟩

def ioError : BundleError := ⟨.Io, "", none⟩

/-! ### Names -/

/-- A text that can be the name of an entry of a directory. -/
def Name.Valid (text : Text) : Prop :=
  text ≠ [] ∧ '/' ∉ text ∧ text ≠ ['.'] ∧ text ≠ ['.', '.']

instance (text : Text) : Decidable (Name.Valid text) :=
  inferInstanceAs (Decidable (text ≠ [] ∧ '/' ∉ text ∧ text ≠ ['.'] ∧ text ≠ ['.', '.']))

/-- The name of an entry of a directory. -/
structure Name where
  text : Text
  valid : Name.Valid text
  deriving DecidableEq

/-- A component of a path. -/
inductive Component
  | RootDir
  | CurDir
  | ParentDir
  | Normal (name : Name)
  deriving DecidableEq

/-- The component of a piece between two slashes; empty pieces have none, and a dot only has one
at the beginning. -/
def component (first : Bool) (piece : Text) : Option Component :=
  if h : Name.Valid piece then some (.Normal ⟨piece, h⟩)
  else if piece = ['.', '.'] then some .ParentDir
  else if piece = ['.'] ∧ first = true then some .CurDir
  else none

/-- The components of a path. -/
def components (path : Text) : List Component :=
  (if path.head? = some '/' then [.RootDir] else []) ++
    (match path.splitOn '/' with
    | [] => []
    | piece :: rest => (component true piece).toList ++ rest.filterMap (component false))

def Component.name? : Component → Option Name
  | .Normal name => some name
  | _ => none

/-- The path that a name spells. -/
def names (name : Text) : List Name := (components name).filterMap Component.name?

/-- A path as it is displayed. -/
def joined (path : List Name) : Text := ['/'].intercalate (path.map Name.text)

def validateRelative (name : Text) (what : String) : Except BundleError Unit :=
  if name = [] ∨ '\\' ∈ name ∨ '\x00' ∈ name ∨ '\r' ∈ name ∨ '\n' ∈ name ∨
      name.head? = some '/' ∨ ∃ c ∈ components name, c.name? = none then
    .error (bundleError s!"unsafe {what} …" (some name))
  else .ok ()

/-- The path of a name below a root. -/
def safeJoin (name : Text) : Except BundleError (List Name) := do
  validateRelative name "bundle path"
  .ok (names name)

/-- The name ends as only the name of a directory may, in a slash or in a dot of its own. -/
def spellsDirectory (name : Text) : Bool :=
  name.getLast? = some '/' || ['/', '.'].isSuffixOf name

/-! ### Archives -/

inductive EntryType
  | Regular
  | Directory
  | Symlink
  | Link
  | Other
  deriving DecidableEq

/-- A member of an archive; a name that is not UTF-8 is missing. -/
structure Member where
  name : Option Text
  entryType : EntryType
  size : ℕ
  data : List UInt8

/-- An archive; a member that cannot be read is missing. -/
abbrev Archive := List (Option Member)

structure BundleFile where
  path : Text
  sha256 : Text
  size : ℕ
  deriving DecidableEq

structure BundleManifest where
  aliasName : Text
  files : List BundleFile
  rootDigest : Text
  deriving DecidableEq

/-- The formats that others define: the path field of an archive's header, and JSON. -/
class Formats where
  /-- What is stored of a path; not every path fits. -/
  setPath : Text → Option Text
  toVecPretty : BundleManifest → List UInt8
  fromSlice : List UInt8 → Option BundleManifest
  /-- The components are stored, and a slash behind the last one. -/
  setPath_eq {name stored : Text} (h : setPath name = some stored) :
    stored = joined (names name) ++ if name.getLast? = some '/' then ['/'] else []
  fromSlice_toVecPretty (manifest : BundleManifest) :
    fromSlice (toVecPretty manifest ++ [10]) = some manifest

/-! ### Digests -/

def BundleFile.json (row : BundleFile) : Text :=
  Jit.jsonObject
    [("path", Jit.jsonString (String.ofList row.path)),
     ("sha256", Jit.jsonString (String.ofList row.sha256)),
     ("size", (toString row.size).toList)]

def rootDigest (aliasName : Text) (files : List BundleFile) : Text :=
  "sha256:".toList ++ Jit.domainSha256Hex ROOT_DOMAIN (utf8 (Jit.jsonObject
    [("alias", Jit.jsonString (String.ofList aliasName)),
     ("files", Jit.jsonList (files.map BundleFile.json))]))

/-- The digest and the size of a file. -/
def hashFile (data : List UInt8) : Text × ℕ := (Jit.sha256Hex data, data.length)

/-! ### The manifest -/

def trimSlashes (name : Text) : Text := name.rdropWhile (· = '/')

/-- The first pass over the members, after those of the names, count and total given; `found` is
the manifest of one of these. -/
def scanMembers : List Text → ℕ → ℕ → Option (List UInt8) → Archive →
    Except BundleError (Option (List UInt8))
  | _, _, _, found, [] => .ok found
  | _, _, _, _, none :: _ => .error (bundleError "cannot read tar member")
  | seen, count, total, found, some member :: rest =>
      if count + 1 > MAX_MEMBERS then .error (bundleError "bundle member limit exceeded")
      else
        match member.name with
        | none => .error (bundleError "bundle member path is not UTF-8")
        | some raw => do
            let name := trimSlashes raw
            validateRelative name "bundle member"
            if name ∈ seen then .error (bundleError "duplicate bundle member …" (some name))
            else if member.entryType = .Symlink ∨ member.entryType = .Link then
              .error (bundleError "link member … is forbidden" (some name))
            else if ¬(member.entryType = .Regular ∨ member.entryType = .Directory) then
              .error (bundleError "special member … is forbidden" (some name))
            else
              let total := total + member.size
              if total ≥ 2 ^ 64 then .error (bundleError "bundle size overflow")
              else if total > MAX_UNCOMPRESSED then
                .error (bundleError "bundle exceeds the 8 GiB limit")
              else if name = MANIFEST_NAME then
                if ¬(member.entryType = .Regular) ∨ member.size > MAX_MANIFEST then
                  .error (bundleError "invalid bundle manifest member")
                else scanMembers (name :: seen) (count + 1) total (some member.data) rest
              else scanMembers (name :: seen) (count + 1) total found rest

def isLowerHexDigit (c : Char) : Bool := ('0' ≤ c && c ≤ '9') || ('a' ≤ c && c ≤ 'f')

/-- The rows of a manifest, after those of the paths given. -/
def checkRows : List Text → List BundleFile → Except BundleError Unit
  | _, [] => .ok ()
  | declared, row :: rows => do
      validateRelative row.path "manifest file"
      if row.path = MANIFEST_NAME ∨ row.path ∈ declared then
        .error (bundleError "reserved or duplicate manifest path")
      else if row.sha256.length ≠ 64 ∨ ¬row.sha256.all isLowerHexDigit then
        .error (bundleError "invalid manifest sha256")
      else checkRows (row.path :: declared) rows

def readAndValidateManifest [Formats] (archive : Archive) : Except BundleError BundleManifest := do
  match ← scanMembers [] 0 0 none archive with
  | none => .error (bundleError "bundle_manifest.json is missing")
  | some bytes =>
      match Formats.fromSlice bytes with
      | none => .error (bundleError "cannot parse bundle manifest")
      | some manifest => do
          validateRelative manifest.aliasName "bundle alias"
          if manifest.files = [] then .error (bundleError "bundle manifest has no files")
          else do
            checkRows [] manifest.files
            if manifest.rootDigest ≠ rootDigest manifest.aliasName manifest.files then
              .error (bundleError "bundle root digest mismatch")
            else .ok manifest

/-! ### The file system -/

/-- What is in a file system and no directory. -/
inductive Leaf
  | File (data : List UInt8)
  | Special
  deriving DecidableEq

/-- A directory of the file system. -/
abbrev Tree := FileTree Name Leaf

/-- Create a directory and every missing one on the way to it. -/
def ensurePrivateDirectory (root : Tree) (path : List Name) : Except BundleError Tree :=
  match root.get path with
  | some (.file _) =>
      .error ⟨.ConfigInvalid, "directory path is not a regular directory", none⟩
  | _ =>
      match root.mkdirs path with
      | none =>
          .error ⟨.ConfigInvalid, "bundle path contains a non-directory component", none⟩
      | some root => .ok root

/-- Create a new file of an archive below a destination. -/
def createNew (root : Tree) (name : Text) (data : List UInt8) : Except BundleError Tree := do
  let target ← safeJoin name
  let root ← ensurePrivateDirectory root target.dropLast
  if spellsDirectory name then .error ioError
  else
    match root.place target (.file (.File data)) with
    | none => .error ioError
    | some root => .ok root

/-- There is something of this name. -/
def existsAt (root : Tree) (name : Text) : Bool :=
  match root.get (names name) with
  | none => false
  | some (.file _) => !spellsDirectory name
  | some (.dir _) => true

/-! ### The files of an archive -/

def copyAndHash (data : List UInt8) (row : BundleFile) : Except BundleError Unit :=
  if data.length > row.size then
    .error ⟨.ArtifactSizeMismatch, "bundle member … exceeds declared size", some row.path⟩
  else if data.length ≠ row.size then
    .error ⟨.ArtifactSizeMismatch, "bundle member … is too short", some row.path⟩
  else if (hashFile data).1 ≠ row.sha256 then
    .error ⟨.ArtifactHashMismatch, "bundle member … has another sha256", some row.path⟩
  else .ok ()

/-- Write a file of an archive to the destination, if there is one. -/
def extract (destination : Option Tree) (name : Text) (data : List UInt8) :
    Except BundleError (Option Tree) :=
  match destination with
  | none => .ok none
  | some root => (createNew root name data).map some

/-- The second pass over the members, after those of the names given; with a destination, it
extracts them. -/
def verifyMembers (rows : List BundleFile) : Option Tree → List Text → Archive →
    Except BundleError (Option Tree × List Text)
  | destination, seen, [] => .ok (destination, seen)
  | _, _, none :: _ => .error (bundleError "cannot read tar member")
  | destination, seen, some member :: rest =>
      if member.entryType ≠ .Regular then verifyMembers rows destination seen rest
      else
        match member.name with
        | none => .error (bundleError "bundle member path is not UTF-8")
        | some name =>
            if name = MANIFEST_NAME then verifyMembers rows destination seen rest
            else
              match rows.find? fun row => row.path = name with
              | none => .error (bundleError "undeclared archive file …" (some name))
              | some row =>
                  if name ∈ seen then
                    .error (bundleError "duplicate archive file …" (some name))
                  else do
                    let destination ← extract destination name member.data
                    copyAndHash member.data row
                    verifyMembers rows destination (name :: seen) rest

def verifyArchiveFiles (archive : Archive) (manifest : BundleManifest)
    (destination : Option Tree) : Except BundleError (Option Tree) := do
  let (destination, seen) ← verifyMembers manifest.files destination [] archive
  if seen.length ≠ manifest.files.length then .error (bundleError "missing archive files")
  else .ok destination

/-! ### Export -/

/-- Facts authenticated by a bundle's root digest. -/
structure BundleInspection where
  aliasName : Text
  files : List BundleFile
  rootDigest : Text
  totalSize : ℕ

def inspection (manifest : BundleManifest) : Except BundleError BundleInspection :=
  let totalSize := (manifest.files.map BundleFile.size).sum
  if totalSize ≥ 2 ^ 64 then .error (bundleError "bundle size overflow")
  else .ok ⟨manifest.aliasName, manifest.files, manifest.rootDigest, totalSize⟩

/-- Verify an archive and all declared file bytes without installing it. -/
def inspectBundle [Formats] (archive : Archive) : Except BundleError BundleInspection := do
  let manifest ← readAndValidateManifest archive
  let _ ← verifyArchiveFiles archive manifest none
  inspection manifest

/-- What is at the source of a file. -/
inductive Source
  | Absent
  | NotRegular
  | File (data : List UInt8)

/-- The sources by their names, in the order of the names. -/
structure SourceMap where
  rows : List (Text × Source)
  sorted : rows.Pairwise fun a b => a.1 < b.1

/-- The rows of a manifest, for sources behind those of the size given. -/
def bundleFiles : ℕ → List (Text × Source) → Except BundleError (List BundleFile)
  | _, [] => .ok []
  | total, (name, source) :: rest => do
      validateRelative name "bundle member"
      if name = MANIFEST_NAME then .error (bundleError "bundle manifest name is reserved")
      else
        match source with
        | .Absent => .error ⟨.ArtifactNotFound, "", none⟩
        | .NotRegular =>
            .error ⟨.ArtifactNotFound, "bundle sources must be regular non-symlink files", none⟩
        | .File data =>
            let (sha256, size) := hashFile data
            let total := total + size
            if total ≥ 2 ^ 64 then .error (bundleError "bundle size overflow")
            else if total > MAX_UNCOMPRESSED then
              .error (bundleError "bundle exceeds the 8 GiB limit")
            else do
              let rows ← bundleFiles total rest
              .ok (⟨name, sha256, size⟩ :: rows)

/-- A regular member; the path has to fit its header. -/
def regularMember [Formats] (name : Text) (size : ℕ) (data : List UInt8) : Except BundleError Member :=
  match Formats.setPath name with
  | none => .error (bundleError "")
  | some stored => .ok ⟨some stored, .Regular, size, data⟩

def appendFile [Formats] (files : SourceMap) (row : BundleFile) : Except BundleError Member :=
  match files.rows.find? fun source => source.1 = row.path with
  | some (_, .File data) => regularMember row.path row.size data
  | _ => .error ioError

/-- Write the archive of some files; it is read back before it is published. -/
def exportBundle [Formats] (aliasName : Text) (files : SourceMap) :
    Except BundleError (Archive × BundleInspection) := do
  validateRelative aliasName "bundle alias"
  if files.rows = [] then .error (bundleError "bundle must contain at least one file")
  else if files.rows.length + 1 > MAX_MEMBERS then
    .error (bundleError "bundle member limit exceeded")
  else do
    let rows ← bundleFiles 0 files.rows
    let rows := rows.mergeSort fun a b => a.path ≤ b.path
    let manifest : BundleManifest := ⟨aliasName, rows, rootDigest aliasName rows⟩
    let manifestBytes := Formats.toVecPretty manifest ++ [10]
    let head ← regularMember MANIFEST_NAME manifestBytes.length manifestBytes
    let members ← rows.mapM (appendFile files)
    let archive := (head :: members).map some
    let _ ← inspectBundle archive
    let facts ← inspection manifest
    .ok (archive, facts)

/-! ### Installed trees -/

def stripPrefix (start text : Text) : Option Text :=
  if start.isPrefixOf text then some (text.drop start.length) else none

def stripSuffix (stop text : Text) : Option Text :=
  if stop.isSuffixOf text then some (text.take (text.length - stop.length)) else none

def isNumeric (field : Text) : Bool := field ≠ [] && field.all Char.isDigit

/-- This is the name of a leftover from the verified marker's own write. -/
def isMarkerTemporary (name : Text) : Bool :=
  match (stripPrefix (VERIFIED_MARKER_NAME ++ ['.']) name).bind (stripSuffix ".tmp".toList) with
  | some pid => isNumeric pid
  | none =>
      match (stripPrefix ('.' :: VERIFIED_MARKER_NAME ++ ['.']) name).bind
          (stripSuffix ".part".toList) with
      | some fields =>
          let pid := fields.takeWhile (· ≠ '.')
          fields.contains '.' && isNumeric pid && isNumeric (fields.drop (pid.length + 1))
      | none => false

/-- The leftovers of the marker's own write are the files that are cleared. -/
def keepsEntry (name : Name) : Leaf → Bool
  | .File _ => !isMarkerTemporary name.text
  | .Special => true

/-- Clear leftovers of the verified marker's own write from the top of a tree. -/
def pruneMarkerTemporaries : Tree → Tree := FileTree.retain keepsEntry

/-- Why an entry has no place in a tree, if it has none. -/
def unexpected? (rows : List BundleFile) (entry : List Name × Leaf) : Option (Text × String) :=
  let name := joined entry.1
  match entry.2 with
  | .Special => some (name, "installed bundle contains a special file")
  | .File _ =>
      if name = VERIFIED_MARKER_NAME then none
      else if rows.any fun row => row.path = name then none
      else some (name, "installed bundle contains undeclared file …")

/-- The names of the declared files that are there. -/
def observed? (rows : List BundleFile) (entry : List Name × Leaf) : Option Text :=
  let name := joined entry.1
  match entry.2 with
  | .Special => none
  | .File _ =>
      if name = VERIFIED_MARKER_NAME then none
      else if rows.any fun row => row.path = name then some name
      else none

def checkInstalledRow (root : Tree) (observed : List Text) (row : BundleFile) :
    Except BundleError Unit := do
  let path ← safeJoin row.path
  if row.path ∉ observed then
    .error (aliasConflict "installed bundle is missing one or more declared files")
  else
    match root.get path with
    | none => .error (aliasConflict "")
    | some (.file (.File data)) =>
        let (digest, size) := hashFile data
        if size ≠ row.size ∨ digest ≠ row.sha256 then
          .error (aliasConflict "existing bundle target is not identical for …" (some row.path))
        else .ok ()
    | some _ => .error (aliasConflict "installed bundle member is not a regular file")

/-- Re-read an installed alias against the manifest that claims it. The entry that is reported is
the first one by its name. -/
def verifyInstalled (node : FileTree.Node Name Leaf) (manifest : BundleManifest) :
    Except BundleError Unit :=
  match node with
  | .file _ => .error ioError
  | .dir root =>
      let unexpected := root.files.filterMap (unexpected? manifest.files)
      match (unexpected.mergeSort fun a b => a.1 ≤ b.1).head? with
      | some (name, message) => .error (aliasConflict message (some name))
      | none =>
          let observed := root.files.filterMap (observed? manifest.files)
          (manifest.files.mergeSort fun a b => a.path ≤ b.path).forM
            (checkInstalledRow root observed)

/-! ### Import -/

def stagingText (pid nonce : ℕ) : Text :=
  ".toktier-bundle-import.".toList ++ Nat.toDigits 10 pid ++ '.' :: Nat.toDigits 10 nonce

theorem not_slash_toDigits (n : ℕ) : '/' ∉ Nat.toDigits 10 n := fun h =>
  absurd (Nat.isDigit_of_mem_toDigits (by decide) (by decide) h) (by decide)

theorem valid_stagingText (pid nonce : ℕ) : Name.Valid (stagingText pid nonce) := by
  refine ⟨nofun, ?_, nofun, nofun⟩
  unfold stagingText
  rw [List.mem_append, List.mem_append, List.mem_cons]
  rintro ((h | h) | h | h)
  · exact absurd h (by decide)
  · exact not_slash_toDigits pid h
  · cases h
  · exact not_slash_toDigits nonce h

def stagingName (pid nonce : ℕ) : Name := ⟨stagingText pid nonce, valid_stagingText pid nonce⟩

/-- The first staging directory that is not there yet. -/
def uniqueDirectory (pid : ℕ) (cache : Tree) : Option Name :=
  ((List.range 1024).map (stagingName pid)).find? fun name => (cache.find name).isNone

/-- Rename the staging directory; it cannot move into itself, nor to a name that ends in a dot. -/
def renameStaging (cache : Tree) (staging : Name) (staged : Tree) (aliasName : Text) :
    Except BundleError Tree :=
  let target := names aliasName
  if [staging].isPrefixOf target ∨ ['/', '.'].isSuffixOf (trimSlashes aliasName) then .error ioError
  else
    match (cache.erase staging).place target (.dir staged) with
    | none => .error ioError
    | some cache => .ok cache

/-- What an import does when its files are staged; the cache that it leaves is next to its
outcome. -/
def installStaged (staging : Name) (staged : Tree) (manifest : BundleManifest) (cache : Tree) :
    Except BundleError (List Name) × Tree :=
  let target := names manifest.aliasName
  if existsAt cache manifest.aliasName then
    let cache := cache.alter target pruneMarkerTemporaries
    match cache.get target with
    | none => (.error ioError, cache)
    | some node =>
        match verifyInstalled node manifest with
        | .error e => (.error e, cache)
        | .ok _ => (.ok target, cache.erase staging)
  else
    match ensurePrivateDirectory cache target.dropLast with
    | .error e => (.error e, cache)
    | .ok cache =>
        match renameStaging cache staging staged manifest.aliasName with
        | .error e => (.error e, cache)
        | .ok cache => (.ok target, cache)

/-- Verify an archive into private staging and install its alias, by a process of this number. -/
def importBundle [Formats] (pid : ℕ) (archive : Archive) (cache : Tree) :
    Except BundleError (List Name) × Tree :=
  match readAndValidateManifest archive with
  | .error e => (.error e, cache)
  | .ok manifest =>
      match uniqueDirectory pid cache with
      | none => (.error ⟨.CacheBusy, "cannot allocate bundle staging directory", none⟩, cache)
      | some staging =>
          match safeJoin manifest.aliasName with
          | .error e => (.error e, cache.put staging (.dir .nil))
          | .ok _ =>
              match verifyArchiveFiles archive manifest (some .nil) with
              -- what was extracted is removed with the staging directory
              | .error e => (.error e, (cache.put staging (.dir .nil)).erase staging)
              | .ok staged =>
                  let staged := staged.getD .nil
                  match installStaged staging staged manifest (cache.put staging (.dir staged)) with
                  | (.error e, cache) => (.error e, cache.erase staging)
                  | (.ok target, cache) => (.ok target, cache)

/-- Imports one after another, by processes of these numbers; nothing when one of them fails. -/
def importRun [Formats] (archive : Archive) : List ℕ → Tree → Option Tree
  | [], cache => some cache
  | pid :: pids, cache =>
      match importBundle pid archive cache with
      | (.error _, _) => none
      | (.ok _, cache) => importRun archive pids cache

end Toktier.Facade.Bundle
