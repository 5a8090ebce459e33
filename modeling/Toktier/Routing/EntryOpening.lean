import Toktier.Routing.EntryMoves
import Toktier.StoreCore.Primitives
import Toktier.StoreCore.Runs

/-!
# The tables of the entry store over a run

An opening takes every row that its directory has, from the index file or, when that cannot be
read, from the records; it does not cap the automatic entries. The tables are coherent in every
state of a run, and the automatic entries stay within the cap as long as no opening finds more.

## Main definitions

* `Disk.foundNames`, `Disk.autoNames`: what an opening finds.
* `FewAutos`: what it finds is within the cap.

## Main results

* `coherent_capped_iff`: the states of every run.
-/
namespace Toktier.Routing.Entries

open Toktier.Lib Toktier.StoreCore NativeEntryStore

section Opening

variable [Digests]

/-- The record under a name gives a row to a rebuilt index. -/
def Disk.yieldsRow (disk : Disk) (name : Text) : Bool :=
  match disk.rebuildRow name with
  | .ok (some _) => true
  | _ => false

/-- The names that an opening finds: in the index file, or else among the records. -/
def Disk.foundNames (disk : Disk) : List Text :=
  match disk.indexFile with
  | some index => index.keys
  | none => disk.records.keys.filter disk.yieldsRow

/-- The automatic entries among them. -/
def Disk.autoNames (disk : Disk) : List Text :=
  disk.foundNames.filter fun name => EntryKind.ofName name = .auto

theorem Disk.nodup_foundNames (disk : Disk) : disk.foundNames.Nodup := by
  unfold foundNames
  split
  · exact AList.keys_nodup _
  · exact (AList.keys_nodup _).filter _

/-- A rebuild goes through the records one by one. -/
theorem mem_of_rebuild (disk : Disk) (paths : List Text) {index index' : Table Text ContentIndexEntry}
    (h : paths.foldlM (fun index name => do
      match ← disk.rebuildRow name with
      | some row => return index.insert name row
      | none => return index) index = Except.ok index') (name : Text) :
    name ∈ index' ↔ name ∈ index ∨ name ∈ paths ∧ disk.yieldsRow name = true := by
  induction paths generalizing index with
  | nil =>
    cases h
    simp
  | cons path paths ih =>
    rw [List.foldlM_cons] at h
    unfold Disk.yieldsRow at ih ⊢
    cases hrow : disk.rebuildRow path with
    | error e =>
      rw [hrow] at h
      cases h
    | ok row =>
      rw [hrow] at h
      cases row with
      | none =>
        rw [ih h]
        by_cases heq : name = path
        · subst heq
          simp [hrow]
        · simp [heq]
      | some row =>
        rw [ih h, AList.mem_insert]
        by_cases heq : name = path
        · subst heq
          simp [hrow]
        · simp [heq]

theorem Disk.mem_loadIndex {disk : Disk} {index : Table Text ContentIndexEntry}
    (h : disk.loadIndex = .ok index) (name : Text) : name ∈ index ↔ name ∈ disk.foundNames := by
  unfold loadIndex at h
  unfold foundNames
  cases hfile : disk.indexFile with
  | some file =>
    rw [hfile] at h
    cases h
    rfl
  | none =>
    rw [hfile] at h
    rw [mem_of_rebuild disk _ h, List.mem_filter, List.mem_insertionSort]
    simp

omit [Digests] in
/-- The entries of an index, each only on disk. -/
theorem lookup_diskEntries (index : Table Text ContentIndexEntry) (names : List Text)
    (entries : Table Text Entry) (name : Text) :
    (diskEntries index names entries).lookup name =
      if name ∈ names ∧ name ∈ index then (index.lookup name).map (diskEntry name)
      else entries.lookup name := by
  unfold diskEntries
  induction names generalizing entries with
  | nil => simp
  | cons first names ih =>
    rw [List.foldl_cons, ih]
    by_cases hin : name ∈ names ∧ name ∈ index
    · rw [if_pos hin, if_pos ⟨List.mem_cons_of_mem _ hin.1, hin.2⟩]
    · rw [if_neg hin]
      by_cases heq : name = first
      · subst heq
        cases hrow : index.lookup name with
        | none =>
          have hnot : name ∉ index := AList.lookup_eq_none.mp hrow
          rw [if_neg fun h => hnot h.2]
        | some row =>
          have hmem : name ∈ index := mem_of_lookup hrow
          rw [if_pos ⟨List.mem_cons_self, hmem⟩]
          exact AList.lookup_insert _
      · have hiff : (name ∈ first :: names ∧ name ∈ index) ↔ name ∈ names ∧ name ∈ index := by
          simp [heq]
        rw [if_neg (mt hiff.mp hin)]
        cases index.lookup first with
        | none => rfl
        | some row => exact AList.lookup_insert_ne heq

/-- The tables that were loaded from a directory: they are coherent, with the names that were
found, and nothing is in memory. -/
structure Loaded (disk : Disk) (w : NativeEntryStore) : Prop where
  coherent : w.Coherent
  names : ∀ name, name ∈ w.entries ↔ name ∈ disk.foundNames
  kinds : ∀ name e, w.entries.lookup name = some e → e.kind = EntryKind.ofName name
  texts : ∀ name e, w.entries.lookup name = some e → e.text = none ∧ e.handle = none

theorem Loaded.of_same {disk : Disk} {w w' : NativeEntryStore} (h : Loaded disk w)
    (hs : SameTables w w') : Loaded disk w' := by
  refine ⟨h.coherent.of_same hs, ?_, ?_, ?_⟩
  · rw [hs.entries]
    exact h.names
  · rw [hs.entries]
    exact h.kinds
  · rw [hs.entries]
    exact h.texts

theorem loaded_withIndex {w : NativeEntryStore} {index : Table Text ContentIndexEntry}
    (hload : w.disk.loadIndex = .ok index) (hentries : w.entries = ∅) (hlru : w.lru = []) :
    Loaded w.disk (w.withIndex index) := by
  have hperm := List.perm_insertionSort (· ≤ ·) index.keys
  have hlookup : ∀ name, (w.withIndex index).entries.lookup name =
      (index.lookup name).map (diskEntry name) := by
    intro name
    simp only [NativeEntryStore.withIndex]
    rw [lookup_diskEntries, hentries]
    split
    · rfl
    · rename_i hnot
      have hout : name ∉ index := fun hin => hnot ⟨hperm.mem_iff.mpr hin, hin⟩
      rw [AList.lookup_eq_none.mpr hout]
      rfl
  have hmem : ∀ name, name ∈ (w.withIndex index).entries ↔ name ∈ index := by
    intro name
    rw [← AList.lookup_isSome, hlookup, Option.isSome_map, AList.lookup_isSome]
  have hlist : (w.withIndex index).lru = index.keys.insertionSort (· ≤ ·) := by
    simp only [NativeEntryStore.withIndex, hlru, List.nil_append]
  constructor
  · constructor
    · rw [hlist]
      exact hperm.nodup_iff.mpr (AList.keys_nodup _)
    · intro name
      rw [hlist, hperm.mem_iff, hmem]
      rfl
    · intro name
      rw [hmem]
      rfl
  · intro name
    rw [hmem, Disk.mem_loadIndex hload]
  · intro name e hname
    rw [hlookup, Option.map_eq_some_iff] at hname
    obtain ⟨row, -, rfl⟩ := hname
    rfl
  · intro name e hname
    rw [hlookup, Option.map_eq_some_iff] at hname
    obtain ⟨row, -, rfl⟩ := hname
    exact ⟨rfl, rfl⟩

theorem loaded_of_load {cfg : Setting} {w w' : NativeEntryStore}
    (h : w.loadOrRebuildIndex cfg = .ok w') (hentries : w.entries = ∅) (hlru : w.lru = []) :
    Loaded w.disk w' ∧ w'.store = w.store := by
  unfold NativeEntryStore.loadOrRebuildIndex at h
  cases hload : w.disk.loadIndex with
  | error e =>
    rw [hload] at h
    cases h
  | ok index =>
    rw [hload] at h
    have hloaded := loaded_withIndex hload hentries hlru
    dsimp only [bind, Except.bind, pure, Except.pure] at h
    by_cases hfile : w.disk.indexFile.isSome = true
    · rw [if_pos hfile] at h
      cases h
      exact ⟨hloaded, rfl⟩
    · rw [if_neg hfile] at h
      cases h
      unfold persistIndex
      split
      · refine ⟨hloaded.of_same (sameTables_change _ _), ?_⟩
        rw [change_eq]
        rfl
      · exact ⟨hloaded, rfl⟩

omit [Digests] in
/-- A session store that was just opened tracks contents. -/
theorem tracked_openSessions {cfg : Setting} {keyId : ℕ} {S : Store}
    (h : openSessions cfg = .ok (keyId, S)) : S.Tracked := by
  unfold openSessions at h
  cases hnew : Store.new ⟨4096, 65536, 1048576, 65536, NATIVE_MAX_SESSIONS⟩ with
  | error e =>
    rw [hnew] at h
    cases h
  | ok S₀ =>
    rw [hnew] at h
    have hempty : S₀.sessions = ∅ := (Store.new_ok hnew).2.2.1
    have hwp : wp (do
        runIf (cfg.directory = true) Store.enableRecoveryTracking
        Store.enableContentTracking
        Store.registerFingerprint cfg.fingerprint cfg.sealEndGuardChars)
        (fun _ S' => S'.contentTracking = true ∧ S'.sessions = ∅) (fun _ _ => True) S₀ := by
      have hregister (S' : Store) (hon : S'.contentTracking = true) (hS' : S'.sessions = ∅) :
          wp (Store.registerFingerprint cfg.fingerprint cfg.sealEndGuardChars)
            (fun _ S' => S'.contentTracking = true ∧ S'.sessions = ∅) (fun _ _ => True) S' := by
        simp only [Store.registerFingerprint, wp_bind, wp_get]
        split
        · simp only [wp_bind, wp_throwIf, wp_pure]
          exact ⟨fun _ => trivial, fun _ => ⟨hon, hS'⟩⟩
        · simp only [wp_bind, wp_throwIf, wp_set, wp_pure]
          exact ⟨fun _ => trivial, fun _ => ⟨hon, hS'⟩⟩
      simp only [wp_bind, wp_runIf, Store.enableRecoveryTracking, Store.enableContentTracking, wp_get,
        wp_throwIf, wp_set]
      refine ⟨fun _ => ⟨fun _ => trivial, fun _ => ⟨fun _ => trivial, fun _ => hregister _ rfl hempty⟩⟩,
        fun _ => ⟨fun _ => trivial, fun _ => hregister _ rfl hempty⟩⟩
    dsimp only [bind, Except.bind] at h
    split at h
    · rename_i keyId' S' hrun
      cases h
      obtain ⟨hon, hsessions⟩ := hwp.of_ok hrun
      refine ⟨hon, fun k s hs => ?_⟩
      rw [hsessions] at hs
      cases hs
    · cases h

/-- What an opening gives: the tables of its directory, or empty ones. -/
structure Opened (cfg : Setting) (disk : Disk) (w : NativeEntryStore) : Prop where
  tracked : w.store.Tracked
  loaded : cfg.directory = true → Loaded disk w
  empty : cfg.directory ≠ true → w.entries = ∅ ∧ w.index = ∅ ∧ w.lru = []

theorem opened_of_open {cfg : Setting} {disk : Disk} {faults : ℕ → Bool} {tick : ℕ}
    {w : NativeEntryStore} (h : openStore cfg disk faults tick = .ok w) : Opened cfg disk w := by
  unfold openStore at h
  cases hsessions : openSessions cfg with
  | error e =>
    rw [hsessions] at h
    cases h
  | ok opened =>
    obtain ⟨keyId, store⟩ := opened
    rw [hsessions] at h
    have htracked := tracked_openSessions hsessions
    dsimp only [bind, Except.bind, pure, Except.pure] at h
    by_cases hdir : cfg.directory = true
    · rw [if_pos hdir] at h
      obtain ⟨hloaded, hstore⟩ := loaded_of_load h rfl rfl
      refine ⟨?_, fun _ => hloaded, fun hnot => absurd hdir hnot⟩
      rw [hstore]
      exact htracked
    · rw [if_neg hdir] at h
      cases h
      exact ⟨htracked, fun hyes => absurd hyes hdir, fun _ => ⟨rfl, rfl, rfl⟩⟩

theorem Opened.coherent {cfg : Setting} {disk : Disk} {w : NativeEntryStore}
    (h : Opened cfg disk w) : w.Coherent := by
  by_cases hdir : cfg.directory = true
  · exact (h.loaded hdir).coherent
  · obtain ⟨he, hi, hl⟩ := h.empty hdir
    refine ⟨?_, ?_, ?_⟩
    · rw [hl]
      exact List.nodup_nil
    · intro name
      rw [hl, he]
      exact Iff.rfl
    · intro name
      rw [hi, he]
      exact Iff.rfl

theorem Opened.known {cfg : Setting} {disk : Disk} {w : NativeEntryStore} (h : Opened cfg disk w) :
    w.Known := by
  intro name e handle hname hhandle
  by_cases hdir : cfg.directory = true
  · rw [((h.loaded hdir).texts name e hname).2] at hhandle
    cases hhandle
  · rw [(h.empty hdir).1] at hname
    cases hname

/-- Nothing is in memory after an opening. -/
theorem Opened.unread {cfg : Setting} {disk : Disk} {w : NativeEntryStore} (h : Opened cfg disk w)
    {name : Text} {e : Entry} (hname : w.entries.lookup name = some e) : e.text = none := by
  by_cases hdir : cfg.directory = true
  · exact ((h.loaded hdir).texts name e hname).1
  · rw [(h.empty hdir).1] at hname
    cases hname

/-- The automatic entries of a loaded directory are those that were found. -/
theorem Loaded.autoCount_eq {disk : Disk} {w : NativeEntryStore} (h : Loaded disk w) :
    w.autoCount = disk.autoNames.length := by
  have hcount : w.autoCount =
      (w.entries.keys.filter fun name => EntryKind.ofName name = .auto).length := by
    unfold NativeEntryStore.autoCount
    rw [← List.countP_eq_length_filter, AList.keys, List.keys, List.countP_map]
    apply List.countP_congr
    intro e he
    have hlookup : w.entries.lookup e.1 = some e.2 := AList.mem_lookup_iff.mpr he
    rw [h.kinds e.1 e.2 hlookup]
    rfl
  have hperm : w.entries.keys.Perm disk.foundNames := by
    refine (List.perm_ext_iff_of_nodup (AList.keys_nodup _) disk.nodup_foundNames).mpr ?_
    exact h.names
  rw [hcount]
  exact (hperm.filter _).length_eq

/-- The directory of an opening has no more automatic entries than the cap allows: rows of its
index file, or, when that cannot be read, records. -/
def FewAutos (cfg : Setting) (disk : Disk) : Prop :=
  cfg.directory = true → disk.autoNames.length ≤ MAX_AUTO_ENTRIES

theorem Opened.capped_iff {cfg : Setting} {disk : Disk} {w : NativeEntryStore}
    (h : Opened cfg disk w) : w.autoCount ≤ MAX_AUTO_ENTRIES ↔ FewAutos cfg disk := by
  unfold FewAutos
  by_cases hdir : cfg.directory = true
  · rw [(h.loaded hdir).autoCount_eq]
    exact ⟨fun hle _ => hle, fun hle => hle hdir⟩
  · refine ⟨fun _ hyes => absurd hyes hdir, fun _ => ?_⟩
    rw [NativeEntryStore.autoCount_eq, (h.empty hdir).1, total_empty]
    exact Nat.zero_le _

/-! ### Runs -/

/-- The tables are coherent in every state. -/
theorem Reach.coherent {cfg : Setting} {okDisk : Disk → Prop} {ok : NativeEntryStore → Act → Prop}
    {w : NativeEntryStore} (h : Reach cfg okDisk ok w) : w.Coherent := by
  induction h with
  | opened _ hopen => exact (opened_of_open hopen).coherent
  | act a _ _ ih => exact (moves_after cfg _ a).coherent ih
  | reopened _ _ hopen _ => exact (opened_of_open hopen).coherent

/-- Contents are tracked in every state. -/
theorem Reach.tracked {cfg : Setting} {okDisk : Disk → Prop} {ok : NativeEntryStore → Act → Prop}
    {w : NativeEntryStore} (h : Reach cfg okDisk ok w) : w.store.Tracked := by
  induction h with
  | opened _ hopen => exact (opened_of_open hopen).tracked
  | act a _ _ ih => exact (moves_after cfg _ a).carries.tracked ih
  | reopened _ _ hopen _ => exact (opened_of_open hopen).tracked

/-- The handles are known in every state. -/
theorem Reach.known {cfg : Setting} {okDisk : Disk → Prop} {ok : NativeEntryStore → Act → Prop}
    {w : NativeEntryStore} (h : Reach cfg okDisk ok w) : w.Known := by
  induction h with
  | opened _ hopen => exact (opened_of_open hopen).known
  | act a _ _ ih => exact (moves_after cfg _ a).known ih
  | reopened _ _ hopen _ => exact (opened_of_open hopen).known

theorem Reach.capped {cfg : Setting} {okDisk : Disk → Prop} {ok : NativeEntryStore → Act → Prop}
    (hfew : ∀ disk faults tick w, okDisk disk → openStore cfg disk faults tick = .ok w →
      FewAutos cfg disk)
    {w : NativeEntryStore} (h : Reach cfg okDisk ok w) : w.autoCount ≤ MAX_AUTO_ENTRIES := by
  induction h with
  | opened hdisk hopen => exact (opened_of_open hopen).capped_iff.mpr (hfew _ _ _ _ hdisk hopen)
  | act a hreach _ ih => exact (moves_after cfg _ a).autos hreach.coherent ih
  | reopened _ hdisk hopen _ =>
    exact (opened_of_open hopen).capped_iff.mpr (hfew _ _ _ _ hdisk hopen)

/-- In every state of every run the entries, the rows of the index and the names of the list
correspond one to one; and the automatic entries are within the cap in every state exactly
when every directory that is opened has few of them. -/
theorem coherent_capped_iff (cfg : Setting) (okDisk : Disk → Prop)
    (ok : NativeEntryStore → Act → Prop) :
    (∀ w, Reach cfg okDisk ok w → w.Coherent) ∧
      ((∀ w, Reach cfg okDisk ok w → w.autoCount ≤ MAX_AUTO_ENTRIES) ↔
        ∀ disk faults tick w, okDisk disk → openStore cfg disk faults tick = .ok w →
          FewAutos cfg disk) := by
  refine ⟨fun w h => h.coherent, fun hcap disk faults tick w hdisk hopen => ?_, fun hfew w h => ?_⟩
  · exact (opened_of_open hopen).capped_iff.mp (hcap w (.opened hdisk hopen))
  · exact h.capped hfew

end Opening

/-! ### A crowded directory -/

def BASE64_URL_ALPHABET : List Char :=
  "ABCDEFGHIJKLMNOPQRSTUVWXYZabcdefghijklmnopqrstuvwxyz0123456789-_".toList

/-- Base64 with the URL-safe alphabet and without padding. -/
def urlSafeNoPad : List UInt8 → Text
  | [] => []
  | [a] => digits [a.toNat / 4, a.toNat % 4 * 16]
  | [a, b] => digits [a.toNat / 4, a.toNat % 4 * 16 + b.toNat / 16, b.toNat % 16 * 4]
  | a :: b :: c :: rest =>
    digits [a.toNat / 4, a.toNat % 4 * 16 + b.toNat / 16, b.toNat % 16 * 4 + c.toNat / 64,
      c.toNat % 64] ++ urlSafeNoPad rest
where
  digits (ns : List ℕ) : Text := ns.map fun n => BASE64_URL_ALPHABET.getD n 'A'

/-- A directory, no budget, and the one-token-per-character encoder. -/
def zeroBudget : Setting where
  fingerprint := ZERO_HASH
  router := unitEngine
  directory := true
  budget := 0
  sealEndGuardChars := 0
  base64 := urlSafeNoPad

/-- The digests of the entries of a crowded directory. -/
def crowdedDigest (i : ℕ) : Bytes16 :=
  ⟨List.replicate 14 0 ++ [UInt8.ofNat (i / 256), UInt8.ofNat (i % 256)], by simp⟩

def crowdedName (i : ℕ) : Text := entryName zeroBudget .auto (hex (crowdedDigest i).bytes)

theorem crowdedName_inj {i j : ℕ} (hi : i < 65536) (hj : j < 65536)
    (h : crowdedName i = crowdedName j) : i = j := by
  have hhex : hex (crowdedDigest i).bytes = hex (crowdedDigest j).bytes := List.append_cancel_left h
  have hbytes : (crowdedDigest i).bytes = (crowdedDigest j).bytes := by
    have hread := congrArg fromHex? hhex
    rw [fromHex?_hex, fromHex?_hex] at hread
    exact Option.some.inj hread
  have hlast := List.append_cancel_left hbytes
  simp only [List.cons.injEq, and_true, ← UInt8.toNat_inj, UInt8.toNat_ofNat'] at hlast
  omega

/-- One automatic row more than the cap allows. -/
def crowdedIndex : Table Text ContentIndexEntry where
  entries := (List.range (MAX_AUTO_ENTRIES + 1)).map fun i =>
    ⟨crowdedName i, AUTO_MIN_BYTES, crowdedDigest i, []⟩
  nodupKeys := by
    unfold List.NodupKeys List.keys
    rw [List.map_map]
    refine List.Nodup.map_on ?_ List.nodup_range
    intro i hi j hj h
    have hcap : MAX_AUTO_ENTRIES + 1 < 65536 := by decide
    rw [List.mem_range] at hi hj
    exact crowdedName_inj (by omega) (by omega) h

/-- Its index file lists them; the records do not matter until they are read. -/
def crowdedDisk : Disk := ⟨some crowdedIndex, ∅, ∅⟩

theorem foundNames_crowdedDisk :
    crowdedDisk.foundNames = (List.range (MAX_AUTO_ENTRIES + 1)).map crowdedName := by
  simp only [Disk.foundNames, crowdedDisk, crowdedIndex, AList.keys, List.keys, List.map_map]
  rfl

theorem length_autoNames_crowdedDisk : crowdedDisk.autoNames.length = MAX_AUTO_ENTRIES + 1 := by
  have hauto : ∀ name ∈ crowdedDisk.foundNames, decide (EntryKind.ofName name = .auto) = true := by
    intro name hname
    rw [foundNames_crowdedDisk] at hname
    obtain ⟨i, -, rfl⟩ := List.mem_map.mp hname
    rfl
  unfold Disk.autoNames
  rw [List.filter_eq_self.mpr hauto, foundNames_crowdedDisk, List.length_map, List.length_range]

/-- A store that opens the directory has more automatic entries than the cap allows. -/
theorem crowded_opening : ∃ w, openStore zeroBudget crowdedDisk (fun _ => false) 0 = .ok w ∧
    Reach zeroBudget (fun _ => True) (fun _ _ => True) w ∧ MAX_AUTO_ENTRIES < w.autoCount := by
  obtain ⟨opened, hopened⟩ : ∃ opened, openSessions zeroBudget = .ok opened := ⟨_, rfl⟩
  obtain ⟨w, hopen⟩ : ∃ w, openStore zeroBudget crowdedDisk (fun _ => false) 0 = .ok w := by
    unfold openStore
    rw [hopened]
    exact ⟨_, rfl⟩
  refine ⟨w, hopen, .opened trivial hopen, ?_⟩
  rw [((opened_of_open hopen).loaded rfl).autoCount_eq, length_autoNames_crowdedDisk]
  exact Nat.lt_succ_self _

end Toktier.Routing.Entries
