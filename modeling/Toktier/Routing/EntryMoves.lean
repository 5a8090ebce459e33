import Toktier.Lib.Totals
import Toktier.Routing.EntryStore
import Toktier.StoreCore.Tracking

/-!
# What the operations of the entry store keep

The entries, the rows of the index and the list of names belong together: they have the same
names, and no name is in the list twice. Every operation keeps them so, every call keeps the
automatic entries within their cap, and the session store stays as it was set up.

## Main definitions

* `NativeEntryStore.Coherent`: the three have the same names.
* `Moves`: what every operation keeps.

## Main results

* `moves_after`: every act is such a move.
-/
namespace Toktier.Routing.Entries

open Toktier.Lib Toktier.StoreCore

namespace NativeEntryStore

variable {cfg : Setting} {w w' w'' : NativeEntryStore} {name : Text}

/-! ### Frames -/

/-- The entries, the list and the index are the same. -/
structure SameTables (w w' : NativeEntryStore) : Prop where
  entries : w'.entries = w.entries
  lru : w'.lru = w.lru
  index : w'.index = w.index

theorem SameTables.refl (w : NativeEntryStore) : SameTables w w := ⟨rfl, rfl, rfl⟩

theorem SameTables.trans (h : SameTables w w') (h' : SameTables w' w'') : SameTables w w'' :=
  ⟨h'.entries.trans h.entries, h'.lru.trans h.lru, h'.index.trans h.index⟩

/-- An operation of the session store changes nothing else. -/
theorem call_eq {α : Type} (w : NativeEntryStore) (m : Fallible Store StoreError α) :
    (w.call m).2 = { w with store := (w.call m).2.store } := by
  unfold call
  split <;> rfl

theorem sameTables_call {α : Type} (w : NativeEntryStore) (m : Fallible Store StoreError α) :
    SameTables w (w.call m).2 := by
  rw [call_eq]
  exact ⟨rfl, rfl, rfl⟩

/-- A file operation changes nothing but the files. -/
theorem change_eq (w : NativeEntryStore) (f : Disk → Disk) :
    (w.change f).2 = { w with disk := (w.change f).2.disk, tick := w.tick + 1 } := by
  unfold change
  split <;> rfl

theorem sameTables_change (w : NativeEntryStore) (f : Disk → Disk) :
    SameTables w (w.change f).2 := by
  rw [change_eq]
  exact ⟨rfl, rfl, rfl⟩

/-! ### Coherence -/

/-- The entries, the index and the list have the same names, and the list has each once. -/
structure Coherent (w : NativeEntryStore) : Prop where
  nodup : w.lru.Nodup
  lru : ∀ name, name ∈ w.lru ↔ name ∈ w.entries
  index : ∀ name, name ∈ w.index ↔ name ∈ w.entries

/-- Every handle of an entry is one that the session store gave out. -/
def Known (w : NativeEntryStore) : Prop :=
  ∀ name e handle, w.entries.lookup name = some e → e.handle = some handle →
    handle < w.store.nextHandle

theorem mem_of_lookup {β : Type} {t : Table Text β} {b : β} (h : t.lookup name = some b) : name ∈ t :=
  AList.lookup_isSome.mp (by rw [h]; rfl)

theorem Coherent.of_same (h : w.Coherent) (hs : SameTables w w') : w'.Coherent := by
  constructor
  · rw [hs.lru]
    exact h.nodup
  · rw [hs.lru, hs.entries]
    exact h.lru
  · rw [hs.index, hs.entries]
    exact h.index

/-- A name goes from all three. -/
theorem Coherent.removed (h : w.Coherent) (he : w'.entries = w.entries.erase name)
    (hi : w'.index = w.index.erase name) (hl : w'.lru = w.lru.filter (· ≠ name)) : w'.Coherent := by
  constructor
  · rw [hl]
    exact h.nodup.filter _
  · intro n
    rw [hl, he, AList.mem_erase, List.mem_filter, h.lru]
    simp [and_comm]
  · intro n
    rw [hi, he, AList.mem_erase, AList.mem_erase, h.index]

/-- An entry changes in place, and its row may. -/
theorem Coherent.replaced (h : w.Coherent) (hname : name ∈ w.entries) {e : Entry}
    (he : w'.entries = w.entries.insert name e)
    (hi : w'.index = w.index ∨ ∃ row, w'.index = w.index.insert name row)
    (hl : w'.lru = w.lru) : w'.Coherent := by
  have hent : ∀ n, n ∈ w'.entries ↔ n ∈ w.entries := by
    intro n
    rw [he, AList.mem_insert]
    exact or_iff_right_of_imp fun heq => heq ▸ hname
  constructor
  · rw [hl]
    exact h.nodup
  · intro n
    rw [hl, hent, h.lru]
  · intro n
    rw [hent]
    rcases hi with hi | ⟨row, hi⟩
    · rw [hi, h.index]
    · rw [hi, AList.mem_insert, h.index]
      exact or_iff_right_of_imp fun heq => heq ▸ hname

/-- A name comes to the end of the list, with its entry and its row. -/
theorem Coherent.added (h : w.Coherent) {e : Entry} {row : ContentIndexEntry}
    (he : w'.entries = w.entries.insert name e) (hi : w'.index = w.index.insert name row)
    (hl : w'.lru = w.lru.erase name ++ [name]) : w'.Coherent := by
  constructor
  · rw [hl]
    refine List.Nodup.append (h.nodup.erase name) (List.nodup_singleton name) ?_
    intro n hn hn'
    rw [List.mem_singleton] at hn'
    exact (h.nodup.mem_erase_iff.mp hn).1 hn'
  · intro n
    rw [hl, he, AList.mem_insert, List.mem_append, h.nodup.mem_erase_iff, List.mem_singleton, h.lru]
    tauto
  · intro n
    rw [hi, he, AList.mem_insert, AList.mem_insert, h.index]

theorem Coherent.touch (h : w.Coherent) (hname : name ∈ w.entries) : (w.touch name).Coherent := by
  constructor
  · refine List.Nodup.append (h.nodup.erase name) (List.nodup_singleton name) ?_
    intro n hn hn'
    rw [List.mem_singleton] at hn'
    exact (h.nodup.mem_erase_iff.mp hn).1 hn'
  · intro n
    simp only [NativeEntryStore.touch]
    rw [List.mem_append, h.nodup.mem_erase_iff, List.mem_singleton, h.lru]
    constructor
    · rintro (⟨-, hn⟩ | rfl)
      · exact hn
      · exact hname
    · tauto
  · exact h.index

/-! ### Automatic entries -/

/-- One for an automatic entry. -/
def autoWeight (e : Entry) : ℕ := if e.kind = .auto then 1 else 0

theorem autoCount_eq (w : NativeEntryStore) : w.autoCount = total autoWeight w.entries := by
  unfold autoCount total autoWeight
  induction w.entries.entries with
  | nil => rfl
  | cons e es ih =>
    rw [List.countP_cons, ih, List.map_cons, List.sum_cons]
    simp only [decide_eq_true_eq]
    omega

theorem autoCount_removed (he : w'.entries = w.entries.erase name) : w'.autoCount ≤ w.autoCount := by
  rw [autoCount_eq, autoCount_eq, he]
  exact total_erase_le _ _ _

theorem autoCount_replaced {e e' : Entry} (hname : w.entries.lookup name = some e)
    (he : w'.entries = w.entries.insert name e') (hkind : e'.kind = e.kind) :
    w'.autoCount = w.autoCount := by
  rw [autoCount_eq, autoCount_eq, he, total_insert, total_of_lookup _ hname]
  simp only [autoWeight, hkind]

end NativeEntryStore

open NativeEntryStore

/-! ### What every operation keeps -/

/-- The session store stays as it was set up, the tables stay coherent, the handles known, and
the automatic entries within the cap. -/
structure Moves (w w' : NativeEntryStore) : Prop where
  carries : Carries w.store w'.store
  keyId : w'.keyId = w.keyId
  coherent : w.Coherent → w'.Coherent
  known : w.Known → w'.Known
  autos : w.Coherent → w.autoCount ≤ MAX_AUTO_ENTRIES → w'.autoCount ≤ MAX_AUTO_ENTRIES

namespace Moves

variable {cfg : Setting} {w w' w'' : NativeEntryStore} {name : Text}

theorem refl (w : NativeEntryStore) : Moves w w := ⟨.refl _, rfl, id, id, fun _ => id⟩

theorem trans (h : Moves w w') (h' : Moves w' w'') : Moves w w'' where
  carries := h.carries.trans h'.carries
  keyId := h'.keyId.trans h.keyId
  coherent hc := h'.coherent (h.coherent hc)
  known hk := h'.known (h.known hk)
  autos hc ha := h'.autos (h.coherent hc) (h.autos hc ha)

theorem of_same (hs : SameTables w w') (hcar : Carries w.store w'.store) (hkey : w'.keyId = w.keyId) :
    Moves w w' where
  carries := hcar
  keyId := hkey
  coherent hc := hc.of_same hs
  known hk name e handle hname hhandle := by
    rw [hs.entries] at hname
    exact (hk name e handle hname hhandle).trans_le hcar.next
  autos _ ha := by
    rw [autoCount_eq, hs.entries, ← autoCount_eq]
    exact ha

theorem of_removed (he : w'.entries = w.entries.erase name) (hi : w'.index = w.index.erase name)
    (hl : w'.lru = w.lru.filter (· ≠ name)) (hcar : Carries w.store w'.store)
    (hkey : w'.keyId = w.keyId) : Moves w w' where
  carries := hcar
  keyId := hkey
  coherent hc := hc.removed he hi hl
  known hk n e handle hn hhandle := by
    rw [he] at hn
    exact (hk n e handle (lookup_erase_eq_some.mp hn).2 hhandle).trans_le hcar.next
  autos _ ha := (autoCount_removed he).trans ha

theorem of_replaced {e e' : Entry} (hname : w.entries.lookup name = some e)
    (he : w'.entries = w.entries.insert name e') (hkind : e'.kind = e.kind)
    (hhandle : ∀ handle, e'.handle = some handle →
      e.handle = some handle ∨ handle < w'.store.nextHandle)
    (hi : w'.index = w.index ∨ ∃ row, w'.index = w.index.insert name row) (hl : w'.lru = w.lru)
    (hcar : Carries w.store w'.store) (hkey : w'.keyId = w.keyId) : Moves w w' where
  carries := hcar
  keyId := hkey
  coherent hc := hc.replaced (mem_of_lookup hname) he hi hl
  known hk n e₁ handle hn he₁ := by
    rw [he] at hn
    rcases lookup_insert_eq_some.mp hn with ⟨-, rfl⟩ | ⟨-, hn⟩
    · rcases hhandle handle he₁ with hold | hnew
      · exact (hk name e handle hname hold).trans_le hcar.next
      · exact hnew
    · exact (hk n e₁ handle hn he₁).trans_le hcar.next
  autos _ ha := (autoCount_replaced hname he hkind).trans_le ha

theorem touch (hname : name ∈ w.entries) : Moves w (w.touch name) where
  carries := .refl _
  keyId := rfl
  coherent hc := hc.touch hname
  known hk := hk
  autos _ ha := ha

end Moves

namespace NativeEntryStore

variable {cfg : Setting} {w w' w'' : NativeEntryStore} {name : Text}

/-- What an operation establishes on either exit holds of the session store afterwards. -/
theorem store_call {α : Type} {m : Fallible Store StoreError α} {P : Store → Prop}
    (hm : wp m (fun _ S' => P S') (fun _ S' => P S') w.store) : P (w.call m).2.store := by
  unfold call
  cases hrun : m.run w.store with
  | ok a S => exact hm.of_ok hrun
  | error e S => exact hm.of_error hrun

/-- An operation of the session store that keeps it as it was set up. -/
theorem moves_call {α : Type} {m : Fallible Store StoreError α}
    (hm : wp m (fun _ S' => Carries w.store S') (fun _ S' => Carries w.store S') w.store) :
    Moves w (w.call m).2 :=
  .of_same (sameTables_call w m) (store_call hm) (by rw [call_eq])

theorem moves_change (w : NativeEntryStore) (f : Disk → Disk) : Moves w (w.change f).2 := by
  refine .of_same (sameTables_change w f) ?_ (by rw [change_eq])
  rw [change_eq]
  exact .refl _

theorem moves_release (w : NativeEntryStore) (handle : ℕ) : Moves w (w.release handle) :=
  moves_call (Store.wp_evict_carries handle)

theorem sameTables_releaseHandle (w : NativeEntryStore) (handle : Option ℕ) :
    SameTables w (w.releaseHandle handle) := by
  cases handle with
  | none => exact .refl w
  | some handle => exact sameTables_call w _

theorem moves_releaseHandle (w : NativeEntryStore) (handle : Option ℕ) :
    Moves w (w.releaseHandle handle) := by
  cases handle with
  | none => exact .refl w
  | some handle => exact moves_release w handle

theorem moves_persistIndex (cfg : Setting) (w : NativeEntryStore) : Moves w (w.persistIndex cfg) := by
  unfold persistIndex
  split
  · exact moves_change w _
  · exact .refl w

theorem moves_persistEntry [Digests] (cfg : Setting) (w : NativeEntryStore) (name : Text) :
    Moves w (w.persistEntry cfg name) := by
  unfold persistEntry
  split
  · exact .refl w
  split
  · exact .refl w
  split
  · rename_i record binding _ _
    have hrecord := moves_change w fun d => { d with records := d.records.insert name record }
    split
    · rename_i w₁ heq
      rw [heq] at hrecord
      exact hrecord.trans (moves_change w₁ _)
    · rename_i w₁ heq
      rw [heq] at hrecord
      exact hrecord
  · exact .refl w

theorem moves_removeFiles (w : NativeEntryStore) (name : Text) : Moves w (w.removeFiles name) :=
  (moves_change w _).trans (moves_change _ _)

theorem sameTables_removeFiles (w : NativeEntryStore) (name : Text) :
    SameTables w (w.removeFiles name) :=
  (sameTables_change w _).trans (sameTables_change _ _)

/-! ### Taking out -/

/-- A dropped entry is gone from all three. -/
theorem dropEntry_tables (cfg : Setting) (w : NativeEntryStore) (name : Text) (removeFile : Bool) :
    (w.dropEntry cfg name removeFile).entries = w.entries.erase name ∧
      (w.dropEntry cfg name removeFile).index = w.index.erase name ∧
      (w.dropEntry cfg name removeFile).lru = w.lru.filter (· ≠ name) := by
  have hs := sameTables_releaseHandle w ((w.entries.lookup name).bind Entry.handle)
  have hfiles := sameTables_removeFiles
    ((w.releaseHandle ((w.entries.lookup name).bind Entry.handle)).forget name) name
  unfold dropEntry
  split
  · rw [hfiles.entries, hfiles.index, hfiles.lru]
    simp only [forget, hs.entries, hs.index, hs.lru, and_self]
  · simp only [forget, hs.entries, hs.index, hs.lru, and_self]

theorem moves_forget (w : NativeEntryStore) (name : Text) : Moves w (w.forget name) :=
  .of_removed rfl rfl rfl (.refl _) rfl

theorem moves_dropEntry (cfg : Setting) (w : NativeEntryStore) (name : Text) (removeFile : Bool) :
    Moves w (w.dropEntry cfg name removeFile) := by
  have hforget := (moves_releaseHandle w ((w.entries.lookup name).bind Entry.handle)).trans
    (moves_forget _ name)
  unfold dropEntry
  split
  · exact hforget.trans (moves_removeFiles _ name)
  · exact hforget

/-- What `evict_entry` does: without a directory the entry goes, with one it leaves memory. -/
inductive Evicted (name : Text) (w w' : NativeEntryStore) : Prop
  | gone (he : w'.entries = w.entries.erase name)
  | muted {e : Entry} (hname : w.entries.lookup name = some e)
      (he : w'.entries = w.entries.insert name { e with text := none, handle := none })
  | missing (hname : w.entries.lookup name = none) (he : w'.entries = w.entries)

theorem evictEntry_evicted (cfg : Setting) (w : NativeEntryStore) (name : Text) :
    Evicted name w (w.evictEntry cfg name) ∧ Moves w (w.evictEntry cfg name) := by
  have hs := sameTables_releaseHandle w ((w.entries.lookup name).bind Entry.handle)
  have hrelease := moves_releaseHandle w ((w.entries.lookup name).bind Entry.handle)
  unfold evictEntry
  dsimp only
  by_cases hdir : cfg.directory = true
  · rw [if_pos hdir]
    cases hname : w.entries.lookup name with
    | none =>
      rw [hname] at hs hrelease
      exact ⟨.missing hname hs.entries, hrelease⟩
    | some e =>
      rw [hname] at hs hrelease
      have he : (w.releaseHandle ((some e).bind Entry.handle)).entries.insert name
          { e with text := none, handle := none } =
            w.entries.insert name { e with text := none, handle := none } := by rw [hs.entries]
      exact ⟨.muted hname he, .of_replaced hname he rfl (fun _ hno => by cases hno) (.inl hs.index)
        hs.lru hrelease.carries hrelease.keyId⟩
  · rw [if_neg hdir]
    refine ⟨.gone ?_, hrelease.trans (moves_forget _ name)⟩
    simp only [forget, hs.entries]

theorem moves_evictEntry (cfg : Setting) (w : NativeEntryStore) (name : Text) :
    Moves w (w.evictEntry cfg name) :=
  (evictEntry_evicted cfg w name).2

theorem moves_evictLoop (cfg : Setting) (pin : Text) (fuel : ℕ) (w : NativeEntryStore) :
    Moves w (evictLoop cfg pin fuel w) := by
  induction fuel generalizing w with
  | zero => exact .refl w
  | succ fuel ih =>
    unfold evictLoop
    split
    · exact .refl w
    · split
      · exact .refl w
      · exact (moves_evictEntry cfg w _).trans (ih _)

theorem moves_evictOverBudget (cfg : Setting) (w : NativeEntryStore) (pin : Text) :
    Moves w (w.evictOverBudget cfg pin) :=
  moves_evictLoop cfg pin _ w

/-! ### The cap -/

theorem autoWeight_le (e : Entry) : autoWeight e ≤ 1 := by
  unfold autoWeight
  split <;> omega

/-- An automatic entry that is dropped counts one less. -/
theorem autoCount_dropEntry (cfg : Setting) (removeFile : Bool) (hauto : w.isAuto name = true) :
    (w.dropEntry cfg name removeFile).autoCount + 1 = w.autoCount := by
  obtain ⟨e, hname, hkind⟩ := (Option.any_eq_true _ _).mp hauto
  rw [autoCount_eq, autoCount_eq, (dropEntry_tables cfg w name removeFile).1,
    total_of_lookup _ hname]
  simp only [autoWeight, of_decide_eq_true hkind, if_true]
  omega

/-- More automatic entries than none: the list has one of them. -/
theorem exists_find_auto (hc : w.Coherent) (hpos : 0 < w.autoCount) :
    ∃ name, w.lru.find? w.isAuto = some name ∧ w.isAuto name = true := by
  rw [autoCount_eq] at hpos
  obtain ⟨name, e, hname, hweight⟩ := exists_of_total_pos _ hpos
  have hauto : w.isAuto name = true := by
    refine (Option.any_eq_true _ _).mpr ⟨e, hname, ?_⟩
    unfold autoWeight at hweight
    split at hweight
    · exact decide_eq_true ‹_›
    · omega
  have hmem : name ∈ w.lru := (hc.lru name).mpr (mem_of_lookup hname)
  cases hfind : w.lru.find? w.isAuto with
  | none => exact absurd hauto (List.find?_eq_none.mp hfind name hmem)
  | some found => exact ⟨found, rfl, List.find?_some hfind⟩

theorem moves_capLoop (cfg : Setting) (fuel : ℕ) (w : NativeEntryStore) :
    Moves w (capLoop cfg fuel w) := by
  induction fuel generalizing w with
  | zero => exact .refl w
  | succ fuel ih =>
    unfold capLoop
    split
    · exact .refl w
    · split
      · exact .refl w
      · exact (moves_dropEntry cfg w _ true).trans (ih _)

/-- Every round drops an automatic entry, so the fuel is not used up above the cap. -/
theorem autoCount_capLoop (fuel : ℕ) (hc : w.Coherent) (hfuel : w.autoCount ≤ MAX_AUTO_ENTRIES + fuel) :
    (capLoop cfg fuel w).autoCount ≤ MAX_AUTO_ENTRIES := by
  induction fuel generalizing w with
  | zero => exact hfuel
  | succ fuel ih =>
    unfold capLoop
    by_cases hle : w.autoCount ≤ MAX_AUTO_ENTRIES
    · rw [if_pos hle]
      exact hle
    · rw [if_neg hle]
      obtain ⟨name, hfind, hauto⟩ := exists_find_auto hc (by omega)
      rw [hfind]
      have hdrop := autoCount_dropEntry cfg true hauto
      exact ih ((moves_dropEntry cfg w name true).coherent hc) (by omega)

theorem autoCount_capAutoEntries (hc : w.Coherent) :
    (w.capAutoEntries cfg).autoCount ≤ MAX_AUTO_ENTRIES := by
  refine autoCount_capLoop _ hc ?_
  have hle := total_le_length autoWeight_le w.entries
  rw [← autoCount_eq] at hle
  omega

/-! ### Putting in -/

variable [Digests]

/-- A new entry: whatever the count was, it is within the cap afterwards. -/
theorem moves_keep (cfg : Setting) (w : NativeEntryStore) (name : Text) (kind : EntryKind)
    (text : Text) {handle : ℕ} (hhandle : handle < w.store.nextHandle) (revision : ℕ)
    (row : ContentIndexEntry) : Moves w (w.keep cfg name kind text handle revision row) := by
  let added : NativeEntryStore := ({ w with
    entries := w.entries.insert name ⟨kind, row.byteLength, some text, some handle, revision, row⟩
    index := w.index.insert name row }).touch name
  have hadded : w.Coherent → added.Coherent := fun hc => hc.added rfl rfl rfl
  have hknown : w.Known → added.Known := by
    intro hk n e h hn he
    have hn : (w.entries.insert name _).lookup n = some e := hn
    rcases lookup_insert_eq_some.mp hn with ⟨-, rfl⟩ | ⟨-, hn⟩
    · cases he
      exact hhandle
    · exact hk n e h hn he
  have hcap := moves_capLoop cfg added.entries.entries.length added
  have hrest := ((moves_persistEntry cfg (added.capAutoEntries cfg) name).trans
    (moves_persistIndex cfg _)).trans (moves_evictOverBudget cfg _ name)
  exact
    { carries := hcap.carries.trans hrest.carries
      keyId := hrest.keyId.trans hcap.keyId
      coherent := fun hc => hrest.coherent (hcap.coherent (hadded hc))
      known := fun hk => hrest.known (hcap.known (hknown hk))
      autos := fun hc _ => hrest.autos (hcap.coherent (hadded hc))
        (autoCount_capAutoEntries (hadded hc)) }

theorem moves_put (cfg : Setting) (w : NativeEntryStore) (text : Text) :
    Moves w (w.call (Store.put w.keyId text cfg.router)).2 :=
  moves_call (wp_mono (Store.wp_put_carries w.keyId text cfg.router) (fun _ _ h => h.1)
    fun _ _ h => h)

theorem moves_append (cfg : Setting) (w : NativeEntryStore) (handle : ℕ) (delta : Text) (rev : ℕ) :
    Moves w (w.call (Store.append handle delta rev cfg.router)).2 :=
  moves_call (wp_mono (Store.wp_append_carries handle delta rev cfg.router) (fun _ _ h => h.1)
    fun _ _ h => h)

omit [Digests] in
theorem moves_readAllIds (w : NativeEntryStore) (handle : ℕ) :
    Moves w (w.call (Store.readAllIds handle)).2 :=
  moves_call (wp_mono (Store.wp_readAllIds_carries handle) (fun _ _ h => h) fun _ _ h => h.1)

theorem moves_fork (w : NativeEntryStore) (handle : ℕ) :
    Moves w (w.call (Store.fork handle)).2 :=
  moves_call (wp_mono (Store.wp_fork_carries handle) (fun _ _ h => h.1) fun _ _ h => h)

omit [Digests] in
/-- What an operation of the session store that returned has established. -/
theorem of_call_eq {α : Type} {m : Fallible Store StoreError α} {a : α}
    {Q : α → Store → Prop} {R : StoreError → Store → Prop} (hm : wp m Q R w.store)
    (hcall : w.call m = (some a, w')) : Q a w'.store := by
  unfold call at hcall
  cases hrun : m.run w.store with
  | ok a' S =>
    rw [hrun] at hcall
    cases hcall
    exact hm.of_ok hrun
  | error e S =>
    rw [hrun] at hcall
    cases hcall

omit [Digests] in
/-- What an operation of the session store that failed has established. -/
theorem of_call_none {α : Type} {m : Fallible Store StoreError α} {Q : α → Store → Prop} {P : Prop}
    (hm : wp m Q (fun _ _ => P) w.store) (hcall : w.call m = (none, w')) : P := by
  unfold call at hcall
  cases hrun : m.run w.store with
  | ok a' S =>
    rw [hrun] at hcall
    cases hcall
  | error e S => exact hm.of_error hrun

/-- The handle that a `put` gave out. -/
theorem handle_of_put {text : Text} {put : PutOutcome}
    (hput : w.call (Store.put w.keyId text cfg.router) = (some put, w')) :
    put.handle = w.store.nextHandle ∧ put.handle < w'.store.nextHandle :=
  have h := (of_call_eq (Store.wp_put_carries w.keyId text cfg.router) hput).2
  ⟨h.1, h.2.1⟩

omit [Digests] in
/-- Read the move off an operation whose outcome was told apart. -/
theorem moves_of_eq {α : Type} {m : Fallible Store StoreError α} {a : Option α}
    (hmove : Moves w (w.call m).2) (heq : w.call m = (a, w')) : Moves w w' := by
  rw [heq] at hmove
  exact hmove

theorem moves_writeEntry (cfg : Setting) (w : NativeEntryStore) (name : Text) (kind : EntryKind)
    (text : Text) : Moves w (w.writeEntry cfg name kind text).2 := by
  have hrelease := moves_releaseHandle w ((w.entries.lookup name).bind Entry.handle)
  unfold writeEntry
  dsimp only
  split
  · rename_i w₁ hput
    exact (hrelease.trans (moves_of_eq (moves_put cfg _ text) hput)).trans (moves_dropEntry cfg w₁ name false)
  · rename_i put w₁ hput
    have hput' := hrelease.trans (moves_of_eq (moves_put cfg _ text) hput)
    have hnext := (handle_of_put hput).2
    split
    · exact hput'.trans (moves_release w₁ _)
    · split
      · rename_i w₂ hread
        exact (hput'.trans (moves_of_eq (moves_readAllIds w₁ _) hread)).trans (moves_release w₂ _)
      · rename_i ids w₂ hread
        have hread' := moves_of_eq (moves_readAllIds w₁ _) hread
        exact (hput'.trans hread').trans
          (moves_keep cfg w₂ _ _ _ (hnext.trans_le hread'.carries.next) _ _)

theorem moves_appendEntry (cfg : Setting) (w : NativeEntryStore) (name delta : Text) :
    Moves w (w.appendEntry cfg name delta).2 := by
  unfold appendEntry
  split
  · exact .refl w
  · rename_i e hname
    split
    · exact .refl w
    · rename_i handle hhandle
      split
      · rename_i w₁ happend
        exact (moves_of_eq (moves_append cfg w _ _ _) happend).trans (moves_dropEntry cfg w₁ name false)
      · rename_i outcome w₁ happend
        have happend' := moves_of_eq (moves_append cfg w _ _ _) happend
        have hs : SameTables w w₁ := by
          have := sameTables_call w (Store.append handle delta e.revision cfg.router)
          rwa [happend] at this
        split
        · exact happend'.trans (moves_dropEntry cfg w₁ name false)
        · split
          · exact happend'
          · have hname' : w₁.entries.lookup name = some e := by rwa [hs.entries]
            refine happend'.trans (.trans ?_ (((moves_persistEntry cfg _ name).trans
              (moves_persistIndex cfg _)).trans (moves_evictOverBudget cfg _ name)))
            exact .of_replaced hname' rfl rfl (fun _ h => .inl h) (.inr ⟨_, rfl⟩) rfl (.refl _) rfl

omit [Digests] in
theorem moves_entryIds (cfg : Setting) (w : NativeEntryStore) (name : Text) :
    Moves w (w.entryIds cfg name).2 := by
  unfold entryIds
  split
  · exact .refl w
  · split
    · rename_i w₁ hread
      exact (moves_of_eq (moves_readAllIds w _) hread).trans (moves_dropEntry cfg w₁ name false)
    · rename_i ids w₁ hread
      exact moves_of_eq (moves_readAllIds w _) hread

omit [Digests] in
theorem moves_serveHit (cfg : Setting) (w : NativeEntryStore) (name : Text) :
    Moves w (w.serveHit cfg name).2 :=
  (moves_entryIds cfg w name).trans (moves_evictOverBudget cfg _ name)

/-! ### Reading back -/

/-- What `recover` leaves: the session store, and nothing else. -/
theorem recover_eq (cfg : Setting) (w : NativeEntryStore) (name : Text) (candidate : Option Text) :
    (w.recover cfg name candidate).2 = { w with store := (w.recover cfg name candidate).2.store } := by
  unfold recover
  split
  · rfl
  · rename_i raw _
    split
    · rfl
    · split
      · have hcall := call_eq w (Store.importSession w.keyId raw cfg.router [])
        split
        · rename_i w₁ heq
          rw [heq] at hcall
          exact hcall
        · rename_i handle w₁ heq
          rw [heq] at hcall
          exact hcall
      · split
        · rename_i candidate binding _
          have hcall := call_eq w (Store.importSessionWithBindingCandidate w.keyId raw candidate binding
            cfg.router)
          split
          · rename_i w₁ heq
            rw [heq] at hcall
            exact hcall
          · rename_i handle chars w₁ heq
            rw [heq] at hcall
            exact hcall
        · rfl

theorem sameTables_recover (cfg : Setting) (w : NativeEntryStore) (name : Text)
    (candidate : Option Text) : SameTables w (w.recover cfg name candidate).2 := by
  rw [recover_eq]
  exact ⟨rfl, rfl, rfl⟩

theorem moves_recover (cfg : Setting) (w : NativeEntryStore) (name : Text) (candidate : Option Text) :
    Moves w (w.recover cfg name candidate).2 := by
  unfold recover
  split
  · exact .refl w
  · rename_i raw _
    split
    · exact .refl w
    · rename_i view hview
      split
      · rename_i hzero
        have hmove : Moves w (w.call (Store.importSession w.keyId raw cfg.router [])).2 := by
          refine moves_call (wp_mono (Store.wp_importSession_reads w.keyId raw cfg.router [] ?_)
            (fun _ _ h => h.1.1) fun _ _ h => h.1)
          intro view' hview'
          cases hview.symm.trans hview'
          exact hzero
        split
        · exact moves_of_eq hmove ‹_›
        · exact moves_of_eq hmove ‹_›
      · split
        · rename_i candidate binding _
          have hmove : Moves w (w.call (Store.importSessionWithBindingCandidate w.keyId raw candidate
              binding cfg.router)).2 :=
            moves_call (wp_mono (Store.wp_importBound_reads w.keyId raw cfg.router candidate binding)
              (fun _ _ h => h.1.1) fun _ _ h => h.1)
          split
          · exact moves_of_eq hmove ‹_›
          · exact moves_of_eq hmove ‹_›
        · exact .refl w

theorem handle_of_recovered {handle revision : ℕ} {historical : Text} {r : Recovered}
    (h : w.recovered handle historical revision = some r) : r.handle = handle := by
  obtain ⟨row, -, rfl⟩ := Option.map_eq_some_iff.mp h
  rfl

/-- The handle under which an entry was read back. -/
theorem handle_of_recover {candidate : Option Text} {r : Recovered}
    (h : w.recover cfg name candidate = (some r, w')) : r.handle < w'.store.nextHandle := by
  unfold recover at h
  split at h
  · cases h
  rename_i raw _
  split at h
  · cases h
  rename_i view hview
  split at h
  · rename_i hzero
    split at h
    · cases h
    rename_i handle w₁ hcall
    injection h with hr hw
    subst hw
    rw [handle_of_recovered hr]
    refine (of_call_eq (Store.wp_importSession_reads w.keyId raw cfg.router [] ?_) hcall).1.2
    intro view' hview'
    cases hview.symm.trans hview'
    exact hzero
  · split at h
    · rename_i candidate binding _
      split at h
      · cases h
      rename_i handle chars w₁ hcall
      injection h with hr hw
      subst hw
      rw [handle_of_recovered hr]
      exact (of_call_eq (Store.wp_importBound_reads w.keyId raw cfg.router candidate binding) hcall).1.2
    · cases h

omit [Digests] in
theorem moves_restore (w : NativeEntryStore) (name : Text) {r : Recovered}
    (hr : r.handle < w.store.nextHandle) : Moves w (w.restore name r) := by
  unfold restore
  split
  · exact .refl w
  · rename_i e hname
    refine .of_replaced hname rfl rfl (fun handle hhandle => .inr ?_) (.inr ⟨_, rfl⟩) rfl (.refl _) rfl
    cases hhandle
    exact hr

theorem moves_resident (cfg : Setting) (w : NativeEntryStore) (name : Text)
    (candidate : Option Text) : Moves w (w.resident cfg name candidate).2 := by
  unfold resident
  split
  · exact .refl w
  split
  · exact .refl w
  have hrecover := moves_recover cfg w name candidate
  split
  · rename_i w₁ heq
    rw [heq] at hrecover
    exact hrecover.trans (moves_dropEntry cfg w₁ name false)
  · rename_i r w₁ heq
    rw [heq] at hrecover
    exact hrecover.trans (moves_restore w₁ name (handle_of_recover heq))

/-- An entry that is resident after `resident` is still there. -/
theorem mem_of_resident {candidate : Option Text} (hname : name ∈ w.entries)
    (hres : w.resident cfg name candidate = (true, w')) : name ∈ w'.entries := by
  unfold resident at hres
  split at hres
  · cases hres
    exact hname
  split at hres
  · cases hres
  have hrecover := sameTables_recover cfg w name candidate
  split at hres
  · cases hres
  · rename_i r w₁ heq
    rw [heq] at hrecover
    cases hres
    have hname₁ : name ∈ w₁.entries := by rwa [hrecover.entries]
    unfold restore
    split
    · exact hname₁
    · rw [AList.mem_insert]
      exact .inl rfl

/-! ### The calls -/

theorem moves_encodeSession (cfg : Setting) (w : NativeEntryStore) (sessionId text : Text) :
    Moves w (w.encodeSession cfg sessionId text).2 := by
  unfold encodeSession
  dsimp only
  by_cases hnone : (w.entries.lookup (entryName cfg .session sessionId)).isNone = true
  · rw [if_pos hnone]
    exact moves_writeEntry cfg w _ _ _
  rw [if_neg hnone]
  have hname : entryName cfg .session sessionId ∈ w.entries := by
    rw [Option.isNone_iff_eq_none] at hnone
    by_contra hmem
    exact hnone (AList.lookup_eq_none.mpr hmem)
  have hres := moves_resident cfg w (entryName cfg .session sessionId) (some text)
  split
  · rename_i w₁ heq
    rw [heq] at hres
    exact hres.trans (moves_writeEntry cfg w₁ _ _ _)
  · rename_i w₁ heq
    rw [heq] at hres
    have htouch := hres.trans (Moves.touch (mem_of_resident hname heq))
    split
    · exact htouch
    · split
      · exact htouch.trans (moves_serveHit cfg _ _)
      · split
        · exact htouch.trans (moves_appendEntry cfg _ _ _)
        · exact htouch.trans (moves_writeEntry cfg _ _ _ _)

omit [Digests] in
/-- An entry that would be written over goes first. -/
theorem moves_dropIfThere (cfg : Setting) (w : NativeEntryStore) (name : Text) :
    Moves w (if (w.entries.lookup name).isSome then w.dropEntry cfg name false else w) := by
  split
  · exact moves_dropEntry cfg w name false
  · exact .refl w

theorem moves_adoptFork (cfg : Setting) (w : NativeEntryStore) {fork : ℕ}
    (hfork : fork < w.store.nextHandle) (text : Text) (revision : ℕ) :
    Moves w (w.adoptFork cfg fork text revision) := by
  unfold adoptFork
  split
  · exact moves_release w fork
  · rename_i row _
    have hdrop := moves_dropIfThere cfg w (entryName cfg .auto (hex row.endDigest.bytes))
    exact hdrop.trans (moves_keep cfg _ _ _ _ (hfork.trans_le hdrop.carries.next) _ _)

theorem moves_serveExtension (cfg : Setting) (w : NativeEntryStore) (name stored text : Text) :
    Moves w (w.serveExtension cfg name stored text).2 := by
  unfold serveExtension
  dsimp only
  split
  · exact .refl w
  split
  · exact moves_appendEntry cfg w _ _
  split
  · exact .refl w
  · rename_i handle _
    have hfork := moves_fork w handle
    split
    · exact moves_of_eq hfork ‹_›
    · rename_i fork w₁ heq
      have hfork' := moves_of_eq hfork heq
      have hnext := (of_call_eq (Store.wp_fork_carries handle) heq).2
      split
      · rename_i w₂ happend
        exact (hfork'.trans (moves_of_eq (moves_append cfg w₁ _ _ _) happend)).trans
          (moves_release w₂ fork)
      · rename_i outcome w₂ happend
        have happend' := moves_of_eq (moves_append cfg w₁ _ _ _) happend
        split
        · exact (hfork'.trans happend').trans
            (moves_adoptFork cfg w₂ (hnext.trans_le happend'.carries.next) _ _)
        · exact (hfork'.trans happend').trans (moves_release w₂ fork)

omit [Digests] in
/-- A candidate that was dropped on the way has no row any more. -/
theorem moves_discard (hname : (w.entries.lookup name).isNone = true) :
    Moves w { w with index := w.index.erase name } := by
  rw [Option.isNone_iff_eq_none] at hname
  refine ⟨.refl _, rfl, fun hc => ?_, fun hk => hk, fun _ ha => ha⟩
  have hindex : w.index.erase name = w.index := by
    apply erase_of_lookup_none
    rw [AList.lookup_eq_none, hc.index, ← AList.lookup_eq_none]
    exact hname
  rw [hindex]
  exact hc

theorem moves_serveCandidates (cfg : Setting) (text : Text) (names : List Text)
    (w : NativeEntryStore) : Moves w (serveCandidates cfg text names w).2 := by
  induction names generalizing w with
  | nil => exact .refl w
  | cons name names ih =>
    unfold serveCandidates
    by_cases hnone : (w.entries.lookup name).isNone = true
    · rw [if_pos hnone]
      exact (moves_discard hnone).trans (ih _)
    rw [if_neg hnone]
    have hname : name ∈ w.entries := by
      rw [Option.isNone_iff_eq_none] at hnone
      by_contra hmem
      exact hnone (AList.lookup_eq_none.mpr hmem)
    have hres := moves_resident cfg w name (some text)
    split
    · rename_i w₁ heq
      rw [heq] at hres
      exact hres.trans (ih w₁)
    · rename_i w₁ heq
      rw [heq] at hres
      split
      · exact hres
      · split
        · exact hres.trans (ih w₁)
        · have htouch := hres.trans (Moves.touch (mem_of_resident hname heq))
          dsimp only
          split
          · exact htouch.trans (moves_serveHit cfg _ _)
          · exact htouch.trans (moves_serveExtension cfg _ _ _ _)

theorem moves_missAuto (cfg : Setting) (w : NativeEntryStore) (text : Text) :
    Moves w (w.missAuto cfg text).2 := by
  unfold missAuto
  split
  · exact moves_of_eq (moves_put cfg w text) ‹_›
  · rename_i put w₁ hput
    have hput' := moves_of_eq (moves_put cfg w text) hput
    split
    · exact hput'.trans (moves_release w₁ _)
    · rename_i row _
      have hdrop := hput'.trans (moves_dropIfThere cfg w₁ (entryName cfg .auto (hex row.endDigest.bytes)))
      dsimp only
      split
      · rename_i w₂ hread
        exact (hdrop.trans (moves_of_eq (moves_readAllIds _ _) hread)).trans (moves_release w₂ _)
      · rename_i ids w₂ hread
        have hread' := (moves_dropIfThere cfg w₁ _).trans (moves_of_eq (moves_readAllIds _ _) hread)
        exact (hput'.trans hread').trans
          (moves_keep cfg w₂ _ _ _ ((handle_of_put hput).2.trans_le hread'.carries.next) _ _)

theorem moves_encodeAuto (cfg : Setting) (w : NativeEntryStore) (text : Text) :
    Moves w (w.encodeAuto cfg text).2 := by
  have hserve := moves_serveCandidates cfg text (w.candidates text) w
  unfold encodeAuto serveFromIndex
  split
  · rename_i ids w₁ heq
    rw [heq] at hserve
    exact hserve
  · rename_i w₁ heq
    rw [heq] at hserve
    split
    · exact hserve
    · exact hserve.trans (moves_missAuto cfg w₁ text)

theorem moves_after (cfg : Setting) (w : NativeEntryStore) (a : Act) : Moves w (w.after cfg a) := by
  cases a with
  | encodeSession sessionId text => exact moves_encodeSession cfg w sessionId text
  | encodeAuto text => exact moves_encodeAuto cfg w text
  | dropEntry name removeFile => exact moves_dropEntry cfg w name removeFile
  | evictEntry name => exact moves_evictEntry cfg w name
  | evictOverBudget pin => exact moves_evictOverBudget cfg w pin
  | capAutoEntries => exact moves_capLoop cfg _ w
  | disturb disk => exact .of_same ⟨rfl, rfl, rfl⟩ (.refl _) rfl

end NativeEntryStore

end Toktier.Routing.Entries
