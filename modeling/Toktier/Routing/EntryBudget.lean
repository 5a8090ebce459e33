import Toktier.Routing.EntryOpening

/-!
# The budget of the entry store

The loop that evicts ends in every state, and where the tables are coherent it leaves at most
the budget in memory. So a call that writes an entry, or adds to one, leaves at most the
budget, or what was in memory of the other entries.

## Main definitions

* `Ended`: where the loop stops.
* `NativeEntryStore.bytesBeside`: the bytes in memory without one entry.

## Main results

* `evictOverBudget_ends`: the loop ends.
* `residentBytes_evictOverBudget`: what it leaves.
* `residentBytes_writeEntry`, `residentBytes_appendEntry`: what the writing calls leave.
-/
namespace Toktier.Routing.Entries

open Toktier.Lib Toktier.StoreCore

namespace NativeEntryStore

variable {cfg : Setting} {w w' : NativeEntryStore} {name pin : Text}

/-! ### Bytes in memory -/

/-- The bytes of an entry that is in memory. -/
def residentWeight (e : Entry) : ℕ := if e.text.isSome then e.byteLength else 0

/-- One for an entry that is in memory. -/
def heldWeight (e : Entry) : ℕ := if e.text.isSome then 1 else 0

/-- How many entries are in memory. -/
def heldCount (w : NativeEntryStore) : ℕ := total heldWeight w.entries

/-- The bytes in memory of the other entries. -/
def bytesBeside (w : NativeEntryStore) (name : Text) : ℕ :=
  total residentWeight (w.entries.erase name)

theorem residentBytes_eq (w : NativeEntryStore) : w.residentBytes = total residentWeight w.entries := by
  unfold residentBytes residentBytesOf total residentWeight
  induction w.entries.entries with
  | nil => rfl
  | cons e es ih =>
    rw [List.map_cons, List.sum_cons, ← ih, List.filter_cons]
    split
    · rw [List.map_cons, List.sum_cons]
    · rw [Nat.zero_add]

theorem residentBytes_of_same (hs : SameTables w w') : w'.residentBytes = w.residentBytes := by
  rw [residentBytes_eq, residentBytes_eq, hs.entries]

theorem bytesBeside_of_same (hs : SameTables w w') : w'.bytesBeside name = w.bytesBeside name := by
  unfold bytesBeside
  rw [hs.entries]

theorem bytesBeside_le (w : NativeEntryStore) (name : Text) : w.bytesBeside name ≤ w.residentBytes := by
  rw [residentBytes_eq]
  exact total_erase_le _ _ _

theorem residentBytes_dropEntry (removeFile : Bool) :
    (w.dropEntry cfg name removeFile).residentBytes = w.bytesBeside name := by
  rw [residentBytes_eq, (dropEntry_tables cfg w name removeFile).1]
  rfl

theorem residentBytes_evictEntry_le (cfg : Setting) (w : NativeEntryStore) (name : Text) :
    (w.evictEntry cfg name).residentBytes ≤ w.residentBytes := by
  rw [residentBytes_eq, residentBytes_eq]
  cases (evictEntry_evicted cfg w name).1 with
  | gone he =>
    rw [he]
    exact total_erase_le _ _ _
  | muted hname he =>
    rw [he, total_insert, total_of_lookup _ hname]
    exact Nat.add_le_add_right (Nat.zero_le _) _
  | missing _ he => rw [he]

/-! ### The loop that evicts -/

theorem heldWeight_le (e : Entry) : heldWeight e ≤ 1 := by
  unfold heldWeight
  split <;> omega

theorem holds_iff : w.holds name = true ↔ ∃ e, w.entries.lookup name = some e ∧ e.text.isSome :=
  Option.any_eq_true _ _

/-- Without an entry in memory there are no bytes in memory. -/
theorem residentBytes_eq_zero (h : ∀ name, w.holds name = false) : w.residentBytes = 0 := by
  rw [residentBytes_eq]
  by_contra hne
  obtain ⟨name, e, hname, hweight⟩ := exists_of_total_pos _ (Nat.pos_of_ne_zero hne)
  have htext : e.text.isSome := by
    unfold residentWeight at hweight
    split at hweight
    · assumption
    · omega
  have hholds := holds_iff.mpr ⟨e, hname, htext⟩
  rw [h name] at hholds
  cases hholds

theorem holds_of_victim (h : w.victim pin = some name) : w.holds name = true := by
  rcases Option.or_eq_some_iff.mp h with hfind | ⟨-, hpin⟩
  · have := List.find?_some hfind
    rw [Bool.and_eq_true] at this
    exact this.2
  · by_cases hholds : w.holds pin = true
    · rw [if_pos hholds] at hpin
      cases hpin
      exact hholds
    · rw [if_neg hholds] at hpin
      cases hpin

/-- Evicting a victim takes one entry out of memory. -/
theorem heldCount_evictEntry (cfg : Setting) (hholds : w.holds name = true) :
    (w.evictEntry cfg name).heldCount + 1 = w.heldCount := by
  obtain ⟨e, hname, htext⟩ := holds_iff.mp hholds
  unfold heldCount
  rw [total_of_lookup _ hname]
  have hone : heldWeight e = 1 := if_pos htext
  cases (evictEntry_evicted cfg w name).1 with
  | gone he =>
    rw [he, hone]
    omega
  | muted hname' he =>
    have hzero : heldWeight { e with text := none, handle := none } = 0 := rfl
    cases hname.symm.trans hname'
    rw [he, total_insert, hone, hzero]
    omega
  | missing hnone he =>
    cases hname.symm.trans hnone

/-- The loop is at its end: the budget is met, or nothing is left to evict. -/
def Ended (cfg : Setting) (pin : Text) (w : NativeEntryStore) : Prop :=
  w.residentBytes ≤ cfg.budget ∨ w.victim pin = none

/-- A round takes one entry out of memory, so as many rounds as there are such entries do. -/
theorem evictLoop_ends (fuel : ℕ) (hfuel : w.heldCount ≤ fuel) :
    Ended cfg pin (evictLoop cfg pin fuel w) := by
  induction fuel generalizing w with
  | zero =>
    refine .inr ?_
    by_contra hvictim
    obtain ⟨name, hname⟩ := Option.ne_none_iff_exists'.mp hvictim
    have hname : w.victim pin = some name := hname
    have := heldCount_evictEntry cfg (holds_of_victim hname)
    omega
  | succ fuel ih =>
    unfold evictLoop
    by_cases hle : w.residentBytes ≤ cfg.budget
    · rw [if_pos hle]
      exact .inl hle
    · rw [if_neg hle]
      cases hvictim : w.victim pin with
      | none => exact .inr hvictim
      | some name =>
        have := heldCount_evictEntry cfg (holds_of_victim hvictim)
        exact ih (by omega)

/-- The loop ends, in whatever state it starts. -/
theorem evictOverBudget_ends (cfg : Setting) (w : NativeEntryStore) (pin : Text) :
    Ended cfg pin (w.evictOverBudget cfg pin) :=
  evictLoop_ends _ (total_le_length heldWeight_le w.entries)

/-- With coherent tables nothing in memory escapes the loop. -/
theorem residentBytes_of_ended (hc : w.Coherent) (h : Ended cfg pin w) :
    w.residentBytes ≤ cfg.budget := by
  rcases h with hle | hnone
  · exact hle
  · obtain ⟨hlist, hpin⟩ := Option.or_eq_none_iff.mp hnone
    rw [residentBytes_eq_zero]
    · exact Nat.zero_le _
    intro name
    by_cases heq : name = pin
    · subst heq
      by_contra hholds
      rw [Bool.not_eq_false] at hholds
      rw [if_pos hholds] at hpin
      cases hpin
    · by_contra hholds
      rw [Bool.not_eq_false] at hholds
      obtain ⟨e, hname, -⟩ := holds_iff.mp hholds
      have hmem : name ∈ w.lru := (hc.lru name).mpr (mem_of_lookup hname)
      have hnot := List.find?_eq_none.mp hlist name hmem
      simp [heq, hholds] at hnot

theorem residentBytes_evictOverBudget (hc : w.Coherent) (pin : Text) :
    (w.evictOverBudget cfg pin).residentBytes ≤ cfg.budget :=
  residentBytes_of_ended ((moves_evictOverBudget cfg w pin).coherent hc) (evictOverBudget_ends cfg w pin)

theorem residentBytes_capLoop_le (fuel : ℕ) (w : NativeEntryStore) :
    (capLoop cfg fuel w).residentBytes ≤ w.residentBytes := by
  induction fuel generalizing w with
  | zero => exact le_rfl
  | succ fuel ih =>
    unfold capLoop
    split
    · exact le_rfl
    · split
      · exact le_rfl
      · refine (ih _).trans ?_
        rw [residentBytes_dropEntry]
        exact bytesBeside_le w _

/-! ### Writing -/

variable [Digests]

/-- A new entry is put in, and then the loop runs. -/
theorem residentBytes_keep (cfg : Setting) (name : Text) (hc : w.Coherent) (kind : EntryKind) (text : Text) (handle revision : ℕ)
    (row : ContentIndexEntry) :
    (w.keep cfg name kind text handle revision row).residentBytes ≤ cfg.budget := by
  let added : NativeEntryStore := ({ w with
    entries := w.entries.insert name ⟨kind, row.byteLength, some text, some handle, revision, row⟩
    index := w.index.insert name row }).touch name
  have hadded : added.Coherent := hc.added rfl rfl rfl
  have hrest := ((moves_capLoop cfg added.entries.entries.length added).trans
    (moves_persistEntry cfg (added.capAutoEntries cfg) name)).trans (moves_persistIndex cfg _)
  exact residentBytes_evictOverBudget (hrest.coherent hadded) name

/-- A session that is live and has its digest has a row and ids. -/
theorem rowOf_eq {handle : ℕ} {s : Session} (hs : w.store.sessions.lookup handle = some s)
    (hd : s.content.isSome) : ∃ row, w.rowOf handle = some row := by
  obtain ⟨d, hd⟩ := Option.isSome_iff_exists.mp hd
  refine ⟨d.entry, ?_⟩
  unfold rowOf call
  rw [Store.run_contentIndexEntry hs, hd]
  rfl

omit [Digests] in
/-- The ids of a live session can be read. -/
theorem readAllIds_of_live {handle : ℕ} {s : Session} {w₁ : NativeEntryStore}
    (hs : w.store.sessions.lookup handle = some s) :
    w.call (Store.readAllIds handle) ≠ (none, w₁) := by
  intro hcall
  have hread := Store.wp_readAllIds_carries (S := w.store) handle
  have hnone := of_call_none (wp_mono hread (fun _ _ h => h) fun _ _ h => h.2) hcall
  cases hs.symm.trans hnone

/-- A session that was put is live and has its digest. -/
theorem live_of_put (ht : w.store.Tracked) {text : Text} {put : PutOutcome}
    (hput : w.call (Store.put w.keyId text cfg.router) = (some put, w')) :
    ∃ s, w'.store.sessions.lookup put.handle = some s ∧ s.content.isSome :=
  (of_call_eq (Store.wp_put_carries w.keyId text cfg.router) hput).2.2.2 ht

theorem residentBytes_writeEntry (hc : w.Coherent) (ht : w.store.Tracked) (kind : EntryKind)
    (text : Text) :
    (w.writeEntry cfg name kind text).2.residentBytes ≤ max cfg.budget (w.bytesBeside name) := by
  have hrelease := moves_releaseHandle w ((w.entries.lookup name).bind Entry.handle)
  have hs := sameTables_releaseHandle w ((w.entries.lookup name).bind Entry.handle)
  unfold writeEntry
  dsimp only
  have hsput := sameTables_call (w.releaseHandle ((w.entries.lookup name).bind Entry.handle))
    (Store.put (w.releaseHandle ((w.entries.lookup name).bind Entry.handle)).keyId text cfg.router)
  split
  · rename_i w₁ hput
    rw [hput] at hsput
    refine le_max_of_le_right ?_
    rw [residentBytes_dropEntry, bytesBeside_of_same (hs.trans hsput)]
  · rename_i put w₁ hput
    have hmove := hrelease.trans (moves_of_eq (moves_put cfg _ text) hput)
    obtain ⟨s, hlive, hdigest⟩ := live_of_put (hrelease.carries.tracked ht) hput
    obtain ⟨row, hrow⟩ := rowOf_eq hlive hdigest
    rw [hrow]
    dsimp only
    split
    · rename_i w₂ hread
      exact absurd hread (readAllIds_of_live hlive)
    · rename_i ids w₂ hread
      refine le_max_of_le_left (residentBytes_keep cfg name ?_ _ _ _ _ _)
      exact (hmove.trans (moves_of_eq (moves_readAllIds w₁ _) hread)).coherent hc

/-- The entry is in memory with this text, and with a handle. -/
def Ready (w : NativeEntryStore) (name : Text) (kind : EntryKind) (stored : Text) : Prop :=
  ∃ e handle, w.entries.lookup name = some e ∧ e.kind = kind ∧ e.text = some stored ∧
    e.handle = some handle

/-- An append comes to the loop, or drops its entry and gives nothing. -/
theorem residentBytes_appendEntry (hc : w.Coherent) {kind : EntryKind} {stored : Text}
    (hready : Ready w name kind stored) (delta : Text) :
    (w.appendEntry cfg name delta).2.residentBytes ≤ cfg.budget ∨
      (w.appendEntry cfg name delta).1 = none ∧
        (w.appendEntry cfg name delta).2.residentBytes ≤ w.bytesBeside name := by
  obtain ⟨e, handle, hname, -, htext, hhandle⟩ := hready
  unfold appendEntry
  rw [hname]
  dsimp only
  rw [hhandle]
  dsimp only
  have hs := sameTables_call w (Store.append handle delta e.revision cfg.router)
  have hdropped (w₁ : NativeEntryStore) (h₁ : SameTables w w₁) :
      (w₁.dropEntry cfg name false).residentBytes ≤ w.bytesBeside name := by
    rw [residentBytes_dropEntry, bytesBeside_of_same h₁]
  split
  · rename_i w₁ happend
    rw [happend] at hs
    exact .inr ⟨rfl, hdropped w₁ hs⟩
  · rename_i outcome w₁ happend
    rw [happend] at hs
    have hmove := moves_of_eq (moves_append cfg w _ _ _) happend
    split
    · exact .inr ⟨rfl, hdropped w₁ hs⟩
    · rw [htext]
      dsimp only
      refine .inl (residentBytes_evictOverBudget ?_ name)
      have hname' : w₁.entries.lookup name = some e := by rwa [hs.entries]
      refine ((moves_persistEntry cfg _ name).trans (moves_persistIndex cfg _)).coherent ?_
      exact (hmove.coherent hc).replaced (mem_of_lookup hname') rfl (.inr ⟨_, rfl⟩) rfl

omit [Digests] in
theorem residentBytes_serveHit (hc : w.Coherent) (name : Text) :
    (w.serveHit cfg name).2.residentBytes ≤ cfg.budget :=
  residentBytes_evictOverBudget ((moves_entryIds cfg w name).coherent hc) name

end NativeEntryStore

end Toktier.Routing.Entries
