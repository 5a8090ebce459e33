import Toktier.Lib.SharedRows
import Toktier.StoreCore.Isolation

/-!
# The id rows of the sessions in memory

Elsewhere in the model a row of ids is a value. Here the rows stand in memory: a vector of ids
is a cell that its session overwrites in place, a shared row is a view of a cell, and adopting
a vector as a shared row moves the cell. A snapshot keeps what it shows because no session
overwrites a cell with a view on it: the suffix of the sealed stream is replaced by a new
vector before it becomes a block, and a shared tail is copied before it is spliced.

## Main definitions

* `Rows`: the rows of a session, with the operations of the sealed stream and of the tail.
* `RowStore`, `RowAct`: the rows of all sessions, and the views that others hold.
* `Separate`: no view is on a cell that a session owns, and no two sessions own one cell.
* `Current`: a snapshot of the current generation shows the stream.

## Main results

* `separate_after`: every step keeps the rows separate, and what is held shows what it showed.
* `snapshots_current`: snapshots are current and immutable.
-/
namespace Toktier.StoreCore

open Toktier.Lib

/-- Memory for rows of ids. -/
abbrev Ids := Memory UInt32

/-- The ids of a tail: an owned vector, or a view. -/
inductive TailRow
  | Owned (cell : ℕ)
  | Shared (view : View)

/-- The rows of a session. -/
structure Rows where
  blocks : List View
  /-- The suffix of the sealed stream. -/
  owned : ℕ
  tail : TailRow
  idsGeneration : ℕ
  idsSnapshot : Option (ℕ × View)

/-! ### The operations of the source -/

/-- `TailIds::as_slice` -/
def TailRow.asSlice (t : TailRow) (M : Ids) : List UInt32 :=
  match t with
  | .Owned c => M.cells c
  | .Shared view => M.read view

namespace Rows

/-- The sealed stream. -/
def sealedIds (r : Rows) (M : Ids) : List UInt32 := r.blocks.flatMap M.read ++ M.cells r.owned

/-- `materialize_all_ids` -/
def allIds (r : Rows) (M : Ids) : List UInt32 := r.sealedIds M ++ r.tail.asSlice M

/-- `SealedIds::push_shared`: the suffix becomes a block where it stands, and an empty vector
takes its place. -/
def pushShared (r : Rows) (M : Ids) (view : View) : Ids × Rows :=
  if view.start = view.stop then (M, r)
  else if M.cells r.owned = [] then (M, { r with blocks := r.blocks ++ [view] })
  else
    let (fresh, M') := M.alloc []
    (M', { r with blocks := r.blocks ++ [M.whole r.owned, view], owned := fresh })

/-- `SealedIds::extend_from_slice` -/
def extendFromSlice (r : Rows) (M : Ids) (ids : List UInt32) : Ids :=
  M.write r.owned (M.cells r.owned ++ ids)

/-- `TailIds::to_mut`: the cell that may be written. -/
def toMut (r : Rows) (M : Ids) : ℕ × Ids × Rows :=
  match r.tail with
  | .Owned c => (c, M, r)
  | .Shared view =>
    let (c, M') := M.alloc (M.read view)
    (c, M', { r with tail := .Owned c })

/-- `TailState::splice`, on the ids. -/
def splice (r : Rows) (M : Ids) (cut : ℕ) (ids : List UInt32) : Ids × Rows :=
  let (c, M, r) := r.toMut M
  (M.write c ((M.cells c).take cut ++ ids), r)

/-- `TailState::fill` and `fill_soa`, on the ids. -/
def fill (r : Rows) (M : Ids) (ids : List UInt32) : Ids × Rows :=
  let (c, M) := M.alloc ids
  (M, { r with tail := .Owned c })

/-- `TailState::fill_shared` and `fill_lazy`, on the ids. -/
def fillShared (r : Rows) (view : View) : Rows := { r with tail := .Shared view }

/-- `seal_tail`, on the ids. -/
def sealTail (r : Rows) (M : Ids) (cut : ℕ) : Ids × Rows :=
  let n := (r.tail.asSlice M).length
  if cut = 0 ∨ n ≤ cut then (M, r)
  else
    match r.tail with
    | .Shared view =>
      let (M, r) := r.pushShared M (view.slice 0 cut)
      (M, r.fillShared (view.slice cut n))
    | .Owned c =>
      let M := r.extendFromSlice M ((M.cells c).take cut)
      r.fill M ((M.cells c).drop cut)

/-- `bump_ids_generation` -/
def bumpIdsGeneration (r : Rows) : Rows :=
  { r with idsGeneration := r.idsGeneration + 1, idsSnapshot := none }

/-- `as_single_shared` -/
def asSingleShared (r : Rows) (M : Ids) : Option View :=
  match r.blocks with
  | [single] => if M.cells r.owned = [] then some single else none
  | _ => none

/-- A view of the complete stream that needs no copy. -/
def joinedRow (r : Rows) (M : Ids) : Option View :=
  match r.asSingleShared M, r.tail with
  | some head, .Shared tail => head.joinAdjacent tail
  | none, .Shared tail => if r.sealedIds M = [] then some tail else none
  | _, .Owned _ => none

/-- `shared_all_ids` -/
def sharedAllIds (r : Rows) (M : Ids) : View × Ids × Rows :=
  let current := r.idsSnapshot.bind fun s => if s.1 = r.idsGeneration then some s.2 else none
  match current with
  | some view => (view, M, r)
  | none =>
    match r.joinedRow M with
    | some view => (view, M, { r with idsSnapshot := some (r.idsGeneration, view) })
    | none =>
      let (c, M) := M.alloc (r.allIds M)
      (M.whole c, M, { r with idsSnapshot := some (r.idsGeneration, M.whole c) })

/-- The copy that a fork makes: vectors are copied, views are shared. -/
def clone (r : Rows) (M : Ids) : Ids × Rows :=
  let (owned, M) := M.alloc (M.cells r.owned)
  match r.tail with
  | .Owned c =>
    let (c, M) := M.alloc (M.cells c)
    (M, { r with owned, tail := .Owned c })
  | .Shared _ => (M, { r with owned })

/-- The rows of a new session. -/
def fresh (M : Ids) (sealedIds : List UInt32) : Ids × Rows :=
  let (owned, M) := M.alloc sealedIds
  let (tail, M) := M.alloc []
  (M, ⟨[], owned, .Owned tail, 0, none⟩)

end Rows

/-- What happens to the rows of a session in a call that changes its stream. -/
inductive Edit
  | splice (cut : ℕ) (ids : List UInt32)
  | fill (ids : List UInt32)
  /-- The tail adopts a view that the engine holds. -/
  | fillShared (n : ℕ)
  | sealTail (cut : ℕ)

/-- One edit, with the views that others hold. -/
def Edit.run (held : List View) (e : Edit) (x : Ids × Rows) : Ids × Rows :=
  match e with
  | .splice cut ids => x.2.splice x.1 cut ids
  | .fill ids => x.2.fill x.1 ids
  | .fillShared n =>
    match held[n]? with
    | some view => (x.1, x.2.fillShared view)
    | none => x
  | .sealTail cut => x.2.sealTail x.1 cut

def runEdits (held : List View) (edits : List Edit) (x : Ids × Rows) : Ids × Rows :=
  edits.foldl (fun x e => e.run held x) x

/-- The rows of all sessions, and the views that callers and engines hold. -/
structure RowStore where
  memory : Ids
  sessions : ℕ → Option Rows
  held : List View

/-- A step: a caller's or an engine's, or a call of the store. -/
inductive RowAct
  /-- Someone adopts a vector as a shared row. -/
  | fromVec (ids : List UInt32)
  /-- Someone takes a sub-range of a shared row. -/
  | slice (n lo hi : ℕ)
  /-- An engine keeps the view of a tail. -/
  | keepTail (handle : ℕ)
  | create (handle : ℕ) (sealedIds : List UInt32) (edits : List Edit)
  | append (handle : ℕ) (edits : List Edit)
  | fork (handle copy : ℕ)
  | evict (handle : ℕ)
  | sharedAllIds (handle : ℕ)

namespace RowStore

/-- The store of a start. -/
def new : RowStore := ⟨⟨fun _ => [], 0⟩, fun _ => none, []⟩

/-- The session at the handle has new rows. -/
def put (s : RowStore) (handle : ℕ) (x : Ids × Rows) : RowStore :=
  { s with memory := x.1, sessions := Function.update s.sessions handle (some x.2) }

/-- Someone holds one more view. -/
def hold (s : RowStore) (view : View) : RowStore := { s with held := s.held ++ [view] }

/-- The next state. -/
def after (s : RowStore) : RowAct → RowStore
  | .fromVec ids =>
    let (c, M) := s.memory.alloc ids
    { s with memory := M }.hold (M.whole c)
  | .slice n lo hi =>
    match s.held[n]? with
    | some view => if lo ≤ hi ∧ view.start + hi ≤ view.stop then s.hold (view.slice lo hi) else s
    | none => s
  | .keepTail handle =>
    match (s.sessions handle).map Rows.tail with
    | some (.Shared view) => s.hold view
    | _ => s
  | .create handle sealedIds edits =>
    match s.sessions handle with
    | some _ => s
    | none => s.put handle (runEdits s.held edits (Rows.fresh s.memory sealedIds))
  | .append handle edits =>
    match s.sessions handle with
    | some r => s.put handle (runEdits s.held edits (s.memory, r.bumpIdsGeneration))
    | none => s
  | .fork handle copy =>
    match s.sessions handle, s.sessions copy with
    | some r, none => s.put copy (r.clone s.memory)
    | _, _ => s
  | .evict handle => { s with sessions := Function.update s.sessions handle none }
  | .sharedAllIds handle =>
    match s.sessions handle with
    | some r =>
      let (view, x) := r.sharedAllIds s.memory
      (s.put handle x).hold view
    | none => s

/-- The state after a run. -/
def afterAll (s : RowStore) (acts : List RowAct) : RowStore := acts.foldl after s

end RowStore

/-! ### What a session owns and what it shows -/

/-- The cells that a tail may overwrite. -/
def TailRow.cells : TailRow → List ℕ
  | .Owned c => [c]
  | .Shared _ => []

def TailRow.views : TailRow → List View
  | .Owned _ => []
  | .Shared view => [view]

/-- The cells that a session may overwrite. -/
def Rows.cells (r : Rows) : List ℕ := r.owned :: r.tail.cells

/-- The views of a session. -/
def Rows.views (r : Rows) : List View :=
  r.blocks ++ r.tail.views ++ (r.idsSnapshot.map Prod.snd).toList

variable {M M' M'' : Ids} {r r' r'' : Rows} {held : List View} {view : View} {ids : List UInt32}

/-- A view that is not on a cell that the session may overwrite. -/
def Rows.Apart (r : Rows) (M : Ids) (v : View) : Prop := M.Within v ∧ v.cell ∉ r.cells

/-- A session's cells are different and allocated, and its views are not on them. -/
structure Rows.Ok (r : Rows) (M : Ids) : Prop where
  nodup : r.cells.Nodup
  lt : ∀ c ∈ r.cells, c < M.next
  apart : ∀ v ∈ r.views, r.Apart M v

/-- The cell is one that others or the session show. -/
def Rows.Shown (r : Rows) (held : List View) (v : View) : Prop :=
  v.cell ∈ held.map View.cell ∨ v.cell ∈ r.views.map View.cell

/-- What a step on one session does: it overwrites what the session owns, takes new cells, and
shows cells that were shown, owned or new. -/
structure RowMoves (held : List View) (M : Ids) (r : Rows) (M' : Ids) (r' : Rows) : Prop where
  frame : M.Frame M' r.cells
  ok : r'.Ok M'
  cells : ∀ c ∈ r'.cells, c ∈ r.cells ∨ M.next ≤ c
  views : ∀ v ∈ r'.views, r.Shown held v ∨ v.cell ∈ r.cells ∨ M.next ≤ v.cell

theorem Rows.Ok.old (h : r.Ok M) (held : List View) {v : View} (hv : v ∈ r.views) :
    r.Apart M v ∧ r.Shown held v := ⟨h.apart v hv, .inr (List.mem_map_of_mem hv)⟩

/-- A view that was apart stays apart. -/
theorem Rows.Apart.frame (h : r.Apart M view) (hframe : M.Frame M' r.cells)
    (hcells : ∀ c ∈ r'.cells, c ∈ r.cells ∨ M.next ≤ c) : r'.Apart M' view := by
  refine ⟨hframe.within h.1 h.2, fun hc => ?_⟩
  rcases hcells _ hc with hc | hc
  · exact h.2 hc
  · exact absurd h.1.cell_lt (by omega)

namespace RowMoves

/-- A step whose views are old ones, or are on cells that it gave up or took. -/
theorem of (hframe : M.Frame M' r.cells) (hnodup : r'.cells.Nodup)
    (hlt : ∀ c ∈ r'.cells, c < M'.next) (hcells : ∀ c ∈ r'.cells, c ∈ r.cells ∨ M.next ≤ c)
    (hviews : ∀ v ∈ r'.views, (r.Apart M v ∧ r.Shown held v) ∨
      r'.Apart M' v ∧ (v.cell ∈ r.cells ∨ M.next ≤ v.cell)) : RowMoves held M r M' r' := by
  refine ⟨hframe, ⟨hnodup, hlt, fun v hv => ?_⟩, hcells, fun v hv => ?_⟩
  · rcases hviews v hv with ⟨hapart, -⟩ | ⟨hapart, -⟩
    · exact hapart.frame hframe hcells
    · exact hapart
  · rcases hviews v hv with ⟨-, hshown⟩ | ⟨-, hcell⟩
    · exact .inl hshown
    · exact .inr hcell

theorem refl (h : r.Ok M) : RowMoves held M r M r :=
  of (Memory.Frame.refl _ _) h.nodup h.lt (fun _ hc => .inl hc) fun _ hv => .inl (h.old held hv)

theorem trans (h : RowMoves held M r M' r') (h' : RowMoves held M' r' M'' r'') :
    RowMoves held M r M'' r'' := by
  have hnew {c : ℕ} (hc : M'.next ≤ c) : M.next ≤ c := h.frame.next_le.trans hc
  refine ⟨h.frame.trans h'.frame h.cells, h'.ok, fun c hc => ?_, fun v hv => ?_⟩
  · rcases h'.cells c hc with hc | hc
    · exact h.cells c hc
    · exact .inr (hnew hc)
  · rcases h'.views v hv with (hheld | hview) | hcell | hfresh
    · exact .inl (.inl hheld)
    · obtain ⟨u, hu, hcell⟩ := List.mem_map.mp hview
      have := h.views u hu
      rwa [Rows.Shown, hcell] at this
    · exact .inr (h.cells _ hcell)
    · exact .inr (.inr (hnew hfresh))

end RowMoves

/-! ### One step on one session -/

theorem Rows.mem_views {v : View} : v ∈ r.views ↔
    v ∈ r.blocks ∨ v ∈ r.tail.views ∨ v ∈ (r.idsSnapshot.map Prod.snd).toList := by
  rw [Rows.views, List.mem_append, List.mem_append, or_assoc]

theorem Rows.Ok.block (h : r.Ok M) (held : List View) {v : View} (hv : v ∈ r.blocks) :
    r.Apart M v ∧ r.Shown held v := h.old held (Rows.mem_views.mpr (.inl hv))

theorem Rows.Ok.snapshot (h : r.Ok M) (held : List View) {v : View}
    (hv : v ∈ (r.idsSnapshot.map Prod.snd).toList) : r.Apart M v ∧ r.Shown held v :=
  h.old held (Rows.mem_views.mpr (.inr (.inr hv)))

theorem Rows.Ok.tailView (h : r.Ok M) (held : List View) (ht : r.tail = .Shared view) :
    r.Apart M view ∧ r.Shown held view := by
  refine h.old held (Rows.mem_views.mpr (.inr (.inl ?_)))
  rw [ht]
  exact List.mem_singleton_self view

/-- A cell of the session, by its place. -/
theorem Rows.mem_cells {c : ℕ} : c ∈ r.cells ↔ c = r.owned ∨ c ∈ r.tail.cells := List.mem_cons

theorem Rows.Ok.owned_notMem (h : r.Ok M) : r.owned ∉ r.tail.cells := (List.nodup_cons.mp h.nodup).1

theorem Rows.Ok.moves_pushShared (h : r.Ok M) (hview : r.Apart M view)
    (hshown : r.Shown held view) :
    RowMoves held M r (r.pushShared M view).1 (r.pushShared M view).2 := by
  unfold Rows.pushShared
  split_ifs with hempty howned
  · exact RowMoves.refl h
  · refine RowMoves.of (Memory.Frame.refl _ _) h.nodup h.lt (fun _ hc => .inl hc) fun v hv => ?_
    rw [Rows.mem_views, List.mem_append, List.mem_singleton] at hv
    rcases hv with (hv | rfl) | hv
    · exact .inl (h.block held hv)
    · exact .inl ⟨hview, hshown⟩
    · exact .inl (h.old held (Rows.mem_views.mpr (.inr hv)))
  · dsimp only [Memory.alloc_fst]
    have htail {c : ℕ} (hc : c ∈ r.tail.cells) : c < M.next := h.lt c (Rows.mem_cells.mpr (.inr hc))
    have howned_lt : r.owned < M.next := h.lt _ (Rows.mem_cells.mpr (.inl rfl))
    refine RowMoves.of (Memory.Frame.alloc M [] _) ?_ ?_ ?_ fun v hv => ?_
    · exact List.nodup_cons.mpr ⟨fun hc => absurd (htail hc) (lt_irrefl _), (List.nodup_cons.mp h.nodup).2⟩
    · intro c hc
      rw [Memory.next_alloc]
      rcases Rows.mem_cells.mp hc with rfl | hc
      · exact Nat.lt_succ_self _
      · exact (htail hc).trans (Nat.lt_succ_self _)
    · intro c hc
      rcases Rows.mem_cells.mp hc with rfl | hc
      · exact .inr le_rfl
      · exact .inl (Rows.mem_cells.mpr (.inr hc))
    · rw [Rows.mem_views, List.mem_append, List.mem_cons, List.mem_singleton] at hv
      rcases hv with (hv | rfl | rfl) | hv
      · exact .inl (h.block held hv)
      · -- the suffix that became a block
        refine .inr ⟨⟨⟨?_, Nat.zero_le _, ?_⟩, fun hc => ?_⟩, .inl (Rows.mem_cells.mpr (.inl rfl))⟩
        · exact howned_lt.trans (Nat.lt_succ_self _)
        · have hkept : (M.alloc []).2.cells r.owned = M.cells r.owned := Memory.cells_alloc howned_lt
          exact (congrArg List.length hkept).ge
        · rcases Rows.mem_cells.mp hc with hc | hc
          · exact absurd howned_lt (by rw [show r.owned = M.next from hc]; exact lt_irrefl _)
          · exact h.owned_notMem hc
      · exact .inl ⟨hview, hshown⟩
      · exact .inl (h.old held (Rows.mem_views.mpr (.inr hv)))

/-- A step that overwrites a cell of the session. -/
theorem Rows.Ok.moves_write (h : r.Ok M) {c : ℕ} (hc : c ∈ r.cells) (row : List UInt32) :
    RowMoves held M r (M.write c row) r :=
  RowMoves.of (Memory.Frame.write hc) h.nodup h.lt (fun _ hd => .inl hd)
    fun _ hv => .inl (h.old held hv)

/-- A step that gives the tail a vector of its own. -/
theorem Rows.Ok.moves_fill (h : r.Ok M) (ids : List UInt32) :
    RowMoves held M r (r.fill M ids).1 (r.fill M ids).2 := by
  have howned : r.owned < M.next := h.lt _ (Rows.mem_cells.mpr (.inl rfl))
  refine RowMoves.of (Memory.Frame.alloc M ids _) ?_ ?_ ?_ fun v hv => ?_
  · exact List.nodup_cons.mpr ⟨fun hc => absurd (List.mem_singleton.mp hc) howned.ne,
      List.nodup_singleton _⟩
  · intro c hc
    rcases Rows.mem_cells.mp hc with rfl | hc
    · exact howned.trans (Nat.lt_succ_self _)
    · rw [List.mem_singleton.mp hc]
      exact Nat.lt_succ_self _
  · intro c hc
    rcases Rows.mem_cells.mp hc with rfl | hc
    · exact .inl (Rows.mem_cells.mpr (.inl rfl))
    · exact .inr (List.mem_singleton.mp hc).ge
  · rcases Rows.mem_views.mp hv with hv | hv | hv
    · exact .inl (h.block held hv)
    · exact absurd hv List.not_mem_nil
    · exact .inl (h.snapshot held hv)

theorem Rows.Ok.moves_fillShared (h : r.Ok M) (hview : r.Apart M view) (hshown : r.Shown held view) :
    RowMoves held M r M (r.fillShared view) := by
  have hcell {c : ℕ} (hc : c ∈ (r.fillShared view).cells) : c ∈ r.cells := by
    rcases Rows.mem_cells.mp hc with rfl | hc
    · exact Rows.mem_cells.mpr (.inl rfl)
    · exact absurd hc List.not_mem_nil
  refine RowMoves.of (Memory.Frame.refl _ _) (List.nodup_singleton _) (fun c hc => h.lt c (hcell hc))
    (fun c hc => .inl (hcell hc)) fun v hv => .inl ?_
  rcases Rows.mem_views.mp hv with hv | hv | hv
  · exact h.block held hv
  · rw [List.mem_singleton.mp hv]
    exact ⟨hview, hshown⟩
  · exact h.snapshot held hv

theorem Rows.Ok.moves_splice (h : r.Ok M) (cut : ℕ) (ids : List UInt32) :
    RowMoves held M r (r.splice M cut ids).1 (r.splice M cut ids).2 := by
  unfold Rows.splice Rows.toMut
  cases htail : r.tail with
  | Owned c =>
    refine h.moves_write (Rows.mem_cells.mpr (.inr ?_)) _
    rw [htail]
    exact List.mem_singleton_self c
  | Shared view =>
    -- the copy is the session's own
    have hfill : RowMoves held M r _ _ := h.moves_fill (M.read view)
    exact hfill.trans (hfill.ok.moves_write (Rows.mem_cells.mpr (.inr (List.mem_singleton_self _))) _)

theorem Rows.tail_pushShared (r : Rows) (M : Ids) (view : View) :
    (r.pushShared M view).2.tail = r.tail := by
  unfold Rows.pushShared
  split_ifs <;> rfl

theorem Rows.Apart.slice {lo hi : ℕ} (h : r.Apart M view) (hlo : lo ≤ hi)
    (hhi : view.start + hi ≤ view.stop) : r.Apart M (view.slice lo hi) :=
  ⟨h.1.slice hlo hhi, h.2⟩

theorem Rows.Ok.moves_sealTail (h : r.Ok M) (cut : ℕ) :
    RowMoves held M r (r.sealTail M cut).1 (r.sealTail M cut).2 := by
  unfold Rows.sealTail
  dsimp only
  split_ifs with hcut
  · exact RowMoves.refl h
  · cases htail : r.tail with
    | Owned c =>
      have hwrite : RowMoves held M r (r.extendFromSlice M ((M.cells c).take cut)) r :=
        h.moves_write (Rows.mem_cells.mpr (.inl rfl)) _
      exact hwrite.trans (hwrite.ok.moves_fill _)
    | Shared view =>
      obtain ⟨hapart, hshown⟩ := h.tailView held htail
      have hlen : (r.tail.asSlice M).length = view.stop - view.start := by
        rw [htail]
        exact Memory.length_read hapart.1
      have := hapart.1.start_le
      rw [htail] at hlen hcut
      rw [hlen] at hcut ⊢
      have hhead := h.moves_pushShared (hapart.slice (Nat.zero_le cut) (by omega)) hshown
      refine hhead.trans (hhead.ok.moves_fillShared ?_ (.inr ?_))
      · exact (hapart.slice (by omega) (by omega)).frame hhead.frame hhead.cells
      · have hkept : view ∈ (r.pushShared M (view.slice 0 cut)).2.views := by
          refine Rows.mem_views.mpr (.inr (.inl ?_))
          rw [Rows.tail_pushShared, htail]
          exact List.mem_singleton_self view
        exact List.mem_map.mpr ⟨view, hkept, rfl⟩

theorem Rows.Ok.moves_bump (h : r.Ok M) : RowMoves held M r M r.bumpIdsGeneration := by
  refine RowMoves.of (Memory.Frame.refl _ _) h.nodup h.lt (fun _ hc => .inl hc) fun v hv => .inl ?_
  rcases Rows.mem_views.mp hv with hv | hv | hv
  · exact h.block held hv
  · exact h.old held (Rows.mem_views.mpr (.inr (.inl hv)))
  · exact absurd hv List.not_mem_nil

/-- The views that others hold are not on the cells of the session. -/
def HeldApart (held : List View) (M : Ids) (r : Rows) : Prop := ∀ v ∈ held, r.Apart M v

theorem RowMoves.heldApart (h : RowMoves held M r M' r') (hheld : HeldApart held M r) :
    HeldApart held M' r' := fun v hv => (hheld v hv).frame h.frame h.cells

theorem moves_edit (e : Edit) (h : r.Ok M) (hheld : HeldApart held M r) :
    RowMoves held M r (e.run held (M, r)).1 (e.run held (M, r)).2 := by
  cases e with
  | splice cut ids => exact h.moves_splice cut ids
  | fill ids => exact h.moves_fill ids
  | sealTail cut => exact h.moves_sealTail cut
  | fillShared n =>
    cases hn : held[n]? with
    | none =>
      simp only [Edit.run, hn]
      exact RowMoves.refl h
    | some view =>
      have hmem := List.mem_of_getElem? hn
      simp only [Edit.run, hn]
      exact h.moves_fillShared (hheld view hmem) (.inl (List.mem_map_of_mem hmem))

theorem moves_edits (edits : List Edit) (h : r.Ok M) (hheld : HeldApart held M r) :
    RowMoves held M r (runEdits held edits (M, r)).1 (runEdits held edits (M, r)).2 := by
  induction edits generalizing M r with
  | nil => exact RowMoves.refl h
  | cons e edits ih =>
    have hone := moves_edit e h hheld
    exact hone.trans (ih hone.ok (hone.heldApart hheld))

/-! ### Snapshots of one session -/

/-- The one block of a sealed stream that is a view. -/
theorem Rows.asSingleShared_eq_some (h : r.asSingleShared M = some view) :
    r.blocks = [view] ∧ M.cells r.owned = [] := by
  unfold Rows.asSingleShared at h
  split at h
  · split_ifs at h with howned
    rename_i hblocks
    obtain rfl := Option.some.inj h
    exact ⟨hblocks, howned⟩
  · cases h

/-- A view that needs no copy shows the stream. -/
theorem Rows.Ok.joinedRow_spec (h : r.Ok M) (held : List View) (hrow : r.joinedRow M = some view) :
    (r.Apart M view ∧ r.Shown held view) ∧ M.read view = r.allIds M := by
  unfold Rows.joinedRow at hrow
  split at hrow
  · rename_i head tail hhead htail
    obtain ⟨hblocks, howned⟩ := Rows.asSingleShared_eq_some hhead
    obtain ⟨happart, -⟩ := h.block held (by rw [hblocks]; exact List.mem_singleton_self head)
    obtain ⟨htapart, htshown⟩ := h.tailView held htail
    obtain ⟨hwithin, hcell⟩ := happart.1.joinAdjacent htapart.1 hrow
    refine ⟨⟨⟨hwithin, ?_⟩, ?_⟩, ?_⟩
    · rw [hcell]
      exact htapart.2
    · rwa [Rows.Shown, hcell]
    · rw [Memory.read_joinAdjacent happart.1 htapart.1 hrow, Rows.allIds, Rows.sealedIds, hblocks,
        howned, htail]
      simp [TailRow.asSlice]
  · rename_i tail _ htail
    split_ifs at hrow with hsealed
    obtain rfl := Option.some.inj hrow
    refine ⟨h.tailView held htail, ?_⟩
    rw [Rows.allIds, hsealed, htail]
    rfl
  · cases hrow

/-- The snapshot of the current generation shows the stream. -/
def Rows.Current (r : Rows) (M : Ids) : Prop :=
  ∀ g v, r.idsSnapshot = some (g, v) → g = r.idsGeneration → M.read v = r.allIds M

/-- A step that overwrites nothing of the session leaves its stream as it was. -/
theorem Rows.Ok.allIds_frame (h : r.Ok M) {owned : List ℕ} (hframe : M.Frame M' owned)
    (hcells : ∀ c ∈ r.cells, c ∉ owned) (hviews : ∀ v ∈ r.views, v.cell ∉ owned) :
    r.allIds M' = r.allIds M := by
  have hcell {c : ℕ} (hc : c ∈ r.cells) : M'.cells c = M.cells c :=
    hframe.cells_eq c (h.lt c hc) (hcells c hc)
  have hview {v : View} (hv : v ∈ r.views) : M'.read v = M.read v :=
    hframe.read_eq (h.apart v hv).1.cell_lt (hviews v hv)
  have hblocks : r.blocks.flatMap M'.read = r.blocks.flatMap M.read := by
    refine List.flatMap_congr fun v hv => hview (Rows.mem_views.mpr (.inl hv))
  rw [Rows.allIds, Rows.allIds, Rows.sealedIds, Rows.sealedIds, hblocks,
    hcell (Rows.mem_cells.mpr (.inl rfl))]
  congr 1
  cases htail : r.tail with
  | Owned c => exact hcell (Rows.mem_cells.mpr (.inr (by rw [htail]; exact List.mem_singleton_self c)))
  | Shared v =>
    exact hview (Rows.mem_views.mpr (.inr (.inl (by rw [htail]; exact List.mem_singleton_self v))))

theorem Rows.Ok.moves_snapshot (h : r.Ok M) (hframe : M.Frame M' [])
    (hview : (r.Apart M view ∧ r.Shown held view) ∨ M'.Within view ∧ M.next ≤ view.cell) :
    RowMoves held M r M' { r with idsSnapshot := some (r.idsGeneration, view) } := by
  have hframe' : M.Frame M' r.cells := ⟨hframe.next_le, fun c hc _ => hframe.cells_eq c hc List.not_mem_nil⟩
  refine RowMoves.of hframe' h.nodup (fun c hc => (h.lt c hc).trans_le hframe.next_le)
    (fun _ hc => .inl hc) fun v hv => ?_
  rcases Rows.mem_views.mp hv with hv | hv | hv
  · exact .inl (h.block held hv)
  · exact .inl (h.old held (Rows.mem_views.mpr (.inr (.inl hv))))
  · rw [List.mem_singleton.mp hv]
    rcases hview with hold | ⟨hwithin, hnew⟩
    · exact .inl hold
    · refine .inr ⟨⟨hwithin, fun hc => ?_⟩, .inr hnew⟩
      have hlt : view.cell < M.next := h.lt _ hc
      omega

/-- `shared_all_ids` shows the stream, and what it shows is a view of the session. -/
theorem Rows.Ok.sharedAllIds_spec (h : r.Ok M) (hcur : r.Current M) (held : List View) :
    let x := r.sharedAllIds M
    RowMoves held M r x.2.1 x.2.2 ∧ x.2.1.read x.1 = r.allIds M ∧
      x.1 ∈ x.2.2.views ∧ x.2.2.Current x.2.1 := by
  have hsnap {M' : Ids} {v : View} (hM : r.allIds M' = r.allIds M) (hread : M'.read v = r.allIds M) :
      ({ r with idsSnapshot := some (r.idsGeneration, v) } : Rows).Current M' := by
    intro g w hw _
    obtain ⟨-, rfl⟩ := Prod.mk.inj (Option.some.inj hw)
    exact hread.trans hM.symm
  intro x
  have hx : x = r.sharedAllIds M := rfl
  clear_value x
  unfold Rows.sharedAllIds at hx
  dsimp only at hx
  cases hcached : (r.idsSnapshot.bind fun s => if s.1 = r.idsGeneration then some s.2 else none) with
  | some view =>
    rw [hcached] at hx
    subst hx
    obtain ⟨⟨g, v⟩, hs, hg⟩ := Option.bind_eq_some_iff.mp hcached
    split_ifs at hg with heq
    obtain rfl := Option.some.inj hg
    refine ⟨RowMoves.refl h, hcur g v hs heq, Rows.mem_views.mpr (.inr (.inr ?_)), hcur⟩
    rw [hs]
    exact List.mem_singleton_self v
  | none =>
    rw [hcached] at hx
    dsimp only at hx
    cases hrow : r.joinedRow M with
    | some view =>
      rw [hrow] at hx
      subst hx
      obtain ⟨hold, hread⟩ := h.joinedRow_spec held hrow
      exact ⟨h.moves_snapshot (Memory.Frame.refl _ _) (.inl hold), hread,
        Rows.mem_views.mpr (.inr (.inr (List.mem_singleton_self view))), hsnap rfl hread⟩
    | none =>
      rw [hrow] at hx
      subst hx
      have hframe := Memory.Frame.alloc M (r.allIds M) []
      have hsame : r.allIds (M.alloc (r.allIds M)).2 = r.allIds M :=
        h.allIds_frame hframe (fun _ _ => List.not_mem_nil) fun _ _ => List.not_mem_nil
      have hread : (M.alloc (r.allIds M)).2.read ((M.alloc (r.allIds M)).2.whole M.next) =
          r.allIds M := by
        rw [Memory.read_whole, Memory.cells_alloc_self]
      have hwithin : (M.alloc (r.allIds M)).2.Within ((M.alloc (r.allIds M)).2.whole M.next) :=
        Memory.within_whole (Nat.lt_succ_self _)
      exact ⟨h.moves_snapshot hframe (.inr ⟨hwithin, le_rfl⟩), hread,
        Rows.mem_views.mpr (.inr (.inr (List.mem_singleton_self _))), hsnap hsame hread⟩

/-! ### New sessions -/

/-- A session that owns new cells only, and shows what others show. -/
structure Begins (shown : List View) (M M' : Ids) (r : Rows) : Prop where
  frame : M.Frame M' []
  ok : r.Ok M'
  cells : ∀ c ∈ r.cells, M.next ≤ c
  views : ∀ v ∈ r.views, v.cell ∈ shown.map View.cell ∨ M.next ≤ v.cell

theorem Begins.of_moves {shown : List View} (h : Begins shown M M' r) (hm : RowMoves shown M' r M'' r') :
    Begins shown M M'' r' := by
  have hnew {c : ℕ} (hc : M'.next ≤ c) : M.next ≤ c := h.frame.next_le.trans hc
  refine ⟨h.frame.trans hm.frame fun c hc => .inr (h.cells c hc), hm.ok, fun c hc => ?_, fun v hv => ?_⟩
  · rcases hm.cells c hc with hc | hc
    · exact h.cells c hc
    · exact hnew hc
  · rcases hm.views v hv with (hshown | hview) | hc | hc
    · exact .inl hshown
    · obtain ⟨u, hu, hcell⟩ := List.mem_map.mp hview
      rw [← hcell]
      exact h.views u hu
    · exact .inr (h.cells _ hc)
    · exact .inr (hnew hc)

theorem begins_fresh (shown : List View) (M : Ids) (sealedIds : List UInt32) :
    Begins shown M (Rows.fresh M sealedIds).1 (Rows.fresh M sealedIds).2 := by
  have hnodup : [M.next, M.next + 1].Nodup := by simp
  have hcells {c : ℕ} (hc : c ∈ (Rows.fresh M sealedIds).2.cells) : c = M.next ∨ c = M.next + 1 := by
    rcases Rows.mem_cells.mp hc with hc | hc
    · exact .inl hc
    · exact .inr (List.mem_singleton.mp hc)
  have hviews {v : View} (hv : v ∈ (Rows.fresh M sealedIds).2.views) : False := by
    rcases Rows.mem_views.mp hv with hv | hv | hv <;> exact absurd hv List.not_mem_nil
  refine ⟨(Memory.Frame.alloc M sealedIds []).trans (Memory.Frame.alloc _ [] [])
    fun _ hc => absurd hc List.not_mem_nil, ⟨hnodup, fun c hc => ?_, fun v hv => (hviews hv).elim⟩,
    fun c hc => ?_, fun v hv => (hviews hv).elim⟩
  · have hnext : (Rows.fresh M sealedIds).1.next = M.next + 1 + 1 := rfl
    rcases hcells hc with rfl | rfl <;> omega
  · rcases hcells hc with rfl | rfl <;> omega

/-- A session with new cells and views of another one. -/
theorem Rows.Ok.begins (h : r.Ok M) (hframe : M.Frame M' []) (hnodup : r'.cells.Nodup)
    (hcells : ∀ c ∈ r'.cells, M.next ≤ c ∧ c < M'.next) (hviews : ∀ v ∈ r'.views, v ∈ r.views) :
    Begins r.views M M' r' := by
  refine ⟨hframe, ⟨hnodup, fun c hc => (hcells c hc).2, fun v hv => ?_⟩,
    fun c hc => (hcells c hc).1, fun v hv => .inl (List.mem_map_of_mem (hviews v hv))⟩
  have hwithin := (h.apart v (hviews v hv)).1
  refine ⟨hframe.within hwithin List.not_mem_nil, fun hc => ?_⟩
  have := (hcells _ hc).1
  have := hwithin.cell_lt
  omega

/-- The copy of a session owns new cells, shows what the session shows, and has its stream. -/
theorem Rows.Ok.begins_clone (h : r.Ok M) : Begins r.views M (r.clone M).1 (r.clone M).2 ∧
    (r.clone M).2.allIds (r.clone M).1 = r.allIds M ∧
    (r.clone M).2.idsGeneration = r.idsGeneration ∧ (r.clone M).2.idsSnapshot = r.idsSnapshot := by
  have howned : r.owned < M.next := h.lt _ (Rows.mem_cells.mpr (.inl rfl))
  set M₁ := (M.alloc (M.cells r.owned)).2 with hM₁
  have hframe₁ : M.Frame M₁ [] := Memory.Frame.alloc _ _ _
  have hblocks {M' : Ids} (hframe : M.Frame M' []) :
      r.blocks.flatMap M'.read = r.blocks.flatMap M.read :=
    List.flatMap_congr fun v hv =>
      hframe.read_eq (h.apart v (Rows.mem_views.mpr (.inl hv))).1.cell_lt List.not_mem_nil
  have hself : M₁.cells M.next = M.cells r.owned := Memory.cells_alloc_self _ _
  cases htail : r.tail with
  | Shared v =>
    have hclone : r.clone M = (M₁, { r with owned := M.next }) := by
      rw [Rows.clone, htail]
      rfl
    have htapart := (h.tailView [] htail).1
    rw [hclone]
    refine ⟨h.begins hframe₁ ?_ ?_ fun v hv => hv, ?_, rfl, rfl⟩
    · rw [Rows.cells, htail]
      exact List.nodup_singleton _
    · intro c hc
      rw [Rows.cells, htail] at hc
      rw [List.mem_singleton.mp hc]
      exact ⟨le_rfl, Nat.lt_succ_self _⟩
    · rw [Rows.allIds, Rows.allIds, Rows.sealedIds, Rows.sealedIds, hblocks hframe₁, hself, htail]
      congr 1
      exact hframe₁.read_eq htapart.1.cell_lt List.not_mem_nil
  | Owned c =>
    have hc : c < M.next := by
      refine h.lt c (Rows.mem_cells.mpr (.inr ?_))
      rw [htail]
      exact List.mem_singleton_self c
    set M₂ := (M₁.alloc (M₁.cells c)).2 with hM₂
    have hframe₂ : M.Frame M₂ [] :=
      hframe₁.trans (Memory.Frame.alloc _ _ []) fun _ hc => absurd hc List.not_mem_nil
    have hclone : r.clone M = (M₂, { r with owned := M.next, tail := .Owned (M.next + 1) }) := by
      rw [Rows.clone, htail]
      rfl
    have hself₂ : M₂.cells M.next = M.cells r.owned :=
      (Memory.cells_alloc (Nat.lt_succ_self _)).trans hself
    have htail₂ : M₂.cells (M.next + 1) = M.cells c :=
      (Memory.cells_alloc_self M₁ _).trans (Memory.cells_alloc hc)
    rw [hclone]
    refine ⟨h.begins hframe₂ (by simp [Rows.cells, TailRow.cells]) (fun d hd => ?_) fun v hv => ?_,
      ?_, rfl, rfl⟩
    · have hnext : M₂.next = M.next + 1 + 1 := rfl
      dsimp only
      rcases Rows.mem_cells.mp hd with hd | hd
      · have : d = M.next := hd
        omega
      · have : d = M.next + 1 := List.mem_singleton.mp hd
        omega
    · rcases Rows.mem_views.mp hv with hv | hv | hv
      · exact Rows.mem_views.mpr (.inl hv)
      · exact absurd hv List.not_mem_nil
      · exact Rows.mem_views.mpr (.inr (.inr hv))
    · rw [Rows.allIds, Rows.allIds, Rows.sealedIds, Rows.sealedIds, hblocks hframe₂, hself₂, htail]
      exact congrArg _ htail₂

/-! ### All sessions -/

/-- A view that someone holds or a session shows. -/
def RowStore.Known (s : RowStore) (v : View) : Prop :=
  v ∈ s.held ∨ ∃ k r, s.sessions k = some r ∧ v ∈ r.views

/-- No view is on a cell that a session owns, no two sessions own one cell, and the snapshots
are current. -/
structure Separate (s : RowStore) : Prop where
  ok : ∀ k r, s.sessions k = some r → r.Ok s.memory
  within : ∀ v, s.Known v → s.memory.Within v
  apart : ∀ v k r, s.Known v → s.sessions k = some r → v.cell ∉ r.cells
  disjoint : ∀ k k' r r', k ≠ k' → s.sessions k = some r → s.sessions k' = some r' →
    ∀ c ∈ r.cells, c ∉ r'.cells
  current : ∀ k r, s.sessions k = some r → r.Current s.memory

theorem RowStore.sessions_put_self (s : RowStore) (k : ℕ) (x : Ids × Rows) :
    (s.put k x).sessions k = some x.2 := Function.update_self _ _ _

theorem RowStore.sessions_put_of_ne (s : RowStore) (x : Ids × Rows) {j k : ℕ} (h : j ≠ k) :
    (s.put k x).sessions j = s.sessions j := Function.update_of_ne h _ _

namespace Separate

variable {s : RowStore} {k : ℕ}

/-- The session at one handle gets new rows. -/
theorem put (h : Separate s) {owned : List ℕ} (hframe : s.memory.Frame M' owned)
    (howned : ∀ c ∈ owned, ∃ r, s.sessions k = some r ∧ c ∈ r.cells) (hok : r'.Ok M')
    (hcells : ∀ c ∈ r'.cells, c ∈ owned ∨ s.memory.next ≤ c)
    (hviews : ∀ v ∈ r'.views, (∃ u, s.Known u ∧ u.cell = v.cell) ∨ v.cell ∈ owned ∨
      s.memory.next ≤ v.cell) (hcur : r'.Current M') : Separate (s.put k (M', r')) := by
  have hapart {v : View} (hv : s.Known v) : v.cell ∉ owned := fun hc => by
    obtain ⟨r, hr, hmem⟩ := howned _ hc
    exact h.apart v k r hv hr hmem
  have hother {j : ℕ} {r : Rows} (hj : j ≠ k) (hr : s.sessions j = some r) {c : ℕ}
      (hc : c ∈ r.cells) : c ∉ owned := fun hmem => by
    obtain ⟨r₀, hr₀, hmem⟩ := howned _ hmem
    exact h.disjoint j k r r₀ hj hr hr₀ c hc hmem
  have hknown {j : ℕ} {r : Rows} (hr : s.sessions j = some r) {v : View} (hv : v ∈ r.views) :
      s.Known v := .inr ⟨j, r, hr, hv⟩
  -- the cells of the new rows are not those of another session, nor shown before
  have hcell {j : ℕ} {r : Rows} (hj : j ≠ k) (hr : s.sessions j = some r) {c : ℕ}
      (hc : c ∈ r.cells) : c ∉ r'.cells := fun hmem => by
    rcases hcells c hmem with hmem | hnew
    · exact hother hj hr hc hmem
    · have := (h.ok j r hr).lt c hc
      omega
  have hsession {j : ℕ} {r : Rows} (hr : (s.put k (M', r')).sessions j = some r) :
      (j = k ∧ r = r') ∨ (j ≠ k ∧ s.sessions j = some r) := by
    by_cases hj : j = k
    · subst hj
      rw [RowStore.sessions_put_self] at hr
      exact .inl ⟨rfl, (Option.some.inj hr).symm⟩
    · rw [RowStore.sessions_put_of_ne _ _ hj] at hr
      exact .inr ⟨hj, hr⟩
  have hall {v : View} (hv : (s.put k (M', r')).Known v) : s.Known v ∨ v ∈ r'.views := by
    rcases hv with hv | ⟨j, r, hr, hv⟩
    · exact .inl (.inl hv)
    · rcases hsession hr with ⟨-, rfl⟩ | ⟨-, hr⟩
      · exact .inr hv
      · exact .inl (hknown hr hv)
  have hold {v : View} (hv : s.Known v) : M'.Within v :=
    hframe.within (h.within v hv) (hapart hv)
  refine ⟨fun j r hr => ?_, fun v hv => ?_, fun v j r hv hr hc => ?_,
    fun j j' r r₂ hne hr hr₂ c hc hc₂ => ?_, fun j r hr => ?_⟩
  · rcases hsession hr with ⟨-, rfl⟩ | ⟨-, hr⟩
    · exact hok
    · have hrok := h.ok j r hr
      exact ⟨hrok.nodup, fun c hc => (hrok.lt c hc).trans_le hframe.next_le,
        fun v hv => ⟨hold (hknown hr hv), (hrok.apart v hv).2⟩⟩
  · rcases hall hv with hv | hv
    · exact hold hv
    · exact (hok.apart v hv).1
  · rcases hsession hr with ⟨-, rfl⟩ | ⟨hj, hr⟩
    · rcases hall hv with hv | hv
      · rcases hcells _ hc with hc | hc
        · exact hapart hv hc
        · exact absurd (h.within v hv).cell_lt (by omega)
      · exact (hok.apart v hv).2 hc
    · rcases hall hv with hv | hv
      · exact h.apart v j r hv hr hc
      · rcases hviews v hv with ⟨u, hu, hcu⟩ | hmem | hnew
        · exact h.apart u j r hu hr (hcu ▸ hc)
        · exact hother hj hr hc hmem
        · exact absurd ((h.ok j r hr).lt _ hc) (by omega)
  · rcases hsession hr with ⟨hj, heq⟩ | ⟨hj, hrold⟩
    · rcases hsession hr₂ with ⟨hj₂, -⟩ | ⟨hj₂, hrold₂⟩
      · exact hne (hj.trans hj₂.symm)
      · exact hcell hj₂ hrold₂ hc₂ (heq ▸ hc)
    · rcases hsession hr₂ with ⟨-, heq⟩ | ⟨-, hrold₂⟩
      · exact hcell hj hrold hc (heq ▸ hc₂)
      · exact h.disjoint j j' r r₂ hne hrold hrold₂ c hc hc₂
  · rcases hsession hr with ⟨-, rfl⟩ | ⟨hj, hr⟩
    · exact hcur
    · intro g v hs hg
      have hv : v ∈ r.views := Rows.mem_views.mpr (.inr (.inr (by rw [hs]; exact List.mem_singleton_self v)))
      have hread : M'.read v = s.memory.read v :=
        hframe.read_eq (h.within v (hknown hr hv)).cell_lt (hapart (hknown hr hv))
      have hids : r.allIds M' = r.allIds s.memory :=
        (h.ok j r hr).allIds_frame hframe (fun c hc => hother hj hr hc)
          fun u hu => hapart (hknown hr hu)
      exact hread.trans ((h.current j r hr g v hs hg).trans hids.symm)

/-- What is held is not on the cells of a step. -/
theorem held_frame (h : Separate s) {owned : List ℕ} (hframe : s.memory.Frame M' owned)
    (howned : ∀ c ∈ owned, ∃ r, s.sessions k = some r ∧ c ∈ r.cells) {v : View} (hv : v ∈ s.held) :
    M'.read v = s.memory.read v := by
  refine hframe.read_eq (h.within v (.inl hv)).cell_lt fun hc => ?_
  obtain ⟨r, hr, hmem⟩ := howned _ hc
  exact h.apart v k r (.inl hv) hr hmem

/-- Someone holds one more view that is on no cell of a session. -/
theorem hold (h : Separate s) {v : View} (hv : s.memory.Within v)
    (hapart : ∀ j r, s.sessions j = some r → v.cell ∉ r.cells) : Separate (s.hold v) := by
  have hall {u : View} (hu : (s.hold v).Known u) : s.Known u ∨ u = v := by
    rcases hu with hu | hu
    · rcases List.mem_append.mp hu with hu | hu
      · exact .inl (.inl hu)
      · exact .inr (List.mem_singleton.mp hu)
    · exact .inl (.inr hu)
  refine ⟨h.ok, fun u hu => ?_, fun u j r hu hr => ?_, h.disjoint, h.current⟩
  · rcases hall hu with hu | rfl
    · exact h.within u hu
    · exact hv
  · rcases hall hu with hu | rfl
    · exact h.apart u j r hu hr
    · exact hapart j r hr

/-- Memory grows. -/
theorem grow (h : Separate s) (hframe : s.memory.Frame M' []) : Separate { s with memory := M' } := by
  have hknown {v : View} (hv : s.Known v) : M'.Within v := hframe.within (h.within v hv) List.not_mem_nil
  refine ⟨fun j r hr => ?_, fun v hv => hknown hv, h.apart, h.disjoint, fun j r hr g v hs hg => ?_⟩
  · have hok := h.ok j r hr
    exact ⟨hok.nodup, fun c hc => (hok.lt c hc).trans_le hframe.next_le,
      fun v hv => ⟨hknown (.inr ⟨j, r, hr, hv⟩), (hok.apart v hv).2⟩⟩
  · have hv : v ∈ r.views :=
      Rows.mem_views.mpr (.inr (.inr (by rw [hs]; exact List.mem_singleton_self v)))
    have hread : M'.read v = s.memory.read v :=
      hframe.read_eq (h.within v (.inr ⟨j, r, hr, hv⟩)).cell_lt List.not_mem_nil
    have hids : r.allIds M' = r.allIds s.memory :=
      (h.ok j r hr).allIds_frame hframe (fun _ _ => List.not_mem_nil) fun _ _ => List.not_mem_nil
    exact hread.trans ((h.current j r hr g v hs hg).trans hids.symm)

/-- A step on a session is a step of the store. -/
theorem put_moves (h : Separate s) {r : Rows} (hr : s.sessions k = some r)
    (hm : RowMoves s.held s.memory r M' r') (hcur : r'.Current M') : Separate (s.put k (M', r')) := by
  refine h.put hm.frame (fun c hc => ⟨r, hr, hc⟩) hm.ok hm.cells (fun v hv => ?_) hcur
  rcases hm.views v hv with (hheld | hview) | hcell | hnew
  · obtain ⟨u, hu, hcell⟩ := List.mem_map.mp hheld
    exact .inl ⟨u, .inl hu, hcell⟩
  · obtain ⟨u, hu, hcell⟩ := List.mem_map.mp hview
    exact .inl ⟨u, .inr ⟨k, r, hr, hu⟩, hcell⟩
  · exact .inr (.inl hcell)
  · exact .inr (.inr hnew)

/-- A new session is a step of the store. -/
theorem put_begins (h : Separate s) {shown : List View} (hshown : ∀ v ∈ shown, s.Known v)
    (hb : Begins shown s.memory M' r') (hcur : r'.Current M') : Separate (s.put k (M', r')) := by
  refine h.put hb.frame (fun c hc => absurd hc List.not_mem_nil) hb.ok (fun c hc => .inr (hb.cells c hc))
    (fun v hv => ?_) hcur
  rcases hb.views v hv with hview | hnew
  · obtain ⟨u, hu, hcell⟩ := List.mem_map.mp hview
    exact .inl ⟨u, hshown u hu, hcell⟩
  · exact .inr (.inr hnew)

theorem heldApart (h : Separate s) {r : Rows} (hr : s.sessions k = some r) :
    HeldApart s.held s.memory r :=
  fun v hv => ⟨h.within v (.inl hv), h.apart v k r (.inl hv) hr⟩

end Separate

theorem Rows.snapshot_pushShared (r : Rows) (M : Ids) (view : View) :
    (r.pushShared M view).2.idsSnapshot = r.idsSnapshot := by
  unfold Rows.pushShared
  split_ifs <;> rfl

/-- An edit leaves the snapshot alone. -/
theorem snapshot_edit (held : List View) (e : Edit) (M : Ids) (r : Rows) :
    (e.run held (M, r)).2.idsSnapshot = r.idsSnapshot := by
  cases e with
  | splice cut ids =>
    simp only [Edit.run, Rows.splice, Rows.toMut]
    cases r.tail <;> rfl
  | fill ids => rfl
  | fillShared n =>
    simp only [Edit.run]
    cases held[n]? <;> rfl
  | sealTail cut =>
    simp only [Edit.run, Rows.sealTail]
    split_ifs
    · rfl
    · cases r.tail with
      | Owned c => rfl
      | Shared view => exact Rows.snapshot_pushShared r M _

theorem snapshot_runEdits (held : List View) (edits : List Edit) (M : Ids) (r : Rows) :
    (runEdits held edits (M, r)).2.idsSnapshot = r.idsSnapshot := by
  induction edits generalizing M r with
  | nil => rfl
  | cons e edits ih => exact (ih _ _).trans (snapshot_edit held e M r)

theorem Rows.Current.of_none (h : r.idsSnapshot = none) : r.Current M := by
  intro g v hs
  rw [h] at hs
  cases hs

/-! ### Runs -/

variable {s : RowStore}

/-- What a step leaves of what is held: it is still held, and shows what it showed. -/
structure Keeps (s s' : RowStore) : Prop where
  held : s.held <+: s'.held
  read_eq : ∀ v ∈ s.held, s'.memory.read v = s.memory.read v

theorem Keeps.refl (s : RowStore) : Keeps s s := ⟨List.prefix_rfl, fun _ _ => rfl⟩

theorem Keeps.trans {s s' s'' : RowStore} (h : Keeps s s') (h' : Keeps s' s'') : Keeps s s'' :=
  ⟨h.held.trans h'.held, fun v hv => (h'.read_eq v (h.held.subset hv)).trans (h.read_eq v hv)⟩

theorem Keeps.hold (s : RowStore) (v : View) : Keeps s (s.hold v) :=
  ⟨List.prefix_append _ _, fun _ _ => rfl⟩

/-- What `shared_all_ids` does to the store of the rows. -/
theorem Separate.sharedAllIds (h : Separate s) {k : ℕ} (hr : s.sessions k = some r) :
    let x := r.sharedAllIds s.memory
    Separate ((s.put k x.2).hold x.1) ∧ Keeps s ((s.put k x.2).hold x.1) ∧
      x.2.1.read x.1 = r.allIds s.memory := by
  intro x
  obtain ⟨hm, hread, hview, hcur⟩ := (h.ok k r hr).sharedAllIds_spec (h.current k r hr) s.held
  have hput : Separate (s.put k x.2) := h.put_moves hr hm hcur
  have hkeeps : Keeps s (s.put k x.2) :=
    ⟨List.prefix_rfl, fun v hv => h.held_frame hm.frame (fun c hc => ⟨r, hr, hc⟩) hv⟩
  have hknown : (s.put k x.2).Known x.1 := .inr ⟨k, x.2.2, s.sessions_put_self k x.2, hview⟩
  exact ⟨hput.hold (hput.within _ hknown) fun j r' hr' => hput.apart _ j r' hknown hr',
    hkeeps.trans (Keeps.hold _ _), hread⟩

/-- Every step keeps the rows separate, and what is held shows what it showed. -/
theorem separate_after (h : Separate s) (act : RowAct) :
    Separate (s.after act) ∧ Keeps s (s.after act) := by
  cases act with
  | fromVec ids =>
    have hframe := Memory.Frame.alloc s.memory ids []
    have hgrow := h.grow hframe
    refine ⟨hgrow.hold (Memory.within_whole (Nat.lt_succ_self _)) fun j r hr hc => ?_, ?_⟩
    · exact absurd ((h.ok j r hr).lt _ hc) (lt_irrefl _)
    · refine ⟨List.prefix_append _ _, fun v hv => ?_⟩
      exact hframe.read_eq (h.within v (.inl hv)).cell_lt List.not_mem_nil
  | slice n lo hi =>
    simp only [RowStore.after]
    cases hn : s.held[n]? with
    | none => exact ⟨h, Keeps.refl s⟩
    | some view =>
      have hknown : s.Known view := .inl (List.mem_of_getElem? hn)
      dsimp only
      split_ifs with hbounds
      · refine ⟨h.hold ((h.within view hknown).slice hbounds.1 hbounds.2) fun j r hr => ?_, Keeps.hold _ _⟩
        exact h.apart view j r hknown hr
      · exact ⟨h, Keeps.refl s⟩
  | keepTail handle =>
    simp only [RowStore.after]
    cases hr : s.sessions handle with
    | none => exact ⟨h, Keeps.refl s⟩
    | some r =>
      rw [Option.map_some]
      cases htail : r.tail with
      | Owned c => exact ⟨h, Keeps.refl s⟩
      | Shared view =>
        have hknown : s.Known view := by
          refine .inr ⟨handle, r, hr, Rows.mem_views.mpr (.inr (.inl ?_))⟩
          rw [htail]
          exact List.mem_singleton_self view
        exact ⟨h.hold (h.within view hknown) fun j r' hr' => h.apart view j r' hknown hr', Keeps.hold _ _⟩
  | create handle sealedIds edits =>
    simp only [RowStore.after]
    cases hr : s.sessions handle with
    | some r => exact ⟨h, Keeps.refl s⟩
    | none =>
      have hfresh := begins_fresh s.held s.memory sealedIds
      have hheld : HeldApart s.held (Rows.fresh s.memory sealedIds).1
          (Rows.fresh s.memory sealedIds).2 := fun v hv => by
        have hwithin := h.within v (.inl hv)
        refine ⟨hfresh.frame.within hwithin List.not_mem_nil, fun hc => ?_⟩
        have := hfresh.cells _ hc
        have := hwithin.cell_lt
        omega
      have hbegins := hfresh.of_moves (moves_edits edits hfresh.ok hheld)
      refine ⟨h.put_begins (fun v hv => .inl hv) hbegins (.of_none (snapshot_runEdits _ _ _ _)), ?_⟩
      exact ⟨List.prefix_rfl,
        fun v hv => hbegins.frame.read_eq (h.within v (.inl hv)).cell_lt List.not_mem_nil⟩
  | append handle edits =>
    simp only [RowStore.after]
    cases hr : s.sessions handle with
    | none => exact ⟨h, Keeps.refl s⟩
    | some r =>
      have hbump : RowMoves s.held s.memory r s.memory r.bumpIdsGeneration :=
        (h.ok handle r hr).moves_bump
      have hmoves := hbump.trans (moves_edits edits hbump.ok (hbump.heldApart (h.heldApart hr)))
      refine ⟨h.put_moves hr hmoves (.of_none (snapshot_runEdits _ _ _ _)), List.prefix_rfl, fun v hv => ?_⟩
      exact h.held_frame hmoves.frame (fun c hc => ⟨r, hr, hc⟩) hv
  | fork handle copy =>
    simp only [RowStore.after]
    cases hr : s.sessions handle with
    | none => exact ⟨h, Keeps.refl s⟩
    | some r =>
      cases hcopy : s.sessions copy with
      | some r' => exact ⟨h, Keeps.refl s⟩
      | none =>
        obtain ⟨hbegins, hids, hgen, hsnap⟩ := (h.ok handle r hr).begins_clone
        have hread {v : View} (hv : s.Known v) : (r.clone s.memory).1.read v = s.memory.read v :=
          hbegins.frame.read_eq (h.within v hv).cell_lt List.not_mem_nil
        have hview {v : View} (hv : v ∈ r.views) : s.Known v := .inr ⟨handle, r, hr, hv⟩
        have hcur : (r.clone s.memory).2.Current (r.clone s.memory).1 := by
          intro g v hs hg
          rw [hsnap] at hs
          rw [hgen] at hg
          have hv : v ∈ r.views :=
            Rows.mem_views.mpr (.inr (.inr (by rw [hs]; exact List.mem_singleton_self v)))
          rw [hread (hview hv), hids]
          exact h.current handle r hr g v hs hg
        exact ⟨h.put_begins (fun v hv => hview hv) hbegins hcur, List.prefix_rfl,
          fun v hv => hread (.inl hv)⟩
  | evict handle =>
    have hsessions : (s.after (.evict handle)).sessions =
        Function.update s.sessions handle none := rfl
    have hold {j : ℕ} {r : Rows} (hr : (s.after (.evict handle)).sessions j = some r) :
        s.sessions j = some r := by
      rw [hsessions] at hr
      by_cases hj : j = handle
      · rw [hj, Function.update_self] at hr
        cases hr
      · rwa [Function.update_of_ne hj] at hr
    have hknown {v : View} (hv : (s.after (.evict handle)).Known v) : s.Known v := by
      rcases hv with hv | ⟨j, r, hr, hv⟩
      · exact .inl hv
      · exact .inr ⟨j, r, hold hr, hv⟩
    refine ⟨⟨fun j r hr => h.ok j r (hold hr), fun v hv => h.within v (hknown hv),
      fun v j r hv hr => h.apart v j r (hknown hv) (hold hr),
      fun j j' r r' hne hr hr' => h.disjoint j j' r r' hne (hold hr) (hold hr'),
      fun j r hr => h.current j r (hold hr)⟩, List.prefix_rfl, fun v _ => rfl⟩
  | sharedAllIds handle =>
    simp only [RowStore.after]
    cases hr : s.sessions handle with
    | none => exact ⟨h, Keeps.refl s⟩
    | some r =>
      obtain ⟨hsep, hkeeps, -⟩ := h.sharedAllIds hr
      exact ⟨hsep, hkeeps⟩

theorem separate_afterAll (h : Separate s) (acts : List RowAct) :
    Separate (s.afterAll acts) ∧ Keeps s (s.afterAll acts) := by
  induction acts generalizing s with
  | nil => exact ⟨h, Keeps.refl s⟩
  | cons act acts ih =>
    obtain ⟨hsep, hkeeps⟩ := separate_after h act
    obtain ⟨hsep', hkeeps'⟩ := ih hsep
    exact ⟨hsep', hkeeps.trans hkeeps'⟩

theorem separate_new : Separate RowStore.new := by
  have hknown {v : View} (hv : RowStore.new.Known v) : False := by
    rcases hv with hv | ⟨j, r, hr, -⟩
    · exact absurd hv List.not_mem_nil
    · cases hr
  exact ⟨fun _ _ hr => (by cases hr), fun _ hv => (hknown hv).elim, fun _ _ _ hv => (hknown hv).elim,
    fun _ _ _ _ _ hr => (by cases hr), fun _ _ hr => (by cases hr)⟩

/-! ### Snapshots -/

section

variable {S : Store} {h : ℕ} {sess : Session}

theorem run_session (hs : S.sessions.lookup h = some sess) :
    (Store.session h).run S.tick = .ok sess S.tick := by
  have hlookup : S.tick.sessions.lookup h = some sess := hs
  unfold Store.session
  simp [EStateM.run_bind, EStateM.run_get, hlookup]

theorem run_readAllIds (hs : S.sessions.lookup h = some sess) :
    (Store.readAllIds h).run S = .ok sess.allIds (S.tick.touched h sess) := by
  have htick : (modify Store.tick : Fallible Store StoreError Unit).run S = .ok () S.tick := rfl
  unfold Store.readAllIds
  rw [EStateM.run_bind, htick]
  dsimp only
  rw [EStateM.run_bind, run_session hs]
  rfl

theorem run_sharedAllIds (hs : S.sessions.lookup h = some sess) :
    (Store.sharedAllIds h).run S = .ok sess.sharedRow (S.tick.touched h
      { sess with idsSnapshot := some (sess.idsGeneration, sess.sharedRow) }) := by
  have htick : (modify Store.tick : Fallible Store StoreError Unit).run S = .ok () S.tick := rfl
  unfold Store.sharedAllIds
  rw [EStateM.run_bind, htick]
  dsimp only
  rw [EStateM.run_bind, run_session hs]
  rfl

end

/-- Snapshots are current and immutable. In every store that a run reaches, `shared_all_ids` and
`all_ids` of a live session give the same ids. In memory, after every run, a snapshot shows the
stream of its session, and it is held and shows the same ids after every later run. -/
theorem snapshots_current {cfg : StoreConfig} {S₀ : Store} (hnew : Store.new cfg = .ok S₀)
    (calls : List Call) (acts : List RowAct) :
    (∀ h s, (S₀.afterAll calls).sessions.lookup h = some s → ∃ row S₁ S₂,
      (Store.sharedAllIds h).run (S₀.afterAll calls) = .ok row S₁ ∧
        (Store.readAllIds h).run (S₀.afterAll calls) = .ok row.asSlice S₂) ∧
    ∀ k r, (RowStore.new.afterAll acts).sessions k = some r → ∃ row,
      ((RowStore.new.afterAll acts).after (.sharedAllIds k)).held =
          (RowStore.new.afterAll acts).held ++ [row] ∧
        ∀ later, row ∈ (((RowStore.new.afterAll acts).after (.sharedAllIds k)).afterAll later).held ∧
          (((RowStore.new.afterAll acts).after (.sharedAllIds k)).afterAll later).memory.read row =
            r.allIds (RowStore.new.afterAll acts).memory := by
  constructor
  · intro h s hs
    have hrow := ((tableOk_afterAll hnew calls).1.rows h s hs).asSlice_sharedRow
    exact ⟨s.sharedRow, _, _, run_sharedAllIds hs, by rw [hrow]; exact run_readAllIds hs⟩
  · intro k r hr
    have hsep := (separate_afterAll separate_new acts).1
    generalize RowStore.new.afterAll acts = s at hr hsep ⊢
    obtain ⟨hsep', -, hread⟩ := hsep.sharedAllIds hr
    have hafter : s.after (.sharedAllIds k) =
        (s.put k (r.sharedAllIds s.memory).2).hold (r.sharedAllIds s.memory).1 := by
      simp only [RowStore.after, hr]
    have hheld : ((s.put k (r.sharedAllIds s.memory).2).hold (r.sharedAllIds s.memory).1).held =
        s.held ++ [(r.sharedAllIds s.memory).1] := rfl
    rw [hafter]
    refine ⟨(r.sharedAllIds s.memory).1, hheld, fun later => ?_⟩
    obtain ⟨-, hkeeps⟩ := separate_afterAll hsep' later
    have hmem : (r.sharedAllIds s.memory).1 ∈
        ((s.put k (r.sharedAllIds s.memory).2).hold (r.sharedAllIds s.memory).1).held := by
      rw [hheld]
      exact List.mem_append_right _ (List.mem_singleton_self _)
    exact ⟨hkeeps.held.subset hmem, (hkeeps.read_eq _ hmem).trans hread⟩

/-- A snapshot of a session that is sealed, forked and spliced afterwards. -/
theorem snapshots_current_splice : ∃ S₀ row S₁ S₂, Store.new smallConfig = .ok S₀ ∧
    (Store.sharedAllIds 1).run (S₀.afterAll [.registerFingerprint ZERO_HASH 0,
      .put 0 ['a'] unitEngine]) = .ok row S₁ ∧
    (Store.readAllIds 1).run (S₀.afterAll [.registerFingerprint ZERO_HASH 0,
      .put 0 ['a'] unitEngine]) = .ok row.asSlice S₂ ∧
    ∃ view ∈ ((RowStore.new.afterAll [.fromVec [5, 6, 7], .create 1 [] [.fillShared 0]]).afterAll
        [.sharedAllIds 1, .append 1 [.sealTail 1, .splice 1 [8]], .fork 1 2]).held,
      ((RowStore.new.afterAll [.fromVec [5, 6, 7], .create 1 [] [.fillShared 0]]).afterAll
        [.sharedAllIds 1, .append 1 [.sealTail 1, .splice 1 [8]], .fork 1 2]).memory.read view =
          [5, 6, 7] := by
  obtain ⟨S₀, hnew⟩ : ∃ S₀, Store.new smallConfig = .ok S₀ := ⟨_, rfl⟩
  have hlive : ((S₀.afterAll [.registerFingerprint ZERO_HASH 0,
      .put 0 ['a'] unitEngine]).sessions.lookup 1).isSome = true := by
    cases hnew
    decide +kernel
  obtain ⟨s, hs⟩ := Option.isSome_iff_exists.mp hlive
  obtain ⟨hcurrent, himmutable⟩ := snapshots_current hnew [.registerFingerprint ZERO_HASH 0,
    .put 0 ['a'] unitEngine] [.fromVec [5, 6, 7], .create 1 [] [.fillShared 0]]
  obtain ⟨row, S₁, S₂, hrow, hids⟩ := hcurrent 1 s hs
  obtain ⟨view, -, hlater⟩ := himmutable 1 _ rfl
  obtain ⟨hmem, hread⟩ := hlater [.append 1 [.sealTail 1, .splice 1 [8]], .fork 1 2]
  exact ⟨S₀, row, S₁, S₂, hnew, hrow, hids, view, hmem, hread⟩

end Toktier.StoreCore
