import Mathlib.Data.List.Basic
import Mathlib.Logic.Function.Basic
import Mathlib.Order.Nat

/-!
# Rows in memory

Memory is a table of rows. A program allocates rows, overwrites the rows it owns, and shows
rows to others as views: ranges of a cell. A program that overwrites no cell with a view on it
leaves every view as it was, and that is said by a frame: what a step leaves alone.

## Main definitions

* `Memory`, `alloc`, `write`: cells that hold rows.
* `View`, `Memory.read`: a range of a cell, and what it shows.
* `Memory.Frame`: a step that writes the given cells, and new ones.

## Main results

* `Frame.trans`: steps compose.
* `Frame.read_eq`: a view on another cell shows what it showed.
-/
namespace Toktier.Lib

variable {α : Type}

/-- The cells below `next` are allocated. -/
structure Memory (α : Type) where
  cells : ℕ → List α
  next : ℕ

/-- A range of a cell. -/
structure View where
  cell : ℕ
  start : ℕ
  stop : ℕ
  deriving DecidableEq

/-- A sub-range; the bounds are relative to the view. -/
def View.slice (v : View) (lo hi : ℕ) : View := ⟨v.cell, v.start + lo, v.start + hi⟩

/-- One range of two that touch. -/
def View.joinAdjacent (v w : View) : Option View :=
  if v.cell = w.cell ∧ v.stop = w.start then some ⟨v.cell, v.start, w.stop⟩ else none

namespace Memory

variable {M M' M'' : Memory α} {owned owned' : List ℕ} {c : ℕ} {row : List α} {v w u : View}

/-- A new cell. -/
def alloc (M : Memory α) (row : List α) : ℕ × Memory α :=
  (M.next, ⟨Function.update M.cells M.next row, M.next + 1⟩)

/-- Overwrite a cell. -/
def write (M : Memory α) (c : ℕ) (row : List α) : Memory α :=
  { M with cells := Function.update M.cells c row }

/-- What a view shows. -/
def read (M : Memory α) (v : View) : List α := ((M.cells v.cell).take v.stop).drop v.start

/-- The view is a range of an allocated cell. -/
structure Within (M : Memory α) (v : View) : Prop where
  cell_lt : v.cell < M.next
  start_le : v.start ≤ v.stop
  stop_le : v.stop ≤ (M.cells v.cell).length

/-- The view of a whole row. -/
def whole (M : Memory α) (c : ℕ) : View := ⟨c, 0, (M.cells c).length⟩

@[simp] theorem alloc_fst (M : Memory α) (row : List α) : (M.alloc row).1 = M.next := rfl

@[simp] theorem next_alloc (M : Memory α) (row : List α) : (M.alloc row).2.next = M.next + 1 := rfl

@[simp] theorem next_write (M : Memory α) (c : ℕ) (row : List α) : (M.write c row).next = M.next :=
  rfl

@[simp] theorem cells_alloc_self (M : Memory α) (row : List α) :
    (M.alloc row).2.cells M.next = row := Function.update_self _ _ _

theorem cells_alloc (h : c < M.next) : (M.alloc row).2.cells c = M.cells c :=
  Function.update_of_ne (by omega) _ _

@[simp] theorem cells_write_self (M : Memory α) (c : ℕ) (row : List α) :
    (M.write c row).cells c = row := Function.update_self _ _ _

theorem cells_write_of_ne {d : ℕ} (h : d ≠ c) : (M.write c row).cells d = M.cells d :=
  Function.update_of_ne h _ _

@[simp] theorem read_whole (M : Memory α) (c : ℕ) : M.read (M.whole c) = M.cells c := by
  simp [read, whole]

theorem read_congr (h : M'.cells v.cell = M.cells v.cell) : M'.read v = M.read v := by
  rw [read, read, h]

theorem length_read (h : M.Within v) : (M.read v).length = v.stop - v.start := by
  have := h.stop_le
  rw [read, List.length_drop, List.length_take]
  omega

theorem Within.slice {lo hi : ℕ} (h : M.Within v) (hlo : lo ≤ hi) (hhi : v.start + hi ≤ v.stop) :
    M.Within (v.slice lo hi) := by
  have := h.stop_le
  exact ⟨h.cell_lt, Nat.add_le_add_left hlo _, hhi.trans h.stop_le⟩

theorem Within.joinAdjacent (hv : M.Within v) (hw : M.Within w) (h : v.joinAdjacent w = some u) :
    M.Within u ∧ u.cell = w.cell := by
  rw [View.joinAdjacent] at h
  split_ifs at h with hadj
  obtain rfl := Option.some.inj h
  have := hv.start_le
  have := hw.start_le
  refine ⟨⟨hv.cell_lt, by dsimp only; omega, ?_⟩, hadj.1⟩
  dsimp only
  rw [hadj.1]
  exact hw.stop_le

theorem within_whole {c : ℕ} (h : c < M.next) : M.Within (M.whole c) := ⟨h, Nat.zero_le _, le_rfl⟩

theorem read_joinAdjacent (hv : M.Within v) (hw : M.Within w) (h : v.joinAdjacent w = some u) :
    M.read u = M.read v ++ M.read w := by
  have := hv.start_le
  have := hv.stop_le
  have := hw.start_le
  rw [View.joinAdjacent] at h
  split_ifs at h with hadj
  obtain rfl := Option.some.inj h
  obtain ⟨hcell, hstop⟩ := hadj
  rw [read, read, read, ← hcell, ← hstop]
  dsimp only
  rw [← List.drop_append_of_le_length (by rw [List.length_take]; omega)]
  congr 1
  have htake : (M.cells v.cell).take v.stop = ((M.cells v.cell).take w.stop).take v.stop := by
    rw [List.take_take, Nat.min_eq_left (by omega)]
  rw [htake, List.take_append_drop]

/-- A step that writes the cells of the list, and cells that it allocates. -/
structure Frame (M M' : Memory α) (owned : List ℕ) : Prop where
  next_le : M.next ≤ M'.next
  cells_eq : ∀ c < M.next, c ∉ owned → M'.cells c = M.cells c

namespace Frame

theorem refl (M : Memory α) (owned : List ℕ) : Frame M M owned := ⟨le_rfl, fun _ _ _ => rfl⟩

/-- The second step writes what the first one may write, or has allocated. -/
theorem trans (h : Frame M M' owned) (h' : Frame M' M'' owned')
    (hsub : ∀ c ∈ owned', c ∈ owned ∨ M.next ≤ c) : Frame M M'' owned where
  next_le := h.next_le.trans h'.next_le
  cells_eq c hc hown := by
    have hown' : c ∉ owned' := fun hmem => by
      rcases hsub c hmem with hin | hnew
      · exact hown hin
      · omega
    rw [h'.cells_eq c (hc.trans_le h.next_le) hown', h.cells_eq c hc hown]

theorem alloc (M : Memory α) (row : List α) (owned : List ℕ) : Frame M (M.alloc row).2 owned :=
  ⟨Nat.le_succ _, fun _ hc _ => cells_alloc hc⟩

theorem write (hc : c ∈ owned) : Frame M (M.write c row) owned :=
  ⟨le_rfl, fun _ _ hd => cells_write_of_ne fun h => hd (h ▸ hc)⟩

/-- A view on a cell that is not written shows what it showed. -/
theorem read_eq (h : Frame M M' owned) (hlt : v.cell < M.next) (hown : v.cell ∉ owned) :
    M'.read v = M.read v := read_congr (h.cells_eq _ hlt hown)

theorem within (h : Frame M M' owned) (hv : M.Within v) (hown : v.cell ∉ owned) : M'.Within v :=
  ⟨hv.cell_lt.trans_le h.next_le, hv.start_le, by rw [h.cells_eq _ hv.cell_lt hown]; exact hv.stop_le⟩

end Frame

end Memory

end Toktier.Lib
