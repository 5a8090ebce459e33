import Toktier.Bpe.Exact

/-!
# The memo table under interleaved calls

The pieces of a call look the memo table up, merge when they miss, and insert what they have
got, each on its own; the probes and the insertions of different pieces, and of different calls,
come in any order. A probe reads one slot and an insertion writes one slot at once. A slot is
never written again, so whatever the order, the collisions of the hash and the slots that were
taken before, every slot keeps the ids that merging its bytes gives.

## Main definitions

* `PieceThread`, `MemoWorld.step`: one piece on its way through the kernels.
* `mergePiece`: the routine that a piece of that length takes, without a memo table.
* `MemoWorld.Right`: what holds between any two steps.

## Main results

* `memo_hit_exact`: what the table and the pieces hold after any run.
-/
namespace Toktier.Bpe

variable {D : Tables} {mmask shortMax k : ℕ} {memo : Memo} {piece : List UInt8} {ids : List ℕ}

/-- A piece on its way through the kernels of a call. -/
inductive PieceThread
  | idle
  | probing (piece : List UInt8) (slots : List ℕ)
  | merging (piece : List UInt8)
  | found (piece : List UInt8) (ids : List ℕ)
  | merged (piece : List UInt8) (ids : List ℕ)
  | inserting (piece : List UInt8) (ids : List ℕ) (slots : List ℕ)
  deriving DecidableEq

/-- The memo table and the pieces under way. -/
structure MemoWorld where
  memo : Memo
  threads : ℕ → PieceThread

/-- An empty table, and no piece yet. -/
def MemoWorld.init : MemoWorld := ⟨fun _ => none, fun _ => .idle⟩

/-- The merge of a piece, in the routine that its length takes. -/
def mergePiece (D : Tables) (shortMax k : ℕ) (piece : List UInt8) : List ℕ :=
  if piece.length ≤ shortMax then kBpeThread D (fun _ => none) 0 piece
  else if piece.length ≤ 128 then bpeWarpOne D piece
  else kBpeLong D k piece

/-- The slots that a new piece probes: only the thread routine reads the table, and only for a
piece that could be in it. -/
def firstSlots (mmask shortMax : ℕ) (piece : List UInt8) : List ℕ :=
  if piece.length ≤ shortMax ∧ piece.length ≤ memoLen then memoSlots mmask (memoHash piece) else []

/-- `k_memo_insert` begins with a piece: too long or without ids, it is left out. -/
def beginInsert (mmask : ℕ) (piece : List UInt8) (ids : List ℕ) : PieceThread :=
  if piece.length = 0 ∨ piece.length > memoLen then .idle
  else if ids.length = 0 ∨ ids.length > memoIds then .idle
  else .inserting piece ids (memoSlots mmask (memoHash piece))

/-- One atomic step of a piece: one probe, one merge, or one claim of a slot. -/
def PieceThread.step (D : Tables) (mmask shortMax k : ℕ) (memo : Memo) :
    PieceThread → PieceThread × Memo
  | .idle => (.idle, memo)
  | .probing piece [] => (.merging piece, memo)
  | .probing piece (s :: slots) =>
    match memo s with
    | none => (.merging piece, memo)
    | some e =>
      if e.key ≠ memoHash piece then (.probing piece slots, memo)
      else if e.bytes ≠ piece then (.probing piece slots, memo)
      else (.found piece e.ids, memo)
  | .merging piece => (.merged piece (mergePiece D shortMax k piece), memo)
  | .found piece ids => (beginInsert mmask piece ids, memo)
  | .merged piece ids => (beginInsert mmask piece ids, memo)
  | .inserting _ _ [] => (.idle, memo)
  | .inserting piece ids (s :: slots) =>
    match memo s with
    | none => (.idle, Function.update memo s (some ⟨memoHash piece, piece, ids⟩))
    | some e => if e.key = memoHash piece then (.idle, memo) else (.inserting piece ids slots, memo)

/-- What can come next: a call hands a piece to an idle thread, or a thread goes on. -/
inductive MemoEvent
  | call (t : ℕ) (piece : List UInt8)
  | step (t : ℕ)

def MemoWorld.next (D : Tables) (mmask shortMax k : ℕ) (w : MemoWorld) : MemoEvent → MemoWorld
  | .call t piece =>
    match w.threads t with
    | .idle => { w with
        threads := Function.update w.threads t (.probing piece (firstSlots mmask shortMax piece)) }
    | _ => w
  | .step t =>
    let (thread, memo) := (w.threads t).step D mmask shortMax k w.memo
    ⟨memo, Function.update w.threads t thread⟩

/-- The world after a run of events in any order. -/
def runMemo (D : Tables) (mmask shortMax k : ℕ) (events : List MemoEvent) : MemoWorld :=
  events.foldl (MemoWorld.next D mmask shortMax k) .init

/-! ### What every step keeps -/

theorem Memo.Right.empty (D : Tables) : Memo.Right D fun _ => none := fun _ _ he => (nomatch he)

theorem textbook_mergePiece (D : Tables) (shortMax k : ℕ) (piece : List UInt8) :
    Textbook D piece (mergePiece D shortMax k piece) := by
  unfold mergePiece
  split_ifs with hshort hwarp
  · exact textbook_kBpeThread (.empty D) 0 piece
  · exact textbook_bpeWarpOne D hwarp
  · exact textbook_kBpeLong D k piece

/-- A slot that its fixed fields can hold: the bytes and the ids within their limits, under the
hash of the bytes. -/
def MemoSlot.Fits (e : MemoSlot) : Prop :=
  e.key = memoHash e.bytes ∧ 0 < e.bytes.length ∧ e.bytes.length ≤ memoLen ∧ 0 < e.ids.length ∧
    e.ids.length ≤ memoIds

/-- The ids that a piece has got are those of its merge; what it inserts fits a slot. -/
def PieceThread.Right (D : Tables) : PieceThread → Prop
  | .idle => True
  | .probing _ _ => True
  | .merging _ => True
  | .found piece ids => Textbook D piece ids
  | .merged piece ids => Textbook D piece ids
  | .inserting piece ids _ => Textbook D piece ids ∧ MemoSlot.Fits ⟨memoHash piece, piece, ids⟩

/-- Every slot and every piece is right. -/
structure MemoWorld.Right (D : Tables) (w : MemoWorld) : Prop where
  memo : Memo.Right D w.memo
  fits : ∀ s e, w.memo s = some e → e.Fits
  threads : ∀ t, (w.threads t).Right D

theorem right_beginInsert (h : Textbook D piece ids) (mmask : ℕ) :
    (beginInsert mmask piece ids).Right D := by
  unfold beginInsert
  split_ifs with hbytes hids
  · trivial
  · trivial
  · rw [not_or, Nat.not_lt] at hbytes hids
    exact ⟨h, rfl, Nat.pos_of_ne_zero hbytes.1, hbytes.2, Nat.pos_of_ne_zero hids.1, hids.2⟩

/-- A step keeps the table right and leaves its piece right. -/
theorem right_step (mmask shortMax k : ℕ) {th : PieceThread} (hmemo : Memo.Right D memo)
    (hfits : ∀ s e, memo s = some e → e.Fits) (hth : th.Right D) :
    (th.step D mmask shortMax k memo).1.Right D ∧
      Memo.Right D (th.step D mmask shortMax k memo).2 ∧
      ∀ s e, (th.step D mmask shortMax k memo).2 s = some e → e.Fits := by
  cases th with
  | idle => exact ⟨trivial, hmemo, hfits⟩
  | probing piece slots =>
    cases slots with
    | nil => exact ⟨trivial, hmemo, hfits⟩
    | cons s slots =>
      rw [PieceThread.step]
      cases he : memo s with
      | none => exact ⟨trivial, hmemo, hfits⟩
      | some e =>
        dsimp only
        split_ifs with hkey hbytes
        · exact ⟨trivial, hmemo, hfits⟩
        · exact ⟨trivial, hmemo, hfits⟩
        · rw [ne_eq, not_not] at hbytes
          exact ⟨hbytes ▸ hmemo s e he, hmemo, hfits⟩
  | merging piece => exact ⟨textbook_mergePiece D shortMax k piece, hmemo, hfits⟩
  | found piece ids => exact ⟨right_beginInsert hth mmask, hmemo, hfits⟩
  | merged piece ids => exact ⟨right_beginInsert hth mmask, hmemo, hfits⟩
  | inserting piece ids slots =>
    cases slots with
    | nil => exact ⟨trivial, hmemo, hfits⟩
    | cons s slots =>
      rw [PieceThread.step]
      cases he : memo s with
      | some e =>
        dsimp only
        split_ifs
        · exact ⟨trivial, hmemo, hfits⟩
        · exact ⟨hth, hmemo, hfits⟩
      | none =>
        dsimp only
        refine ⟨trivial, fun s' e' he' => ?_, fun s' e' he' => ?_⟩
        · rw [Function.update_apply] at he'
          split_ifs at he' with hs
          · obtain rfl := Option.some.inj he'
            exact hth.1
          · exact hmemo s' e' he'
        · rw [Function.update_apply] at he'
          split_ifs at he' with hs
          · obtain rfl := Option.some.inj he'
            exact hth.2
          · exact hfits s' e' he'

theorem MemoWorld.Right.update {w : MemoWorld} (h : w.Right D) (t : ℕ) {th : PieceThread}
    (hth : th.Right D) (u : ℕ) : (Function.update w.threads t th u).Right D := by
  rw [Function.update_apply]
  split_ifs
  · exact hth
  · exact h.threads u

theorem MemoWorld.Right.next {w : MemoWorld} (h : w.Right D) (event : MemoEvent) :
    (w.next D mmask shortMax k event).Right D := by
  cases event with
  | call t piece =>
    rw [MemoWorld.next]
    split
    · exact ⟨h.memo, h.fits, h.update t trivial⟩
    · exact h
  | step t =>
    obtain ⟨hth, hmemo, hfits⟩ := right_step mmask shortMax k h.memo h.fits (h.threads t)
    exact ⟨hmemo, hfits, h.update t hth⟩

/-- Every run keeps the table and the pieces right. -/
theorem right_runMemo (D : Tables) (mmask shortMax k : ℕ) (events : List MemoEvent) :
    (runMemo D mmask shortMax k events).Right D := by
  have hrun (w : MemoWorld) (hw : w.Right D) :
      (events.foldl (MemoWorld.next D mmask shortMax k) w).Right D := by
    induction events generalizing w with
    | nil => exact hw
    | cons event events ih => exact ih _ (hw.next event)
  exact hrun .init ⟨.empty D, fun _ _ he => (nomatch he), fun _ => trivial⟩

/-- **The memo table never changes a result**: after any run of calls, with their probes, merges
and insertions in any order, every slot holds the ids that merging its bytes gives, within the
limits of its fields; a piece that has found its ids in the table, or has merged them, holds
those of its merge; and so does a lookup made at once. -/
theorem memo_hit_exact (D : Tables) (mmask shortMax k : ℕ) (events : List MemoEvent) :
    let w := runMemo D mmask shortMax k events
    (∀ s e, w.memo s = some e → e.ids = mergePiece D shortMax k e.bytes ∧ e.Fits) ∧
      (∀ t piece ids, w.threads t = .found piece ids → ids = mergePiece D shortMax k piece) ∧
      (∀ t piece ids, w.threads t = .merged piece ids → ids = mergePiece D shortMax k piece) ∧
      ∀ piece ids, memoFind w.memo mmask piece = some ids →
        ids = mergePiece D shortMax k piece := by
  have h := right_runMemo D mmask shortMax k events
  have hbook {piece : List UInt8} {ids : List ℕ} (hids : Textbook D piece ids) :
      ids = mergePiece D shortMax k piece :=
    hids.unique (textbook_mergePiece D shortMax k piece)
  refine ⟨fun s e he => ⟨hbook (h.memo s e he), h.fits s e he⟩, fun t piece ids ht => ?_,
    fun t piece ids ht => ?_, fun piece ids hfind => ?_⟩
  · have hth := h.threads t
    rw [ht] at hth
    exact hbook hth
  · have hth := h.threads t
    rw [ht] at hth
    exact hbook hth
  · unfold memoFind at hfind
    split_ifs at hfind
    exact hbook (h.memo.search hfind)

/-- One piece inserts `xy`, and the next one finds it. -/
def xyEvents : List MemoEvent :=
  .call 0 [120, 121] :: List.replicate 4 (.step 0) ++ [.call 1 [120, 121], .step 1]

theorem memo_hit_exact_xy :
    (runMemo xyzTables 15 32 1 xyEvents).threads 1 = .found [120, 121] [3] ∧
      [3] = mergePiece xyzTables 32 1 [120, 121] := by
  have hfound : (runMemo xyzTables 15 32 1 xyEvents).threads 1 = .found [120, 121] [3] := by
    decide +kernel
  exact ⟨hfound, (memo_hit_exact xyzTables 15 32 1 xyEvents).2.1 1 _ _ hfound⟩

end Toktier.Bpe
