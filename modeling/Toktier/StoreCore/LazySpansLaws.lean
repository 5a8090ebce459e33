import Toktier.StoreCore.LazySpans

/-!
# Lazy spans are the spans of the bytes

A checkpoint knows where its token starts, in bytes and in characters. So the spans that are
rebuilt from it are the ones that the map from bytes to characters gives, also where a token
starts or ends inside a character. A tail filled lazily therefore stands for the same
`TailState` as one filled with all spans, and every operation keeps that.

## Main definitions

* `Marks`: checkpoints that know where their tokens start.
* `StoredTail.Shows`: what a stored tail stands for.

## Main results

* `rebuildSpanWindow_eq`: any window of the spans, rebuilt from marks.
* `Shows.step`: operations on a stored tail are operations on what it stands for.
* `fillLazy_shows`, `lazySpans_direct`: lazy spans are the spans of the bytes.
-/
namespace Toktier.StoreCore

open Toktier.Lib Toktier.Lib.Utf8

/-! ## Parts of a row -/

section Rows

variable {byte n : ℕ} {lengths : List ℕ}

theorem take_byteRanges : (byteRanges byte lengths).take n = byteRanges byte (lengths.take n) := by
  induction lengths generalizing byte n with
  | nil => simp [byteRanges]
  | cons k lengths ih =>
      cases n with
      | zero => rfl
      | succ n => rw [byteRanges, List.take_succ_cons, ih, List.take_succ_cons, byteRanges]

theorem drop_byteRanges :
    (byteRanges byte lengths).drop n =
      byteRanges (byte + (lengths.take n).sum) (lengths.drop n) := by
  induction lengths generalizing byte n with
  | nil => simp [byteRanges]
  | cons k lengths ih =>
      cases n with
      | zero => rfl
      | succ n =>
          rw [byteRanges, List.drop_succ_cons, ih, List.drop_succ_cons, List.take_succ_cons,
            List.sum_cons, Nat.add_assoc]

/-- A token that is there starts before the end. -/
theorem sum_take_lt (hpos : ∀ n ∈ lengths, 0 < n) (hn : n < lengths.length) :
    (lengths.take n).sum < lengths.sum := by
  have hsum : (lengths.take n).sum + (lengths.drop n).sum = lengths.sum := by
    rw [← List.sum_append, List.take_append_drop]
  rw [List.drop_eq_getElem_cons hn, List.sum_cons] at hsum
  have := hpos _ (List.getElem_mem hn)
  omega

theorem sum_take_le (lengths : List ℕ) (n : ℕ) : (lengths.take n).sum ≤ lengths.sum := by
  have hsum : (lengths.take n).sum + (lengths.drop n).sum = lengths.sum := by
    rw [← List.sum_append, List.take_append_drop]
  omega

end Rows

/-! ## The scan -/

section Scan

variable {text : Text} {table lengths : List ℕ} {ids : List UInt32} {byte length : ℕ}

theorem lazyTokenLen_of {id : UInt32} (h : table[id.toNat]? = some length ∧ 0 < length) :
    lazyTokenLen table id = .ok length := by
  rw [lazyTokenLen, h.1]
  exact if_pos h.2

theorem byteAdd_of_lt {e : StoreError} (h : byte + length < 2 ^ 64) :
    byteAdd byte length e = .ok (byte + length) := if_pos h

/-- A checkpoint of a token before which lie the bytes given. -/
structure MarkAt (text : Text) (byte : ℕ) (cp : SpanCheckpoint) : Prop where
  byte_eq : cp.byte = byte
  anchor : utf8Len text ≠ text.length → byte < utf8Len text →
    cp.anchorChar = byteChar text byte ∧ cp.anchorByte = utf8Len (text.take cp.anchorChar)

/-- Checkpoints of the first tokens of a row. -/
structure Marks (text : Text) (lengths : List ℕ) (tokens : ℕ) (checkpoints : List SpanCheckpoint) :
    Prop where
  count : ∀ k, k < checkpoints.length ↔ k * SPAN_CHECKPOINT_STRIDE < tokens
  at_index : ∀ k cp, checkpoints[k]? = some cp →
    MarkAt text (lengths.take (k * SPAN_CHECKPOINT_STRIDE)).sum cp

/-- What holds of a scan that has passed some tokens of a row. -/
structure Scanned (text : Text) (lengths : List ℕ) (s : CheckpointScan) : Prop where
  byte_eq : s.byte = (lengths.take s.index).sum
  walker : utf8Len text ≠ text.length → s.walker.On text ∧ s.walker.start ≤ s.byte
  marks : Marks text lengths s.index s.checkpoints

theorem ne_nil_of_bytes (h : utf8Len text ≠ text.length) : text ≠ [] := by
  rintro rfl
  exact h rfl

theorem scanned_start (text : Text) (lengths : List ℕ) :
    Scanned text lengths ⟨0, charWalker text, 0, []⟩ where
  byte_eq := rfl
  walker h := ⟨CharReader.on_new (n := 0) (List.length_pos_of_ne_nil (ne_nil_of_bytes h)),
    (CharReader.start_new text 0 0).le⟩
  marks := ⟨fun _ => iff_of_false nofun nofun, nofun⟩

theorem stride_eq : SPAN_CHECKPOINT_STRIDE = 4096 := rfl

/-- A token whose number is a multiple of the stride gets its checkpoint. -/
theorem Marks.push {tokens : ℕ} {checkpoints : List SpanCheckpoint} {cp : SpanCheckpoint}
    (h : Marks text lengths tokens checkpoints) (hstride : tokens % SPAN_CHECKPOINT_STRIDE = 0)
    (hcp : MarkAt text (lengths.take tokens).sum cp) :
    Marks text lengths (tokens + 1) (checkpoints ++ [cp]) := by
  obtain ⟨q, rfl⟩ : ∃ q, tokens = q * SPAN_CHECKPOINT_STRIDE :=
    ⟨_, (Nat.div_mul_cancel (Nat.dvd_of_mod_eq_zero hstride)).symm⟩
  have hlength : checkpoints.length = q := by
    have hle := h.count q
    have hge := h.count (q - 1)
    rw [stride_eq] at hle hge
    omega
  refine ⟨fun k => ?_, fun k cp' hk => ?_⟩
  · rw [List.length_append, hlength, List.length_singleton, stride_eq]
    omega
  · rw [List.getElem?_append] at hk
    split_ifs at hk with hlt
    · exact h.at_index k cp' hk
    · obtain ⟨hzero, hcp'⟩ := List.getElem?_eq_some_iff.mp hk
      rw [List.length_singleton] at hzero
      obtain rfl : k = q := by omega
      rw [← hcp', List.getElem_singleton]
      exact hcp

/-- The other tokens get none. -/
theorem Marks.pass {tokens : ℕ} {checkpoints : List SpanCheckpoint}
    (h : Marks text lengths tokens checkpoints) (hstride : tokens % SPAN_CHECKPOINT_STRIDE ≠ 0) :
    Marks text lengths (tokens + 1) checkpoints := by
  refine ⟨fun k => (h.count k).trans ?_, h.at_index⟩
  rw [stride_eq] at hstride ⊢
  omega

/-- What a scan marks at a token is where the token starts. -/
theorem mark_spec {s : CheckpointScan} {ascii : Bool} (h : Scanned text lengths s)
    (hascii : ascii = true ↔ utf8Len text = text.length) :
    (s.mark ascii).index = s.index ∧ (s.mark ascii).byte = s.byte ∧
      (utf8Len text ≠ text.length → (s.mark ascii).walker.On text ∧
        (s.mark ascii).walker.start ≤ s.byte) ∧
      Marks text lengths (s.index + 1) (s.mark ascii).checkpoints := by
  unfold CheckpointScan.mark
  split_ifs with hstride hcase
  · refine ⟨rfl, rfl, fun hne => absurd (hascii.mp hcase) hne, h.marks.push hstride ?_⟩
    exact ⟨h.byte_eq, fun hne => absurd (hascii.mp hcase) hne⟩
  · have hne : utf8Len text ≠ text.length := fun heq => hcase (hascii.mpr heq)
    obtain ⟨hon, hstart⟩ := h.walker hne
    obtain ⟨hon', hstart', hstop'⟩ := CharReader.on_seek hon s.byte
    refine ⟨rfl, rfl, fun _ => ⟨hon', hstart' hstart⟩, h.marks.push hstride ⟨h.byte_eq, ?_⟩⟩
    intro _ hbyte
    rw [← h.byte_eq] at hbyte ⊢
    refine ⟨((byteChar_eq_iff hbyte).mpr ⟨?_, ?_⟩).symm, hon'.start_eq⟩
    · exact hon'.start_eq.symm.le.trans (hstart' hstart)
    · exact (hstop'.mp hbyte).trans_le hon'.stop_eq.le
  · exact ⟨rfl, rfl, h.walker, h.marks.pass hstride⟩

/-- A row that closes over the text is scanned to its end. -/
theorem foldlM_checkpointStep {ascii : Bool} (hascii : ascii = true ↔ utf8Len text = text.length)
    (hsize : lengths.sum < 2 ^ 64) {s : CheckpointScan} (h : Scanned text lengths s)
    (hids : TokenLengths table ids (lengths.drop s.index)) (hindex : s.index ≤ lengths.length) :
    ∃ s', ids.foldlM (checkpointStep ascii table) s = .ok s' ∧ Scanned text lengths s' ∧
      s'.index = lengths.length := by
  generalize hrest : lengths.drop s.index = rest at hids
  induction hids generalizing s with
  | nil => exact ⟨s, rfl, h, le_antisymm hindex (List.drop_eq_nil_iff.mp hrest)⟩
  | @cons id length ids rest hlength _ ih =>
      have hlt : s.index < lengths.length := by
        by_contra hge
        rw [List.drop_of_length_le (by omega)] at hrest
        cases hrest
      rw [List.drop_eq_getElem_cons hlt] at hrest
      obtain ⟨rfl, hrest'⟩ := List.cons.inj hrest
      obtain ⟨hindex', hbyte', hwalker', hmarks'⟩ := mark_spec h hascii
      have hsum : (lengths.take (s.index + 1)).sum = s.byte + lengths[s.index] := by
        rw [List.take_succ_eq_append_getElem hlt, List.sum_append, ← h.byte_eq, List.sum_singleton]
      have hle := sum_take_le lengths (s.index + 1)
      rw [List.foldlM_cons, checkpointStep, lazyTokenLen_of hlength, ok_bind, hbyte',
        byteAdd_of_lt (by omega), ok_bind, ok_bind, hindex']
      refine ih ⟨hsum.symm, fun hne => ⟨(hwalker' hne).1, ?_⟩, hmarks'⟩ hlt hrest'
      have := (hwalker' hne).2
      dsimp only
      omega

theorem TokenLengths.length_eq (h : TokenLengths table ids lengths) : ids.length = lengths.length :=
  List.Forall₂.length_eq h

/-- A row that closes over a text gets its checkpoints. -/
theorem buildSpanCheckpoints_eq (hids : TokenLengths table ids lengths)
    (hsum : lengths.sum = utf8Len text) (hsize : utf8Len text < 2 ^ 64) :
    ∃ checkpoints, buildSpanCheckpoints text text.length ids table = .ok checkpoints ∧
      Marks text lengths lengths.length checkpoints := by
  obtain ⟨s, hs, hscanned, hindex⟩ := foldlM_checkpointStep decide_eq_true_iff (hsum ▸ hsize)
    (scanned_start text lengths) hids (Nat.zero_le _)
  have hbyte : s.byte = utf8Len text := by
    rw [hscanned.byte_eq, hindex, List.take_length, hsum]
  refine ⟨s.checkpoints, ?_, hindex ▸ hscanned.marks⟩
  rw [buildSpanCheckpoints, hs, ok_bind, if_neg (not_ne_iff.mpr hbyte)]

end Scan

/-! ## The rebuild -/

section Rebuild

variable {text : Text} {table lengths : List ℕ} {ids : List UInt32} {lo hi : ℕ}

theorem foldlM_skipStep (byte : ℕ) (hids : TokenLengths table ids lengths)
    (hsize : byte + lengths.sum < 2 ^ 64) :
    ids.foldlM (skipStep table) byte = .ok (byte + lengths.sum) := by
  induction hids generalizing byte with
  | nil => rfl
  | @cons id length ids lengths hlength _ ih =>
      rw [List.sum_cons] at hsize ⊢
      rw [List.foldlM_cons, skipStep, lazyTokenLen_of hlength, ok_bind, byteAdd_of_lt (by omega),
        ok_bind, ih (byte + length) (by omega), Nat.add_assoc]

/-- A loop whose step finds the span of every byte range builds the rows of the spans. -/
theorem foldlM_windowStep {σ : Type} {span : σ → ℕ → ℕ → Except StoreError ((ℕ × ℕ) × σ)}
    {I : σ → ℕ → Prop}
    (hspan : ∀ cursor byte stop, I cursor byte → byte < stop → stop ≤ utf8Len text →
      ∃ cursor', span cursor byte stop = .ok (byteSpan text (byte, stop), cursor') ∧
        I cursor' stop)
    (hids : TokenLengths table ids lengths) (hsize : utf8Len text < 2 ^ 64) {s : WindowScan σ}
    (hI : I s.cursor s.byte) (hsum : s.byte + lengths.sum ≤ utf8Len text) :
    ∃ s', ids.foldlM (windowStep span table) s = .ok s' ∧
      s'.starts = s.starts ++ ((byteRanges s.byte lengths).map (byteSpan text)).map Prod.fst ∧
      s'.ends = s.ends ++ ((byteRanges s.byte lengths).map (byteSpan text)).map Prod.snd := by
  induction hids generalizing s with
  | nil => exact ⟨s, rfl, (List.append_nil _).symm, (List.append_nil _).symm⟩
  | @cons id length ids lengths hlength _ ih =>
      rw [List.sum_cons] at hsum
      have hpos := hlength.2
      obtain ⟨cursor', hpushed, hI'⟩ := hspan s.cursor s.byte (s.byte + length) hI (by omega)
        (by omega)
      obtain ⟨s', hs', hstarts, hends⟩ := ih (s := ⟨cursor', s.byte + length,
        s.starts ++ [(byteSpan text (s.byte, s.byte + length)).1],
        s.ends ++ [(byteSpan text (s.byte, s.byte + length)).2]⟩) hI' (by dsimp only; omega)
      refine ⟨s', ?_, ?_, ?_⟩
      · rw [List.foldlM_cons, windowStep, lazyTokenLen_of hlength, ok_bind,
          byteAdd_of_lt (by omega), ok_bind, hpushed]
        exact hs'
      · rw [hstarts, byteRanges, List.append_assoc]
        rfl
      · rw [hends, byteRanges, List.append_assoc]
        rfl

theorem asciiWindowSpan_of_le (hlength : text.length < 2 ^ 32)
    (hascii : utf8Len text = text.length) {byte stop : ℕ} (hlt : byte < stop)
    (hle : stop ≤ utf8Len text) :
    asciiWindowSpan (utf8Len text) () byte stop = .ok (byteSpan text (byte, stop), ()) := by
  have hspan : byteSpan text (byte, stop) = (byte, stop) := byteSpan_of_ascii hascii hlt hle
  rw [asciiWindowSpan, if_neg (Nat.not_lt.mpr hle), hspan, Nat.mod_eq_of_lt (by omega),
    Nat.mod_eq_of_lt (by omega)]

/-- The reader finds both ends of a byte range, and has not passed the end. -/
theorem anchoredWindowSpan_of_le (hlength : text.length < 2 ^ 32) {cursor : CharReader}
    (hon : cursor.On text) {byte stop : ℕ} (hstart : cursor.start ≤ byte) (hlt : byte < stop)
    (hle : stop ≤ utf8Len text) :
    ∃ cursor', anchoredWindowSpan cursor byte stop = .ok (byteSpan text (byte, stop), cursor') ∧
      cursor'.On text ∧ cursor'.start ≤ stop := by
  obtain ⟨hon', hle', -⟩ := CharReader.on_seek hon byte
  have hstart' := (hle' hstart).trans (show byte ≤ stop - 1 by omega)
  obtain ⟨hon'', hle'', -⟩ := CharReader.on_seek hon' (stop - 1)
  have := hle'' hstart'
  have hchar : byteChar text (stop - 1) < text.length := byteChar_lt (by omega)
  refine ⟨_, ?_, hon'', by omega⟩
  rw [anchoredWindowSpan, CharReader.charContaining_of_lt hon hstart (by omega)]
  dsimp only
  rw [CharReader.charContaining_of_lt hon' hstart' (by omega)]
  dsimp only
  rw [if_pos (by omega)]
  rfl

/-- The spans of tokens `[lo, hi)`. -/
def spansWindow (text : Text) (lengths : List ℕ) (lo hi : ℕ) : List ℕ × List ℕ :=
  rowsWindow (directSpans text lengths).unzip lo hi

/-- The spans of a window are those of its byte ranges. -/
theorem spansWindow_eq (hlo : lo ≤ hi) : spansWindow text lengths lo hi =
    (((byteRanges (lengths.take lo).sum ((lengths.take hi).drop lo)).map (byteSpan text)).map
        Prod.fst,
      ((byteRanges (lengths.take lo).sum ((lengths.take hi).drop lo)).map (byteSpan text)).map
        Prod.snd) := by
  have hranges : byteRanges (lengths.take lo).sum ((lengths.take hi).drop lo) =
      ((byteRanges 0 lengths).take hi).drop lo := by
    rw [take_byteRanges, drop_byteRanges, List.take_take, min_eq_left hlo, Nat.zero_add]
  rw [hranges, List.map_drop, List.map_drop, List.map_drop, List.map_take, List.map_take,
    List.map_take, spansWindow, directSpans, List.unzip_eq_map]
  rfl

theorem TokenLengths.window (hids : TokenLengths table ids lengths) (lo hi : ℕ) :
    TokenLengths table ((ids.take hi).drop lo) ((lengths.take hi).drop lo) :=
  List.forall₂_drop lo (List.forall₂_take hi hids)

/-- The tokens up to a token, in two parts. -/
theorem sum_take_drop (lengths : List ℕ) (hlo : lo ≤ hi) :
    (lengths.take lo).sum + ((lengths.take hi).drop lo).sum = (lengths.take hi).sum := by
  have hsplit : ((lengths.take hi).take lo ++ (lengths.take hi).drop lo).sum = _ :=
    List.sum_append
  rw [List.take_append_drop, List.take_take, min_eq_left hlo] at hsplit
  exact hsplit.symm

/-- Any window is rebuilt from the marks. -/
theorem rebuildSpanWindow_eq (hlength : text.length < 2 ^ 32) (hids : TokenLengths table ids lengths)
    (hsum : lengths.sum = utf8Len text) {checkpoints : List SpanCheckpoint}
    (hmarks : Marks text lengths lengths.length checkpoints) (hlo : lo ≤ hi)
    (hhi : hi ≤ lengths.length) :
    rebuildSpanWindow text text.length table checkpoints ids lo hi =
      .ok (spansWindow text lengths lo hi) := by
  have hsize : utf8Len text < 2 ^ 64 := by
    have := utf8Len_le_four_mul text
    omega
  rw [rebuildSpanWindow]
  by_cases heq : lo = hi
  · subst heq
    have hnone : (lengths.take lo).drop lo = [] := List.drop_eq_nil_iff.mpr (by simp)
    rw [if_pos rfl, spansWindow_eq le_rfl, hnone]
    rfl
  rw [if_neg heq]
  dsimp only
  -- the checkpoint is at a token before the window
  set k := lo / SPAN_CHECKPOINT_STRIDE with hk
  have hkle : k * SPAN_CHECKPOINT_STRIDE ≤ lo := Nat.div_mul_le_self _ _
  obtain ⟨cp, hcp⟩ : ∃ cp, checkpoints[k]? = some cp :=
    ⟨_, List.getElem?_eq_getElem ((hmarks.count k).mpr (by omega))⟩
  have hmark := hmarks.at_index k cp hcp
  have hbefore := foldlM_skipStep cp.byte (hids.window (k * SPAN_CHECKPOINT_STRIDE) lo) (by
    have := sum_take_le lengths lo
    rw [hmark.byte_eq, sum_take_drop lengths hkle]
    omega)
  rw [hmark.byte_eq, sum_take_drop lengths hkle] at hbefore
  rw [hcp]
  dsimp only
  rw [hmark.byte_eq, hbefore, checked_ok, ok_bind]
  have hinside : (lengths.take lo).sum + ((lengths.take hi).drop lo).sum ≤ utf8Len text := by
    have := sum_take_le lengths hi
    rw [sum_take_drop lengths hlo]
    omega
  by_cases hascii : utf8Len text = text.length
  · rw [if_pos hascii]
    obtain ⟨s', hs', hstarts, hends⟩ :=
      foldlM_windowStep (I := fun _ _ => True) (s := ⟨(), (lengths.take lo).sum, [], []⟩)
        (fun _ _ _ _ hlt hle => ⟨(), asciiWindowSpan_of_le hlength hascii hlt hle, trivial⟩)
        (hids.window lo hi) hsize trivial hinside
    rw [hs', checked_ok, ok_bind, hstarts, hends, spansWindow_eq hlo]
    rfl
  · rw [if_neg hascii]
    -- the reader starts at the character of the checkpoint's byte
    have hcpbyte : (lengths.take (k * SPAN_CHECKPOINT_STRIDE)).sum < utf8Len text := by
      rw [← hsum]
      exact sum_take_lt hids.pos (by omega)
    obtain ⟨hchar, hbyte⟩ := hmark.anchor hascii hcpbyte
    obtain ⟨reader, hcursor, hon, hstart⟩ : ∃ reader, anchoredCharCursor text cp.anchorByte
        cp.anchorChar = .ok reader ∧ reader.On text ∧ reader.start ≤ (lengths.take lo).sum := by
      refine ⟨CharReader.new (text.drop cp.anchorChar) cp.anchorByte cp.anchorChar, ?_, ?_, ?_⟩
      · rw [anchoredCharCursor, hbyte, strFrom_utf8Len]
        rfl
      · rw [hbyte]
        exact CharReader.on_new (hchar ▸ byteChar_lt hcpbyte)
      · have := (byteChar_eq_iff hcpbyte).mp hchar.symm
        have := sum_take_drop lengths hkle
        rw [CharReader.start_new, hbyte]
        omega
    obtain ⟨s', hs', hstarts, hends⟩ :=
      foldlM_windowStep (I := fun (cursor : CharReader) byte => cursor.On text ∧ cursor.start ≤ byte)
        (s := ⟨reader, (lengths.take lo).sum, [], []⟩)
        (fun _ _ _ h hlt hle => anchoredWindowSpan_of_le hlength h.1 h.2 hlt hle)
        (hids.window lo hi) hsize ⟨hon, hstart⟩ hinside
    rw [hcursor, ok_bind, hs', checked_ok, ok_bind, hstarts, hends, spansWindow_eq hlo]
    rfl

end Rebuild

/-! ## What a stored tail stands for -/

/-- The operations on a tail that has its spans. -/
def TailState.read (t : TailState) : SpanRead → Except StoreError (List ℕ × List ℕ)
  | .Window lo hi => t.spanWindow lo hi
  | .All => .ok (t.spanStarts, t.spanEnds)

def TailState.step (t : TailState) : TailOp → Except StoreError (List ℕ × List ℕ) × TailState
  | .Read read => (t.read read, t)
  | .Splice cutIdx deltaText new =>
      match t.splice cutIdx deltaText new with
      | .ok t => (.ok ([], []), t)
      | .error e => (.error e, t)

def TailState.run (t : TailState) :
    List TailOp → List (Except StoreError (List ℕ × List ℕ)) × TailState
  | [] => ([], t)
  | op :: ops =>
      let (answer, t) := t.step op
      let (answers, t) := t.run ops
      (answer :: answers, t)

/-- The spans that are stored, or that would be rebuilt. -/
inductive SpansShow (text : Text) (ids : List UInt32) (rows : List ℕ × List ℕ) : TailSpans → Prop
  | materialized : SpansShow text ids rows (.Materialized rows.1 rows.2)
  | rebuilt {table lengths : List ℕ} {checkpoints : List SpanCheckpoint}
      {cache : Option (List ℕ × List ℕ)} (hids : TokenLengths table ids lengths)
      (hsum : lengths.sum = utf8Len text) (hmarks : Marks text lengths lengths.length checkpoints)
      (hrows : rows = (directSpans text lengths).unzip) (hcache : ∀ kept ∈ cache, kept = rows) :
      SpansShow text ids rows (.Lazy table checkpoints cache)

namespace StoredTail

/-- The tail that a stored one stands for. -/
structure Shows (s : StoredTail) (t : TailState) : Prop where
  text_eq : s.text = t.text
  chars_eq : s.textChars = t.text.length
  ids_eq : s.ids = t.ids
  spans : SpansShow s.text s.ids (t.spanStarts, t.spanEnds) s.spans

section Shows

variable {s : StoredTail} {t : TailState} {lo hi : ℕ}

/-- A window is the one of the tail that is stored. -/
theorem Shows.spanWindow (h : Shows s t) : s.spanWindow lo hi = checked (t.spanWindow lo hi) := by
  obtain ⟨text, textChars, tailIds, spans⟩ := s
  obtain ⟨rfl, rfl, hids, hspans⟩ := h
  rw [StoredTail.spanWindow, TailState.spanWindow, TailState.nTokens, hids]
  by_cases hbad : lo > hi ∨ hi > t.ids.length
  · rw [if_pos hbad, if_pos hbad]
    rfl
  · rw [if_neg hbad, if_neg hbad]
    dsimp only at hspans ⊢
    generalize hrows : (t.spanStarts, t.spanEnds) = rows at hspans
    cases hspans with
    | materialized =>
        obtain rfl := hrows
        rfl
    | @rebuilt table lengths checkpoints cache htokens hsum hmarks hdirect hcache =>
        cases cache with
        | some kept =>
            obtain rfl := hcache kept rfl
            obtain rfl := hrows
            rfl
        | none =>
            dsimp only
            rw [← hids, rebuildSpanWindow_eq t.chars_lt htokens hsum hmarks (by omega) (by
              rw [← htokens.length_eq, hids]
              omega), spansWindow, ← hdirect, ← hrows]
            rfl

/-- All spans can be had. -/
theorem Shows.forcedSpans (h : Shows s t) :
    ∃ s', s.forcedSpans = .ok ((t.spanStarts, t.spanEnds), s') ∧ Shows s' t := by
  obtain ⟨text, textChars, tailIds, spans⟩ := s
  obtain ⟨rfl, rfl, hids, hspans⟩ := h
  have hspans' : SpansShow t.text tailIds.asSlice (t.spanStarts, t.spanEnds) spans := hspans
  clear hspans
  obtain ⟨rows, hrows⟩ : ∃ rows, (t.spanStarts, t.spanEnds) = rows := ⟨_, rfl⟩
  rw [hrows] at hspans' ⊢
  cases hspans' with
  | materialized => exact ⟨_, rfl, rfl, rfl, hids, hrows ▸ .materialized⟩
  | @rebuilt table lengths checkpoints cache htokens hsum hmarks hdirect hcache =>
      have hkeep (cache : Option (List ℕ × List ℕ)) (hcache : ∀ kept ∈ cache, kept = rows) :
          Shows ⟨t.text, t.text.length, tailIds, .Lazy table checkpoints cache⟩ t :=
        ⟨rfl, rfl, hids, hrows ▸ .rebuilt htokens hsum hmarks hdirect hcache⟩
      cases cache with
      | some kept =>
          obtain rfl := hcache kept rfl
          exact ⟨_, rfl, hkeep _ hcache⟩
      | none =>
          have hids' : tailIds.asSlice = t.ids := hids
          have hwhole : spansWindow t.text lengths 0 tailIds.asSlice.length = rows := by
            rw [spansWindow, ← hdirect, rowsWindow, ← hrows, hids']
            dsimp only
            rw [List.drop_zero, List.drop_zero,
              List.take_of_length_le (show _ ≤ t.ids.length from t.starts_length.le),
              List.take_of_length_le (show _ ≤ t.ids.length from t.ends_length.le)]
          have hrebuilt := rebuildSpanWindow_eq t.chars_lt htokens hsum hmarks (Nat.zero_le _)
            htokens.length_eq.le
          refine ⟨_, ?_, hkeep (some rows) fun _ hkept => (Option.some.inj hkept).symm⟩
          unfold StoredTail.forcedSpans
          dsimp only [StoredTail.ids]
          rw [hrebuilt, hwhole]

/-- A splice is one of the tail that is stored. -/
theorem Shows.splice (h : Shows s t) (cutIdx : ℕ) (deltaText : Text) (new : Encoding) :
    (∃ s' t', s.splice cutIdx deltaText new = .ok s' ∧ t.splice cutIdx deltaText new = .ok t' ∧
      Shows s' t') ∨
    ∃ e, s.splice cutIdx deltaText new = .error (.Reject e) ∧
      t.splice cutIdx deltaText new = .error e := by
  have hchars : s.textChars = t.textChars := h.chars_eq
  rw [StoredTail.splice, TailState.splice, TailState.nTokens, h.ids_eq, hchars]
  by_cases hcut : cutIdx > t.ids.length
  · rw [if_pos hcut, if_pos hcut]
    exact .inr ⟨_, rfl, rfl⟩
  rw [if_neg hcut, if_neg hcut]
  by_cases hcapacity : t.textChars + deltaText.length < 2 ^ 32
  · rw [if_neg (by omega), dif_pos hcapacity]
    dsimp only
    split
    · rename_i e he
      rw [he]
      exact .inr ⟨e, rfl, rfl⟩
    · rename_i u hvalid
      obtain ⟨s', hforced, hs'⟩ := h.forcedSpans
      refine .inl ⟨⟨s'.text ++ deltaText, t.textChars + deltaText.length,
        .Owned (s'.ids.take cutIdx ++ new.ids),
        .Materialized (t.spanStarts.take cutIdx ++ new.spans.map Prod.fst)
          (t.spanEnds.take cutIdx ++ new.spans.map Prod.snd)⟩, _, ?_, rfl, ?_, ?_, ?_,
        .materialized⟩
      · rw [hvalid, checked_ok, ok_bind, hforced]
        rfl
      · exact congrArg (· ++ deltaText) hs'.text_eq
      · exact List.length_append.symm
      · exact congrArg (fun ids => ids.take cutIdx ++ new.ids) hs'.ids_eq
  · rw [if_pos (by omega), dif_neg hcapacity]
    exact .inr ⟨_, rfl, rfl⟩

end Shows

/-- Operations on a stored tail are operations on the tail that it stands for. -/
theorem Shows.step {s : StoredTail} {t : TailState} (h : Shows s t) (op : TailOp) :
    (s.step op).1 = checked (t.step op).1 ∧ Shows (s.step op).2 (t.step op).2 := by
  cases op with
  | Read read =>
      cases read with
      | Window lo hi => exact ⟨h.spanWindow, h⟩
      | All =>
          obtain ⟨s', hforced, hs'⟩ := h.forcedSpans
          rw [StoredTail.step, StoredTail.read, hforced]
          exact ⟨rfl, hs'⟩
  | Splice cutIdx deltaText new =>
      rw [StoredTail.step, TailState.step]
      obtain ⟨s', t', hs, ht, hshows⟩ | ⟨e, hs, ht⟩ := h.splice cutIdx deltaText new
      · rw [hs, ht]
        exact ⟨rfl, hshows⟩
      · rw [hs, ht]
        exact ⟨rfl, h⟩

theorem Shows.run {s : StoredTail} {t : TailState} (h : Shows s t) (ops : List TailOp) :
    (s.run ops).1 = (t.run ops).1.map checked ∧ Shows (s.run ops).2 (t.run ops).2 := by
  induction ops generalizing s t with
  | nil => exact ⟨rfl, h⟩
  | cons op ops ih =>
      obtain ⟨hanswer, hnext⟩ := h.step op
      obtain ⟨hanswers, hlast⟩ := ih hnext
      rw [StoredTail.run, TailState.run]
      refine ⟨?_, hlast⟩
      dsimp only
      rw [List.map_cons, hanswer, hanswers]

/-- Reading leaves the tail that is stored. -/
theorem run_reads (t : TailState) (reads : List SpanRead) : (t.run (reads.map .Read)).2 = t := by
  induction reads with
  | nil => rfl
  | cons read reads ih => exact ih

/-- A tail filled lazily stands for the one that has the spans of its bytes. -/
theorem fillLazy_shows {text : Text} {ids : SharedIds} {table lengths : List ℕ} {t : TailState}
    (hids : TokenLengths table ids.asSlice lengths) (hsum : lengths.sum = utf8Len text)
    (ht : TailState.fill text ⟨ids.asSlice, directSpans text lengths⟩ = .ok t) :
    ∃ s, fillLazy text ids table = .ok s ∧ Shows s t := by
  obtain ⟨rfl, htids, hstarts, hends⟩ := TailState.fill_ok ht
  have hsize : utf8Len t.text < 2 ^ 64 := by
    have := t.chars_lt
    have := utf8Len_le_four_mul t.text
    omega
  obtain ⟨checkpoints, hbuild, hmarks⟩ := buildSpanCheckpoints_eq hids hsum hsize
  refine ⟨⟨t.text, t.text.length, .Shared ids, .Lazy table checkpoints none⟩, ?_, rfl, rfl,
    htids.symm, .rebuilt hids hsum hmarks ?_ nofun⟩
  · rw [fillLazy, charsU32, if_pos t.chars_lt, ok_bind, hbuild]
    rfl
  · rw [List.unzip_eq_map, hstarts, hends]

/-- A tail filled with all spans stands for itself. -/
theorem fill_shows {text : Text} {enc : Encoding} {t : TailState}
    (ht : TailState.fill text enc = .ok t) : ∃ s, fill text enc = .ok s ∧ Shows s t := by
  obtain ⟨rfl, hids, hstarts, hends⟩ := TailState.fill_ok ht
  have hvalid : enc.validate t.text.length = .ok () := by
    refine validate_ok.mpr ⟨?_, ?_⟩
    · have hlength : t.spanStarts.length = t.ids.length := t.starts_length
      rw [hstarts, List.length_map, hids] at hlength
      exact hlength.symm
    · have hwithin := t.spans_within
      rwa [hstarts, hends, List.zip_map', List.map_id'' fun _ => rfl] at hwithin
  refine ⟨⟨t.text, t.text.length, .Owned enc.ids, .Materialized t.spanStarts t.spanEnds⟩, ?_, rfl,
    rfl, hids.symm, .materialized⟩
  rw [fill, charsU32, if_pos t.chars_lt, ok_bind, hvalid, ok_bind, hstarts, hends]

end StoredTail

/-- The spans of a row that closes over a text fit a tail. -/
theorem exists_fill_directSpans {text : Text} {table lengths : List ℕ} {ids : List UInt32}
    (hids : TokenLengths table ids lengths) (hsum : lengths.sum = utf8Len text)
    (hlength : text.length < 2 ^ 32) :
    ∃ t, TailState.fill text ⟨ids, directSpans text lengths⟩ = .ok t := by
  have hrow : (directSpans text lengths).length = ids.length := by
    rw [length_directSpans, hids.length_eq]
  refine TailState.exists_build _ hlength ((List.length_map _).trans hrow)
    ((List.length_map _).trans hrow) fun p hp => ?_
  rw [List.zip_map', List.map_id'' fun _ => rfl] at hp
  obtain ⟨interval, hinterval, rfl⟩ := List.mem_map.mp hp
  have hrange := mem_byteRanges hids.pos hinterval
  obtain ⟨hlt, hle⟩ := byteSpan_within hrange.2.1 (show interval.2 ≤ utf8Len text by omega)
  exact ⟨hlt.le, hle⟩

/-- Lazy spans are those of the bytes: where the byte lengths of the ids tile the text, a lazy fill
succeeds unless the text is too long, every window after any reads is the one of the spans of the
bytes, and any reads and splices are answered as by a tail filled with these spans. -/
theorem lazySpans_direct (text : Text) (ids : SharedIds) (table lengths : List ℕ)
    (hids : TokenLengths table ids.asSlice lengths) (hsum : lengths.sum = utf8Len text) :
    (text.length < 2 ^ 32 → ∃ lazy, StoredTail.fillLazy text ids table = .ok lazy) ∧
    ∀ lazy, StoredTail.fillLazy text ids table = .ok lazy →
      (∀ (reads : List SpanRead) (lo hi : ℕ), lo ≤ hi → hi ≤ ids.asSlice.length →
        (lazy.run (reads.map .Read)).2.spanWindow lo hi = .ok (spansWindow text lengths lo hi)) ∧
      ∃ eager, StoredTail.fill text ⟨ids.asSlice, directSpans text lengths⟩ = .ok eager ∧
        ∀ ops, (lazy.run ops).1 = (eager.run ops).1 := by
  constructor
  · intro hlength
    obtain ⟨t, ht⟩ := exists_fill_directSpans hids hsum hlength
    obtain ⟨lazy, hlazy, -⟩ := StoredTail.fillLazy_shows hids hsum ht
    exact ⟨lazy, hlazy⟩
  · intro lazy hlazy
    have hlength : text.length < 2 ^ 32 := by
      by_contra hge
      rw [StoredTail.fillLazy, charsU32, if_neg hge] at hlazy
      cases hlazy
    obtain ⟨t, ht⟩ := exists_fill_directSpans hids hsum hlength
    obtain ⟨lazy', hlazy', hshows⟩ := StoredTail.fillLazy_shows hids hsum ht
    obtain rfl := Except.ok.inj (hlazy.symm.trans hlazy')
    obtain ⟨eager, heager, hshows'⟩ := StoredTail.fill_shows ht
    refine ⟨fun reads lo hi hlo hhi => ?_, eager, heager, fun ops => ?_⟩
    · have hread := (hshows.run (reads.map .Read)).2
      rw [StoredTail.run_reads] at hread
      obtain ⟨-, htids, hstarts, hends⟩ := TailState.fill_ok ht
      have hbad : ¬(lo > hi ∨ hi > ids.asSlice.length) := by omega
      rw [hread.spanWindow, TailState.spanWindow, TailState.nTokens, htids, if_neg hbad,
        spansWindow, List.unzip_eq_map, ← hstarts, ← hends]
      rfl
    · rw [(hshows.run ops).1, (hshows'.run ops).1]

theorem lazySpans_direct_split :
    ∃ lazy, StoredTail.fillLazy "é".toList (.fromVec 0 [0, 0]) [1] = .ok lazy ∧
      lazy.spanWindow 1 2 = .ok ([0], [1]) := by
  have hids : TokenLengths [1] (SharedIds.fromVec 0 [0, 0]).asSlice [1, 1] :=
    .cons ⟨rfl, by decide⟩ (.cons ⟨rfl, by decide⟩ .nil)
  obtain ⟨hfill, hwindows⟩ := lazySpans_direct "é".toList (.fromVec 0 [0, 0]) [1] [1, 1] hids rfl
  obtain ⟨lazy, hlazy⟩ := hfill (by decide)
  exact ⟨lazy, hlazy, (hwindows lazy hlazy).1 [] 1 2 (by decide) (by decide)⟩

end Toktier.StoreCore
