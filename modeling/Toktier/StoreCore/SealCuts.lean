import Toktier.Lib.Utf8Slices
import Toktier.Lib.Utf8Starts
import Toktier.StoreCore.AppendAtomic

/-!
# Cuts to seal at

A cut names a place of a tail by the token behind it and by a character; a seal finds the byte of
that character with a scan of the text. A seal succeeds at a cut that is the start of a token,
where no token behind it starts earlier and the one before it does not reach further, and then
the rest of the tail is a tail again.

## Main definitions

* `byteIxOfChar`: the scan.
* `Sealable`: cuts that a tail can be sealed at.
* `CleanSeal`: a session and the one a seal leaves, with the spans.

## Main results

* `byteIxOfChar_eq`: the scan finds the end of the characters before.
* `Sealable.sealTail`: a seal at such a cut.
-/
namespace Toktier.StoreCore

open Toktier.Lib Toktier.Lib.Utf8

/-! ## Bytes of characters -/

/-- The place of the first byte of the last `tailChars` characters, from the bytes backward; `cnt`
of them were seen. -/
def byteIxBack (tailChars : ℕ) : List UInt8 → ℕ → ℕ
  | [], _ => 0
  | b :: bytes, cnt =>
      if isCont b then byteIxBack tailChars bytes cnt
      else if cnt + 1 = tailChars then bytes.length
      else byteIxBack tailChars bytes (cnt + 1)

/-- Byte offset of character `charIx` of a text of `textChars` characters. -/
def byteIxOfChar (text : Text) (textChars charIx : ℕ) : ℕ :=
  if charIx = 0 then 0
  else if charIx ≥ textChars then utf8Len text
  else if utf8Len text = textChars then charIx
  else byteIxBack (textChars - charIx) (utf8 text).reverse 0

theorem byteIxBack_cont {tailChars cnt : ℕ} {bytes : List UInt8}
    (hcont : ∀ b ∈ bytes, isCont b = true) (rest : List UInt8) :
    byteIxBack tailChars (bytes ++ rest) cnt = byteIxBack tailChars rest cnt := by
  induction bytes with
  | nil => rfl
  | cons b bytes ih =>
      obtain ⟨hb, hbytes⟩ := List.forall_mem_cons.mp hcont
      rw [List.cons_append, byteIxBack, if_pos hb, ih hbytes]

theorem byteIxBack_utf8 (text : Text) {tailChars cnt : ℕ} (hcnt : cnt < tailChars)
    (hle : tailChars ≤ cnt + text.length) :
    byteIxBack tailChars (utf8 text).reverse cnt =
      utf8Len (text.take (cnt + text.length - tailChars)) := by
  induction text using List.reverseRecOn generalizing cnt with
  | nil =>
      rw [List.length_nil] at hle
      omega
  | append_singleton text c ih =>
      obtain ⟨b, bs, hc, hb, hbs, -⟩ := utf8EncodeChar_eq c
      have hbytes : (utf8 (text ++ [c])).reverse = bs.reverse ++ b :: (utf8 text).reverse := by
        rw [utf8_append, utf8_cons, utf8_nil, List.append_nil, hc, List.reverse_append,
          List.reverse_cons, List.append_assoc, List.singleton_append]
      rw [List.length_append, List.length_singleton] at hle
      rw [hbytes, byteIxBack_cont fun x hx => hbs x (List.mem_reverse.mp hx), byteIxBack,
        if_neg (by rw [hb]; exact Bool.false_ne_true), List.length_append, List.length_singleton]
      split_ifs with hlast
      · rw [List.length_reverse, length_utf8, ← hlast,
          show cnt + (text.length + 1) - (cnt + 1) = text.length by omega, List.take_left]
      · rw [ih (by omega) (by omega),
          show cnt + (text.length + 1) - tailChars = cnt + 1 + text.length - tailChars by omega,
          List.take_append_of_le_length (by omega)]

theorem utf8Len_take_of_length {text : Text} (hascii : utf8Len text = text.length) {n : ℕ}
    (hn : n ≤ text.length) : utf8Len (text.take n) = n := by
  have hsum := utf8Len_take_add_drop n text
  have hfirst := length_le_utf8Len (text.take n)
  have hlast := length_le_utf8Len (text.drop n)
  rw [List.length_take] at hfirst
  rw [List.length_drop] at hlast
  omega

/-- The offset is the length of the characters before. -/
theorem byteIxOfChar_eq (text : Text) (charIx : ℕ) :
    byteIxOfChar text text.length charIx = utf8Len (text.take charIx) := by
  rw [byteIxOfChar]
  split_ifs with hzero hpast hascii
  · rw [hzero, List.take_zero, utf8Len_nil]
  · rw [List.take_of_length_le hpast]
  · exact (utf8Len_take_of_length hascii (by omega)).symm
  · rw [byteIxBack_utf8 text (by omega) (by omega)]
    congr 2
    omega

/-! ## Cuts -/

/-- A cut at the start of a token: no token behind it starts earlier, and the one before it does
not reach further. -/
structure Sealable (tail : TailState) (cut : BoundaryCut) : Prop where
  pos : 0 < cut.cutTokens
  lt : cut.cutTokens < tail.nTokens
  starts : tail.spanStarts[cut.cutTokens]? = some cut.cutChar
  before : ∀ stop ∈ tail.spanEnds[cut.cutTokens - 1]?, stop ≤ cut.cutChar
  behind : ∀ start ∈ tail.spanStarts.drop cut.cutTokens, cut.cutChar ≤ start

section Seals

variable {tail : TailState} {cut : BoundaryCut}

/-- The span of a token. -/
theorem TailState.span_at (t : TailState) {i : ℕ} (h : i < t.nTokens) :
    ∃ start stop, t.spanStarts[i]? = some start ∧ t.spanEnds[i]? = some stop ∧ start ≤ stop ∧
      stop ≤ t.text.length := by
  have hstart : i < t.spanStarts.length := t.starts_length ▸ h
  have hstop : i < t.spanEnds.length := t.ends_length ▸ h
  have hmem : (t.spanStarts[i], t.spanEnds[i]) ∈ t.spanStarts.zip t.spanEnds := by
    refine List.mem_iff_getElem.mpr ⟨i, ?_, List.getElem_zip⟩
    rw [List.length_zip]
    exact lt_min hstart hstop
  exact ⟨_, _, List.getElem?_eq_getElem hstart, List.getElem?_eq_getElem hstop,
    t.spans_within _ hmem⟩

/-- A cut lies in the text. -/
theorem Sealable.char_le (h : Sealable tail cut) : cut.cutChar ≤ tail.text.length := by
  obtain ⟨start, stop, hstart, -, hle, hstop⟩ := tail.span_at h.lt
  obtain rfl := Option.some.inj (hstart.symm.trans h.starts)
  exact hle.trans hstop

theorem exists_splitShared (h : cut.cutTokens ≤ tail.nTokens) :
    ∃ shared, splitShared tail cut.cutTokens = .ok shared := by
  unfold splitShared
  cases hs : tail.sharedIds with
  | none => exact ⟨none, rfl⟩
  | some view =>
    have hids : tail.nTokens = view.len := by
      unfold TailState.sharedIds at hs
      rw [TailState.nTokens_eq]
      split at hs
      · rename_i view' hview
        obtain rfl := Option.some.inj hs
        rw [hview]
        exact SharedIds.length_asSlice _
      · cases hs
    obtain ⟨head, hhead⟩ := SharedIds.slice_of_le (v := view) (Nat.zero_le cut.cutTokens) (hids ▸ h)
    obtain ⟨rest, hrest⟩ := SharedIds.slice_of_le (v := view) h hids.le
    exact ⟨some (head, rest), by simp only [hhead, hrest, ok_bind]; rfl⟩

/-- A cut passes the checks before a seal. -/
theorem Sealable.exists_checkCut (h : Sealable tail cut) :
    ∃ r, checkCut tail cut = .ok r := by
  have hchar := h.char_le.trans_lt tail.chars_lt
  have hone : cut.cutTokens - 1 + 1 = cut.cutTokens := Nat.sub_add_cancel h.pos
  obtain ⟨shared, hshared⟩ := exists_splitShared h.lt.le
  have hstarts : ((tail.spanStarts.take tail.nTokens).drop (cut.cutTokens - 1))[1]? =
      some cut.cutChar := by
    have hall : tail.spanStarts.take tail.nTokens = tail.spanStarts :=
      List.take_of_length_le tail.starts_length.le
    rw [hall, List.getElem?_drop, hone, h.starts]
  have hends : ((tail.spanEnds.take tail.nTokens).drop (cut.cutTokens - 1)).headD 0 ≤
      cut.cutChar := by
    have hall : tail.spanEnds.take tail.nTokens = tail.spanEnds :=
      List.take_of_length_le tail.ends_length.le
    have hlen : tail.spanEnds.length = tail.nTokens := tail.ends_length
    have hpos := h.pos
    have hlt := h.lt
    have hlast : cut.cutTokens - 1 < tail.spanEnds.length := by omega
    rw [hall, List.drop_eq_getElem_cons hlast]
    exact h.before _ (List.getElem?_eq_getElem hlast)
  unfold checkCut TailState.spanWindow
  rw [if_neg (by omega), if_neg (by have := h.pos; have := h.lt; omega), if_neg (by have := h.lt; omega),
    ok_bind]
  dsimp only
  rw [if_neg (not_not.mpr hstarts), if_neg (not_lt.mpr hends), hshared, ok_bind]
  exact ⟨_, rfl⟩

/-- Positions behind the cut, counted from it, are spans of the rest of the text. -/
theorem Sealable.spansWithin (h : Sealable tail cut) (shift : ℕ → ℕ)
    (hshift : ∀ p, cut.cutChar ≤ p → p ≤ tail.text.length → shift p = p - cut.cutChar) :
    SpansWithin (tail.text.drop cut.cutChar).length
      (((tail.spanStarts.drop cut.cutTokens).map shift).zip
        ((tail.spanEnds.drop cut.cutTokens).map shift)) := by
  rw [List.zip_map]
  intro p hp
  obtain ⟨⟨start, stop⟩, hmem, rfl⟩ := List.mem_map.mp hp
  have hbehind := h.behind start (List.of_mem_zip hmem).1
  have hdrop : (tail.spanStarts.drop cut.cutTokens).zip (tail.spanEnds.drop cut.cutTokens) =
      (tail.spanStarts.zip tail.spanEnds).drop cut.cutTokens := List.drop_zipWith.symm
  rw [hdrop] at hmem
  have hspan := tail.spans_within _ (List.mem_of_mem_drop hmem)
  dsimp only at hspan
  rw [List.length_drop, Prod.map_apply, hshift start hbehind (by omega),
    hshift stop (by omega) hspan.2]
  dsimp only
  omega

/-- The rest of the tail can be rebuilt behind such a cut. -/
theorem Sealable.cutFits (h : Sealable tail cut) : CutFits tail cut := by
  obtain ⟨⟨starts, ends, shared⟩, hcheck⟩ := h.exists_checkCut
  obtain ⟨-, hsplit, rfl, rfl⟩ := checkCut_ok hcheck
  have hshared := splitShared_ok hsplit
  have hchars := tail.chars_lt
  have hrest : (tail.text.drop cut.cutChar).length < 2 ^ 32 := by
    rw [List.length_drop]
    omega
  have hwithin := h.spansWithin (fun p => (p + 2 ^ 32 - cut.cutChar) % 2 ^ 32) fun p hp hle => by
    rw [Nat.add_comm p, Nat.add_sub_assoc hp, Nat.add_mod_left, Nat.mod_eq_of_lt (by omega)]
  have hstarts : tail.spanStarts.length = tail.ids.length := tail.starts_length
  have hends : tail.spanEnds.length = tail.ids.length := tail.ends_length
  have hbuild (ids : TailIds) (hids : ids.asSlice = tail.ids.drop cut.cutTokens) (e : StoreError) :=
    TailState.exists_build e hrest
      (by rw [List.length_map, List.length_drop, hstarts, hids, List.length_drop])
      (by rw [List.length_map, List.length_drop, hends, hids, List.length_drop]) hwithin
  have hrebase : ∃ rebased, rebase tail cut (tail.spanStarts.drop cut.cutTokens)
      (tail.spanEnds.drop cut.cutTokens) (shared.map Prod.snd) = .ok rebased := by
    cases shared with
    | none => exact hbuild (.Owned (tail.ids.drop cut.cutTokens)) rfl _
    | some p => exact hbuild (.Shared p.2) (hshared p rfl).2 _
  obtain ⟨rebased, hrebased⟩ := hrebase
  exact ⟨_, _, _, rebased, hcheck, hrebased⟩

/-- The spans behind the cut lie between it and the end of the text. -/
theorem Sealable.behind_spans (h : Sealable tail cut) :
    (∀ start ∈ tail.spanStarts.drop cut.cutTokens, start ≤ tail.text.length) ∧
      ∀ stop ∈ tail.spanEnds.drop cut.cutTokens, cut.cutChar ≤ stop ∧ stop ≤ tail.text.length := by
  have hspan (i : ℕ) (p : ℕ) (row : List ℕ) (hrow : row.length = tail.nTokens)
      (hp : (row.drop cut.cutTokens)[i]? = some p) :
      ∃ start stop, tail.spanStarts[cut.cutTokens + i]? = some start ∧
        tail.spanEnds[cut.cutTokens + i]? = some stop ∧ cut.cutChar ≤ start ∧ start ≤ stop ∧
          stop ≤ tail.text.length := by
    rw [List.getElem?_drop] at hp
    obtain ⟨hlt, -⟩ := List.getElem?_eq_some_iff.mp hp
    obtain ⟨start, stop, hstart, hstop, hle, hlength⟩ := tail.span_at (hrow ▸ hlt)
    refine ⟨start, stop, hstart, hstop, h.behind start ?_, hle, hlength⟩
    exact List.mem_of_getElem? ((List.getElem?_drop).trans hstart)
  constructor
  · intro p hp
    obtain ⟨i, hi⟩ := List.mem_iff_getElem?.mp hp
    obtain ⟨start, stop, hstart, -, -, hle, hlength⟩ := hspan i p _ tail.starts_length hi
    obtain rfl := Option.some.inj (hstart.symm.trans ((List.getElem?_drop).symm.trans hi))
    exact hle.trans hlength
  · intro p hp
    obtain ⟨i, hi⟩ := List.mem_iff_getElem?.mp hp
    obtain ⟨start, stop, -, hstop, hge, hle, hlength⟩ := hspan i p _ tail.ends_length hi
    obtain rfl := Option.some.inj (hstop.symm.trans ((List.getElem?_drop).symm.trans hi))
    exact ⟨hge.trans hle, hlength⟩

/-- A row behind the cut, on its new origin. -/
theorem map_shift {row : List ℕ} {origin bound : ℕ} (hbound : bound < 2 ^ 32)
    (hge : ∀ p ∈ row, origin ≤ p) (hle : ∀ p ∈ row, p ≤ bound) :
    (row.map fun p => (p + 2 ^ 32 - origin) % 2 ^ 32) = row.map (· - origin) := by
  refine List.map_congr_left fun p hp => ?_
  have hp' := hge p hp
  have := hle p hp
  rw [Nat.add_comm p, Nat.add_sub_assoc hp', Nat.add_mod_left, Nat.mod_eq_of_lt (by omega)]

theorem rebase_spans {rebased : TailState} {starts ends : List ℕ} {rest : Option SharedIds}
    (h : rebase tail cut starts ends rest = .ok rebased) :
    rebased.spanStarts = (starts.map fun p => (p + 2 ^ 32 - cut.cutChar) % 2 ^ 32) ∧
      rebased.spanEnds = ends.map fun p => (p + 2 ^ 32 - cut.cutChar) % 2 ^ 32 := by
  unfold rebase at h
  cases rest with
  | none => exact (TailState.build_ok h).2.2
  | some view => exact (TailState.build_ok h).2.2

/-- The spans of the tail behind a seal. -/
theorem wp_sealTail_spans (cut : BoundaryCut) (w : Work) :
    wp (sealTail cut)
      (fun _ w' =>
        w'.sess.tail.spanStarts =
            ((w.sess.tail.spanStarts.drop cut.cutTokens).map fun p =>
              (p + 2 ^ 32 - cut.cutChar) % 2 ^ 32) ∧
          w'.sess.tail.spanEnds =
            (w.sess.tail.spanEnds.drop cut.cutTokens).map fun p =>
              (p + 2 ^ 32 - cut.cutChar) % 2 ^ 32)
      (fun _ _ => True) w := by
  unfold sealTail
  simp only [wp_bind, wp_get, wp_fromExcept]
  refine ⟨?_, fun _ _ => trivial⟩
  rintro ⟨starts, ends, shared⟩ hcheck
  obtain ⟨-, -, rfl, rfl⟩ := checkCut_ok hcheck
  simp only [wp_set, wp_modify]
  exact ⟨fun rebased hrebased => rebase_spans hrebased, fun _ _ => trivial⟩

/-- A session and the one a seal leaves: the same stream and text, and behind the cut the rest of
the tail, on its new origin. No position was before it, and the byte that was found is the end of
the head. -/
structure CleanSeal (cut : BoundaryCut) (s s' : Session) : Prop where
  tokens_pos : 0 < cut.cutTokens
  char_le : cut.cutChar ≤ s.tail.textChars
  starts_ge : ∀ start ∈ s.tail.spanStarts.drop cut.cutTokens, cut.cutChar ≤ start
  ends_ge : ∀ stop ∈ s.tail.spanEnds.drop cut.cutTokens, cut.cutChar ≤ stop
  head_bytes {ε : Type} :
    (strSlice s.tail.text 0 (byteIxOfChar s.tail.text s.tail.textChars cut.cutChar) :
      Decode ε Text) = .ok (s.tail.text.take cut.cutChar)
  rest_bytes {ε : Type} :
    (strFrom s.tail.text (byteIxOfChar s.tail.text s.tail.textChars cut.cutChar) :
      Decode ε Text) = .ok (s.tail.text.drop cut.cutChar)
  safe_byte :
    s'.safeByte = s.safeByte + byteIxOfChar s.tail.text s.tail.textChars cut.cutChar
  allIds_eq : s'.allIds = s.allIds
  text_eq : s'.text = s.text
  tail_ids : s'.tail.ids = s.tail.ids.drop cut.cutTokens
  tail_text : s'.tail.text = s.tail.text.drop cut.cutChar
  tail_starts :
    s'.tail.spanStarts = (s.tail.spanStarts.drop cut.cutTokens).map (· - cut.cutChar)
  tail_ends : s'.tail.spanEnds = (s.tail.spanEnds.drop cut.cutTokens).map (· - cut.cutChar)

/-- A seal at such a cut succeeds. -/
theorem Sealable.sealTail {w : Work} (h : Sealable w.sess.tail cut) :
    ∃ w', (sealTail cut).run w = .ok () w' ∧ CleanSeal cut w.sess w'.sess := by
  obtain ⟨w', hrun⟩ : ∃ w', (StoreCore.sealTail cut).run w = .ok () w' := by
    have hpass := wp_sealTail_passes cut w
    unfold wp at hpass
    cases hrun : (StoreCore.sealTail cut).run w with
    | ok a w' => exact ⟨w', rfl⟩
    | error e w' =>
        rw [hrun] at hpass
        exact absurd h.cutFits hpass
  obtain ⟨hsealed, -⟩ := (wp_sealTail cut w).of_ok hrun
  obtain ⟨hstarts, hends⟩ := (wp_sealTail_spans cut w).of_ok hrun
  have hgroup := Regrouped.of_sealedAt hsealed
  have hbyte := byteIxOfChar_eq w.sess.tail.text cut.cutChar
  have hchars := w.sess.tail.chars_lt
  obtain ⟨hstartsLe, hendsLe⟩ := h.behind_spans
  exact ⟨w', hrun,
    { tokens_pos := h.pos
      char_le := h.char_le
      starts_ge := h.behind
      ends_ge := fun stop hstop => (hendsLe stop hstop).1
      head_bytes := by
        rw [TailState.textChars, hbyte]
        exact strSlice_utf8Len w.sess.tail.text (Nat.zero_le cut.cutChar)
      rest_bytes := by
        rw [TailState.textChars, hbyte]
        exact strFrom_utf8Len _ _
      safe_byte := by rw [TailState.textChars, hbyte, hgroup.safe_byte]
      allIds_eq := hgroup.allIds_eq
      text_eq := hgroup.text_eq
      tail_ids := hsealed.tail_ids
      tail_text := hsealed.tail_text
      tail_starts := by rw [hstarts, map_shift hchars h.behind hstartsLe]
      tail_ends := by
        rw [hends, map_shift hchars (fun stop hstop => (hendsLe stop hstop).1)
          fun stop hstop => (hendsLe stop hstop).2] }⟩

end Seals

end Toktier.StoreCore
