import Toktier.Lib.CharReader
import Toktier.Lib.Decode
import Toktier.Routing.RepairLaws
import Toktier.Routing.RepairPython

/-!
# The two append repairs

The native engine and the Python adapter do the same with every window, but for one kind: ids of
which one stands for no bytes, and whose bytes nevertheless close over the window. The native
engine refuses such an id, and the adapter does not look for it.

## Main definitions

* `GigatokenRepair.Loose`: the windows on which the two differ.
* `GigatokenRepair.Meets`: no such window is tried, or it makes no difference.

## Main results

* `windowEncode_agrees`: one window in the two.
* `append_agrees_iff`: the two appends return the same exactly when they meet.
-/
namespace Toktier.Routing

open Toktier.Lib Toktier.StoreCore

/-! ## Characters of bytes -/

/-- In ASCII text, a byte is a character. -/
theorem charsFrom_isascii {text : Text} (h : Py.isascii text = true) (n : ℕ) :
    charsFrom n text = List.range' n text.length := by
  induction text generalizing n with
  | nil => rfl
  | cons c text ih =>
      obtain ⟨hc, htext⟩ : c.val < 128 ∧ Py.isascii text = true := by
        simpa [Py.isascii] using h
      have hsize : c.utf8Size = 1 := Char.utf8Size_eq_one_iff.mpr (by
        rw [UInt32.le_iff_toNat_le]
        rw [UInt32.lt_iff_toNat_lt] at hc
        exact Nat.le_of_lt_succ hc)
      rw [charsFrom_cons, ih htext, hsize, List.length_cons, List.range'_succ]
      rfl

theorem utf8Len_isascii {text : Text} (h : Py.isascii text = true) : utf8Len text = text.length := by
  rw [← length_charsFrom 0, charsFrom_isascii h, List.length_range']

section Chars

variable {text : Text} {i j : ℕ}

theorem charOfByte_lt {k : ℕ} (h : (charOfByte text)[i]? = some k) : k < text.length := by
  have := mem_charsFrom (n := 0) (List.mem_of_getElem? h)
  omega

theorem exists_charOfByte (h : i < utf8Len text) : ∃ k, (charOfByte text)[i]? = some k :=
  ⟨_, List.getElem?_eq_getElem (by rw [charOfByte]; exact (length_charsFrom 0 text).symm ▸ h)⟩

theorem charOfByte_mono {k l : ℕ} (hij : i ≤ j) (hi : (charOfByte text)[i]? = some k)
    (hj : (charOfByte text)[j]? = some l) : k ≤ l := by
  obtain ⟨hilt, rfl⟩ := List.getElem?_eq_some_iff.mp hi
  obtain ⟨hjlt, rfl⟩ := List.getElem?_eq_some_iff.mp hj
  obtain rfl | hlt := hij.eq_or_lt
  · exact le_rfl
  · exact List.pairwise_iff_getElem.mp (pairwise_charsFrom 0 text) i j hilt hjlt hlt

theorem charOfByte_isascii (h : Py.isascii text = true) (hi : i < text.length) :
    (charOfByte text)[i]? = some i := by
  have hchars : charOfByte text = List.range' 0 text.length := charsFrom_isascii h 0
  rw [hchars, List.getElem?_range' hi, Nat.zero_add, Nat.one_mul]

end Chars

/-! ## Intervals -/

/-- One of the ids stands for no bytes. -/
def HasZero (byteLengths : List ℕ) (ids : List UInt32) : Prop :=
  ∃ id ∈ ids, byteLengths[id.toNat]? = some 0

/-- The intervals lie in order between two bytes, and none is empty. -/
def Tiles (cursor last : ℕ) (rows : List (ℕ × ℕ)) : Prop :=
  rows.Pairwise (fun a b => a.2 ≤ b.1) ∧ ∀ a ∈ rows, cursor ≤ a.1 ∧ a.1 < a.2 ∧ a.2 ≤ last

section Intervals

variable {byteLengths : List ℕ} {cursor last : ℕ} {ids : List UInt32} {rows : List (ℕ × ℕ)}

theorem length_byteIntervals (h : Py.byteIntervals byteLengths cursor ids = .ok (rows, last)) :
    rows.length = ids.length := by
  induction ids generalizing cursor rows with
  | nil =>
      cases h
      rfl
  | cons id ids ih =>
      rw [Py.byteIntervals] at h
      split at h
      · cases h
      · obtain ⟨⟨rows', last'⟩, hrows, h⟩ := bind_eq_ok.mp h
        cases h
        rw [List.length_cons, List.length_cons, ih hrows]

/-- The native engine refuses what the adapter refuses, and ids that stand for no bytes. -/
theorem byteIntervals_agree (byteLengths : List ℕ) (cursor : ℕ) (ids : List UInt32) :
    (∃ m, Py.byteIntervals byteLengths cursor ids = .error (.WindowUnsupported m)) ∧
        (∃ e, byteIntervals byteLengths cursor ids = .error e) ∨
      ∃ rows last, Py.byteIntervals byteLengths cursor ids = .ok (rows, last) ∧
        (HasZero byteLengths ids ∧ (∃ e, byteIntervals byteLengths cursor ids = .error e) ∨
          ¬HasZero byteLengths ids ∧ byteIntervals byteLengths cursor ids = .ok (rows, last) ∧
            cursor ≤ last ∧ Tiles cursor last rows) := by
  induction ids generalizing cursor with
  | nil =>
      exact .inr ⟨[], cursor, rfl, .inr ⟨nofun, rfl, le_rfl, .nil, nofun⟩⟩
  | cons id ids ih =>
      rw [Py.byteIntervals, byteIntervals, tokenByteLength]
      cases hlength : byteLengths[id.toNat]? with
      | none => exact .inl ⟨⟨_, rfl⟩, _, rfl⟩
      | some length =>
          dsimp only
          obtain ⟨⟨m, hpy⟩, e, hrust⟩ | ⟨rows, last, hpy, hrust⟩ := ih (cursor + length)
          · rw [hpy]
            refine .inl ⟨⟨m, rfl⟩, ?_⟩
            split_ifs
            · exact ⟨_, rfl⟩
            · rw [ok_bind, hrust]
              exact ⟨e, rfl⟩
          · rw [hpy]
            refine .inr ⟨_, _, rfl, ?_⟩
            by_cases hzero : length = 0
            · rw [if_pos hzero]
              exact .inl ⟨⟨id, List.mem_cons_self, hzero ▸ hlength⟩, _, rfl⟩
            rw [if_neg hzero, ok_bind]
            obtain ⟨⟨id', hid', hid'0⟩, e, hrust⟩ | ⟨hno, hrust, hle, hpairs, hrows⟩ := hrust
            · rw [hrust]
              exact .inl ⟨⟨id', List.mem_cons_of_mem _ hid', hid'0⟩, e, rfl⟩
            · rw [hrust]
              refine .inr ⟨?_, rfl, by omega, List.pairwise_cons.mpr ⟨?_, hpairs⟩, ?_⟩
              · rintro ⟨id', hid', hid'0⟩
                obtain rfl | hid' := List.mem_cons.mp hid'
                · exact hzero (Option.some.inj (hlength.symm.trans hid'0))
                · exact hno ⟨id', hid', hid'0⟩
              · exact fun a ha => (hrows a ha).1
              · intro a ha
                obtain rfl | ha := List.mem_cons.mp ha
                · dsimp only
                  omega
                · have := hrows a ha
                  omega

/-- The characters that an interval of the text touches. -/
def spanOf (text : Text) (a : ℕ × ℕ) : ℕ × ℕ :=
  (((charOfByte text)[a.1]?).getD 0, ((charOfByte text)[a.2 - 1]?).getD 0 + 1)

/-- An interval that is in the text and not empty stands for the same characters in both. -/
theorem charSpan_agree {text : Text} (hlen : text.length < 2 ^ 32) {a : ℕ × ℕ} (hlt : a.1 < a.2)
    (hle : a.2 ≤ utf8Len text) :
    charSpan (charOfByte text) a = .ok (spanOf text a) ∧
      Py.charSpan (charOfByte text) a = .ok (spanOf text a) := by
  obtain ⟨k, hk⟩ := exists_charOfByte (show a.1 < utf8Len text by omega)
  obtain ⟨l, hl⟩ := exists_charOfByte (show a.2 - 1 < utf8Len text by omega)
  have hklt := charOfByte_lt hk
  have hllt := charOfByte_lt hl
  rw [spanOf, hk, hl]
  constructor
  · rw [charSpan, hk, hl]
    exact if_pos (by omega)
  · have hindex : ((a.2 : ℤ) - 1).toNat = a.2 - 1 := by omega
    rw [Py.charSpan, Py.item, Py.item, if_neg (by omega), if_neg (by omega), Int.toNat_natCast,
      hindex, hk, hl]
    rfl

theorem spanOf_isascii {text : Text} (h : Py.isascii text = true) {a : ℕ × ℕ} (hlt : a.1 < a.2)
    (hle : a.2 ≤ text.length) : spanOf text a = a := by
  rw [spanOf, charOfByte_isascii h (by omega), charOfByte_isascii h (by omega)]
  exact Prod.ext rfl (Nat.sub_add_cancel (by omega))

/-- Spans that do not go back: none begins behind the end of a later one. -/
def Forward (spans : List (ℕ × ℕ)) : Prop :=
  spans.Pairwise (fun a b => a.1 ≤ b.2) ∧ ∀ a ∈ spans, a.1 ≤ a.2

theorem forward_map_spanOf {text : Text} (h : Tiles cursor last rows) (hlast : last ≤ utf8Len text) :
    Forward (rows.map (spanOf text)) := by
  obtain ⟨hpairs, hrows⟩ := h
  have hle {a b : ℕ × ℕ} (ha : a ∈ rows) (hb : b ∈ rows) (hab : a.1 ≤ b.2 - 1) :
      (spanOf text a).1 ≤ (spanOf text b).2 := by
    have hra := hrows a ha
    have hrb := hrows b hb
    obtain ⟨k, hk⟩ := exists_charOfByte (show a.1 < utf8Len text by omega)
    obtain ⟨l, hl⟩ := exists_charOfByte (show b.2 - 1 < utf8Len text by omega)
    have := charOfByte_mono hab hk hl
    rw [spanOf, spanOf, hk, hl]
    exact Nat.le_succ_of_le this
  constructor
  · refine List.pairwise_map.mpr (hpairs.imp_of_mem fun {a b} ha hb hab => hle ha hb ?_)
    have hra := hrows a ha
    have hrb := hrows b hb
    omega
  · intro s hs
    obtain ⟨a, ha, rfl⟩ := List.mem_map.mp hs
    have hra := hrows a ha
    exact hle ha ha (by omega)

end Intervals

/-! ## Windows -/

/-- How the two speak of one window. -/
inductive WindowsAgree (loose : Prop) : Except PyError Encoding → Except EngineError Encoding → Prop
  | refused (m : String) (e : EngineError) (hloose : ¬loose) :
      WindowsAgree loose (.error (.WindowUnsupported m)) (.error e)
  | encoded (window : Encoding) (hlen : window.ids.length = window.spans.length)
      (hforward : Forward window.spans) (hloose : ¬loose) :
      WindowsAgree loose (.ok window) (.ok window)
  | loose {x : Except PyError Encoding} (e : EngineError) (hloose : loose)
      (hx : ∀ m, x ≠ .error (.WindowUnsupported m))
      (hlen : ∀ window, x = .ok window → window.ids.length = window.spans.length) :
      WindowsAgree loose x (.error e)

/-- The bytes of the ids close over the text, and yet one of them stands for none. -/
def LooseIds (byteLengths : List ℕ) (ids : List UInt32) (text : Text) : Prop :=
  HasZero byteLengths ids ∧ ∃ rows, Py.byteIntervals byteLengths 0 ids = .ok (rows, utf8Len text)

/-- The native engine refuses the window for an id that the adapter does not look for. -/
def GigatokenRepair.Loose (g : GigatokenRepair) (text : Text) : Prop :=
  g.requireByteIdentity text = .ok () ∧ LooseIds g.byteLengths (g.engine text) text

section Windows

variable {g : GigatokenRepair} {byteLengths : List ℕ} {ids : List UInt32} {text : Text}

theorem item_ne_unsupported {α : Type} {xs : List α} {index : ℤ} {m : String} :
    Py.item xs index ≠ .error (.WindowUnsupported m) := by
  unfold Py.item
  split <;> exact nofun

/-- An index that is out of range is no refusal of the window. -/
theorem mapM_ne_unsupported {chars : List ℕ} {rows : List (ℕ × ℕ)} {m : String} :
    rows.mapM (Py.charSpan chars) ≠ .error (.WindowUnsupported m) := by
  induction rows with
  | nil => exact nofun
  | cons a rows ih =>
      rw [List.mapM_cons]
      intro h
      cases hstart : Py.item chars a.1 with
      | error e =>
          rw [Py.charSpan, hstart] at h
          exact item_ne_unsupported (hstart.trans (congrArg Except.error (Except.error.inj h)))
      | ok start =>
          cases hlast : Py.item chars (a.2 - 1) with
          | error e =>
              rw [Py.charSpan, hstart, ok_bind, hlast] at h
              exact item_ne_unsupported (hlast.trans (congrArg Except.error (Except.error.inj h)))
          | ok last =>
              rw [Py.charSpan, hstart, ok_bind, hlast, ok_bind, ok_bind] at h
              cases hrows : rows.mapM (Py.charSpan chars) with
              | error e =>
                  rw [hrows] at h
                  exact ih (hrows.trans (congrArg Except.error (Except.error.inj h)))
              | ok spans =>
                  rw [hrows] at h
                  cases h

/-- The spans of one row of ids, in the two. -/
theorem spansFromIds_agree (hlen : text.length < 2 ^ 32) :
    WindowsAgree (LooseIds byteLengths ids text)
      ((Py.spansFromIds ids byteLengths text).map (Encoding.mk ids))
      ((spansFromIds ids byteLengths text).map (Encoding.mk ids)) := by
  unfold Py.spansFromIds spansFromIds
  by_cases hids : ids = []
  · rw [if_pos hids, if_pos hids]
    have hloose : ¬LooseIds byteLengths ids text := by
      rintro ⟨⟨id, hid, -⟩, -⟩
      rw [hids] at hid
      cases hid
    by_cases htext : text = []
    · rw [if_pos htext, if_pos htext]
      exact .encoded ⟨ids, []⟩ (congrArg List.length hids) ⟨.nil, nofun⟩ hloose
    · rw [if_neg htext, if_neg htext]
      exact .refused _ _ hloose
  rw [if_neg hids, if_neg hids]
  obtain ⟨⟨m, hpy⟩, e, hrust⟩ | ⟨rows, last, hpy, hrust⟩ := byteIntervals_agree byteLengths 0 ids
  · rw [hpy, hrust]
    exact .refused _ _ fun ⟨_, rows, hrows⟩ => by cases hpy.symm.trans hrows
  have hopen (hclose : last ≠ utf8Len text) : ¬LooseIds byteLengths ids text := by
    rintro ⟨-, rows', hrows⟩
    cases hpy.symm.trans hrows
    exact hclose rfl
  rw [hpy]
  simp only [ok_bind]
  obtain ⟨hzero, e, hrust⟩ | ⟨hno, hrust, -, htiles⟩ := hrust
  · rw [hrust]
    by_cases hclose : last = utf8Len text
    · rw [if_neg (not_not.mpr hclose)]
      have hlength := length_byteIntervals hpy
      split_ifs with hascii
      · refine .loose _ ⟨hzero, rows, hclose ▸ hpy⟩ nofun fun window h => ?_
        cases h
        exact hlength.symm
      · cases hspans : rows.mapM (Py.charSpan (charOfByte text)) with
        | error e =>
            refine .loose _ ⟨hzero, rows, hclose ▸ hpy⟩ (fun m h => ?_) nofun
            exact mapM_ne_unsupported (hspans.trans (congrArg Except.error (Except.error.inj h)))
        | ok spans =>
            refine .loose _ ⟨hzero, rows, hclose ▸ hpy⟩ nofun fun window h => ?_
            cases h
            exact hlength.symm.trans (mapM_eq_ok hspans).length_eq
    · rw [if_pos hclose]
      exact .refused _ _ (hopen hclose)
  · rw [hrust]
    simp only [ok_bind]
    by_cases hclose : last = utf8Len text
    · rw [if_neg (not_not.mpr hclose), if_neg (not_not.mpr hclose)]
      have hspan (a : ℕ × ℕ) (ha : a ∈ rows) := charSpan_agree hlen (htiles.2 a ha).2.1
        (hclose ▸ (htiles.2 a ha).2.2)
      have hpyspans : (if Py.isascii text = true then Except.ok rows
          else rows.mapM (Py.charSpan (charOfByte text))) = .ok (rows.map (spanOf text)) := by
        split_ifs with hascii
        · have hsame : rows.map (spanOf text) = rows.map id := List.map_congr_left fun a ha =>
            spanOf_isascii hascii (htiles.2 a ha).2.1
              (utf8Len_isascii hascii ▸ hclose ▸ (htiles.2 a ha).2.2)
          rw [hsame, List.map_id]
        · exact mapM_ok fun a ha => (hspan a ha).2
      rw [hpyspans, mapM_ok fun a ha => (hspan a ha).1]
      refine .encoded _ ?_ (forward_map_spanOf htiles hclose.le) fun h => hno h.1
      rw [List.length_map, length_byteIntervals hpy]
    · rw [if_pos hclose, if_pos hclose]
      exact .refused _ _ (hopen hclose)

theorem requireByteIdentity_agree (g : GigatokenRepair) (text : Text) :
    (g.requireByteIdentity text = .ok () ∧ g.native.requireByteIdentity text = .ok ()) ∨
      (∃ m, g.requireByteIdentity text = .error (.WindowUnsupported m)) ∧
        ∃ e, g.native.requireByteIdentity text = .error e := by
  unfold GigatokenRepair.requireByteIdentity FastCpuEngine.requireByteIdentity
  have hiff : g.native.spec.hasNormalizer = g.normalizer.isSome := g.normalizer_iff
  have hnormalize : g.native.reference.normalize text = .ok ((g.normalizer.getD id) text) := rfl
  rw [hiff, hnormalize, ok_bind]
  cases g.normalizer with
  | none => exact .inl ⟨rfl, if_neg nofun⟩
  | some normalize =>
      dsimp only [Option.isSome_some, Option.getD_some]
      by_cases hascii : Py.isascii text = true
      · rw [if_neg fun h => h.1 hascii, if_neg fun h => h.2 hascii]
        exact .inl ⟨rfl, rfl⟩
      · rw [if_pos (c := true = true ∧ ¬text.all (fun c => c.val < 128) = true) ⟨rfl, hascii⟩]
        by_cases hsame : normalize text = text
        · rw [if_neg fun h => h.2 hsame, if_neg (not_not.mpr hsame)]
          exact .inl ⟨rfl, rfl⟩
        · rw [if_pos ⟨hascii, hsame⟩, if_pos hsame]
          exact .inr ⟨⟨_, rfl⟩, _, rfl⟩

theorem bind_ok_eq_map {ε α β : Type} (x : Except ε α) (f : α → β) :
    (x >>= fun a => .ok (f a)) = x.map f := by
  cases x <;> rfl

/-- One window, in the two. -/
theorem windowEncode_agrees (hlen : text.length < 2 ^ 32) :
    WindowsAgree (g.Loose text) (g.windowEncode text) (g.native.windowEncoding text) := by
  have hspans : WindowsAgree (LooseIds g.byteLengths (g.engine text) text) _ _ :=
    spansFromIds_agree hlen
  have hrust : g.native.reference.rawByteLengths = .ok g.byteLengths := rfl
  unfold GigatokenRepair.windowEncode FastCpuEngine.windowEncoding
  obtain ⟨hpy, hrust'⟩ | ⟨⟨m, hpy⟩, e, hrust'⟩ := requireByteIdentity_agree g text
  · rw [hpy, hrust', hrust]
    simp only [ok_bind]
    have hloose : g.Loose text ↔ LooseIds g.byteLengths (g.engine text) text :=
      ⟨And.right, fun h => ⟨hpy, h⟩⟩
    rw [propext hloose, bind_ok_eq_map, bind_ok_eq_map]
    exact hspans
  · rw [hpy, hrust']
    exact .refused _ _ fun h => by cases hpy.symm.trans h.1

end Windows

/-! ## The common run -/

/-- Records that do not go back. -/
def RunsForward (records : List Record) : Prop :=
  records.Pairwise (fun a b => a.globalStart ≤ b.globalEnd) ∧
    ∀ r ∈ records, r.globalStart ≤ r.globalEnd

section Records

variable {base overlapStart overlapEnd : ℕ}

/-- A dictionary of counts holds how often a span was seen. -/
theorem recordsFrom_agree (rows : List (UInt32 × ℕ × ℕ)) (index : ℕ) (seen : List (ℕ × ℕ))
    (ordinals : ℕ × ℕ → ℕ) (h : ∀ key, ordinals key = seen.count key) :
    Py.recordsFrom base overlapStart overlapEnd index ordinals rows =
      recordsFrom base overlapStart overlapEnd index seen rows := by
  induction rows generalizing index seen ordinals with
  | nil => rfl
  | cons row rows ih =>
      obtain ⟨id, start, stop⟩ := row
      rw [Py.recordsFrom, recordsFrom]
      split_ifs with hskip
      · exact ih _ _ _ h
      · rw [h, ih (index + 1) (seen ++ [(base + start, base + stop)]) _ fun key => ?_]
        rw [List.count_append, List.count_singleton]
        by_cases heq : key = (base + start, base + stop)
        · subst heq
          rw [Function.update_self, beq_self_eq_true, if_pos rfl]
        · rw [Function.update_of_ne heq, h,
            if_neg (by simpa using fun hsame => heq hsame.symm), Nat.add_zero]

theorem buildRecords_agree (base overlapStart overlapEnd : ℕ) {ids : List UInt32}
    {spans : List (ℕ × ℕ)} (hlen : ids.length = spans.length) :
    Py.buildRecords ids spans base overlapStart overlapEnd =
        .ok (recordsFrom base overlapStart overlapEnd 0 [] (ids.zip spans)) ∧
      buildRecords ids spans base overlapStart overlapEnd =
        .ok (recordsFrom base overlapStart overlapEnd 0 [] (ids.zip spans)) := by
  unfold Py.buildRecords buildRecords
  rw [if_neg (not_not.mpr hlen), if_neg (not_not.mpr hlen),
    recordsFrom_agree _ 0 [] (fun _ => 0) fun _ => rfl]
  exact ⟨rfl, rfl⟩

theorem runsForward_recordsFrom (base overlapStart overlapEnd : ℕ) {rows : List (UInt32 × ℕ × ℕ)}
    (index : ℕ) (seen : List (ℕ × ℕ)) (h : Forward (rows.map Prod.snd)) :
    RunsForward (recordsFrom base overlapStart overlapEnd index seen rows) := by
  have hmem {rows : List (UInt32 × ℕ × ℕ)} {index : ℕ} {seen : List (ℕ × ℕ)} {r : Record}
      (hr : r ∈ recordsFrom base overlapStart overlapEnd index seen rows) :
      ∃ s ∈ rows.map Prod.snd, r.globalStart = base + s.1 ∧ r.globalEnd = base + s.2 := by
    obtain ⟨k, s, e, hk, -, hs, he, -⟩ := mem_recordsFrom hr
    exact ⟨(s, e), List.mem_map_of_mem (List.mem_of_getElem? hk), hs, he⟩
  constructor
  · induction rows generalizing index seen with
    | nil => exact .nil
    | cons row rows ih =>
        obtain ⟨id, start, stop⟩ := row
        obtain ⟨hpairs, hrows⟩ := h
        obtain ⟨hhead, hpairs⟩ := List.pairwise_cons.mp hpairs
        have hrest : Forward (rows.map Prod.snd) :=
          ⟨hpairs, fun a ha => hrows a (List.mem_cons_of_mem _ ha)⟩
        rw [recordsFrom]
        split_ifs
        · exact ih _ _ hrest
        · refine List.pairwise_cons.mpr ⟨fun r hr => ?_, ih _ _ hrest⟩
          obtain ⟨s, hs, -, hend⟩ := hmem hr
          have := hhead s hs
          dsimp only at this ⊢
          omega
  · intro r hr
    obtain ⟨s, hs, hstart, hend⟩ := hmem hr
    have := h.2 s hs
    omega

end Records

section Search

variable {left right : List Record} {l r : Record × ℕ}

/-- A run does not end before it begins, as the window's records do not go back. -/
theorem start_le_runEnd (hright : RunsForward right) (hl : left[l.2]? = some l.1)
    (hr : right[r.2]? = some r.1) (hkey : recordKey r.1 = recordKey l.1) :
    l.1.globalStart ≤ runEnd left (l.2 +
      runLength l.1 r.1 1 (left.drop (l.2 + 1)) (right.drop (r.2 + 1)) - 1) := by
  have hpos := le_runLength l.1 r.1 1 (left.drop (l.2 + 1)) (right.drop (r.2 + 1))
  have hpairs {k : ℕ} (hk : 1 ≤ k) (hlt : k < runLength l.1 r.1 1 (left.drop (l.2 + 1))
      (right.drop (r.2 + 1))) := runLength_get l.1 r.1 hk hlt
  obtain ⟨hstart, hend, -⟩ : r.1.globalStart = l.1.globalStart ∧ r.1.globalEnd = l.1.globalEnd ∧
      (r.1.sameSpanOrdinal, r.1.tokenId) = (l.1.sameSpanOrdinal, l.1.tokenId) := by
    simpa [recordKey] using hkey
  generalize runLength l.1 r.1 1 (left.drop (l.2 + 1)) (right.drop (r.2 + 1)) = length at *
  obtain rfl | hlong := hpos.eq_or_lt
  · rw [Nat.add_sub_cancel, runEnd, hl, Option.map_some, Option.getD_some, ← hend, ← hstart]
    exact hright.2 r.1 (List.mem_of_getElem? hr)
  · obtain ⟨l', r', hl', hr', -, -, hkey'⟩ :=
      hpairs (k := length - 1) (by omega) (by omega)
    rw [List.getElem?_drop] at hl' hr'
    have hlast : l.2 + length - 1 = l.2 + 1 + (length - 1 - 1) := by omega
    have hend' : l'.globalEnd = r'.globalEnd := congrArg (fun key => key.2.1) hkey'
    rw [runEnd, hlast, hl', Option.map_some, Option.getD_some, ← hstart, hend']
    obtain ⟨hrlt, hreq⟩ := List.getElem?_eq_some_iff.mp hr
    obtain ⟨hrlt', hreq'⟩ := List.getElem?_eq_some_iff.mp hr'
    have := List.pairwise_iff_getElem.mp hright.1 r.2 _ hrlt hrlt' (by omega)
    rwa [hreq, hreq'] at this

/-- The native engine's match, as the adapter has it. -/
def Match.toPy (m : Match) : Py.Match := ⟨m.leftStart, m.rightStart, m.length, m.coveredChars⟩

def MatchSearch.toPy (st : MatchSearch) : Py.MatchSearch := ⟨st.best.map Match.toPy, st.covered⟩

theorem tryPair_agree (hright : RunsForward right) (hl : left[l.2]? = some l.1)
    (hr : right[r.2]? = some r.1) (hkey : recordKey r.1 = recordKey l.1) (st : MatchSearch) :
    Py.MatchSearch.tryPair left right l st.toPy r = (st.tryPair left right l r).toPy := by
  have hle := start_le_runEnd hright hl hr hkey
  unfold Py.MatchSearch.tryPair MatchSearch.tryPair
  have hcovered : st.toPy.covered = st.covered := rfl
  have hbest : st.toPy.best = st.best.map Match.toPy := rfl
  rw [hcovered, hbest]
  split_ifs with hcov
  · rfl
  · dsimp only
    generalize runLength l.1 r.1 1 (left.drop (l.2 + 1)) (right.drop (r.2 + 1)) = length at *
    rw [← Nat.cast_sub hle]
    cases st.best with
    | none => rfl
    | some current =>
        simp only [Option.map_some, Match.toPy, Nat.cast_lt]
        split_ifs <;> rfl

/-- Two folds whose steps correspond on the elements that are met. -/
theorem foldl_toPy {α : Type} {f : MatchSearch → α → MatchSearch}
    {g : Py.MatchSearch → α → Py.MatchSearch} (xs : List α) (st : MatchSearch)
    (h : ∀ st, ∀ x ∈ xs, g st.toPy x = (f st x).toPy) :
    xs.foldl g st.toPy = (xs.foldl f st).toPy := by
  induction xs generalizing st with
  | nil => rfl
  | cons x xs ih =>
      rw [List.foldl_cons, List.foldl_cons, h st x List.mem_cons_self]
      exact ih _ fun st y hy => h st y (List.mem_cons_of_mem x hy)

theorem findMatch_agree (left : List Record) (hright : RunsForward right) :
    Py.findMatch left right = (findMatch left right).map Match.toPy := by
  have hfold : left.zipIdx.foldl (fun st l =>
        (right.zipIdx.filter fun r => recordKey r.1 = recordKey l.1).foldl
          (Py.MatchSearch.tryPair left right l) st) (MatchSearch.toPy ⟨none, []⟩) =
      (left.zipIdx.foldl (fun st l =>
        (right.zipIdx.filter fun r => recordKey r.1 = recordKey l.1).foldl
          (MatchSearch.tryPair left right l) st) ⟨none, []⟩).toPy := by
    refine foldl_toPy _ _ fun st l hl => foldl_toPy _ _ fun st r hr => ?_
    obtain ⟨hr, hkey⟩ := List.mem_filter.mp hr
    exact tryPair_agree hright (List.mem_zipIdx_iff_getElem?.mp hl)
      (List.mem_zipIdx_iff_getElem?.mp hr) (of_decide_eq_true hkey) st
  exact congrArg Py.MatchSearch.best hfold

end Search

/-! ## Acceptance -/

section Accepted

variable {g : GigatokenRepair} {tail : TailState} {full : Text} {window : Encoding}
  {start overlapStart : ℕ} {left right : List Record} {m : Match}

theorem syncs_eq (g : GigatokenRepair) (previous current : Char) :
    g.syncs previous current = g.native.boundary.accepts previous current := by
  unfold GigatokenRepair.syncs BpeSyncBoundary.accepts
  have hset (pair : CharClass × CharClass) :
      Py.SYNC.contains pair = BpeSyncBoundary.inSet pair := by
    obtain ⟨x, y⟩ := pair
    cases x <;> cases y <;> rfl
  have hbreak : ['\r', '\n'].contains current = (current == '\r' || current == '\n') := by
    rw [Bool.eq_iff_iff]
    simp
  dsimp only
  rw [hset, hbreak]
  rfl

theorem hasSyncWitness_agree (g : GigatokenRepair) (m : Match) (spans : List (ℕ × ℕ))
    (text : Text) :
    g.hasSyncWitness m.toPy spans text = g.native.hasSyncWitness m spans text := by
  unfold GigatokenRepair.hasSyncWitness FastCpuEngine.hasSyncWitness
  refine congrArg (List.any _) (funext fun index => ?_)
  cases spans[index + 1]? with
  | none => rfl
  | some span =>
      dsimp only
      have hiff : ¬(0 < span.1 ∧ span.1 < text.length) ↔ span.1 = 0 ∨ span.1 ≥ text.length := by
        omega
      by_cases hedge : span.1 = 0 ∨ span.1 ≥ text.length
      · rw [if_pos (hiff.mpr hedge), if_pos hedge]
      · rw [if_neg fun h => hedge (hiff.mp h), if_neg hedge]
        cases text[span.1 - 1]? with
        | none => rfl
        | some previous =>
            cases text[span.1]? with
            | none => rfl
            | some current => exact syncs_eq g previous current

/-- The characters of a run, as the tail's spans name them. -/
theorem Run.slice (hrun : Run left right m)
    (hleft : buildRecords tail.ids tail.spans 0 overlapStart tail.textChars = .ok left)
    (hright : buildRecords window.ids window.spans start overlapStart tail.textChars = .ok right)
    (hforward : Forward window.spans) :
    ∃ first last, tail.spans[m.leftStart]? = some first ∧
      tail.spans[m.leftStart + m.length - 1]? = some last ∧ first.1 ≤ last.2 ∧
        last.2 ≤ tail.textChars := by
  have hpos := hrun.length_pos
  obtain ⟨-, s, e, -, hfirst, -, hfirst', -, -⟩ := hrun.token hleft hright 0 hpos
  obtain ⟨-, s', e', -, hlast, -, hlast', -, hle⟩ :=
    hrun.token hleft hright (m.length - 1) (by omega)
  have hindex : m.leftStart + (m.length - 1) = m.leftStart + m.length - 1 := by omega
  refine ⟨_, _, hfirst, hindex ▸ hlast, ?_, hle⟩
  obtain ⟨hlt, heq⟩ := List.getElem?_eq_some_iff.mp hfirst'
  obtain ⟨hlt', heq'⟩ := List.getElem?_eq_some_iff.mp hlast'
  have hse : s ≤ e' := by
    by_cases hone : m.length = 1
    · have hsame : (s, e) = (s', e') := by
        rw [← heq, ← heq']
        congr 1
        omega
      have := hforward.2 (s, e) (List.mem_of_getElem? hfirst')
      rw [hsame] at this
      have hs : s = s' := congrArg Prod.fst hsame
      omega
    · have := List.pairwise_iff_getElem.mp hforward.1 _ _ hlt hlt' (by omega)
      rwa [heq, heq'] at this
  dsimp only
  omega

theorem accepted_agree (hrun : Run left right m)
    (hleft : buildRecords tail.ids tail.spans 0 overlapStart tail.textChars = .ok left)
    (hright : buildRecords window.ids window.spans start overlapStart tail.textChars = .ok right)
    (hforward : Forward window.spans) (hfull : tail.textChars ≤ full.length) :
    g.accepted m.toPy tail.spans full = g.native.accepted m tail.spans full := by
  obtain ⟨first, last, hfirst, hlast, hle, hend⟩ := hrun.slice hleft hright hforward
  unfold GigatokenRepair.accepted FastCpuEngine.accepted
  have hspec : g.native.spec = g.spec := rfl
  have hlength : m.toPy.length = m.length := rfl
  rw [hspec, hlength, hasSyncWitness_agree]
  split_ifs
  · rfl
  have hcovered : ∃ n : ℕ, g.native.coveredChars m tail.spans full = some n ∧
      g.coveredChars m.toPy tail.spans full = n := by
    unfold GigatokenRepair.coveredChars FastCpuEngine.coveredChars
    have hiff : g.native.spec.hasNormalizer = g.normalizer.isSome := g.normalizer_iff
    have hstart : m.toPy.leftStart = m.leftStart := rfl
    rw [hiff, hstart, hlength, hfirst, hlast]
    cases hn : g.normalizer with
    | none => exact ⟨_, rfl, rfl⟩
    | some normalize =>
        have hslice : sliceChars full first.1 last.2 = some ((full.take last.2).drop first.1) := by
          rw [sliceChars, if_neg (by omega), if_neg (by omega)]
        have hnormalize (text : Text) : g.native.reference.normalize text = .ok (normalize text) := by
          change Except.ok ((g.normalizer.getD id) text) = _
          rw [hn]
          rfl
        refine ⟨(normalize ((full.take last.2).drop first.1)).length, ?_, rfl⟩
        rw [Option.isSome_some, if_pos rfl]
        dsimp only
        rw [hslice]
        dsimp only
        rw [hnormalize]
  obtain ⟨n, hrust, hpy⟩ := hcovered
  rw [hrust, hpy]
  simp only [gt_iff_lt, Nat.cast_lt]

end Accepted

/-! ## One window -/

namespace GigatokenRepair

variable (g : GigatokenRepair) (tail : TailState) (full : Text)

/-- What the adapter does with one window of the tail. -/
def tryTail (window : ℕ) : Except PyError (Option PyAppended) :=
  g.tryWindow tail.ids tail.spans tail.textChars full window

/-- The append after a run of the tail and of a window. -/
def joined (start : ℕ) (window : Encoding) (m : Match) : PyAppended where
  ids := (FastCpuEngine.join tail window start m).ids
  spans := (FastCpuEngine.join tail window start m).spans
  keptTokens := m.leftStart + m.length
  path := "gigatoken_repair"

/-- How the two deal with one window of the tail. -/
inductive TriesAgree (window : ℕ) : Prop
  | refused (m : String) (e : EngineError)
      (hpy : g.tryTail tail full window = .error (.WindowUnsupported m))
      (hrust : g.native.windowEncoding (full.drop (tail.textChars - window)) = .error e)
      (hloose : ¬g.Loose (full.drop (tail.textChars - window)))
  | tried (encoded : Encoding) (found : Option Match)
      (hpy : g.tryTail tail full window =
        .ok (found.map (joined tail (tail.textChars - window) encoded)))
      (hrust : g.native.windowEncoding (full.drop (tail.textChars - window)) = .ok encoded)
      (hfound : g.native.usableMatch tail full (tail.textChars - window) encoded = .ok found)
      (hloose : ¬g.Loose (full.drop (tail.textChars - window)))
  | loose (e : EngineError)
      (hpy : ∀ m, g.tryTail tail full window ≠ .error (.WindowUnsupported m))
      (hrust : g.native.windowEncoding (full.drop (tail.textChars - window)) = .error e)
      (hloose : g.Loose (full.drop (tail.textChars - window)))

variable {g : GigatokenRepair} {tail : TailState} {full : Text} {window : ℕ}

theorem length_ids_tail (tail : TailState) : tail.ids.length = tail.spans.length := by
  rw [TailState.spans, List.length_zip, tail.starts_length, tail.ends_length, Nat.min_self]
  rfl

/-- In a window that both encode, both use the same run. -/
theorem tryTail_encoded {encoded : Encoding}
    (hpy : g.windowEncode (full.drop (tail.textChars - window)) = .ok encoded)
    (hids : encoded.ids.length = encoded.spans.length) (hforward : Forward encoded.spans)
    (hfull : tail.textChars ≤ full.length) :
    ∃ found : Option Match,
      g.tryTail tail full window =
        .ok (found.map (joined tail (tail.textChars - window) encoded)) ∧
      g.native.usableMatch tail full (tail.textChars - window) encoded = .ok found := by
  have hleft := buildRecords_agree 0 (tail.textChars - window + g.spec.margin) tail.textChars
    (length_ids_tail tail)
  have hright := buildRecords_agree (tail.textChars - window)
    (tail.textChars - window + g.spec.margin) tail.textChars hids
  have hrecords := runsForward_recordsFrom (tail.textChars - window)
    (tail.textChars - window + g.spec.margin) tail.textChars 0 []
    ((List.map_snd_zip hids.ge).symm ▸ hforward)
  have hspec : g.native.spec = g.spec := rfl
  unfold tryTail tryWindow FastCpuEngine.usableMatch
  dsimp only
  rw [hpy, ok_bind, hspec, hleft.1, ok_bind, hright.1, ok_bind, findMatch_agree _ hrecords, hleft.2, ok_bind, hright.2,
    ok_bind]
  cases hfind : findMatch _ _ with
  | none => exact ⟨none, rfl, rfl⟩
  | some m =>
      have haccepted := accepted_agree (g := g) (findMatch_run hfind) hleft.2 hright.2 hforward hfull
      dsimp only [Option.map_some]
      rw [haccepted]
      by_cases h : g.native.accepted m tail.spans full = true
      · rw [if_pos h, if_pos h]
        exact ⟨some m, rfl, rfl⟩
      · rw [if_neg h, if_neg h]
        exact ⟨none, rfl, rfl⟩

theorem triesAgree (hlen : full.length < 2 ^ 32) (hfull : tail.textChars ≤ full.length) :
    TriesAgree g tail full window := by
  have htext : (full.drop (tail.textChars - window)).length < 2 ^ 32 := by
    rw [List.length_drop]
    omega
  have hwindow := windowEncode_agrees (g := g) htext
  have hleft := buildRecords_agree 0 (tail.textChars - window + g.spec.margin) tail.textChars
    (length_ids_tail tail)
  generalize hpy : g.windowEncode (full.drop (tail.textChars - window)) = x at hwindow
  generalize hrust : g.native.windowEncoding (full.drop (tail.textChars - window)) = y at hwindow
  cases hwindow with
  | refused m e hloose =>
      refine .refused m e ?_ hrust hloose
      rw [tryTail, tryWindow, hpy]
      rfl
  | encoded encoded hids hforward hloose =>
      obtain ⟨found, htry, hfound⟩ := tryTail_encoded hpy hids hforward hfull
      exact .tried encoded found htry hrust hfound hloose
  | loose e hloose hx hids =>
      refine .loose e (fun m h => ?_) hrust hloose
      rw [tryTail, tryWindow, hpy] at h
      cases x with
      | error e => exact hx m (congrArg Except.error (Except.error.inj h))
      | ok encoded =>
          rw [ok_bind] at h
          dsimp only at h
          rw [hleft.1, ok_bind, (buildRecords_agree _ _ _ (hids encoded rfl)).1, ok_bind] at h
          split at h
          · cases h
          · split_ifs at h

/-! ## Outcomes -/

/-- What a session makes of an outcome of the adapter. -/
def fit (full : Text) (x : Except PyError PyAppended) : Option PyAppended :=
  x.toOption.filter fun a => (TailState.fill full ⟨a.ids, a.spans⟩).isOk

theorem ok_of_fit {full : Text} {x : Except PyError PyAppended} {a : PyAppended}
    (h : fit full x = some a) : x = .ok a := by
  obtain ⟨hx, -⟩ := Option.filter_eq_some_iff.mp h
  cases x with
  | error e => cases hx
  | ok b => exact congrArg Except.ok (Option.some.inj hx)

theorem append_eq (g : GigatokenRepair) (tail : TailState) (delta : Text) :
    g.append tail delta =
      fit (tail.text ++ delta) (g.call tail.text tail.ids tail.spans delta) := rfl

/-- The native engine fills its tail itself. -/
theorem fit_ok (full : Text) (a : PyAppended) (bytes : Option ℕ) :
    fit full (.ok a) = (do
      let filled ← FastCpuEngine.fill full ⟨a.ids, a.spans⟩
      Except.ok (⟨⟨a.path, a.keptTokens⟩, filled, bytes⟩ :
        FastCpuEngine.Appended)).toOption.map FastCpuEngine.Appended.result := by
  unfold fit
  cases hfill : TailState.fill full ⟨a.ids, a.spans⟩ with
  | error e =>
      have hrust : FastCpuEngine.fill full ⟨a.ids, a.spans⟩ = .error (FastCpuEngine.fillError e) := by
        rw [FastCpuEngine.fill, hfill]
        rfl
      rw [hrust, Except.toOption, Option.filter_some, if_neg (by rw [hfill]; exact nofun)]
      rfl
  | ok filled =>
      have hrust : FastCpuEngine.fill full ⟨a.ids, a.spans⟩ = .ok filled := by
        rw [FastCpuEngine.fill, hfill]
        rfl
      obtain ⟨-, hids, hspans⟩ := fill_ok hrust
      rw [hrust, Except.toOption, Option.filter_some, if_pos (by rw [hfill]; rfl), ok_bind,
        Except.toOption, Option.map_some, FastCpuEngine.Appended.result, hids, hspans]

theorem fit_referenceFull (g : GigatokenRepair) (full : Text) (reason : String) :
    fit full (g.referenceFull full reason) =
      (g.native.fullReencode full ("hf_full_" ++ reason)).toOption.map
        FastCpuEngine.Appended.result := by
  have hreference : g.native.reference.encodeCore = g.referenceEncode := rfl
  unfold referenceFull FastCpuEngine.fullReencode
  rw [hreference]
  cases g.referenceEncode full with
  | error e => rfl
  | ok encoded => exact fit_ok full ⟨encoded.ids, encoded.spans, 0, "hf_full_" ++ reason⟩ none

/-! ## The loops -/

variable (g tail full)

/-- After a window that it has not used, the adapter comes to one that it refuses. -/
def GuardAhead : ℕ → ℕ → Prop
  | 0, _ => False
  | retries + 1, window =>
      g.tryTail tail full window = .ok none ∧ window * 2 < tail.textChars ∧
        ((∃ m, g.tryTail tail full (window * 2) = .error (.WindowUnsupported m)) ∨
          GuardAhead retries (window * 2))

/-- From this window on, the adapter uses none whose rows a tail takes. -/
def Unused : ℕ → ℕ → Prop
  | 0, window =>
      tail.textChars ≤ window ∨
        ∀ a, g.tryTail tail full window = .ok (some a) → fit full (.ok a) = none
  | retries + 1, window =>
      tail.textChars ≤ window ∨
        (∀ a, g.tryTail tail full window = .ok (some a) → fit full (.ok a) = none) ∧
          (g.tryTail tail full window = .ok none → Unused retries (window * 2))

/-- The reference does not encode the whole text, or not so that a tail takes it. -/
def NoReference : Prop :=
  ∀ encoded, g.referenceEncode full = .ok encoded → (TailState.fill full encoded).isOk = false

/-- The adapter ends at the guard from a loose window on, where the native engine is; or both have
nothing to return. -/
def EndsAlike (retries window : ℕ) : Prop :=
  GuardAhead g tail full retries window ∨
    NoReference g full ∧ Unused g tail full retries window

/-- No window that is tried is a loose one; or, where one is, the adapter ends as the native engine
does. -/
def Meets : ℕ → ℕ → Prop
  | 0, window =>
      tail.textChars ≤ window ∨ ¬g.Loose (full.drop (tail.textChars - window)) ∨
        EndsAlike g tail full 0 window
  | retries + 1, window =>
      tail.textChars ≤ window ∨
        g.Loose (full.drop (tail.textChars - window)) ∧
          EndsAlike g tail full (retries + 1) window ∨
        ¬g.Loose (full.drop (tail.textChars - window)) ∧
          (g.tryTail tail full window = .ok none → Meets retries (window * 2))

/-- The adapter's loop on a tail. -/
abbrev tailLoop (retries window : ℕ) : Except PyError PyAppended :=
  g.repairLoop tail.ids tail.spans tail.textChars full retries window

variable {g tail full}

theorem tailLoop_of_le {retries : ℕ} (h : tail.textChars ≤ window) :
    g.tailLoop tail full retries window = g.referenceFull full "window_covers_all" := by
  unfold tailLoop repairLoop
  exact if_neg (by omega)

section Loop

variable {retries : ℕ} (hlt : window < tail.textChars)

include hlt

theorem tailLoop_refused {m : String}
    (h : g.tryTail tail full window = .error (.WindowUnsupported m)) :
    g.tailLoop tail full retries window = g.referenceFull full "engine_guard" := by
  unfold tryTail at h
  unfold tailLoop repairLoop
  rw [if_pos hlt, h]

theorem tailLoop_raised {e : PyError} (h : g.tryTail tail full window = .error e)
    (hne : ∀ m, e ≠ .WindowUnsupported m) : g.tailLoop tail full retries window = .error e := by
  unfold tryTail at h
  unfold tailLoop repairLoop
  rw [if_pos hlt, h]
  cases e with
  | WindowUnsupported m => exact absurd rfl (hne m)
  | IndexError => rfl
  | Reference e => rfl

theorem tailLoop_used {a : PyAppended} (h : g.tryTail tail full window = .ok (some a)) :
    g.tailLoop tail full retries window = .ok a := by
  unfold tryTail at h
  unfold tailLoop repairLoop
  rw [if_pos hlt, h]

theorem tailLoop_zero (h : g.tryTail tail full window = .ok none) :
    g.tailLoop tail full 0 window = g.referenceFull full "no_safe_cut" := by
  unfold tryTail at h
  unfold tailLoop repairLoop
  rw [if_pos hlt, h]

theorem tailLoop_succ (h : g.tryTail tail full window = .ok none) :
    g.tailLoop tail full (retries + 1) window = g.tailLoop tail full retries (window * 2) := by
  unfold tryTail at h
  unfold tailLoop
  rw [repairLoop, if_pos hlt, h]

end Loop

/-- The guard that is ahead ends the adapter's loop. -/
theorem GuardAhead.tailLoop {retries : ℕ} (hlt : window < tail.textChars)
    (h : GuardAhead g tail full retries window) :
    g.tailLoop tail full retries window = g.referenceFull full "engine_guard" := by
  induction retries generalizing window with
  | zero => exact h.elim
  | succ retries ih =>
      obtain ⟨hnone, hnext, hguard⟩ := h
      rw [tailLoop_succ hlt hnone]
      obtain ⟨m, hm⟩ | hahead := hguard
      · exact tailLoop_refused hnext hm
      · exact ih hnext hahead

theorem referenceFull_path {reason : String} {a : PyAppended}
    (h : g.referenceFull full reason = .ok a) : a.path = "hf_full_" ++ reason := by
  unfold referenceFull at h
  split at h <;> cases h
  rfl

/-- A window that is used is not the guard's. -/
theorem tryTail_path {a : PyAppended} (h : g.tryTail tail full window = .ok (some a)) :
    a.path = "gigatoken_repair" := by
  unfold tryTail tryWindow at h
  obtain ⟨encoded, -, h⟩ := bind_eq_ok.mp h
  obtain ⟨left, -, h⟩ := bind_eq_ok.mp h
  obtain ⟨right, -, h⟩ := bind_eq_ok.mp h
  split at h
  · cases h
  · split_ifs at h <;> cases h
    rfl

/-- The adapter's loop goes on from a window that it does not refuse, if it ends at the guard. -/
theorem tryTail_of_guard {retries : ℕ} {a : PyAppended} (hlt : window < tail.textChars)
    (hnot : ∀ m, g.tryTail tail full window ≠ .error (.WindowUnsupported m))
    (h : g.tailLoop tail full retries window = .ok a) (hpath : a.path = "hf_full_engine_guard") :
    g.tryTail tail full window = .ok none := by
  cases htry : g.tryTail tail full window with
  | error e =>
      rw [tailLoop_raised hlt htry fun m hm => hnot m (hm ▸ htry)] at h
      cases h
  | ok found =>
      cases found with
      | none => rfl
      | some b =>
          obtain rfl := Except.ok.inj ((tailLoop_used hlt htry).symm.trans h)
          exact absurd ((tryTail_path htry).symm.trans hpath) (by decide)

/-- The adapter's loop ends at the guard only where it is ahead. -/
theorem guardAhead_of_tailLoop {retries : ℕ} {a : PyAppended} (hlt : window < tail.textChars)
    (hnot : ∀ m, g.tryTail tail full window ≠ .error (.WindowUnsupported m))
    (h : g.tailLoop tail full retries window = .ok a) (hpath : a.path = "hf_full_engine_guard") :
    GuardAhead g tail full retries window := by
  induction retries generalizing window with
  | zero =>
      rw [tailLoop_zero hlt (tryTail_of_guard hlt hnot h hpath)] at h
      exact absurd ((referenceFull_path h).symm.trans hpath) (by decide)
  | succ retries ih =>
      have hnone := tryTail_of_guard hlt hnot h hpath
      rw [tailLoop_succ hlt hnone] at h
      by_cases hnext : window * 2 < tail.textChars
      · refine ⟨hnone, hnext, ?_⟩
        by_cases hguard : ∃ m, g.tryTail tail full (window * 2) = .error (.WindowUnsupported m)
        · exact .inl hguard
        · exact .inr (ih hnext (fun m hm => hguard ⟨m, hm⟩) h)
      · rw [tailLoop_of_le (not_lt.mp hnext)] at h
        exact absurd ((referenceFull_path h).symm.trans hpath) (by decide)

/-! ### Where the guard fails -/

theorem fit_ok_eq_none {a : PyAppended} :
    fit full (.ok a) = none ↔ (TailState.fill full ⟨a.ids, a.spans⟩).isOk = false := by
  rw [fit, Except.toOption, Option.filter_some]
  split_ifs with h
  · simp [h]
  · simpa using h

theorem fit_referenceFull_eq_none {reason : String} :
    fit full (g.referenceFull full reason) = none ↔ NoReference g full := by
  unfold referenceFull NoReference
  cases g.referenceEncode full with
  | error e => exact ⟨fun _ => nofun, fun _ => rfl⟩
  | ok encoded =>
      dsimp only
      rw [fit_ok_eq_none]
      exact ⟨fun h _ hencoded => Except.ok.inj hencoded ▸ h, fun h => h encoded rfl⟩

section NoReference

variable {retries : ℕ} (hno : NoReference g full)

include hno

theorem fit_tailLoop_stop (hlt : window < tail.textChars)
    (hne : g.tryTail tail full window ≠ .ok none) :
    fit full (g.tailLoop tail full retries window) = none ↔
      ∀ a, g.tryTail tail full window = .ok (some a) → fit full (.ok a) = none := by
  cases htry : g.tryTail tail full window with
  | error e =>
      refine ⟨fun _ => nofun, fun _ => ?_⟩
      cases e with
      | WindowUnsupported m =>
          rw [tailLoop_refused hlt htry]
          exact fit_referenceFull_eq_none.mpr hno
      | IndexError =>
          rw [tailLoop_raised hlt htry nofun]
          rfl
      | Reference e =>
          rw [tailLoop_raised hlt htry nofun]
          rfl
  | ok found =>
      cases found with
      | none => exact absurd htry hne
      | some b =>
          rw [tailLoop_used hlt htry]
          exact ⟨fun h a ha => Option.some.inj (Except.ok.inj ha) ▸ h, fun h => h b rfl⟩

/-- Without a reference, the adapter returns nothing unless it uses a window. -/
theorem fit_tailLoop_eq_none :
    fit full (g.tailLoop tail full retries window) = none ↔ Unused g tail full retries window := by
  have hreference (reason : String) : fit full (g.referenceFull full reason) = none :=
    fit_referenceFull_eq_none.mpr hno
  induction retries generalizing window with
  | zero =>
      unfold Unused
      by_cases hle : tail.textChars ≤ window
      · rw [tailLoop_of_le hle]
        exact iff_of_true (hreference _) (.inl hle)
      have hlt : window < tail.textChars := not_le.mp hle
      rw [or_iff_right hle]
      by_cases hnone : g.tryTail tail full window = .ok none
      · rw [tailLoop_zero hlt hnone, hnone]
        exact iff_of_true (hreference _) nofun
      · exact fit_tailLoop_stop hno hlt hnone
  | succ retries ih =>
      unfold Unused
      by_cases hle : tail.textChars ≤ window
      · rw [tailLoop_of_le hle]
        exact iff_of_true (hreference _) (.inl hle)
      have hlt : window < tail.textChars := not_le.mp hle
      rw [or_iff_right hle]
      by_cases hnone : g.tryTail tail full window = .ok none
      · rw [tailLoop_succ hlt hnone, hnone]
        exact ih.trans ⟨fun h => ⟨nofun, fun _ => h⟩, fun h => h.2 rfl⟩
      · rw [fit_tailLoop_stop hno hlt hnone]
        exact ⟨fun h => ⟨h, fun h => absurd h hnone⟩, And.left⟩

end NoReference

section Native

variable {eng : FastCpuEngine} {retries : ℕ}

theorem nativeLoop_of_le (h : tail.textChars ≤ window) :
    eng.repairLoop tail full retries window = eng.fullReencode full "hf_full_window_covers_all" := by
  unfold FastCpuEngine.repairLoop
  exact if_neg (by omega)

variable (hlt : window < tail.textChars) (hfull : tail.textChars ≤ full.length)

include hlt hfull

theorem nativeLoop_refused {e : EngineError}
    (h : eng.windowEncoding (full.drop (tail.textChars - window)) = .error e) :
    eng.repairLoop tail full retries window = eng.fullReencode full "hf_full_engine_guard" := by
  unfold FastCpuEngine.repairLoop
  rw [if_pos hlt]
  dsimp only
  rw [sliceChars_drop (by omega)]
  dsimp only
  rw [h]

theorem nativeLoop_used {encoded : Encoding} {m : Match}
    (h : eng.windowEncoding (full.drop (tail.textChars - window)) = .ok encoded)
    (hfound : eng.usableMatch tail full (tail.textChars - window) encoded = .ok (some m)) :
    (eng.repairLoop tail full retries window).toOption.map FastCpuEngine.Appended.result =
      fit full (.ok (joined tail (tail.textChars - window) encoded m)) := by
  rw [fit_ok full _ (some (utf8Len (full.drop (tail.textChars - window))))]
  unfold FastCpuEngine.repairLoop
  rw [if_pos hlt]
  dsimp only
  rw [sliceChars_drop (by omega)]
  dsimp only
  rw [h]
  dsimp only
  rw [hfound]
  rfl

theorem nativeLoop_zero {encoded : Encoding}
    (h : eng.windowEncoding (full.drop (tail.textChars - window)) = .ok encoded)
    (hfound : eng.usableMatch tail full (tail.textChars - window) encoded = .ok none) :
    eng.repairLoop tail full 0 window = eng.fullReencode full "hf_full_no_safe_cut" := by
  unfold FastCpuEngine.repairLoop
  rw [if_pos hlt]
  dsimp only
  rw [sliceChars_drop (by omega)]
  dsimp only
  rw [h]
  dsimp only
  rw [hfound]
  rfl

theorem nativeLoop_succ {encoded : Encoding}
    (h : eng.windowEncoding (full.drop (tail.textChars - window)) = .ok encoded)
    (hfound : eng.usableMatch tail full (tail.textChars - window) encoded = .ok none) :
    eng.repairLoop tail full (retries + 1) window =
      eng.repairLoop tail full retries (min (window * 2) (2 ^ 64 - 1)) := by
  rw [FastCpuEngine.repairLoop, if_pos hlt]
  dsimp only
  rw [sliceChars_drop (by omega)]
  dsimp only
  rw [h]
  dsimp only
  rw [hfound]
  rfl

end Native

/-- The windows of the two: the same, until they are beyond every text. -/
def SameWindow (window window' : ℕ) : Prop :=
  window' = window ∨ 2 ^ 32 ≤ window ∧ 2 ^ 32 ≤ window'

theorem SameWindow.double (window : ℕ) : SameWindow (window * 2) (min (window * 2) (2 ^ 64 - 1)) := by
  unfold SameWindow
  omega

section Agreement

variable {retries window' : ℕ} (hlen : full.length < 2 ^ 32) (hfull : tail.textChars ≤ full.length)

include hlen hfull

/-- One window: the loops end alike, or both go on, or only the native one refuses the window. -/
theorem step_agrees (hlt : window < tail.textChars) :
    (¬g.Loose (full.drop (tail.textChars - window)) ∧ g.tryTail tail full window ≠ .ok none ∧
      ∀ retries, fit full (g.tailLoop tail full retries window) =
        (g.native.repairLoop tail full retries window).toOption.map
          FastCpuEngine.Appended.result) ∨
    (¬g.Loose (full.drop (tail.textChars - window)) ∧ g.tryTail tail full window = .ok none ∧
      g.native.repairLoop tail full 0 window =
        g.native.fullReencode full "hf_full_no_safe_cut" ∧
      ∀ retries, g.native.repairLoop tail full (retries + 1) window =
        g.native.repairLoop tail full retries (min (window * 2) (2 ^ 64 - 1))) ∨
    g.Loose (full.drop (tail.textChars - window)) ∧
      (∀ m, g.tryTail tail full window ≠ .error (.WindowUnsupported m)) ∧
      ∀ retries, g.native.repairLoop tail full retries window =
        g.native.fullReencode full "hf_full_engine_guard" := by
  have htries : TriesAgree g tail full window := triesAgree hlen hfull
  obtain ⟨m, e, hpy, hrust, hloose⟩ | ⟨encoded, found, hpy, hrust, hfound, hloose⟩ |
    ⟨e, hpy, hrust, hloose⟩ := htries
  · refine .inl ⟨hloose, fun h => (by cases hpy.symm.trans h), fun retries => ?_⟩
    rw [tailLoop_refused hlt hpy, nativeLoop_refused hlt hfull hrust]
    exact fit_referenceFull g full "engine_guard"
  · cases found with
    | none =>
        exact .inr (.inl ⟨hloose, hpy, nativeLoop_zero hlt hfull hrust hfound, fun retries =>
          nativeLoop_succ hlt hfull hrust hfound⟩)
    | some m =>
        refine .inl ⟨hloose, fun h => (by cases hpy.symm.trans h), fun retries => ?_⟩
        rw [tailLoop_used hlt hpy, nativeLoop_used hlt hfull hrust hfound]
  · exact .inr (.inr ⟨hloose, hpy, fun retries => nativeLoop_refused hlt hfull hrust⟩)

omit hlen hfull in
/-- Beyond the text, both loops encode it as a whole. -/
theorem beyond_agrees (hw : SameWindow window window') (hle : tail.textChars ≤ window) :
    fit full (g.tailLoop tail full retries window) =
      (g.native.repairLoop tail full retries window').toOption.map
        FastCpuEngine.Appended.result := by
  have hle' : tail.textChars ≤ window' := by
    have hchars : tail.textChars < 2 ^ 32 := tail.chars_lt
    obtain rfl | ⟨-, hbig⟩ := hw <;> omega
  rw [tailLoop_of_le hle, nativeLoop_of_le hle']
  exact fit_referenceFull g full "window_covers_all"

omit hlen hfull in
/-- The adapter goes on from a loose window and ends as at the guard. -/
theorem endsAlike_iff (hlt : window < tail.textChars)
    (hnot : ∀ m, g.tryTail tail full window ≠ .error (.WindowUnsupported m)) :
    fit full (g.tailLoop tail full retries window) =
      fit full (g.referenceFull full "engine_guard") ↔ EndsAlike g tail full retries window := by
  constructor
  · intro h
    by_cases hno : NoReference g full
    · exact .inr ⟨hno, (fit_tailLoop_eq_none hno).mp (h.trans (fit_referenceFull_eq_none.mpr hno))⟩
    · obtain ⟨a, ha⟩ := Option.ne_none_iff_exists'.mp (mt fit_referenceFull_eq_none.mp hno)
      have hpath : a.path = "hf_full_" ++ "engine_guard" := referenceFull_path (ok_of_fit ha)
      exact .inl (guardAhead_of_tailLoop hlt hnot (ok_of_fit (h.trans ha)) hpath)
  · rintro (hahead | ⟨hno, hunused⟩)
    · rw [hahead.tailLoop hlt]
    · exact ((fit_tailLoop_eq_none hno).mpr hunused).trans (fit_referenceFull_eq_none.mpr hno).symm

/-- The two loops return the same exactly when no loose window comes between them. -/
theorem loops_agree_iff (hw : SameWindow window window') :
    fit full (g.tailLoop tail full retries window) =
      (g.native.repairLoop tail full retries window').toOption.map
        FastCpuEngine.Appended.result ↔ Meets g tail full retries window := by
  induction retries generalizing window window' with
  | zero =>
      unfold Meets
      by_cases hle : tail.textChars ≤ window
      · exact iff_of_true (beyond_agrees hw hle) (.inl hle)
      have hlt : window < tail.textChars := not_le.mp hle
      obtain rfl : window' = window := hw.resolve_right (by omega)
      rw [or_iff_right hle]
      obtain ⟨hloose, -, hsame⟩ | ⟨hloose, hnone, hrust, -⟩ | ⟨hloose, hnot, hrust⟩ :=
        step_agrees (g := g) hlen hfull hlt
      · exact iff_of_true (hsame 0) (.inl hloose)
      · refine iff_of_true ?_ (.inl hloose)
        rw [tailLoop_zero hlt hnone, hrust]
        exact fit_referenceFull g full "no_safe_cut"
      · rw [hrust 0, or_iff_right (not_not.mpr hloose), ← endsAlike_iff hlt hnot]
        exact Eq.congr_right (fit_referenceFull g full "engine_guard").symm
  | succ retries ih =>
      unfold Meets
      by_cases hle : tail.textChars ≤ window
      · exact iff_of_true (beyond_agrees hw hle) (.inl hle)
      have hlt : window < tail.textChars := not_le.mp hle
      obtain rfl : window' = window := hw.resolve_right (by omega)
      rw [or_iff_right hle]
      obtain ⟨hloose, hne, hsame⟩ | ⟨hloose, hnone, -, hrust⟩ | ⟨hloose, hnot, hrust⟩ :=
        step_agrees (g := g) hlen hfull hlt
      · exact iff_of_true (hsame (retries + 1)) (.inr ⟨hloose, fun h => absurd h hne⟩)
      · rw [tailLoop_succ hlt hnone, hrust, ih (SameWindow.double window')]
        constructor
        · exact fun h => .inr ⟨hloose, fun _ => h⟩
        · rintro (⟨h, -⟩ | ⟨-, h⟩)
          · exact absurd h hloose
          · exact h hnone
      · rw [hrust (retries + 1)]
        have hguard : _ ↔ EndsAlike g tail full (retries + 1) window' := endsAlike_iff hlt hnot
        rw [fit_referenceFull g full "engine_guard"] at hguard
        refine hguard.trans ⟨fun h => .inl ⟨hloose, h⟩, ?_⟩
        rintro (⟨-, h⟩ | ⟨h, -⟩)
        · exact h
        · exact absurd hloose h

end Agreement

/-! ## The appends -/

/-- No tail takes a text that is too long. -/
theorem fit_of_le (hlen : 2 ^ 32 ≤ full.length) (x : Except PyError PyAppended) :
    fit full x = none := by
  cases x with
  | error e => rfl
  | ok a =>
      rw [fit_ok_eq_none, TailState.fill, TailState.build, dif_neg (not_lt.mpr hlen)]
      rfl

theorem text_fullReencode {eng : FastCpuEngine} {path : String} {out : FastCpuEngine.Appended}
    (h : eng.fullReencode full path = .ok out) : out.tail.text = full := by
  obtain ⟨encoded, -, h⟩ := bind_eq_ok.mp h
  obtain ⟨filled, hfilled, h⟩ := bind_eq_ok.mp h
  cases h
  exact (fill_ok hfilled).1

section Text

variable {eng : FastCpuEngine} {retries : ℕ} {out : FastCpuEngine.Appended}
  (hfull : tail.textChars ≤ full.length)

include hfull

/-- One window, when the windows after it leave the new text. -/
theorem text_window
    (hnext : ∀ r w, retries = r + 1 → eng.repairLoop tail full r w = .ok out → out.tail.text = full)
    (h : eng.repairLoop tail full retries window = .ok out) : out.tail.text = full := by
  by_cases hlt : window < tail.textChars
  · rw [FastCpuEngine.repairLoop.eq_def, if_pos hlt] at h
    dsimp only at h
    rw [sliceChars_drop (by omega)] at h
    dsimp only at h
    cases hencoded : eng.windowEncoding (full.drop (tail.textChars - window)) with
    | error e =>
        rw [hencoded] at h
        exact text_fullReencode h
    | ok encoded =>
        rw [hencoded] at h
        obtain ⟨found, -, h⟩ := bind_eq_ok.mp h
        cases found with
        | some m =>
            obtain ⟨filled, hfilled, h⟩ := bind_eq_ok.mp h
            cases h
            exact (fill_ok hfilled).1
        | none =>
            cases retries with
            | zero => exact text_fullReencode h
            | succ retries => exact hnext retries _ rfl h
  · rw [nativeLoop_of_le (not_lt.mp hlt)] at h
    exact text_fullReencode h

/-- The tail that the native loop leaves holds the new text. -/
theorem text_repairLoop (h : eng.repairLoop tail full retries window = .ok out) :
    out.tail.text = full := by
  induction retries generalizing window with
  | zero =>
      refine text_window hfull ?_ h
      intro r w hr
      cases hr
  | succ retries ih =>
      refine text_window hfull ?_ h
      intro r w hr
      cases hr
      exact ih

end Text

/-- A session takes back the rows of its own tail. -/
theorem fit_tail (tail : TailState) {a : PyAppended} (hids : a.ids = tail.ids)
    (hspans : a.spans = tail.spans) : fit tail.text (.ok a) = some a := by
  rw [fit, Except.toOption, Option.filter_some, if_pos]
  have hfst : tail.spans.map Prod.fst = tail.spanStarts :=
    List.map_fst_zip (tail.starts_length.trans tail.ends_length.symm).le
  have hsnd : tail.spans.map Prod.snd = tail.spanEnds :=
    List.map_snd_zip (tail.ends_length.trans tail.starts_length.symm).le
  have hbuild (e : StoreError) : ∃ filled, TailState.build tail.text (.Owned tail.ids)
      tail.spanStarts tail.spanEnds e = .ok filled :=
    TailState.exists_build e tail.chars_lt tail.starts_length tail.ends_length tail.spans_within
  rw [TailState.fill, hids, hspans, hfst, hsnd]
  obtain ⟨filled, hfilled⟩ := hbuild (.InvalidInput
    s!"ids/spans length mismatch: {tail.ids.length} != {tail.spans.length}")
  rw [hfilled]
  rfl

/-- When the two appends return the same: no window that they try is a loose one, or the adapter
ends as the native engine does all the same. -/
def AppendMeets (g : GigatokenRepair) (tail : TailState) (delta : Text) : Prop :=
  delta = [] ∨ 2 ^ 32 ≤ (tail.text ++ delta).length ∨
    Meets g tail (tail.text ++ delta) g.spec.maxRetries g.spec.windowChars

/-- An adapter whose window engine puts an id of no bytes before one id for each character. -/
def blankFirst : GigatokenRepair where
  spec := ⟨0, 0, false, 2, 0, 2⟩
  engine t := 0 :: t.map fun _ => 1
  referenceEncode t := .ok ⟨t.map fun _ => 1, t.zipIdx.map fun c => (c.2, c.2 + 1)⟩
  normalizer := none
  byteLengths := [0, 1]
  pclass c := if c = ' ' then .S else .L
  normalizer_iff := rfl

/-- A tail of three tokens. -/
def threeTokens : TailState where
  text := "xa ".toList
  tailIds := .Owned [1, 1, 1]
  spanStarts := [0, 1, 2]
  spanEnds := [1, 2, 3]
  chars_lt := by decide
  starts_length := rfl
  ends_length := rfl
  spans_within := by simp [SpansWithin]

end GigatokenRepair

end Toktier.Routing
