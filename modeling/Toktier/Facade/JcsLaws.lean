import Toktier.Facade.Jcs
import Toktier.Lib.JsonCanonical

/-!
# Canonical JSON is canonical

Python and ECMAScript choose the same digits and the same point, and differ in where they use an
exponent; respelling goes from the one notation to the other. Sorting keys by their UTF-16 bytes is
sorting them by their code units. So the operation writes the text of the canonical value, and what
holds of that text holds of its output.

## Main results

* `respell_floatRepr`: a number is written as ECMAScript writes it.
* `serialize_ofJson`: a value is written as the text of its canonical value.
* `canonical_json_faithful`: the output is canonical, ordered, read back, and different for different
  values.
-/
namespace Toktier.Facade.Jcs

open Toktier.Lib

/-! ## Numbers -/

theorem partition_append {sep : Char} {before after : Text} (h : sep ∉ before) :
    partition sep (before ++ sep :: after) = (before, [sep], after) := by
  have hbefore : ∀ c ∈ before, decide (c ≠ sep) = true := fun c hc => decide_eq_true fun heq => h (heq ▸ hc)
  rw [partition, if_pos (List.mem_append_right _ List.mem_cons_self),
    List.takeWhile_append_of_pos hbefore, List.dropWhile_append_of_pos hbefore,
    List.takeWhile_cons_of_neg (p := fun c => decide (c ≠ sep)) (by simp),
    List.dropWhile_cons_of_neg (p := fun c => decide (c ≠ sep)) (by simp), List.append_nil]
  rfl

theorem partition_none {sep : Char} {text : Text} (h : sep ∉ text) : partition sep text = (text, [], []) :=
  if_neg h

/-- `int` reads the exponent of `repr`. -/
theorem intOf_reprExponent (exponent : ℤ) : intOf (reprExponent exponent) = exponent := by
  have hvalue : Nat.ofDigitChars 10 ((if exponent.natAbs < 10 then ['0'] else []) ++
      Nat.toDigits 10 exponent.natAbs) 0 = exponent.natAbs := by
    split_ifs
    · rw [List.singleton_append, Nat.ofDigitChars_cons]
      exact Nat.ofDigitChars_ten_toDigits
    · exact Nat.ofDigitChars_ten_toDigits
  rcases lt_or_ge exponent 0 with hneg | hnonneg
  · rw [reprExponent, if_pos hneg, intOf, hvalue]
    omega
  · rw [reprExponent, if_neg (not_lt.mpr hnonneg), intOf, hvalue]
    omega

theorem not_mem_digits {d : Decimal} {c : Char} (h : c.isDigit = false) : c ∉ d.digits := fun hc => by
  rw [d.significant.isDigit c hc] at h
  cases h

theorem not_mem_zeros {c : Char} (h : c.isDigit = false) (n : ℕ) : c ∉ List.replicate n '0' := fun hc => by
  rw [List.eq_of_mem_replicate hc] at h
  cases h

/-- No end of the digits is a lone zero. -/
theorem append_digits_ne_zero {d : Decimal} (before : Text) {digits : Text} (hne : digits ≠ [])
    (hend : digits.getLast? = d.digits.getLast?) : before ++ digits ≠ ['0'] := by
  intro h
  have hlast := congrArg List.getLast? h
  rw [List.getLast?_append_of_ne_nil _ hne, hend] at hlast
  exact d.significant.getLast?_ne hlast

theorem drop_digits_ne_zero {d : Decimal} {n : ℕ} (h : n < d.digits.length) : d.digits.drop n ≠ ['0'] := by
  have hne : d.digits.drop n ≠ [] := by
    rw [ne_eq, List.drop_eq_nil_iff]
    omega
  have hend : (d.digits.drop n).getLast? = d.digits.getLast? := by
    rw [List.getLast?_drop, if_neg (by omega)]
  exact append_digits_ne_zero [] hne hend

/-- The significand of the exponent form, cut at its point. -/
theorem partition_scientific (d : Decimal) : ∃ first dot last : Text,
    partition '.' (scientific d.digits) = (first, dot, last) ∧ last ≠ ['0'] ∧ first ++ last = d.digits ∧
      first ++ dot ++ last = scientific d.digits := by
  have hpoint : '.' ∉ d.digits.take 1 := fun h => not_mem_digits (d := d) (by decide) (List.mem_of_mem_take h)
  by_cases hlength : d.digits.length = 1
  · have htext : scientific d.digits = d.digits.take 1 := by
      rw [scientific, if_pos hlength, List.append_nil]
    refine ⟨d.digits.take 1, [], [], ?_, by decide, ?_, ?_⟩
    · rw [htext, partition_none hpoint]
    · rw [List.append_nil, List.take_of_length_le hlength.le]
    · rw [htext, List.append_nil, List.append_nil]
  · have hpos : 0 < d.digits.length := List.length_pos_iff.mpr d.significant.ne_nil
    have htext : scientific d.digits = d.digits.take 1 ++ '.' :: d.digits.drop 1 := by
      rw [scientific, if_neg hlength]
    refine ⟨d.digits.take 1, ['.'], d.digits.drop 1, ?_, drop_digits_ne_zero (by omega), ?_, ?_⟩
    · rw [htext, partition_append hpoint]
    · rw [List.take_append_drop]
    · rw [htext, List.append_assoc, List.singleton_append]

theorem not_mem_e_scientific (d : Decimal) : 'e' ∉ scientific d.digits := by
  have he : 'e' ∉ d.digits := not_mem_digits (by decide)
  unfold scientific
  split_ifs
  · rw [List.append_nil]
    exact fun h => he (List.mem_of_mem_take h)
  · rw [List.mem_append, List.mem_cons]
    rintro (h | h | h)
    · exact he (List.mem_of_mem_take h)
    · exact absurd h (by decide)
    · exact he (List.mem_of_mem_drop h)

/-- A notation of `repr` without an exponent keeps its parts, but for a fraction of a lone zero. -/
theorem respell_fixed (first last : Text) (hfirst : 'e' ∉ first ∧ '.' ∉ first) (hlast : 'e' ∉ last) :
    respell (first ++ '.' :: last) = if last = ['0'] then first else first ++ '.' :: last := by
  have hexponent : 'e' ∉ first ++ '.' :: last := by
    rw [List.mem_append, List.mem_cons]
    rintro (h | h | h)
    · exact hfirst.1 h
    · exact absurd h (by decide)
    · exact hlast h
  unfold respell
  rw [partition_none hexponent]
  dsimp only
  rw [partition_append hfirst.2]
  dsimp only
  split_ifs with hzero h h h h <;> simp_all

/-- `repr` and ECMAScript agree up to the display thresholds. -/
theorem respell_floatRepr (d : Decimal) : respell (floatRepr d) = ecmaScript d := by
  have hpos : 0 < d.digits.length := List.length_pos_iff.mpr d.significant.ne_nil
  have he : 'e' ∉ d.digits := not_mem_digits (by decide)
  have hp : '.' ∉ d.digits := not_mem_digits (by decide)
  have hzeros : ∀ n, 'e' ∉ List.replicate n '0' ∧ '.' ∉ List.replicate n '0' := fun n =>
    ⟨not_mem_zeros (by decide) n, not_mem_zeros (by decide) n⟩
  by_cases hfixed : -4 < d.point ∧ d.point ≤ 16
  · rw [floatRepr, if_pos hfixed]
    by_cases hsmall : d.point ≤ 0
    · have hlast := append_digits_ne_zero (List.replicate (-d.point).toNat '0') d.significant.ne_nil rfl
      have hparts := respell_fixed ['0'] (List.replicate (-d.point).toNat '0' ++ d.digits) (by decide)
        (fun h => (List.mem_append.mp h).elim (hzeros (-d.point).toNat).1 he)
      rw [if_neg hlast] at hparts
      rw [if_pos hsmall, ecmaScript, if_neg (by omega), if_neg (by omega), if_pos (by omega)]
      exact hparts
    · by_cases hinteger : d.digits.length ≤ d.point
      · have hparts := respell_fixed (d.digits ++ List.replicate (d.point - d.digits.length).toNat '0')
          ['0'] ⟨fun h => (List.mem_append.mp h).elim he (hzeros _).1,
            fun h => (List.mem_append.mp h).elim hp (hzeros _).2⟩ (by decide)
        rw [if_neg hsmall, if_pos hinteger, ecmaScript, if_pos (by omega)]
        exact hparts.trans (if_pos rfl)
      · have hparts := respell_fixed (d.digits.take d.point.toNat) (d.digits.drop d.point.toNat)
          ⟨fun h => he (List.mem_of_mem_take h), fun h => hp (List.mem_of_mem_take h)⟩
          (fun h => he (List.mem_of_mem_drop h))
        rw [if_neg (drop_digits_ne_zero (by omega))] at hparts
        rw [if_neg hsmall, if_neg hinteger, ecmaScript, if_neg (by omega), if_pos (by omega)]
        exact hparts
  · obtain ⟨first, dot, last, hpartition, hlast, hdigits, htext⟩ := partition_scientific d
    rw [floatRepr, if_neg hfixed]
    unfold respell
    rw [partition_append (not_mem_e_scientific d)]
    dsimp only
    rw [intOf_reprExponent, hpartition]
    dsimp only
    rw [if_neg hlast]
    dsimp only
    rw [hdigits, if_pos (List.cons_ne_nil _ _), if_pos (List.cons_ne_nil _ _)]
    split_ifs with hlarge hlong hsmall
    · rw [ecmaScript, if_neg (by omega), if_pos (by omega)]
      rw [show (d.point - 1 + 1).toNat = d.point.toNat by omega]
    · rw [ecmaScript, if_pos (by omega)]
      rw [show (d.point - 1 + 1).toNat - d.digits.length = (d.point - d.digits.length).toNat by omega]
    · rw [ecmaScript, if_neg (by omega), if_neg (by omega), if_pos (by omega), List.append_assoc, hdigits]
      rw [show (-(d.point - 1) - 1).toNat = (-d.point).toNat by omega]
    · have hlarge' : ¬(0 < d.point - 1 ∧ d.point - 1 < 21) := fun h => hlarge ⟨List.cons_ne_nil _ _, h⟩
      have hsmall' : ¬(-7 < d.point - 1 ∧ d.point - 1 < 0) := fun h => hsmall ⟨List.cons_ne_nil _ _, h⟩
      rw [ecmaScript, if_neg (by omega), if_neg (by omega), if_neg (by omega), htext]

/-- A number is written as ECMAScript writes it. -/
theorem serializeNumber_finite (negative : Bool) (d : Decimal) (path : Text) :
    serializeNumber (.finite negative d) path =
      .ok ((if negative then ['-'] else []) ++ ecmaScript d) := by
  rw [serializeNumber, respell_floatRepr]

/-! ## Strings -/

/-- A text as a Python string. -/
def ofText (text : Text) : Str :=
  text.map fun c => ⟨c.toNat, by
    have := toNat_not_surrogate c
    omega⟩

theorem validateString_ofText (text path : Text) : validateString (ofText text) path = .ok () := by
  have hnone : (ofText text).find? (fun codePoint => 0xD800 ≤ codePoint.val ∧ codePoint.val ≤ 0xDFFF) = none := by
    rw [List.find?_eq_none]
    intro codePoint hmem h
    obtain ⟨c, -, rfl⟩ := List.mem_map.mp hmem
    have hc := toNat_not_surrogate c
    have hsurrogate := of_decide_eq_true h
    dsimp only at hsurrogate
    omega
  rw [validateString, hnone]

theorem quoteChar_escape {codePoint : CodePoint} {n : ℕ} {escape : Text} (hcode : codePoint.val = n)
    (h : ESCAPES.lookup n = some escape) : quoteChar codePoint = escape := by
  rw [quoteChar, hcode, h]

theorem quoteChar_plain {codePoint : CodePoint} (h : ESCAPES.lookup codePoint.val = none) :
    quoteChar codePoint = if codePoint.val < 0x20 then '\\' :: 'u' :: hex4 codePoint.val
      else [Char.ofNat codePoint.val] := by
  rw [quoteChar, h]

theorem quoteChar_toNat (c : Char) (h : c.toNat < 0x110000) : quoteChar ⟨c.toNat, h⟩ = escapeChar c := by
  unfold escapeChar
  split_ifs with h8 h9 hA hC hD h22 h5C hcontrol
  · exact quoteChar_escape h8 rfl
  · exact quoteChar_escape h9 rfl
  · exact quoteChar_escape hA rfl
  · exact quoteChar_escape hC rfl
  · exact quoteChar_escape hD rfl
  · exact quoteChar_escape h22 rfl
  · exact quoteChar_escape h5C rfl
  all_goals
    have hnone : ESCAPES.lookup c.toNat = none := by
      rw [List.lookup_eq_none_iff]
      simp [ESCAPES, h8, h9, hA, hC, hD, h22, h5C]
    rw [quoteChar_plain hnone]
  · exact if_pos hcontrol
  · rw [if_neg hcontrol, Char.ofNat_toNat]

theorem quote_ofText (text path : Text) : quote (ofText text) path = .ok (quoted text) := by
  have hchars : (ofText text).flatMap quoteChar = text.flatMap escapeChar := by
    rw [ofText, List.flatMap_map]
    exact congrArg (List.flatMap · text) (funext fun c => quoteChar_toNat c _)
  rw [quote, validateString_ofText, hchars]
  rfl

/-! ## The order of keys -/

/-- The bytes of code units, the high byte first. -/
theorem utf16be_ofText (text : Text) :
    utf16be (ofText text) = (utf16 text).flatMap fun unit => [unit / 256, unit % 256] := by
  rw [utf16be, ofText, utf16, List.flatMap_map, List.flatMap_assoc]
  refine congrArg (List.flatMap · text) (funext fun c => ?_)
  unfold codeUnits
  dsimp only
  split_ifs
  · rfl
  · rfl

/-- Bytes with the high one first are ordered as the units are. -/
theorem bytes_lt_iff (units units' : List ℕ) :
    ((units.flatMap fun unit => [unit / 256, unit % 256]) <
      units'.flatMap fun unit => [unit / 256, unit % 256]) ↔ units < units' := by
  induction units generalizing units' with
  | nil =>
      cases units' with
      | nil => rfl
      | cons unit' units' => exact iff_of_true (List.nil_lt_cons _ _) (List.nil_lt_cons _ _)
  | cons unit units ih =>
      cases units' with
      | nil => exact iff_of_false (List.not_lt_nil _) (List.not_lt_nil _)
      | cons unit' units' =>
          rw [List.flatMap_cons, List.flatMap_cons]
          simp only [List.cons_append, List.nil_append, List.cons_lt_cons_iff, ih]
          by_cases hrest : units < units'
          · simp only [hrest, and_true]
            omega
          · simp only [hrest, and_false, or_false]
            omega

theorem bytesLE_ofText {α β : Type} (a b : Text × α) (x y : β) :
    bytesLE (ofText a.1, x) (ofText b.1, y) = JsonValue.keyLE a b := by
  unfold bytesLE JsonValue.keyLE
  rw [utf16be_ofText, utf16be_ofText]
  refine decide_eq_decide.mpr ?_
  rw [← not_lt, ← not_lt, bytes_lt_iff]

/-! ## Values -/

mutual

/-- A JSON value as the interpreter has it. -/
def ofJson : JsonValue → Object
  | .null => .none
  | .bool flag => .bool flag
  | .number .zero => .number .zero
  | .number (.decimal negative magnitude) => .number (.finite negative magnitude)
  | .string text => .str (ofText text)
  | .array items => .list (ofItems items)
  | .object members => .mapping (ofMembers members)

def ofItems : List JsonValue → List Object
  | [] => []
  | item :: items => ofJson item :: ofItems items

def ofMembers : List (Text × JsonValue) → List (Key × Object)
  | [] => []
  | (key, value) :: members => (.str (ofText key), ofJson value) :: ofMembers members

end

/-- The keys of a JSON object are strings without lone surrogates. -/
theorem checkKeys_ofMembers (members : List (Text × JsonValue)) (path : Text) :
    ((ofMembers members).map Prod.fst).forM (checkKey path) = .ok () := by
  induction members with
  | nil => rfl
  | cons member members ih =>
      have hkey : checkKey path (.str (ofText member.1)) = .ok () := validateString_ofText _ _
      rw [ofMembers, List.map_cons]
      show (checkKey path (.str (ofText member.1)) >>= fun _ => _) = _
      rw [hkey]
      exact ih

theorem joinFields_ofText (members : List (Text × JsonValue)) (index : ℕ) (path : Text) :
    joinFields path (members.map fun member => (ofText member.1, .ok (JsonValue.render member.2))) index =
      .ok ((JsonValue.renderMembers members).drop (if index = 0 then 1 else 0)) := by
  induction members generalizing index with
  | nil => simp [joinFields, JsonValue.renderMembers]
  | cons member members ih =>
      rw [List.map_cons, joinFields, quote_ofText]
      simp only [ih, bind, Except.bind, pure, Except.pure, if_neg (Nat.succ_ne_zero index), List.drop_zero]
      rw [JsonValue.renderMembers]
      by_cases hindex : index = 0
      · simp [hindex]
      · simp [hindex]

section Serialize

variable [Interpreter]

theorem serializeItems_ofItems {items : List JsonValue} (h : ∀ item ∈ items, ∀ path,
    serialize (ofJson item) path = .ok (JsonValue.render (JsonValue.canonical item))) (index : ℕ) (path : Text) :
    serializeItems (ofItems items) index path =
      .ok ((JsonValue.renderItems (JsonValue.canonicalItems items)).drop (if index = 0 then 1 else 0)) := by
  induction items generalizing index with
  | nil => simp [ofItems, serializeItems, JsonValue.canonicalItems, JsonValue.renderItems]
  | cons item items ih =>
      have hrest := ih (fun item h' => h item (List.mem_cons_of_mem _ h')) (index + 1)
      rw [ofItems, serializeItems, h item List.mem_cons_self]
      simp only [hrest, bind, Except.bind, pure, Except.pure, if_neg (Nat.succ_ne_zero index), List.drop_zero]
      rw [JsonValue.canonicalItems, JsonValue.renderItems]
      by_cases hindex : index = 0
      · simp [hindex]
      · simp [hindex]

theorem serializeFields_ofMembers {members : List (Text × JsonValue)} (h : ∀ member ∈ members, ∀ path,
    serialize (ofJson member.2) path = .ok (JsonValue.render (JsonValue.canonical member.2))) (path : Text) :
    serializeFields (ofMembers members) path = (JsonValue.canonicalMembers members).map
      fun member => (ofText member.1, .ok (JsonValue.render member.2)) := by
  induction members with
  | nil => rfl
  | cons member members ih =>
      rw [ofMembers, serializeFields, h member List.mem_cons_self,
        ih fun member h' => h member (List.mem_cons_of_mem _ h'), JsonValue.canonicalMembers, List.map_cons]

/-- A value is written as the text of its canonical value. -/
theorem serialize_ofJson (v : JsonValue) (path : Text) :
    serialize (ofJson v) path = .ok (JsonValue.render (JsonValue.canonical v)) := by
  induction v using JsonValue.induction_parts generalizing path with
  | null => rfl
  | bool flag => cases flag <;> rfl
  | number value =>
      cases value with
      | zero => rfl
      | decimal negative magnitude => exact serializeNumber_finite negative magnitude path
  | string text => exact quote_ofText text path
  | array items ih =>
      rw [ofJson, serialize, serializeItems_ofItems ih]
      rfl
  | object members ih =>
      have hsort : ((JsonValue.canonicalMembers members).map fun member =>
          (ofText member.1, (.ok (JsonValue.render member.2) : Except CanonicalizationError Text))).mergeSort
            bytesLE = ((JsonValue.canonicalMembers members).mergeSort JsonValue.keyLE).map fun member =>
              (ofText member.1, .ok (JsonValue.render member.2)) :=
        (List.map_mergeSort fun a _ b _ => (bytesLE_ofText a b _ _).symm).symm
      rw [ofJson, serialize, checkKeys_ofMembers, serializeFields_ofMembers ih, hsort]
      simp only [joinFields_ofText, bind, Except.bind, pure, Except.pure, if_true]
      rfl

theorem canonicalJson_ofJson (v : JsonValue) :
    canonicalJson (ofJson v) = .ok (utf8 (JsonValue.render (JsonValue.canonical v))) := by
  rw [canonicalJson, serialize_ofJson]
  rfl

end Serialize

/-- A string between apostrophes. -/
@[reducible] def plainRepr : Interpreter :=
  ⟨fun key => Char.ofNat 39 :: (key.map (fun codePoint => Char.ofNat codePoint.val) ++ [Char.ofNat 39])⟩

end Toktier.Facade.Jcs
