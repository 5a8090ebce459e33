import Toktier.Lib.Decimals
import Mathlib.Data.List.Nodup

/-!
# JSON texts

JSON values, their text without insignificant space, and a parser of the full grammar: space between
the tokens, every escape of a string, and every notation of a number. The members of an object are
listed in the order in which they were inserted.

## Main definitions

* `JsonValue.render`: the text of a value.
* `JsonValue.parse`: the value of a UTF-8 text.
* `JsonValue.Distinct`: the members of every object have different keys.

## Main results

* `JsonValue.parse_render`: a value is read back from its text.
-/
namespace Toktier.Lib

/-- A JSON value. -/
inductive JsonValue
  | null
  | bool (flag : Bool)
  | number (value : JsonNumber)
  | string (text : Text)
  | array (items : List JsonValue)
  | object (members : List (Text × JsonValue))

/-! ## The text of a value -/

/-- Four hexadecimal digits. -/
def hex4 (n : ℕ) : Text :=
  [(n / 4096 % 16).digitChar, (n / 256 % 16).digitChar, (n / 16 % 16).digitChar, (n % 16).digitChar]

/-- A character of a string. -/
def escapeChar (c : Char) : Text :=
  if c.toNat = 0x08 then ['\\', 'b']
  else if c.toNat = 0x09 then ['\\', 't']
  else if c.toNat = 0x0A then ['\\', 'n']
  else if c.toNat = 0x0C then ['\\', 'f']
  else if c.toNat = 0x0D then ['\\', 'r']
  else if c.toNat = 0x22 then ['\\', '"']
  else if c.toNat = 0x5C then ['\\', '\\']
  else if c.toNat < 0x20 then '\\' :: 'u' :: hex4 c.toNat
  else [c]

def quoted (text : Text) : Text := '"' :: (text.flatMap escapeChar ++ ['"'])

namespace JsonValue

mutual

/-- The text of a value, without insignificant space. -/
def render : JsonValue → Text
  | .null => ['n', 'u', 'l', 'l']
  | .bool true => ['t', 'r', 'u', 'e']
  | .bool false => ['f', 'a', 'l', 's', 'e']
  | .number value => jsonNumber value
  | .string text => quoted text
  | .array items => '[' :: ((renderItems items).drop 1 ++ [']'])
  | .object members => '{' :: ((renderMembers members).drop 1 ++ ['}'])

/-- The items, each behind a comma. -/
def renderItems : List JsonValue → Text
  | [] => []
  | item :: items => ',' :: (render item ++ renderItems items)

/-- The members, each behind a comma. -/
def renderMembers : List (Text × JsonValue) → Text
  | [] => []
  | (key, value) :: members => ',' :: (quoted key ++ ':' :: (render value ++ renderMembers members))

end

/-! ## The grammar -/

def skipSpace (text : Text) : Text :=
  text.dropWhile fun c => c = ' ' ∨ c = '\t' ∨ c = '\n' ∨ c = '\r'

def hexValue (c : Char) : Option ℕ :=
  if c.isDigit then some (c.toNat - 48)
  else if 97 ≤ c.toNat ∧ c.toNat ≤ 102 then some (c.toNat - 87)
  else if 65 ≤ c.toNat ∧ c.toNat ≤ 70 then some (c.toNat - 55)
  else none

/-- A UTF-16 code unit. -/
def hexUnit (a b c d : Char) : Option ℕ := do
  return 4096 * (← hexValue a) + 256 * (← hexValue b) + 16 * (← hexValue c) + (← hexValue d)

/-- The character behind a backslash. -/
def unescape (c : Char) : Option Char :=
  if c = '"' ∨ c = '\\' ∨ c = '/' then some c
  else if c = 'b' then some (Char.ofNat 0x08)
  else if c = 't' then some (Char.ofNat 0x09)
  else if c = 'n' then some (Char.ofNat 0x0A)
  else if c = 'f' then some (Char.ofNat 0x0C)
  else if c = 'r' then some (Char.ofNat 0x0D)
  else none

/-- The low surrogate of a pair, and the character of the pair. -/
def parseLow (high : ℕ) : Text → Option (Char × Text)
  | '\\' :: 'u' :: a :: b :: c :: d :: text => do
      let low ← hexUnit a b c d
      if high < 0xDC00 ∧ 0xDC00 ≤ low ∧ low < 0xE000 then
        return (Char.ofNat (0x10000 + 1024 * (high - 0xD800) + (low - 0xDC00)), text)
      else none
  | _ => none

/-- What stands behind the backslash of an escape; a surrogate stands in a pair. -/
def parseEscape : Text → Option (Char × Text)
  | 'u' :: a :: b :: c :: d :: text => do
      let unit ← hexUnit a b c d
      if unit < 0xD800 ∨ 0xE000 ≤ unit then return (Char.ofNat unit, text) else parseLow unit text
  | e :: text => (unescape e).map fun c => (c, text)
  | [] => none

theorem length_of_parseLow {high : ℕ} {text rest : Text} {c : Char}
    (h : parseLow high text = some (c, rest)) : rest.length < text.length := by
  unfold parseLow at h
  split at h
  · obtain ⟨low, -, h⟩ := Option.bind_eq_some_iff.mp h
    split_ifs at h
    rw [← (Prod.mk.inj (Option.some.inj h)).2]
    simp only [List.length_cons]
    omega
  · cases h

/-- An escape takes a part of the text. -/
theorem length_of_parseEscape {text rest : Text} {c : Char} (h : parseEscape text = some (c, rest)) :
    rest.length < text.length := by
  unfold parseEscape at h
  split at h
  · obtain ⟨unit, -, h⟩ := Option.bind_eq_some_iff.mp h
    split_ifs at h
    · rw [← (Prod.mk.inj (Option.some.inj h)).2]
      simp only [List.length_cons]
      omega
    · have := length_of_parseLow h
      simp only [List.length_cons]
      omega
  · obtain ⟨c, -, h⟩ := Option.map_eq_some_iff.mp h
    rw [← (Prod.mk.inj h).2]
    exact Nat.lt_succ_self _
  · cases h

/-- The characters of a string, up to its closing quote. -/
def parseChars : Text → Option (Text × Text)
  | [] => none
  | c :: text =>
      if c = '"' then some ([], text)
      else if c = '\\' then
        match _h : parseEscape text with
        | none => none
        | some (c, rest) => (parseChars rest).map fun p => (c :: p.1, p.2)
      else if c.toNat < 0x20 then none
      else (parseChars text).map fun p => (c :: p.1, p.2)
termination_by text => text.length
decreasing_by
  · have := length_of_parseEscape _h
    rw [List.length_cons]
    omega
  · exact Nat.lt_succ_self _

/-- A key and its colon. -/
def parseKey (text : Text) : Option (Text × Text) :=
  match skipSpace text with
  | '"' :: text => do
      let (key, text) ← parseChars text
      match skipSpace text with
      | ':' :: text => some (key, text)
      | _ => none
  | _ => none

mutual

/-- A value. The members of an object have different keys. -/
def parseValue : ℕ → Text → Option (JsonValue × Text)
  | 0, _ => none
  | fuel + 1, text =>
      match skipSpace text with
      | 'n' :: 'u' :: 'l' :: 'l' :: text => some (.null, text)
      | 't' :: 'r' :: 'u' :: 'e' :: text => some (.bool true, text)
      | 'f' :: 'a' :: 'l' :: 's' :: 'e' :: text => some (.bool false, text)
      | '"' :: text => (parseChars text).map fun p => (.string p.1, p.2)
      | '[' :: text =>
          match skipSpace text with
          | ']' :: text => some (.array [], text)
          | text => do
              let (item, text) ← parseValue fuel text
              let (items, text) ← parseItems fuel text
              return (.array (item :: items), text)
      | '{' :: text =>
          match skipSpace text with
          | '}' :: text => some (.object [], text)
          | text => do
              let (key, text) ← parseKey text
              let (value, text) ← parseValue fuel text
              let (members, text) ← parseMembers fuel text
              if (key :: members.map Prod.fst).Nodup then return (.object ((key, value) :: members), text)
              else none
      | text => (parseNumber text).map fun p => (.number p.1, p.2)

/-- The further items of an array, and its bracket. -/
def parseItems : ℕ → Text → Option (List JsonValue × Text)
  | 0, _ => none
  | fuel + 1, text =>
      match skipSpace text with
      | ']' :: text => some ([], text)
      | ',' :: text => do
          let (item, text) ← parseValue fuel text
          let (items, text) ← parseItems fuel text
          return (item :: items, text)
      | _ => none

/-- The further members of an object, and its brace. -/
def parseMembers : ℕ → Text → Option (List (Text × JsonValue) × Text)
  | 0, _ => none
  | fuel + 1, text =>
      match skipSpace text with
      | '}' :: text => some ([], text)
      | ',' :: text => do
          let (key, text) ← parseKey text
          let (value, text) ← parseValue fuel text
          let (members, text) ← parseMembers fuel text
          return ((key, value) :: members, text)
      | _ => none

end

/-- The value of a UTF-8 text. -/
def parse (bytes : List UInt8) : Option JsonValue := do
  let text ← utf8Decode? bytes
  let (value, rest) ← parseValue (text.length + 1) text
  if skipSpace rest = [] then return value else none

/-! ## Reading strings back -/

theorem hexValue_digitChar : ∀ n < 16, hexValue n.digitChar = some n := by decide

theorem hexUnit_hex4 {n : ℕ} (h : n < 65536) :
    hexUnit (n / 4096 % 16).digitChar (n / 256 % 16).digitChar (n / 16 % 16).digitChar
      (n % 16).digitChar = some n := by
  simp only [hexUnit, hexValue_digitChar _ (Nat.mod_lt _ (by decide : 0 < 16)), Option.pure_def,
    Option.bind_eq_bind, Option.bind_some]
  exact congrArg some (by omega)

/-- An escape. -/
theorem parseChars_escape {text rest : Text} {c : Char} (h : parseEscape text = some (c, rest)) :
    parseChars ('\\' :: text) = (parseChars rest).map fun p => (c :: p.1, p.2) := by
  rw [parseChars, if_neg (by decide), if_pos rfl]
  split
  · next hnone => cases hnone.symm.trans h
  · next hsome =>
      cases hsome.symm.trans h
      rfl

/-- A character that needs no escape. -/
theorem parseChars_cons {c : Char} (hquote : c ≠ '"') (hback : c ≠ '\\') (hspace : ¬c.toNat < 0x20)
    (rest : Text) : parseChars (c :: rest) = (parseChars rest).map fun p => (c :: p.1, p.2) := by
  rw [parseChars, if_neg hquote, if_neg hback, if_neg hspace]

/-- A control character by its code. -/
theorem parseEscape_hex4 {c : Char} (h : c.toNat < 0xD800) (rest : Text) :
    parseEscape ('u' :: (hex4 c.toNat ++ rest)) = some (c, rest) := by
  have hunit := hexUnit_hex4 (n := c.toNat) (by omega)
  simp only [hex4, List.cons_append, List.nil_append, parseEscape, hunit, Option.bind_eq_bind,
    Option.bind_some, if_pos (Or.inl h : c.toNat < 0xD800 ∨ _), Char.ofNat_toNat]
  rfl

theorem parseChars_escapeChar (c : Char) (rest : Text) :
    parseChars (escapeChar c ++ rest) = (parseChars rest).map fun p => (c :: p.1, p.2) := by
  have hcode : ∀ n, c.toNat = n → Char.ofNat n = c := fun n h => h ▸ Char.ofNat_toNat c
  unfold escapeChar
  split_ifs with h8 h9 hA hC hD h22 h5C hcontrol
  · exact parseChars_escape (congrArg (fun c => some (c, rest)) (hcode _ h8))
  · exact parseChars_escape (congrArg (fun c => some (c, rest)) (hcode _ h9))
  · exact parseChars_escape (congrArg (fun c => some (c, rest)) (hcode _ hA))
  · exact parseChars_escape (congrArg (fun c => some (c, rest)) (hcode _ hC))
  · exact parseChars_escape (congrArg (fun c => some (c, rest)) (hcode _ hD))
  · exact parseChars_escape (congrArg (fun c => some (c, rest)) (hcode _ h22))
  · exact parseChars_escape (congrArg (fun c => some (c, rest)) (hcode _ h5C))
  · exact parseChars_escape (parseEscape_hex4 (by omega) rest)
  · refine parseChars_cons (fun h => h22 ?_) (fun h => h5C ?_) hcontrol rest
    · rw [h]
      rfl
    · rw [h]
      rfl

theorem parseChars_quoted (text rest : Text) :
    parseChars (text.flatMap escapeChar ++ '"' :: rest) = some (text, rest) := by
  induction text with
  | nil =>
      rw [List.flatMap_nil, List.nil_append, parseChars, if_pos rfl]
  | cons c text ih =>
      rw [List.flatMap_cons, List.append_assoc, parseChars_escapeChar, ih]
      rfl

theorem skipSpace_cons {c : Char} {text : Text} (h : ¬(c = ' ' ∨ c = '\t' ∨ c = '\n' ∨ c = '\r')) :
    skipSpace (c :: text) = c :: text :=
  List.dropWhile_cons_of_neg (by simpa using h)

theorem parseKey_quoted (key rest : Text) : parseKey (quoted key ++ ':' :: rest) = some (key, rest) := by
  have htext : quoted key ++ ':' :: rest = '"' :: (key.flatMap escapeChar ++ '"' :: ':' :: rest) := by
    simp [quoted]
  rw [htext, parseKey, skipSpace_cons (by decide)]
  simp only [parseChars_quoted, Option.bind_eq_bind, Option.bind_some]
  rw [skipSpace_cons (by decide)]
  rfl

/-! ## Values and their parts -/

mutual

/-- What holds of a value as soon as it holds of its parts, holds of every value. -/
theorem induction_parts {P : JsonValue → Prop} (null : P .null) (bool : ∀ flag, P (.bool flag))
    (number : ∀ value, P (.number value)) (string : ∀ text, P (.string text))
    (array : ∀ items, (∀ item ∈ items, P item) → P (.array items))
    (object : ∀ members, (∀ member ∈ members, P member.2) → P (.object members)) :
    ∀ v : JsonValue, P v
  | .null => null
  | .bool flag => bool flag
  | .number value => number value
  | .string text => string text
  | .array items => array items (induction_items null bool number string array object items)
  | .object members => object members (induction_members null bool number string array object members)

theorem induction_items {P : JsonValue → Prop} (null : P .null) (bool : ∀ flag, P (.bool flag))
    (number : ∀ value, P (.number value)) (string : ∀ text, P (.string text))
    (array : ∀ items, (∀ item ∈ items, P item) → P (.array items))
    (object : ∀ members, (∀ member ∈ members, P member.2) → P (.object members)) :
    ∀ items : List JsonValue, ∀ item ∈ items, P item
  | [] => fun _ h => absurd h List.not_mem_nil
  | item :: items => List.forall_mem_cons.mpr
      ⟨induction_parts null bool number string array object item,
        induction_items null bool number string array object items⟩

theorem induction_members {P : JsonValue → Prop} (null : P .null) (bool : ∀ flag, P (.bool flag))
    (number : ∀ value, P (.number value)) (string : ∀ text, P (.string text))
    (array : ∀ items, (∀ item ∈ items, P item) → P (.array items))
    (object : ∀ members, (∀ member ∈ members, P member.2) → P (.object members)) :
    ∀ members : List (Text × JsonValue), ∀ member ∈ members, P member.2
  | [] => fun _ h => absurd h List.not_mem_nil
  | (_, value) :: members => List.forall_mem_cons.mpr
      ⟨induction_parts null bool number string array object value,
        induction_members null bool number string array object members⟩

end

mutual

/-- The keys of every object pass `p`, at every depth. -/
def EveryObject (p : List Text → Prop) : JsonValue → Prop
  | .array items => EveryItem p items
  | .object members => p (members.map Prod.fst) ∧ EveryMember p members
  | _ => True

def EveryItem (p : List Text → Prop) : List JsonValue → Prop
  | [] => True
  | item :: items => EveryObject p item ∧ EveryItem p items

def EveryMember (p : List Text → Prop) : List (Text × JsonValue) → Prop
  | [] => True
  | (_, value) :: members => EveryObject p value ∧ EveryMember p members

end

/-- The members of every object have different keys. -/
def Distinct (v : JsonValue) : Prop := v.EveryObject List.Nodup

theorem everyItem_iff {p : List Text → Prop} {items : List JsonValue} :
    EveryItem p items ↔ ∀ item ∈ items, item.EveryObject p := by
  induction items with
  | nil => exact iff_of_true trivial (List.forall_mem_nil _)
  | cons item items ih => rw [EveryItem, ih, List.forall_mem_cons]

theorem everyMember_iff {p : List Text → Prop} {members : List (Text × JsonValue)} :
    EveryMember p members ↔ ∀ member ∈ members, member.2.EveryObject p := by
  induction members with
  | nil => exact iff_of_true trivial (List.forall_mem_nil _)
  | cons member members ih => rw [EveryMember, ih, List.forall_mem_cons]

theorem everyObject_array {p : List Text → Prop} {items : List JsonValue} :
    (JsonValue.array items).EveryObject p ↔ ∀ item ∈ items, item.EveryObject p := by
  rw [EveryObject, everyItem_iff]

theorem everyObject_object {p : List Text → Prop} {members : List (Text × JsonValue)} :
    (JsonValue.object members).EveryObject p ↔
      p (members.map Prod.fst) ∧ ∀ member ∈ members, member.2.EveryObject p := by
  rw [EveryObject, everyMember_iff]

/-! ## Reading values back -/

/-- The first character of a value's text. -/
theorem render_eq_cons (v : JsonValue) : ∃ c text, render v = c :: text ∧
    ¬(c = ' ' ∨ c = '\t' ∨ c = '\n' ∨ c = '\r') ∧ c ≠ ']' ∧ c ≠ '}' := by
  cases v with
  | null => exact ⟨'n', _, rfl, by decide⟩
  | bool flag =>
      cases flag
      · exact ⟨'f', _, rfl, by decide⟩
      · exact ⟨'t', _, rfl, by decide⟩
  | number value =>
      obtain ⟨c, text, htext, hc⟩ := jsonNumber_eq_cons value
      refine ⟨c, text, htext, ?_⟩
      rcases hc with hc | rfl
      · exact ⟨by rintro (rfl | rfl | rfl | rfl) <;> exact absurd hc (by decide),
          by rintro rfl; exact absurd hc (by decide), by rintro rfl; exact absurd hc (by decide)⟩
      · decide
  | string text => exact ⟨'"', _, rfl, by decide⟩
  | array items => exact ⟨'[', _, rfl, by decide⟩
  | object members => exact ⟨'{', _, rfl, by decide⟩

theorem endsNumber_cons {c : Char} {text : Text} (hdigit : c.isDigit = false)
    (h : c ≠ '.' ∧ c ≠ 'e' ∧ c ≠ 'E') : EndsNumber (c :: text) where
  noDigit := noDigit_cons hdigit
  ne_point := fun heq => h.1 (Option.some.inj heq)
  ne_e := fun heq => h.2.1 (Option.some.inj heq)
  ne_E := fun heq => h.2.2 (Option.some.inj heq)

theorem endsNumber_nil : EndsNumber [] where
  noDigit := fun _ h => by cases h
  ne_point := by simp
  ne_e := by simp
  ne_E := by simp

/-- Behind an item comes a comma or the bracket. -/
theorem endsNumber_renderItems (items : List JsonValue) (rest : Text) :
    EndsNumber (renderItems items ++ ']' :: rest) := by
  cases items with
  | nil => exact endsNumber_cons (by decide) (by decide)
  | cons item items => exact endsNumber_cons (by decide) (by decide)

theorem endsNumber_renderMembers (members : List (Text × JsonValue)) (rest : Text) :
    EndsNumber (renderMembers members ++ '}' :: rest) := by
  cases members with
  | nil => exact endsNumber_cons (by decide) (by decide)
  | cons member members => exact endsNumber_cons (by decide) (by decide)

/-- A value is read back by any sufficient fuel, in front of what ends a number. -/
def ReadBack (v : JsonValue) : Prop :=
  ∀ fuel rest, (render v).length < fuel → EndsNumber rest →
    parseValue fuel (render v ++ rest) = some (v, rest)

theorem parseItems_renderItems {items : List JsonValue} (h : ∀ item ∈ items, ReadBack item) (fuel : ℕ)
    (rest : Text) (hfuel : (renderItems items).length < fuel) :
    parseItems fuel (renderItems items ++ ']' :: rest) = some (items, rest) := by
  obtain ⟨fuel, rfl⟩ : ∃ n, fuel = n + 1 := ⟨fuel - 1, by omega⟩
  induction items generalizing fuel with
  | nil => rfl
  | cons item items ih =>
      rw [renderItems, List.length_cons, List.length_append] at hfuel
      obtain ⟨fuel, rfl⟩ : ∃ n, fuel = n + 1 := ⟨fuel - 1, by omega⟩
      have hitem := h item List.mem_cons_self (fuel + 1) _ (by omega) (endsNumber_renderItems items rest)
      have hitems := ih (fun item h' => h item (List.mem_cons_of_mem _ h')) fuel (by omega)
      rw [renderItems, List.cons_append, List.append_assoc, parseItems, skipSpace_cons (by decide)]
      simp only [hitem, Option.bind_eq_bind, Option.bind_some, hitems]
      rfl

theorem parseMembers_renderMembers {members : List (Text × JsonValue)}
    (h : ∀ member ∈ members, ReadBack member.2) (fuel : ℕ) (rest : Text)
    (hfuel : (renderMembers members).length < fuel) :
    parseMembers fuel (renderMembers members ++ '}' :: rest) = some (members, rest) := by
  obtain ⟨fuel, rfl⟩ : ∃ n, fuel = n + 1 := ⟨fuel - 1, by omega⟩
  induction members generalizing fuel with
  | nil => rfl
  | cons member members ih =>
      obtain ⟨key, value⟩ := member
      rw [renderMembers, List.length_cons, List.length_append, List.length_cons,
        List.length_append] at hfuel
      obtain ⟨fuel, rfl⟩ : ∃ n, fuel = n + 1 := ⟨fuel - 1, by omega⟩
      have hlength : (render value).length < fuel + 1 := by omega
      have hvalue : parseValue (fuel + 1) (render value ++ _) = _ :=
        h (key, value) List.mem_cons_self (fuel + 1) _ hlength (endsNumber_renderMembers members rest)
      have hmembers := ih (fun member h' => h member (List.mem_cons_of_mem _ h')) fuel (by omega)
      rw [renderMembers, List.cons_append, List.append_assoc, List.cons_append, List.append_assoc,
        parseMembers, skipSpace_cons (by decide)]
      simp only [parseKey_quoted, hvalue, Option.bind_eq_bind, Option.bind_some, hmembers]
      rfl

/-- A value is read back from its text. -/
theorem readBack {v : JsonValue} (hv : v.Distinct) : ReadBack v := by
  induction v using induction_parts with
  | null =>
      rintro (_ | fuel) rest hfuel -
      · exact absurd hfuel (Nat.not_lt_zero _)
      · rfl
  | bool flag =>
      rintro (_ | fuel) rest hfuel -
      · exact absurd hfuel (Nat.not_lt_zero _)
      · cases flag <;> rfl
  | number value =>
      rintro (_ | fuel) rest hfuel hrest
      · exact absurd hfuel (Nat.not_lt_zero _)
      obtain ⟨c, text, htext, hc⟩ := jsonNumber_eq_cons value
      have hread := parseNumber_jsonNumber value hrest
      have hstart : ¬(c = ' ' ∨ c = '\t' ∨ c = '\n' ∨ c = '\r') ∧ c ≠ 'n' ∧ c ≠ 't' ∧ c ≠ 'f' ∧ c ≠ '"' ∧
          c ≠ '[' ∧ c ≠ '{' := by
        rcases hc with hc | rfl
        · refine ⟨?_, ?_, ?_, ?_, ?_, ?_, ?_⟩
          · rintro (rfl | rfl | rfl | rfl) <;> exact absurd hc (by decide)
          all_goals
            rintro rfl
            exact absurd hc (by decide)
        · decide
      obtain ⟨hspace, hn, ht, hf, hquote, hbracket, hbrace⟩ := hstart
      rw [render]
      rw [htext, List.cons_append] at hread ⊢
      rw [parseValue, skipSpace_cons hspace]
      split
      · next heq => exact absurd (List.cons.inj heq).1 hn
      · next heq => exact absurd (List.cons.inj heq).1 ht
      · next heq => exact absurd (List.cons.inj heq).1 hf
      · next heq => exact absurd (List.cons.inj heq).1 hquote
      · next heq => exact absurd (List.cons.inj heq).1 hbracket
      · next heq => exact absurd (List.cons.inj heq).1 hbrace
      · rw [hread]
        rfl
  | string text =>
      rintro (_ | fuel) rest hfuel -
      · exact absurd hfuel (Nat.not_lt_zero _)
      have htext : render (.string text) ++ rest = '"' :: (text.flatMap escapeChar ++ '"' :: rest) := by
        simp [render, quoted]
      rw [htext, parseValue, skipSpace_cons (by decide)]
      simp only [parseChars_quoted, Option.map_some]
  | array items ih =>
      rintro (_ | fuel) rest hfuel -
      · exact absurd hfuel (Nat.not_lt_zero _)
      have hitems := fun item hitem => ih item hitem (everyObject_array.mp hv item hitem)
      cases items with
      | nil => rfl
      | cons item items =>
          obtain ⟨c, text, htext, hspace, hbracket, -⟩ := render_eq_cons item
          rw [render, renderItems, List.drop_one, List.tail_cons] at hfuel ⊢
          simp only [List.length_cons, List.length_append, List.length_nil] at hfuel
          have hitem := hitems item List.mem_cons_self fuel _ (by omega) (endsNumber_renderItems items rest)
          have hrest := parseItems_renderItems (fun item h => hitems item (List.mem_cons_of_mem _ h)) fuel rest
            (by omega)
          rw [List.cons_append, List.append_assoc, List.append_assoc, List.singleton_append, parseValue,
            skipSpace_cons (by decide)]
          simp only [htext, List.cons_append, skipSpace_cons hspace] at hitem ⊢
          split
          · next heq => exact absurd (List.cons.inj heq).1 hbracket
          · simp only [hitem, hrest, Option.bind_eq_bind, Option.bind_some]
            rfl
  | object members ih =>
      rintro (_ | fuel) rest hfuel -
      · exact absurd hfuel (Nat.not_lt_zero _)
      have hmembers := fun member hmember => ih member hmember ((everyObject_object.mp hv).2 member hmember)
      cases members with
      | nil => rfl
      | cons member members =>
          obtain ⟨key, value⟩ := member
          rw [render, renderMembers, List.drop_one, List.tail_cons] at hfuel ⊢
          simp only [List.length_cons, List.length_append, List.length_nil] at hfuel
          have hlength : (render value).length < fuel := by omega
          have hvalue : parseValue fuel (render value ++ (renderMembers members ++ '}' :: rest)) = _ :=
            hmembers (key, value) List.mem_cons_self fuel _ hlength (endsNumber_renderMembers members rest)
          have hrest := parseMembers_renderMembers
            (fun member h => hmembers member (List.mem_cons_of_mem _ h)) fuel rest (by omega)
          have hkeys : (key :: members.map Prod.fst).Nodup := hv.1
          have hkey := parseKey_quoted key (render value ++ (renderMembers members ++ '}' :: rest))
          simp only [List.cons_append, List.append_assoc, List.nil_append] at hkey ⊢
          rw [parseValue, skipSpace_cons (by decide)]
          simp only [quoted, List.cons_append] at hkey ⊢
          rw [skipSpace_cons (by decide)]
          split
          · next heq => exact absurd (List.cons.inj heq).1 (by decide)
          · simp only [hkey, hvalue, hrest, Option.bind_eq_bind, Option.bind_some, if_pos hkeys]
            rfl

/-- A value is read back from the bytes of its text. -/
theorem parse_render {v : JsonValue} (hv : v.Distinct) : parse (utf8 (render v)) = some v := by
  have hread := readBack hv ((render v).length + 1) [] (Nat.lt_succ_self _) endsNumber_nil
  rw [List.append_nil] at hread
  simp only [parse, utf8Decode?_utf8, Option.bind_eq_bind, Option.bind_some, hread]
  rfl

end JsonValue

end Toktier.Lib
