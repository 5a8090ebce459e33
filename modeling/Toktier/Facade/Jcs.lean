import Toktier.Lib.JsonText
import Mathlib.Data.List.Lex

/-!
# Canonical JSON

The canonical JSON operation of the pipeline fingerprint. Numbers are rendered by `repr` and then
respelled to the notation of ECMAScript, strings are escaped, and the keys of a mapping are sorted by
their UTF-16 bytes. A path to the value stands in every error.

A number is what `float` gives for it: the interpreter chooses the shortest digits that round back.

## Main definitions

* `Object`: the Python values that the operation tells apart.
* `floatRepr`, `serializeNumber`: a number.
* `quote`: a string.
* `serialize`, `canonicalJson`: a value.
-/
namespace Toktier.Facade.Jcs

open Toktier.Lib

/-! ## Python values -/

/-- A code point; a lone surrogate is one. -/
abbrev CodePoint := Fin 0x110000

/-- A Python string. -/
abbrev Str := List CodePoint

/-- What `float(value)` gives for an `int` or a `float`; both zeros are equal to zero. -/
inductive PyNumber
  | tooLarge
  | nan
  | infinite (negative : Bool)
  | zero
  | finite (negative : Bool) (magnitude : Decimal)

/-- A key of a mapping; one that is not a string is only ever printed. -/
inductive Key
  | str (chars : Str)
  | other (repr : Text)

/-- A Python value, told apart by its class. -/
inductive Object
  | none
  | bool (flag : Bool)
  | number (value : PyNumber)
  | str (chars : Str)
  | list (items : List Object)
  | mapping (fields : List (Key × Object))
  | other (typeName : Text)

/-- The interpreter's `repr` of a string. -/
class Interpreter where
  reprStr : Str → Text

structure CanonicalizationError where
  message : Text

/-! ## Strings -/

/-- `_validate_string` -/
def validateString (value : Str) (path : Text) : Except CanonicalizationError Unit :=
  match value.find? fun codePoint => 0xD800 ≤ codePoint.val ∧ codePoint.val ≤ 0xDFFF with
  | some codePoint =>
      .error ⟨"lone surrogate U+".toList ++ (hex4 codePoint.val).map Char.toUpper ++
        " is not valid Unicode at ".toList ++ path⟩
  | none => .ok ()

def ESCAPES : List (ℕ × Text) :=
  [(0x08, ['\\', 'b']), (0x09, ['\\', 't']), (0x0A, ['\\', 'n']), (0x0C, ['\\', 'f']),
    (0x0D, ['\\', 'r']), (0x22, ['\\', '"']), (0x5C, ['\\', '\\'])]

/-- One character of `_quote`; a validated code point is a character. -/
def quoteChar (codePoint : CodePoint) : Text :=
  match ESCAPES.lookup codePoint.val with
  | some escape => escape
  | none => if codePoint.val < 0x20 then '\\' :: 'u' :: hex4 codePoint.val else [Char.ofNat codePoint.val]

/-- `_quote` -/
def quote (value : Str) (path : Text) : Except CanonicalizationError Text := do
  validateString value path
  return '"' :: (value.flatMap quoteChar ++ ['"'])

/-- `key.encode("utf-16-be")`, byte by byte. -/
def utf16be (value : Str) : List ℕ :=
  value.flatMap fun codePoint =>
    if codePoint.val < 0x10000 then [codePoint.val / 256, codePoint.val % 256]
    else
      let high := 0xD800 + (codePoint.val - 0x10000) / 1024
      let low := 0xDC00 + (codePoint.val - 0x10000) % 1024
      [high / 256, high % 256, low / 256, low % 256]

/-! ## Numbers -/

/-- `text.partition(sep)` -/
def partition (sep : Char) (text : Text) : Text × Text × Text :=
  if sep ∈ text then (text.takeWhile (· ≠ sep), [sep], (text.dropWhile (· ≠ sep)).drop 1)
  else (text, [], [])

/-- `int(text)` of a sign and digits. -/
def intOf : Text → ℤ
  | '-' :: digits => -(Nat.ofDigitChars 10 digits 0 : ℤ)
  | '+' :: digits => Nat.ofDigitChars 10 digits 0
  | digits => Nat.ofDigitChars 10 digits 0

/-- The exponent of `repr`: a sign and at least two digits. -/
def reprExponent (exponent : ℤ) : Text :=
  (if exponent < 0 then '-' else '+') ::
    ((if exponent.natAbs < 10 then ['0'] else []) ++ Nat.toDigits 10 exponent.natAbs)

/-- `repr` of a positive `float`: without an exponent from `1e-4` up to below `1e16`. -/
def floatRepr (d : Decimal) : Text :=
  if -4 < d.point ∧ d.point ≤ 16 then
    if d.point ≤ 0 then '0' :: '.' :: (List.replicate (-d.point).toNat '0' ++ d.digits)
    else if d.digits.length ≤ d.point then
      d.digits ++ List.replicate (d.point - d.digits.length).toNat '0' ++ ['.', '0']
    else d.digits.take d.point.toNat ++ '.' :: d.digits.drop d.point.toNat
  else scientific d.digits ++ 'e' :: reprExponent (d.point - 1)

/-- The part of `_serialize_number` behind `repr`: from the display thresholds of Python to those of
ECMAScript. -/
def respell (rendered : Text) : Text :=
  let (significand, exponentMarker, rawExponent) := partition 'e' rendered
  let exponent : ℤ := if exponentMarker ≠ [] then intOf rawExponent else 0
  let exponentText := if exponentMarker ≠ [] then 'e' :: signed exponent else []
  let (first, dot, last) := partition '.' significand
  let (dot, last) := if last = ['0'] then ([], []) else (dot, last)
  if exponentMarker ≠ [] ∧ 0 < exponent ∧ exponent < 21 then
    let digits := first ++ last
    let decimalPoint := (exponent + 1).toNat
    if decimalPoint < digits.length then digits.take decimalPoint ++ '.' :: digits.drop decimalPoint
    else digits ++ List.replicate (decimalPoint - digits.length) '0'
  else if exponentMarker ≠ [] ∧ -7 < exponent ∧ exponent < 0 then
    '0' :: '.' :: (List.replicate (-exponent - 1).toNat '0' ++ first ++ last)
  else first ++ dot ++ last ++ exponentText

/-- `_serialize_number` -/
def serializeNumber (value : PyNumber) (path : Text) : Except CanonicalizationError Text :=
  let notFinite (number : Text) : CanonicalizationError :=
    ⟨"NaN and Infinity are not permitted by RFC 8785 at ".toList ++ path ++ ": ".toList ++ number⟩
  match value with
  | .tooLarge => .error ⟨"number is outside the IEEE 754 binary64 range at ".toList ++ path⟩
  | .nan => .error (notFinite "nan".toList)
  | .infinite negative => .error (notFinite (if negative then "-inf".toList else "inf".toList))
  | .zero => .ok ['0']
  | .finite negative magnitude => .ok ((if negative then ['-'] else []) ++ respell (floatRepr magnitude))

/-! ## Values -/

/-- The check of one key. -/
def checkKey (path : Text) : Key → Except CanonicalizationError Unit
  | .str chars => validateString chars ("object key at ".toList ++ path)
  | .other repr => .error ⟨"object key is not a string at ".toList ++ path ++ ": ".toList ++ repr⟩

/-- The order of the sorted keys. -/
def bytesLE {α : Type} (a b : Str × α) : Bool := utf16be a.1 ≤ utf16be b.1

/-- The sorted keys, each with its value. -/
def joinFields (path : Text) : List (Str × Except CanonicalizationError Text) → ℕ →
    Except CanonicalizationError Text
  | [], _ => .ok []
  | (key, value) :: fields, index => do
      let name ← quote key ("object key at ".toList ++ path)
      let text ← value
      let rest ← joinFields path fields (index + 1)
      return (if index ≠ 0 then [','] else []) ++ name ++ ':' :: (text ++ rest)

section Serialize

variable [Interpreter]

mutual

/-- `_serialize` -/
def serialize : Object → Text → Except CanonicalizationError Text
  | .none, _ => .ok ['n', 'u', 'l', 'l']
  | .bool true, _ => .ok ['t', 'r', 'u', 'e']
  | .bool false, _ => .ok ['f', 'a', 'l', 's', 'e']
  | .number value, path => serializeNumber value path
  | .str chars, path => quote chars path
  | .list items, path => do
      let parts ← serializeItems items 0 path
      return '[' :: (parts ++ [']'])
  | .mapping fields, path => do
      (fields.map Prod.fst).forM (checkKey path)
      let parts ← joinFields path ((serializeFields fields path).mergeSort bytesLE) 0
      return '{' :: (parts ++ ['}'])
  | .other typeName, path =>
      .error ⟨"value of type ".toList ++ typeName ++ " is not JSON-serializable at ".toList ++ path⟩

def serializeItems : List Object → ℕ → Text → Except CanonicalizationError Text
  | [], _, _ => .ok []
  | item :: items, index, path => do
      let text ← serialize item (path ++ '[' :: (Nat.toDigits 10 index ++ [']']))
      let rest ← serializeItems items (index + 1) path
      return (if index ≠ 0 then [','] else []) ++ text ++ rest

/-- The values of the checked keys; an error counts when the turn of its key comes. -/
def serializeFields : List (Key × Object) → Text → List (Str × Except CanonicalizationError Text)
  | [], _ => []
  | (.str key, value) :: fields, path =>
      (key, serialize value (path ++ '[' :: (Interpreter.reprStr key ++ [']']))) ::
        serializeFields fields path
  | (.other _, _) :: fields, path => serializeFields fields path

end

/-- `canonical_json` -/
def canonicalJson (value : Object) : Except CanonicalizationError (List UInt8) := do
  let parts ← serialize value ['$']
  return utf8 parts

end Serialize

end Toktier.Facade.Jcs
