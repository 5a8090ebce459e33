import Mathlib.Data.Rat.Defs
import Toktier.Lib.Decode

/-!
# Admission

Whether a tokenizer may be cut at all is read from its document: the shape of the normalizer
section first, then the flags of the added tokens. The Rust crate and the Python module read
it each in its own way. They admit the same documents, under the same mode.

## Main definitions

* `Json`: a parsed document; `Json.truthy`: the truth of a value.
* `normalizerMode`: the mode of a document, or the refusal, in the Rust crate.
* `Py.normalizerMode`: the same in the Python module.
* `normalizerMode_eq_ok`: the two admit alike.
-/
namespace Toktier.Chunked

/-- A parsed JSON value. -/
inductive Json
  | null
  | bool (flag : Bool)
  | num (number : ℚ)
  | str (text : String)
  | arr (items : List Json)
  | obj (fields : List (String × Json))

mutual

def decEqJson : (a b : Json) → Decidable (a = b)
  | .null, b => match b with
    | .null => isTrue rfl
    | .bool _ | .num _ | .str _ | .arr _ | .obj _ => isFalse nofun
  | .bool flag, b => match b with
    | .bool flag' => decidable_of_iff (flag = flag') (by rw [Json.bool.injEq])
    | .null | .num _ | .str _ | .arr _ | .obj _ => isFalse nofun
  | .num number, b => match b with
    | .num number' => decidable_of_iff (number = number') (by rw [Json.num.injEq])
    | .null | .bool _ | .str _ | .arr _ | .obj _ => isFalse nofun
  | .str text, b => match b with
    | .str text' => decidable_of_iff (text = text') (by rw [Json.str.injEq])
    | .null | .bool _ | .num _ | .arr _ | .obj _ => isFalse nofun
  | .arr items, b => match b with
    | .arr items' =>
      match decEqItems items items' with
      | isTrue h => isTrue (congrArg Json.arr h)
      | isFalse h => isFalse fun e => h (Json.arr.inj e)
    | .null | .bool _ | .num _ | .str _ | .obj _ => isFalse nofun
  | .obj fields, b => match b with
    | .obj fields' =>
      match decEqFields fields fields' with
      | isTrue h => isTrue (congrArg Json.obj h)
      | isFalse h => isFalse fun e => h (Json.obj.inj e)
    | .null | .bool _ | .num _ | .str _ | .arr _ => isFalse nofun
termination_by structural a => a

def decEqItems : (xs ys : List Json) → Decidable (xs = ys)
  | [], ys => match ys with
    | [] => isTrue rfl
    | _ :: _ => isFalse nofun
  | x :: xs, ys => match ys with
    | [] => isFalse nofun
    | y :: ys =>
      match decEqJson x y, decEqItems xs ys with
      | isTrue h, isTrue hs => isTrue (congrArg₂ List.cons h hs)
      | isFalse h, _ => isFalse fun e => h (List.cons.inj e).1
      | _, isFalse hs => isFalse fun e => hs (List.cons.inj e).2
termination_by structural xs => xs

def decEqFields : (xs ys : List (String × Json)) → Decidable (xs = ys)
  | [], ys => match ys with
    | [] => isTrue rfl
    | _ :: _ => isFalse nofun
  | x :: xs, ys => match ys with
    | [] => isFalse nofun
    | y :: ys =>
      match decEqField x y, decEqFields xs ys with
      | isTrue h, isTrue hs => isTrue (congrArg₂ List.cons h hs)
      | isFalse h, _ => isFalse fun e => h (List.cons.inj e).1
      | _, isFalse hs => isFalse fun e => hs (List.cons.inj e).2
termination_by structural xs => xs

def decEqField : (x y : String × Json) → Decidable (x = y)
  | (key, value), y => match y with
    | (key', value') =>
      match decEq key key', decEqJson value value' with
      | isTrue h, isTrue h' => isTrue (congrArg₂ Prod.mk h h')
      | isFalse h, _ => isFalse fun e => h (Prod.mk.inj e).1
      | _, isFalse h' => isFalse fun e => h' (Prod.mk.inj e).2
termination_by structural x => x

end

instance : DecidableEq Json := decEqJson

namespace Json

def get : Json → String → Option Json
  | obj fields, key => fields.lookup key
  | _, _ => none

def asArray : Json → Option (List Json)
  | arr items => some items
  | _ => none

def isObject : Json → Bool
  | obj _ => true
  | _ => false

def asStr : Json → Option String
  | str text => some text
  | _ => none

/-- Python truthiness of a JSON value. -/
def truthy : Option Json → Bool
  | none | some null => false
  | some (bool flag) => flag
  | some (num number) => number != 0
  | some (str text) => !text.isEmpty
  | some (arr items) => !items.isEmpty
  | some (obj fields) => !fields.isEmpty

end Json

/-- Loader-face normalizer shapes the planner reasons about. -/
inductive NormalizerMode
  /-- No normalizer, or the empty `Sequence`. -/
  | None
  /-- `NFC` with every added token matched on the input text. -/
  | Nfc
  deriving DecidableEq, Repr

/-- Refusal of a face with an added token that sets one of the flags. -/
def ADDED_TOKEN_FLAGS_REFUSAL : String := "added_token_strip_or_single_word"

/-- The added-token flags that refuse admission. -/
def REFUSED_ADDED_TOKEN_FLAGS : List String := ["lstrip", "rstrip", "single_word"]

open Json Toktier.Lib

/-- The normalizer-shape half of `normalizerMode`. -/
def normalizerShape (document : Json) : Except String NormalizerMode :=
  match document.get "normalizer" with
  | none | some .null => .ok .None
  | some (.obj fields) =>
      let kind := ((obj fields).get "type").bind asStr
      if kind == some "Sequence" && !truthy ((obj fields).get "normalizers") then .ok .None
      else if kind == some "NFC" then
        let rows := ((document.get "added_tokens").bind asArray).getD []
        if rows.any fun row => row.isObject && truthy (row.get "normalized") then
          .error "nfc_with_normalized_added_tokens"
        else .ok .Nfc
      else
        let name := kind.getD "None"
        .error s!"normalizer_not_supported:{name}"
  | some _ => .error "normalizer_not_supported"

/-- The normalizer shape first, then the added-token flags. -/
def normalizerMode (document : Json) : Except String NormalizerMode := do
  let mode ← normalizerShape document
  let rows := ((document.get "added_tokens").bind asArray).getD []
  if rows.any fun row => row.isObject &&
      REFUSED_ADDED_TOKEN_FLAGS.any fun flag => truthy (row.get flag) then
    .error ADDED_TOKEN_FLAGS_REFUSAL
  else return mode

/-! ## The Python module -/

namespace Py

/-- Why the Python module refuses a face. -/
inductive Refusal
  | NormalizerNotSupported
  | NormalizerKindNotSupported (kind : Option Json)
  | NfcWithNormalizedAddedTokens
  | LiteralFlags

/-- The literal flags the cut rule does not reason about. -/
def LITERAL_FLAGS : List String := ["lstrip", "rstrip", "single_word"]

/-- `document.get("added_tokens") or []`, as the sequence it is; a string is a sequence of
strings. -/
def rows (document : Json) : List Json :=
  match document.get "added_tokens" with
  | some (.arr items) => items
  | some (.str text) => text.toList.map fun c => .str c.toString
  | _ => []

/-- Whether an added token of the face sets a flag. -/
def flaggedLiteral (document : Json) : Bool :=
  (rows document).any fun row => row.isObject && LITERAL_FLAGS.any fun flag => truthy (row.get flag)

/-- `value == text` of a JSON value and a string. -/
def equals (value : Option Json) (text : String) : Bool :=
  match value with
  | some (.str value) => value == text
  | _ => false

/-- The mode of the normalizer section. -/
def normalizerSection (document : Json) : Except Refusal NormalizerMode :=
  match document.get "normalizer" with
  | none | some .null => .ok .None
  | some (.obj fields) =>
      let kind := (obj fields).get "type"
      if equals kind "Sequence" && !truthy ((obj fields).get "normalizers") then .ok .None
      else if equals kind "NFC" then
        if (rows document).any fun row => row.isObject && truthy (row.get "normalized") then
          .error .NfcWithNormalizedAddedTokens
        else .ok .Nfc
      else .error (.NormalizerKindNotSupported kind)
  | some _ => .error .NormalizerNotSupported

/-- The normalizer section first, then the added-token flags. -/
def normalizerMode (document : Json) : Except Refusal NormalizerMode := do
  let mode ← normalizerSection document
  if flaggedLiteral document then .error .LiteralFlags else return mode

end Py

/-! ## Agreement -/

/-- A test that only objects pass finds the same rows either way. -/
theorem any_rows (document : Json) (p : Json → Bool) :
    ((Py.rows document).any fun row => row.isObject && p row) =
      (((document.get "added_tokens").bind asArray).getD []).any fun row => row.isObject && p row := by
  unfold Py.rows
  generalize document.get "added_tokens" = added
  match added with
  | some (.str text) => simp [asArray, isObject]
  | none | some .null | some (.bool _) | some (.num _) | some (.arr _) | some (.obj _) => rfl

theorem equals_eq (value : Option Json) (text : String) :
    Py.equals value text = (value.bind asStr == some text) := by
  unfold Py.equals
  match value with
  | some (.str value) => simp [asStr]
  | none | some .null | some (.bool _) | some (.num _) | some (.arr _) | some (.obj _) =>
      simp [asStr]

theorem normalizerShape_eq_ok (document : Json) (mode : NormalizerMode) :
    normalizerShape document = .ok mode ↔ Py.normalizerSection document = .ok mode := by
  have hnormalized := any_rows document fun row => truthy (row.get "normalized")
  unfold normalizerShape Py.normalizerSection
  rw [hnormalized]
  simp only [equals_eq]
  generalize document.get "normalizer" = normalizer
  match normalizer with
  | none | some .null => simp
  | some (.bool _) | some (.num _) | some (.str _) | some (.arr _) => simp
  | some (.obj fields) =>
      dsimp only
      split_ifs <;> simp

/-- The two read the same mode from the same documents. -/
theorem normalizerMode_eq_ok (document : Json) (mode : NormalizerMode) :
    normalizerMode document = .ok mode ↔ Py.normalizerMode document = .ok mode := by
  have hflags := any_rows document fun row =>
    REFUSED_ADDED_TOKEN_FLAGS.any fun flag => truthy (row.get flag)
  unfold normalizerMode Py.normalizerMode Py.flaggedLiteral
  rw [show Py.LITERAL_FLAGS = REFUSED_ADDED_TOKEN_FLAGS from rfl, hflags, bind_eq_ok, bind_eq_ok]
  refine exists_congr fun shape => and_congr (normalizerShape_eq_ok document shape) ?_
  dsimp only
  split_ifs <;> simp [pure, Except.pure]

end Toktier.Chunked
