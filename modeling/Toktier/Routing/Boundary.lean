import Toktier.Lib.Occurrences
import Toktier.StoreCore.Tail

/-!
# Synchronizing boundaries

Between certain pairs of characters the pre-tokenizer of the certified families always
starts anew. The predicate reads the classes of the two characters from a frozen table. An
encoder has the sync-split property when every boundary the predicate accepts, outside the
added-token literals, splits the encoding of the text.

## Main definitions

* `BpeSyncBoundary`, with `accepts`: the class table and the predicate.
* `ReferenceEncoding`: an encoder whose spans are spans of the text.
* `SyncSplit`: accepted boundaries split the encoding.
-/
namespace Toktier.StoreCore.Encoding

/-- Move the spans by `n` characters. -/
def shift (n : ℕ) (e : Encoding) : Encoding :=
  ⟨e.ids, e.spans.map fun s => (s.1 + n, s.2 + n)⟩

/-- One encoding after the other. -/
def append (e f : Encoding) : Encoding := ⟨e.ids ++ f.ids, e.spans ++ f.spans⟩

@[simp] theorem ids_shift (n : ℕ) (e : Encoding) : (e.shift n).ids = e.ids := rfl

@[simp] theorem spans_shift (n : ℕ) (e : Encoding) :
    (e.shift n).spans = e.spans.map fun s => (s.1 + n, s.2 + n) := rfl

@[simp] theorem ids_append (e f : Encoding) : (e.append f).ids = e.ids ++ f.ids := rfl

@[simp] theorem spans_append (e f : Encoding) : (e.append f).spans = e.spans ++ f.spans := rfl

end Toktier.StoreCore.Encoding

namespace Toktier.Routing

open Toktier.Lib Toktier.StoreCore

/-- The classes of the property table, in the order of their numbers. -/
inductive CharClass
  | O
  | S
  | L
  | N
  | M
  deriving DecidableEq, Repr

/-- The frozen class table: a class for every scalar value. -/
structure BpeSyncBoundary where
  classes : Char → CharClass

namespace BpeSyncBoundary

/-- The eight class pairs. -/
def inSet : CharClass × CharClass → Bool
  | (.L, .N) => true
  | (.L, .O) => true
  | (.L, .S) => true
  | (.N, .L) => true
  | (.N, .O) => true
  | (.N, .S) => true
  | (.O, .N) => true
  | (.O, .S) => true
  | _ => false

/-- A pre-token never spans the two characters: one of the eight pairs, less the two
carve-outs. -/
def accepts (b : BpeSyncBoundary) (previous current : Char) : Bool :=
  let pair := (b.classes previous, b.classes current)
  inSet pair && !(pair == (.O, .S) && (current == '\r' || current == '\n')) &&
    !(pair == (.L, .O) && current == '\'')

/-- The predicate on the two characters that meet at position `p`. -/
def AcceptsAt (b : BpeSyncBoundary) (t : Text) (p : ℕ) : Prop :=
  ∃ x y, 0 < p ∧ t[p - 1]? = some x ∧ t[p]? = some y ∧ b.accepts x y = true

variable {b : BpeSyncBoundary} {t : Text} {p n : ℕ}

theorem AcceptsAt.pos (h : b.AcceptsAt t p) : 0 < p := by
  obtain ⟨_, _, hp, -⟩ := h
  exact hp

theorem AcceptsAt.lt_length (h : b.AcceptsAt t p) : p < t.length := by
  obtain ⟨_, _, -, -, hy, -⟩ := h
  exact (List.getElem?_eq_some_iff.mp hy).1

/-- The predicate looks at two characters only. -/
theorem AcceptsAt.take (h : b.AcceptsAt t p) (hp : p < n) : b.AcceptsAt (t.take n) p := by
  obtain ⟨x, y, hpos, hx, hy, hxy⟩ := h
  refine ⟨x, y, hpos, ?_, ?_, hxy⟩
  · rw [List.getElem?_take_of_lt (by omega), hx]
  · rw [List.getElem?_take_of_lt hp, hy]

theorem AcceptsAt.of_append {r : Text} (h : b.AcceptsAt (t ++ r) p) (hp : p < t.length) :
    b.AcceptsAt t p := by
  have := h.take hp
  rwa [List.take_left' rfl] at this

theorem AcceptsAt.drop (h : b.AcceptsAt t (n + p)) (hp : 0 < p) : b.AcceptsAt (t.drop n) p := by
  obtain ⟨x, y, -, hx, hy, hxy⟩ := h
  refine ⟨x, y, hp, ?_, ?_, hxy⟩
  · rw [List.getElem?_drop, ← hx]
    congr 1
    omega
  · rw [List.getElem?_drop, hy]

end BpeSyncBoundary

/-! ## Encoders -/

/-- An encoder of texts: one span for each id, within the text. -/
structure ReferenceEncoding where
  encode : Text → Encoding
  aligned : ∀ t, (encode t).ids.length = (encode t).spans.length
  within : ∀ t, SpansWithin t.length (encode t).spans

/-- Every boundary the predicate accepts splits the encoding, unless it lies inside an
added-token literal. -/
def SyncSplit (b : BpeSyncBoundary) (literals : List Text) (E : ReferenceEncoding) : Prop :=
  ∀ t p, b.AcceptsAt t p → ¬Inside literals t p →
    E.encode t = (E.encode (t.take p)).append ((E.encode (t.drop p)).shift p)

end Toktier.Routing
