import Mathlib.Data.List.Sort
import Mathlib.Logic.Function.Basic
import Toktier.Lib.Occurrences
import Toktier.Lib.Regex
import Toktier.Lib.Utf8

/-!
# The literal prefilters

Before a text is searched for added tokens, a cheap stage looks for their first bytes. The
frontend gates with two translation tables and a pattern of the two-byte prefixes; the router
gates with masks and a bit table of the byte pairs, and skips from one first byte to the next.

## Main definitions

* `Prefilter.build`, `Prefilter.hit`: the stage of the frontend.
* `Prefilter.nativePrefixes`: what the frontend exports to the router.
* `PrefixFilter.new`, `PrefixFilter.mayMatch`: the stage of the router.
* `Hits`: a position holds a one-byte literal or the first two bytes of a longer one.

## Main results

* `PrefixFilter.mayMatch_iff`, `Prefilter.hit_iff`: what each stage decides.
* `prefilters_agree`: they agree, and a text that neither flags holds no literal.
-/
namespace Toktier.Frontend

open Toktier.Lib

/-! ### The frontend -/

/-- The stage of the frontend. -/
structure Prefilter where
  /-- A byte scan is a necessary condition. -/
  exact : Bool
  firstGate : UInt8 → UInt8
  singleGate : UInt8 → UInt8
  hasSingle : Bool
  pairPattern : Option (Pattern UInt8)

/-- The sets of `_build_prefilter`. -/
structure Gates where
  exact : Bool
  firstBytes : List UInt8
  singleBytes : List UInt8
  pairPrefixes : List (List UInt8)

/-- One literal of the loop. -/
def Gates.add (g : Gates) (content : Text) : Gates :=
  match utf8 content with
  | [] => { g with exact := false }
  | [first] =>
    { g with firstBytes := g.firstBytes.insert first, singleBytes := g.singleBytes.insert first }
  | first :: second :: _ =>
    { g with
      firstBytes := g.firstBytes.insert first
      pairPrefixes := g.pairPrefixes.insert [first, second] }

/-- `re.escape(prefix)`: a pattern of the bytes themselves. -/
def escape : List UInt8 → Pattern UInt8
  | [] => .rep (fun _ => false) 0 none
  | byte :: bytes => .one (fun b => b = byte) ++ escape bytes

/-- `b"|".join(..)` -/
def alternation (word : List UInt8) : List (List UInt8) → Pattern UInt8
  | [] => escape word
  | next :: words => escape word <|> alternation next words

/-- `_build_prefilter` -/
def Prefilter.build (exact : Bool) (contents : List Text) : Prefilter :=
  let g := contents.foldl Gates.add ⟨exact, [], [], []⟩
  { exact := g.exact
    firstGate := fun index => if index ∈ g.firstBytes then 1 else 0
    singleGate := fun index => if index ∈ g.singleBytes then 1 else 0
    hasSingle := !g.singleBytes.isEmpty
    pairPattern :=
      match g.pairPrefixes.insertionSort (· ≤ ·) with
      | [] => none
      | word :: words => some (alternation word words) }

/-- `pattern.search(raw)`: where the first match begins. -/
def search (pattern : Pattern UInt8) (raw : List UInt8) : Option ℕ :=
  (List.range (raw.length + 1)).find? fun i =>
    (pattern.first (fun j => raw.getD j 0) raw.length i).isSome

/-- `_prefilter_hit` -/
def Prefilter.hit (p : Prefilter) (raw : List UInt8) : Bool :=
  if !p.exact then true
  else if raw.isEmpty then false
  else if 1 ∉ raw.map p.firstGate then false
  else if p.hasSingle && decide (1 ∈ raw.map p.singleGate) then true
  else
    match p.pairPattern with
    | none => false
    | some pattern => (search pattern raw).isSome

/-- The loop of `_native_prefilter_prefixes`. -/
def nativeLoop : List Text → List (ℤ × ℤ) → Option (List (ℤ × ℤ))
  | [], prefixes => some prefixes
  | content :: contents, prefixes =>
    match utf8 content with
    | [] => none
    | [first] => nativeLoop contents (prefixes.insert (first.toNat, -1))
    | first :: second :: _ => nativeLoop contents (prefixes.insert (first.toNat, second.toNat))

/-- `_native_prefilter_prefixes` -/
def Prefilter.nativePrefixes (p : Prefilter) (contents : List Text) : Option (List (ℤ × ℤ)) :=
  if !p.exact then none
  else (nativeLoop contents []).map fun prefixes =>
    prefixes.insertionSort fun a b => a.1 < b.1 ∨ a.1 = b.1 ∧ a.2 ≤ b.2

/-! ### The router -/

/-- A one-byte literal, or the first two bytes of a longer one. -/
structure LiteralPrefix where
  first : UInt8
  second : Option UInt8
  deriving DecidableEq

/-- The binding: the first byte is one of eight bits, and the second one is -1 or a byte. -/
def literalPrefix (p : ℤ × ℤ) : Option LiteralPrefix :=
  if 0 ≤ p.1 ∧ p.1 ≤ 255 then
    if p.2 = -1 then some ⟨UInt8.ofNat p.1.toNat, none⟩
    else if 0 ≤ p.2 ∧ p.2 ≤ 255 then
      some ⟨UInt8.ofNat p.1.toNat, some (UInt8.ofNat p.2.toNat)⟩
    else none
  else none

/-- The searches of the byte library: the first position of one of the bytes. -/
class Memchr where
  memchr : UInt8 → List UInt8 → Option ℕ
  memchr2 : UInt8 → UInt8 → List UInt8 → Option ℕ
  memchr3 : UInt8 → UInt8 → UInt8 → List UInt8 → Option ℕ
  memchr_eq : ∀ a bytes, memchr a bytes = bytes.findIdx? fun b => b = a
  memchr2_eq : ∀ a b bytes, memchr2 a b bytes = bytes.findIdx? fun x => x = a ∨ x = b
  memchr3_eq : ∀ a b c bytes, memchr3 a b c bytes = bytes.findIdx? fun x => x = a ∨ x = b ∨ x = c

/-- The stage of the router. -/
structure PrefixFilter where
  firstBytes : List UInt8
  firstMask : UInt8 → Bool
  singleMask : UInt8 → Bool
  pairBits : ℕ → BitVec 64

namespace PrefixFilter

/-- The number of a pair of bytes. -/
def key (first second : UInt8) : ℕ := (first.toNat <<< 8) ||| second.toNat

/-- One prefix of the loop. -/
def add (f : PrefixFilter) (p : LiteralPrefix) : PrefixFilter :=
  let f := { f with firstMask := Function.update f.firstMask p.first true }
  match p.second with
  | some second =>
    let key := key p.first second
    let word := f.pairBits (key >>> 6) ||| 1#64 <<< (key &&& 63)
    { f with pairBits := Function.update f.pairBits (key >>> 6) word }
  | none => { f with singleMask := Function.update f.singleMask p.first true }

/-- `PrefixFilter::new` -/
def new (prefixes : List LiteralPrefix) : PrefixFilter :=
  let f := prefixes.foldl add ⟨[], fun _ => false, fun _ => false, fun _ => 0⟩
  { f with firstBytes := ((List.range 256).map UInt8.ofNat).filter f.firstMask }

/-- `pair_present` -/
def pairPresent (f : PrefixFilter) (first second : UInt8) : Bool :=
  let key := key first second
  f.pairBits (key >>> 6) &&& 1#64 <<< (key &&& 63) != 0

variable [Memchr]

/-- `next_candidate` -/
def nextCandidate (f : PrefixFilter) (bytes : List UInt8) : Option ℕ :=
  match f.firstBytes with
  | [] => none
  | [a] => Memchr.memchr a bytes
  | [a, b] => Memchr.memchr2 a b bytes
  | [a, b, c] => Memchr.memchr3 a b c bytes
  | _ => bytes.findIdx? f.firstMask

/-- The loop of `may_match`; the text from `base` on is what is left. -/
def mayMatchFrom (f : PrefixFilter) (bytes : List UInt8) : ℕ → ℕ → Bool
  | 0, _ => false
  | fuel + 1, base =>
    if base < bytes.length then
      match f.nextCandidate (bytes.drop base) with
      | none => false
      | some relative =>
        let index := base + relative
        match bytes[index]? with
        | none => false
        | some first =>
          if f.singleMask first then true
          else if bytes[index + 1]?.any (f.pairPresent first) then true
          else f.mayMatchFrom bytes fuel (index + 1)
    else false

/-- `may_match` -/
def mayMatch (f : PrefixFilter) (bytes : List UInt8) : Bool := f.mayMatchFrom bytes bytes.length 0

end PrefixFilter

/-! ### Literals and their first bytes -/

variable {contents : List Text} {raw : List UInt8} {a b : UInt8} {i : ℕ}

/-- A literal of one byte. -/
def Single (contents : List Text) (b : UInt8) : Prop := ∃ c ∈ contents, utf8 c = [b]

/-- The first two bytes of a literal. -/
def Pair (contents : List Text) (a b : UInt8) : Prop :=
  ∃ c ∈ contents, ∃ rest, utf8 c = a :: b :: rest

/-- Some position holds a one-byte literal or the first two bytes of a longer one. -/
def Hits (contents : List Text) (raw : List UInt8) : Prop :=
  ∃ i b, raw[i]? = some b ∧
    (Single contents b ∨ ∃ b', raw[i + 1]? = some b' ∧ Pair contents b b')

theorem pair_prefix_drop : [a, b] <+: raw.drop i ↔ raw[i]? = some a ∧ raw[i + 1]? = some b := by
  rw [← Nat.add_zero i, ← List.getElem?_drop, Nat.add_zero, ← List.getElem?_drop]
  cases raw.drop i with
  | nil => simp
  | cons x xs =>
    cases xs with
    | nil => simp
    | cons y ys => simp [List.cons_prefix_cons, eq_comm]

/-- A hit is a one-byte literal in the text, or a pair where it stands. -/
theorem hits_iff : Hits contents raw ↔ (∃ b ∈ raw, Single contents b) ∨
    ∃ i, i ≤ raw.length ∧ ∃ a b, Pair contents a b ∧ [a, b] <+: raw.drop i := by
  constructor
  · rintro ⟨i, b, hb, hsingle | ⟨b', hb', hpair⟩⟩
    · exact .inl ⟨b, List.mem_of_getElem? hb, hsingle⟩
    · have hlt := (List.getElem?_eq_some_iff.mp hb).1
      exact .inr ⟨i, hlt.le, b, b', hpair, pair_prefix_drop.mpr ⟨hb, hb'⟩⟩
  · rintro (⟨b, hmem, hsingle⟩ | ⟨i, -, a, b, hpair, hocc⟩)
    · obtain ⟨i, hi⟩ := List.getElem?_of_mem hmem
      exact ⟨i, b, hi, .inl hsingle⟩
    · obtain ⟨ha, hb⟩ := pair_prefix_drop.mp hocc
      exact ⟨i, a, ha, .inr ⟨b, hb, hpair⟩⟩

/-- A literal that occurs is a hit. -/
theorem hits_of_occursAt {content : Text} (hmem : content ∈ contents) (hne : utf8 content ≠ [])
    (h : OccursAt (utf8 content) raw i) : Hits contents raw := by
  obtain ⟨rest, hrest⟩ := h
  have hget (j : ℕ) : raw[i + j]? = (utf8 content ++ rest)[j]? := by
    rw [hrest, List.getElem?_drop]
  cases hc : utf8 content with
  | nil => exact absurd hc hne
  | cons b bytes =>
    have h0 := hget 0
    rw [hc] at h0
    refine ⟨i, b, h0, ?_⟩
    cases bytes with
    | nil => exact .inl ⟨content, hmem, hc⟩
    | cons b' bytes =>
      have h1 := hget 1
      rw [hc] at h1
      exact .inr ⟨b', h1, content, hmem, bytes, hc⟩

/-! ### The stage of the frontend -/

/-- What the sets of the loop hold. -/
structure Gates.Collects (g₀ : Gates) (contents : List Text) (g : Gates) : Prop where
  exact : g.exact = true ↔ g₀.exact = true ∧ ∀ c ∈ contents, utf8 c ≠ []
  single : ∀ b, b ∈ g.singleBytes ↔ b ∈ g₀.singleBytes ∨ Single contents b
  pair : ∀ w, w ∈ g.pairPrefixes ↔ w ∈ g₀.pairPrefixes ∨ ∃ a b, w = [a, b] ∧ Pair contents a b
  first : ∀ b, b ∈ g.firstBytes ↔
    b ∈ g₀.firstBytes ∨ Single contents b ∨ ∃ b', Pair contents b b'

/-- One literal of the loop. -/
theorem Gates.collects_add (g : Gates) (content : Text) : g.Collects [content] (g.add content) := by
  have hsingle {b : UInt8} : Single [content] b ↔ utf8 content = [b] := by simp [Single]
  have hpair {a b : UInt8} : Pair [content] a b ↔ ∃ rest, utf8 content = a :: b :: rest := by
    simp [Pair]
  rw [Gates.add]
  split
  · rename_i hc
    exact ⟨by simp [hc], by simp [hsingle, hc], by simp [hpair, hc], by simp [hsingle, hpair, hc]⟩
  · rename_i first hc
    refine ⟨by simp [hc], fun b => ?_, by simp [hpair, hc], fun b => ?_⟩
    · simp [hsingle, hc, List.mem_insert_iff, or_comm, eq_comm]
    · simp [hsingle, hpair, hc, List.mem_insert_iff, or_comm, eq_comm]
  · rename_i first second rest hc
    refine ⟨by simp [hc], by simp [hsingle, hc], fun w => ?_, fun b => ?_⟩
    · have hw : (∃ a b, w = [a, b] ∧ Pair [content] a b) ↔ w = [first, second] := by
        simp [hpair, hc]
      rw [hw, List.mem_insert_iff, or_comm]
    · simp [hsingle, hpair, hc, List.mem_insert_iff, or_comm, eq_comm]

theorem Gates.Collects.cons {g₀ g₁ g₂ : Gates} {content : Text} (h : g₀.Collects [content] g₁)
    (h' : g₁.Collects contents g₂) : g₀.Collects (content :: contents) g₂ := by
  have hsingle {b : UInt8} : Single (content :: contents) b ↔ Single [content] b ∨ Single contents b := by
    simp [Single]
  have hpair {a b : UInt8} : Pair (content :: contents) a b ↔ Pair [content] a b ∨ Pair contents a b := by
    simp [Pair]
  refine ⟨?_, fun b => ?_, fun w => ?_, fun b => ?_⟩
  · rw [h'.exact, h.exact, List.forall_mem_singleton, List.forall_mem_cons, and_assoc]
  · rw [h'.single, h.single, hsingle, or_assoc]
  · simp only [h'.pair, h.pair, hpair, or_assoc, and_or_left, exists_or]
  · rw [h'.first, h.first]
    simp only [hsingle, hpair, exists_or]
    tauto

theorem Gates.collects (g₀ : Gates) (contents : List Text) :
    g₀.Collects contents (contents.foldl Gates.add g₀) := by
  induction contents generalizing g₀ with
  | nil => exact ⟨by simp, by simp [Single], by simp [Pair], by simp [Single, Pair]⟩
  | cons content contents ih => exact (g₀.collects_add content).cons (ih _)

/-! ### The pattern of the pairs -/

/-- The text of the bytes, for the matcher. -/
def textOf (raw : List UInt8) (j : ℕ) : UInt8 := raw.getD j 0

/-- An escaped word matches where it stands. -/
theorem ends_escape (word : List UInt8) (hi : i ≤ raw.length) :
    Pattern.ends (textOf raw) raw.length (escape word) i =
      if word <+: raw.drop i then [i + word.length] else [] := by
  induction word generalizing i with
  | nil =>
    have hrun : Pattern.runLength (textOf raw) (fun _ => false)
        (Pattern.cap none (raw.length - i)) i = 0 := by
      cases Pattern.cap none (raw.length - i) <;> rfl
    rw [escape, Pattern.ends, hrun, if_pos List.nil_prefix]
    rfl
  | cons byte word ih =>
    have hseq : Pattern.ends (textOf raw) raw.length (escape (byte :: word)) i =
        (Pattern.ends (textOf raw) raw.length (.one fun b => b = byte) i).flatMap
          (Pattern.ends (textOf raw) raw.length (escape word)) := rfl
    rw [hseq, Pattern.ends_one]
    by_cases hlt : i < raw.length
    · have hdrop : raw.drop i = textOf raw i :: raw.drop (i + 1) := by
        rw [List.drop_eq_getElem_cons hlt, textOf, List.getD_eq_getElem?_getD,
          List.getElem?_eq_getElem hlt, Option.getD_some]
      have hcons : byte :: word <+: raw.drop i ↔ byte = textOf raw i ∧ word <+: raw.drop (i + 1) := by
        rw [hdrop, List.cons_prefix_cons]
      simp only [hcons]
      by_cases hb : textOf raw i = byte
      · rw [if_pos ⟨hlt, decide_eq_true hb⟩, List.flatMap_singleton, ih hlt, List.length_cons]
        simp only [hb, true_and]
        split_ifs
        · simp
          omega
        · simp
      · rw [if_neg fun h => hb (of_decide_eq_true h.2), if_neg fun h => hb h.1.symm]
        rfl
    · have hdrop : raw.drop i = [] := List.drop_eq_nil_of_le (by omega)
      rw [if_neg fun h => hlt h.1, hdrop, if_neg (by simp)]
      rfl

theorem ends_alternation_ne_nil (word : List UInt8) (words : List (List UInt8))
    (hi : i ≤ raw.length) :
    Pattern.ends (textOf raw) raw.length (alternation word words) i ≠ [] ↔
      ∃ w ∈ word :: words, w <+: raw.drop i := by
  have hone (w : List UInt8) : Pattern.ends (textOf raw) raw.length (escape w) i ≠ [] ↔
      w <+: raw.drop i := by
    rw [ends_escape w hi]
    split_ifs with h <;> simp [h]
  induction words generalizing word with
  | nil =>
    rw [alternation, hone]
    simp
  | cons next words ih =>
    have halt : Pattern.ends (textOf raw) raw.length (alternation word (next :: words)) i =
        Pattern.ends (textOf raw) raw.length (escape word) i ++
          Pattern.ends (textOf raw) raw.length (alternation next words) i := rfl
    rw [List.exists_mem_cons_iff, halt, ne_eq, List.append_eq_nil_iff, not_and_or]
    exact or_congr (hone word) (ih next)

theorem isSome_search (word : List UInt8) (words : List (List UInt8)) :
    (search (alternation word words) raw).isSome = true ↔
      ∃ i, i ≤ raw.length ∧ ∃ w ∈ word :: words, w <+: raw.drop i := by
  have hfirst {i : ℕ} (hi : i ≤ raw.length) :
      (Pattern.first (textOf raw) raw.length (alternation word words) i).isSome = true ↔
        ∃ w ∈ word :: words, w <+: raw.drop i := by
    rw [← ends_alternation_ne_nil word words hi, Pattern.first, List.isSome_head?]
  rw [search, List.find?_isSome]
  constructor
  · rintro ⟨i, hi, hsome⟩
    have hle := Nat.lt_succ_iff.mp (List.mem_range.mp hi)
    exact ⟨i, hle, (hfirst hle).mp hsome⟩
  · rintro ⟨i, hi, hw⟩
    exact ⟨i, List.mem_range.mpr (Nat.lt_succ_of_le hi), (hfirst hi).mpr hw⟩

/-- What the frontend's stage decides, when it decides anything. -/
theorem Prefilter.hit_iff {exact : Bool} (hexact : (Prefilter.build exact contents).exact = true) :
    (Prefilter.build exact contents).hit raw = true ↔ Hits contents raw := by
  obtain ⟨-, hsingle, hpair, hfirst⟩ := Gates.collects ⟨exact, [], [], []⟩ contents
  set g := contents.foldl Gates.add ⟨exact, [], [], []⟩ with hg
  have hsingle {b : UInt8} : b ∈ g.singleBytes ↔ Single contents b := by
    rw [hsingle]
    simp
  have hpair {w : List UInt8} : w ∈ g.pairPrefixes ↔ ∃ a b, w = [a, b] ∧ Pair contents a b := by
    rw [hpair]
    simp
  have hfirst {b : UInt8} : b ∈ g.firstBytes ↔ Single contents b ∨ ∃ b', Pair contents b b' := by
    rw [hfirst]
    simp
  have hgate (set : List UInt8) : 1 ∈ raw.map (fun index => if index ∈ set then (1 : UInt8) else 0) ↔
      ∃ b ∈ raw, b ∈ set := by
    simp only [List.mem_map]
    refine exists_congr fun b => and_congr_right fun _ => ?_
    split_ifs with hb <;> simp [hb]
  have hfirstGate : 1 ∈ raw.map (Prefilter.build exact contents).firstGate ↔
      ∃ b ∈ raw, b ∈ g.firstBytes := hgate g.firstBytes
  have hsingleGate : 1 ∈ raw.map (Prefilter.build exact contents).singleGate ↔
      ∃ b ∈ raw, b ∈ g.singleBytes := hgate g.singleBytes
  -- the pattern of the pairs
  have hpattern : (match (Prefilter.build exact contents).pairPattern with
      | none => false
      | some pattern => (search pattern raw).isSome) = true ↔
        ∃ i, i ≤ raw.length ∧ ∃ a b, Pair contents a b ∧ [a, b] <+: raw.drop i := by
    have hsorted {w : List UInt8} : w ∈ g.pairPrefixes.insertionSort (· ≤ ·) ↔
        ∃ a b, w = [a, b] ∧ Pair contents a b := by
      rw [List.mem_insertionSort, hpair]
    have hbuild : (Prefilter.build exact contents).pairPattern =
        match g.pairPrefixes.insertionSort (· ≤ ·) with
        | [] => none
        | word :: words => some (alternation word words) := rfl
    rw [hbuild]
    cases hwords : g.pairPrefixes.insertionSort (· ≤ ·) with
    | nil =>
      rw [hwords] at hsorted
      refine iff_of_false Bool.false_ne_true ?_
      rintro ⟨i, -, a, b, hab, -⟩
      exact absurd (hsorted.mpr ⟨a, b, rfl, hab⟩) List.not_mem_nil
    | cons word words =>
      rw [hwords] at hsorted
      dsimp only
      rw [isSome_search]
      refine exists_congr fun i => and_congr_right fun _ => ⟨?_, ?_⟩
      · rintro ⟨w, hw, hocc⟩
        obtain ⟨a, b, rfl, hab⟩ := hsorted.mp hw
        exact ⟨a, b, hab, hocc⟩
      · rintro ⟨a, b, hab, hocc⟩
        exact ⟨[a, b], hsorted.mpr ⟨a, b, rfl, hab⟩, hocc⟩
  have hsingles : ((Prefilter.build exact contents).hasSingle &&
      decide (1 ∈ raw.map (Prefilter.build exact contents).singleGate)) = true ↔
        ∃ b ∈ raw, Single contents b := by
    have hhas : (Prefilter.build exact contents).hasSingle = !g.singleBytes.isEmpty := rfl
    rw [hhas, Bool.and_eq_true, decide_eq_true_eq, hsingleGate]
    constructor
    · rintro ⟨-, b, hb, hmem⟩
      exact ⟨b, hb, hsingle.mp hmem⟩
    · rintro ⟨b, hb, hone⟩
      have hmem := hsingle.mpr hone
      refine ⟨?_, b, hb, hmem⟩
      rw [Bool.not_eq_true', List.isEmpty_eq_false_iff]
      exact List.ne_nil_of_mem hmem
  rw [Prefilter.hit, hexact, Bool.not_true, if_neg Bool.false_ne_true, hits_iff]
  by_cases hempty : raw.isEmpty = true
  · obtain rfl := List.isEmpty_iff.mp hempty
    rw [if_pos hempty]
    refine iff_of_false Bool.false_ne_true ?_
    rintro (⟨b, hb, -⟩ | ⟨i, -, a, b, -, hocc⟩)
    · exact absurd hb List.not_mem_nil
    · simp at hocc
  · rw [if_neg hempty]
    by_cases hgate₁ : 1 ∉ raw.map (Prefilter.build exact contents).firstGate
    · rw [if_pos hgate₁]
      have hnone : ∀ b ∈ raw, b ∉ g.firstBytes := fun b hb hmem => hgate₁ (hfirstGate.mpr ⟨b, hb, hmem⟩)
      refine iff_of_false Bool.false_ne_true ?_
      rintro (⟨b, hb, hone⟩ | ⟨i, -, a, b, hab, hocc⟩)
      · exact hnone b hb (hfirst.mpr (.inl hone))
      · have ha := List.mem_of_getElem? (pair_prefix_drop.mp hocc).1
        exact hnone a ha (hfirst.mpr (.inr ⟨b, hab⟩))
    · rw [if_neg hgate₁, ← hsingles, ← hpattern]
      split_ifs with hs
      · exact iff_of_true rfl (.inl hs)
      · exact ⟨.inr, fun h => h.resolve_left hs⟩

/-- A text that the frontend's stage does not flag holds no literal. -/
theorem Prefilter.no_literal {exact : Bool} (hmiss : (Prefilter.build exact contents).hit raw = false) :
    ∀ content ∈ contents, ∀ i, ¬OccursAt (utf8 content) raw i := by
  intro content hmem i hocc
  have hexact : (Prefilter.build exact contents).exact = true := by
    by_contra hno
    rw [Prefilter.hit, Bool.eq_false_iff.mpr hno] at hmiss
    cases hmiss
  have hne := ((Gates.collects ⟨exact, [], [], []⟩ contents).exact.mp hexact).2 content hmem
  have hhit := (Prefilter.hit_iff hexact).mpr (hits_of_occursAt hmem hne hocc)
  exact absurd (hmiss.symm.trans hhit) Bool.false_ne_true

/-! ### The stage of the router -/

namespace PrefixFilter

variable {f : PrefixFilter} {prefixes : List LiteralPrefix}

theorem key_inj {a b a' b' : UInt8} (h : key a b = key a' b') : a = a' ∧ b = b' := by
  have hkey (a b : UInt8) : key a b = a.toNat * 256 + b.toNat := by
    rw [key, ← Nat.shiftLeft_add_eq_or_of_lt b.toNat_lt, Nat.shiftLeft_eq]
  have hb := b.toNat_lt
  have hb' := b'.toNat_lt
  rw [hkey, hkey] at h
  exact ⟨UInt8.toNat_inj.mp (by omega), UInt8.toNat_inj.mp (by omega)⟩

theorem and_mask63 (x : ℕ) : x &&& 63 = x % 64 := Nat.and_two_pow_sub_one_eq_mod x 6

/-- A pair is there when its bit is set. -/
theorem pairPresent_eq : f.pairPresent a b =
    (f.pairBits (key a b >>> 6)).getLsbD (key a b &&& 63) := by
  have hlt : key a b &&& 63 < 64 := by
    rw [and_mask63]
    omega
  rw [pairPresent, ← BitVec.twoPow_eq, BitVec.and_twoPow]
  have hpow : BitVec.twoPow 64 (key a b &&& 63) ≠ 0 := by
    intro hzero
    have := congrArg BitVec.toNat hzero
    rw [BitVec.toNat_twoPow_of_lt hlt] at this
    exact absurd this (Nat.two_pow_pos _).ne'
  cases (f.pairBits (key a b >>> 6)).getLsbD (key a b &&& 63) with
  | false => rfl
  | true => exact bne_iff_ne.mpr hpow

/-- Setting the bit of a key. -/
theorem getLsbD_set (bits : ℕ → BitVec 64) (k k' : ℕ) :
    (Function.update bits (k' >>> 6) (bits (k' >>> 6) ||| 1#64 <<< (k' &&& 63)) (k >>> 6)).getLsbD
      (k &&& 63) = true ↔ k = k' ∨ (bits (k >>> 6)).getLsbD (k &&& 63) = true := by
  have hkey : k = k' ↔ k >>> 6 = k' >>> 6 ∧ k' &&& 63 = k &&& 63 := by
    rw [and_mask63, and_mask63, Nat.shiftRight_eq_div_pow, Nat.shiftRight_eq_div_pow]
    omega
  have hlt : k' &&& 63 < 64 := by
    rw [and_mask63]
    omega
  rw [hkey]
  by_cases hword : k >>> 6 = k' >>> 6
  · rw [hword, Function.update_self, ← BitVec.twoPow_eq, BitVec.getLsbD_or, BitVec.getLsbD_twoPow]
    simp [hlt, or_comm]
  · rw [Function.update_of_ne hword]
    simp [hword]

/-- One prefix of the loop. -/
theorem add_spec (f : PrefixFilter) (p : LiteralPrefix) (a b : UInt8) :
    ((f.add p).firstMask a = true ↔ a = p.first ∨ f.firstMask a = true) ∧
      ((f.add p).singleMask a = true ↔ p = ⟨a, none⟩ ∨ f.singleMask a = true) ∧
      ((f.add p).pairPresent a b = true ↔ p = ⟨a, some b⟩ ∨ f.pairPresent a b = true) := by
  have hfirst : Function.update f.firstMask p.first true a = true ↔
      a = p.first ∨ f.firstMask a = true := by
    by_cases ha : a = p.first
    · simp [ha]
    · simp [ha]
  obtain ⟨first, second⟩ := p
  cases second with
  | none =>
    refine ⟨hfirst, ?_, ?_⟩
    · have hadd : (f.add ⟨first, none⟩).singleMask = Function.update f.singleMask first true := rfl
      rw [hadd]
      by_cases ha : a = first
      · simp [ha]
      · simp [Function.update_of_ne ha, Ne.symm ha]
    · have hadd : (f.add ⟨first, none⟩).pairPresent a b = f.pairPresent a b := rfl
      rw [hadd]
      simp
  | some second =>
    refine ⟨hfirst, ?_, ?_⟩
    · have hadd : (f.add ⟨first, some second⟩).singleMask = f.singleMask := rfl
      rw [hadd]
      simp
    · rw [pairPresent_eq, pairPresent_eq]
      have hadd : (f.add ⟨first, some second⟩).pairBits =
          Function.update f.pairBits (key first second >>> 6)
            (f.pairBits (key first second >>> 6) ||| 1#64 <<< (key first second &&& 63)) := rfl
      have hsame : (⟨first, some second⟩ : LiteralPrefix) = ⟨a, some b⟩ ↔
          key a b = key first second := by
        constructor
        · intro h
          obtain ⟨rfl, hb⟩ := LiteralPrefix.mk.inj h
          rw [Option.some.inj hb]
        · intro h
          obtain ⟨rfl, rfl⟩ := key_inj h
          rfl
      rw [hadd, hsame]
      exact getLsbD_set f.pairBits (key a b) (key first second)

/-- What the masks and the table of the loop hold. -/
theorem foldl_add (f : PrefixFilter) (prefixes : List LiteralPrefix) (a b : UInt8) :
    ((prefixes.foldl add f).firstMask a = true ↔
        (∃ p ∈ prefixes, a = p.first) ∨ f.firstMask a = true) ∧
      ((prefixes.foldl add f).singleMask a = true ↔
        (∃ p ∈ prefixes, p = ⟨a, none⟩) ∨ f.singleMask a = true) ∧
      ((prefixes.foldl add f).pairPresent a b = true ↔
        (∃ p ∈ prefixes, p = ⟨a, some b⟩) ∨ f.pairPresent a b = true) := by
  induction prefixes generalizing f with
  | nil => simp
  | cons p prefixes ih =>
    obtain ⟨hfirst, hsingle, hpair⟩ := ih (f.add p)
    obtain ⟨hfirst₁, hsingle₁, hpair₁⟩ := f.add_spec p a b
    -- what is there is there before, or it is the new prefix
    have hcons (q : LiteralPrefix → Prop) (old : Prop) :
        ((∃ p ∈ prefixes, q p) ∨ q p ∨ old) ↔ (∃ p' ∈ p :: prefixes, q p') ∨ old := by
      rw [List.exists_mem_cons_iff, or_left_comm, or_assoc]
    rw [List.foldl_cons, hfirst, hfirst₁, hsingle, hsingle₁, hpair, hpair₁]
    exact ⟨hcons _ _, hcons _ _, hcons _ _⟩

theorem firstMask_new : (new prefixes).firstMask a = true ↔ ∃ p ∈ prefixes, a = p.first :=
  (foldl_add _ prefixes a a).1.trans (by simp)

theorem singleMask_new : (new prefixes).singleMask a = true ↔ ⟨a, none⟩ ∈ prefixes :=
  (foldl_add _ prefixes a a).2.1.trans (by simp)

theorem pairPresent_new : (new prefixes).pairPresent a b = true ↔ ⟨a, some b⟩ ∈ prefixes := by
  refine (foldl_add ⟨[], fun _ => false, fun _ => false, fun _ => 0⟩ prefixes a b).2.2.trans ?_
  rw [pairPresent_eq]
  simp

theorem mem_firstBytes : a ∈ (new prefixes).firstBytes ↔ (new prefixes).firstMask a = true := by
  have hmem : a ∈ (List.range 256).map UInt8.ofNat :=
    List.mem_map.mpr ⟨a.toNat, List.mem_range.mpr a.toNat_lt, UInt8.ofNat_toNat⟩
  exact List.mem_filter.trans (and_iff_right hmem)

variable [Memchr]

/-- The next position of a first byte: the search that the list of them chooses is the one of
the mask. -/
theorem nextCandidate_eq (prefixes : List LiteralPrefix) (bytes : List UInt8) :
    (new prefixes).nextCandidate bytes = bytes.findIdx? (new prefixes).firstMask := by
  have hmask : (new prefixes).firstMask = fun x => decide (x ∈ (new prefixes).firstBytes) := by
    ext x
    rw [Bool.eq_iff_iff, decide_eq_true_eq, mem_firstBytes]
  rw [nextCandidate]
  split <;> rename_i hbytes
  · rw [hmask, hbytes, eq_comm, List.findIdx?_eq_none_iff]
    simp
  · rw [hmask, hbytes, Memchr.memchr_eq]
    simp
  · rw [hmask, hbytes, Memchr.memchr2_eq]
    simp
  · rw [hmask, hbytes, Memchr.memchr3_eq]
    simp
  · rfl

/-- The prefixes are at the position. -/
def At (prefixes : List LiteralPrefix) (raw : List UInt8) (i : ℕ) : Prop :=
  ∃ b, raw[i]? = some b ∧
    (⟨b, none⟩ ∈ prefixes ∨ ∃ b', raw[i + 1]? = some b' ∧ ⟨b, some b'⟩ ∈ prefixes)

/-- The loop, from any position: it stops at the first position that a prefix is at. -/
theorem mayMatchFrom_iff {fuel base : ℕ} (hfuel : raw.length ≤ base + fuel) :
    (new prefixes).mayMatchFrom raw fuel base = true ↔ ∃ i, base ≤ i ∧ At prefixes raw i := by
  have hpast {i : ℕ} (hi : raw.length ≤ i) : ¬At prefixes raw i := by
    rintro ⟨b, hb, -⟩
    rw [List.getElem?_eq_none hi] at hb
    cases hb
  induction fuel generalizing base with
  | zero =>
    refine iff_of_false Bool.false_ne_true ?_
    rintro ⟨i, hi, hat⟩
    exact hpast (by omega) hat
  | succ fuel ih =>
    rw [mayMatchFrom]
    by_cases hbase : base < raw.length
    swap
    · rw [if_neg hbase]
      refine iff_of_false Bool.false_ne_true ?_
      rintro ⟨i, hi, hat⟩
      exact hpast (by omega) hat
    rw [if_pos hbase, nextCandidate_eq]
    -- a prefix is only at a first byte
    have hmask {i : ℕ} {b : UInt8} (hb : raw[i]? = some b) (hat : At prefixes raw i) :
        (new prefixes).firstMask b = true := by
      obtain ⟨b₁, hb₁, hat⟩ := hat
      obtain rfl := Option.some.inj (hb.symm.trans hb₁)
      rw [firstMask_new]
      rcases hat with hmem | ⟨b', -, hmem⟩
      · exact ⟨_, hmem, rfl⟩
      · exact ⟨_, hmem, rfl⟩
    cases hfind : (raw.drop base).findIdx? (new prefixes).firstMask with
    | none =>
      refine iff_of_false Bool.false_ne_true ?_
      rintro ⟨i, hi, hat⟩
      obtain ⟨b, hb, -⟩ := id hat
      have hmem : b ∈ raw.drop base := by
        refine List.mem_of_getElem? (i := i - base) ?_
        rw [List.getElem?_drop, Nat.add_sub_cancel' hi, hb]
      exact absurd (hmask hb hat) (Bool.eq_false_iff.mp (List.findIdx?_eq_none_iff.mp hfind b hmem))
    | some relative =>
      obtain ⟨hlt, hfirst, hbefore⟩ := List.findIdx?_eq_some_iff_getElem.mp hfind
      have hlen := List.length_drop (i := base) (l := raw)
      have hget : raw[base + relative]? = some (raw.drop base)[relative] := by
        rw [← List.getElem?_drop, List.getElem?_eq_getElem hlt]
      dsimp only
      rw [hget]
      set first := (raw.drop base)[relative] with hfirst_eq
      dsimp only
      -- the positions that the search skips
      have hskip {i : ℕ} (hi : base ≤ i) (hat : At prefixes raw i) : base + relative ≤ i := by
        by_contra hlt'
        have hrel : i - base < (raw.drop base).length := by omega
        have hb : raw[i]? = some (raw.drop base)[i - base] := by
          rw [← List.getElem?_eq_getElem hrel, List.getElem?_drop, Nat.add_sub_cancel' hi]
        exact hbefore (i - base) (by omega) (hmask hb hat)
      have hhere : At prefixes raw (base + relative) ↔ ⟨first, none⟩ ∈ prefixes ∨
          raw[base + relative + 1]?.any ((new prefixes).pairPresent first) = true := by
        simp only [At, hget, Option.some.injEq, exists_eq_left', Option.any_eq_true, pairPresent_new]
      have hsplit : (∃ i, base ≤ i ∧ At prefixes raw i) ↔ At prefixes raw (base + relative) ∨
          ∃ i, base + relative + 1 ≤ i ∧ At prefixes raw i := by
        constructor
        · rintro ⟨i, hi, hat⟩
          rcases (hskip hi hat).eq_or_lt with rfl | hlt
          · exact .inl hat
          · exact .inr ⟨i, hlt, hat⟩
        · rintro (hat | ⟨i, hi, hat⟩)
          · exact ⟨_, Nat.le_add_right _ _, hat⟩
          · exact ⟨i, by omega, hat⟩
      rw [hsplit, hhere]
      split_ifs with hsingle hpair
      · exact iff_of_true rfl (.inl (.inl (singleMask_new.mp hsingle)))
      · exact iff_of_true rfl (.inl (.inr hpair))
      · refine (ih (by omega)).trans ⟨.inr, fun h => h.resolve_left ?_⟩
        rintro (hmem | hany)
        · exact hsingle (singleMask_new.mpr hmem)
        · exact hpair hany

/-- What the router's stage decides. -/
theorem mayMatch_iff : (new prefixes).mayMatch raw = true ↔ ∃ i, At prefixes raw i := by
  rw [mayMatch, mayMatchFrom_iff (by omega)]
  simp

end PrefixFilter

/-! ### What the frontend exports -/

/-- The numbers of a prefix. -/
def LiteralPrefix.code (p : LiteralPrefix) : ℤ × ℤ :=
  (p.first.toNat, match p.second with
    | none => -1
    | some second => second.toNat)

theorem literalPrefix_code (p : LiteralPrefix) : literalPrefix p.code = some p := by
  have hbyte (b : UInt8) : (0 : ℤ) ≤ b.toNat ∧ (b.toNat : ℤ) ≤ 255 := by
    have := b.toNat_lt
    omega
  obtain ⟨first, second⟩ := p
  cases second with
  | none => simp [literalPrefix, LiteralPrefix.code, hbyte first]
  | some second =>
    have hne : (second.toNat : ℤ) ≠ -1 := by omega
    simp [literalPrefix, LiteralPrefix.code, hbyte first, hbyte second, hne]

theorem code_injective : Function.Injective LiteralPrefix.code := fun p q h =>
  Option.some.inj ((literalPrefix_code p).symm.trans ((congrArg literalPrefix h).trans
    (literalPrefix_code q)))

/-- The prefixes of the literals. -/
def Registered (contents : List Text) (p : LiteralPrefix) : Prop :=
  match p.second with
  | none => Single contents p.first
  | some second => Pair contents p.first second

theorem registered_cons {content : Text} {p : LiteralPrefix} :
    Registered (content :: contents) p ↔ Registered [content] p ∨ Registered contents p := by
  rw [Registered, Registered, Registered]
  cases p.second <;> simp [Single, Pair]

/-- The loop exports the prefixes of the literals, none of which is empty. -/
theorem nativeLoop_spec {prefixes ps : List (ℤ × ℤ)} (h : nativeLoop contents prefixes = some ps) :
    (∀ c ∈ contents, utf8 c ≠ []) ∧
      ∀ q, q ∈ ps ↔ q ∈ prefixes ∨ ∃ p, Registered contents p ∧ q = p.code := by
  induction contents generalizing prefixes with
  | nil =>
    obtain rfl := Option.some.inj h
    refine ⟨by simp, fun q => ?_⟩
    have hno (p : LiteralPrefix) : ¬Registered [] p := by
      rw [Registered]
      cases p.second <;> simp [Single, Pair]
    simp [hno]
  | cons content contents ih =>
    -- the literal adds the one prefix that it has
    have hstep {p : LiteralPrefix} (hne : utf8 content ≠ [])
        (hone : ∀ p', Registered [content] p' ↔ p' = p)
        (h : nativeLoop contents (prefixes.insert p.code) = some ps) :
        (∀ c ∈ content :: contents, utf8 c ≠ []) ∧
          ∀ q, q ∈ ps ↔ q ∈ prefixes ∨ ∃ p, Registered (content :: contents) p ∧ q = p.code := by
      obtain ⟨hall, hmem⟩ := ih h
      refine ⟨List.forall_mem_cons.mpr ⟨hne, hall⟩, fun q => ?_⟩
      rw [hmem, List.mem_insert_iff]
      simp only [registered_cons, hone, or_and_right, exists_or, exists_eq_left]
      rw [or_comm (a := q = p.code), or_assoc]
    rw [nativeLoop] at h
    split at h
    · cases h
    · rename_i first hc
      refine hstep (p := ⟨first, none⟩) (by simp [hc]) (fun p' => ?_) h
      obtain ⟨f', s'⟩ := p'
      cases s' with
      | none => simp [Registered, Single, hc, eq_comm]
      | some s' => simp [Registered, Pair, hc]
    · rename_i first second rest hc
      refine hstep (p := ⟨first, some second⟩) (by simp [hc]) (fun p' => ?_) h
      obtain ⟨f', s'⟩ := p'
      cases s' with
      | none => simp [Registered, Single, hc]
      | some s' => simp [Registered, Pair, hc, eq_comm]

/-- The router reads what the frontend exports as the prefixes of the literals. -/
theorem nativePrefixes_spec {p : Prefilter} {ps : List (ℤ × ℤ)}
    (h : p.nativePrefixes contents = some ps) :
    p.exact = true ∧ ∃ prefixes, ps.mapM literalPrefix = some prefixes ∧
      ∀ l, l ∈ prefixes ↔ Registered contents l := by
  rw [Prefilter.nativePrefixes] at h
  by_cases hexact : p.exact = true
  swap
  · rw [Bool.eq_false_iff.mpr hexact] at h
    cases h
  refine ⟨hexact, ?_⟩
  rw [hexact, Bool.not_true, if_neg Bool.false_ne_true, Option.map_eq_some_iff] at h
  obtain ⟨loop, hloop, rfl⟩ := h
  obtain ⟨-, hmem⟩ := nativeLoop_spec hloop
  have hcodes {q : ℤ × ℤ} (hq : q ∈ loop) : ∃ l, Registered contents l ∧ q = l.code :=
    ((hmem q).mp hq).resolve_left List.not_mem_nil
  set sorted := loop.insertionSort fun a b => a.1 < b.1 ∨ a.1 = b.1 ∧ a.2 ≤ b.2 with hsorted
  have hin {q : ℤ × ℤ} : q ∈ sorted ↔ q ∈ loop := List.mem_insertionSort _
  have hmap (qs : List (ℤ × ℤ)) (hqs : ∀ q ∈ qs, q ∈ loop) : ∃ ls,
      qs.mapM literalPrefix = some ls ∧ qs = ls.map LiteralPrefix.code := by
    induction qs with
    | nil => exact ⟨[], rfl, rfl⟩
    | cons q qs ih =>
      obtain ⟨hq, hrest⟩ := List.forall_mem_cons.mp hqs
      obtain ⟨l, -, rfl⟩ := hcodes hq
      obtain ⟨ls, hls, hcode⟩ := ih hrest
      refine ⟨l :: ls, ?_, by rw [List.map_cons, ← hcode]⟩
      rw [List.mapM_cons, literalPrefix_code, hls]
      rfl
  obtain ⟨ls, hls, hcode⟩ := hmap sorted fun q hq => hin.mp hq
  refine ⟨ls, hls, fun l => ?_⟩
  rw [← List.mem_map_of_injective code_injective, ← hcode, hin, hmem]
  constructor
  · rintro (hnil | ⟨l', hreg, heq⟩)
    · exact absurd hnil List.not_mem_nil
    · rwa [code_injective heq]
  · intro hreg
    exact .inr ⟨l, hreg, rfl⟩

/-- The stage of the router decides what the stage of the frontend does, and a text that they do
not flag holds no literal. -/
theorem prefilters_agree [Memchr] {exact : Bool} {contents : List Text} {ps : List (ℤ × ℤ)}
    (h : (Prefilter.build exact contents).nativePrefixes contents = some ps) :
    ∃ prefixes, ps.mapM literalPrefix = some prefixes ∧ ∀ raw : List UInt8,
      (PrefixFilter.new prefixes).mayMatch raw = (Prefilter.build exact contents).hit raw ∧
      ((Prefilter.build exact contents).hit raw = true ↔ Hits contents raw) ∧
      ((Prefilter.build exact contents).hit raw = false →
        ∀ content ∈ contents, ∀ i, ¬OccursAt (utf8 content) raw i) := by
  obtain ⟨hexact, prefixes, hps, hmem⟩ := nativePrefixes_spec h
  refine ⟨prefixes, hps, fun raw => ⟨?_, Prefilter.hit_iff hexact, Prefilter.no_literal⟩⟩
  rw [Bool.eq_iff_iff, PrefixFilter.mayMatch_iff, Prefilter.hit_iff hexact]
  simp only [PrefixFilter.At, hmem, Registered, Hits]

/-- The searches, one byte at a time. -/
@[reducible] def linear : Memchr where
  memchr a bytes := bytes.findIdx? fun b => b = a
  memchr2 a b bytes := bytes.findIdx? fun x => x = a ∨ x = b
  memchr3 a b c bytes := bytes.findIdx? fun x => x = a ∨ x = b ∨ x = c
  memchr_eq _ _ := rfl
  memchr2_eq _ _ _ := rfl
  memchr3_eq _ _ _ _ := rfl

/-- A literal of one byte and one of two. -/
theorem prefilters_agree_tags :
    ∃ prefixes, [(60, 120), (97, -1)].mapM literalPrefix = some prefixes ∧ ∀ raw : List UInt8,
      @PrefixFilter.mayMatch linear (PrefixFilter.new prefixes) raw =
        (Prefilter.build true [['a'], ['<', 'x']]).hit raw ∧
      ((Prefilter.build true [['a'], ['<', 'x']]).hit raw = true ↔
        Hits [['a'], ['<', 'x']] raw) ∧
      ((Prefilter.build true [['a'], ['<', 'x']]).hit raw = false →
        ∀ content ∈ [['a'], ['<', 'x']], ∀ i, ¬OccursAt (utf8 content) raw i) := by
  have h : (Prefilter.build true [['a'], ['<', 'x']]).nativePrefixes [['a'], ['<', 'x']] =
      some [(60, 120), (97, -1)] := by decide
  exact @prefilters_agree linear _ _ _ h

end Toktier.Frontend
