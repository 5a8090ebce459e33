import Toktier.Lib.Bytes
import Toktier.Lib.Utf8Starts

/-!
# The fingerprint of an added-token table

The bytes that the added-token frontend hashes: the domain tag, the number of tokens, and
each token's content, id and flags. A content is written without its length, so the bytes
of a list tell the contents only together with their lengths.

## Main definitions

* `AddedToken`, `encodeAddedTokens`: a table entry, and the list encoding.
* `addedFrontendFingerprint`: the digest of the tagged encoding.

## Main results

* `fingerprint_eq_iff`: two lists of one fingerprint are equal exactly when the lengths of
  their contents agree.
-/
namespace Toktier.Frontend

open Toktier.Lib

/-- One entry of the added-token table. -/
structure AddedToken where
  content : Text
  id : ℤ
  special : Bool
  single_word : Bool
  lstrip : Bool
  rstrip : Bool
  normalized : Bool
deriving DecidableEq

/-! ## The encoding -/

def encodeString (value : Text) : List UInt8 := 0x01 :: utf8 value

def encodeBool (value : Bool) : List UInt8 := if value then [0x01, 0x01] else [0x01, 0x00]

/-- `none` where packing raises: a value outside of 64 bits. -/
def encodeU64 (value : ℤ) : Option (List UInt8) :=
  if 0 ≤ value ∧ value < 2 ^ 64 then some (0x01 :: leBytes 8 value.toNat) else none

/-- The flags, in the frozen order. -/
def AddedToken.flags (token : AddedToken) : List Bool :=
  [token.special, token.single_word, token.lstrip, token.rstrip, token.normalized]

/-- The tokens one after another. -/
def encodeTokens : List AddedToken → Option (List UInt8)
  | [] => some []
  | token :: tokens => do
      let id ← encodeU64 token.id
      let rest ← encodeTokens tokens
      pure (encodeString token.content ++ id ++ token.flags.flatMap encodeBool ++ rest)

/-- The list encoding: presence byte, 32-bit count, tokens. -/
def encodeAddedTokens (added_tokens : List AddedToken) : Option (List UInt8) := do
  let tokens ← encodeTokens added_tokens
  if added_tokens.length < 2 ^ 32 then
    pure ([0x01] ++ leBytes 4 added_tokens.length ++ tokens)
  else none

/-- The domain tag of the capability identity. -/
def ADDED_FRONTEND_DOMAIN_TAG : List UInt8 := utf8 "toktier.added_frontend.v1\x00".toList

section Fingerprint

variable {δ : Type} (sha256 : List UInt8 → δ)

def addedFrontendFingerprint (added_tokens : List AddedToken) : Option δ :=
  (encodeAddedTokens added_tokens).map fun bs => sha256 (ADDED_FRONTEND_DOMAIN_TAG ++ bs)

end Fingerprint

/-! ## One token -/

variable {t t' : AddedToken} {ts ts' : List AddedToken} {bs u rest rest' : List UInt8}

/-- What follows the content: the id and the flags. -/
def AddedToken.trailer (token : AddedToken) : List UInt8 :=
  0x01 :: (leBytes 8 token.id.toNat ++ token.flags.flatMap encodeBool)

/-- The id fits its field. -/
def AddedToken.Packs (token : AddedToken) : Prop := 0 ≤ token.id ∧ token.id < 2 ^ 64

theorem encodeBool_eq (b : Bool) : encodeBool b = [0x01, if b then 0x01 else 0x00] := by
  cases b <;> rfl

theorem AddedToken.length_trailer (t : AddedToken) : t.trailer.length = 19 := by
  simp [trailer, flags, encodeBool_eq]

/-- The trailer tells the id and the flags. -/
theorem AddedToken.trailer_inj (ht : t.Packs) (ht' : t'.Packs) (h : t.trailer = t'.trailer)
    (hc : t.content = t'.content) : t = t' := by
  obtain ⟨hid, hflags⟩ := List.append_inj (List.cons.inj h).2 (by simp)
  have hnat : t.id.toNat = t'.id.toNat := by
    apply leBytes_injOn (n := 8) _ _ hid
    · have := ht.2
      omega
    · have := ht'.2
      omega
  have hids : t.id = t'.id := by
    have := ht.1
    have := ht'.1
    omega
  obtain ⟨content, id, f1, f2, f3, f4, f5⟩ := t
  obtain ⟨content', id', g1, g2, g3, g4, g5⟩ := t'
  simp only [flags, encodeBool_eq, List.flatMap_cons, List.flatMap_nil, List.cons_append,
    List.nil_append, List.cons.injEq, true_and, and_true] at hflags
  simp only at hc hids
  obtain ⟨h1, h2, h3, h4, h5⟩ := hflags
  have hbit : ∀ {a b : Bool},
      (if a = true then (0x01 : UInt8) else 0x00) = (if b = true then 0x01 else 0x00) → a = b := by
    decide
  rw [hc, hids, hbit h1, hbit h2, hbit h3, hbit h4, hbit h5]

/-- The tokens of a list that packs, as bytes. -/
theorem encodeTokens_cons (h : encodeTokens (t :: ts) = some bs) : t.Packs ∧
    ∃ rest, encodeTokens ts = some rest ∧ bs = 0x01 :: (utf8 t.content ++ t.trailer ++ rest) := by
  rw [encodeTokens, encodeU64] at h
  split_ifs at h with hid
  · cases hr : encodeTokens ts with
    | none =>
        rw [hr] at h
        cases h
    | some rest =>
        rw [hr] at h
        cases h
        refine ⟨hid, rest, rfl, ?_⟩
        simp [encodeString, AddedToken.trailer]
  · cases h

/-! ## Lists of one encoding -/

/-- Contents of the same lengths: the bytes are cut at the same places. -/
theorem encodeTokens_inj (h : encodeTokens ts = some bs) (h' : encodeTokens ts' = some bs)
    (hlen : ts.map (fun t => utf8Len t.content) = ts'.map fun t => utf8Len t.content) :
    ts = ts' := by
  induction ts generalizing ts' bs with
  | nil => exact (List.map_eq_nil_iff.mp hlen.symm).symm
  | cons t ts ih =>
      cases ts' with
      | nil => cases hlen
      | cons t' ts' =>
          simp only [List.map_cons, List.cons.injEq] at hlen
          obtain ⟨hp, rest, hr, rfl⟩ := encodeTokens_cons h
          obtain ⟨hp', rest', hr', hbs⟩ := encodeTokens_cons h'
          have hcut := (List.cons.inj hbs).2
          rw [List.append_assoc, List.append_assoc] at hcut
          obtain ⟨hc, hcut⟩ := List.append_inj hcut (by rw [length_utf8, length_utf8, hlen.1])
          obtain ⟨ht, hrest⟩ := List.append_inj hcut (by rw [t.length_trailer, t'.length_trailer])
          subst hrest
          rw [AddedToken.trailer_inj hp hp' ht (utf8_injective hc), ih hr hr' hlen.2]

/-- Only the character U+0001 has a byte 1. -/
theorem one_mem_utf8 {text : Text} (h : (0x01 : UInt8) ∈ utf8 text) : '\x01' ∈ text := by
  obtain ⟨i, hi⟩ := List.getElem?_of_mem h
  obtain ⟨n, -, rfl⟩ := exists_take_of_start hi (by decide)
  have hpre : utf8 ['\x01'] <+: utf8 (text.drop n) := by
    rw [← drop_utf8, List.drop_eq_getElem?_toList_append, hi]
    exact List.prefix_append _ _
  exact List.mem_of_mem_drop ((utf8_prefix_iff.mp hpre).subset List.mem_cons_self)

/-- In bytes that begin with a content free of U+0001, a byte 1 stands behind it. -/
theorem content_le_of_clear {text : Text} (hclear : '\x01' ∉ text)
    (h : utf8 text ++ rest = u ++ 0x01 :: rest') : (utf8 text).length ≤ u.length := by
  by_contra hlt
  have hget := congrArg (fun l => l[u.length]?) h
  simp only [List.getElem?_append_right le_rfl, Nat.sub_self, List.getElem?_cons_zero,
    List.getElem?_append_left (Nat.not_le.mp hlt)] at hget
  exact hclear (one_mem_utf8 (List.mem_of_getElem? hget))

/-- Of two ends of one byte string, the shorter is an end of the longer. -/
theorem suffix_rest {c v : List UInt8} (h : c ++ rest = v ++ rest') (hle : rest'.length ≤ rest.length) :
    rest' <:+ rest := by
  have hsuf : rest' <:+ c ++ rest := by
    rw [h]
    exact List.suffix_append _ _
  exact List.suffix_of_suffix_length_le hsuf (List.suffix_append _ _) hle

/-- Where no content holds U+0001, no other list of that many tokens encodes to a proper
suffix of the bytes: it would fall behind in the first content, and stay behind. -/
theorem not_ahead (h1 : ∀ t ∈ ts, '\x01' ∉ t.content) (hlen : ts.length = ts'.length)
    (h : encodeTokens ts = some (u ++ rest)) (h' : encodeTokens ts' = some rest) : u = [] := by
  induction ts generalizing ts' u rest with
  | nil => exact (List.append_eq_nil_iff.mp (Option.some.inj h).symm).1
  | cons t ts ih =>
      by_contra hu
      cases ts' with
      | nil => cases hlen
      | cons t' ts' =>
          obtain ⟨-, rest₁, hr, hbs⟩ := encodeTokens_cons h
          obtain ⟨-, rest₂, hr', rfl⟩ := encodeTokens_cons h'
          obtain ⟨b, u, rfl⟩ := List.exists_cons_of_ne_nil hu
          rw [List.cons_append, List.append_assoc, List.append_assoc] at hbs
          have hcut := (List.cons.inj hbs).2
          have hge := content_le_of_clear (h1 t List.mem_cons_self) hcut.symm
          have hlens := congrArg List.length hcut
          simp only [List.length_append, List.length_cons, t.length_trailer,
            t'.length_trailer] at hlens
          have hsuf : rest₂ <:+ rest₁ := by
            refine suffix_rest (c := utf8 t.content ++ t.trailer)
              (v := u ++ 0x01 :: (utf8 t'.content ++ t'.trailer)) ?_ (by omega)
            simp [← hcut]
          obtain ⟨v, rfl⟩ := hsuf
          have hv := ih (fun t ht => h1 t (List.mem_cons_of_mem _ ht)) (by simpa using hlen) hr hr'
          rw [hv, List.length_append, List.length_nil] at hlens
          omega

/-- **Two lists of one length and one encoding are equal when the contents of the first hold
no U+0001.** -/
theorem encodeTokens_inj_of_clear (h1 : ∀ t ∈ ts, '\x01' ∉ t.content)
    (hlen : ts.length = ts'.length) (h : encodeTokens ts = some bs)
    (h' : encodeTokens ts' = some bs) : ts = ts' := by
  induction ts generalizing ts' bs with
  | nil => exact (List.length_eq_zero_iff.mp hlen.symm).symm
  | cons t ts ih =>
      cases ts' with
      | nil => cases hlen
      | cons t' ts' =>
          have hlen' : ts.length = ts'.length := by simpa using hlen
          have h1' : ∀ t ∈ ts, '\x01' ∉ t.content := fun t ht => h1 t (List.mem_cons_of_mem _ ht)
          obtain ⟨hp, rest, hr, rfl⟩ := encodeTokens_cons h
          obtain ⟨hp', rest', hr', hbs⟩ := encodeTokens_cons h'
          have hcut := (List.cons.inj hbs).2
          rw [List.append_assoc, List.append_assoc] at hcut
          have hle := content_le_of_clear (h1 t List.mem_cons_self) hcut
          have hlens := congrArg List.length hcut
          simp only [List.length_append, t.length_trailer, t'.length_trailer] at hlens
          have hsuf : rest' <:+ rest := by
            refine suffix_rest (c := utf8 t.content ++ t.trailer)
              (v := utf8 t'.content ++ t'.trailer) ?_ (by omega)
            simp [hcut]
          obtain ⟨v, rfl⟩ := hsuf
          have hv := not_ahead h1' hlen' hr hr'
          subst hv
          rw [List.nil_append] at hr hlens hcut
          obtain ⟨hc, hcut⟩ := List.append_inj hcut (by omega)
          obtain ⟨ht, -⟩ := List.append_inj hcut (by rw [t.length_trailer, t'.length_trailer])
          rw [AddedToken.trailer_inj hp hp' ht (utf8_injective hc), ih h1' hlen' hr hr']

/-! ## The fingerprint -/

variable {δ : Type} {sha256 : List UInt8 → δ} {d : δ}

/-- Two lists of one fingerprint have the same number of tokens and the same token bytes. -/
theorem encodeTokens_of_fingerprint (hsha : Function.Injective sha256)
    (h : addedFrontendFingerprint sha256 ts = some d)
    (h' : addedFrontendFingerprint sha256 ts' = some d) :
    ts.length = ts'.length ∧ ∃ bs, encodeTokens ts = some bs ∧ encodeTokens ts' = some bs := by
  have htok : ∀ {ts : List AddedToken}, addedFrontendFingerprint sha256 ts = some d →
      ts.length < 2 ^ 32 ∧ ∃ bs, encodeTokens ts = some bs ∧
        sha256 (ADDED_FRONTEND_DOMAIN_TAG ++ ([0x01] ++ leBytes 4 ts.length ++ bs)) = d := by
    intro ts h
    unfold addedFrontendFingerprint encodeAddedTokens at h
    cases hbs : encodeTokens ts with
    | none =>
        rw [hbs] at h
        cases h
    | some bs =>
        rw [hbs, Option.bind_eq_bind, Option.bind_some] at h
        split_ifs at h with hlt
        · exact ⟨hlt, bs, rfl, Option.some.inj h⟩
        · cases h
  obtain ⟨hlt, bs, hbs, hd⟩ := htok h
  obtain ⟨hlt', bs', hbs', hd'⟩ := htok h'
  have hcut := List.append_cancel_left (hsha (hd.trans hd'.symm))
  obtain ⟨hcount, rfl⟩ := List.append_inj hcut (by simp)
  have hcount := List.append_cancel_left hcount
  exact ⟨leBytes_injOn (n := 4) hlt hlt' hcount, bs, hbs, hbs'⟩

/-- **Two lists of one fingerprint are equal exactly when their contents have the same lengths
in bytes, position by position; and always when the contents of one hold no U+0001.** -/
theorem fingerprint_eq_iff (hsha : Function.Injective sha256)
    (h : addedFrontendFingerprint sha256 ts = some d)
    (h' : addedFrontendFingerprint sha256 ts' = some d) :
    (ts = ts' ↔ ts.map (fun t => utf8Len t.content) = ts'.map fun t => utf8Len t.content) ∧
      ((∀ t ∈ ts, '\x01' ∉ t.content) → ts = ts') := by
  obtain ⟨hlen, bs, hbs, hbs'⟩ := encodeTokens_of_fingerprint hsha h h'
  refine ⟨⟨?_, encodeTokens_inj hbs hbs'⟩, fun h1 => encodeTokens_inj_of_clear h1 hlen hbs hbs'⟩
  rintro rfl
  rfl

/-- An entry without flags. -/
def plainToken (content : Text) (id : ℤ) : AddedToken := ⟨content, id, false, false, false, false, false⟩

/-- A content that looks like the end of a token with id 0 and the presence byte after it. -/
def trailerText : Text := "\x01\x00\x00\x00\x00\x00\x00\x00\x00\x01\x00\x01\x00\x01\x00\x01\x00\x01\x00\x01".toList

theorem fingerprint_eq_iff_plain :
    ([plainToken "a".toList 7] = [plainToken "a".toList 7] ↔
      [plainToken "a".toList 7].map (fun t => utf8Len t.content) =
        [plainToken "a".toList 7].map fun t => utf8Len t.content) ∧
      ((∀ t ∈ [plainToken "a".toList 7], '\x01' ∉ t.content) →
        [plainToken "a".toList 7] = [plainToken "a".toList 7]) :=
  @fingerprint_eq_iff _ _ _ id _ Function.injective_id rfl rfl

/-- The two orders of an empty content and of `trailerText`, both with id 0: one encoding, and
one fingerprint. -/
theorem fingerprint_collision :
    encodeAddedTokens [plainToken [] 0, plainToken trailerText 0] =
        encodeAddedTokens [plainToken trailerText 0, plainToken [] 0] ∧
      (encodeAddedTokens [plainToken [] 0, plainToken trailerText 0]).isSome ∧
      [plainToken [] 0, plainToken trailerText 0] ≠ [plainToken trailerText 0, plainToken [] 0] :=
  ⟨by decide +kernel, by decide +kernel, by decide +kernel⟩

end Toktier.Frontend
