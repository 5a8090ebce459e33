import Toktier.StoreCore.Chain
import Toktier.StoreCore.Creation

/-!
# What a lookup hit has been checked for

A lookup walks down the chain of the query and stops at the first node that is missing or
fails a check. The checks tie a node to its parent and to the query's addresses; the text
tail and the byte length a node carries are not compared with the query.

## Main definitions

* `ChainLinked`: a table holds these records along the chain of a text, each linked to the
  ones before it.
* `TrueTo`: a record's text tail and byte length are those of a text.
* `VerifiedHits`: the hits of a lookup stand on nodes that are true to the query.

## Main results

* `lookupWalk_eq`: a lookup follows the longest linked chain.
* `verified_hits_iff`: its hits are verified exactly when every linked node is true.
-/
namespace Toktier.StoreCore

open Toktier.Lib

/-! ## Linked chains -/

/-- The number of ids a path carries. -/
def idCount (rs : List NodeCacheRecord) : ℕ := (rs.map fun r => r.ids.length).sum

/-- The seal point and the byte length at the end of a path. -/
def lastSafe (rs : List NodeCacheRecord) : ℕ := (rs.getLast?.map NodeCacheRecord.safeChar).getD 0

def lastEndByte (rs : List NodeCacheRecord) : ℕ := (rs.getLast?.map NodeCacheRecord.endByte).getD 0

@[simp] theorem idCount_append (rs : List NodeCacheRecord) (r : NodeCacheRecord) :
    idCount (rs ++ [r]) = idCount rs + r.ids.length := by simp [idCount]

@[simp] theorem lastSafe_append (rs : List NodeCacheRecord) (r : NodeCacheRecord) :
    lastSafe (rs ++ [r]) = r.safeChar := by simp [lastSafe]

@[simp] theorem lastEndByte_append (rs : List NodeCacheRecord) (r : NodeCacheRecord) :
    lastEndByte (rs ++ [r]) = r.endByte := by simp [lastEndByte]

section Linked

variable [Digests] (nodes : Table BlockHash NodeEntry) (fingerprint : SemanticFingerprint)
  (witness : WitnessCategory) (blockChars : ℕ) (text : Text)

/-- The node hangs under the path `rs` on the chain of `text`. -/
structure LinksTo (rs : List NodeCacheRecord) (e : NodeEntry) : Prop where
  verify : e.verify = true
  fingerprint_eq : e.record.fingerprint = fingerprint
  witness_eq : e.record.witness = witness
  parent_eq : e.record.parent = chainKey fingerprint blockChars text rs.length
  blockIndex_eq : e.record.blockIndex = rs.length
  endChar_eq : e.record.endChar = (rs.length + 1) * blockChars
  safe_mono : lastSafe rs ≤ e.record.safeChar
  safe_le : e.record.safeChar ≤ (rs.length + 1) * blockChars
  idsBase_eq : e.record.idsBase = idCount rs
  endByte_lt : lastEndByte rs < e.record.endByte

/-- The table holds the records along the chain of `text`, each linked to those before. -/
inductive ChainLinked : List NodeCacheRecord → Prop
  | nil : ChainLinked []
  | snoc {rs : List NodeCacheRecord} {e : NodeEntry} (before : ChainLinked rs)
      (complete : rs.length + 1 ≤ text.length / blockChars)
      (found : (chainKey fingerprint blockChars text (rs.length + 1)).bind nodes.lookup = some e)
      (links : LinksTo fingerprint witness blockChars text rs e) : ChainLinked (rs ++ [e.record])

/-- The walk stands at the end of the path `rs`. -/
structure WalkAt (rs : List NodeCacheRecord) (wk : Walk) : Prop where
  parent : wk.parent = chainKey fingerprint blockChars text rs.length
  cumSafe : wk.cumSafe = lastSafe rs
  cumIdx : wk.cumIdx = idCount rs
  cumEndByte : wk.cumEndByte = lastEndByte rs
  path : wk.path.map Prod.snd = rs

variable {nodes fingerprint witness blockChars text}

theorem WalkAt.start : WalkAt fingerprint blockChars text [] .start := ⟨rfl, rfl, rfl, rfl, rfl⟩

theorem WalkAt.extend {rs : List NodeCacheRecord} {wk : Walk} {key : BlockHash}
    {r : NodeCacheRecord} (h : WalkAt fingerprint blockChars text rs wk)
    (hkey : chainKey fingerprint blockChars text (rs.length + 1) = some key) :
    WalkAt fingerprint blockChars text (rs ++ [r]) (wk.extend key r) where
  parent := by
    rw [List.length_append, List.length_singleton, hkey]
    rfl
  cumSafe := by simp [Walk.extend]
  cumIdx := by simp [Walk.extend, h.cumIdx]
  cumEndByte := by simp [Walk.extend]
  path := by simp [Walk.extend, h.path]

/-- The walk's checks are the links. -/
theorem WalkAt.accepts_iff {rs : List NodeCacheRecord} {wk : Walk} {e : NodeEntry}
    (h : WalkAt fingerprint blockChars text rs wk) :
    wk.accepts fingerprint witness blockChars rs.length e = true ↔
      LinksTo fingerprint witness blockChars text rs e := by
  simp only [Walk.accepts, Bool.and_eq_true, decide_eq_true_eq, h.parent, h.cumSafe, h.cumIdx,
    h.cumEndByte]
  constructor
  · rintro ⟨hv, h1, h2, h3, h4, h5, h6, h7, h8, h9⟩
    exact ⟨hv, h1, h2, h3, h4, h5, h6, h7, h8, h9⟩
  · rintro ⟨hv, h1, h2, h3, h4, h5, h6, h7, h8, h9⟩
    exact ⟨hv, h1, h2, h3, h4, h5, h6, h7, h8, h9⟩

/-- Two linked chains of one text agree as far as both go. -/
theorem ChainLinked.prefix_of_le {rs rs' : List NodeCacheRecord}
    (h : ChainLinked nodes fingerprint witness blockChars text rs)
    (h' : ChainLinked nodes fingerprint witness blockChars text rs')
    (hle : rs.length ≤ rs'.length) : rs <+: rs' := by
  induction h' generalizing rs with
  | nil =>
      rw [List.length_nil, Nat.le_zero, List.length_eq_zero_iff] at hle
      subst hle
      exact List.nil_prefix
  | @snoc rs₁ e before complete found links ih =>
      by_cases hshort : rs.length ≤ rs₁.length
      · exact (ih h hshort).trans (List.prefix_append _ _)
      rw [List.length_append, List.length_singleton] at hle
      cases h with
      | nil => exact List.nil_prefix
      | @snoc rs₂ e₂ before₂ complete₂ found₂ links₂ =>
          rw [List.length_append, List.length_singleton] at hle hshort
          have hlen : rs₂.length = rs₁.length := by omega
          have heq : rs₂ = rs₁ := (ih before₂ hlen.le).eq_of_length hlen
          subst heq
          have hentry : e₂ = e := Option.some.inj (found₂.symm.trans found)
          subst hentry
          exact List.prefix_rfl

/-- A longer linked chain says what comes next. -/
theorem ChainLinked.next {rs rs' : List NodeCacheRecord}
    (h : ChainLinked nodes fingerprint witness blockChars text rs)
    (h' : ChainLinked nodes fingerprint witness blockChars text rs')
    (hlt : rs.length < rs'.length) :
    ∃ e, (chainKey fingerprint blockChars text (rs.length + 1)).bind nodes.lookup = some e ∧
      LinksTo fingerprint witness blockChars text rs e := by
  induction h' with
  | nil => cases hlt
  | @snoc rs₁ e before complete found links ih =>
      by_cases hshort : rs.length < rs₁.length
      · exact ih hshort
      rw [List.length_append, List.length_singleton] at hlt
      have hlen : rs.length = rs₁.length := by omega
      have heq : rs = rs₁ := (h.prefix_of_le before hlen.le).eq_of_length hlen
      subst heq
      exact ⟨e, found, links⟩

theorem ChainLinked.length_le {rs : List NodeCacheRecord}
    (h : ChainLinked nodes fingerprint witness blockChars text rs) :
    rs.length ≤ text.length / blockChars := by
  cases h with
  | nil => exact Nat.zero_le _
  | snoc _ complete _ _ => rwa [List.length_append, List.length_singleton]

/-- The last record of a linked chain hangs under the ones before. -/
theorem ChainLinked.last {rs : List NodeCacheRecord} {r : NodeCacheRecord}
    (h : ChainLinked nodes fingerprint witness blockChars text (rs ++ [r])) :
    ChainLinked nodes fingerprint witness blockChars text rs ∧
      ∃ e, e.record = r ∧ LinksTo fingerprint witness blockChars text rs e := by
  generalize hall : rs ++ [r] = all at h
  cases h with
  | nil => simp at hall
  | @snoc rs₁ e before _ _ links =>
      obtain ⟨rfl, hr⟩ := List.append_inj' hall rfl
      exact ⟨before, e, (List.singleton_inj.mp hr).symm, links⟩

theorem ChainLinked.of_append {rs rest : List NodeCacheRecord}
    (h : ChainLinked nodes fingerprint witness blockChars text (rs ++ rest)) :
    ChainLinked nodes fingerprint witness blockChars text rs := by
  induction rest using List.reverseRecOn with
  | nil => rwa [List.append_nil] at h
  | append_singleton rest r ih =>
      rw [← List.append_assoc] at h
      exact ih h.last.1

/-- A linked chain that no linked chain is longer than. -/
def Longest (nodes : Table BlockHash NodeEntry) (fingerprint : SemanticFingerprint)
    (witness : WitnessCategory) (blockChars : ℕ) (text : Text) (rs : List NodeCacheRecord) : Prop :=
  ChainLinked nodes fingerprint witness blockChars text rs ∧
    ∀ rs', ChainLinked nodes fingerprint witness blockChars text rs' → rs'.length ≤ rs.length

/-- The walk from the end of a linked path follows the longest linked chain. -/
theorem walkBlocks_longest (m : ℕ) {rs : List NodeCacheRecord} {wk : Walk}
    (hm : rs.length + m = text.length / blockChars)
    (hat : WalkAt fingerprint blockChars text rs wk)
    (hlinked : ChainLinked nodes fingerprint witness blockChars text rs) :
    ∃ rs', WalkAt fingerprint blockChars text rs'
        (walkBlocks nodes fingerprint witness blockChars rs.length
          ((List.range' rs.length m).map (blockAt blockChars text)) wk).1 ∧
      Longest nodes fingerprint witness blockChars text rs' := by
  induction m generalizing rs wk with
  | zero =>
      refine ⟨rs, hat, hlinked, ?_⟩
      intro rs' h'
      have hle := h'.length_le
      omega
  | succ m ih =>
      have hkey : chainKey fingerprint blockChars text (rs.length + 1) =
          some (nodeKey wk.parent fingerprint rs.length (utf8 (blockAt blockChars text rs.length))) := by
        rw [hat.parent]
        rfl
      simp only [List.range'_succ, List.map_cons, walkBlocks]
      -- The walk stops here when the next node is missing or rejected.
      have hstop : (¬∃ e, (chainKey fingerprint blockChars text (rs.length + 1)).bind nodes.lookup =
          some e ∧ LinksTo fingerprint witness blockChars text rs e) →
          Longest nodes fingerprint witness blockChars text rs := by
        intro hno
        refine ⟨hlinked, ?_⟩
        intro rs' h'
        by_contra hlt
        exact hno (hlinked.next h' (not_le.mp hlt))
      generalize hk : nodeKey wk.parent fingerprint rs.length
        (utf8 (blockAt blockChars text rs.length)) = k at hkey ⊢
      cases hfound : nodes.lookup k with
      | none =>
          refine ⟨rs, hat, hstop ?_⟩
          rintro ⟨e, he, -⟩
          rw [hkey, Option.bind_some, hfound] at he
          cases he
      | some e =>
          have hentry : (chainKey fingerprint blockChars text (rs.length + 1)).bind nodes.lookup =
              some e := by rw [hkey, Option.bind_some, hfound]
          by_cases haccept : wk.accepts fingerprint witness blockChars rs.length e = true
          · simp only [if_pos haccept]
            have hnext := ChainLinked.snoc hlinked (by omega) hentry (hat.accepts_iff.mp haccept)
            have hlen : (rs ++ [e.record]).length = rs.length + 1 := by simp
            have hrest := ih (by omega) (hat.extend hkey) hnext
            rwa [hlen] at hrest
          · simp only [if_neg haccept]
            refine ⟨rs, hat, hstop ?_⟩
            rintro ⟨e', he', hlinks⟩
            rw [hentry] at he'
            cases he'
            exact haccept (hat.accepts_iff.mpr hlinks)

end Linked

namespace Store

variable [Digests] (S : Store) (key : KeyCtx) (text : Text) (eng : Engine)

/-- A lookup follows the longest linked chain of its query. -/
theorem lookupWalk_longest :
    ∃ rs, WalkAt key.fingerprint S.cfg.blockChars text rs (S.lookupWalk key text eng) ∧
      Longest S.nodes key.fingerprint eng.witnessCategory S.cfg.blockChars text rs := by
  have hnil : ChainLinked S.nodes key.fingerprint eng.witnessCategory S.cfg.blockChars text [] :=
    .nil
  have hwalk := walkBlocks_longest (text.length / S.cfg.blockChars) (Nat.zero_add _) .start hnil
  rw [List.length_nil, ← List.range_eq_range', ← blockSlices_eq] at hwalk
  exact hwalk

/-! ## Hits -/

/-- The records a lookup follows, root first. -/
def lookupPath : List NodeCacheRecord := (S.lookupWalk key text eng).path.map Prod.snd

variable {S key text eng}

/-- A hit is for the last record the lookup has followed. -/
theorem wp_lookup_hit (keyId : ℕ) :
    wp (lookup keyId text eng)
      (fun found _ => ∀ hit, found = some hit → ∀ key, S.keys[keyId]? = some key →
        ∃ rs deep, S.lookupPath key text eng = rs ++ [deep] ∧ hit.matchedChars = deep.endChar)
      (fun _ _ => True) S := by
  refine wp_lookup keyId text eng (fun _ => trivial) ?_ ?_
  · rintro S' - hit ⟨⟩
  · rintro key wk deepKey deep S₁ hkey rfl hlast -
    simp only [adopt, wp_bind, wp_fromExcept, wp_modify, wp_get, wp_throwIf,
      insertSession, wp_set, wp_pure, implies_true, and_true, true_and]
    intro enc _ tail _ _ digests _ hit hhit key' hkey'
    cases hkey.symm.trans hkey'
    cases hhit
    obtain ⟨rs, hrs⟩ := List.getLast?_eq_some_iff.mp hlast
    refine ⟨rs.map Prod.snd, deep, ?_, rfl⟩
    rw [lookupPath, lookupWalk, hrs, List.map_append]
    rfl

end Store

/-- The record's text tail and byte length are those of the text it ends in. -/
def TrueTo (text : Text) (r : NodeCacheRecord) : Prop :=
  r.textTail = (text.take r.endChar).drop r.safeChar ∧ r.endByte = utf8Len (text.take r.endChar)

section Verified

variable [Digests]

/-- A hit of the lookup is for the last record it followed; every record it followed has the
query's text tail and byte length and as many ids before it as its ancestors carry; and no
chain of such records is longer. -/
def VerifiedHits (S : Store) (keyId : ℕ) (text : Text) (eng : Engine) : Prop :=
  ∀ key, S.keys[keyId]? = some key →
    (∀ hit S', (Store.lookup keyId text eng).run S = .ok (some hit) S' →
      ∃ rs deep, S.lookupPath key text eng = rs ++ [deep] ∧ hit.matchedChars = deep.endChar) ∧
    (∀ rs r rest, S.lookupPath key text eng = rs ++ r :: rest →
      TrueTo text r ∧ r.idsBase = idCount rs) ∧
    ∀ rs, ChainLinked S.nodes key.fingerprint eng.witnessCategory S.cfg.blockChars text rs →
      (∀ r ∈ rs, TrueTo text r) → rs.length ≤ (S.lookupPath key text eng).length

/-- Every record that is linked into the chain of the text is true to it. -/
def LinkedTrue (nodes : Table BlockHash NodeEntry) (fingerprint : SemanticFingerprint)
    (witness : WitnessCategory) (blockChars : ℕ) (text : Text) : Prop :=
  ∀ rs r, ChainLinked nodes fingerprint witness blockChars text (rs ++ [r]) → TrueTo text r

/-- For every table, whatever was imported into it, and every query: the hits are verified
exactly when no record that passes the link checks lies about its text tail or its byte
length. The number of ids before a record is always checked. -/
theorem verified_hits_iff (S : Store) (keyId : ℕ) (text : Text) (eng : Engine) :
    VerifiedHits S keyId text eng ↔ ∀ key, S.keys[keyId]? = some key →
      LinkedTrue S.nodes key.fingerprint eng.witnessCategory S.cfg.blockChars text := by
  constructor
  · intro hverified key hkey rs r hlinked
    obtain ⟨path, hat, hlong⟩ := S.lookupWalk_longest key text eng
    have hpath : S.lookupPath key text eng = path := hat.path
    obtain ⟨rest, hrest⟩ := hlinked.prefix_of_le hlong.1 (hlong.2 _ hlinked)
    have hsplit : S.lookupPath key text eng = rs ++ r :: rest := by
      rw [hpath, ← hrest, List.append_assoc]
      rfl
    exact ((hverified key hkey).2.1 rs r rest hsplit).1
  · intro htrue key hkey
    obtain ⟨path, hat, hlong⟩ := S.lookupWalk_longest key text eng
    have hpath : S.lookupPath key text eng = path := hat.path
    refine ⟨?_, ?_, ?_⟩
    · intro hit S' hrun
      exact (Store.wp_lookup_hit keyId).of_ok hrun hit rfl key hkey
    · intro rs r rest hsplit
      have hall := hlong.1
      rw [← hpath, hsplit, ← List.singleton_append, ← List.append_assoc] at hall
      have hlinked := hall.of_append
      obtain ⟨-, e, rfl, hlinks⟩ := hlinked.last
      exact ⟨htrue key hkey rs _ hlinked, hlinks.idsBase_eq⟩
    · intro rs hlinked _
      rw [hpath]
      exact hlong.2 rs hlinked

end Verified

/-- A checksum-valid record under the address of `ab` that carries the text tail `zz`. -/
def forgedNode : NodeCacheRecord where
  fingerprint := ZERO_HASH
  witness := .BpeSyncTransition
  parent := none
  key := nodeKey none ZERO_HASH 0 (utf8 ['a', 'b'])
  blockIndex := 0
  endChar := 2
  safeChar := 0
  idsBase := 0
  endByte := 2
  ids := []
  textTail := ['z', 'z']

/-- A store that has imported the record. -/
def importForged : Fallible Store StoreError Bool := do
  let _ ← Store.registerFingerprint ZERO_HASH 0
  Store.importNodeItem forgedNode.key.bytes (sealBody DOMAIN_NODE_CACHE forgedNode.bodyBytes)

/-- The import accepts the record, and the lookup of `ab` returns a hit on it: its session
stands for `ab` and has the encoding of `zz`. -/
theorem forged_hit :
    ∃ S₀ S hit S', Store.new smallConfig = .ok S₀ ∧ importForged.run S₀ = .ok true S ∧
      (Store.lookup 0 ['a', 'b'] unitEngine).run S = .ok (some hit) S' ∧
      ¬VerifiedHits S 0 ['a', 'b'] unitEngine := by
  obtain ⟨S₀, hnew⟩ : ∃ S₀, Store.new smallConfig = .ok S₀ := ⟨_, rfl⟩
  have himport : returnsSuch importForged (fun ok S => ok &&
      decide (S.keys = [⟨ZERO_HASH, 0⟩] ∧
        S.lookupPath ⟨ZERO_HASH, 0⟩ ['a', 'b'] unitEngine = [forgedNode]) &&
      returnsSuch (Store.lookup 0 ['a', 'b'] unitEngine) (fun hit _ => hit.isSome) S) S₀ = true := by
    cases hnew
    decide +kernel
  obtain ⟨ok, S, hrun, hcheck⟩ := exists_of_returnsSuch himport
  simp only [Bool.and_eq_true, decide_eq_true_eq] at hcheck
  obtain ⟨⟨rfl, hkeys, hpath⟩, hlookup⟩ := hcheck
  obtain ⟨hit?, S', hlook, hsome⟩ := exists_of_returnsSuch hlookup
  obtain ⟨hit, rfl⟩ := Option.isSome_iff_exists.mp hsome
  refine ⟨S₀, S, hit, S', hnew, hrun, hlook, ?_⟩
  intro hverified
  have hkey : S.keys[0]? = some ⟨ZERO_HASH, 0⟩ := by
    rw [hkeys]
    rfl
  obtain ⟨-, hall, -⟩ := hverified _ hkey
  obtain ⟨⟨htail, -⟩, -⟩ := hall [] forgedNode [] hpath
  revert htail
  decide

end Toktier.StoreCore
