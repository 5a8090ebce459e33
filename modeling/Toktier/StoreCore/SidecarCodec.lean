import Toktier.StoreCore.Primitives
import Toktier.StoreCore.Sidecar

/-!
# The codecs of node caches and session sidecars

What the two decoders accept, exactly: the body of an encodable record, with any 32 bytes in the
place of a missing hash. The writers ask less of a record, and write zeroes there.

## Main definitions

* `Consistent`: what a decoder asks of the fields of a record together.
* `ZeroPadded`: behind a zero tag stand zeroes.

## Main results

* `fromBytes_eq_ok`: the accepted bytes, for both codecs.
* `codecs_canonical_iff`: which records are read back, and which bytes are written again.
-/
namespace Toktier.StoreCore

open Toktier.Lib

/-! ### What the cursor read -/

namespace Reader

theorem take_eq_ok {n : ℕ} {context : String} {s bs rest : List UInt8} :
    (take n context).run s = .ok bs rest ↔ s = bs ++ rest ∧ bs.length = n := takeBytes_eq_ok

theorem uint_eq_ok {width v : ℕ} {context : String} {s rest : List UInt8} :
    (uint width context).run s = .ok v rest ↔ s = leBytes width v ++ rest ∧ v < 256 ^ width :=
  leNat_takeBytes_eq_ok

theorem hash_eq_ok {context : String} {s rest : List UInt8} {b : BlockHash}
    (h : (hash context).run s = .ok b rest) : s = b.bytes ++ rest := by
  obtain ⟨raw, s', hraw, hb⟩ := run_bind_eq_ok h
  obtain ⟨hs, hlen⟩ := take_eq_ok.mp hraw
  rw [CHECKSUM_LEN] at hlen
  rw [dif_pos hlen] at hb
  obtain ⟨rfl, rfl⟩ := EStateM.Result.ok.inj hb
  exact hs

theorem optHash_eq_ok {context : String} {s rest : List UInt8} {p : Option BlockHash}
    (h : (optHash context).run s = .ok p rest) : ∃ pad, s = optHashPadded pad p ++ rest := by
  obtain ⟨tag, s₁, htag, h⟩ := run_bind_eq_ok h
  obtain ⟨raw, s₂, hraw, h⟩ := run_bind_eq_ok h
  obtain ⟨e₁, -⟩ := uint_eq_ok.mp htag
  have e₂ := hash_eq_ok hraw
  split at h
  · obtain ⟨rfl, rfl⟩ := EStateM.Result.ok.inj h
    exact ⟨raw, by rw [e₁, e₂]; rfl⟩
  · obtain ⟨rfl, rfl⟩ := EStateM.Result.ok.inj h
    exact ⟨raw, by rw [e₁, e₂]; rfl⟩
  · cases h

theorem ids_eq_ok {n : ℕ} {context : String} {s rest : List UInt8} {xs : List UInt32}
    (h : (ids n context).run s = .ok xs rest) : s = wordsBytes xs ++ rest ∧ xs.length = n := by
  obtain ⟨raw, hraw, rfl⟩ := run_map_eq_ok h
  obtain ⟨hs, hlen⟩ := take_eq_ok.mp hraw
  have hwords := wordsBytes_wordsOfBytes (hlen.trans (mul_comm n 4))
  refine ⟨by rw [hwords, hs], ?_⟩
  have := congrArg List.length hwords
  rw [length_wordsBytes] at this
  omega

theorem utf8_eq_ok {n : ℕ} {context : String} {s rest : List UInt8} {t : Text}
    (h : (utf8 n context).run s = .ok t rest) : s = Lib.utf8 t ++ rest ∧ utf8Len t = n := by
  obtain ⟨raw, s', hraw, h⟩ := run_bind_eq_ok h
  obtain ⟨hs, hlen⟩ := take_eq_ok.mp hraw
  split at h
  · rename_i t' ht
    obtain ⟨rfl, rfl⟩ := EStateM.Result.ok.inj h
    have hraw' := utf8_of_utf8Decode? ht
    exact ⟨by rw [hs, hraw'], by rw [← length_utf8, hraw', hlen]⟩
  · cases h

theorem finish_eq_ok {s rest : List UInt8} {u : Unit} (h : finish.run s = .ok u rest) :
    s = [] ∧ rest = [] := by
  obtain ⟨s', s₁, hget, h⟩ := run_bind_eq_ok h
  obtain ⟨rfl, rfl⟩ := EStateM.Result.ok.inj hget
  obtain ⟨hnil, rfl⟩ := run_throwIf_eq_ok h
  exact ⟨not_not.mp hnil, not_not.mp hnil⟩

theorem runOn_eq_ok {α : Type} {m : Reader α} {body : List UInt8} {a : α} :
    runOn m body = .ok a ↔ ∃ rest, m.run body = .ok a rest := by
  unfold runOn
  cases m.run body with
  | ok b rest => exact ⟨fun h => ⟨rest, by rw [Except.ok.inj h]⟩, fun ⟨_, h⟩ => by cases h; rfl⟩
  | error e rest => exact iff_of_false (fun h => by cases h) fun ⟨_, h⟩ => by cases h

end Reader

/-! ### Zeroes behind a zero tag -/

/-- Where the tag is zero, the 32 bytes behind it are zeroes. -/
def ZeroPadded (tagAt : ℕ) (bytes : List UInt8) : Prop :=
  bytes[tagAt]? = some 0 → (bytes.drop (tagAt + 1)).take 32 = ZERO_HASH.bytes

theorem zeroPadded_iff {pre rest : List UInt8} {pad : BlockHash} {p : Option BlockHash} {n : ℕ}
    (hpre : pre.length = n) :
    ZeroPadded n (pre ++ (optHashPadded pad p ++ rest)) ↔
      optHashPadded pad p = optHashPadded ZERO_HASH p := by
  subst hpre
  rw [ZeroPadded, List.getElem?_append_right le_rfl, Nat.sub_self, ← List.drop_drop, List.drop_left]
  cases p with
  | some q => exact iff_of_true (fun h => absurd (Option.some.inj h) (by decide)) rfl
  | none =>
    have htake : ((optHashPadded pad none ++ rest).drop 1).take 32 = pad.bytes := by
      change (pad.bytes ++ rest).take 32 = pad.bytes
      exact List.take_left' pad.size_eq
    rw [htake]
    exact ⟨fun h => congrArg (0 :: ·) (h rfl), fun h _ => (List.cons.inj h).2⟩

section

variable [Digests]

theorem openBody_eq_ok {domain bytes body : List UInt8} {what : String} :
    openBody domain what bytes = .ok body ↔ bytes = sealBody domain body := by
  constructor
  · intro h
    unfold openBody at h
    dsimp only at h
    split_ifs at h with hshort hsum
    obtain rfl := Except.ok.inj h
    rw [sealBody, not_not.mp hsum, List.take_append_drop]
  · rintro rfl
    exact openBody_sealBody domain body what

theorem sealBody_injective (domain : List UInt8) : Function.Injective (sealBody domain) := by
  intro body body' h
  have hopen := openBody_sealBody domain body ""
  rw [h, openBody_sealBody] at hopen
  exact (Except.ok.inj hopen).symm

/-- A padded body is the one that is written exactly when its padding is. -/
theorem sealBody_eq_iff {domain pre rest : List UInt8} {pad : BlockHash} {p : Option BlockHash}
    {n : ℕ} (hpre : pre.length = n) :
    sealBody domain (pre ++ (optHashPadded ZERO_HASH p ++ rest)) =
        sealBody domain (pre ++ (optHashPadded pad p ++ rest)) ↔
      ZeroPadded n (sealBody domain (pre ++ (optHashPadded pad p ++ rest))) := by
  have hzero : sealBody domain (pre ++ (optHashPadded pad p ++ rest)) =
      pre ++ (optHashPadded pad p ++
        (rest ++ (checksum domain (pre ++ (optHashPadded pad p ++ rest))).bytes)) := by
    simp only [sealBody, List.append_assoc]
  rw [hzero, zeroPadded_iff hpre, ← hzero, (sealBody_injective domain).eq_iff,
    List.append_cancel_left_eq, List.append_cancel_right_eq, eq_comm]

end

/-! ### Node caches -/

namespace NodeCacheRecord

/-- The counters are 64-bit words. -/
structure Words (r : NodeCacheRecord) : Prop where
  blockIndex_lt : r.blockIndex < 2 ^ 64
  endChar_lt : r.endChar < 2 ^ 64
  safeChar_lt : r.safeChar < 2 ^ 64
  idsBase_lt : r.idsBase < 2 ^ 64
  endByte_lt : r.endByte < 2 ^ 64

/-- What the decoder asks of the fields together. -/
structure Consistent (r : NodeCacheRecord) : Prop where
  safeChar_le : r.safeChar ≤ r.endChar
  tail_le : utf8Len r.textTail ≤ r.endByte
  count_lt : r.idsBase + r.ids.length < 2 ^ 64

theorem read_eq_ok {body rest : List UInt8} {r : NodeCacheRecord}
    (h : read.run body = .ok r rest) : r.Encodable ∧ ∃ pad, body = r.paddedBytes pad := by
  obtain ⟨magic, s₁, hmagic, h⟩ := run_bind_eq_ok h
  obtain ⟨_, s₂, hgood, h⟩ := run_bind_eq_ok h
  obtain ⟨version, s₃, hversion, h⟩ := run_bind_eq_ok h
  obtain ⟨_, s₄, hknown, h⟩ := run_bind_eq_ok h
  obtain ⟨witnessValue, s₅, hvalue, h⟩ := run_bind_eq_ok h
  obtain ⟨witness, s₆, hwitness, h⟩ := run_bind_eq_ok h
  obtain ⟨fingerprint, s₇, hfingerprint, h⟩ := run_bind_eq_ok h
  obtain ⟨parent, s₈, hparent, h⟩ := run_bind_eq_ok h
  obtain ⟨key, s₉, hkey, h⟩ := run_bind_eq_ok h
  obtain ⟨blockIndex, s₁₀, hindex, h⟩ := run_bind_eq_ok h
  obtain ⟨endChar, s₁₁, hend, h⟩ := run_bind_eq_ok h
  obtain ⟨safeChar, s₁₂, hsafe, h⟩ := run_bind_eq_ok h
  obtain ⟨idsBase, s₁₃, hbase, h⟩ := run_bind_eq_ok h
  obtain ⟨endByte, s₁₄, hbyte, h⟩ := run_bind_eq_ok h
  obtain ⟨nIds, s₁₅, hcount, h⟩ := run_bind_eq_ok h
  obtain ⟨tailLen, s₁₆, hlen, h⟩ := run_bind_eq_ok h
  obtain ⟨ids, s₁₇, hids, h⟩ := run_bind_eq_ok h
  obtain ⟨textTail, s₁₈, htail, h⟩ := run_bind_eq_ok h
  obtain ⟨_, s₁₉, hfinish, h⟩ := run_bind_eq_ok h
  obtain ⟨_, s₂₀, hchars, h⟩ := run_bind_eq_ok h
  obtain ⟨_, s₂₁, hbytes, h⟩ := run_bind_eq_ok h
  obtain ⟨_, s₂₂, htotal, h⟩ := run_bind_eq_ok h
  obtain ⟨rfl, rfl⟩ := EStateM.Result.ok.inj h
  -- what each step took off the front of its input
  obtain ⟨e₁, -⟩ := Reader.take_eq_ok.mp hmagic
  obtain ⟨hgood, e₂⟩ := run_throwIf_eq_ok hgood
  obtain ⟨e₃, -⟩ := Reader.uint_eq_ok.mp hversion
  obtain ⟨hknown, e₄⟩ := run_throwIf_eq_ok hknown
  obtain ⟨e₅, -⟩ := Reader.uint_eq_ok.mp hvalue
  obtain ⟨hwitness, e₆⟩ := run_fromExcept_eq_ok hwitness
  have e₇ := Reader.hash_eq_ok hfingerprint
  obtain ⟨pad, e₈⟩ := Reader.optHash_eq_ok hparent
  have e₉ := Reader.hash_eq_ok hkey
  obtain ⟨e₁₀, hindex_lt⟩ := Reader.uint_eq_ok.mp hindex
  obtain ⟨e₁₁, hend_lt⟩ := Reader.uint_eq_ok.mp hend
  obtain ⟨e₁₂, -⟩ := Reader.uint_eq_ok.mp hsafe
  obtain ⟨e₁₃, -⟩ := Reader.uint_eq_ok.mp hbase
  obtain ⟨e₁₄, hbyte_lt⟩ := Reader.uint_eq_ok.mp hbyte
  obtain ⟨e₁₅, hcount_lt⟩ := Reader.uint_eq_ok.mp hcount
  obtain ⟨e₁₆, hlen_lt⟩ := Reader.uint_eq_ok.mp hlen
  obtain ⟨e₁₇, hnum⟩ := Reader.ids_eq_ok hids
  obtain ⟨e₁₈, hsize⟩ := Reader.utf8_eq_ok htail
  obtain ⟨e₁₉, -⟩ := Reader.finish_eq_ok hfinish
  obtain ⟨hchars, -⟩ := run_throwIf_eq_ok hchars
  obtain ⟨hbytes, -⟩ := run_throwIf_eq_ok hbytes
  obtain ⟨htotal, -⟩ := run_throwIf_eq_ok htotal
  rw [not_not] at hgood hknown
  subst hnum hsize
  refine ⟨⟨hcount_lt, hlen_lt, hindex_lt, hend_lt, hbyte_lt, not_lt.mp hchars, not_lt.mp hbytes,
    not_le.mp htotal⟩, pad, ?_⟩
  rw [e₁, ← e₂, e₃, ← e₄, e₅, ← e₆, e₇, e₈, e₉, e₁₀, e₁₁, e₁₂, e₁₃, e₁₄, e₁₅, e₁₆, e₁₇, e₁₈, e₁₉,
    hgood, hknown, ← WitnessCategory.asU16_of_fromU16 hwitness]
  simp only [paddedBytes, List.append_assoc, List.append_nil]

section

variable [Digests]

/-- The accepted bytes. -/
theorem fromBytes_eq_ok {bytes : List UInt8} {r : NodeCacheRecord} :
    fromBytes bytes = .ok r ↔
      r.Encodable ∧ ∃ pad, bytes = sealBody DOMAIN_NODE_CACHE (r.paddedBytes pad) := by
  constructor
  · intro h
    obtain ⟨body, hopen, h⟩ := bind_eq_ok.mp h
    obtain ⟨rest, hread⟩ := Reader.runOn_eq_ok.mp h
    obtain ⟨hr, pad, rfl⟩ := read_eq_ok hread
    exact ⟨hr, pad, openBody_eq_ok.mp hopen⟩
  · rintro ⟨hr, pad, rfl⟩
    rw [fromBytes, openBody_sealBody, ok_bind]
    exact Reader.runOn_eq (read_paddedBytes hr pad)

theorem fromBytes_of_toBytes {r : NodeCacheRecord} {bytes : List UInt8} (hwords : r.Words)
    (h : r.toBytes = .ok bytes) : fromBytes bytes = .ok r ↔ r.Consistent := by
  obtain ⟨hids, htail, rfl⟩ := toBytes_eq_ok.mp h
  rw [fromBytes_eq_ok, ← paddedBytes_zero]
  refine ⟨fun ⟨hr, _⟩ => ⟨hr.safeChar_le, hr.tail_le, hr.count_lt⟩, fun hr => ⟨?_, _, rfl⟩⟩
  exact ⟨hids, htail, hwords.blockIndex_lt, hwords.endChar_lt, hwords.endByte_lt, hr.safeChar_le,
    hr.tail_le, hr.count_lt⟩

theorem toBytes_of_fromBytes {r : NodeCacheRecord} {bytes : List UInt8}
    (h : fromBytes bytes = .ok r) : r.toBytes = .ok bytes ↔ ZeroPadded 40 bytes := by
  obtain ⟨hr, pad, rfl⟩ := fromBytes_eq_ok.mp h
  have hmagic : NODE_MAGIC.length = 4 := by decide
  rw [paddedBytes, ← sealBody_eq_iff (by simp [hmagic]), ← paddedBytes, ← paddedBytes,
    paddedBytes_zero, toBytes_eq_ok]
  exact ⟨fun h => h.2.2.symm, fun h => ⟨hr.ids_lt, hr.tail_lt, h.symm⟩⟩

end

end NodeCacheRecord

/-! ### Session sidecars -/

namespace SessionSidecar

/-- The counters are 64-bit words. -/
structure Words (sc : SessionSidecar) : Prop where
  totalChars_lt : sc.totalChars < 2 ^ 64
  safeChar_lt : sc.safeChar < 2 ^ 64
  safeByte_lt : sc.safeByte < 2 ^ 64
  blocksEnd_lt : sc.blocksEnd < 2 ^ 64
  blocksEndByte_lt : sc.blocksEndByte < 2 ^ 64
  scanFloor_lt : sc.scanFloor < 2 ^ 64
  chainBaseSafe_lt : sc.chainBaseSafe < 2 ^ 64
  chainBaseIdx_lt : sc.chainBaseIdx < 2 ^ 64
  sealedCount_lt : sc.sealedCount < 2 ^ 64
  lastReplaceFrom_lt : sc.lastReplaceFrom < 2 ^ 64
  entry_lt : ∀ p ∈ sc.sealLog, p.1 < 2 ^ 64 ∧ p.2 < 2 ^ 64

/-- What the decoder asks of the fields together. -/
structure Consistent (sc : SessionSidecar) : Prop where
  safeChar_le : sc.safeChar ≤ sc.totalChars
  blocksEnd_le : sc.blocksEnd ≤ sc.totalChars

theorem readLog_eq_ok {n : ℕ} {s rest : List UInt8} {log : List (ℕ × ℕ)}
    (h : (readLog n).run s = .ok log rest) :
    s = logBytes log ++ rest ∧ log.length = n ∧ ∀ p ∈ log, p.1 < 2 ^ 64 ∧ p.2 < 2 ^ 64 := by
  induction n generalizing s log with
  | zero =>
    obtain ⟨rfl, rfl⟩ := EStateM.Result.ok.inj h
    exact ⟨rfl, rfl, fun p hp => absurd hp List.not_mem_nil⟩
  | succ n ih =>
    obtain ⟨c, s₁, hc, h⟩ := run_bind_eq_ok h
    obtain ⟨i, s₂, hi, h⟩ := run_bind_eq_ok h
    obtain ⟨log', s₃, hlog, h⟩ := run_bind_eq_ok h
    obtain ⟨rfl, rfl⟩ := EStateM.Result.ok.inj h
    obtain ⟨e₁, hc_lt⟩ := Reader.uint_eq_ok.mp hc
    obtain ⟨e₂, hi_lt⟩ := Reader.uint_eq_ok.mp hi
    obtain ⟨e₃, rfl, hlt⟩ := ih hlog
    refine ⟨?_, rfl, List.forall_mem_cons.mpr ⟨⟨hc_lt, hi_lt⟩, hlt⟩⟩
    rw [e₁, e₂, e₃]
    simp only [logBytes, List.flatMap_cons, List.append_assoc]

/-- A flag that was read is the byte of the Boolean it stands for. -/
theorem leBytes_flag {flag : ℕ} (h : ¬1 < flag) :
    leBytes 1 flag = leBytes 1 (if (flag == 1) = true then 1 else 0) := by
  rcases Nat.le_one_iff_eq_zero_or_eq_one.mp (not_lt.mp h) with rfl | rfl <;> rfl

theorem read_eq_ok {body rest : List UInt8} {sc : SessionSidecar}
    (h : read.run body = .ok sc rest) : sc.Encodable ∧ ∃ pad, body = sc.paddedBytes pad := by
  obtain ⟨magic, s₁, hmagic, h⟩ := run_bind_eq_ok h
  obtain ⟨_, s₂, hgood, h⟩ := run_bind_eq_ok h
  obtain ⟨version, s₃, hversion, h⟩ := run_bind_eq_ok h
  obtain ⟨_, s₄, hknown, h⟩ := run_bind_eq_ok h
  obtain ⟨recordCurrHash, s₅, hrecord, h⟩ := run_bind_eq_ok h
  obtain ⟨totalChars, s₆, htotal, h⟩ := run_bind_eq_ok h
  obtain ⟨safeChar, s₇, hsafe, h⟩ := run_bind_eq_ok h
  obtain ⟨safeByte, s₈, hbyte, h⟩ := run_bind_eq_ok h
  obtain ⟨blocksEnd, s₉, hblocks, h⟩ := run_bind_eq_ok h
  obtain ⟨blocksEndByte, s₁₀, hblocksByte, h⟩ := run_bind_eq_ok h
  obtain ⟨scanFloor, s₁₁, hfloor, h⟩ := run_bind_eq_ok h
  obtain ⟨chainBaseSafe, s₁₂, hbase, h⟩ := run_bind_eq_ok h
  obtain ⟨chainBaseIdx, s₁₃, hidx, h⟩ := run_bind_eq_ok h
  obtain ⟨chainTail, s₁₄, htail, h⟩ := run_bind_eq_ok h
  obtain ⟨flag, s₁₅, hflag, h⟩ := run_bind_eq_ok h
  obtain ⟨_, s₁₆, hbool, h⟩ := run_bind_eq_ok h
  obtain ⟨sealedCount, s₁₇, hsealed, h⟩ := run_bind_eq_ok h
  obtain ⟨lastReplaceFrom, s₁₈, hlast, h⟩ := run_bind_eq_ok h
  obtain ⟨bufLen, s₁₉, hbufLen, h⟩ := run_bind_eq_ok h
  obtain ⟨nLog, s₂₀, hnLog, h⟩ := run_bind_eq_ok h
  obtain ⟨buf, s₂₁, hbuf, h⟩ := run_bind_eq_ok h
  obtain ⟨sealLog, s₂₂, hlog, h⟩ := run_bind_eq_ok h
  obtain ⟨_, s₂₃, hfinish, h⟩ := run_bind_eq_ok h
  obtain ⟨_, s₂₄, hchars, h⟩ := run_bind_eq_ok h
  obtain ⟨_, s₂₅, hends, h⟩ := run_bind_eq_ok h
  obtain ⟨rfl, rfl⟩ := EStateM.Result.ok.inj h
  -- what each step took off the front of its input
  obtain ⟨e₁, -⟩ := Reader.take_eq_ok.mp hmagic
  obtain ⟨hgood, e₂⟩ := run_throwIf_eq_ok hgood
  obtain ⟨e₃, -⟩ := Reader.uint_eq_ok.mp hversion
  obtain ⟨hknown, e₄⟩ := run_throwIf_eq_ok hknown
  have e₅ := Reader.hash_eq_ok hrecord
  obtain ⟨e₆, htotal_lt⟩ := Reader.uint_eq_ok.mp htotal
  obtain ⟨e₇, -⟩ := Reader.uint_eq_ok.mp hsafe
  obtain ⟨e₈, hbyte_lt⟩ := Reader.uint_eq_ok.mp hbyte
  obtain ⟨e₉, -⟩ := Reader.uint_eq_ok.mp hblocks
  obtain ⟨e₁₀, hblocksByte_lt⟩ := Reader.uint_eq_ok.mp hblocksByte
  obtain ⟨e₁₁, hfloor_lt⟩ := Reader.uint_eq_ok.mp hfloor
  obtain ⟨e₁₂, hbase_lt⟩ := Reader.uint_eq_ok.mp hbase
  obtain ⟨e₁₃, hidx_lt⟩ := Reader.uint_eq_ok.mp hidx
  obtain ⟨pad, e₁₄⟩ := Reader.optHash_eq_ok htail
  obtain ⟨e₁₅, -⟩ := Reader.uint_eq_ok.mp hflag
  obtain ⟨hbool, e₁₆⟩ := run_throwIf_eq_ok hbool
  obtain ⟨e₁₇, hsealed_lt⟩ := Reader.uint_eq_ok.mp hsealed
  obtain ⟨e₁₈, hlast_lt⟩ := Reader.uint_eq_ok.mp hlast
  obtain ⟨e₁₉, hbufLen_lt⟩ := Reader.uint_eq_ok.mp hbufLen
  obtain ⟨e₂₀, hnLog_lt⟩ := Reader.uint_eq_ok.mp hnLog
  obtain ⟨e₂₁, hbufSize⟩ := Reader.utf8_eq_ok hbuf
  obtain ⟨e₂₂, hlogSize, hlog_lt⟩ := readLog_eq_ok hlog
  obtain ⟨e₂₃, -⟩ := Reader.finish_eq_ok hfinish
  obtain ⟨hchars, -⟩ := run_throwIf_eq_ok hchars
  obtain ⟨hends, -⟩ := run_throwIf_eq_ok hends
  rw [not_not] at hgood hknown
  subst hbufSize hlogSize
  refine ⟨⟨hbufLen_lt, hnLog_lt, htotal_lt, hbyte_lt, hblocksByte_lt, hfloor_lt, hbase_lt, hidx_lt,
    hsealed_lt, hlast_lt, not_lt.mp hchars, not_lt.mp hends, hlog_lt⟩, pad, ?_⟩
  rw [e₁, ← e₂, e₃, ← e₄, e₅, e₆, e₇, e₈, e₉, e₁₀, e₁₁, e₁₂, e₁₃, e₁₄, e₁₅, ← e₁₆, e₁₇, e₁₈, e₁₉,
    e₂₀, e₂₁, e₂₂, e₂₃, hgood, hknown, leBytes_flag hbool]
  simp only [paddedBytes, List.append_assoc, List.append_nil]

section

variable [Digests]

theorem toBytes_eq_ok {sc : SessionSidecar} {bytes : List UInt8} :
    sc.toBytes = .ok bytes ↔ utf8Len sc.buf < 2 ^ 32 ∧ sc.sealLog.length < 2 ^ 32 ∧
      bytes = sealBody DOMAIN_SIDECAR sc.bodyBytes := by
  constructor
  · intro h
    obtain ⟨body, hbody, h⟩ := bind_eq_ok.mp h
    obtain ⟨n, hn, hbody⟩ := bind_eq_ok.mp hbody
    obtain ⟨m, hm, hbody⟩ := bind_eq_ok.mp hbody
    obtain rfl := Except.ok.inj hbody
    exact ⟨(lenU32_eq_ok.mp hn).1, (lenU32_eq_ok.mp hm).1, (Except.ok.inj h).symm⟩
  · rintro ⟨hbuf, hlog, rfl⟩
    rw [toBytes, body, lenU32_of_lt hbuf, lenU32_of_lt hlog]
    rfl

/-- The accepted bytes. -/
theorem fromBytes_eq_ok {bytes : List UInt8} {sc : SessionSidecar} :
    fromBytes bytes = .ok sc ↔
      sc.Encodable ∧ ∃ pad, bytes = sealBody DOMAIN_SIDECAR (sc.paddedBytes pad) := by
  constructor
  · intro h
    obtain ⟨body, hopen, h⟩ := bind_eq_ok.mp h
    obtain ⟨rest, hread⟩ := Reader.runOn_eq_ok.mp h
    obtain ⟨hsc, pad, rfl⟩ := read_eq_ok hread
    exact ⟨hsc, pad, openBody_eq_ok.mp hopen⟩
  · rintro ⟨hsc, pad, rfl⟩
    rw [fromBytes, openBody_sealBody, ok_bind]
    exact Reader.runOn_eq (read_paddedBytes hsc pad)

theorem fromBytes_of_toBytes {sc : SessionSidecar} {bytes : List UInt8} (hwords : sc.Words)
    (h : sc.toBytes = .ok bytes) : fromBytes bytes = .ok sc ↔ sc.Consistent := by
  obtain ⟨hbuf, hlog, rfl⟩ := toBytes_eq_ok.mp h
  rw [fromBytes_eq_ok, ← paddedBytes_zero]
  refine ⟨fun ⟨hsc, _⟩ => ⟨hsc.safeChar_le, hsc.blocksEnd_le⟩, fun hsc => ⟨?_, _, rfl⟩⟩
  exact ⟨hbuf, hlog, hwords.totalChars_lt, hwords.safeByte_lt, hwords.blocksEndByte_lt,
    hwords.scanFloor_lt, hwords.chainBaseSafe_lt, hwords.chainBaseIdx_lt, hwords.sealedCount_lt,
    hwords.lastReplaceFrom_lt, hsc.safeChar_le, hsc.blocksEnd_le, hwords.entry_lt⟩

theorem toBytes_of_fromBytes {sc : SessionSidecar} {bytes : List UInt8}
    (h : fromBytes bytes = .ok sc) : sc.toBytes = .ok bytes ↔ ZeroPadded 102 bytes := by
  obtain ⟨hsc, pad, rfl⟩ := fromBytes_eq_ok.mp h
  have hmagic : SIDECAR_MAGIC.length = 4 := by decide
  rw [paddedBytes, ← sealBody_eq_iff (by simp [hmagic]), ← paddedBytes, ← paddedBytes,
    paddedBytes_zero, toBytes_eq_ok]
  exact ⟨fun h => h.2.2.symm, fun h => ⟨hsc.buf_lt, hsc.log_lt, h.symm⟩⟩

end

end SessionSidecar

/-! ### Both codecs -/

/-- **Which records are read back, and which bytes are written again**: a written record is read
back exactly when its fields are consistent, and accepted bytes are those of their record exactly
when zeroes stand in the place of a missing hash. -/
theorem codecs_canonical_iff [Digests] :
    (∀ (r : NodeCacheRecord) bytes, r.Words → r.toBytes = .ok bytes →
      (NodeCacheRecord.fromBytes bytes = .ok r ↔ r.Consistent)) ∧
      (∀ bytes (r : NodeCacheRecord), NodeCacheRecord.fromBytes bytes = .ok r →
        (r.toBytes = .ok bytes ↔ ZeroPadded 40 bytes)) ∧
      (∀ (sc : SessionSidecar) bytes, sc.Words → sc.toBytes = .ok bytes →
        (SessionSidecar.fromBytes bytes = .ok sc ↔ sc.Consistent)) ∧
      ∀ bytes (sc : SessionSidecar), SessionSidecar.fromBytes bytes = .ok sc →
        (sc.toBytes = .ok bytes ↔ ZeroPadded 102 bytes) :=
  ⟨fun _ _ hwords h => NodeCacheRecord.fromBytes_of_toBytes hwords h,
    fun _ _ h => NodeCacheRecord.toBytes_of_fromBytes h,
    fun _ _ hwords h => SessionSidecar.fromBytes_of_toBytes hwords h,
    fun _ _ h => SessionSidecar.toBytes_of_fromBytes h⟩

/-- A node without a parent. -/
def orphanNode (safeChar : ℕ) : NodeCacheRecord where
  fingerprint := ZERO_HASH
  witness := .NoneFullReencode
  parent := none
  key := ZERO_HASH
  blockIndex := 0
  endChar := 0
  safeChar
  idsBase := 0
  endByte := 0
  ids := []
  textTail := []

theorem codecs_canonical_orphan : ∃ bytes, (orphanNode 0).toBytes = .ok bytes ∧
    NodeCacheRecord.fromBytes bytes = .ok (orphanNode 0) ∧ ZeroPadded 40 bytes := by
  have hwords : (orphanNode 0).Words := by constructor <;> decide
  have hcons : (orphanNode 0).Consistent := by constructor <;> decide
  have hbytes := NodeCacheRecord.toBytes_eq_ok.mpr ⟨(by decide : (orphanNode 0).ids.length < 2 ^ 32),
    (by decide : utf8Len (orphanNode 0).textTail < 2 ^ 32), rfl⟩
  have hread := (codecs_canonical_iff.1 _ _ hwords hbytes).mpr hcons
  exact ⟨_, hbytes, hread, (codecs_canonical_iff.2.1 _ _ hread).mp hbytes⟩

/-- A node whose safe point lies behind its end is written and not read back, and one without a
parent is also read from bytes that it is not written to. -/
theorem codecs_not_canonical :
    (∃ bytes, (orphanNode 1).toBytes = .ok bytes ∧
      NodeCacheRecord.fromBytes bytes ≠ .ok (orphanNode 1)) ∧
      NodeCacheRecord.fromBytes (sealBody DOMAIN_NODE_CACHE
        ((orphanNode 0).paddedBytes ⟨List.replicate 32 1, rfl⟩)) = .ok (orphanNode 0) ∧
      (orphanNode 0).toBytes ≠ .ok (sealBody DOMAIN_NODE_CACHE
        ((orphanNode 0).paddedBytes ⟨List.replicate 32 1, rfl⟩)) := by
  have hids (n : ℕ) : (orphanNode n).ids.length < 2 ^ 32 := Nat.two_pow_pos 32
  have htail (n : ℕ) : utf8Len (orphanNode n).textTail < 2 ^ 32 := Nat.two_pow_pos 32
  have hbytes := NodeCacheRecord.toBytes_eq_ok.mpr ⟨hids 1, htail 1, rfl⟩
  refine ⟨⟨_, hbytes, fun h => ?_⟩, ?_, fun h => ?_⟩
  · have hsafe := (NodeCacheRecord.fromBytes_eq_ok.mp h).1.safeChar_le
    exact absurd hsafe (by decide)
  · refine NodeCacheRecord.fromBytes_eq_ok.mpr ⟨?_, _, rfl⟩
    constructor <;> decide
  · have hbytes := sealBody_injective _ (NodeCacheRecord.toBytes_eq_ok.mp h).2.2
    exact absurd hbytes (by decide)

end Toktier.StoreCore
