import Mathlib.Data.List.Chain
import Toktier.Lib.Normalization
import Toktier.Pretok.Utf8Decode

/-!
# The quick check of the normalizer

A text whose characters are all safe and whose marks are in order is its own normal form. A
thread for each byte decodes the character that starts there, looks its class up, and, when it is
a mark, finds the character before it by walking the bytes back. The flag stays clear when no
thread finds anything, and then the text is encoded as it is.

## Main definitions

* `nfcQcThread`, `kNfcQc`: the threads and the flag.
* `Flagged`: what the check looks for in a text.
* `QuickCheckTable`: a table made from the data of a normalizer.

## Main results

* `nfcQcThread_start`: what the thread at the start of a character finds.
* `nfcQuickCheck_exact`: the flag is exact, and clear only on a normalized text.
-/
namespace Toktier.Pretok

open Lib

/-! ### The kernel -/

/-- `nfcqc_len` -/
def nfcqcLen (c : UInt8) : ℕ :=
  if c < 0x80 then 1
  else if c >>> 5 = 0x6 then 2
  else if c >>> 4 = 0xE then 3
  else if c >>> 3 = 0x1E then 4
  else 0

/-- `nfcqc_cp` -/
def nfcqcCp (b : ℕ → UInt8) (i len n : ℕ) : ℕ :=
  let c := (b i).toNat
  if len = 1 then c
  else
    (List.range' 1 (len - 1)).foldl
      (fun v k => v <<< 6 ||| if i + k < n then (b (i + k)).toNat &&& 0x3F else 0)
      (c &&& 0x7F >>> len)

/-- Thread `i` of `k_nfc_qc`: whether it raises the flag. -/
def nfcQcThread (b : ℕ → UInt8) (tab : ℕ → UInt8) (n i : ℕ) : Bool :=
  if i ≥ n then false
  else
    let len := nfcqcLen (b i)
    if len = 0 then false
    else
      let cp := nfcqcCp b i len n
      if cp > 0x10FFFF then true
      else
        let v := tab cp
        if v = 255 then true
        else if v = 0 then false
        else
          -- a character of one byte before this one is skipped
          match ([2, 3, 4].filter (· ≤ i)).find? fun k => nfcqcLen (b (i - k)) = k with
          | none => false
          | some k =>
            let pcp := nfcqcCp b (i - k) k n
            if pcp ≤ 0x10FFFF then tab pcp ≠ 255 ∧ tab pcp > v else false

/-- `k_nfc_qc`, its threads taken in the order `order`: the flag. -/
def kNfcQc (bytes : List UInt8) (tab : ℕ → UInt8) (order : List ℕ) : Bool :=
  order.foldl (fun flag i => flag || nfcQcThread (bytes.getD · 0) tab bytes.length i) false

/-! ### What a thread reads -/

/-- The text holds a character that the table refuses, or two neighbours out of order. -/
def Flagged (tab : ℕ → UInt8) (t : Text) : Prop :=
  (∃ c ∈ t, tab c.toNat = 255) ∨
    ∃ n a b, t[n]? = some a ∧ t[n + 1]? = some b ∧ tab b.toNat ≠ 0 ∧ tab b.toNat < tab a.toNat

section Threads

variable {bytes : List UInt8} {tab : ℕ → UInt8} {t : Text} {pad : List UInt8} {i n k : ℕ} {c : Char}

/-- The length that a byte announces; a continuation byte announces none. -/
theorem nfcqcLen_eq (b : UInt8) : nfcqcLen b =
    if isCont b then 0 else if b.toNat < 248 then leadLen b else 0 := by
  revert b
  refine forall_byte ?_
  decide +kernel

/-- One more byte. -/
theorem shift_or_low (v x : ℕ) : v <<< 6 ||| x &&& 0x3F = v * 64 + x % 64 := by
  have hmask : x &&& 0x3F = x % 64 := and_mask x 6
  have hlow : x % 64 < 2 ^ 6 := Nat.mod_lt x (by decide)
  rw [hmask, shift_or hlow]
  omega

/-- The value of a character is decoded from its bytes. -/
theorem nfcqcCp_eq (h : CharAt bytes i c) (hn : bytes.length ≤ n) :
    nfcqcCp (bytes.getD · 0) i c.utf8Size n = c.toNat := by
  obtain ⟨hlen, hall⟩ := charAt_iff.mp h
  have hbound := toNat_lt c
  have hsize : (encodeNumbers c.toNat).length = c.utf8Size := by
    rw [← String.length_utf8EncodeChar, utf8EncodeChar_eq_map, List.length_map]
  have h1 (x : ℕ) : x &&& 0x7F >>> 2 = x % 32 := and_mask x 5
  have h2 (x : ℕ) : x &&& 0x7F >>> 3 = x % 16 := and_mask x 4
  have h3 (x : ℕ) : x &&& 0x7F >>> 4 = x % 8 := and_mask x 3
  rw [← hsize]
  clear hsize
  unfold encodeNumbers at hlen hall ⊢
  split_ifs at hlen hall ⊢ <;>
    simp only [List.length_cons, List.length_nil, Nat.zero_add, Nat.reduceAdd,
      Nat.forall_lt_succ_right, Nat.not_lt_zero, IsEmpty.forall_iff, implies_true, true_and,
      List.getD_cons_zero, List.getD_cons_succ, Nat.add_zero] at hlen hall ⊢
  · exact hall
  · have hrun : nfcqcCp (bytes.getD · 0) i 2 n = ((bytes.getD i 0).toNat &&& 0x7F >>> 2) <<< 6 |||
        if i + 1 < n then (bytes.getD (i + 1) 0).toNat &&& 0x3F else 0 := rfl
    rw [hrun, if_pos (by omega), h1, shift_or_low]
    omega
  · have hrun : nfcqcCp (bytes.getD · 0) i 3 n =
        (((bytes.getD i 0).toNat &&& 0x7F >>> 3) <<< 6 |||
          if i + 1 < n then (bytes.getD (i + 1) 0).toNat &&& 0x3F else 0) <<< 6 |||
        if i + 2 < n then (bytes.getD (i + 2) 0).toNat &&& 0x3F else 0 := rfl
    rw [hrun, if_pos (by omega), if_pos (by omega), h2, shift_or_low, shift_or_low]
    omega
  · have hrun : nfcqcCp (bytes.getD · 0) i 4 n =
        ((((bytes.getD i 0).toNat &&& 0x7F >>> 4) <<< 6 |||
          if i + 1 < n then (bytes.getD (i + 1) 0).toNat &&& 0x3F else 0) <<< 6 |||
          if i + 2 < n then (bytes.getD (i + 2) 0).toNat &&& 0x3F else 0) <<< 6 |||
        if i + 3 < n then (bytes.getD (i + 3) 0).toNat &&& 0x3F else 0 := rfl
    rw [hrun, if_pos (by omega), if_pos (by omega), if_pos (by omega), h3, shift_or_low,
      shift_or_low, shift_or_low]
    omega

/-! ### The characters of a padded text -/

variable (hpad : ∀ b ∈ pad, isCont b = true)

/-- The bytes of a character stand at its start. -/
theorem charAt_start (pad : List UInt8) (hn : n < t.length) :
    CharAt (utf8 t ++ pad) (utf8Len (t.take n)) t[n] := by
  have hle : utf8Len (t.take n) ≤ (utf8 t).length := by
    rw [length_utf8]
    exact utf8Len_take_le n t
  rw [CharAt, List.drop_append_of_le_length hle, drop_utf8, List.drop_eq_getElem_cons hn, utf8_cons,
    List.append_assoc]
  exact List.prefix_append _ _

/-- The byte at the start of a character announces its length. -/
theorem nfcqcLen_start (pad : List UInt8) (hn : n < t.length) :
    nfcqcLen ((utf8 t ++ pad).getD (utf8Len (t.take n)) 0) = t[n].utf8Size := by
  obtain ⟨b, hb, hlead, hlen⟩ := getElem?_utf8_start hn
  have hlt := (List.getElem?_eq_some_iff.mp hb).1
  have hget : (utf8 t ++ pad).getD (utf8Len (t.take n)) 0 = b := by
    rw [List.getD_eq_getElem?_getD, List.getElem?_append_left hlt, hb, Option.getD_some]
  have hsmall : b.toNat < 248 := by
    have hbound := toNat_lt t[n]
    have hfirst := (charAt_iff.mp (charAt_start pad hn)).2 0
      (by unfold encodeNumbers; split_ifs <;> simp)
    rw [Nat.add_zero, hget] at hfirst
    rw [hfirst]
    unfold encodeNumbers
    split_ifs <;> simp only [List.getD_cons_zero] <;> omega
  rw [utf8Len_take_succ hn] at hlen
  rw [hget, nfcqcLen_eq, hlead, if_neg Bool.false_ne_true, if_pos hsmall]
  omega

include hpad

/-- Only the start of a character announces a length. -/
theorem exists_start (hi : i < (utf8 t ++ pad).length)
    (hlen : nfcqcLen ((utf8 t ++ pad).getD i 0) ≠ 0) : ∃ n < t.length, i = utf8Len (t.take n) := by
  rw [List.getD_eq_getElem?_getD, List.getElem?_eq_getElem hi, Option.getD_some] at hlen
  have hlead : isCont (utf8 t ++ pad)[i] = false := by
    by_contra hcont
    rw [nfcqcLen_eq, Bool.eq_true_of_not_eq_false hcont, if_pos rfl] at hlen
    exact hlen rfl
  rcases Nat.lt_or_ge i (utf8 t).length with hlt | hge
  · rw [List.getElem_append_left hlt] at hlead
    exact exists_take_of_start (List.getElem?_eq_getElem hlt) hlead
  · rw [List.getElem_append_right hge, hpad _ (List.getElem_mem _)] at hlead
    cases hlead

/-- The walk back finds the character before, when it has more than one byte. -/
theorem find_previous (hn : n + 1 < t.length) (hk : k ∈ [2, 3, 4])
    (hle : k ≤ utf8Len (t.take (n + 1))) :
    nfcqcLen ((utf8 t ++ pad).getD (utf8Len (t.take (n + 1)) - k) 0) = k ↔ k = t[n].utf8Size := by
  have hsucc := utf8Len_take_succ (show n < t.length by omega)
  have hpos : 2 ≤ k := by
    simp only [List.mem_cons, List.not_mem_nil, or_false] at hk
    omega
  have hlen : utf8Len (t.take (n + 1)) ≤ (utf8 t ++ pad).length := by
    rw [List.length_append, length_utf8]
    have := utf8Len_take_le (n + 1) t
    omega
  constructor
  · intro h
    have hne : nfcqcLen ((utf8 t ++ pad).getD (utf8Len (t.take (n + 1)) - k) 0) ≠ 0 := by omega
    obtain ⟨m, hm, hstart⟩ := exists_start hpad (by omega) hne
    rw [hstart, nfcqcLen_start pad hm] at h
    have hend := utf8Len_take_succ hm
    have hmn : m = n := by
      rcases Nat.lt_trichotomy m n with hlt | heq | hlt
      · have := utf8Len_take_lt t (show m + 1 < n + 1 by omega) (by omega)
        omega
      · exact heq
      · have := utf8Len_take_lt t (show n + 1 < m + 1 by omega) hn
        omega
    subst hmn
    exact h.symm
  · intro heq
    have hstart : utf8Len (t.take (n + 1)) - k = utf8Len (t.take n) := by omega
    rw [hstart, nfcqcLen_start pad, heq]

/-- What the thread at the start of a character finds. -/
theorem nfcQcThread_start (tab : ℕ → UInt8) (hn : n < t.length) :
    nfcQcThread ((utf8 t ++ pad).getD · 0) tab (utf8 t ++ pad).length (utf8Len (t.take n)) = true ↔
      tab t[n].toNat = 255 ∨ tab t[n].toNat ≠ 0 ∧ ∃ m p, n = m + 1 ∧ t[m]? = some p ∧
        2 ≤ p.utf8Size ∧ tab p.toNat ≠ 255 ∧ tab t[n].toNat < tab p.toNat := by
  have hat := charAt_start pad hn
  have hlen : ¬ utf8Len (t.take n) ≥ (utf8 t ++ pad).length := by
    have := (charAt_iff.mp hat).1
    have hpos : 0 < (encodeNumbers t[n].toNat).length := by
      unfold encodeNumbers
      split_ifs <;> simp
    omega
  have hsize := t[n].utf8Size_pos
  have hvalue := nfcqcCp_eq hat le_rfl
  have hbound := toNat_lt t[n]
  rw [nfcQcThread, if_neg hlen]
  dsimp only
  rw [nfcqcLen_start pad hn, if_neg (by omega), hvalue, if_neg (by omega)]
  by_cases hrefused : tab t[n].toNat = 255
  · rw [if_pos hrefused]
    exact iff_of_true rfl (.inl hrefused)
  rw [if_neg hrefused, or_iff_right hrefused]
  by_cases hstarter : tab t[n].toNat = 0
  · rw [if_pos hstarter]
    exact iff_of_false Bool.false_ne_true fun h => h.1 hstarter
  rw [if_neg hstarter, and_iff_right hstarter]
  cases n with
  | zero =>
    refine iff_of_false (by simp) ?_
    rintro ⟨m, p, hm, -⟩
    omega
  | succ n =>
    have hprev : t[n]? = some t[n] := List.getElem?_eq_getElem (by omega)
    have hsucc := utf8Len_take_succ (show n < t.length by omega)
    -- the character before is the one that the walk finds
    have hone : (∃ m p, n + 1 = m + 1 ∧ t[m]? = some p ∧ 2 ≤ p.utf8Size ∧ tab p.toNat ≠ 255 ∧
        tab t[n + 1].toNat < tab p.toNat) ↔
          2 ≤ t[n].utf8Size ∧ tab t[n].toNat ≠ 255 ∧ tab t[n + 1].toNat < tab t[n].toNat := by
      constructor
      · rintro ⟨m, p, hm, hp, h⟩
        obtain rfl : n = m := by omega
        obtain rfl := Option.some.inj (hprev.symm.trans hp)
        exact h
      · intro h
        exact ⟨n, t[n], rfl, hprev, h⟩
    rw [hone]
    cases hfind : ([2, 3, 4].filter (· ≤ utf8Len (t.take (n + 1)))).find? fun k =>
        nfcqcLen ((utf8 t ++ pad).getD (utf8Len (t.take (n + 1)) - k) 0) = k with
    | none =>
      refine iff_of_false Bool.false_ne_true fun h => ?_
      have hfour := t[n].utf8Size_le_four
      have hk : t[n].utf8Size ∈ [2, 3, 4] := by
        simp only [List.mem_cons, List.not_mem_nil, or_false]
        omega
      have hle : t[n].utf8Size ≤ utf8Len (t.take (n + 1)) := by omega
      refine List.find?_eq_none.mp hfind t[n].utf8Size ?_ ?_
      · exact List.mem_filter.mpr ⟨hk, decide_eq_true hle⟩
      · exact decide_eq_true ((find_previous hpad hn hk hle).mpr rfl)
    | some k =>
      obtain ⟨hk, hle⟩ := List.mem_filter.mp (List.mem_of_find?_eq_some hfind)
      have hfound := List.find?_some hfind
      rw [decide_eq_true_eq] at hfound
      have hkeq := (find_previous hpad hn hk (of_decide_eq_true hle)).mp hfound
      have hstart : utf8Len (t.take (n + 1)) - k = utf8Len (t.take n) := by omega
      have hpvalue := nfcqcCp_eq (charAt_start pad (show n < t.length by omega)) le_rfl
      have hpbound := toNat_lt t[n]
      have htwo : 2 ≤ t[n].utf8Size := by
        simp only [List.mem_cons, List.not_mem_nil, or_false] at hk
        omega
      dsimp only
      rw [hstart, hkeq, hpvalue, if_pos (by omega), decide_eq_true_eq, and_iff_right htwo]

/-- The flag is raised by the thread of some character. -/
theorem kNfcQc_iff (tab : ℕ → UInt8) {order : List ℕ}
    (horder : order.Perm (List.range (utf8 t ++ pad).length)) :
    kNfcQc (utf8 t ++ pad) tab order = true ↔ ∃ n < t.length, nfcQcThread
      ((utf8 t ++ pad).getD · 0) tab (utf8 t ++ pad).length (utf8Len (t.take n)) = true := by
  have hany (order : List ℕ) (flag : Bool) : order.foldl (fun flag i => flag || nfcQcThread
      ((utf8 t ++ pad).getD · 0) tab (utf8 t ++ pad).length i) flag = (flag || order.any fun i =>
        nfcQcThread ((utf8 t ++ pad).getD · 0) tab (utf8 t ++ pad).length i) := by
    induction order generalizing flag with
    | nil => simp
    | cons i order ih => rw [List.foldl_cons, ih, List.any_cons, Bool.or_assoc]
  rw [kNfcQc, hany, Bool.false_or, List.any_eq_true]
  constructor
  · rintro ⟨i, hi, hraise⟩
    have hlt := List.mem_range.mp (horder.mem_iff.mp hi)
    have hlen : nfcqcLen ((utf8 t ++ pad).getD i 0) ≠ 0 := by
      intro hzero
      rw [nfcQcThread, if_neg (by omega)] at hraise
      dsimp only at hraise
      rw [if_pos hzero] at hraise
      cases hraise
    obtain ⟨n, hn, rfl⟩ := exists_start hpad hlt hlen
    exact ⟨n, hn, hraise⟩
  · rintro ⟨n, hn, hraise⟩
    refine ⟨_, horder.mem_iff.mpr (List.mem_range.mpr ?_), hraise⟩
    have := utf8Len_take_lt t hn hn
    rw [List.take_length] at this
    rw [List.length_append, length_utf8]
    omega

/-- The flag is exact when no mark is a character of one byte. -/
theorem kNfcQc_eq (hascii : ∀ c < 128, tab c = 0 ∨ tab c = 255) {order : List ℕ}
    (horder : order.Perm (List.range (utf8 t ++ pad).length)) :
    kNfcQc (utf8 t ++ pad) tab order = true ↔ Flagged tab t := by
  rw [kNfcQc_iff hpad tab horder]
  have hlast : ∀ b : UInt8, ¬ 255 < b := fun b hb => by
    have := UInt8.lt_iff_toNat_lt.mp hb
    have := b.toNat_lt
    have h255 : (255 : UInt8).toNat = 255 := rfl
    omega
  constructor
  · rintro ⟨n, hn, hraise⟩
    rcases (nfcQcThread_start hpad tab hn).mp hraise with hrefused | ⟨hmark, m, p, rfl, hp, -, -, hlt⟩
    · exact .inl ⟨t[n], List.getElem_mem hn, hrefused⟩
    · exact .inr ⟨m, p, t[m + 1], hp, List.getElem?_eq_getElem hn, hmark, hlt⟩
  · rintro (⟨c, hc, hrefused⟩ | ⟨n, a, b, ha, hb, hmark, hlt⟩)
    · obtain ⟨n, hn, rfl⟩ := List.getElem_of_mem hc
      exact ⟨n, hn, (nfcQcThread_start hpad tab hn).mpr (.inl hrefused)⟩
    · obtain ⟨hn, hget⟩ := List.getElem?_eq_some_iff.mp hb
      obtain ⟨hna, hgeta⟩ := List.getElem?_eq_some_iff.mp ha
      by_cases hrefused : tab a.toNat = 255
      · exact ⟨n, hna, (nfcQcThread_start hpad tab hna).mpr (.inl (hgeta ▸ hrefused))⟩
      · refine ⟨n + 1, hn, (nfcQcThread_start hpad tab hn).mpr (.inr ?_)⟩
        rw [hget]
        refine ⟨hmark, n, a, rfl, ha, ?_, hrefused, hlt⟩
        -- a character of one byte is a starter or refused
        by_contra hsize
        have hone : a.utf8Size = 1 := by
          have := a.utf8Size_pos
          omega
        have hsmall := UInt32.le_iff_toNat_le.mp (Char.utf8Size_eq_one_iff.mp hone)
        have hascii := (hascii a.toNat (Nat.lt_succ_of_le hsmall)).resolve_right hrefused
        rw [hascii] at hlt
        exact absurd hlt (by simp)

end Threads

/-! ### The normal form -/

/-- A table made from the data of a normalizer: it refuses every character that decomposition
and composition can change, and orders the marks as their combining classes are. -/
structure QuickCheckTable (u : Canonical Char) (tab : ℕ → UInt8) : Prop where
  safe : ∀ c, tab c.toNat ≠ 255 → u.Safe c
  starter : ∀ c, tab c.toNat ≠ 255 → (tab c.toNat = 0 ↔ u.ccc c = 0)
  order : ∀ a b, tab a.toNat ≠ 255 → tab b.toNat ≠ 255 → u.ccc a < u.ccc b →
    tab a.toNat < tab b.toNat

/-- What is not flagged is in order. -/
theorem isChain_of_not_flagged {u : Canonical Char} {tab : ℕ → UInt8} (ht : QuickCheckTable u tab)
    {t : Text} (h : ¬ Flagged tab t) : t.IsChain u.Stays := by
  rw [Flagged, not_or] at h
  obtain ⟨hrefused, hpairs⟩ := h
  refine List.isChain_iff_getElem.mpr fun n hn => ?_
  have hfirst : tab t[n].toNat ≠ 255 := fun h => hrefused ⟨_, List.getElem_mem _, h⟩
  have hsecond : tab t[n + 1].toNat ≠ 255 := fun h => hrefused ⟨_, List.getElem_mem _, h⟩
  by_contra hstay
  rw [Canonical.Stays, not_or, Nat.not_le] at hstay
  refine hpairs ⟨n, t[n], t[n + 1], List.getElem?_eq_getElem (by omega),
    List.getElem?_eq_getElem hn, ?_, ht.order _ _ hsecond hfirst hstay.2⟩
  exact (ht.starter _ hsecond).not.mpr hstay.1

/-- The flag is raised exactly on a refused character or a pair out of order, whatever follows
the text; and a text that does not raise it is its own normal form. -/
theorem nfcQuickCheck_exact (tab : ℕ → UInt8) (hascii : ∀ c < 128, tab c = 0 ∨ tab c = 255)
    (t : Text) (pad : List UInt8) (hpad : ∀ b ∈ pad, isCont b = true) (order : List ℕ)
    (horder : order.Perm (List.range (utf8 t ++ pad).length)) :
    (kNfcQc (utf8 t ++ pad) tab order = true ↔ Flagged tab t) ∧
      ∀ u : Canonical Char, QuickCheckTable u tab → kNfcQc (utf8 t ++ pad) tab order = false →
        u.nfc t = t := by
  have hflag := kNfcQc_eq hpad hascii horder
  refine ⟨hflag, fun u ht hclear => ?_⟩
  have hno : ¬ Flagged tab t := fun h => by
    rw [hflag.mpr h] at hclear
    cases hclear
  refine Canonical.nfc_eq_self (fun c hc => ht.safe c fun h => hno (.inl ⟨c, hc, h⟩)) ?_
  exact isChain_of_not_flagged ht hno

/-- The letter e with its acute accent, the accent, and a mark below that joins nothing. -/
def acute : Canonical Char where
  decomp c := if c.toNat = 0xE9 then [Char.ofNat 0x65, Char.ofNat 0x301] else [c]
  ccc c := if c.toNat = 0x301 then 230 else if c.toNat = 0x316 then 220 else 0
  comp a b := if a.toNat = 0x65 ∧ b.toNat = 0x301 then some (Char.ofNat 0xE9) else none
  starter h := by
    split_ifs at h
    obtain rfl := Option.some.inj h
    decide

/-- The accent may join a letter, the mark is the first in the order of the classes. -/
def acuteTable (c : ℕ) : UInt8 := if c = 0x301 then 255 else if c = 0x316 then 1 else 0

theorem acuteTable_quickCheck : QuickCheckTable acute acuteTable where
  safe c hc := by
    have hne : c.toNat ≠ 0x301 := fun h => hc (by rw [acuteTable, if_pos h])
    by_cases he : c.toNat = 0xE9
    · obtain rfl : c = Char.ofNat 0xE9 := Char.toNat_inj.mp he
      refine ⟨by decide, fun a d hd => ?_⟩
      obtain rfl : Char.ofNat 0x65 = d := Option.some.inj hd
      exact if_neg fun h => absurd h.2 (by decide)
    · have hdecomp : acute.decomp c = [c] := if_neg he
      refine ⟨?_, fun a d hd => ?_⟩
      · rw [Canonical.nfc, List.flatMap_singleton, hdecomp]
        change acute.compose [c] = [c]
        rw [Canonical.compose]
        split_ifs <;> rfl
      · rw [hdecomp] at hd
        obtain rfl := Option.some.inj hd
        exact if_neg fun h => hne h.2
  starter c hc := by
    have hne : c.toNat ≠ 0x301 := fun h => hc (by rw [acuteTable, if_pos h])
    simp only [acuteTable, acute, if_neg hne]
    split_ifs <;> simp
  order a b ha hb h := by
    have hna : a.toNat ≠ 0x301 := fun h => ha (by rw [acuteTable, if_pos h])
    have hnb : b.toNat ≠ 0x301 := fun h => hb (by rw [acuteTable, if_pos h])
    simp only [acute, acuteTable, if_neg hna, if_neg hnb] at h ⊢
    split_ifs at h ⊢ <;> first | omega | decide

/-- The accented letter and the mark, in a buffer with a byte of padding. -/
theorem nfcQuickCheck_exact_acute :
    (kNfcQc (utf8 [Char.ofNat 0xE9, Char.ofNat 0x316] ++ [0x80]) acuteTable [4, 3, 2, 1, 0] = true ↔
      Flagged acuteTable [Char.ofNat 0xE9, Char.ofNat 0x316]) ∧
    acute.nfc [Char.ofNat 0xE9, Char.ofNat 0x316] = [Char.ofNat 0xE9, Char.ofNat 0x316] := by
  have hascii : ∀ c < 128, acuteTable c = 0 ∨ acuteTable c = 255 := fun c hc => by
    rw [acuteTable, if_neg (by omega), if_neg (by omega)]
    exact .inl rfl
  obtain ⟨hflag, hnfc⟩ := nfcQuickCheck_exact acuteTable hascii
    [Char.ofNat 0xE9, Char.ofNat 0x316] [0x80] (List.forall_mem_singleton.mpr rfl) [4, 3, 2, 1, 0]
    (by decide)
  exact ⟨hflag, hnfc acute acuteTable_quickCheck (by decide)⟩

/-- A table that gives an ASCII letter a class: the pair is out of order and the flag stays clear,
for the walk back skips characters of one byte. -/
theorem ascii_class_not_flagged : ¬ ∀ (tab : ℕ → UInt8) (t : Text) (pad : List UInt8),
    (∀ b ∈ pad, isCont b = true) → ∀ order : List ℕ,
      order.Perm (List.range (utf8 t ++ pad).length) →
        (kNfcQc (utf8 t ++ pad) tab order = true ↔ Flagged tab t) := by
  intro h
  have hab := (h (fun c => if c = 97 then 2 else if c = 98 then 1 else 0) [Char.ofNat 97, Char.ofNat 98]
    [] (by simp) [0, 1] (by decide)).mpr
      (.inr ⟨0, Char.ofNat 97, Char.ofNat 98, rfl, rfl, by decide, by decide⟩)
  exact absurd hab (by decide)

end Toktier.Pretok
