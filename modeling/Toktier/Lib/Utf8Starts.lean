import Toktier.Lib.Occurrences
import Toktier.Lib.Utf8

/-!
# Character starts in a UTF-8 text

UTF-8 is self-synchronizing: the first byte of a character is never a continuation byte, every
other byte is one, and the first byte tells how many follow. So a position of the bytes can be
told to be the start of a character by the byte there, characters can be counted by counting
first bytes, and a text occurs in another exactly where its bytes do.

## Main definitions

* `isCont`, `leadLen`: continuation bytes, and the length a first byte announces.
* `startsIn`: the number of characters that start in a byte string.
* `Malformed`, `Stray`: what is wrong with a byte string that is not the bytes of a text.
-/
namespace Toktier.Lib

/-- A continuation byte. -/
def isCont (b : UInt8) : Bool := b &&& 0xC0 == 0x80

/-- The length of the character that starts with the byte. -/
def leadLen (lead : UInt8) : ℕ :=
  if lead < 0x80 then 1 else if lead < 0xE0 then 2 else if lead < 0xF0 then 3 else 4

/-- The number of characters that start in the byte string. -/
def startsIn (bs : List UInt8) : ℕ := bs.countP fun b => !isCont b

/-! ## One character -/

/-- A property of every byte, from all 256 of them. -/
theorem forall_byte {p : UInt8 → Prop} (h : ∀ n : Fin 256, p (UInt8.ofNat n)) (b : UInt8) :
    p b := by
  have := h ⟨b.toNat, b.toNat_lt⟩
  rwa [show UInt8.ofNat ((⟨b.toNat, b.toNat_lt⟩ : Fin 256) : ℕ) = b by simp] at this

/-- The numbers of the continuation bytes. -/
theorem isCont_iff (b : UInt8) : isCont b = true ↔ 128 ≤ b.toNat ∧ b.toNat < 192 := by
  revert b
  refine forall_byte ?_
  decide +kernel

/-- What the masks of the encoder make of a byte: a continuation byte, or the first byte of a
character of two, three or four bytes; an ASCII byte is a character of its own. -/
private theorem masked_byte (b : UInt8) :
    isCont (b &&& 0x3f ||| 0x80) = true ∧
      (isCont (b &&& 0x1f ||| 0xc0) = false ∧ leadLen (b &&& 0x1f ||| 0xc0) = 2) ∧
      (isCont (b &&& 0x0f ||| 0xe0) = false ∧ leadLen (b &&& 0x0f ||| 0xe0) = 3) ∧
      (isCont (b &&& 0x07 ||| 0xf0) = false ∧ leadLen (b &&& 0x07 ||| 0xf0) = 4) ∧
      (b < 0x80 → isCont b = false ∧ leadLen b = 1) := by
  revert b
  refine forall_byte ?_
  decide +kernel

private theorem isCont_tail (b : UInt8) : isCont (b &&& 0x3f ||| 0x80) = true := (masked_byte b).1

private theorem lead_two (b : UInt8) :
    isCont (b &&& 0x1f ||| 0xc0) = false ∧ leadLen (b &&& 0x1f ||| 0xc0) = 2 :=
  (masked_byte b).2.1

private theorem lead_three (b : UInt8) :
    isCont (b &&& 0x0f ||| 0xe0) = false ∧ leadLen (b &&& 0x0f ||| 0xe0) = 3 :=
  (masked_byte b).2.2.1

private theorem lead_four (b : UInt8) :
    isCont (b &&& 0x07 ||| 0xf0) = false ∧ leadLen (b &&& 0x07 ||| 0xf0) = 4 :=
  (masked_byte b).2.2.2.1

private theorem lead_one (b : UInt8) (h : b < 0x80) : isCont b = false ∧ leadLen b = 1 :=
  (masked_byte b).2.2.2.2 h

/-- A character is a first byte that tells the length, then continuation bytes. -/
theorem utf8EncodeChar_eq (c : Char) : ∃ b bs, String.utf8EncodeChar c = b :: bs ∧
    isCont b = false ∧ (∀ x ∈ bs, isCont x = true) ∧ leadLen b = c.utf8Size ∧
    bs.length + 1 = c.utf8Size := by
  rcases c.utf8Size_eq with h | h | h | h
  · have hv : c.val.toUInt8 < 0x80 := by
      have hle := Char.utf8Size_eq_one_iff.mp h
      rw [UInt32.le_iff_toNat_le] at hle
      rw [UInt8.lt_iff_toNat_lt, UInt32.toNat_toUInt8]
      have : (127 : UInt32).toNat = 127 := rfl
      have : (128 : UInt8).toNat = 128 := rfl
      omega
    obtain ⟨hb, hn⟩ := lead_one _ hv
    exact ⟨_, _, String.utf8EncodeChar_eq_singleton h, hb, by simp, by rw [hn, h], by simp [h]⟩
  · obtain ⟨hb, hn⟩ := lead_two (c.val >>> 6).toUInt8
    exact ⟨_, _, String.utf8EncodeChar_eq_cons_cons h, hb, by simp [isCont_tail], by rw [hn, h],
      by simp [h]⟩
  · obtain ⟨hb, hn⟩ := lead_three (c.val >>> 12).toUInt8
    exact ⟨_, _, String.utf8EncodeChar_eq_cons_cons_cons h, hb, by simp [isCont_tail],
      by rw [hn, h], by simp [h]⟩
  · obtain ⟨hb, hn⟩ := lead_four (c.val >>> 18).toUInt8
    exact ⟨_, _, String.utf8EncodeChar_eq_cons_cons_cons_cons h, hb, by simp [isCont_tail],
      by rw [hn, h], by simp [h]⟩

/-! ## Positions -/

variable {t w : Text} {n i : ℕ} {c : Char}

theorem utf8_cons (c : Char) (t : Text) : utf8 (c :: t) = String.utf8EncodeChar c ++ utf8 t := by
  rw [utf8, List.flatMap_cons, ← utf8]

/-- A text that is not empty starts with the first byte of a character. -/
theorem takeWhile_isCont_utf8 (t : Text) : (utf8 t).takeWhile isCont = [] := by
  cases t with
  | nil => rfl
  | cons c t =>
      obtain ⟨b, bs, hc, hb, -⟩ := utf8EncodeChar_eq c
      rw [utf8_cons, hc, List.cons_append, List.takeWhile_cons_of_neg (by simp [hb])]

theorem take_utf8 (t : Text) (n : ℕ) : (utf8 t).take (utf8Len (t.take n)) = utf8 (t.take n) := by
  have h : utf8 t = utf8 (t.take n) ++ utf8 (t.drop n) := by
    rw [← utf8_append, List.take_append_drop]
  rw [h, List.take_left' (length_utf8 _)]

theorem drop_utf8 (t : Text) (n : ℕ) : (utf8 t).drop (utf8Len (t.take n)) = utf8 (t.drop n) := by
  have h : utf8 t = utf8 (t.take n) ++ utf8 (t.drop n) := by
    rw [← utf8_append, List.take_append_drop]
  rw [h, List.drop_left' (length_utf8 _)]

/-- The byte at a character's start tells where the next one starts. -/
theorem getElem?_utf8_start (hn : n < t.length) : ∃ b, (utf8 t)[utf8Len (t.take n)]? = some b ∧
    isCont b = false ∧ utf8Len (t.take n) + leadLen b = utf8Len (t.take (n + 1)) := by
  obtain ⟨b, bs, hc, hb, -, hlen, -⟩ := utf8EncodeChar_eq t[n]
  refine ⟨b, ?_, hb, ?_⟩
  · rw [← List.head?_drop, drop_utf8, List.drop_eq_getElem_cons hn, utf8_cons, hc]
    rfl
  · rw [List.take_add_one, List.getElem?_eq_getElem hn, utf8Len_append]
    simp [utf8Len, hlen]

/-- Between two starts there are continuation bytes only. -/
theorem getElem?_utf8_cont (hn : n < t.length) (hi : utf8Len (t.take n) < i)
    (hi' : i < utf8Len (t.take (n + 1))) : ∃ b, (utf8 t)[i]? = some b ∧ isCont b = true := by
  obtain ⟨b, bs, hc, -, hbs, -, hlen⟩ := utf8EncodeChar_eq t[n]
  have hsize : utf8Len (t.take (n + 1)) = utf8Len (t.take n) + t[n].utf8Size := by
    rw [List.take_add_one, List.getElem?_eq_getElem hn, utf8Len_append]
    simp [utf8Len]
  have hj : i - utf8Len (t.take n) - 1 < bs.length := by omega
  refine ⟨bs[i - utf8Len (t.take n) - 1], ?_, hbs _ (List.getElem_mem _)⟩
  obtain ⟨j, rfl⟩ : ∃ j, i = utf8Len (t.take n) + (j + 1) :=
    ⟨i - utf8Len (t.take n) - 1, by omega⟩
  rw [← List.getElem?_drop, drop_utf8, List.drop_eq_getElem_cons hn, utf8_cons, hc,
    List.cons_append, List.getElem?_cons_succ, List.getElem?_append_left (by omega)]
  simp

/-! ## Counting starts -/

@[simp] theorem startsIn_append (a b : List UInt8) : startsIn (a ++ b) = startsIn a + startsIn b :=
  List.countP_append

theorem startsIn_le_length (bs : List UInt8) : startsIn bs ≤ bs.length := List.countP_le_length

theorem startsIn_eq_zero {bs : List UInt8} (h : ∀ x ∈ bs, isCont x = true) : startsIn bs = 0 := by
  rw [startsIn, List.countP_eq_zero]
  intro x hx
  simp [h x hx]

theorem startsIn_char (c : Char) : startsIn (String.utf8EncodeChar c) = 1 := by
  obtain ⟨b, bs, hc, hb, hbs, -⟩ := utf8EncodeChar_eq c
  rw [hc, startsIn, List.countP_cons_of_pos (by simp [hb]), ← startsIn, startsIn_eq_zero hbs]

/-- As many characters start in a text's bytes as the text has. -/
@[simp] theorem startsIn_utf8 (t : Text) : startsIn (utf8 t) = t.length := by
  induction t with
  | nil => rfl
  | cons c t ih => rw [utf8_cons, startsIn_append, startsIn_char, ih, List.length_cons, add_comm]

/-- From any position, skipping the continuation bytes leads to the start of the character
whose number is the number of the starts passed. -/
theorem skip_isCont_utf8 (t : Text) {i : ℕ} (hi : i ≤ utf8Len t) :
    i + (((utf8 t).drop i).takeWhile isCont).length =
      utf8Len (t.take (startsIn ((utf8 t).take i))) := by
  induction t generalizing i with
  | nil => simpa using hi
  | cons c t ih =>
      obtain ⟨b, bs, hc, hb, hbs, -, hlen⟩ := utf8EncodeChar_eq c
      have hsize := String.length_utf8EncodeChar c
      rw [utf8Len_cons] at hi
      rw [utf8_cons]
      rcases Nat.eq_zero_or_pos i with rfl | hpos
      · have h0 := takeWhile_isCont_utf8 (c :: t)
        rw [utf8_cons] at h0
        simp [h0, startsIn]
      · rcases Nat.lt_or_ge i c.utf8Size with hlt | hge
        · -- inside the first character
          obtain ⟨j, rfl⟩ : ∃ j, i = j + 1 := ⟨i - 1, by omega⟩
          have htail : ∀ x ∈ bs.drop j, isCont x = true := fun x hx => hbs x (List.mem_of_mem_drop hx)
          have hcount : startsIn ((b :: (bs ++ utf8 t)).take (j + 1)) = 1 := by
            rw [List.take_succ_cons, List.take_append_of_le_length (by omega), startsIn,
              List.countP_cons_of_pos (by simp [hb]), ← startsIn,
              startsIn_eq_zero fun x hx => hbs x (List.mem_of_mem_take hx)]
          rw [hc, List.cons_append, hcount, List.drop_succ_cons,
            List.drop_append_of_le_length (by omega), List.takeWhile_append_of_pos htail,
            takeWhile_isCont_utf8]
          simp
          omega
        · -- past it
          obtain ⟨j, rfl⟩ : ∃ j, i = c.utf8Size + j := ⟨i - c.utf8Size, by omega⟩
          have hj := ih (show j ≤ utf8Len t by omega)
          rw [← hsize, List.take_length_add_append, List.drop_length_add_append, startsIn_append,
            startsIn_char, add_comm 1, List.take_succ_cons, utf8Len_cons, ← hj, hsize]
          omega

/-- The characters that start before a character are those before it. -/
theorem startsIn_take_utf8 (t : Text) (hn : n ≤ t.length) :
    startsIn ((utf8 t).take (utf8Len (t.take n))) = n := by
  rw [take_utf8, startsIn_utf8, List.length_take, min_eq_left hn]

theorem utf8Len_take_mono (t : Text) {m n : ℕ} (h : m ≤ n) :
    utf8Len (t.take m) ≤ utf8Len (t.take n) := by
  have := utf8Len_take_le m (t.take n)
  rwa [List.take_take, min_eq_left h] at this

theorem utf8Len_take_lt (t : Text) {m n : ℕ} (h : m < n) (hm : m < t.length) :
    utf8Len (t.take m) < utf8Len (t.take n) := by
  obtain ⟨b, -, -, hb⟩ := getElem?_utf8_start hm
  have hpos : 0 < leadLen b := by
    unfold leadLen
    split_ifs <;> omega
  have := utf8Len_take_mono t (show m + 1 ≤ n from h)
  omega

/-! ## Well-formed byte strings -/

variable {bs : List UInt8}

/-- The bytes of the character stand at the position. -/
def CharAt (bs : List UInt8) (i : ℕ) (c : Char) : Prop := String.utf8EncodeChar c <+: bs.drop i

/-- A first byte stands where no character does. -/
def Malformed (bs : List UInt8) : Prop :=
  ∃ i b, bs[i]? = some b ∧ isCont b = false ∧ ∀ c, ¬ CharAt bs i c

/-- A continuation byte stands beyond what every first byte before it announces. -/
def Stray (bs : List UInt8) : Prop :=
  ∃ i b, bs[i]? = some b ∧ isCont b = true ∧
    ∀ j < i, ∀ b', bs[j]? = some b' → isCont b' = false → j + leadLen b' ≤ i

theorem charAt_append {j : ℕ} : CharAt (String.utf8EncodeChar c ++ bs) (c.utf8Size + j) = CharAt bs j := by
  have hlen := String.length_utf8EncodeChar c
  ext d
  rw [CharAt, CharAt, ← hlen, List.drop_length_add_append]

/-- The byte of a character and what follows it. -/
theorem getElem?_char_append (c : Char) (bs : List UInt8) (i : ℕ) :
    (i = 0 ∧ ∃ b, (String.utf8EncodeChar c ++ bs)[i]? = some b ∧ isCont b = false ∧
        leadLen b = c.utf8Size) ∨
      (0 < i ∧ i < c.utf8Size ∧ ∃ b, (String.utf8EncodeChar c ++ bs)[i]? = some b ∧
        isCont b = true) ∨
      ∃ j, i = c.utf8Size + j ∧ (String.utf8EncodeChar c ++ bs)[i]? = bs[j]? := by
  obtain ⟨b, tail, hc, hb, htail, hlead, hlen⟩ := utf8EncodeChar_eq c
  have hsize := String.length_utf8EncodeChar c
  rcases Nat.eq_zero_or_pos i with rfl | hpos
  · refine .inl ⟨rfl, b, ?_, hb, hlead⟩
    rw [hc]
    rfl
  rcases Nat.lt_or_ge i c.utf8Size with hlt | hge
  · obtain ⟨k, rfl⟩ : ∃ k, i = k + 1 := ⟨i - 1, by omega⟩
    have hk : k < tail.length := by omega
    refine .inr (.inl ⟨hpos, hlt, tail[k], ?_, htail _ (List.getElem_mem hk)⟩)
    rw [List.getElem?_append_left (by omega), hc, List.getElem?_cons_succ,
      List.getElem?_eq_getElem hk]
  · obtain ⟨k, rfl⟩ := Nat.exists_eq_add_of_le hge
    refine .inr (.inr ⟨k, rfl, ?_⟩)
    rw [List.getElem?_append_right (by omega), hsize, Nat.add_sub_cancel_left]

theorem malformed_char_append : Malformed (String.utf8EncodeChar c ++ bs) ↔ Malformed bs := by
  constructor
  · rintro ⟨i, b, hget, hb, hno⟩
    rcases getElem?_char_append c bs i with ⟨rfl, -⟩ | ⟨-, -, b', hb', hcont⟩ | ⟨j, rfl, hj⟩
    · exact absurd (List.prefix_append _ _) (hno c)
    · rw [hget] at hb'
      obtain rfl := Option.some.inj hb'
      exact Bool.noConfusion (hb.symm.trans hcont)
    · rw [charAt_append] at hno
      exact ⟨j, b, hj ▸ hget, hb, hno⟩
  · rintro ⟨j, b, hget, hb, hno⟩
    refine ⟨c.utf8Size + j, b, ?_, hb, by rwa [charAt_append]⟩
    have hsize := String.length_utf8EncodeChar c
    rw [List.getElem?_append_right (by omega), hsize, Nat.add_sub_cancel_left, hget]

theorem stray_char_append : Stray (String.utf8EncodeChar c ++ bs) ↔ Stray bs := by
  have hsize := String.length_utf8EncodeChar c
  have hshift (j : ℕ) : (String.utf8EncodeChar c ++ bs)[c.utf8Size + j]? = bs[j]? := by
    rw [List.getElem?_append_right (by omega), hsize, Nat.add_sub_cancel_left]
  constructor
  · rintro ⟨i, b, hget, hb, hno⟩
    have hpos := c.utf8Size_pos
    rcases getElem?_char_append c bs 0 with ⟨-, b₀, hb₀, hlead, hlen⟩ | ⟨hz, -⟩ | ⟨j, hz, -⟩
    rotate_left
    · exact absurd hz (lt_irrefl 0)
    · omega
    rcases getElem?_char_append c bs i with ⟨rfl, -⟩ | ⟨hi, hlt, -⟩ | ⟨j, rfl, hj⟩
    · rw [hget] at hb₀
      obtain rfl := Option.some.inj hb₀
      exact Bool.noConfusion (hlead.symm.trans hb)
    · -- the first byte announces it
      have := hno 0 hi b₀ hb₀ hlead
      omega
    · refine ⟨j, b, hj ▸ hget, hb, fun k hk b' hb' hlead' => ?_⟩
      have := hno (c.utf8Size + k) (by omega) b' ((hshift k).trans hb') hlead'
      omega
  · rintro ⟨j, b, hget, hb, hno⟩
    refine ⟨c.utf8Size + j, b, (hshift j).trans hget, hb, fun k hk b' hb' hlead' => ?_⟩
    rcases getElem?_char_append c bs k with ⟨rfl, b₀, hb₀, -, hlen⟩ | ⟨-, -, b₀, hb₀, hcont⟩ |
      ⟨k, rfl, hk'⟩
    · rw [hb'] at hb₀
      obtain rfl := Option.some.inj hb₀
      omega
    · rw [hb'] at hb₀
      obtain rfl := Option.some.inj hb₀
      exact Bool.noConfusion (hlead'.symm.trans hcont)
    · have := hno k (by omega) b' (hk' ▸ hb') hlead'
      omega

/-- A byte string is the bytes of a text when every first byte begins a character and every
continuation byte belongs to one. -/
theorem exists_utf8_iff : (∃ t, bs = utf8 t) ↔ ¬ Malformed bs ∧ ¬ Stray bs := by
  constructor
  · rintro ⟨t, rfl⟩
    induction t with
    | nil => exact ⟨by simp [Malformed], by simp [Stray]⟩
    | cons c t ih => rwa [utf8_cons, malformed_char_append, stray_char_append]
  · induction hn : bs.length using Nat.strong_induction_on generalizing bs with
    | _ n ih =>
      rintro ⟨hform, hstray⟩
      cases bs with
      | nil => exact ⟨[], rfl⟩
      | cons b bs =>
        cases hb : isCont b with
        | true => exact absurd ⟨0, b, rfl, hb, fun j hj => absurd hj (Nat.not_lt_zero j)⟩ hstray
        | false =>
          by_cases hchar : ∃ c, CharAt (b :: bs) 0 c
          · obtain ⟨c, rest, hrest⟩ := hchar
            rw [List.drop_zero] at hrest
            have hpos := c.utf8Size_pos
            have hsize := String.length_utf8EncodeChar c
            have hlen := congrArg List.length hrest
            rw [List.length_append] at hlen
            rw [← hrest, malformed_char_append] at hform
            rw [← hrest, stray_char_append] at hstray
            obtain ⟨t, ht⟩ := ih rest.length (by omega) rfl ⟨hform, hstray⟩
            exact ⟨c :: t, by rw [← hrest, utf8_cons, ← ht]⟩
          · rw [not_exists] at hchar
            exact absurd ⟨0, b, rfl, hb, hchar⟩ hform

theorem utf8Decode?_eq_none_iff : utf8Decode? bs = none ↔ Malformed bs ∨ Stray bs := by
  rw [← not_iff_not, not_or, ← exists_utf8_iff, ← ne_eq, Option.ne_none_iff_exists']
  refine exists_congr fun t => ⟨fun h => (utf8_of_utf8Decode? h).symm, ?_⟩
  rintro rfl
  exact utf8Decode?_utf8 t

/-! ## Occurrences -/

/-- A position with a first byte, or the end, is the start of a character. -/
theorem exists_take_of_start {i : ℕ} {b : UInt8} (hb : (utf8 t)[i]? = some b)
    (hstart : isCont b = false) : ∃ n < t.length, i = utf8Len (t.take n) := by
  have hi : i < utf8Len t := by
    rw [← length_utf8]
    exact (List.getElem?_eq_some_iff.mp hb).1
  have hskip := skip_isCont_utf8 t (Nat.le_of_lt hi)
  have hdrop : (utf8 t).drop i = b :: (utf8 t).drop (i + 1) := by
    obtain ⟨hlt, hget⟩ := List.getElem?_eq_some_iff.mp hb
    rw [List.drop_eq_getElem_cons hlt, hget]
  rw [hdrop, List.takeWhile_cons_of_neg (by simp [hstart]), List.length_nil, Nat.add_zero] at hskip
  refine ⟨_, ?_, hskip⟩
  by_contra hge
  rw [List.take_of_length_le (by omega)] at hskip
  omega

/-- The bytes of a text start those of another exactly where the text does. -/
theorem utf8_prefix_iff : utf8 w <+: utf8 t ↔ w <+: t := by
  constructor
  · rintro ⟨r, hr⟩
    induction w generalizing t with
    | nil => exact List.nil_prefix
    | cons c w ih =>
        cases t with
        | nil =>
            have hpos := c.utf8Size_pos
            have hlen := congrArg List.length hr
            simp at hlen
            omega
        | cons d t =>
            obtain ⟨b, bs, hc, -, -, hb, -⟩ := utf8EncodeChar_eq c
            obtain ⟨b', bs', hd, -, -, hb', -⟩ := utf8EncodeChar_eq d
            have hsizes : c.utf8Size = d.utf8Size := by
              rw [utf8_cons, utf8_cons, hc, hd] at hr
              simp only [List.cons_append, List.cons.injEq] at hr
              rw [← hb, ← hb', hr.1]
            have hlen : (String.utf8EncodeChar c).length = (String.utf8EncodeChar d).length := by
              rw [String.length_utf8EncodeChar, String.length_utf8EncodeChar, hsizes]
            rw [utf8_cons, utf8_cons, List.append_assoc] at hr
            obtain ⟨hcd, hrest⟩ := List.append_inj hr hlen
            have hone : utf8 [c] = utf8 [d] := by simpa [utf8] using hcd
            obtain rfl := (List.cons.inj (utf8_injective hone)).1
            exact List.cons_prefix_cons.mpr ⟨rfl, ih hrest⟩
  · rintro ⟨r, rfl⟩
    exact ⟨utf8 r, (utf8_append w r).symm⟩

/-- A text's bytes occur at the starts where the text does, and nowhere else. -/
theorem occursAt_utf8_iff (hw : w ≠ []) {i : ℕ} :
    OccursAt (utf8 w) (utf8 t) i ↔ ∃ n, OccursAt w t n ∧ i = utf8Len (t.take n) ∧ n < t.length := by
  constructor
  · intro h
    obtain ⟨c, w, rfl⟩ := List.exists_cons_of_ne_nil hw
    obtain ⟨b, bs, hc, hb, -⟩ := utf8EncodeChar_eq c
    have hget : (utf8 t)[i]? = some b := by
      obtain ⟨r, hr⟩ := h
      rw [← List.head?_drop, ← hr, utf8_cons, hc]
      rfl
    obtain ⟨n, hn, rfl⟩ := exists_take_of_start hget hb
    refine ⟨n, ?_, rfl, hn⟩
    unfold OccursAt at h ⊢
    rwa [drop_utf8, utf8_prefix_iff] at h
  · rintro ⟨n, hocc, rfl, -⟩
    unfold OccursAt at hocc ⊢
    rwa [drop_utf8, utf8_prefix_iff]

end Toktier.Lib
