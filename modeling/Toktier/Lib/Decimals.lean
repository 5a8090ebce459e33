import Toktier.Lib.Utf8
import Mathlib.Algebra.Order.Field.Basic
import Mathlib.Algebra.Order.Field.Rat
import Mathlib.Tactic.Ring
import Mathlib.Tactic.NormNum

/-!
# Decimal notations

A positive decimal is its significant digits and the place of its point. The same decimal has
several notations: ECMAScript writes it without an exponent from `1e-6` up to below `1e21`. A number
of a JSON text is read back by its grammar: the digits of all parts, with the point where the parts
and the exponent put it.

## Main definitions

* `Decimal`, `Decimal.value`: significant digits and the point, and what they stand for.
* `ecmaScript`: the notation of `Number::toString`.
* `parseNumber`: the numbers of the JSON grammar.

## Main results

* `mem_e_ecmaScript`: where ECMAScript uses an exponent.
* `parseNumber_jsonText`: a number is read back, whatever text follows it that does not go on with
  the number.
-/
namespace Toktier.Lib

/-! ## Decimals -/

/-- Digits without a zero at either end. -/
structure Significant (digits : Text) : Prop where
  ne_nil : digits ≠ []
  isDigit : ∀ c ∈ digits, c.isDigit = true
  head?_ne : digits.head? ≠ some '0'
  getLast?_ne : digits.getLast? ≠ some '0'

instance (digits : Text) : Decidable (Significant digits) :=
  decidable_of_iff (digits ≠ [] ∧ digits.all Char.isDigit = true ∧ digits.head? ≠ some '0' ∧
      digits.getLast? ≠ some '0')
    ⟨fun h => ⟨h.1, List.all_eq_true.mp h.2.1, h.2.2.1, h.2.2.2⟩,
      fun h => ⟨h.1, List.all_eq_true.mpr h.2, h.3, h.4⟩⟩

/-- A positive decimal: the point stands `point` places to the right of the first digit's left. -/
structure Decimal where
  digits : Text
  point : ℤ
  significant : Significant digits

/-- `0.digits · 10 ^ point` -/
def Decimal.value (d : Decimal) : ℚ :=
  (Nat.ofDigitChars 10 d.digits 0 : ℚ) * 10 ^ (d.point - d.digits.length)

/-- A number of JSON. -/
inductive JsonNumber
  | zero
  | decimal (negative : Bool) (magnitude : Decimal)

/-! ## The notation of ECMAScript -/

/-- A sign and the digits of a number. -/
def signed (n : ℤ) : Text := (if n < 0 then '-' else '+') :: Nat.toDigits 10 n.natAbs

/-- One digit in front of the point. -/
def scientific (digits : Text) : Text := digits.take 1 ++ (if digits.length = 1 then [] else '.' :: digits.drop 1)

/-- `Number::toString` of a positive number. -/
def ecmaScript (d : Decimal) : Text :=
  if d.digits.length ≤ d.point ∧ d.point ≤ 21 then
    d.digits ++ List.replicate (d.point - d.digits.length).toNat '0'
  else if 0 < d.point ∧ d.point ≤ 21 then
    d.digits.take d.point.toNat ++ '.' :: d.digits.drop d.point.toNat
  else if -6 < d.point ∧ d.point ≤ 0 then
    '0' :: '.' :: (List.replicate (-d.point).toNat '0' ++ d.digits)
  else scientific d.digits ++ 'e' :: signed (d.point - 1)

/-- The text of a number. -/
def jsonNumber : JsonNumber → Text
  | .zero => ['0']
  | .decimal negative magnitude => (if negative then ['-'] else []) ++ ecmaScript magnitude

/-! ## The grammar of numbers -/

/-- The digits that a text starts with, and what follows them. -/
def spanDigits (text : Text) : Text × Text := (text.takeWhile Char.isDigit, text.dropWhile Char.isDigit)

/-- The digits behind a point, if there is one. -/
def parseFraction : Text → Option (Text × Text)
  | '.' :: text => if (spanDigits text).1 = [] then none else some (spanDigits text)
  | text => some ([], text)

/-- The digits of an exponent. -/
def parseMagnitude (negative : Bool) (text : Text) : Option (ℤ × Text) :=
  if (spanDigits text).1 = [] then none
  else
    let magnitude : ℤ := Nat.ofDigitChars 10 (spanDigits text).1 0
    some (if negative then -magnitude else magnitude, (spanDigits text).2)

/-- An exponent behind its letter. -/
def parseSigned : Text → Option (ℤ × Text)
  | '-' :: text => parseMagnitude true text
  | '+' :: text => parseMagnitude false text
  | text => parseMagnitude false text

/-- The exponent, zero if there is none. -/
def parseExponent : Text → Option (ℤ × Text)
  | 'e' :: text => parseSigned text
  | 'E' :: text => parseSigned text
  | text => some (0, text)

/-- The number of some digits, the point `point` places behind their start. -/
def JsonNumber.ofDigits (negative : Bool) (digits : Text) (point : ℤ) : JsonNumber :=
  let zeros := digits.takeWhile (· = '0')
  let significant := ((digits.dropWhile (· = '0')).reverse.dropWhile (· = '0')).reverse
  if h : Significant significant then .decimal negative ⟨significant, point - zeros.length, h⟩ else .zero

/-- A number without its sign. -/
def parseUnsigned (negative : Bool) (text : Text) : Option (JsonNumber × Text) := do
  let (whole, rest) := spanDigits text
  if whole = [] ∨ whole.head? = some '0' ∧ whole ≠ ['0'] then none
  else do
    let (fraction, rest) ← parseFraction rest
    let (exponent, rest) ← parseExponent rest
    return (.ofDigits negative (whole ++ fraction) (whole.length + exponent), rest)

/-- `-? (0 | [1-9][0-9]*) (. [0-9]+)? ([eE] [+-]? [0-9]+)?` -/
def parseNumber : Text → Option (JsonNumber × Text)
  | '-' :: text => parseUnsigned true text
  | text => parseUnsigned false text

/-! ## Reading a number back -/

/-- A text that does not go on with digits. -/
def NoDigit (text : Text) : Prop := ∀ c, text.head? = some c → c.isDigit = false

/-- A text that does not go on with a number. -/
structure EndsNumber (text : Text) : Prop where
  noDigit : NoDigit text
  ne_point : text.head? ≠ some '.'
  ne_e : text.head? ≠ some 'e'
  ne_E : text.head? ≠ some 'E'

theorem noDigit_cons {c : Char} {text : Text} (h : c.isDigit = false) : NoDigit (c :: text) := by
  intro c' hc'
  cases hc'
  exact h

theorem spanDigits_append {digits rest : Text} (hdigits : ∀ c ∈ digits, c.isDigit = true)
    (hrest : NoDigit rest) : spanDigits (digits ++ rest) = (digits, rest) := by
  have hnone : rest.takeWhile Char.isDigit = [] ∧ rest.dropWhile Char.isDigit = rest := by
    cases rest with
    | nil => exact ⟨rfl, rfl⟩
    | cons c rest =>
        have hc := hrest c rfl
        exact ⟨List.takeWhile_cons_of_neg (by simp [hc]), List.dropWhile_cons_of_neg (by simp [hc])⟩
  rw [spanDigits, List.takeWhile_append_of_pos hdigits, List.dropWhile_append_of_pos hdigits, hnone.1,
    hnone.2, List.append_nil]

theorem parseFraction_point {digits rest : Text} (hne : digits ≠ [])
    (hdigits : ∀ c ∈ digits, c.isDigit = true) (hrest : NoDigit rest) :
    parseFraction ('.' :: (digits ++ rest)) = some (digits, rest) := by
  rw [parseFraction, spanDigits_append hdigits hrest, if_neg hne]

theorem parseFraction_none {rest : Text} (h : rest.head? ≠ some '.') :
    parseFraction rest = some ([], rest) := by
  unfold parseFraction
  split
  · exact absurd rfl h
  · rfl

theorem parseExponent_none {rest : Text} (h : rest.head? ≠ some 'e') (h' : rest.head? ≠ some 'E') :
    parseExponent rest = some (0, rest) := by
  unfold parseExponent
  split
  · exact absurd rfl h
  · exact absurd rfl h'
  · rfl

theorem isDigit_toDigits (n : ℕ) : ∀ c ∈ Nat.toDigits 10 n, c.isDigit = true :=
  fun _ hc => Nat.isDigit_of_mem_toDigits (by decide) (by decide) hc

theorem parseMagnitude_toDigits (negative : Bool) (n : ℕ) {rest : Text} (hrest : NoDigit rest) :
    parseMagnitude negative (Nat.toDigits 10 n ++ rest) =
      some (if negative then -(n : ℤ) else n, rest) := by
  rw [parseMagnitude, spanDigits_append (isDigit_toDigits n) hrest, if_neg Nat.toDigits_ne_nil,
    Nat.ofDigitChars_ten_toDigits]

theorem parseSigned_signed (n : ℤ) {rest : Text} (hrest : NoDigit rest) :
    parseSigned (signed n ++ rest) = some (n, rest) := by
  unfold signed
  split_ifs with hneg
  · have h := parseMagnitude_toDigits true n.natAbs hrest
    rw [if_pos rfl] at h
    exact h.trans (congrArg (fun e => some (e, rest)) (by omega))
  · have h := parseMagnitude_toDigits false n.natAbs hrest
    rw [if_neg Bool.false_ne_true] at h
    exact h.trans (congrArg (fun e => some (e, rest)) (by omega))

/-- Zeros around significant digits do not count. -/
theorem ofDigits_zeros (negative : Bool) (d : Decimal) (before after : ℕ) (point : ℤ)
    (hpoint : point - before = d.point) :
    JsonNumber.ofDigits negative (List.replicate before '0' ++ (d.digits ++ List.replicate after '0'))
      point = .decimal negative d := by
  obtain ⟨digits, place, hsignificant⟩ := d
  obtain rfl : point - before = place := hpoint
  have hzeros : ∀ n, ∀ c ∈ List.replicate n '0', decide (c = '0') = true :=
    fun n c hc => decide_eq_true (List.eq_of_mem_replicate hc)
  obtain ⟨first, rest, rfl⟩ := List.exists_cons_of_ne_nil hsignificant.ne_nil
  have hfirst : ¬decide (first = '0') = true := fun h =>
    hsignificant.head?_ne (congrArg some (of_decide_eq_true h))
  have hlast : ((first :: rest).reverse.dropWhile (· = '0')) = (first :: rest).reverse := by
    have hne : (first :: rest).reverse ≠ [] := by simp
    obtain ⟨last, init, hreverse⟩ := List.exists_cons_of_ne_nil hne
    rw [hreverse]
    refine List.dropWhile_cons_of_neg fun h => hsignificant.getLast?_ne ?_
    rw [← List.head?_reverse, hreverse, List.head?_cons, of_decide_eq_true h]
  have htake : ((List.replicate before '0' ++ ((first :: rest) ++ List.replicate after '0')).takeWhile
      (· = '0')) = List.replicate before '0' := by
    rw [List.takeWhile_append_of_pos (hzeros before), List.cons_append,
      List.takeWhile_cons_of_neg (p := fun c => decide (c = '0')) hfirst, List.append_nil]
  have hdrop : ((List.replicate before '0' ++ ((first :: rest) ++ List.replicate after '0')).dropWhile
      (· = '0')) = (first :: rest) ++ List.replicate after '0' := by
    rw [List.dropWhile_append_of_pos (hzeros before), List.cons_append,
      List.dropWhile_cons_of_neg (p := fun c => decide (c = '0')) hfirst]
  have hstrip : ((((first :: rest) ++ List.replicate after '0').reverse.dropWhile (· = '0')).reverse) =
      first :: rest := by
    rw [List.reverse_append, List.reverse_replicate, List.dropWhile_append_of_pos (hzeros after), hlast,
      List.reverse_reverse]
  unfold JsonNumber.ofDigits
  dsimp only
  simp only [htake, hdrop, hstrip, List.length_replicate]
  rw [dif_pos hsignificant]

/-- The three parts of a number. -/
theorem parseUnsigned_parts (negative : Bool) {whole fraction rest rest' rest'' : Text} {exponent : ℤ}
    (hwhole : ∀ c ∈ whole, c.isDigit = true) (hne : whole ≠ [])
    (hzero : whole.head? = some '0' → whole = ['0']) (hrest : NoDigit rest)
    (hfraction : parseFraction rest = some (fraction, rest'))
    (hexponent : parseExponent rest' = some (exponent, rest'')) :
    parseUnsigned negative (whole ++ rest) =
      some (.ofDigits negative (whole ++ fraction) (whole.length + exponent), rest'') := by
  have hgrammar : ¬(whole = [] ∨ whole.head? = some '0' ∧ whole ≠ ['0']) := by
    rintro (h | ⟨hhead, h⟩)
    · exact hne h
    · exact h (hzero hhead)
  simp only [parseUnsigned, spanDigits_append hwhole hrest, if_neg hgrammar, hfraction,
    Option.bind_eq_bind, Option.bind_some, hexponent]
  rfl

theorem EndsNumber.exponent {rest : Text} (h : EndsNumber rest) : parseExponent rest = some (0, rest) :=
  parseExponent_none h.ne_e h.ne_E

/-- The exponent form: one digit, the rest of the digits as a fraction, and the exponent. -/
theorem parseUnsigned_scientific (negative : Bool) (d : Decimal) {rest : Text} (hrest : NoDigit rest) :
    parseUnsigned negative (scientific d.digits ++ 'e' :: signed (d.point - 1) ++ rest) =
      some (.decimal negative d, rest) := by
  have hall := d.significant.isDigit
  have hexponent : parseExponent ('e' :: (signed (d.point - 1) ++ rest)) = some (d.point - 1, rest) :=
    parseSigned_signed _ hrest
  obtain ⟨first, others, hdigits⟩ := List.exists_cons_of_ne_nil d.significant.ne_nil
  have hfirst : first ≠ '0' := fun h => d.significant.head?_ne (by rw [hdigits, List.head?_cons, h])
  have hwhole : ∀ c ∈ [first], c.isDigit = true := fun c hc => hall c (by
    rw [hdigits, List.mem_singleton.mp hc]
    exact List.mem_cons_self)
  have hzero : [first].head? = some '0' → [first] = ['0'] := fun h => absurd (Option.some.inj h) hfirst
  have hvalue : JsonNumber.ofDigits negative ([first] ++ others) (([first].length : ℤ) + (d.point - 1)) =
      .decimal negative d := by
    have h := ofDigits_zeros negative d 0 0 (([first].length : ℤ) + (d.point - 1)) (by simp)
    rwa [List.replicate_zero, List.append_nil, List.nil_append, hdigits] at h
  have hE : NoDigit ('e' :: (signed (d.point - 1) ++ rest)) := noDigit_cons (by decide)
  rw [scientific, hdigits]
  by_cases hothers : others = []
  · subst hothers
    refine (parseUnsigned_parts negative hwhole (List.cons_ne_nil _ _) hzero hE
      (parseFraction_none (by simp)) hexponent).trans ?_
    rw [hvalue]
  · have hlength : (first :: others).length ≠ 1 := by
      rw [List.length_cons]
      have := List.length_pos_iff.mpr hothers
      omega
    have hfraction : parseFraction ('.' :: (others ++ 'e' :: (signed (d.point - 1) ++ rest))) =
        some (others, 'e' :: (signed (d.point - 1) ++ rest)) :=
      parseFraction_point hothers (fun c hc => hall c (hdigits ▸ List.mem_cons_of_mem first hc)) hE
    rw [if_neg hlength]
    have htext : List.take 1 (first :: others) ++ '.' :: List.drop 1 (first :: others) ++
        'e' :: signed (d.point - 1) ++ rest =
          [first] ++ '.' :: (others ++ 'e' :: (signed (d.point - 1) ++ rest)) := by
      simp
    rw [htext, parseUnsigned_parts negative hwhole (List.cons_ne_nil _ _) hzero
      (noDigit_cons (by decide)) hfraction hexponent, hvalue]

/-- What ECMAScript writes is read back. -/
theorem parseUnsigned_ecmaScript (negative : Bool) (d : Decimal) {rest : Text} (hrest : EndsNumber rest) :
    parseUnsigned negative (ecmaScript d ++ rest) = some (.decimal negative d, rest) := by
  have hsignificant := d.significant
  have hpos : 0 < d.digits.length := List.length_pos_iff.mpr hsignificant.ne_nil
  have hzeros : ∀ n, ∀ c ∈ List.replicate n '0', c.isDigit = true := fun n c hc => by
    rw [List.eq_of_mem_replicate hc]
    decide
  unfold ecmaScript
  split_ifs with hinteger hmiddle hsmall
  · -- an integer: the digits and zeros
    have hwhole : ∀ c ∈ d.digits ++ List.replicate (d.point - d.digits.length).toNat '0',
        c.isDigit = true := fun c hc =>
      (List.mem_append.mp hc).elim (hsignificant.isDigit c) (hzeros _ c)
    refine (parseUnsigned_parts negative hwhole (by simp [hsignificant.ne_nil]) (fun h => ?_)
      hrest.noDigit (parseFraction_none hrest.ne_point) hrest.exponent).trans ?_
    · rw [List.head?_append_of_ne_nil _ hsignificant.ne_nil] at h
      exact absurd h hsignificant.head?_ne
    · have h := ofDigits_zeros negative d 0 (d.point - d.digits.length).toNat d.point (by simp)
      rw [List.replicate_zero, List.nil_append] at h
      rw [List.append_nil, List.length_append, List.length_replicate]
      rw [show (((d.digits.length + (d.point - d.digits.length).toNat : ℕ) : ℤ) + 0) = d.point by omega, h]
  · -- the point inside of the digits
    have hlt : d.point.toNat < d.digits.length := by omega
    have hne : d.digits.take d.point.toNat ≠ [] := by
      rw [ne_eq, List.take_eq_nil_iff]
      rintro (h | h)
      · omega
      · exact hsignificant.ne_nil h
    rw [List.append_assoc, List.cons_append]
    refine (parseUnsigned_parts negative (fun c hc => hsignificant.isDigit c (List.mem_of_mem_take hc))
      hne (fun h => ?_) (noDigit_cons (by decide)) (parseFraction_point ?_ (fun c hc =>
        hsignificant.isDigit c (List.mem_of_mem_drop hc)) hrest.noDigit) hrest.exponent).trans ?_
    · rw [List.head?_take, if_neg (by omega)] at h
      exact absurd h hsignificant.head?_ne
    · rw [ne_eq, List.drop_eq_nil_iff]
      omega
    · have h := ofDigits_zeros negative d 0 0 d.point (by simp)
      rw [List.replicate_zero, List.append_nil, List.nil_append] at h
      rw [List.take_append_drop, List.length_take]
      rw [show (((min d.point.toNat d.digits.length : ℕ) : ℤ) + 0) = d.point by omega, h]
  · -- zeros behind the point
    have hwhole : ∀ c ∈ ['0'], c.isDigit = true := List.forall_mem_singleton.mpr rfl
    refine (parseUnsigned_parts negative hwhole (List.cons_ne_nil _ _) (fun _ => rfl)
      (noDigit_cons (by decide)) (parseFraction_point ?_ (fun c hc =>
        (List.mem_append.mp hc).elim (hzeros _ c) (hsignificant.isDigit c)) hrest.noDigit)
          hrest.exponent).trans ?_
    · simp [hsignificant.ne_nil]
    · have h := ofDigits_zeros negative d (1 + (-d.point).toNat) 0 1 (by omega)
      rw [List.replicate_zero, List.append_nil, Nat.add_comm, List.replicate_succ] at h
      rw [show (((['0'] : Text).length : ℤ) + 0) = 1 from rfl]
      exact congrArg (fun number => some (number, rest)) h
  · exact parseUnsigned_scientific negative d hrest.noDigit

/-- The text of a number starts with a digit or with its sign. -/
theorem ecmaScript_eq_cons (d : Decimal) : ∃ c text, ecmaScript d = c :: text ∧ c.isDigit = true := by
  have hsignificant := d.significant
  obtain ⟨first, others, hdigits⟩ := List.exists_cons_of_ne_nil hsignificant.ne_nil
  have hfirst : first.isDigit = true := hsignificant.isDigit first (hdigits ▸ List.mem_cons_self)
  unfold ecmaScript scientific
  split_ifs with hinteger hmiddle hsmall
  · exact ⟨first, _, by rw [hdigits, List.cons_append], hfirst⟩
  · obtain ⟨n, hn⟩ : ∃ n, d.point.toNat = n + 1 := ⟨d.point.toNat - 1, by omega⟩
    exact ⟨first, _, by rw [hdigits, hn, List.take_succ_cons, List.cons_append], hfirst⟩
  · exact ⟨'0', _, rfl, by decide⟩
  · exact ⟨first, _, by rw [hdigits, List.take_succ_cons, List.cons_append, List.cons_append], hfirst⟩
  · exact ⟨first, _, by rw [hdigits, List.take_succ_cons, List.cons_append, List.cons_append], hfirst⟩

theorem parseNumber_jsonNumber (n : JsonNumber) {rest : Text} (hrest : EndsNumber rest) :
    parseNumber (jsonNumber n ++ rest) = some (n, rest) := by
  cases n with
  | zero =>
      have hwhole : ∀ c ∈ ['0'], c.isDigit = true := List.forall_mem_singleton.mpr rfl
      exact parseUnsigned_parts false hwhole (List.cons_ne_nil _ _) (fun _ => rfl) hrest.noDigit
        (parseFraction_none hrest.ne_point) hrest.exponent
  | decimal negative magnitude =>
      have hread := parseUnsigned_ecmaScript negative magnitude hrest
      cases negative with
      | true => exact hread
      | false =>
          obtain ⟨c, text, htext, hc⟩ := ecmaScript_eq_cons magnitude
          rw [jsonNumber, if_neg Bool.false_ne_true, List.nil_append]
          rw [htext, List.cons_append] at hread ⊢
          unfold parseNumber
          split
          · next heq =>
              rw [(List.cons.inj heq).1] at hc
              exact absurd hc (by decide)
          · exact hread

theorem jsonNumber_eq_cons (n : JsonNumber) :
    ∃ c text, jsonNumber n = c :: text ∧ (c.isDigit = true ∨ c = '-') := by
  cases n with
  | zero => exact ⟨'0', _, rfl, .inl (by decide)⟩
  | decimal negative magnitude =>
      cases negative with
      | true => exact ⟨'-', _, rfl, .inr rfl⟩
      | false =>
          obtain ⟨c, text, htext, hc⟩ := ecmaScript_eq_cons magnitude
          exact ⟨c, text, htext, .inl hc⟩

/-! ## Where the exponent stands -/

theorem ofDigitChars_cons_zero (c : Char) (digits : Text) :
    Nat.ofDigitChars 10 (c :: digits) 0 =
      10 ^ digits.length * (c.toNat - 48) + Nat.ofDigitChars 10 digits 0 := by
  rw [Nat.ofDigitChars_cons, Nat.ofDigitChars_eq_ofDigitChars_zero, Nat.mul_zero, Nat.zero_add]
  rfl

theorem ofDigitChars_lt {digits : Text} (h : ∀ c ∈ digits, c.isDigit = true) :
    Nat.ofDigitChars 10 digits 0 < 10 ^ digits.length := by
  induction digits with
  | nil => exact Nat.one_pos
  | cons c digits ih =>
      have hrest := ih fun c hc => h c (List.mem_cons_of_mem _ hc)
      have hc : c.toNat - 48 ≤ 9 := by
        have := (Char.isDigit_iff_toNat.mp (h c List.mem_cons_self)).2
        exact Nat.sub_le_of_le_add this
      rw [ofDigitChars_cons_zero, List.length_cons, Nat.pow_succ]
      calc 10 ^ digits.length * (c.toNat - 48) + Nat.ofDigitChars 10 digits 0
          < 10 ^ digits.length * 9 + 10 ^ digits.length :=
            Nat.add_lt_add_of_le_of_lt (Nat.mul_le_mul_left _ hc) hrest
        _ = 10 ^ digits.length * 10 := by ring

theorem le_ofDigitChars {digits : Text} (h : Significant digits) :
    10 ^ (digits.length - 1) ≤ Nat.ofDigitChars 10 digits 0 := by
  obtain ⟨first, others, rfl⟩ := List.exists_cons_of_ne_nil h.ne_nil
  have hfirst : 1 ≤ first.toNat - 48 := by
    have hle : 48 ≤ first.toNat := (Char.isDigit_iff_toNat.mp (h.isDigit first List.mem_cons_self)).1
    have hne : first.toNat ≠ 48 := fun heq => h.head?_ne (congrArg some (Char.toNat_inj.mp heq))
    omega
  rw [ofDigitChars_cons_zero, List.length_cons, Nat.add_sub_cancel]
  exact (Nat.le_mul_of_pos_right _ hfirst).trans (Nat.le_add_right _ _)

/-- A decimal lies between the powers of ten of its point. -/
theorem Decimal.value_bounds (d : Decimal) :
    (10 : ℚ) ^ (d.point - 1) ≤ d.value ∧ d.value < (10 : ℚ) ^ d.point := by
  have hpos : 0 < d.digits.length := List.length_pos_iff.mpr d.significant.ne_nil
  have hscale : (0 : ℚ) < 10 ^ (d.point - d.digits.length) := zpow_pos (by norm_num) _
  have hlow : ((10 ^ (d.digits.length - 1) : ℕ) : ℚ) ≤ (Nat.ofDigitChars 10 d.digits 0 : ℚ) :=
    Nat.cast_le.mpr (le_ofDigitChars d.significant)
  have hhigh : (Nat.ofDigitChars 10 d.digits 0 : ℚ) < ((10 ^ d.digits.length : ℕ) : ℚ) :=
    Nat.cast_lt.mpr (ofDigitChars_lt d.significant.isDigit)
  have hten : (10 : ℚ) ≠ 0 := by norm_num
  constructor
  · calc (10 : ℚ) ^ (d.point - 1)
        = ((10 ^ (d.digits.length - 1) : ℕ) : ℚ) * 10 ^ (d.point - d.digits.length) := by
          rw [Nat.cast_pow, Nat.cast_ofNat, ← zpow_natCast, ← zpow_add₀ hten]
          congr 1
          omega
      _ ≤ d.value := mul_le_mul_of_nonneg_right hlow hscale.le
  · calc d.value < ((10 ^ d.digits.length : ℕ) : ℚ) * 10 ^ (d.point - d.digits.length) :=
          mul_lt_mul_of_pos_right hhigh hscale
      _ = (10 : ℚ) ^ d.point := by
          rw [Nat.cast_pow, Nat.cast_ofNat, ← zpow_natCast, ← zpow_add₀ hten]
          congr 1
          omega

theorem Decimal.le_value_iff (d : Decimal) (n : ℤ) : (10 : ℚ) ^ n ≤ d.value ↔ n < d.point := by
  obtain ⟨hle, hlt⟩ := d.value_bounds
  constructor
  · intro h
    by_contra hge
    exact absurd (h.trans_lt hlt) (not_lt.mpr (zpow_le_zpow_right₀ (by norm_num) (not_lt.mp hge)))
  · intro h
    exact (zpow_le_zpow_right₀ (by norm_num) (by omega)).trans hle

/-- The exponent form is the notation of what is below `1e-6`, and of what is `1e21` or above. -/
theorem mem_e_ecmaScript (d : Decimal) :
    'e' ∈ ecmaScript d ↔ ¬((10 : ℚ) ^ (-6 : ℤ) ≤ d.value ∧ d.value < (10 : ℚ) ^ (21 : ℤ)) := by
  rw [← not_le, d.le_value_iff, d.le_value_iff]
  have hdigits : 'e' ∉ d.digits := fun h => absurd (d.significant.isDigit _ h) (by decide)
  have hzeros : ∀ n, 'e' ∉ List.replicate n '0' := fun n h => absurd (List.eq_of_mem_replicate h) (by decide)
  unfold ecmaScript
  split_ifs with hinteger hmiddle hsmall
  · refine iff_of_false (fun h => ?_) (not_not.mpr (by omega))
    exact (List.mem_append.mp h).elim hdigits (hzeros _)
  · refine iff_of_false (fun h => ?_) (not_not.mpr (by omega))
    rcases List.mem_append.mp h with h | h
    · exact hdigits (List.mem_of_mem_take h)
    · rcases List.mem_cons.mp h with h | h
      · exact absurd h (by decide)
      · exact hdigits (List.mem_of_mem_drop h)
  · refine iff_of_false (fun h => ?_) (not_not.mpr (by omega))
    rcases List.mem_cons.mp h with h | h
    · exact absurd h (by decide)
    · rcases List.mem_cons.mp h with h | h
      · exact absurd h (by decide)
      · exact (List.mem_append.mp h).elim (hzeros _) hdigits
  · exact iff_of_true (List.mem_append_right _ List.mem_cons_self) (by omega)

end Toktier.Lib
