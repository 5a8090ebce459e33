import Mathlib.Tactic.Common
import Toktier.Lib.Utf8

/-!
# Bytes in hexadecimal

A byte string is written as two digits for each byte, in lower case. The reader takes both
cases, and white space between the bytes.

## Main results

* `fromHex?_hex`: what was written is read back.
-/
namespace Toktier.Lib

/-- The value of a hexadecimal digit. -/
def hexValue? (c : Char) : Option ℕ :=
  if '0' ≤ c ∧ c ≤ '9' then some (c.toNat - 48)
  else if 'a' ≤ c ∧ c ≤ 'f' then some (c.toNat - 87)
  else if 'A' ≤ c ∧ c ≤ 'F' then some (c.toNat - 55)
  else none

/-- The white space of ASCII. -/
def isAsciiSpace (c : Char) : Bool := c = ' ' || (9 ≤ c.toNat && c.toNat ≤ 13)

/-- Two lower-case digits for each byte. -/
def hex (bs : List UInt8) : Text :=
  bs.flatMap fun b => [Nat.digitChar (b.toNat / 16), Nat.digitChar (b.toNat % 16)]

/-- The bytes of a text of digits; white space may stand between two bytes. -/
def fromHex? : Text → Option (List UInt8)
  | [] => some []
  | [c] => if isAsciiSpace c then some [] else none
  | c :: d :: rest =>
    if isAsciiSpace c then fromHex? (d :: rest)
    else
      match hexValue? c, hexValue? d with
      | some hi, some lo => (fromHex? rest).map (UInt8.ofNat (hi * 16 + lo) :: ·)
      | _, _ => none

theorem digitChar_spec : ∀ d < 16,
    hexValue? (Nat.digitChar d) = some d ∧ isAsciiSpace (Nat.digitChar d) = false := by
  decide

@[simp] theorem length_hex (bs : List UInt8) : (hex bs).length = 2 * bs.length := by
  induction bs with
  | nil => rfl
  | cons b bs ih =>
    rw [hex, List.flatMap_cons, List.length_append, ← hex, ih, List.length_cons]
    simp only [List.length_cons, List.length_nil]
    omega

/-- What was written is read back. -/
theorem fromHex?_hex (bs : List UInt8) : fromHex? (hex bs) = some bs := by
  induction bs with
  | nil => rfl
  | cons b bs ih =>
    have hb : b.toNat < 256 := b.toNat_lt
    obtain ⟨hhi, hspace⟩ := digitChar_spec (b.toNat / 16) (by omega)
    obtain ⟨hlo, -⟩ := digitChar_spec (b.toNat % 16) (by omega)
    rw [hex, List.flatMap_cons, ← hex, List.cons_append, List.cons_append, List.nil_append,
      fromHex?, hspace, if_neg Bool.false_ne_true, hhi, hlo]
    dsimp only
    rw [ih, Option.map_some, Nat.div_add_mod', UInt8.ofNat_toNat]

theorem hex_injective : Function.Injective hex := fun a b h => by
  have hab := congrArg fromHex? h
  rw [fromHex?_hex, fromHex?_hex] at hab
  exact Option.some.inj hab

end Toktier.Lib
