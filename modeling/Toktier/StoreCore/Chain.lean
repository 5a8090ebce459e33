import Toktier.StoreCore.Store

/-!
# Addresses along a text

The chain of a text hangs each complete block under the block before it. The address at
depth `n` is a function of the first `n` blocks and the fingerprint, and under a
collision-free hash it determines them.

## Main definitions

* `blockAt`, `chainKey`: a block of a text, and the address at a depth.
* `ChainInputs`: what is hashed for the first `n` addresses.

## Main results

* `chainKey_append`: extending a text does not move its addresses.
* `chainKey_injective`: equal addresses mean equal prefixes.
-/
namespace Toktier.StoreCore

open Toktier.Lib

/-- Block `i` of a text. -/
def blockAt (blockChars : ℕ) (text : Text) (i : ℕ) : Text := (text.drop (i * blockChars)).take blockChars

theorem blockSlices_eq (text : Text) (blockChars : ℕ) :
    blockSlices text blockChars =
      (List.range (text.length / blockChars)).map (blockAt blockChars text) := rfl

theorem blockAt_append {blockChars i : ℕ} {text : Text} (h : (i + 1) * blockChars ≤ text.length)
    (rest : Text) : blockAt blockChars (text ++ rest) i = blockAt blockChars text i := by
  rw [Nat.add_mul, Nat.one_mul] at h
  simp only [blockAt]
  rw [List.drop_append_of_le_length (by omega), List.take_append_of_le_length]
  rw [List.length_drop]
  omega

theorem take_succ_block (blockChars n : ℕ) (text : Text) :
    text.take ((n + 1) * blockChars) =
      text.take (n * blockChars) ++ blockAt blockChars text n := by
  rw [Nat.add_mul, Nat.one_mul, List.take_add, blockAt]

section Keys

variable [Digests] (fingerprint : SemanticFingerprint) (blockChars : ℕ)

/-- The address at depth `n`; the root has none. -/
def chainKey (text : Text) : ℕ → Option BlockHash
  | 0 => none
  | n + 1 => some (nodeKey (chainKey text n) fingerprint n (utf8 (blockAt blockChars text n)))

/-- What is hashed for the address at depth `n + 1`. -/
def chainInput (text : Text) (n : ℕ) : List UInt8 :=
  nodeKeyInput (chainKey fingerprint blockChars text n) fingerprint n
    (utf8 (blockAt blockChars text n))

theorem chainKey_succ (text : Text) (n : ℕ) :
    chainKey fingerprint blockChars text (n + 1) =
      some (sha256 (chainInput fingerprint blockChars text n)) := rfl

/-- What is hashed for the complete blocks of a text. -/
def ChainInputs (text : Text) : Set (List UInt8) :=
  { x | ∃ n, (n + 1) * blockChars ≤ text.length ∧ x = chainInput fingerprint blockChars text n }

variable {fingerprint blockChars}

theorem chainKey_append {text : Text} (rest : Text) {n : ℕ} (h : n * blockChars ≤ text.length) :
    chainKey fingerprint blockChars (text ++ rest) n = chainKey fingerprint blockChars text n := by
  induction n with
  | zero => rfl
  | succ n ih =>
      have hle : n * blockChars ≤ text.length :=
        le_trans (Nat.mul_le_mul_right _ (Nat.le_succ n)) h
      rw [chainKey, chainKey, ih hle, blockAt_append h]

theorem chainInput_append {text : Text} (rest : Text) {n : ℕ}
    (h : (n + 1) * blockChars ≤ text.length) :
    chainInput fingerprint blockChars (text ++ rest) n =
      chainInput fingerprint blockChars text n := by
  have hle : n * blockChars ≤ text.length := le_trans (Nat.mul_le_mul_right _ (Nat.le_succ n)) h
  rw [chainInput, chainInput, chainKey_append rest hle, blockAt_append h]

theorem chainInputs_subset_append (text rest : Text) :
    ChainInputs fingerprint blockChars text ⊆ ChainInputs fingerprint blockChars (text ++ rest) := by
  rintro x ⟨n, hn, rfl⟩
  refine ⟨n, ?_, (chainInput_append rest hn).symm⟩
  rw [List.length_append]
  omega

/-- The address at a depth is that of the prefix it covers. -/
theorem chainKey_take {text : Text} {n : ℕ} (h : n * blockChars ≤ text.length) :
    chainKey fingerprint blockChars (text.take (n * blockChars)) n =
      chainKey fingerprint blockChars text n := by
  have hlen : n * blockChars ≤ (text.take (n * blockChars)).length := by
    rw [List.length_take]
    omega
  have happ : chainKey fingerprint blockChars (_ ++ text.drop (n * blockChars)) n = _ :=
    chainKey_append _ hlen
  rw [List.take_append_drop] at happ
  exact happ.symm

/-- Under a hash without collisions on what is hashed, an address determines the depth, the
text up to it and, below the root, the fingerprint, whatever the two texts are. -/
theorem chainKey_injective {U : Set (List UInt8)} (hU : Set.InjOn sha256 U)
    {fingerprint' : SemanticFingerprint} {text text' : Text} {n n' : ℕ}
    (hn : n * blockChars ≤ text.length) (hn' : n' * blockChars ≤ text'.length)
    (hin : ChainInputs fingerprint blockChars text ⊆ U)
    (hin' : ChainInputs fingerprint' blockChars text' ⊆ U)
    (h : chainKey fingerprint blockChars text n = chainKey fingerprint' blockChars text' n') :
    n = n' ∧ text.take (n * blockChars) = text'.take (n' * blockChars) ∧
      (0 < n → fingerprint = fingerprint') := by
  induction n generalizing n' with
  | zero =>
      cases n' with
      | zero => simp
      | succ n' => cases h
  | succ n ih =>
      cases n' with
      | zero => cases h
      | succ n' =>
          rw [chainKey_succ, chainKey_succ] at h
          have hinput := hU (hin ⟨n, hn, rfl⟩) (hin' ⟨n', hn', rfl⟩) (Option.some.inj h)
          obtain ⟨hparent, -, hfp, hblock⟩ := nodeKeyInput_inj hinput
          have hle : n * blockChars ≤ text.length :=
            le_trans (Nat.mul_le_mul_right _ (Nat.le_succ n)) hn
          have hle' : n' * blockChars ≤ text'.length :=
            le_trans (Nat.mul_le_mul_right _ (Nat.le_succ n')) hn'
          obtain ⟨hdepth, htake, -⟩ := ih hle hle' hparent
          refine ⟨by rw [hdepth], ?_, fun _ => hfp⟩
          rw [take_succ_block, take_succ_block, htake, utf8_injective hblock]

end Keys

end Toktier.StoreCore
