import Toktier.Lib.Fallible
import Mathlib.Data.List.TakeDrop
import Mathlib.Tactic.Ring

/-!
# Little-endian fields and byte cursors

Fixed-width little-endian integers over `List UInt8`, rows of 32-bit words, and
a cursor that reads a byte string from the left. A reader is a fallible
computation whose state is the unread suffix; `Reads m bs a` says that `m`
consumes exactly `bs` and returns `a`, whatever follows, and composes with `do`.

## Main definitions

* `leBytes`, `leNat`: an integer in `n` little-endian bytes, and back.
* `wordsBytes`, `wordsOfBytes`: a row of 32-bit words, and back.
* `takeBytes`, `Reads`: the cursor and its exact-consumption predicate.
-/
namespace Toktier.Lib

/-! ## Little-endian integers -/

/-- The `n` low bytes of `v`, least significant first. -/
def leBytes : ℕ → ℕ → List UInt8
  | 0, _ => []
  | n + 1, v => UInt8.ofNat v :: leBytes n (v / 256)

/-- The value of a little-endian byte string. -/
def leNat : List UInt8 → ℕ
  | [] => 0
  | b :: bs => b.toNat + 256 * leNat bs

@[simp] theorem length_leBytes (n v : ℕ) : (leBytes n v).length = n := by
  induction n generalizing v with
  | zero => rfl
  | succ n ih => simp [leBytes, ih]

theorem leNat_leBytes (n v : ℕ) : leNat (leBytes n v) = v % 256 ^ n := by
  induction n generalizing v with
  | zero => simp [leBytes, leNat, Nat.mod_one]
  | succ n ih =>
      have h8 : (UInt8.ofNat v).toNat = v % 256 := UInt8.toNat_ofNat'
      rw [leBytes, leNat, ih, h8, pow_succ', Nat.mod_mul]

/-- A value that fits its field is read back. -/
theorem leNat_leBytes_of_lt {n v : ℕ} (h : v < 256 ^ n) : leNat (leBytes n v) = v := by
  rw [leNat_leBytes, Nat.mod_eq_of_lt h]

@[simp] theorem leBytes_leNat (bs : List UInt8) : leBytes bs.length (leNat bs) = bs := by
  induction bs with
  | nil => rfl
  | cons b bs ih =>
      have hb : b.toNat < 256 := b.toNat_lt
      have hdiv : (b.toNat + 256 * leNat bs) / 256 = leNat bs := by omega
      have hhead : UInt8.ofNat (b.toNat + 256 * leNat bs) = b := by
        apply UInt8.toNat_inj.mp
        rw [UInt8.toNat_ofNat']
        omega
      simp only [List.length_cons, leNat, leBytes, hdiv, ih, hhead]

theorem leNat_lt (bs : List UInt8) : leNat bs < 256 ^ bs.length := by
  induction bs with
  | nil => simp [leNat]
  | cons b bs ih =>
      have hb : b.toNat < 256 := b.toNat_lt
      simp only [leNat, List.length_cons, pow_succ']
      omega

/-- Only the value modulo the field's range is written. -/
theorem leBytes_mod (n v : ℕ) : leBytes n (v % 256 ^ n) = leBytes n v := by
  have h := leBytes_leNat (leBytes n v)
  rwa [length_leBytes, leNat_leBytes] at h

theorem leBytes_injOn {n v v' : ℕ} (hv : v < 256 ^ n) (hv' : v' < 256 ^ n)
    (h : leBytes n v = leBytes n v') : v = v' := by
  rw [← leNat_leBytes_of_lt hv, h, leNat_leBytes_of_lt hv']

/-! ## Rows of 32-bit words -/

/-- A row of 32-bit words, four little-endian bytes each. -/
def wordsBytes (ws : List UInt32) : List UInt8 := ws.flatMap fun v => leBytes 4 v.toNat

/-- Read a byte string as consecutive 32-bit words; a partial last word is dropped. -/
def wordsOfBytes : List UInt8 → List UInt32
  | a :: b :: c :: d :: rest => UInt32.ofNat (leNat [a, b, c, d]) :: wordsOfBytes rest
  | _ => []

@[simp] theorem wordsBytes_nil : wordsBytes [] = [] := rfl

@[simp] theorem wordsBytes_append (xs ys : List UInt32) :
    wordsBytes (xs ++ ys) = wordsBytes xs ++ wordsBytes ys := by
  simp [wordsBytes]

@[simp] theorem length_wordsBytes (ws : List UInt32) : (wordsBytes ws).length = 4 * ws.length := by
  induction ws with
  | nil => rfl
  | cons w ws ih =>
      simp only [wordsBytes, List.flatMap_cons, List.length_append, length_leBytes,
        List.length_cons] at *
      omega

@[simp] theorem wordsOfBytes_wordsBytes (ws : List UInt32) : wordsOfBytes (wordsBytes ws) = ws := by
  induction ws with
  | nil => rfl
  | cons w ws ih =>
      have hw : leNat (leBytes 4 w.toNat) = w.toNat :=
        leNat_leBytes_of_lt (by have := w.toNat_lt; omega)
      have h4 : leBytes 4 w.toNat = [UInt8.ofNat w.toNat, UInt8.ofNat (w.toNat / 256),
        UInt8.ofNat (w.toNat / 256 / 256), UInt8.ofNat (w.toNat / 256 / 256 / 256)] := rfl
      rw [h4] at hw
      rw [wordsBytes, List.flatMap_cons, h4]
      simp only [List.cons_append, List.nil_append, wordsOfBytes, hw, UInt32.ofNat_toNat]
      rw [← wordsBytes, ih]

/-- A byte string of whole words is the encoding of the words read from it. -/
theorem wordsBytes_wordsOfBytes {bs : List UInt8} {n : ℕ} (h : bs.length = 4 * n) :
    wordsBytes (wordsOfBytes bs) = bs := by
  induction n generalizing bs with
  | zero =>
      have hnil : bs = [] := List.length_eq_zero_iff.mp (by omega)
      subst hnil
      rfl
  | succ n ih =>
      match bs, h with
      | a :: b :: c :: d :: rest, h =>
        have hrest : rest.length = 4 * n := by simp only [List.length_cons] at h; omega
        have hlt : leNat [a, b, c, d] < 2 ^ 32 := by
          have h := leNat_lt [a, b, c, d]
          simp only [List.length_cons, List.length_nil] at h
          omega
        have hw : leBytes 4 (UInt32.ofNat (leNat [a, b, c, d])).toNat = [a, b, c, d] := by
          rw [UInt32.toNat_ofNat', Nat.mod_eq_of_lt hlt]
          exact leBytes_leNat [a, b, c, d]
        rw [wordsOfBytes, wordsBytes, List.flatMap_cons, hw, ← wordsBytes, ih hrest]
        rfl

theorem length_wordsOfBytes {bs : List UInt8} {n : ℕ} (h : bs.length = 4 * n) :
    (wordsOfBytes bs).length = n := by
  have hlen := congrArg List.length (wordsBytes_wordsOfBytes h)
  rw [length_wordsBytes] at hlen
  omega

/-! ## Reading from the left -/

variable {ε α β : Type}

/-- Read the next `n` bytes, or fail with `e` when fewer are left. -/
def takeBytes (e : ε) (n : ℕ) : Fallible (List UInt8) ε (List UInt8) := fun rest =>
  if n ≤ rest.length then .ok (rest.take n) (rest.drop n) else .error e rest

/-- `m` consumes exactly `bs` and returns `a`, whatever follows. -/
def Reads (m : Fallible (List UInt8) ε α) (bs : List UInt8) (a : α) : Prop :=
  ∀ rest, m.run (bs ++ rest) = .ok a rest

theorem Reads.pure (a : α) : Reads (Pure.pure a : Fallible (List UInt8) ε α) [] a := fun _ => rfl

theorem Reads.bind {m : Fallible (List UInt8) ε α} {f : α → Fallible (List UInt8) ε β}
    {bs cs : List UInt8} {a : α} {b : β} (hm : Reads m bs a) (hf : Reads (f a) cs b) :
    Reads (m >>= f) (bs ++ cs) b := by
  intro rest
  rw [List.append_assoc, EStateM.run_bind, hm]
  exact hf rest

theorem Reads.map {m : Fallible (List UInt8) ε α} {bs : List UInt8} {a : α} (g : α → β)
    (hm : Reads m bs a) : Reads (g <$> m) bs (g a) := by
  rw [← bind_pure_comp, ← List.append_nil bs]
  exact hm.bind (Reads.pure _)

/-- A step that reads nothing may come before a reader. -/
theorem Reads.step {m : Fallible (List UInt8) ε α} {f : α → Fallible (List UInt8) ε β}
    {cs : List UInt8} {a : α} {b : β} (hm : Reads m [] a) (hf : Reads (f a) cs b) :
    Reads (m >>= f) cs b := hm.bind hf

theorem Reads.of_eq {m : Fallible (List UInt8) ε α} {bs bs' : List UInt8} {a a' : α}
    (h : Reads m bs a) (hbs : bs = bs') (ha : a = a') : Reads m bs' a' := by
  subst hbs ha
  exact h

theorem reads_takeBytes (e : ε) {n : ℕ} {bs : List UInt8} (h : bs.length = n) :
    Reads (takeBytes e n) bs bs := by
  intro rest
  subst h
  simp [takeBytes, EStateM.run]

theorem reads_throwIf {c : Prop} [Decidable c] (e : ε) (h : ¬c) :
    Reads (throwIf c e : Fallible (List UInt8) ε Unit) [] () := by
  intro rest
  simp only [throwIf, if_neg h]
  rfl

/-- After a reader, the rest of the computation runs on the rest of the input. -/
theorem Reads.run_bind {m : Fallible (List UInt8) ε α} {f : α → Fallible (List UInt8) ε β}
    {bs rest : List UInt8} {a : α} {r : EStateM.Result ε (List UInt8) β} (hm : Reads m bs a)
    (hf : (f a).run rest = r) : (m >>= f).run (bs ++ rest) = r := by
  rw [EStateM.run_bind, hm]
  exact hf

/-- A step that reads nothing, before the rest of the computation. -/
theorem Reads.run_step {m : Fallible (List UInt8) ε α} {f : α → Fallible (List UInt8) ε β}
    {rest : List UInt8} {a : α} {r : EStateM.Result ε (List UInt8) β} (hm : Reads m [] a)
    (hf : (f a).run rest = r) : (m >>= f).run rest = r := by
  have hrun : (m >>= f).run ([] ++ rest) = r := hm.run_bind hf
  exact hrun

/-- The whole input is consumed: run on exactly `bs`, the reader ends at the empty suffix. -/
theorem Reads.run_nil {m : Fallible (List UInt8) ε α} {bs : List UInt8} {a : α}
    (h : Reads m bs a) : m.run bs = .ok a [] := by
  simpa using h []

/-! ## What was read -/

/-- What a cursor took is the front of its input. -/
theorem takeBytes_eq_ok {e : ε} {n : ℕ} {s bs rest : List UInt8} :
    (takeBytes e n).run s = .ok bs rest ↔ s = bs ++ rest ∧ bs.length = n := by
  refine ⟨fun h => ?_, fun ⟨hs, hn⟩ => hs ▸ reads_takeBytes e hn rest⟩
  by_cases hle : n ≤ s.length
  · have hrun : (takeBytes e n).run s = .ok (s.take n) (s.drop n) := if_pos hle
    obtain ⟨rfl, rfl⟩ := EStateM.Result.ok.inj (hrun.symm.trans h)
    exact ⟨(List.take_append_drop n s).symm, List.length_take_of_le hle⟩
  · have hrun : (takeBytes e n).run s = .error e s := if_neg hle
    cases hrun.symm.trans h

/-- An integer that was read is written with the bytes it was read from. -/
theorem leNat_takeBytes_eq_ok {e : ε} {n v : ℕ} {s rest : List UInt8} :
    (leNat <$> takeBytes e n).run s = .ok v rest ↔ s = leBytes n v ++ rest ∧ v < 256 ^ n := by
  constructor
  · intro h
    obtain ⟨bs, hbs, rfl⟩ := run_map_eq_ok h
    obtain ⟨rfl, rfl⟩ := takeBytes_eq_ok.mp hbs
    exact ⟨by rw [leBytes_leNat], leNat_lt bs⟩
  · rintro ⟨rfl, hv⟩
    have hreads := (reads_takeBytes e (length_leBytes n v)).map leNat
    rw [leNat_leBytes_of_lt hv] at hreads
    exact hreads rest

end Toktier.Lib
