import Toktier.Lib.Bytes

/-!
# Decoders with absolute offsets

A decoder that indexes into its input either rejects it or would panic: an
out-of-range slice, a fixed-size conversion of the wrong length, an exhausted
loop. `Decode ε` keeps the two apart, so that "never reads outside the input" is
a statement: `NoPanic`. The second half of the file reads slices of a byte
string that was built by concatenation.

## Main definitions

* `Fault`, `Decode`, `NoPanic`: rejections and panics, and decoders without panics.
* `require`: a check; `sliceAt`: the bytes `[lo, hi)`, or a panic.
* `EndsIn P Q`: a program ends in a value with `P` or in a rejection with `Q`.
* `Agree R`: two programs end with related values or with the same error.
* `minus`, `divide`, `getAt`: unsigned arithmetic and indexing, or a panic.
-/
namespace Toktier.Lib

variable {ε α β : Type}

/-- Why a decoder stopped: it rejected the input, or it would have panicked. -/
inductive Fault (ε : Type)
  | Reject (e : ε)
  | Panic
  deriving DecidableEq

/-- A decoder's outcome. -/
abbrev Decode (ε α : Type) := Except (Fault ε) α

/-- Reject with `e` when `c` fails. -/
def require (c : Prop) [Decidable c] (e : ε) : Decode ε Unit :=
  if c then .ok () else .error (.Reject e)

/-- A checked step that cannot panic. -/
def checked (x : Except ε α) : Decode ε α := x.mapError .Reject

/-- The bytes `[lo, hi)`; out of range is a panic. -/
def sliceAt (b : List UInt8) (lo hi : ℕ) : Decode ε (List UInt8) :=
  if lo ≤ hi ∧ hi ≤ b.length then .ok ((b.take hi).drop lo) else .error .Panic

/-- An unsigned subtraction; a result below zero is a panic. -/
def minus (a b : ℕ) : Decode ε ℕ := if b ≤ a then .ok (a - b) else .error .Panic

/-- An unsigned division; by zero is a panic. -/
def divide (a b : ℕ) : Decode ε ℕ := if b = 0 then .error .Panic else .ok (a / b)

/-- The element at an index; out of range is a panic. -/
def getAt (xs : List α) (i : ℕ) : Decode ε α :=
  match xs[i]? with
  | some x => .ok x
  | none => .error .Panic

/-! ## Inversion -/

theorem bind_eq_ok {x : Except ε α} {f : α → Except ε β} {b : β} :
    x >>= f = .ok b ↔ ∃ a, x = .ok a ∧ f a = .ok b := by
  cases x with
  | error e => simp [bind, Except.bind]
  | ok a => simp [bind, Except.bind]

/-- Two continuations need to agree on the values that are reached only. -/
theorem bind_congr_ok {x : Except ε α} {f g : α → Except ε β} (h : ∀ a, x = .ok a → f a = g a) :
    x >>= f = x >>= g := by
  cases x with
  | error e => rfl
  | ok a => exact h a rfl

/-- A successful result that passes a test. -/
theorem exists_ok_of_any {x : Except ε α} {p : α → Bool} (h : x.toOption.any p = true) :
    ∃ a, x = .ok a ∧ p a = true := by
  cases x with
  | error e => cases h
  | ok a => exact ⟨a, rfl, h⟩

@[simp] theorem ok_bind (a : α) (f : α → Except ε β) : (Except.ok a >>= f) = f a := rfl

theorem mapM_ok {f : α → Except ε β} {g : α → β} {xs : List α}
    (h : ∀ x ∈ xs, f x = .ok (g x)) : xs.mapM f = .ok (xs.map g) := by
  induction xs with
  | nil => rfl
  | cons x xs ih =>
      rw [List.mapM_cons, h x List.mem_cons_self, ok_bind,
        ih fun y hy => h y (List.mem_cons_of_mem x hy)]
      rfl

theorem mapM_eq_ok {f : α → Except ε β} {xs : List α} {ys : List β} (h : xs.mapM f = .ok ys) :
    List.Forall₂ (fun x y => f x = .ok y) xs ys := by
  induction xs generalizing ys with
  | nil =>
      cases h
      exact .nil
  | cons x xs ih =>
      rw [List.mapM_cons] at h
      obtain ⟨y, hy, h⟩ := bind_eq_ok.mp h
      obtain ⟨ys', hys, h⟩ := bind_eq_ok.mp h
      cases h
      exact .cons hy (ih hys)

/-- A map whose function succeeds under a test, with a value. -/
theorem mapM_eq_ok_iff {f : α → Except ε β} {p : α → Prop} {g : α → β}
    (hf : ∀ x y, f x = .ok y ↔ p x ∧ y = g x) {xs : List α} {ys : List β} :
    xs.mapM f = .ok ys ↔ (∀ x ∈ xs, p x) ∧ ys = xs.map g := by
  constructor
  · intro h
    induction xs generalizing ys with
    | nil =>
      cases h
      exact ⟨List.forall_mem_nil p, rfl⟩
    | cons x xs ih =>
      rw [List.mapM_cons] at h
      obtain ⟨y, hy, h⟩ := bind_eq_ok.mp h
      obtain ⟨ys', hys, h⟩ := bind_eq_ok.mp h
      cases h
      obtain ⟨hx, rfl⟩ := (hf x y).mp hy
      obtain ⟨hxs, rfl⟩ := ih hys
      exact ⟨List.forall_mem_cons.mpr ⟨hx, hxs⟩, rfl⟩
  · rintro ⟨hp, rfl⟩
    exact mapM_ok fun x hx => (hf x _).mpr ⟨hp x hx, rfl⟩

@[simp] theorem require_eq_ok {c : Prop} [Decidable c] {e : ε} {u : Unit} :
    require c e = .ok u ↔ c := by
  by_cases h : c <;> simp [require, h]

theorem require_of {c : Prop} [Decidable c] {e : ε} (h : c) : require c e = .ok () := if_pos h

@[simp] theorem checked_eq_ok {x : Except ε α} {a : α} : checked x = .ok a ↔ x = .ok a := by
  cases x <;> simp [checked, Except.mapError]

@[simp] theorem sliceAt_eq_ok {b : List UInt8} {lo hi : ℕ} {bs : List UInt8} :
    (sliceAt b lo hi : Decode ε _) = .ok bs ↔
      (lo ≤ hi ∧ hi ≤ b.length) ∧ (b.take hi).drop lo = bs := by
  by_cases h : lo ≤ hi ∧ hi ≤ b.length <;> simp [sliceAt, h]

theorem minus_of_le {a b : ℕ} (h : b ≤ a) : (minus a b : Decode ε ℕ) = .ok (a - b) := if_pos h

theorem divide_of_pos {a b : ℕ} (h : 0 < b) : (divide a b : Decode ε ℕ) = .ok (a / b) :=
  if_neg (by omega)

theorem getAt_of_some {xs : List α} {i : ℕ} {x : α} (h : xs[i]? = some x) :
    (getAt xs i : Decode ε α) = .ok x := by
  rw [getAt, h]

@[simp] theorem checked_ok (a : α) : checked (.ok a : Except ε α) = .ok a := rfl

theorem checked_bind (x : Except ε α) (f : α → Except ε β) :
    checked (x >>= f) = checked x >>= fun a => checked (f a) := by
  cases x <;> rfl

/-! ## Absence of panics -/

/-- The decoder ended in a value or in a rejection. -/
def NoPanic (x : Decode ε α) : Prop := x ≠ .error .Panic

theorem NoPanic.bind {x : Decode ε α} {f : α → Decode ε β} (hx : NoPanic x)
    (hf : ∀ a, x = .ok a → NoPanic (f a)) : NoPanic (x >>= f) := by
  cases x with
  | ok a => exact hf a rfl
  | error e =>
      intro h
      have he : (Except.error e : Decode ε β) = .error .Panic := h
      injection he with he
      exact hx (by rw [he])

theorem NoPanic.ok (a : α) : NoPanic (.ok a : Decode ε α) := by simp [NoPanic]

theorem NoPanic.pure (a : α) : NoPanic (Pure.pure a : Decode ε α) := NoPanic.ok a

theorem NoPanic.reject (e : ε) : NoPanic (.error (.Reject e) : Decode ε α) := by simp [NoPanic]

theorem noPanic_require {c : Prop} [Decidable c] (e : ε) : NoPanic (require c e) := by
  by_cases h : c <;> simp [NoPanic, require, h]

theorem noPanic_checked (x : Except ε α) : NoPanic (checked x) := by
  cases x <;> simp [NoPanic, checked, Except.mapError]

theorem noPanic_sliceAt {b : List UInt8} {lo hi : ℕ} (hlo : lo ≤ hi) (hhi : hi ≤ b.length) :
    NoPanic (sliceAt b lo hi : Decode ε _) := by
  simp [NoPanic, sliceAt, hlo, hhi]

/-! ## Postconditions -/

/-- The program ends in a value with `P` or in a rejection with `Q`, and does not panic. -/
structure EndsIn (P : α → Prop) (Q : ε → Prop) (x : Decode ε α) : Prop where
  noPanic : NoPanic x
  ok : ∀ a, x = .ok a → P a
  reject : ∀ e, x = .error (.Reject e) → Q e

section
variable {P : α → Prop} {P' : β → Prop} {Q : ε → Prop}

theorem endsIn_ok {a : α} (h : P a) : EndsIn P Q (.ok a) where
  noPanic := NoPanic.ok a
  ok a' ha := Except.ok.inj ha ▸ h
  reject e he := by cases he

theorem endsIn_pure {a : α} (h : P a) : EndsIn P Q (pure a : Decode ε α) := endsIn_ok h

theorem EndsIn.bind {x : Decode ε α} {f : α → Decode ε β} (hx : EndsIn P Q x)
    (hf : ∀ a, x = .ok a → P a → EndsIn P' Q (f a)) : EndsIn P' Q (x >>= f) := by
  match x, hx with
  | .ok a, hx => exact hf a rfl (hx.ok a rfl)
  | .error (.Reject e), hx =>
      refine ⟨NoPanic.reject e, fun a ha => (by cases ha), fun e' he => ?_⟩
      cases he
      exact hx.reject e rfl
  | .error .Panic, hx => exact absurd rfl hx.noPanic

theorem EndsIn.imp {x : Decode ε α} {P₂ : α → Prop} {Q₂ : ε → Prop} (hx : EndsIn P Q x)
    (hP : ∀ a, x = .ok a → P a → P₂ a) (hQ : ∀ e, Q e → Q₂ e) : EndsIn P₂ Q₂ x where
  noPanic := hx.noPanic
  ok a ha := hP a ha (hx.ok a ha)
  reject e he := hQ e (hx.reject e he)

theorem endsIn_checked {x : Except ε α} (hok : ∀ a, x = .ok a → P a)
    (herror : ∀ e, x = .error e → Q e) : EndsIn P Q (checked x) where
  noPanic := noPanic_checked x
  ok a ha := hok a (checked_eq_ok.mp ha)
  reject e he := by
    cases x with
    | ok a => cases he
    | error e' =>
        cases he
        exact herror e rfl

/-- A loop over a range of indices: `I n` holds after `n` rounds. -/
theorem endsIn_foldlM_range' {σ : Type} {f : σ → ℕ → Decode ε σ} (I : ℕ → σ → Prop) {s : σ} (a n : ℕ)
    (h0 : I 0 s) (hstep : ∀ i s, i < n → I i s → EndsIn (I (i + 1)) Q (f s (a + i))) :
    EndsIn (I n) Q ((List.range' a n).foldlM f s) := by
  induction n with
  | zero => exact endsIn_pure h0
  | succ n ih =>
      rw [List.range'_concat, List.foldlM_append]
      refine (ih fun i s hi => hstep i s (by omega)).bind fun s _ hs => ?_
      have := hstep n s (by omega) hs
      simpa [Nat.one_mul] using this

end

/-! ## Two programs in step -/

/-- Two programs end alike: with related values, or with the same error. -/
def Agree {γ : Type} (R : α → γ → Prop) : Except ε α → Except ε γ → Prop
  | .ok a, .ok c => R a c
  | .error e, .error e' => e = e'
  | _, _ => False

section
variable {γ δ : Type} {R : α → γ → Prop} {S : β → δ → Prop}

theorem Agree.refl {x : Except ε α} (R : α → α → Prop) (h : ∀ a, x = .ok a → R a a) :
    Agree R x x := by
  cases x with
  | ok a => exact h a rfl
  | error e => exact rfl

theorem Agree.eq {x y : Except ε α} (h : Agree (fun a b => a = b) x y) : x = y := by
  match x, y, h with
  | .ok a, .ok _, h => exact congrArg Except.ok h
  | .error e, .error _, h => exact congrArg Except.error h

theorem Agree.bind {x : Except ε α} {y : Except ε γ} {f : α → Except ε β} {g : γ → Except ε δ}
    (h : Agree R x y) (hfg : ∀ a c, x = .ok a → y = .ok c → R a c → Agree S (f a) (g c)) :
    Agree S (x >>= f) (y >>= g) := by
  match x, y, h with
  | .ok a, .ok c, h => exact hfg a c rfl rfl h
  | .error e, .error _, h => exact h

/-- A program agrees with what it goes on to do. -/
theorem Agree.bind_left {x : Except ε α} {f : α → Except ε β} {S : β → α → Prop}
    (h : ∀ a, x = .ok a → Agree S (f a) (.ok a)) : Agree S (x >>= f) x := by
  cases x with
  | ok a => exact h a rfl
  | error e => exact rfl

/-- Programs that end alike give the same result where their values are used alike. -/
theorem Agree.bind_eq {x : Except ε α} {y : Except ε γ} {f : α → Except ε β} {g : γ → Except ε β}
    (h : Agree R x y) (hfg : ∀ a c, R a c → f a = g c) : x >>= f = y >>= g := by
  match x, y, h with
  | .ok a, .ok c, h => exact hfg a c h
  | .error e, .error _, h => exact congrArg Except.error h

/-- Two loops whose bodies stay in step stay in step. -/
theorem Agree.foldlM {σ τ ι : Type} {R : σ → τ → Prop} {f : σ → ι → Except ε σ}
    {g : τ → ι → Except ε τ} (xs : List ι) {s : σ} {t : τ} (h : R s t)
    (hstep : ∀ i ∈ xs, ∀ s t, R s t → Agree R (f s i) (g t i)) :
    Agree R (xs.foldlM f s) (xs.foldlM g t) := by
  induction xs generalizing s t with
  | nil => exact h
  | cons i xs ih =>
      rw [List.foldlM_cons, List.foldlM_cons]
      refine (hstep i (by simp) s t h).bind fun s' t' _ _ h' => ?_
      exact ih h' fun j hj => hstep j (by simp [hj])

end

/-! ## Slices of a concatenation -/

/-- The slice of the first part. -/
theorem sliceAt_left {a b : List UInt8} {n : ℕ} (h : a.length = n) :
    (sliceAt (a ++ b) 0 n : Decode ε _) = .ok a := by
  subst h
  simp [sliceAt]

/-- A slice past the first part is a slice of the rest. -/
theorem sliceAt_right {a b : List UInt8} {n lo hi : ℕ} (h : a.length = n) (hlo : n ≤ lo)
    (hle : lo ≤ hi) :
    (sliceAt (a ++ b) lo hi : Decode ε _) = sliceAt b (lo - n) (hi - n) := by
  subst h
  have hcond : (lo ≤ hi ∧ hi ≤ (a ++ b).length) ↔
      (lo - a.length ≤ hi - a.length ∧ hi - a.length ≤ b.length) := by
    rw [List.length_append]
    omega
  have hdrop : ((a ++ b).take hi).drop lo = (b.take (hi - a.length)).drop (lo - a.length) := by
    rw [List.take_append, List.drop_append, List.take_of_length_le (by omega),
      List.drop_of_length_le (by omega), List.nil_append]
  simp only [sliceAt, hcond, hdrop]

/-- A byte string made of pieces: the slice at a piece's place is that piece. -/
theorem sliceAt_flatten {pieces : List (List UInt8)} {i : ℕ} {piece : List UInt8} {lo hi : ℕ}
    (h : pieces[i]? = some piece) (hlo : ((pieces.take i).map List.length).sum = lo)
    (hhi : lo + piece.length = hi) :
    (sliceAt pieces.flatten lo hi : Decode ε _) = .ok piece := by
  induction i generalizing pieces lo hi with
  | zero =>
      match pieces, h with
      | a :: rest, h =>
        have ha : a = piece := by simpa using h
        have hz : lo = 0 := by simpa using hlo.symm
        subst ha hz
        exact sliceAt_left (by omega)
  | succ i ih =>
      match pieces, h with
      | a :: rest, h =>
        have hsum : a.length + ((rest.take i).map List.length).sum = lo := by simpa using hlo
        rw [List.flatten_cons, sliceAt_right (n := a.length) rfl (by omega) (by omega)]
        exact ih (by simpa using h) (by omega) (by omega)

end Toktier.Lib
