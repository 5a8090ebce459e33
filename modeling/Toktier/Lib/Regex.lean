import Mathlib.Algebra.Order.Group.Nat
import Mathlib.Data.List.TakeDrop
import Mathlib.Tactic.Common

/-!
# Ordered-choice patterns and the pieces they cut

A pattern is matched against a text from a position, the way a backtracking
matcher does it: the ends of its matches come in the order in which the matcher
tries them, and the first one is the match. A splitter matches again and again
from where the last match ended; characters at which nothing matches are
collected into pieces of their own.

## Main definitions

* `Pattern.ends`: the ends of the matches from a position, in priority order.
* `Pattern.first`: the end of the match the matcher takes.
* `Pattern.pieces`: the starts of the pieces of a range of the text.
* `Pattern.matchStarts`: the starts of the matches alone.
-/
namespace Toktier.Lib

/-- Patterns over single characters. Concatenation is `++`, ordered choice is `<|>`. -/
inductive Pattern (α : Type*) where
  /-- `[p]{lo,hi}`, greedy; without `hi` there is no upper bound. -/
  | rep (p : α → Bool) (lo : ℕ) (hi : Option ℕ)
  | seq (a b : Pattern α)
  | alt (a b : Pattern α)
  /-- `(?!p)`: the next character, if there is one, is not a `p`. -/
  | notAhead (p : α → Bool)

namespace Pattern

variable {α : Type*}

instance : Append (Pattern α) := ⟨seq⟩

instance : OrElse (Pattern α) := ⟨fun a b => alt a (b ())⟩

/-- One character of the class. -/
def one (p : α → Bool) : Pattern α := rep p 1 (some 1)

/-- `[p]?` -/
def opt (p : α → Bool) : Pattern α := rep p 0 (some 1)

/-- `[p]+` -/
def many1 (p : α → Bool) : Pattern α := rep p 1 none

/-- `[p]*` -/
def many (p : α → Bool) : Pattern α := rep p 0 none

/-- How many of the `k` characters from position `i` on are in the class, up to the
first that is not. -/
def runLength (text : ℕ → α) (p : α → Bool) : ℕ → ℕ → ℕ
  | 0, _ => 0
  | k + 1, i => if p (text i) then runLength text p k (i + 1) + 1 else 0

/-- The most characters a repetition may take when `k` are left. -/
def cap (hi : Option ℕ) (k : ℕ) : ℕ := hi.elim k (min k)

/-- The ends of a repetition that has taken `m` characters from `i`, as it gives them back. -/
def backOff (i lo : ℕ) : ℕ → List ℕ
  | 0 => if lo = 0 then [i] else []
  | m + 1 => if lo ≤ m + 1 then (i + (m + 1)) :: backOff i lo m else []

/-- The ends of the matches from position `i` in the text up to `stop`, in the order in
which a backtracking matcher finds them. -/
def ends (text : ℕ → α) (stop : ℕ) : Pattern α → ℕ → List ℕ
  | rep p lo hi, i => backOff i lo (runLength text p (cap hi (stop - i)) i)
  | seq a b, i => (ends text stop a i).flatMap (ends text stop b)
  | alt a b, i => ends text stop a i ++ ends text stop b i
  | notAhead p, i => if i < stop ∧ p (text i) then [] else [i]

/-- The end of the match from `i`, if there is one. -/
def first (text : ℕ → α) (stop : ℕ) (r : Pattern α) (i : ℕ) : Option ℕ :=
  (ends text stop r i).head?

/-- The starts of the pieces from position `i` on. Without a match the character joins
the unmatched ones before it, if `gap` says that there are any. -/
def piecesFrom (text : ℕ → α) (stop : ℕ) (r : Pattern α) : ℕ → ℕ → Bool → List ℕ
  | 0, _, _ => []
  | k + 1, i, gap =>
    if stop ≤ i then []
    else match (first text stop r i).filter (i < ·) with
      | some e => i :: piecesFrom text stop r k e false
      | none => if gap then piecesFrom text stop r k (i + 1) true
          else i :: piecesFrom text stop r k (i + 1) true

/-- The starts of the pieces of the text between `start` and `stop`. -/
def pieces (text : ℕ → α) (r : Pattern α) (start stop : ℕ) : List ℕ :=
  piecesFrom text stop r (stop - start) start false

/-- The pattern once to `k + 1` times, as often as it can. -/
def repeated (r : Pattern α) : ℕ → Pattern α
  | 0 => r
  | k + 1 => (r ++ repeated r k) <|> r

/-- The starts of the matches from position `i` on. The search goes on where a match ends, and
one character further where there is none. -/
def matchStartsFrom (text : ℕ → α) (stop : ℕ) (r : Pattern α) : ℕ → ℕ → List ℕ
  | 0, _ => []
  | k + 1, i =>
    if stop ≤ i then []
    else match (first text stop r i).filter (i < ·) with
      | some e => i :: matchStartsFrom text stop r k e
      | none => matchStartsFrom text stop r k (i + 1)

/-- The starts of the matches in the text between `start` and `stop`. -/
def matchStarts (text : ℕ → α) (r : Pattern α) (start stop : ℕ) : List ℕ :=
  matchStartsFrom text stop r (stop - start) start

/-! ### Repetitions -/

section Runs

variable {text : ℕ → α} {p : α → Bool} {i k m : ℕ}

/-- A run that is in the class and cannot go on is the whole run. -/
theorem runLength_eq (hm : m ≤ k) (hall : ∀ j, i ≤ j → j < i + m → p (text j))
    (hend : m = k ∨ ¬ p (text (i + m))) : runLength text p k i = m := by
  induction k generalizing i m with
  | zero => rw [Nat.le_zero.1 hm]; rfl
  | succ k ih =>
      rw [runLength]
      cases m with
      | zero =>
          rcases hend with h | h
          · omega
          · rw [Nat.add_zero] at h
            rw [if_neg h]
      | succ m =>
          rw [if_pos (hall i le_rfl (by omega)), ih (Nat.le_of_succ_le_succ hm)
            (fun j h1 h2 => hall j (by omega) (by omega))]
          rcases hend with h | h
          · exact Or.inl (by omega)
          · exact Or.inr (by rwa [Nat.add_assoc, Nat.add_comm 1 m])

/-- Every position has a run of the class, which may be empty. -/
theorem exists_run (text : ℕ → α) (p : α → Bool) {stop : ℕ} (h : i ≤ stop) :
    ∃ e, i ≤ e ∧ e ≤ stop ∧ (∀ j, i ≤ j → j < e → p (text j) = true) ∧
      (e = stop ∨ ¬ p (text e) = true) := by
  obtain ⟨k, rfl⟩ := Nat.exists_eq_add_of_le h
  clear h
  induction k generalizing i with
  | zero => exact ⟨i, le_rfl, le_rfl, fun j h1 h2 => by omega, Or.inl rfl⟩
  | succ k ih =>
      by_cases hp : p (text i) = true
      · obtain ⟨e, h1, h2, h3, h4⟩ := ih (i := i + 1)
        refine ⟨e, by omega, by omega, fun j h5 h6 => ?_, h4.imp_left (by omega)⟩
        rcases Nat.eq_or_lt_of_le h5 with rfl | h5
        · exact hp
        · exact h3 j h5 h6
      · exact ⟨i, le_rfl, by omega, fun j h1 h2 => by omega, Or.inr hp⟩

/-- Giving back finds the first count from which `f` goes on. -/
theorem findSome?_backOff {β : Type*} {f : ℕ → Option β} {b : β} {lo : ℕ} (hlo : lo ≤ k)
    (hk : k ≤ m) (hf : f (i + k) = some b)
    (hnone : ∀ j, k < j → j ≤ m → f (i + j) = none) : (backOff i lo m).findSome? f = some b := by
  induction m with
  | zero =>
      obtain rfl : k = 0 := Nat.le_zero.1 hk
      rw [backOff, if_pos (Nat.le_zero.1 hlo)]
      rw [Nat.add_zero] at hf
      simp [hf]
  | succ m ih =>
      rw [backOff, if_pos (hlo.trans hk), List.findSome?_cons]
      rcases Nat.lt_or_ge m k with h | h
      · obtain rfl : k = m + 1 := by omega
        rw [hf]
      · rw [hnone (m + 1) (by omega) le_rfl]
        exact ih h fun j h1 h2 => hnone j h1 (by omega)

theorem findSome?_backOff_none {β : Type*} {f : ℕ → Option β} {lo : ℕ}
    (hnone : ∀ j, lo ≤ j → j ≤ m → f (i + j) = none) : (backOff i lo m).findSome? f = none := by
  induction m with
  | zero =>
      rw [backOff]
      split
      · rename_i h
        simpa using hnone 0 (by omega) le_rfl
      · rfl
  | succ m ih =>
      rw [backOff]
      split
      · rename_i h
        rw [List.findSome?_cons, hnone (m + 1) h le_rfl]
        exact ih fun j h1 h2 => hnone j h1 (by omega)
      · rfl

theorem head?_backOff (i lo m : ℕ) :
    (backOff i lo m).head? = if lo ≤ m then some (i + m) else none := by
  cases m with
  | zero => rw [backOff]; split <;> simp_all
  | succ m => rw [backOff]; split <;> rfl

end Runs

/-! ### First matches -/

section First

variable {text : ℕ → α} {stop i k m e : ℕ} {p : α → Bool} {lo : ℕ} {hi : Option ℕ}
  {a b : Pattern α}

theorem first_alt (text : ℕ → α) (stop : ℕ) (a b : Pattern α) (i : ℕ) :
    first text stop (a <|> b) i = (first text stop a i).or (first text stop b i) :=
  List.head?_append

theorem first_seq (text : ℕ → α) (stop : ℕ) (a b : Pattern α) (i : ℕ) :
    first text stop (a ++ b) i = (ends text stop a i).findSome? (first text stop b) := by
  rw [first, show (a ++ b : Pattern α) = seq a b from rfl, ends, List.head?_flatMap]
  rfl

theorem first_alt_left (h : first text stop a i = some e) :
    first text stop (a <|> b) i = some e := by
  rw [first_alt, h]
  rfl

theorem first_alt_right (h : first text stop a i = none) :
    first text stop (a <|> b) i = first text stop b i := by
  rw [first_alt, h]
  rfl

/-- The repetition takes exactly `m` characters. -/
def Takes (text : ℕ → α) (stop : ℕ) (p : α → Bool) (hi : Option ℕ) (i m : ℕ) : Prop :=
  runLength text p (cap hi (stop - i)) i = m

theorem first_rep (h : Takes text stop p hi i m) (hlo : lo ≤ m) :
    first text stop (rep p lo hi) i = some (i + m) := by
  rw [first, ends, h, head?_backOff, if_pos hlo]

theorem first_rep_none (h : Takes text stop p hi i m) (hlo : m < lo) :
    first text stop (rep p lo hi) i = none := by
  rw [first, ends, h, head?_backOff, if_neg (by omega)]

/-- A repetition followed by `b` gives back until `b` matches. -/
theorem first_rep_seq (h : Takes text stop p hi i m) (hlo : lo ≤ k) (hk : k ≤ m)
    (hb : first text stop b (i + k) = some e)
    (hnone : ∀ j, k < j → j ≤ m → first text stop b (i + j) = none) :
    first text stop (rep p lo hi ++ b) i = some e := by
  rw [first_seq, ends, h]
  exact findSome?_backOff hlo hk hb hnone

theorem first_rep_seq_none (h : Takes text stop p hi i m)
    (hnone : ∀ j, lo ≤ j → j ≤ m → first text stop b (i + j) = none) :
    first text stop (rep p lo hi ++ b) i = none := by
  rw [first_seq, ends, h]
  exact findSome?_backOff_none hnone

/-- An unbounded repetition takes the run up to `e`. -/
theorem takes_run (hie : i ≤ e) (he : e ≤ stop) (hall : ∀ j, i ≤ j → j < e → p (text j))
    (hend : e = stop ∨ ¬ p (text e)) : Takes text stop p none i (e - i) := by
  refine runLength_eq (m := e - i) (show e - i ≤ stop - i by omega)
    (fun j h1 h2 => hall j h1 (by omega)) ?_
  rcases hend with h | h
  · exact Or.inl (by rw [h]; rfl)
  · exact Or.inr (by rwa [show i + (e - i) = e by omega])

/-- A bounded repetition takes the run up to `e`, or as many characters as it may. -/
theorem takes_bounded {n : ℕ} (hie : i ≤ e) (he : e ≤ stop) (hn : e - i ≤ n)
    (hall : ∀ j, i ≤ j → j < e → p (text j))
    (hend : e = i + n ∨ e = stop ∨ ¬ p (text e)) : Takes text stop p (some n) i (e - i) := by
  refine runLength_eq (m := e - i) (show e - i ≤ min (stop - i) n by omega)
    (fun j h1 h2 => hall j h1 (by omega)) ?_
  rcases hend with h | h | h
  · exact Or.inl (show e - i = min (stop - i) n by omega)
  · exact Or.inl (show e - i = min (stop - i) n by omega)
  · exact Or.inr (by rwa [show i + (e - i) = e by omega])

/-- At a character outside the class a repetition takes nothing. -/
theorem takes_zero (h : stop ≤ i ∨ ¬ p (text i)) : Takes text stop p hi i 0 := by
  refine runLength_eq (Nat.zero_le _) (fun j h1 h2 => by omega) ?_
  rcases h with h | h
  · refine Or.inl ?_
    cases hi with
    | none => exact (Nat.sub_eq_zero_of_le h).symm
    | some n => exact (show min (stop - i) n = 0 by omega).symm
  · exact Or.inr h

theorem takes_one (hi : i < stop) (hp : p (text i)) : Takes text stop p (some 1) i 1 := by
  have h : Takes text stop p (some 1) i (i.succ - i) :=
    takes_bounded (Nat.le_succ i) hi (by omega) (fun j h1 h2 => by rwa [show j = i by omega])
      (Or.inl rfl)
  rwa [show i.succ - i = 1 by omega] at h

/-- What a single character matches. -/
theorem ends_one (text : ℕ → α) (stop : ℕ) (p : α → Bool) (i : ℕ) :
    ends text stop (one p) i = if i < stop ∧ p (text i) then [i + 1] else [] := by
  by_cases h : i < stop ∧ p (text i) = true
  · have htakes := takes_one h.1 h.2
    rw [Takes] at htakes
    rw [if_pos h, one, ends, htakes]
    rfl
  · have htakes : Takes text stop p (some 1) i 0 := takes_zero (by
      rcases Nat.lt_or_ge i stop with hi | hi
      · exact Or.inr fun hp => h ⟨hi, hp⟩
      · exact Or.inl hi)
    rw [Takes] at htakes
    rw [if_neg h, one, ends, htakes]
    rfl

/-- A repetition that wants a character finds none. -/
theorem first_rep_seq_none_of_zero (h : Takes text stop p hi i 0) (hlo : 0 < lo) :
    first text stop (rep p lo hi ++ b) i = none :=
  first_rep_seq_none h fun _ h1 h2 => absurd h1 (by omega)

/-- A character of the class followed by `b`. -/
theorem first_one_seq (hi : i < stop) (hp : p (text i)) :
    first text stop (one p ++ b) i = first text stop b (i + 1) := by
  cases h : first text stop b (i + 1) with
  | none =>
      refine first_rep_seq_none (takes_one hi hp) fun j h1 h2 => ?_
      rwa [show j = 1 by omega]
  | some e =>
      exact first_rep_seq (takes_one hi hp) le_rfl le_rfl h fun j h1 h2 => by omega

theorem first_one_seq_none (h : stop ≤ i ∨ ¬ p (text i)) :
    first text stop (one p ++ b) i = none :=
  first_rep_seq_none_of_zero (takes_zero h) Nat.zero_lt_one

theorem first_one (hi : i < stop) (hp : p (text i)) : first text stop (one p) i = some (i + 1) :=
  first_rep (takes_one hi hp) le_rfl

theorem first_one_none (h : stop ≤ i ∨ ¬ p (text i)) : first text stop (one p) i = none :=
  first_rep_none (takes_zero h) Nat.zero_lt_one

theorem first_one_seq_eq (text : ℕ → α) (stop : ℕ) (p : α → Bool) (b : Pattern α) (i : ℕ) :
    first text stop (one p ++ b) i =
      if i < stop ∧ p (text i) then first text stop b (i + 1) else none := by
  split
  · rename_i h
    exact first_one_seq h.1 h.2
  · rename_i h
    rw [not_and_or, Nat.not_lt] at h
    exact first_one_seq_none h

theorem first_one_eq (text : ℕ → α) (stop : ℕ) (p : α → Bool) (i : ℕ) :
    first text stop (one p) i = if i < stop ∧ p (text i) then some (i + 1) else none := by
  split
  · rename_i h
    exact first_one h.1 h.2
  · rename_i h
    rw [not_and_or, Nat.not_lt] at h
    exact first_one_none h

/-- An optional character that is there and after which `b` matches. -/
theorem first_opt_seq (hi : i < stop) (hp : p (text i)) (hb : first text stop b (i + 1) = some e) :
    first text stop (opt p ++ b) i = some e :=
  first_rep_seq (takes_one hi hp) (Nat.zero_le _) le_rfl hb fun j h1 h2 => by omega

/-- Where the optional character is not there, or `b` fails after it, `b` is matched at once. -/
theorem first_opt_seq_skip
    (h : i < stop → p (text i) → first text stop b (i + 1) = none) :
    first text stop (opt p ++ b) i = first text stop b i := by
  rcases Classical.em (i < stop ∧ p (text i)) with ⟨hi, hp⟩ | hn
  · cases hb : first text stop b i with
    | none =>
        refine first_rep_seq_none (takes_one hi hp) fun j _ h2 => ?_
        rcases Nat.lt_or_ge j 1 with hj | hj
        · rwa [show j = 0 by omega]
        · rw [show j = 1 by omega]
          exact h hi hp
    | some e =>
        refine first_rep_seq (k := 0) (takes_one hi hp) le_rfl (Nat.zero_le _) hb fun j h1 h2 => ?_
        rw [show j = 1 by omega]
        exact h hi hp
  · have h0 : Takes text stop p (some 1) i 0 := takes_zero (by
      rcases Nat.lt_or_ge i stop with hi | hi
      · exact Or.inr fun hp => hn ⟨hi, hp⟩
      · exact Or.inl hi)
    cases hb : first text stop b i with
    | none =>
        refine first_rep_seq_none h0 fun j _ h2 => ?_
        rwa [show j = 0 by omega]
    | some e => exact first_rep_seq (k := 0) h0 le_rfl le_rfl hb fun j h1 h2 => by omega

theorem first_notAhead (h : stop ≤ i ∨ ¬ p (text i)) :
    first text stop (notAhead p) i = some i := by
  rw [first, ends, if_neg (by
    rintro ⟨h1, h2⟩
    rcases h with h | h
    · omega
    · exact h h2)]
  rfl

theorem first_notAhead_none (hi : i < stop) (hp : p (text i)) :
    first text stop (notAhead p) i = none := by
  rw [first, ends, if_pos ⟨hi, hp⟩]
  rfl

end First

/-! ### Pieces -/

section Pieces

variable {text : ℕ → α} {stop : ℕ} {r : Pattern α} {mark : ℕ → Prop} {Inv : Bool → ℕ → Prop}

theorem le_of_mem_piecesFrom {k i j : ℕ} {gap : Bool} (h : j ∈ piecesFrom text stop r k i gap) :
    i ≤ j := by
  induction k generalizing i gap with
  | zero => exact absurd h List.not_mem_nil
  | succ k ih =>
      rw [piecesFrom] at h
      split at h
      · exact absurd h List.not_mem_nil
      · split at h
        · rename_i e he
          have hie : i < e := by simpa using (Option.filter_eq_some_iff.1 he).2
          rcases List.mem_cons.1 h with h | h
          · exact h.ge
          · exact hie.le.trans (ih h)
        · cases gap with
          | false =>
              rcases List.mem_cons.1 h with h | h
              · exact h.ge
              · exact Nat.le_of_succ_le (ih h)
          | true => exact Nat.le_of_succ_le (ih h)

theorem lt_of_mem_piecesFrom {k i j : ℕ} {gap : Bool} (h : j ∈ piecesFrom text stop r k i gap) :
    j < stop := by
  induction k generalizing i gap with
  | zero => exact absurd h List.not_mem_nil
  | succ k ih =>
      rw [piecesFrom] at h
      split at h
      · exact absurd h List.not_mem_nil
      · rename_i hi
        split at h
        · rcases List.mem_cons.1 h with rfl | h
          · omega
          · exact ih h
        · cases gap with
          | false =>
              rcases List.mem_cons.1 h with rfl | h
              · omega
              · exact ih h
          | true => exact ih h

/-- What a splitter does from one position, in terms of a set of marked positions: either
a match ends at `e` and marks nothing in between, or there is no match, and the character
is marked unless it follows another unmatched one. -/
def Cuts (text : ℕ → α) (stop : ℕ) (r : Pattern α) (mark : ℕ → Prop) (Inv : Bool → ℕ → Prop)
    (gap : Bool) (i : ℕ) : Prop :=
  (∃ e, first text stop r i = some e ∧ i < e ∧ mark i ∧ (∀ j, i < j → j < e → ¬ mark j) ∧
      Inv false e) ∨
    (first text stop r i = none ∧ (gap = false ↔ mark i) ∧ Inv true (i + 1))

/-- When every position the splitter reaches cuts as the marks say, the pieces start
exactly at the marks. -/
theorem mem_piecesFrom_iff
    (step : ∀ gap i, i < stop → Inv gap i → Cuts text stop r mark Inv gap i) {k i j : ℕ}
    {gap : Bool} (hk : stop - i ≤ k) (hinv : Inv gap i) (hij : i ≤ j) (hj : j < stop) :
    j ∈ piecesFrom text stop r k i gap ↔ mark j := by
  induction k generalizing i gap with
  | zero => omega
  | succ k ih =>
      have hi : i < stop := by omega
      rw [piecesFrom, if_neg (by omega)]
      rcases step gap i hi hinv with ⟨e, he, hie, hmi, hno, hnext⟩ | ⟨he, hgap, hnext⟩
      · rw [he, Option.filter_some, if_pos (by simpa using hie)]
        rcases Nat.lt_or_ge j e with hje | hje
        · rcases Nat.eq_or_lt_of_le hij with rfl | hlt
          · simp [hmi]
          · have hnot : j ∉ i :: piecesFrom text stop r k e false := by
              intro h
              rcases List.mem_cons.1 h with h | h
              · omega
              · have := le_of_mem_piecesFrom h
                omega
            exact iff_of_false hnot (hno j hlt hje)
        · rw [List.mem_cons, or_iff_right (show j ≠ i by omega)]
          exact ih (by omega) hnext hje
      · rw [he, Option.filter_none]
        rcases Nat.eq_or_lt_of_le hij with rfl | hlt
        · cases gap with
          | false => simp [hgap.1 rfl]
          | true =>
              refine iff_of_false (fun h => ?_) fun hm => Bool.noConfusion (hgap.2 hm)
              have := le_of_mem_piecesFrom (show i ∈ piecesFrom text stop r k (i + 1) true from h)
              omega
        · cases gap with
          | false =>
              change j ∈ i :: _ ↔ _
              rw [List.mem_cons, or_iff_right (show j ≠ i by omega)]
              exact ih (by omega) hnext hlt
          | true =>
              exact ih (by omega) hnext hlt

theorem mem_pieces_iff (mark : ℕ → Prop) (Inv : Bool → ℕ → Prop)
    (step : ∀ gap i, i < stop → Inv gap i → Cuts text stop r mark Inv gap i) {start j : ℕ}
    (hinv : Inv false start) (hij : start ≤ j) (hj : j < stop) :
    j ∈ pieces text r start stop ↔ mark j :=
  mem_piecesFrom_iff step le_rfl hinv hij hj

theorem mem_matchStartsFrom {k i j : ℕ} (h : j ∈ matchStartsFrom text stop r k i) :
    i ≤ j ∧ j < stop := by
  induction k generalizing i with
  | zero => exact absurd h List.not_mem_nil
  | succ k ih =>
      rw [matchStartsFrom] at h
      split at h
      · exact absurd h List.not_mem_nil
      · rename_i hi
        split at h
        · rename_i e he
          have hie : i < e := by simpa using (Option.filter_eq_some_iff.1 he).2
          rcases List.mem_cons.1 h with rfl | h
          · exact ⟨le_rfl, by omega⟩
          · have := ih h
            omega
        · have := ih h
          omega

/-- What a search does from one position, in terms of a set of marked positions: either a match
ends at `e` and marks nothing after its start, or there is no match and no mark. -/
def Finds (text : ℕ → α) (stop : ℕ) (r : Pattern α) (mark Inv : ℕ → Prop) (i : ℕ) : Prop :=
  (∃ e, first text stop r i = some e ∧ i < e ∧ mark i ∧ (∀ j, i < j → j < e → ¬ mark j) ∧ Inv e) ∨
    (first text stop r i = none ∧ ¬ mark i ∧ Inv (i + 1))

/-- When every position the search reaches is marked as it finds, the matches start exactly at
the marks. -/
theorem mem_matchStarts_iff (mark Inv : ℕ → Prop)
    (step : ∀ i, i < stop → Inv i → Finds text stop r mark Inv i) {start j : ℕ}
    (hinv : Inv start) (hij : start ≤ j) (hj : j < stop) :
    j ∈ matchStarts text r start stop ↔ mark j := by
  suffices h : ∀ k i, stop - i ≤ k → Inv i → i ≤ j →
      (j ∈ matchStartsFrom text stop r k i ↔ mark j) from h _ _ le_rfl hinv hij
  intro k
  induction k with
  | zero =>
      intro i hk _ hij
      omega
  | succ k ih =>
      intro i hk hinv hij
      rw [matchStartsFrom, if_neg (by omega)]
      rcases step i (by omega) hinv with ⟨e, he, hie, hmi, hno, hnext⟩ | ⟨he, hmi, hnext⟩
      · rw [he, Option.filter_some, if_pos (by simpa using hie)]
        rcases Nat.lt_or_ge j e with hje | hje
        · rcases Nat.eq_or_lt_of_le hij with rfl | hlt
          · simp [hmi]
          · have hnot : j ∉ i :: matchStartsFrom text stop r k e := by
              intro h
              rcases List.mem_cons.1 h with h | h
              · omega
              · have := (mem_matchStartsFrom h).1
                omega
            exact iff_of_false hnot (hno j hlt hje)
        · rw [List.mem_cons, or_iff_right (show j ≠ i by omega)]
          exact ih e (by omega) hnext hje
      · rw [he, Option.filter_none]
        rcases Nat.eq_or_lt_of_le hij with rfl | hlt
        · refine iff_of_false (fun h => ?_) hmi
          have := (mem_matchStartsFrom h).1
          omega
        · exact ih (i + 1) (by omega) hnext hlt

theorem piecesFrom_sorted (k i : ℕ) (gap : Bool) :
    (piecesFrom text stop r k i gap).Pairwise (· < ·) := by
  induction k generalizing i gap with
  | zero => exact List.Pairwise.nil
  | succ k ih =>
      rw [piecesFrom]
      split
      · exact List.Pairwise.nil
      · split
        · rename_i e he
          have hie : i < e := by simpa using (Option.filter_eq_some_iff.1 he).2
          exact List.pairwise_cons.2 ⟨fun j hj => hie.trans_le (le_of_mem_piecesFrom hj), ih e false⟩
        · cases gap with
          | false =>
              exact List.pairwise_cons.2
                ⟨fun j hj => Nat.lt_of_succ_le (le_of_mem_piecesFrom hj), ih (i + 1) true⟩
          | true => exact ih (i + 1) true

end Pieces

/-! ### Splitters one after the other -/

/-- Every piece is split further; `starts` are the starts of the pieces so far. -/
def splitEach (text : ℕ → α) (r : Pattern α) (stop : ℕ) : List ℕ → List ℕ
  | [] => []
  | [a] => pieces text r a stop
  | a :: b :: rest => pieces text r a b ++ splitEach text r stop (b :: rest)

/-- The list has the marked positions from `lo` up to `stop`, in order. -/
structure StartsOf (mark : ℕ → Prop) (lo stop : ℕ) (starts : List ℕ) : Prop where
  sorted : starts.Pairwise (· < ·)
  mem_iff : ∀ j, j ∈ starts ↔ lo ≤ j ∧ j < stop ∧ mark j

/-- The range from `a` to `b` is one of the pieces that the marks cut. -/
structure IsPiece (mark : ℕ → Prop) (lo stop a b : ℕ) : Prop where
  lo_le : lo ≤ a
  lt : a < b
  le : b ≤ stop
  start : mark a
  inner : ∀ j, a < j → j < b → ¬ mark j
  stop : b = stop ∨ mark b

section Stages

variable {text : ℕ → α} {stop lo : ℕ} {r : Pattern α} {mark mark' : ℕ → Prop} {starts : List ℕ}

/-- A position is in one piece only. -/
theorem IsPiece.unique {a b a' b' j : ℕ} (h : IsPiece mark lo stop a b)
    (h' : IsPiece mark lo stop a' b') (h1 : a ≤ j) (h2 : j < b) (h3 : a' ≤ j) (h4 : j < b') :
    a = a' ∧ b = b' := by
  have hb := h.le
  have hb' := h'.le
  constructor
  · rcases Nat.lt_trichotomy a a' with hlt | heq | hlt
    · exact absurd h'.start (h.inner a' hlt (by omega))
    · exact heq
    · exact absurd h.start (h'.inner a hlt (by omega))
  · rcases Nat.lt_trichotomy b b' with hlt | heq | hlt
    · rcases h.stop with heq | hm
      · omega
      · exact absurd hm (h'.inner b (by omega) hlt)
    · exact heq
    · rcases h'.stop with heq | hm
      · omega
      · exact absurd hm (h.inner b' (by omega) hlt)

/-- Every position after a mark is in a piece. -/
theorem exists_isPiece {j : ℕ} (hlo : mark lo) (h1 : lo ≤ j) (h2 : j < stop) :
    ∃ a b, IsPiece mark lo stop a b ∧ a ≤ j ∧ j < b := by
  -- the last mark up to `j`
  have hstart : ∃ a, lo ≤ a ∧ a ≤ j ∧ mark a ∧ ∀ k, a < k → k ≤ j → ¬ mark k := by
    clear h2
    induction j, h1 using Nat.le_induction with
    | base => exact ⟨lo, le_rfl, le_rfl, hlo, fun k h3 h4 => by omega⟩
    | succ j h1 ih =>
        by_cases hm : mark (j + 1)
        · exact ⟨j + 1, by omega, le_rfl, hm, fun k h3 h4 => by omega⟩
        · obtain ⟨a, h3, h4, h5, h6⟩ := ih
          refine ⟨a, h3, by omega, h5, fun k h7 h8 => ?_⟩
          rcases Nat.eq_or_lt_of_le h8 with rfl | h8
          · exact hm
          · exact h6 k h7 (by omega)
  -- the first one after it
  have hend : ∃ b, j < b ∧ b ≤ stop ∧ (b = stop ∨ mark b) ∧ ∀ k, j < k → k < b → ¬ mark k := by
    obtain ⟨d, rfl⟩ := Nat.exists_eq_add_of_lt h2
    clear h1 h2 hstart
    induction d generalizing j with
    | zero => exact ⟨j + 1, by omega, by omega, Or.inl (by omega), fun k h3 h4 => by omega⟩
    | succ d ih =>
        by_cases hm : mark (j + 1)
        · exact ⟨j + 1, by omega, by omega, Or.inr hm, fun k h3 h4 => by omega⟩
        · obtain ⟨b, h3, h4, h5, h6⟩ := ih (j := j + 1)
          rw [show j + 1 + d + 1 = j + (d + 1) + 1 by omega] at h4 h5
          refine ⟨b, by omega, h4, h5, fun k h7 h8 => ?_⟩
          rcases Nat.eq_or_lt_of_le (Nat.succ_le_of_lt h7) with rfl | h9
          · exact hm
          · exact h6 k h9 h8
  obtain ⟨a, h3, h4, h5, h6⟩ := hstart
  obtain ⟨b, h7, h8, h9, h10⟩ := hend
  refine ⟨a, b, ⟨h3, by omega, h8, h5, fun k h11 h12 => ?_, h9⟩, h4, h7⟩
  rcases Nat.lt_or_ge j k with h13 | h13
  · exact h10 k h13 h12
  · exact h6 k h11 h13

/-- The pieces of one range, when the pattern cuts it at the marks. -/
theorem startsOf_pieces {a b : ℕ} (h : ∀ j, a ≤ j → j < b → (j ∈ pieces text r a b ↔ mark j)) :
    StartsOf mark a b (pieces text r a b) where
  sorted := piecesFrom_sorted _ _ _
  mem_iff := fun j => by
    constructor
    · intro hj
      have h1 : a ≤ j := le_of_mem_piecesFrom hj
      have h2 : j < b := lt_of_mem_piecesFrom hj
      exact ⟨h1, h2, (h j h1 h2).1 hj⟩
    · rintro ⟨h1, h2, hm⟩
      exact (h j h1 h2).2 hm

/-- Two ranges after each other. -/
theorem StartsOf.append {a b : ℕ} {l l' : List ℕ} (h : StartsOf mark a b l)
    (h' : StartsOf mark b stop l') (hab : a ≤ b) (hb : b ≤ stop) :
    StartsOf mark a stop (l ++ l') where
  sorted := List.pairwise_append.2 ⟨h.sorted, h'.sorted, fun x hx y hy =>
    ((h.mem_iff x).1 hx).2.1.trans_le ((h'.mem_iff y).1 hy).1⟩
  mem_iff := fun j => by
    rw [List.mem_append, h.mem_iff, h'.mem_iff]
    constructor
    · rintro (⟨h1, h2, h3⟩ | ⟨h1, h2, h3⟩)
      · exact ⟨h1, by omega, h3⟩
      · exact ⟨by omega, h2, h3⟩
    · rintro ⟨h1, h2, h3⟩
      rcases Nat.lt_or_ge j b with h4 | h4
      · exact Or.inl ⟨h1, h4, h3⟩
      · exact Or.inr ⟨h4, h2, h3⟩

/-- When a pattern cuts every piece at the new marks, splitting them all leaves the new marks. -/
theorem StartsOf.splitEach (h : StartsOf mark lo stop starts) (hlt : lo < stop) (hlo : mark lo)
    (hpiece : ∀ a b, IsPiece mark lo stop a b → ∀ j, a ≤ j → j < b →
      (j ∈ pieces text r a b ↔ mark' j)) :
    StartsOf mark' lo stop (splitEach text r stop starts) := by
  induction starts generalizing lo with
  | nil => exact absurd ((h.mem_iff lo).2 ⟨le_rfl, hlt, hlo⟩) List.not_mem_nil
  | cons a rest ih =>
      have ha := (h.mem_iff a).1 List.mem_cons_self
      obtain rfl : a = lo := by
        rcases List.mem_cons.1 ((h.mem_iff lo).2 ⟨le_rfl, hlt, hlo⟩) with h1 | h1
        · exact h1.symm
        · have := (List.pairwise_cons.1 h.sorted).1 lo h1
          omega
      cases rest with
      | nil =>
          refine startsOf_pieces (hpiece a stop ⟨le_rfl, hlt, le_rfl, hlo, fun j h1 h2 hm => ?_,
            Or.inl rfl⟩)
          have := List.mem_singleton.1 ((h.mem_iff j).2 ⟨h1.le, h2, hm⟩)
          omega
      | cons b rest =>
          have hb := (h.mem_iff b).1 (List.mem_cons_of_mem _ List.mem_cons_self)
          obtain ⟨hall, hsorted⟩ := List.pairwise_cons.1 h.sorted
          have hab : a < b := hall b List.mem_cons_self
          have hbmin : ∀ x ∈ b :: rest, b ≤ x := fun x hx => by
            rcases List.mem_cons.1 hx with rfl | hx
            · exact le_rfl
            · exact ((List.pairwise_cons.1 hsorted).1 x hx).le
          have htail : StartsOf mark b stop (b :: rest) := ⟨hsorted, fun j => by
            constructor
            · intro hj
              have := (h.mem_iff j).1 (List.mem_cons_of_mem _ hj)
              exact ⟨hbmin j hj, this.2⟩
            · rintro ⟨h1, h2, h3⟩
              rcases List.mem_cons.1 ((h.mem_iff j).2 ⟨by omega, h2, h3⟩) with h4 | h4
              · omega
              · exact h4⟩
          refine StartsOf.append (startsOf_pieces (hpiece a b ⟨le_rfl, hab, hb.2.1.le, hlo,
            fun j h1 h2 hm => ?_, Or.inr hb.2.2⟩)) (ih htail hb.2.1 hb.2.2
            fun x y hp => hpiece x y { hp with lo_le := hab.le.trans hp.lo_le }) hab.le hb.2.1.le
          rcases List.mem_cons.1 ((h.mem_iff j).2 ⟨h1.le, by omega, hm⟩) with h3 | h3
          · omega
          · have := hbmin j h3
            omega

end Stages

end Pattern

end Toktier.Lib
