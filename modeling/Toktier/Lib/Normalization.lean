import Mathlib.Data.List.Chain
import Mathlib.Data.List.Sort

/-!
# Canonical composition and its quick check

A text is normalized by decomposing its characters, sorting every run of marks by their combining
classes, and composing each starter with what follows it as long as no mark of the same or a
higher class stands between. The data of the characters is a parameter: full decompositions,
combining classes (zero for a starter) and the pairs that compose.

## Main definitions

* `Canonical`: the data.
* `Canonical.nfc`: the three stages.
* `Canonical.Safe`: a character that is its own normal form and joins nothing before it.

## Main results

* `Canonical.nfc_eq_self`: a text of safe characters whose marks are in order is normalized.
-/
namespace Toktier.Lib

variable {α : Type*}

/-- The data of the characters. -/
structure Canonical (α : Type*) where
  /-- The full canonical decomposition. -/
  decomp : α → List α
  /-- The combining class. -/
  ccc : α → ℕ
  /-- The composite of a pair. -/
  comp : α → α → Option α
  /-- Composites are starters. -/
  starter : ∀ {a b c}, comp a b = some c → ccc c = 0

namespace Canonical

variable (u : Canonical α)

/-- Two neighbours that the canonical order leaves as they are. -/
def Stays (a b : α) : Prop := u.ccc b = 0 ∨ u.ccc a ≤ u.ccc b

instance : DecidableRel u.Stays := fun _ _ => inferInstanceAs (Decidable (_ ∨ _))

/-- The canonical order: neighbours that are out of order change places. -/
def reorder (t : List α) : List α := t.insertionSort u.Stays

/-- Something between a starter and `c` keeps them apart. -/
def Blocked (held : List α) (c : α) : Prop := ∃ b ∈ held, u.ccc b = 0 ∨ u.ccc c ≤ u.ccc b

instance (held : List α) (c : α) : Decidable (u.Blocked held c) :=
  inferInstanceAs (Decidable (∃ b ∈ held, _))

/-- Composition from the last starter on; `held` is what stands after it. -/
def composeFrom (s : α) (held : List α) : List α → List α
  | [] => s :: held
  | c :: cs =>
    match if u.Blocked held c then none else u.comp s c with
    | some x => composeFrom x held cs
    | none =>
      if u.ccc c = 0 then s :: held ++ composeFrom c [] cs else composeFrom s (held ++ [c]) cs

/-- The canonical composition; marks before the first starter stay. -/
def compose : List α → List α
  | [] => []
  | c :: cs => if u.ccc c = 0 then u.composeFrom c [] cs else c :: compose cs

/-- The normal form. -/
def nfc (t : List α) : List α := u.compose (u.reorder (t.flatMap u.decomp))

/-- A character that is its own normal form and whose decomposition joins nothing before it. -/
structure Safe (c : α) : Prop where
  alone : u.nfc [c] = [c]
  apart : ∀ a, ∀ d ∈ (u.decomp c).head?, u.comp a d = none

variable {u} {a b c d s : α} {t ms held es fs : List α}

/-! ### The order -/

theorem reorder_cons (a : α) (t : List α) :
    u.reorder (a :: t) = (u.reorder t).orderedInsert u.Stays a := rfl

/-- A text whose marks are in order is left as it is. -/
theorem reorder_eq_self (h : t.IsChain u.Stays) : u.reorder t = t := by
  induction t with
  | nil => rfl
  | cons a t ih =>
    cases t with
    | nil => rfl
    | cons b t =>
      obtain ⟨hab, hrest⟩ := List.isChain_cons_cons.mp h
      rw [reorder_cons, ih hrest]
      exact if_pos hab

/-- A starter stays where it is. -/
theorem reorder_starter (hs : u.ccc s = 0) (t : List α) : u.reorder (s :: t) = s :: u.reorder t := by
  rw [reorder_cons]
  cases u.reorder t with
  | nil => rfl
  | cons b r => exact if_pos (.inr (hs ▸ Nat.zero_le _))

/-- Marks stay before the first starter. -/
theorem head_reorder (hd : u.ccc d ≠ 0) (t : List α) :
    ∃ x r, u.reorder (d :: t) = x :: r ∧ u.ccc x ≠ 0 := by
  rw [reorder_cons]
  cases u.reorder t with
  | nil => exact ⟨d, [], rfl, hd⟩
  | cons b r =>
    rw [List.orderedInsert]
    split_ifs with hstay
    · exact ⟨d, b :: r, rfl, hd⟩
    · exact ⟨b, _, rfl, fun hb => hstay (.inl hb)⟩

/-- Nothing passes a starter. -/
theorem reorder_append (hs : u.ccc s = 0) (es t : List α) :
    u.reorder (es ++ s :: t) = u.reorder es ++ s :: u.reorder t := by
  induction es with
  | nil => exact reorder_starter hs t
  | cons e es ih =>
    have hpass (fs : List α) : (fs ++ s :: u.reorder t).orderedInsert u.Stays e =
        fs.orderedInsert u.Stays e ++ s :: u.reorder t := by
      induction fs with
      | nil => exact if_pos (.inl hs)
      | cons f fs ih =>
        rw [List.cons_append, List.orderedInsert, List.orderedInsert]
        split_ifs
        · rfl
        · rw [ih]
          rfl
    rw [List.cons_append, reorder_cons, ih, hpass, ← reorder_cons]

/-! ### Composition up to a starter that joins nothing -/

theorem composeFrom_append (hs : u.ccc s = 0) (hapart : ∀ a, u.comp a s = none) (a : α)
    (held es t : List α) :
    u.composeFrom a held (es ++ s :: t) = u.composeFrom a held es ++ u.composeFrom s [] t := by
  induction es generalizing a held with
  | nil =>
    have hnone : (if u.Blocked held s then none else u.comp a s) = none := by
      rw [hapart, ite_self]
    change u.composeFrom a held (s :: t) = a :: held ++ u.composeFrom s [] t
    rw [composeFrom, hnone]
    exact if_pos hs
  | cons e es ih =>
    rw [List.cons_append, composeFrom, composeFrom]
    split
    · exact ih _ held
    · split_ifs
      · rw [ih, List.append_assoc]
      · exact ih a _

theorem compose_append (hs : u.ccc s = 0) (hapart : ∀ a, u.comp a s = none) (es t : List α) :
    u.compose (es ++ s :: t) = u.compose es ++ u.compose (s :: t) := by
  have hstart : u.compose (s :: t) = u.composeFrom s [] t := if_pos hs
  induction es with
  | nil => rfl
  | cons e es ih =>
    rw [List.cons_append, compose, compose]
    split_ifs
    · rw [composeFrom_append hs hapart, hstart]
    · rw [ih]
      rfl

/-- Composition from a starter begins with a starter. -/
theorem head_composeFrom (hs : u.ccc s = 0) (held es : List α) :
    ∃ x r, u.composeFrom s held es = x :: r ∧ u.ccc x = 0 := by
  induction es generalizing s held with
  | nil => exact ⟨s, held, rfl, hs⟩
  | cons e es ih =>
    rw [composeFrom]
    split
    · rename_i x hx
      refine ih (u.starter (a := s) (b := e) ?_) held
      split_ifs at hx
      exact hx
    · split_ifs
      · exact ⟨s, _, rfl, hs⟩
      · exact ih hs _

theorem length_composeFrom (s : α) (held es : List α) :
    held.length < (u.composeFrom s held es).length := by
  induction es generalizing s held with
  | nil => exact Nat.lt_succ_self _
  | cons e es ih =>
    rw [composeFrom]
    split
    · exact ih _ held
    · split_ifs
      · rw [List.length_append, List.length_cons]
        omega
      · have := ih s (held ++ [e])
        rw [List.length_append] at this
        omega

/-! ### Marks among what composes -/

/-- The marks `ms` come into the list `es` in their order, each before nothing of the same or a
lower class. -/
inductive Woven (u : Canonical α) : List α → List α → List α → Prop
  | rest (ms : List α) : Woven u [] ms ms
  | take {es ms fs : List α} (e : α) : Woven u es ms fs → Woven u (e :: es) ms (e :: fs)
  | mark {es ms fs : List α} {m : α} : u.ccc m ≠ 0 → (∀ e ∈ es, u.ccc m < u.ccc e) →
      Woven u es ms fs → Woven u es (m :: ms) (m :: fs)

/-- Inserting a character keeps the marks woven in. -/
theorem Woven.insert (h : Woven u es ms fs) (hms : ∀ m ∈ ms, u.ccc m ≠ 0) (d : α) :
    Woven u (es.orderedInsert u.Stays d) ms (fs.orderedInsert u.Stays d) := by
  induction h with
  | rest ms =>
    induction ms with
    | nil => exact .take d (.rest [])
    | cons m ms ih =>
      obtain ⟨hm, hrest⟩ := List.forall_mem_cons.mp hms
      rw [List.orderedInsert, List.orderedInsert]
      split_ifs with hstay
      · exact .take d (.rest _)
      · rw [Stays, not_or, Nat.not_le] at hstay
        refine .mark hm (fun e he => ?_) (ih hrest)
        rw [List.mem_singleton.mp he]
        exact hstay.2
  | take e _ ih =>
    rw [List.orderedInsert, List.orderedInsert]
    split_ifs
    · rename_i hw _
      exact .take d (.take e hw)
    · exact .take e (ih hms)
  | @mark es ms fs m hm hbefore hw ih =>
    obtain ⟨-, hrest⟩ := List.forall_mem_cons.mp hms
    by_cases hstay : u.Stays d m
    · -- the character goes before the mark, and so before what the mark is before
      have hle : u.ccc d ≤ u.ccc m := hstay.resolve_left hm
      have hes : es.orderedInsert u.Stays d = d :: es := by
        cases es with
        | nil => rfl
        | cons e es => exact if_pos (.inr (hle.trans (hbefore e List.mem_cons_self).le))
      rw [hes, List.orderedInsert, if_pos hstay]
      exact .take d (.mark hm hbefore hw)
    · rw [List.orderedInsert, if_neg hstay]
      rw [Stays, not_or, Nat.not_le] at hstay
      refine .mark hm (fun e he => ?_) (ih hrest)
      rcases (List.mem_orderedInsert _).mp he with rfl | he
      · exact hstay.2
      · exact hbefore e he

/-- Sorting a decomposition together with the marks behind it weaves them in. -/
theorem woven_reorder (hms : ∀ m ∈ ms, u.ccc m ≠ 0) (hchain : ms.IsChain u.Stays) (ds : List α) :
    Woven u (u.reorder ds) ms (u.reorder (ds ++ ms)) := by
  induction ds with
  | nil =>
    rw [List.nil_append, reorder_eq_self hchain]
    exact .rest ms
  | cons d ds ih => exact ih.insert hms d

/-- What composes to one character composes to it among marks that join nothing. -/
theorem composeFrom_woven (h : Woven u es ms fs) (hms : ∀ m ∈ ms, ∀ a, u.comp a m = none)
    (hmark : ∀ m ∈ ms, u.ccc m ≠ 0) (hone : u.composeFrom s [] es = [c])
    (hheld : ∀ b ∈ held, u.ccc b ≠ 0 ∧ ∀ e ∈ es, u.ccc b < u.ccc e) :
    u.composeFrom s held fs = c :: (held ++ ms) := by
  induction h generalizing s held with
  | rest ms =>
    obtain rfl : s = c := (List.cons.inj hone).1
    clear hone hheld
    induction ms generalizing held with
    | nil => simp [composeFrom]
    | cons m ms ih =>
      obtain ⟨hm, hms⟩ := List.forall_mem_cons.mp hms
      obtain ⟨hclass, hmark⟩ := List.forall_mem_cons.mp hmark
      rw [composeFrom, hm, ite_self]
      dsimp only
      rw [if_neg hclass, ih hms hmark, List.append_assoc]
      rfl
  | @take es ms fs e hw ih =>
    -- the character composes when it stands alone, and the marks held do not block it
    have hsome : ∃ x, u.comp s e = some x ∧ u.composeFrom x [] es = [c] := by
      have hfree : ¬ u.Blocked [] e := by simp [Blocked]
      rw [composeFrom, if_neg hfree] at hone
      cases hx : u.comp s e with
      | some x =>
        rw [hx] at hone
        exact ⟨x, rfl, hone⟩
      | none =>
        rw [hx] at hone
        dsimp only at hone
        have hlong := congrArg List.length hone
        split_ifs at hlong
        · have := u.length_composeFrom e [] es
          simp at hlong
          rw [hlong] at this
          exact absurd this (lt_irrefl 0)
        · have := u.length_composeFrom s ([] ++ [e]) es
          rw [hlong] at this
          exact absurd this (lt_irrefl _)
    obtain ⟨x, hx, hrest⟩ := hsome
    have hfree : ¬ u.Blocked held e := by
      rintro ⟨b, hb, hclass | hclass⟩
      · exact (hheld b hb).1 hclass
      · exact absurd ((hheld b hb).2 e List.mem_cons_self) (Nat.not_lt.mpr hclass)
    rw [composeFrom, if_neg hfree, hx]
    exact ih hms hmark hrest fun b hb =>
      ⟨(hheld b hb).1, fun e' he' => (hheld b hb).2 e' (List.mem_cons_of_mem _ he')⟩
  | @mark es ms fs m hclass hbefore _ ih =>
    obtain ⟨hm, hms⟩ := List.forall_mem_cons.mp hms
    rw [composeFrom, hm, ite_self]
    dsimp only
    rw [if_neg hclass, ih hms (List.forall_mem_cons.mp hmark).2 hone, List.append_assoc]
    · rfl
    · intro b hb
      rcases List.mem_append.mp hb with hb | hb
      · exact hheld b hb
      · rw [List.mem_singleton.mp hb]
        exact ⟨hclass, hbefore⟩

/-! ### Safe characters -/

/-- A safe mark does not decompose, and joins nothing. -/
theorem Safe.mark (h : u.Safe c) (hc : u.ccc c ≠ 0) : u.decomp c = [c] ∧ ∀ a, u.comp a c = none := by
  have hone := h.alone
  rw [nfc, List.flatMap_singleton] at hone
  have hsort : u.reorder (u.decomp c) = [c] := by
    cases hes : u.reorder (u.decomp c) with
    | nil =>
      rw [hes] at hone
      cases hone
    | cons e es =>
      rw [hes, compose] at hone
      split_ifs at hone with he
      · obtain ⟨x, r, hx, hzero⟩ := u.head_composeFrom he [] es
        rw [hx] at hone
        exact absurd ((List.cons.inj hone).1 ▸ hzero) hc
      · obtain ⟨rfl, hnil⟩ := List.cons.inj hone
        cases es with
        | nil => rfl
        | cons f es =>
          rw [compose] at hnil
          split_ifs at hnil
          have := u.length_composeFrom f [] es
          rw [hnil] at this
          exact absurd this (Nat.not_lt_zero _)
  have hdecomp : u.decomp c = [c] := by
    have hperm := List.perm_insertionSort u.Stays (u.decomp c)
    rw [← reorder, hsort] at hperm
    exact List.perm_singleton.mp hperm.symm
  refine ⟨hdecomp, fun a => h.apart a c ?_⟩
  rw [hdecomp]
  rfl

/-- A safe starter decomposes to a starter that joins nothing before it, and what it composes with. -/
theorem Safe.starter (h : u.Safe c) (hc : u.ccc c = 0) : ∃ d ds, u.decomp c = d :: ds ∧
    u.ccc d = 0 ∧ (∀ a, u.comp a d = none) ∧ u.composeFrom d [] (u.reorder ds) = [c] := by
  have hone := h.alone
  rw [nfc, List.flatMap_singleton] at hone
  cases hdecomp : u.decomp c with
  | nil =>
    rw [hdecomp] at hone
    cases hone
  | cons d ds =>
    rw [hdecomp] at hone
    have hd : u.ccc d = 0 := by
      by_contra hd
      obtain ⟨x, r, hx, hmark⟩ := head_reorder hd ds
      rw [hx, compose, if_neg hmark] at hone
      exact hmark ((List.cons.inj hone).1 ▸ hc)
    rw [reorder_starter hd, compose, if_pos hd] at hone
    refine ⟨d, ds, rfl, hd, fun a => h.apart a d ?_, hone⟩
    rw [hdecomp]
    rfl

/-- Marks alone are normalized. -/
theorem nfc_marks (hsafe : ∀ m ∈ ms, u.Safe m) (hms : ∀ m ∈ ms, u.ccc m ≠ 0)
    (hchain : ms.IsChain u.Stays) : ms.flatMap u.decomp = ms ∧ u.nfc ms = ms := by
  have hdecomp : ms.flatMap u.decomp = ms := by
    clear hchain
    induction ms with
    | nil => rfl
    | cons m ms ih =>
      obtain ⟨hm, hsafe⟩ := List.forall_mem_cons.mp hsafe
      obtain ⟨hclass, hms⟩ := List.forall_mem_cons.mp hms
      rw [List.flatMap_cons, (hm.mark hclass).1, ih hsafe hms]
      rfl
  refine ⟨hdecomp, ?_⟩
  rw [nfc, hdecomp, reorder_eq_self hchain]
  clear hsafe hchain hdecomp
  induction ms with
  | nil => rfl
  | cons m ms ih =>
    obtain ⟨hclass, hms⟩ := List.forall_mem_cons.mp hms
    rw [compose, if_neg hclass, ih hms]

/-- A starter and the marks behind it. -/
theorem nfc_segment (hs : u.Safe s) (hclass : u.ccc s = 0) (hsafe : ∀ m ∈ ms, u.Safe m)
    (hms : ∀ m ∈ ms, u.ccc m ≠ 0) (hchain : ms.IsChain u.Stays) : u.nfc (s :: ms) = s :: ms := by
  obtain ⟨d, ds, hdecomp, hd, -, hone⟩ := hs.starter hclass
  rw [nfc, List.flatMap_cons, hdecomp, (nfc_marks hsafe hms hchain).1, List.cons_append,
    reorder_starter hd, compose, if_pos hd]
  exact composeFrom_woven (woven_reorder hms hchain ds)
    (fun m hm => ((hsafe m hm).mark (hms m hm)).2) hms hone fun b hb => absurd hb List.not_mem_nil

/-- A safe starter is a boundary. -/
theorem nfc_append (hs : u.Safe s) (hclass : u.ccc s = 0) (es t : List α) :
    u.nfc (es ++ s :: t) = u.nfc es ++ u.nfc (s :: t) := by
  obtain ⟨d, ds, hdecomp, hd, hapart, -⟩ := hs.starter hclass
  rw [nfc, nfc, nfc, List.flatMap_append, List.flatMap_cons, hdecomp, List.cons_append,
    reorder_append hd, compose_append hd hapart, reorder_starter hd]

/-- The marks that a text begins with, and its first starter. -/
theorem exists_marks (u : Canonical α) (t : List α) : ∃ ms rest, t = ms ++ rest ∧
    (∀ m ∈ ms, u.ccc m ≠ 0) ∧ ∀ s ∈ rest.head?, u.ccc s = 0 := by
  induction t with
  | nil => exact ⟨[], [], rfl, by simp, by simp⟩
  | cons c t ih =>
    by_cases hc : u.ccc c = 0
    · exact ⟨[], c :: t, rfl, by simp, by simp [hc]⟩
    · obtain ⟨ms, rest, rfl, hms, hrest⟩ := ih
      exact ⟨c :: ms, rest, rfl, List.forall_mem_cons.mpr ⟨hc, hms⟩, hrest⟩

/-- A text of safe characters whose marks are in order is normalized. -/
theorem nfc_eq_self (hsafe : ∀ c ∈ t, u.Safe c) (hchain : t.IsChain u.Stays) : u.nfc t = t := by
  -- from one starter to the next
  induction hn : t.length using Nat.strong_induction_on generalizing t with
  | _ n ih =>
    cases t with
    | nil => rfl
    | cons c t =>
      obtain ⟨ms, rest, rfl, hms, hrest⟩ := exists_marks u t
      rw [← List.cons_append] at hsafe hchain ⊢
      have hfirst := hchain.left_of_append
      have hmem : ∀ m ∈ c :: ms, u.Safe m := fun m hm => hsafe m (List.mem_append_left _ hm)
      have hsegment : u.nfc (c :: ms) = c :: ms := by
        by_cases hc : u.ccc c = 0
        · exact nfc_segment (hmem c List.mem_cons_self) hc (List.forall_mem_cons.mp hmem).2 hms
            hfirst.tail
        · exact (nfc_marks hmem (List.forall_mem_cons.mpr ⟨hc, hms⟩) hfirst).2
      cases rest with
      | nil => rwa [List.append_nil]
      | cons s r =>
        have hs : u.Safe s := hsafe s (List.mem_append_right _ List.mem_cons_self)
        rw [nfc_append hs (hrest s rfl), hsegment]
        refine congrArg _ (ih (s :: r).length ?_ (fun d hd => ?_) hchain.right_of_append rfl)
        · simp only [List.length_cons, List.length_append] at hn ⊢
          omega
        · exact hsafe d (List.mem_append_right _ hd)

end Canonical

end Toktier.Lib
