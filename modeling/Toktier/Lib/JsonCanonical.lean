import Toktier.Lib.JsonText
import Mathlib.Data.List.Lex
import Mathlib.Data.List.Sort

/-!
# Canonical JSON values

Two values are the same when one becomes the other by reordering the members of objects, at any
depth. Sorting the members of every object by the UTF-16 code units of their keys picks one value of
each class, and so the text of that value stands for the class.

## Main definitions

* `JsonValue.Same`: sameness up to the order of members.
* `utf16`: the code units of a text.
* `JsonValue.canonical`: the members of every object in the order of their keys.

## Main results

* `JsonValue.canonical_eq_iff`: two values are the same exactly when they have one canonical value.
-/
namespace Toktier.Lib

/-! ## UTF-16 -/

/-- The code units of a character: a pair of surrogates above the first plane. -/
def codeUnits (c : Char) : List ℕ :=
  if c.toNat < 0x10000 then [c.toNat]
  else [0xD800 + (c.toNat - 0x10000) / 1024, 0xDC00 + (c.toNat - 0x10000) % 1024]

def utf16 (text : Text) : List ℕ := text.flatMap codeUnits

theorem toNat_not_surrogate (c : Char) : c.toNat < 0xD800 ∨ 0xE000 ≤ c.toNat ∧ c.toNat < 0x110000 := by
  rcases c.valid with h | ⟨h, h'⟩
  · exact .inl h
  · exact .inr ⟨h, h'⟩

/-- The code units of a text give its characters, one after another. -/
theorem codeUnits_append_inj {c d : Char} {s t : List ℕ} (h : codeUnits c ++ s = codeUnits d ++ t) :
    c = d ∧ s = t := by
  have hc := toNat_not_surrogate c
  have hd := toNat_not_surrogate d
  suffices c.toNat = d.toNat ∧ s = t from ⟨Char.toNat_inj.mp this.1, this.2⟩
  unfold codeUnits at h
  split_ifs at h with h1 h2 h2 <;> simp only [List.cons_append, List.nil_append, List.cons.injEq] at h
  · exact h
  · omega
  · omega
  · exact ⟨by omega, h.2.2⟩

theorem utf16_injective : Function.Injective utf16 := by
  intro s t h
  induction s generalizing t with
  | nil =>
      cases t with
      | nil => rfl
      | cons d t =>
          unfold utf16 codeUnits at h
          rw [List.flatMap_nil, List.flatMap_cons] at h
          split_ifs at h
          all_goals cases h
  | cons c s ih =>
      cases t with
      | nil =>
          unfold utf16 codeUnits at h
          rw [List.flatMap_nil, List.flatMap_cons] at h
          split_ifs at h
          all_goals cases h
      | cons d t =>
          rw [utf16, utf16, List.flatMap_cons, List.flatMap_cons] at h
          obtain ⟨rfl, hrest⟩ := codeUnits_append_inj h
          rw [ih hrest]

namespace JsonValue

/-! ## The same value -/

/-- One value becomes the other by reordering members. -/
inductive Same : JsonValue → JsonValue → Prop
  | refl (v : JsonValue) : Same v v
  | trans {u v w : JsonValue} (h : Same u v) (h' : Same v w) : Same u w
  | item {v w : JsonValue} (before after : List JsonValue) (h : Same v w) :
      Same (.array (before ++ v :: after)) (.array (before ++ w :: after))
  | member {v w : JsonValue} (before after : List (Text × JsonValue)) (key : Text) (h : Same v w) :
      Same (.object (before ++ (key, v) :: after)) (.object (before ++ (key, w) :: after))
  | order {members members' : List (Text × JsonValue)} (h : members.Perm members') :
      Same (.object members) (.object members')

theorem Same.symm {v w : JsonValue} (h : Same v w) : Same w v := by
  induction h with
  | refl v => exact .refl v
  | trans _ _ ih ih' => exact ih'.trans ih
  | item before after _ ih => exact .item before after ih
  | member before after key _ ih => exact .member before after key ih
  | order h => exact .order h.symm

/-- Sameness keeps what does not depend on the order of keys. -/
theorem Same.everyObject {p : List Text → Prop} (hp : ∀ keys keys', keys.Perm keys' → p keys → p keys')
    {v w : JsonValue} (h : Same v w) (hv : v.EveryObject p) : w.EveryObject p := by
  induction h with
  | refl v => exact hv
  | trans _ _ ih ih' => exact ih' (ih hv)
  | item before after _ ih =>
      rw [everyObject_array, List.forall_mem_append, List.forall_mem_cons] at hv ⊢
      exact ⟨hv.1, ih hv.2.1, hv.2.2⟩
  | member before after key _ ih =>
      rw [everyObject_object, List.forall_mem_append, List.forall_mem_cons, List.map_append,
        List.map_cons] at hv ⊢
      exact ⟨hv.1, hv.2.1, ih hv.2.2.1, hv.2.2.2⟩
  | order h =>
      rw [everyObject_object] at hv ⊢
      exact ⟨hp _ _ (h.map _) hv.1, fun member hmember => hv.2 member (h.mem_iff.mpr hmember)⟩

theorem Same.distinct {v w : JsonValue} (h : Same v w) (hv : v.Distinct) : w.Distinct :=
  h.everyObject (fun _ _ hperm hnodup => hperm.nodup_iff.mp hnodup) hv

/-- The items of an array, one after another. -/
theorem same_array {f : JsonValue → JsonValue} (before items : List JsonValue)
    (h : ∀ item ∈ items, Same item (f item)) :
    Same (.array (before ++ items)) (.array (before ++ items.map f)) := by
  induction items generalizing before with
  | nil => exact .refl _
  | cons item items ih =>
      have hrest := ih (before ++ [f item]) fun item h' => h item (List.mem_cons_of_mem _ h')
      rw [List.append_assoc, List.append_assoc, List.singleton_append, List.singleton_append] at hrest
      exact (Same.item before items (h item List.mem_cons_self)).trans hrest

theorem same_object {f : JsonValue → JsonValue} (before members : List (Text × JsonValue))
    (h : ∀ member ∈ members, Same member.2 (f member.2)) :
    Same (.object (before ++ members))
      (.object (before ++ members.map fun member => (member.1, f member.2))) := by
  induction members generalizing before with
  | nil => exact .refl _
  | cons member members ih =>
      have hrest := ih (before ++ [(member.1, f member.2)]) fun member h' => h member (List.mem_cons_of_mem _ h')
      rw [List.append_assoc, List.append_assoc, List.singleton_append, List.singleton_append] at hrest
      exact (Same.member before members member.1 (h member List.mem_cons_self)).trans hrest

/-! ## The canonical value -/

/-- The order of members: by the code units of their keys. -/
def keyLE {α : Type} (a b : Text × α) : Bool := utf16 a.1 ≤ utf16 b.1

mutual

/-- The members of every object, in the order of their keys. -/
def canonical : JsonValue → JsonValue
  | .array items => .array (canonicalItems items)
  | .object members => .object ((canonicalMembers members).mergeSort keyLE)
  | .null => .null
  | .bool flag => .bool flag
  | .number value => .number value
  | .string text => .string text

def canonicalItems : List JsonValue → List JsonValue
  | [] => []
  | item :: items => canonical item :: canonicalItems items

def canonicalMembers : List (Text × JsonValue) → List (Text × JsonValue)
  | [] => []
  | (key, value) :: members => (key, canonical value) :: canonicalMembers members

end

theorem canonicalItems_eq_map (items : List JsonValue) : canonicalItems items = items.map canonical := by
  induction items with
  | nil => rfl
  | cons item items ih => rw [canonicalItems, ih, List.map_cons]

theorem canonicalMembers_eq_map (members : List (Text × JsonValue)) :
    canonicalMembers members = members.map fun member => (member.1, canonical member.2) := by
  induction members with
  | nil => rfl
  | cons member members ih => rw [canonicalMembers, ih, List.map_cons]

/-- A value is the same as its canonical value. -/
theorem same_canonical (v : JsonValue) : Same v (canonical v) := by
  induction v using induction_parts with
  | array items ih =>
      rw [canonical, canonicalItems_eq_map]
      exact same_array [] items ih
  | object members ih =>
      rw [canonical, canonicalMembers_eq_map]
      exact (same_object [] members ih).trans (.order (List.mergeSort_perm _ _).symm)
  | null => exact .refl _
  | bool flag => exact .refl _
  | number value => exact .refl _
  | string text => exact .refl _

theorem keyLE_trans {α : Type} (a b c : Text × α) (h : keyLE a b = true) (h' : keyLE b c = true) :
    keyLE a c = true :=
  decide_eq_true ((of_decide_eq_true h).trans (of_decide_eq_true h'))

theorem keyLE_total {α : Type} (a b : Text × α) : (keyLE a b || keyLE b a) = true := by
  rw [Bool.or_eq_true]
  exact (le_total (utf16 a.1) (utf16 b.1)).imp decide_eq_true decide_eq_true

/-- Members of different keys have one order. -/
theorem mergeSort_eq_of_perm {α : Type} {members members' : List (Text × α)} (h : members.Perm members')
    (hnodup : (members.map Prod.fst).Nodup) : members.mergeSort keyLE = members'.mergeSort keyLE := by
  have hperm : (members.mergeSort keyLE).Perm (members'.mergeSort keyLE) :=
    (List.mergeSort_perm _ _).trans (h.trans (List.mergeSort_perm _ _).symm)
  refine hperm.eq_of_pairwise ?_ (List.pairwise_mergeSort keyLE_trans keyLE_total _)
    (List.pairwise_mergeSort keyLE_trans keyLE_total _)
  intro a b ha hb hab hba
  have hkey : a.1 = b.1 := utf16_injective (le_antisymm (of_decide_eq_true hab) (of_decide_eq_true hba))
  have ha' := (List.mergeSort_perm members keyLE).mem_iff.mp ha
  have hb' := h.mem_iff.mpr ((List.mergeSort_perm members' keyLE).mem_iff.mp hb)
  exact List.inj_on_of_nodup_map hnodup ha' hb' hkey

theorem Same.canonical_eq {v w : JsonValue} (h : Same v w) (hv : v.Distinct) :
    canonical v = canonical w := by
  induction h with
  | refl v => rfl
  | trans h _ ih ih' => exact (ih hv).trans (ih' (h.distinct hv))
  | item before after _ ih =>
      have hitems := everyObject_array.mp hv
      rw [List.forall_mem_append, List.forall_mem_cons] at hitems
      simp only [canonical, canonicalItems_eq_map, List.map_append, List.map_cons, ih hitems.2.1]
  | member before after key _ ih =>
      have hmembers := (everyObject_object.mp hv).2
      rw [List.forall_mem_append, List.forall_mem_cons] at hmembers
      simp only [canonical, canonicalMembers_eq_map, List.map_append, List.map_cons, ih hmembers.2.1]
  | order h =>
      rw [canonical, canonical, canonicalMembers_eq_map, canonicalMembers_eq_map]
      refine congrArg _ (mergeSort_eq_of_perm (h.map _) ?_)
      rw [List.map_map]
      exact (everyObject_object.mp hv).1

/-- Two values are the same exactly when they have one canonical value. -/
theorem canonical_eq_iff {v w : JsonValue} (hv : v.Distinct) : canonical v = canonical w ↔ Same v w := by
  constructor
  · intro h
    exact (same_canonical v).trans (h ▸ (same_canonical w).symm)
  · intro h
    exact h.canonical_eq hv

/-- The keys of every object ascend by their code units. -/
def Sorted (v : JsonValue) : Prop := v.EveryObject (List.Pairwise fun key key' => utf16 key < utf16 key')

theorem sorted_canonical {v : JsonValue} (hv : v.Distinct) : (canonical v).Sorted := by
  induction v using induction_parts with
  | array items ih =>
      rw [canonical, canonicalItems_eq_map, Sorted, everyObject_array]
      intro sorted hsorted
      obtain ⟨item, hitem, rfl⟩ := List.mem_map.mp hsorted
      exact ih item hitem (everyObject_array.mp hv item hitem)
  | object members ih =>
      obtain ⟨hnodup, hmembers⟩ := everyObject_object.mp hv
      rw [canonical, canonicalMembers_eq_map, Sorted, everyObject_object]
      constructor
      · have hsorted := List.pairwise_mergeSort keyLE_trans keyLE_total
          (members.map fun member => (member.1, canonical member.2))
        have hkeys : (((members.map fun member => (member.1, canonical member.2)).mergeSort keyLE).map
            Prod.fst).Nodup := by
          refine ((List.mergeSort_perm _ keyLE).map Prod.fst).nodup_iff.mpr ?_
          rw [List.map_map]
          exact hnodup
        rw [List.pairwise_map]
        rw [List.Nodup, List.pairwise_map] at hkeys
        refine (hsorted.and hkeys).imp fun h => ?_
        exact lt_of_le_of_ne (of_decide_eq_true h.1) fun heq => h.2 (utf16_injective heq)
      · intro sorted hsorted
        obtain ⟨member, hmember, rfl⟩ := List.mem_map.mp ((List.mergeSort_perm _ keyLE).mem_iff.mp hsorted)
        exact ih member hmember (hmembers member hmember)
  | null => trivial
  | bool flag => trivial
  | number value => trivial
  | string text => trivial

end JsonValue

end Toktier.Lib
