import Mathlib.Data.List.AList

/-!
# Finite maps

What a lookup in a finite map gives after an insertion or a removal.
-/
namespace Toktier.Lib

variable {κ ν : Type*} [DecidableEq κ] {m : AList fun _ : κ => ν} {k k' : κ} {v v' : ν}

/-- An entry of the map after an insertion is the new one or an old one. -/
theorem lookup_insert_eq_some : (m.insert k v).lookup k' = some v' ↔
    k' = k ∧ v' = v ∨ k' ≠ k ∧ m.lookup k' = some v' := by
  by_cases heq : k' = k
  · subst heq
    rw [AList.lookup_insert, Option.some_inj]
    simp [eq_comm]
  · rw [AList.lookup_insert_ne heq]
    simp [heq]

/-- An entry that is left after a removal is another one. -/
theorem lookup_erase_eq_some : (m.erase k).lookup k' = some v ↔
    k' ≠ k ∧ m.lookup k' = some v := by
  by_cases heq : k' = k
  · subst heq
    have hgone : (m.erase k').lookup k' = none := AList.lookup_erase _ _
    simp [hgone]
  · rw [AList.lookup_erase_ne heq]
    simp [heq]

/-- An insertion takes no key away. -/
theorem isSome_lookup_insert (h : (m.lookup k').isSome) (k : κ) (v : ν) :
    ((m.insert k v).lookup k').isSome := by
  by_cases heq : k' = k
  · rw [heq, AList.lookup_insert]
    rfl
  · rwa [AList.lookup_insert_ne heq]

/-- A new value for a key leaves the keys as they are. -/
theorem isSome_lookup_replace (h : (m.lookup k).isSome) (v : ν) (k' : κ) :
    ((m.insert k v).lookup k').isSome = (m.lookup k').isSome := by
  by_cases heq : k' = k
  · rw [heq, AList.lookup_insert, h]
    rfl
  · rw [AList.lookup_insert_ne heq]

end Toktier.Lib
