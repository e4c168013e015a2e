import Mathlib.Data.Finmap

/-!
The total cost of the values of a finite map, under insertion, replacement and erasure.
-/

namespace Luxir.Lib.WeightedMap
open Finmap

variable {ν α : Type} [DecidableEq ν]

def weight (cost : α → Nat) (table : Finmap fun _ : ν => α) : Nat :=
  (table.entries.map fun entry => cost entry.2).sum

variable {table : Finmap fun _ : ν => α} {name : ν} {old : α}

theorem weight_insert_new (cost : α → Nat) (value : α) (gone : table.lookup name = none) :
    weight cost (table.insert name value) = cost value + weight cost table := by
  have missing : name ∉ table := lookup_eq_none.mp gone
  simp only [weight, entries_insert_of_notMem missing, Multiset.map_cons, Multiset.sum_cons]

theorem lookup_insert_ite (table : Finmap fun _ : ν => α) (name other : ν) (value : α) :
    (table.insert name value).lookup other =
      if other = name then some value else table.lookup other := by
  split_ifs with same
  · rw [same, lookup_insert]
  · exact lookup_insert_of_ne _ same

theorem lookup_erase_ite (table : Finmap fun _ : ν => α) (name other : ν) :
    (table.erase name).lookup other = if other = name then none else table.lookup other := by
  split_ifs with same
  · rw [same, lookup_erase]
  · exact lookup_erase_ne same

theorem insert_erase (table : Finmap fun _ : ν => α) (name : ν) (value : α) :
    (table.erase name).insert name value = table.insert name value := by
  apply ext_lookup
  intro other
  rw [lookup_insert_ite, lookup_insert_ite, lookup_erase_ite]
  split_ifs <;> rfl

theorem insert_self (here : table.lookup name = some old) : table.insert name old = table := by
  apply ext_lookup
  intro other
  rw [lookup_insert_ite]
  split_ifs with same
  · rw [same, here]
  · rfl

theorem weight_erase (cost : α → Nat) (here : table.lookup name = some old) :
    weight cost table = cost old + weight cost (table.erase name) := by
  rw [← weight_insert_new cost old (lookup_erase name table), insert_erase, insert_self here]

theorem weight_insert (cost : α → Nat) (value : α) (here : table.lookup name = some old) :
    weight cost (table.insert name value) + cost old = weight cost table + cost value := by
  have replaced := weight_insert_new cost value (lookup_erase name table)
  rw [insert_erase] at replaced
  rw [replaced, weight_erase cost here]
  omega

end Luxir.Lib.WeightedMap
