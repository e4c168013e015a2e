import Mathlib.Data.Finset.Sort

/-! The union of lists over a linear order: every member once, in order. -/

namespace Luxir.Lib.SortedUnion
variable {α : Type*} [LinearOrder α] {lists : List (List α)}

def union (lists : List (List α)) : List α := lists.flatten.toFinset.sort

theorem mem_union {value : α} : value ∈ union lists ↔ ∃ list ∈ lists, value ∈ list := by
  rw [union, Finset.mem_sort, List.mem_toFinset, List.mem_flatten]

theorem union_sorted (lists : List (List α)) : (union lists).Pairwise (· < ·) :=
  (Finset.sortedLT_sort _).pairwise

theorem eq_union {values : List α} (sorted : values.Pairwise (· < ·))
    (same : ∀ value, value ∈ values ↔ ∃ list ∈ lists, value ∈ list) : values = union lists := by
  have members : values.toFinset = lists.flatten.toFinset := by
    ext value
    rw [List.mem_toFinset, List.mem_toFinset, List.mem_flatten, same]
  have weakly := sorted.imp fun less => less.le
  rw [union, ← members]
  exact ((List.toFinset_sort _ sorted.nodup).mpr weakly).symm

end Luxir.Lib.SortedUnion
