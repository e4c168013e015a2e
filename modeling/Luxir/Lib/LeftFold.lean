import Mathlib.Data.List.Induction
import Mathlib.Data.List.Perm.Basic

/-!
Elements merged from the left, without a neutral element. Where the merge is associative, lists that
were merged apart may be merged with each other; where it also commutes, their order does not
matter.
-/

namespace Luxir.Lib.LeftFold
variable {α : Type} {merge : α → α → α} {elements others : List α}

def leftFold (merge : α → α → α) : List α → Option α
  | [] => none
  | first :: rest => some (rest.foldl merge first)

theorem leftFold_concat {elements : List α} {merged : α}
    (known : leftFold merge elements = some merged) (last : α) :
    leftFold merge (elements ++ [last]) = some (merge merged last) := by
  cases elements with
  | nil => cases known
  | cons =>
    cases known
    rw [List.cons_append, leftFold, List.foldl_append]
    rfl

theorem leftFold_append [Std.Associative merge] {first second : α}
    (one : leftFold merge elements = some first) (two : leftFold merge others = some second) :
    leftFold merge (elements ++ others) = some (merge first second) := by
  induction others using List.reverseRecOn generalizing second with
  | nil => cases two
  | append_singleton others last ih =>
    rw [← List.append_assoc]
    cases others with
    | nil =>
      cases two
      rw [List.append_nil]
      exact leftFold_concat one last
    | cons head rest =>
      have front : leftFold merge (head :: rest) = some (rest.foldl merge head) := rfl
      have whole := leftFold_concat front last
      rw [two, Option.some.injEq] at whole
      have assoc : ∀ a b c, merge (merge a b) c = merge a (merge b c) := Std.Associative.assoc
      rw [leftFold_concat (ih front) last, whole, assoc]

theorem leftFold_perm [Std.Associative merge] [Std.Commutative merge]
    (perm : elements.Perm others) : leftFold merge elements = leftFold merge others := by
  induction perm with
  | nil => rfl
  | cons first perm => exact congrArg some (perm.foldl_eq first)
  | swap =>
    have comm : ∀ a b, merge a b = merge b a := Std.Commutative.comm
    rw [leftFold, leftFold, List.foldl_cons, List.foldl_cons, comm]
  | trans _ _ one two => exact one.trans two

end Luxir.Lib.LeftFold
