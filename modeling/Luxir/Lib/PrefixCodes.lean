import Mathlib.Data.List.Basic

/-!
Codes that tell where they end. When two streams are equal and start with codes of two values, the
values are equal and so is what follows. Codes of lists are such if the length is written in front.
-/

namespace Luxir.Lib.PrefixCodes
open List

variable {α β γ : Type*} {size : Nat → List γ} {code : α → List γ}

/-- At the front of equal streams stand codes of one value. -/
def Delimited (code : α → List γ) : Prop :=
  ∀ ⦃first second : α⦄ ⦃rest other : List γ⦄,
    code first ++ rest = code second ++ other → first = second ∧ rest = other

theorem delimited_single {symbol : α → γ} (injective : Function.Injective symbol) :
    Delimited fun value => [symbol value] := by
  intro first second rest other same
  have parts := cons.inj same
  exact ⟨injective parts.1, parts.2⟩

theorem Delimited.comp {code : β → List γ} {read : α → β} (delimited : Delimited code)
    (injective : Function.Injective read) : Delimited fun value => code (read value) := by
  intro first second rest other same
  have parts := delimited same
  exact ⟨injective parts.1, parts.2⟩

theorem Delimited.flatMap (delimited : Delimited code) {first second : List α}
    {rest other : List γ} (long : first.length = second.length)
    (same : first.flatMap code ++ rest = second.flatMap code ++ other) :
    first = second ∧ rest = other := by
  induction first generalizing second with
  | nil =>
    have empty : second = [] := length_eq_zero_iff.mp long.symm
    subst empty
    exact ⟨rfl, same⟩
  | cons value values ih =>
    cases second with
    | nil => cases long
    | cons =>
      rw [flatMap_cons, flatMap_cons, append_assoc, append_assoc] at same
      have head := delimited same
      have tail := ih (Nat.succ.inj long) head.2
      exact ⟨by rw [head.1, tail.1], tail.2⟩

theorem Delimited.counted (sized : Delimited size) (delimited : Delimited code) :
    Delimited fun values : List α => size values.length ++ values.flatMap code := by
  intro first second rest other same
  rw [append_assoc, append_assoc] at same
  have length := sized same
  exact delimited.flatMap length.1 length.2

theorem Delimited.framed (sized : Delimited size) :
    Delimited fun text : List γ => size text.length ++ text := by
  intro first second rest other same
  rw [append_assoc, append_assoc] at same
  have length := sized same
  exact append_inj length.2 length.1

end Luxir.Lib.PrefixCodes
