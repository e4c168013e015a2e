import Mathlib.Algebra.Order.Ring.Nat
import Mathlib.Data.Nat.Log

/-!
Branchless binary search: a first probe folds away what exceeds a power of two, and every later
probe halves the window. The search asks of an index only whether to move past it.
-/

namespace Luxir.Util.BranchlessSearch

/-- The largest power of two that fits, and the rest. -/
def layout (len : Nat) : Nat × Nat :=
  if len ≤ 1 then (len, 0) else (2 ^ Nat.log 2 len, len - 2 ^ Nat.log 2 len)

def halve (advancePast : Nat → Bool) : Nat → Nat → Nat → Nat
  | 0, base, _ => base
  | rounds + 1, base, s =>
      if s > 1 then
        halve advancePast rounds (if advancePast (base + s / 2) then base + s / 2 else base) (s / 2)
      else base

def core (advancePast : Nat → Bool) (step remainder : Nat) : Nat :=
  if step = 0 then 0
  else
    let base :=
      if remainder > 0 then if advancePast remainder then remainder else 0 else 0
    let base := halve advancePast step base step
    if advancePast base then base + 1 else base

def upperBound {κ : Type} [LinearOrder κ] (valueAt : Nat → κ) (len : Nat) (key : κ) : Nat :=
  core (fun index => !decide (key < valueAt index)) (layout len).1 (layout len).2

structure Cut (past : Nat → Bool) (len index : Nat) : Prop where
  le : index ≤ len
  before : ∀ i < index, past i = true
  after : ∀ i, index ≤ i → i < len → past i = false

section
variable {past : Nat → Bool} {len : Nat} {index : Nat}

def Falling (past : Nat → Bool) (len : Nat) : Prop :=
  ∀ first second, first ≤ second → second < len → past second = true → past first = true

theorem Falling.cut (falling : Falling past len) : ∃ index, Cut past len index := by
  induction len with
  | zero => exact ⟨0, le_rfl, fun i less => by omega, fun i _ less => by omega⟩
  | succ len ih =>
    obtain ⟨index, cut⟩ := ih fun first second order lt =>
      falling first second order (Nat.lt_succ_of_lt lt)
    cases last : past len with
    | true =>
      refine ⟨len + 1, le_rfl, fun i less => ?_, fun i _ less => by omega⟩
      exact falling i len (Nat.le_of_lt_succ less) (Nat.lt_succ_self _) last
    | false =>
      refine ⟨index, Nat.le_succ_of_le cut.le, cut.before, fun i from_index less => ?_⟩
      rcases Nat.lt_succ_iff_lt_or_eq.mp less with lt | rfl
      · exact cut.after i from_index lt
      · exact last

theorem Cut.past_iff {index i : Nat} (cut : Cut past len index) (lt : i < len) :
    past i = true ↔ i < index := by
  constructor
  · intro moved
    by_contra behind
    rw [cut.after i (not_lt.mp behind) lt] at moved
    cases moved
  · exact cut.before i

/-- A window that is a power of two shrinks to one that holds the cut. -/
theorem halve_window (cut : Cut past len index) (power : Nat) {rounds base : Nat}
    (enough : 2 ^ power ≤ rounds + 1) (lt : base + 2 ^ power ≤ len) (lower : base ≤ index)
    (upper : index ≤ base + 2 ^ power) : halve past rounds base (2 ^ power) ≤ index ∧
      index ≤ halve past rounds base (2 ^ power) + 1 ∧
      halve past rounds base (2 ^ power) < len := by
  induction power generalizing rounds base with
  | zero =>
    rw [Nat.pow_zero] at lt upper ⊢
    cases rounds with
    | zero | succ => exact ⟨lower, upper, lt⟩
  | succ power ih =>
    have pos := Nat.two_pow_pos power
    have half : 2 ^ (power + 1) / 2 = 2 ^ power := by
      rw [Nat.pow_succ]
      omega
    rw [Nat.pow_succ] at enough lt upper
    cases rounds with
    | zero => omega
    | succ =>
      have wide : 2 ^ (power + 1) > 1 := by
        rw [Nat.pow_succ]
        omega
      rw [halve, if_pos wide, half]
      have moved := cut.past_iff (show base + 2 ^ power < len by omega)
      simp only [moved]
      split_ifs with below
      · exact ih (by omega) (by omega) (by omega) (by omega)
      · exact ih (by omega) (by omega) lower (by omega)

theorem core_cut (cut : Cut past len index) : core past (layout len).1 (layout len).2 = index := by
  have window : ∀ power base, base + 2 ^ power ≤ len → base ≤ index → index ≤ base + 2 ^ power →
      (if past (halve past (2 ^ power) base (2 ^ power)) = true then
        halve past (2 ^ power) base (2 ^ power) + 1
      else halve past (2 ^ power) base (2 ^ power)) = index := by
    intro power base lt lower upper
    obtain ⟨low, high, bound⟩ := halve_window cut power (Nat.le_succ _) lt lower upper
    simp only [cut.past_iff bound]
    split_ifs <;> omega
  unfold layout
  have order := cut.le
  split_ifs with tiny
  · rcases Nat.le_one_iff_eq_zero_or_eq_one.mp tiny with rfl | rfl
    · rw [core, if_pos rfl]
      omega
    · exact window 0 0 (by omega) (Nat.zero_le _) (by omega)
  · have low := Nat.pow_log_le_self 2 (show len ≠ 0 by omega)
    have high := Nat.lt_pow_succ_log_self (show 1 < 2 by decide) len
    generalize Nat.log 2 len = power at *
    rw [Nat.pow_succ] at high
    unfold core
    rw [if_neg (by omega)]
    split
    · simp only [cut.past_iff (show len - 2 ^ power < len by omega)]
      split
      · exact window power _ (by omega) (by omega) (by omega)
      · exact window power 0 (by omega) (Nat.zero_le _) (by omega)
    · exact window power 0 (by omega) (Nat.zero_le _) (by omega)

end

theorem upperBound_cut {κ : Type} [LinearOrder κ] {valueAt : Nat → κ} {len : Nat} (key : κ)
    (ascends : ∀ first second, first ≤ second → second < len → valueAt first ≤ valueAt second) :
    Cut (fun index => !decide (key < valueAt index)) len (upperBound valueAt len key) := by
  have falling : Falling (fun index => !decide (key < valueAt index)) len := by
    intro first second order lt past
    have smaller := ascends first second order lt
    simp only [Bool.not_eq_true', decide_eq_false_iff_not, not_lt] at past ⊢
    exact smaller.trans past
  obtain ⟨index, cut⟩ := falling.cut
  have found : upperBound valueAt len key = index := core_cut cut
  rw [found]
  exact cut

end Luxir.Util.BranchlessSearch
