import Mathlib.Data.List.GetD
import Mathlib.Data.List.Pairwise
import Mathlib.Tactic.Linarith

/-!
Galloping search: double the step until the key is passed, then bisect the last stride. Both
forms return the first position that does not lie below the key.
-/

namespace Luxir.Util.Gallop
variable {κ : Type} [LinearOrder κ]

/-- The bisection of a sorted stretch; a round halves it at least. -/
def lowerBound (key : κ) (valueAt : Nat → κ) : Nat → Nat → Nat → Nat
  | 0, first, _ => first
  | rounds + 1, first, last =>
      if first < last then
        let mid := first + (last - first) / 2
        if valueAt mid < key then lowerBound key valueAt rounds (mid + 1) last
        else lowerBound key valueAt rounds first mid
      else first

/-- The galloping loop: the last probe below the key, and the step that ended the loop. -/
def gallop (key : κ) (valueAt : Nat → κ) (lo distance : Nat) : Nat → Nat → Nat → Nat × Nat
  | 0, lastLess, step => (lastLess, step)
  | rounds + 1, lastLess, step =>
      if step < distance then
        let probe := lo + step
        if valueAt probe ≥ key then (lastLess, step)
        else
          gallop key valueAt lo distance rounds probe
            (if step > distance / 2 then distance else step * 2)
      else (lastLess, step)

def gallopLowerBound (lo hi : Nat) (key : κ) (valueAt : Nat → κ) : Nat :=
  if lo ≥ hi then lo
  else if valueAt lo ≥ key then lo
  else
    let distance := hi - lo
    let galloped := gallop key valueAt lo distance distance lo 1
    let first := galloped.1 + 1
    let last := if galloped.2 < distance then lo + galloped.2 + 1 else hi
    lowerBound key valueAt (last - first) first last

def gallopBound (key : κ) (valueAt : Nat → κ) (n : Nat) : Nat → Nat → Nat
  | 0, bound => bound
  | rounds + 1, bound =>
      if bound < n ∧ valueAt bound < key then gallopBound key valueAt n rounds (bound * 2) else bound

def gallopLowerBoundArray (n : Nat) (key : κ) (valueAt : Nat → κ) : Nat :=
  if n = 0 then 0
  else
    let bound := gallopBound key valueAt n n 1
    let loIdx := bound / 2
    let hiIdx := if bound < n then bound + 1 else n
    lowerBound key valueAt (hiIdx - loIdx) loIdx hiIdx

/-- The plain search: the first position of the whole range not below the key, or its end. -/
def plainLowerBound (n : Nat) (key : κ) (valueAt : Nat → κ) : Nat :=
  (List.range n).findIdx fun index => decide (key ≤ valueAt index)

structure Splits (key : κ) (valueAt : Nat → κ) (lo hi position : Nat) : Prop where
  ge : lo ≤ position
  le : position ≤ hi
  below : ∀ index, lo ≤ index → index < position → valueAt index < key
  above : ∀ index, position ≤ index → index < hi → key ≤ valueAt index

theorem Splits.lt_iff {key : κ} {valueAt : Nat → κ} {lo hi position index : Nat}
    (splits : Splits key valueAt lo hi position) (lower : lo ≤ index) (lt : index < hi) :
    index < position ↔ valueAt index < key :=
  ⟨splits.below index lower,
   fun less => not_le.mp fun past => (splits.above index past lt).not_gt less⟩

def Ascends (valueAt : Nat → κ) (lo hi : Nat) : Prop :=
  ∀ first second, lo ≤ first → first ≤ second → second < hi → valueAt first ≤ valueAt second

theorem ascends_getD {list : List κ} (sorted : list.Pairwise (· ≤ ·)) (lo : Nat) (past : κ) :
    Ascends (list.getD · past) lo list.length := by
  intro first second _ order lt
  dsimp only
  rw [List.getD_eq_getElem _ _ lt, List.getD_eq_getElem _ _ (order.trans_lt lt)]
  exact sorted.rel_get_of_le (a := ⟨first, _⟩) (b := ⟨second, lt⟩) order

section
variable {key : κ} {valueAt : Nat → κ}

theorem lowerBound_splits {rounds first last lo hi : Nat} (ascends : Ascends valueAt lo hi)
    (enough : last - first ≤ rounds) (lower : lo ≤ first) (order : first ≤ last)
    (upper : last ≤ hi) (below : ∀ index, lo ≤ index → index < first → valueAt index < key)
    (above : ∀ index, last ≤ index → index < hi → key ≤ valueAt index) :
    Splits key valueAt lo hi (lowerBound key valueAt rounds first last) := by
  fun_induction lowerBound key valueAt rounds first last with
  | case1 | case4 => exact ⟨lower, by omega, below, fun index after => above index (by omega)⟩
  | case2 rounds first last more mid less ih =>
    apply ih (by omega) (by omega) (by omega) upper _ above
    intro index from_lo before
    exact (ascends index _ from_lo (by omega) (by omega)).trans_lt less
  | case3 rounds first last more mid less ih =>
    apply ih (by omega) lower (by omega) (by omega) below
    intro index after lt
    exact (not_lt.mp less).trans (ascends _ index (by omega) after lt)

end

variable {key : κ} {valueAt : Nat → κ}

theorem gallop_spec (lo distance rounds : Nat) {lastLess step : Nat} (pos : 1 ≤ step)
    (enough : distance ≤ rounds + step) (lower : lo ≤ lastLess) (lt : lastLess < lo + distance)
    (past : lastLess < lo + step) (less : valueAt lastLess < key) :
    lo ≤ (gallop key valueAt lo distance rounds lastLess step).1 ∧
      (gallop key valueAt lo distance rounds lastLess step).1 < lo + distance ∧
      (gallop key valueAt lo distance rounds lastLess step).1 <
        lo + (gallop key valueAt lo distance rounds lastLess step).2 ∧
      valueAt (gallop key valueAt lo distance rounds lastLess step).1 < key ∧
      ((gallop key valueAt lo distance rounds lastLess step).2 < distance →
        key ≤ valueAt (lo + (gallop key valueAt lo distance rounds lastLess step).2)) := by
  fun_induction gallop key valueAt lo distance rounds lastLess step with
  | case1 => exact ⟨lower, lt, past, less, fun short => by dsimp only at short; omega⟩
  | case2 rounds lastLess step more probe met => exact ⟨lower, lt, past, less, fun _ => met⟩
  | case3 rounds lastLess step more probe met ih =>
    have grown : step < if step > distance / 2 then distance else step * 2 := by
      split_ifs <;> omega
    exact ih (by omega) (by omega) (by omega) (by omega) (by omega) (not_le.mp met)
  | case4 rounds lastLess step more =>
    exact ⟨lower, lt, past, less, fun short => absurd short more⟩

theorem gallopLowerBound_splits {lo hi : Nat} (order : lo ≤ hi) (ascends : Ascends valueAt lo hi) :
    Splits key valueAt lo hi (gallopLowerBound lo hi key valueAt) := by
  unfold gallopLowerBound
  split_ifs with empty met
  · exact ⟨le_rfl, order, fun index _ _ => by omega, fun index _ _ => by omega⟩
  · refine ⟨le_rfl, order, fun index _ _ => by omega, ?_⟩
    intro index after lt
    exact met.trans (ascends lo index le_rfl after lt)
  · obtain ⟨lower, lt, past, less, ended⟩ := gallop_spec lo (hi - lo) (hi - lo)
      (le_refl 1) (by omega) le_rfl (by omega) (by omega) (not_le.mp met)
    dsimp only
    generalize gallop key valueAt lo (hi - lo) (hi - lo) lo 1 = galloped at *
    have below : ∀ index, lo ≤ index → index < galloped.1 + 1 → valueAt index < key := by
      intro index from_lo before
      exact (ascends index _ from_lo (by omega) (by omega)).trans_lt less
    split_ifs with short
    all_goals
      apply lowerBound_splits ascends le_rfl (by omega) (by omega) (by omega) below
      intro index after lt
    · exact (ended short).trans (ascends _ index (by omega) (by omega) lt)
    · omega

/-- The doubled bound was passed by half of itself, and stops at the end or at the key. -/
theorem gallopBound_spec (key : κ) (valueAt : Nat → κ) (n rounds : Nat) {bound : Nat}
    (pos : 1 ≤ bound) (enough : n ≤ rounds + bound) (half : bound / 2 < n)
    (less : bound = 1 ∨ valueAt (bound / 2) < key) :
    (gallopBound key valueAt n rounds bound) / 2 < n ∧ 1 ≤ gallopBound key valueAt n rounds bound ∧
      (gallopBound key valueAt n rounds bound = 1 ∨
        valueAt (gallopBound key valueAt n rounds bound / 2) < key) ∧
      (gallopBound key valueAt n rounds bound < n →
        key ≤ valueAt (gallopBound key valueAt n rounds bound)) := by
  fun_induction gallopBound key valueAt n rounds bound with
  | case1 => exact ⟨half, pos, less, fun short => by omega⟩
  | case2 rounds bound more ih =>
    have back : bound * 2 / 2 = bound := by omega
    exact ih (by omega) (by omega) (back.symm ▸ more.1) (.inr (back.symm ▸ more.2))
  | case3 rounds bound more =>
    refine ⟨half, pos, less, fun short => ?_⟩
    exact not_lt.mp fun passed => more ⟨short, passed⟩

theorem gallopLowerBoundArray_splits {n : Nat} (ascends : Ascends valueAt 0 n) :
    Splits key valueAt 0 n (gallopLowerBoundArray n key valueAt) := by
  unfold gallopLowerBoundArray
  split_ifs with empty
  · exact ⟨le_rfl, Nat.zero_le _, fun index _ _ => by omega, fun index _ _ => by omega⟩
  obtain ⟨half, pos, less, ended⟩ := gallopBound_spec key valueAt n n
    (le_refl 1) (by omega) (by omega) (.inl rfl)
  dsimp only
  generalize gallopBound key valueAt n n 1 = bound at *
  have below : ∀ index, 0 ≤ index → index < bound / 2 → valueAt index < key := by
    intro index _ before
    rcases less with one | passed
    · omega
    · exact (ascends index _ (Nat.zero_le _) (by omega) half).trans_lt passed
  split_ifs with short
  all_goals
    apply lowerBound_splits ascends le_rfl (Nat.zero_le _) (by omega) (by omega) below
    intro index after lt
  · exact (ended short).trans (ascends _ index (Nat.zero_le _) (by omega) lt)
  · omega

theorem Splits.eq_plain {lo n position : Nat} (splits : Splits key valueAt lo n position)
    (early : lo ≤ plainLowerBound n key valueAt) : position = plainLowerBound n key valueAt := by
  unfold plainLowerBound at *
  apply le_antisymm
  · by_contra! late
    have inside := (late.trans_le splits.le).trans_eq List.length_range.symm
    have met := List.findIdx_getElem (w := inside)
    rw [List.getElem_range, decide_eq_true_iff] at met
    exact absurd met (not_le.mpr (splits.below _ early late))
  · by_contra! before
    have less := List.not_of_lt_findIdx before
    rw [List.getElem_range, decide_eq_false_iff_not] at less
    have inside := before.trans_le List.findIdx_le_length
    rw [List.length_range] at inside
    exact less (splits.above position le_rfl inside)

/-- Carried forward from any position not beyond the answer, both forms find what a plain search
of the whole range finds. -/
theorem gallopLowerBound_eq_plain (n start : Nat) (key : κ) (valueAt : Nat → κ)
    (ascends : Ascends valueAt 0 n) (early : start ≤ plainLowerBound n key valueAt) :
    gallopLowerBound start n key valueAt = plainLowerBound n key valueAt ∧
      start + gallopLowerBoundArray (n - start) key (fun offset => valueAt (start + offset)) =
        plainLowerBound n key valueAt := by
  have inside : start ≤ n := by
    simpa [plainLowerBound] using early.trans List.findIdx_le_length
  constructor
  · have rest : Ascends valueAt start n := fun first second _ => ascends first second (by omega)
    exact (gallopLowerBound_splits inside rest).eq_plain early
  · have rest : Ascends (fun offset => valueAt (start + offset)) 0 (n - start) :=
      fun first second _ order lt => ascends _ _ (by omega) (by omega) (by omega)
    have splits : Splits key _ 0 _ _ := gallopLowerBoundArray_splits rest
    refine Splits.eq_plain ⟨by omega, have := splits.le; by omega, ?_, ?_⟩ early
    · intro index from_start before
      have less := splits.below (index - start) (Nat.zero_le _) (by omega)
      rwa [Nat.add_sub_cancel' from_start] at less
    · intro index after lt
      have met := splits.above (index - start) (by omega) (by omega)
      rwa [Nat.add_sub_cancel' (by omega)] at met

theorem gallopLowerBound_eq_plain_squares :
    gallopLowerBound 2 9 40 (fun index => index * index) = 7 ∧
      2 + gallopLowerBoundArray 7 40 (fun offset => (2 + offset) * (2 + offset)) = 7 :=
  gallopLowerBound_eq_plain 9 2 40 (fun index => index * index)
    (fun _ _ _ order _ => Nat.mul_le_mul order order) (by decide)

end Luxir.Util.Gallop
