import Luxir.Lib.Folds
import Luxir.Lib.Words
import Mathlib.Tactic.Linarith
import Mathlib.Tactic.Ring

/-!
The fixed-point endpoint fit of the packed columns: a line through the first and the last value,
lowered until no value lies below it. The residuals above the lowered line are what is stored.
-/

namespace Luxir.Codec.LinearFit
open Lib.Words Lib.Folds List Int

structure Plan where
  intercept : Int64
  scaledSlope : Int64
  bits : Nat
deriving DecidableEq, Repr

def maxPackedBits : Nat := 57

/-- The 128-bit sum is cut to a word. -/
def predict (intercept scaledSlope : Int64) (rank slopeShift : Nat) : Int64 :=
  Int64.ofInt (intercept.toInt + ((rank : Int) * scaledSlope.toInt) >>> slopeShift)

def residual (plan : Plan) (rank value slopeShift : Nat) : UInt64 :=
  UInt64.ofInt ((value : Int) - (predict plan.intercept plan.scaledSlope rank slopeShift).toInt)

def fitsInt64 (value : Int) : Bool := -2 ^ 63 ≤ value ∧ value ≤ 2 ^ 63 - 1

/-- Rounds to the nearest slope; the quotient itself is truncated. -/
def endpointSlope (first last : Int) (count slopeShift : Nat) : Option Int64 :=
  if count = 1 then some 0
  else
    let denominator : Int := count - 1
    let numerator := (last - first) * 2 ^ slopeShift
    let rounded := numerator + if numerator ≥ 0 then denominator.tdiv 2 else (-denominator).tdiv 2
    let scaledSlope := rounded.tdiv denominator
    if fitsInt64 scaledSlope then some (Int64.ofInt scaledSlope) else none

def finishPlan (intercept scaledSlope : Int64) (minError maxError : Int) : Option Plan :=
  let loweredIntercept := intercept.toInt + minError
  let errorRange := maxError - minError
  if !fitsInt64 loweredIntercept ∨ errorRange < 0 ∨ errorRange > 2 ^ 64 - 1 then none
  else
    let bits := bitWidth errorRange.toNat
    if bits > maxPackedBits then none
    else some ⟨Int64.ofInt loweredIntercept, scaledSlope, bits⟩

def widenError (intercept scaledSlope : Int64) (slopeShift : Nat) (range : Int × Int)
    (entry : Nat × Nat) : Int × Int :=
  let error := (entry.1 : Int) - (predict intercept scaledSlope entry.2 slopeShift).toInt
  (min range.1 error, max range.2 error)

def evaluate (values : List Nat) (intercept scaledSlope : Int64) (slopeShift : Nat) : Option Plan :=
  let range := values.zipIdx.foldl (widenError intercept scaledSlope slopeShift)
    (2 ^ 127 - 1, -2 ^ 127)
  finishPlan intercept scaledSlope range.1 range.2

def planLinearFit (values : List Nat) (slopeShift : Nat) : Option Plan :=
  let first := (values.headD 0 : Int)
  let last := (values.getLastD 0 : Int)
  match endpointSlope first last values.length slopeShift with
  | none => none
  | some scaledSlope => evaluate values (Int64.ofInt first) scaledSlope slopeShift

def line (intercept scaledSlope : Int64) (slopeShift rank : Nat) : Int :=
  intercept.toInt + ((rank : Int) * scaledSlope.toInt) >>> slopeShift

variable {values : List Nat} {rank : Nat} {scaledSlope intercept : Int64} {plan : Plan}
  {entries : List (Nat × Nat)} {first : Int} {count slopeShift : Nat}
  {last : Int}

theorem predict_eq {bound : Int}
    (small : |line intercept scaledSlope slopeShift rank| ≤ bound) (word : bound < 2 ^ 63) :
    (predict intercept scaledSlope rank slopeShift).toInt =
      line intercept scaledSlope slopeShift rank := by
  obtain ⟨lower, upper⟩ := abs_le.mp small
  exact Int64.toInt_ofInt_of_le (by rw [← line]; omega) (by rw [← line]; omega)

section
variable (intercept scaledSlope : Int64) (slopeShift : Nat)

theorem widenError_mem {entry : Nat × Nat} (mem : entry ∈ entries) (range : Int × Int) :
    (entries.foldl (widenError intercept scaledSlope slopeShift) range).1 ≤
        entry.1 - (predict intercept scaledSlope entry.2 slopeShift).toInt ∧
      entry.1 - (predict intercept scaledSlope entry.2 slopeShift).toInt ≤
        (entries.foldl (widenError intercept scaledSlope slopeShift) range).2 := by
  apply (foldl_covers (fun after before => after.1 ≤ before.1 ∧ before.2 ≤ after.2)
    (fun range entry =>
      range.1 ≤ entry.1 - (predict intercept scaledSlope entry.2 slopeShift).toInt ∧
        entry.1 - (predict intercept scaledSlope entry.2 slopeShift).toInt ≤ range.2)
    (fun _ => ⟨le_rfl, le_rfl⟩)
    (fun later early => ⟨later.1.trans early.1, early.2.trans later.2⟩)
    (fun wider covered => ⟨wider.1.trans covered.1, covered.2.trans wider.2⟩) _
    entries range).2 entry mem
  intro range entry
  exact ⟨⟨min_le_left _ _, le_max_left _ _⟩, ⟨min_le_right _ _, le_max_right _ _⟩⟩

theorem widenError_within {range : Int × Int} (low high : Int) (errors : ∀ entry ∈ entries,
      low ≤ entry.1 - (predict intercept scaledSlope entry.2 slopeShift).toInt ∧
        entry.1 - (predict intercept scaledSlope entry.2 slopeShift).toInt ≤ high)
    (start : low ≤ range.1 ∧ range.2 ≤ high) :
    low ≤ (entries.foldl (widenError intercept scaledSlope slopeShift) range).1 ∧
      (entries.foldl (widenError intercept scaledSlope slopeShift) range).2 ≤ high := by
  induction entries generalizing range with
  | nil => exact start
  | cons entry rest ih =>
    obtain ⟨lower, upper⟩ := errors entry mem_cons_self
    exact ih (fun other mem => errors other (mem_cons_of_mem _ mem))
      ⟨le_min start.1 lower, max_le start.2 upper⟩

end

/-- A plan stores every value as a residual of its width above its line. -/
structure Fits (plan : Plan) (values : List Nat) (slopeShift : Nat) : Prop where
  narrow : plan.bits ≤ maxPackedBits
  near : ∀ rank < values.length, |line plan.intercept plan.scaledSlope slopeShift rank| ≤ 2 ^ 62
  above : ∀ rank (inside : rank < values.length),
    line plan.intercept plan.scaledSlope slopeShift rank ≤ values[rank]
  within : ∀ rank (inside : rank < values.length),
    (values[rank] : Int) < line plan.intercept plan.scaledSlope slopeShift rank + 2 ^ plan.bits

theorem fitsInt64_iff (value : Int) :
    fitsInt64 value = true ↔ -2 ^ 63 ≤ value ∧ value ≤ 2 ^ 63 - 1 := by
  simp [fitsInt64]

theorem finishPlan_eq {minError maxError : Int}
    (planned : finishPlan intercept scaledSlope minError maxError = some plan) :
    plan.intercept.toInt = intercept.toInt + minError ∧ plan.scaledSlope = scaledSlope ∧
      plan.bits ≤ maxPackedBits ∧ maxError - minError < 2 ^ plan.bits := by
  unfold finishPlan at planned
  dsimp only at planned
  split_ifs at planned with bad wide
  cases planned
  simp only [not_or, not_lt, Bool.not_eq_true, Bool.not_eq_false'] at bad
  obtain ⟨lower, upper⟩ := (fitsInt64_iff _).mp bad.1
  have spread := lt_two_pow_bitWidth (maxError - minError).toNat
  refine ⟨Int64.toInt_ofInt_of_le lower (by omega), rfl, not_lt.mp wide, ?_⟩
  zify at spread
  dsimp only
  omega

theorem line_lowered {lowered : Int64} {minError : Int} (slopeShift : Nat)
    (moved : lowered.toInt = intercept.toInt + minError) (rank : Nat) :
    line lowered scaledSlope slopeShift rank =
      line intercept scaledSlope slopeShift rank + minError := by
  unfold line
  rw [moved]
  ring

def errors (values : List Nat) (intercept scaledSlope : Int64) (slopeShift : Nat) : Int × Int :=
  values.zipIdx.foldl (widenError intercept scaledSlope slopeShift) (2 ^ 127 - 1, -2 ^ 127)

section
variable (small : ∀ value ∈ values, value < 2 ^ 58)
  (close : ∀ rank < values.length, |line intercept scaledSlope slopeShift rank| ≤ 2 ^ 60)
include close

theorem errors_mem (rank : Nat) (lt : rank < values.length) :
    (errors values intercept scaledSlope slopeShift).1 ≤
        values[rank] - line intercept scaledSlope slopeShift rank ∧
      values[rank] - line intercept scaledSlope slopeShift rank ≤
        (errors values intercept scaledSlope slopeShift).2 := by
  have range := widenError_mem intercept scaledSlope slopeShift
    (mk_mem_zipIdx_iff_getElem?.mpr (getElem?_eq_getElem lt))
    (2 ^ 127 - 1, -2 ^ 127)
  rwa [predict_eq (close rank lt) (by norm_num)] at range

theorem errors_within {low high : Int} (least : low ≤ 2 ^ 127 - 1) (most : -2 ^ 127 ≤ high)
    (all : ∀ rank (lt : rank < values.length),
      low ≤ values[rank] - line intercept scaledSlope slopeShift rank ∧
        values[rank] - line intercept scaledSlope slopeShift rank ≤ high) :
    low ≤ (errors values intercept scaledSlope slopeShift).1 ∧
      (errors values intercept scaledSlope slopeShift).2 ≤ high := by
  refine widenError_within intercept scaledSlope slopeShift low high ?_ ⟨least, most⟩
  rintro ⟨value, rank⟩ mem
  obtain ⟨lt, rfl⟩ := List.getElem?_eq_some_iff.mp (mk_mem_zipIdx_iff_getElem?.mp mem)
  rw [predict_eq (close rank lt) (by norm_num)]
  exact all rank lt

include small

theorem error_bounds (rank : Nat) (lt : rank < values.length) :
    -2 ^ 60 ≤ values[rank] - line intercept scaledSlope slopeShift rank ∧
      values[rank] - line intercept scaledSlope slopeShift rank ≤ 2 ^ 61 := by
  have bound := small _ (getElem_mem lt)
  obtain ⟨lower, upper⟩ := abs_le.mp (close rank lt)
  omega

theorem evaluate_fits (planned : evaluate values intercept scaledSlope slopeShift = some plan) :
    Fits plan values slopeShift := by
  obtain ⟨moved, slope, narrow, spread⟩ := finishPlan_eq planned
  have error := errors_mem close
  have lowest := (errors_within close (by norm_num) (by norm_num) (error_bounds small close)).1
  rw [← errors] at moved spread
  generalize errors values intercept scaledSlope slopeShift = range at *
  refine ⟨narrow, ?_, ?_, ?_⟩
  all_goals intro rank lt
  · obtain ⟨lower, upper⟩ := abs_le.mp (close rank lt)
    have bound := small _ (getElem_mem lt)
    have most := (error rank lt).1
    rw [slope, line_lowered slopeShift moved]
    exact abs_le.mpr ⟨by omega, by omega⟩
  · have least := (error rank lt).1
    rw [slope, line_lowered slopeShift moved]
    omega
  · have most := (error rank lt).2
    rw [slope, line_lowered slopeShift moved]
    omega

/-- A line that stays near zero gives a plan if no two errors lie 57 bits apart. -/
theorem evaluate_exists (ne : values ≠ [])
    (spread : ∀ rank other (lt : rank < values.length) (within : other < values.length),
      values[rank] - line intercept scaledSlope slopeShift rank -
        (values[other] - line intercept scaledSlope slopeShift other) < 2 ^ 57) :
    ∃ plan, evaluate values intercept scaledSlope slopeShift = some plan := by
  have bounded := error_bounds small close
  have pos := length_pos_iff.mpr ne
  obtain ⟨lowest, highest⟩ := errors_within close (by norm_num) (by norm_num) bounded
  obtain ⟨least, most⟩ := errors_mem close 0 pos
  -- every error lies within 57 bits of every other, so of the greatest, so does the least
  have below : ∀ rank (lt : rank < values.length),
      (errors values intercept scaledSlope slopeShift).2 ≤
        values[rank] - line intercept scaledSlope slopeShift rank + (2 ^ 57 - 1) := by
    intro rank lt
    have here := bounded rank lt
    refine (errors_within close (show -2 ^ 60 ≤ _ by norm_num) (by omega) fun other begun => ?_).2
    have apart := spread other rank begun lt
    exact ⟨(bounded other begun).1, by omega⟩
  have range : (errors values intercept scaledSlope slopeShift).2 - (2 ^ 57 - 1) ≤
      (errors values intercept scaledSlope slopeShift).1 := by
    refine (errors_within close (by omega) (show _ ≤ 2 ^ 61 by norm_num) fun rank lt => ?_).1
    have here := below rank lt
    exact ⟨by omega, (bounded rank lt).2⟩
  have start : line intercept scaledSlope slopeShift 0 = intercept.toInt := by
    simp [line]
  have origin := abs_le.mp (close 0 pos)
  unfold evaluate
  rw [← errors]
  generalize errors values intercept scaledSlope slopeShift = errors at *
  have fits : fitsInt64 (intercept.toInt + errors.1) = true := by
    rw [fitsInt64_iff]
    omega
  have bits : bitWidth (errors.2 - errors.1).toNat ≤ maxPackedBits :=
    bitWidth_le.mpr (by unfold maxPackedBits; omega)
  unfold finishPlan
  rw [if_neg (by rw [fits]; simp; omega), if_neg (not_lt.mpr bits)]
  exact ⟨_, rfl⟩

end

theorem line_level (intercept : Int64) (slopeShift rank : Nat) :
    line intercept 0 slopeShift rank = intercept.toInt := by
  simp [line]

theorem evaluate_level (intercept : Int64) (slopeShift : Nat) (ne : values ≠ [])
    (near : |intercept.toInt| ≤ 2 ^ 60) (small : ∀ value ∈ values, value < 2 ^ 57) :
    ∃ plan, evaluate values intercept 0 slopeShift = some plan := by
  refine evaluate_exists (fun value mem => (small value mem).trans (by norm_num)) ?_ ne ?_
  · intro rank lt
    rwa [line_level]
  · intro rank other lt within
    have bound := small _ (getElem_mem lt)
    rw [line_level, line_level]
    omega

theorem endpointSlope_span (pos : 0 < count)
    (found : endpointSlope first last count slopeShift = some scaledSlope) :
    scaledSlope.toInt.natAbs * (count - 1) ≤
      (last - first).natAbs * 2 ^ slopeShift + (count - 1) / 2 := by
  have denominator : (count : Int) - 1 = ((count - 1 : Nat) : Int) := by omega
  have half : (((count - 1 : Nat) : Int).tdiv 2).natAbs = (count - 1) / 2 ∧
      ((-((count - 1 : Nat) : Int)).tdiv 2).natAbs = (count - 1) / 2 := by
    rw [natAbs_tdiv, natAbs_tdiv, natAbs_neg]
    exact ⟨rfl, rfl⟩
  have span : ((last - first) * 2 ^ slopeShift).natAbs =
      (last - first).natAbs * 2 ^ slopeShift := by
    rw [natAbs_mul, natAbs_pow]
    rfl
  have quotient : ∀ rounding : Int, rounding.natAbs = (count - 1) / 2 →
      (((last - first) * 2 ^ slopeShift + rounding).tdiv ((count - 1 : Nat) : Int)).natAbs *
        (count - 1) ≤ (last - first).natAbs * 2 ^ slopeShift + (count - 1) / 2 := by
    intro rounding size
    rw [natAbs_tdiv, natAbs_natCast]
    have total := natAbs_add_le ((last - first) * 2 ^ slopeShift) rounding
    rw [span, size] at total
    exact (Nat.div_mul_le_self _ _).trans total
  unfold endpointSlope at found
  dsimp only at found
  rw [denominator] at found
  split_ifs at found with single sign fits fits
  · cases found
    simp [single]
  all_goals
    cases found
    obtain ⟨lower, upper⟩ := (fitsInt64_iff _).mp fits
    rw [Int64.toInt_ofInt_of_le lower (by omega)]
  · exact quotient _ half.1
  · exact quotient _ half.2

/-- Over a block no longer than the scale, the line stays within one of the end points' span. -/
theorem endpointSlope_close (found : endpointSlope first last count slopeShift = some scaledSlope)
    (short : count ≤ 2 ^ slopeShift) (lt : rank < count) :
    |((rank : Int) * scaledSlope.toInt) >>> slopeShift| ≤ |last - first| + 1 := by
  have span := endpointSlope_span (by omega) found
  have scale := Nat.two_pow_pos slopeShift
  have product : ((rank : Int) * scaledSlope.toInt).natAbs <
      ((last - first).natAbs + 1) * 2 ^ slopeShift := by
    have reach : rank * scaledSlope.toInt.natAbs ≤ scaledSlope.toInt.natAbs * (count - 1) := by
      rw [mul_comm]
      exact Nat.mul_le_mul_left _ (by omega)
    rw [Int.natAbs_mul, Int.natAbs_natCast, add_mul, one_mul]
    omega
  have unit : (0 : Int) < ((2 ^ slopeShift : Nat) : Int) := by exact_mod_cast scale
  have bound : |(rank : Int) * scaledSlope.toInt| <
      (|last - first| + 1) * ((2 ^ slopeShift : Nat) : Int) := by
    rw [Int.abs_eq_natAbs, Int.abs_eq_natAbs]
    exact_mod_cast product
  obtain ⟨lower, upper⟩ := abs_lt.mp bound
  rw [Int.shiftRight_eq_div_pow]
  refine abs_le.mpr ⟨?_, (Int.ediv_lt_of_lt_mul unit upper).le⟩
  apply Int.le_ediv_of_mul_le unit
  rw [Int.neg_mul]
  exact lower.le

theorem planLinearFit_fits (small : ∀ value ∈ values, value < 2 ^ 57)
    (short : values.length ≤ 2 ^ slopeShift)
    (planned : planLinearFit values slopeShift = some plan) : Fits plan values slopeShift := by
  have ends : values.headD 0 < 2 ^ 57 ∧ values.getLastD 0 < 2 ^ 57 := by
    cases values with
    | nil => decide
    | cons first =>
      refine ⟨small first mem_cons_self, small _ ?_⟩
      rw [getLastD_eq_getLast?, getLast?_eq_some_getLast (cons_ne_nil _ _)]
      exact getLast_mem _
  have start : (Int64.ofInt (values.headD 0 : Int)).toInt = values.headD 0 :=
    Int64.toInt_ofInt_of_le (by omega) (by omega)
  unfold planLinearFit at planned
  dsimp only at planned
  split at planned
  · cases planned
  next scaledSlope found =>
  refine evaluate_fits (fun value mem => (small value mem).trans (by norm_num)) ?_ planned
  intro rank lt
  have close := endpointSlope_close found short lt
  have far : |((values.getLastD 0 : Nat) : Int) - (values.headD 0 : Nat)| ≤ 2 ^ 57 :=
    abs_le.mpr ⟨by omega, by omega⟩
  obtain ⟨lower, upper⟩ := abs_le.mp (close.trans (add_le_add_left far 1))
  unfold line
  rw [start]
  exact abs_le.mpr ⟨by omega, by omega⟩

section

theorem endpointSlope_nonneg (pos : 0 < count) (ordered : first ≤ last)
    (found : endpointSlope first last count slopeShift = some scaledSlope) :
    0 ≤ scaledSlope.toInt := by
  have numerator : 0 ≤ (last - first) * 2 ^ slopeShift :=
    mul_nonneg (by omega) (pow_nonneg (by norm_num) _)
  have half : 0 ≤ ((count : Int) - 1).tdiv 2 := Int.tdiv_nonneg (by omega) (by norm_num)
  unfold endpointSlope at found
  dsimp only at found
  split_ifs at found with single fits
  · cases found
    decide
  · cases found
    obtain ⟨lower, upper⟩ := (fitsInt64_iff _).mp fits
    rw [Int64.toInt_ofInt_of_le lower (by omega)]
    exact Int.tdiv_nonneg (by omega) (by omega)

/-- A slope that does not fall and spans the end points, up to rounding. -/
structure Climbs (scaledSlope : Int64) (span count slopeShift : Nat) : Prop where
  nonneg : 0 ≤ scaledSlope.toInt
  reach : scaledSlope.toInt * ((count : Int) - 1) ≤ span * 2 ^ slopeShift + (count - 1) / 2

theorem endpointSlope_climbs {first last count : Nat} (slopeShift : Nat) (pos : 0 < count)
    (ordered : first ≤ last) :
    Climbs ((endpointSlope first last count slopeShift).getD 0) (last - first) count
      slopeShift := by
  cases found : endpointSlope first last count slopeShift with
  | none =>
    refine ⟨le_rfl, ?_⟩
    have scaled : (0 : Int) ≤ (last - first : Nat) * 2 ^ slopeShift := by positivity
    have half : (0 : Int) ≤ ((count : Int) - 1) / 2 := by omega
    show (0 : Int) * _ ≤ _
    rw [zero_mul]
    exact add_nonneg scaled half
  | some =>
    have nonneg := endpointSlope_nonneg pos (by omega) found
    have span := endpointSlope_span pos found
    refine ⟨nonneg, ?_⟩
    rw [Option.getD_some]
    have size : ((last : Int) - first).natAbs = last - first := by omega
    rw [size] at span
    zify [ordered, pos] at span
    rw [abs_of_nonneg nonneg] at span
    rw [Nat.cast_sub ordered]
    exact span

variable {span count slopeShift : Nat} (climbs : Climbs scaledSlope span count slopeShift)
include climbs

theorem Climbs.mono {other : Nat} (ordered : rank ≤ other) :
    ((rank : Int) * scaledSlope.toInt) >>> slopeShift ≤
      ((other : Int) * scaledSlope.toInt) >>> slopeShift := by
  rw [Int.shiftRight_eq_div_pow, Int.shiftRight_eq_div_pow]
  apply Int.ediv_le_ediv (by positivity)
  exact mul_le_mul_of_nonneg_right (by exact_mod_cast ordered) climbs.nonneg

theorem Climbs.start_le (rank : Nat) : 0 ≤ ((rank : Int) * scaledSlope.toInt) >>> slopeShift := by
  have least := climbs.mono (Nat.zero_le rank)
  simpa using least

theorem Climbs.le_reach (lt : rank < count) :
    ((rank : Int) * scaledSlope.toInt) >>> slopeShift ≤ span + (count - 1) / 2 := by
  have most := climbs.mono (Nat.le_sub_one_of_lt lt)
  refine most.trans ?_
  have cast : ((count - 1 : Nat) : Int) = (count : Int) - 1 := by omega
  have scale : (1 : Int) ≤ ((2 ^ slopeShift : Nat) : Int) := by exact_mod_cast Nat.one_le_two_pow
  have half : (0 : Int) ≤ ((count : Int) - 1) / 2 := by omega
  rw [Int.shiftRight_eq_div_pow, cast]
  apply Int.ediv_le_of_le_mul (by omega)
  calc ((count : Int) - 1) * scaledSlope.toInt
      = scaledSlope.toInt * ((count : Int) - 1) := mul_comm _ _
    _ ≤ span * 2 ^ slopeShift + ((count : Int) - 1) / 2 := climbs.reach
    _ ≤ span * 2 ^ slopeShift + ((count : Int) - 1) / 2 * ((2 ^ slopeShift : Nat) : Int) :=
        add_le_add_right (le_mul_of_one_le_right half scale) _
    _ = (span + ((count : Int) - 1) / 2) * ((2 ^ slopeShift : Nat) : Int) := by push_cast; ring

end

theorem evaluate_rising (ne : values ≠ [])
    (rising : values.Pairwise (· ≤ ·)) (bound : values.getLastD 0 + values.length ≤ 2 ^ 57) :
    ∃ plan, evaluate values (Int64.ofInt (values.headD 0 : Int))
        ((endpointSlope (values.headD 0 : Nat) (values.getLastD 0 : Nat) values.length
          slopeShift).getD 0) slopeShift = some plan ∧ Fits plan values slopeShift := by
  have pos := length_pos_iff.mpr ne
  have front : values.headD 0 = values[0] := by
    rw [headD_eq_head?_getD, head?_eq_getElem?, getElem?_eq_getElem pos, Option.getD_some]
  have back : values.getLastD 0 = values[values.length - 1] := by
    rw [getLastD_eq_getLast?, getLast?_eq_getElem?, getElem?_eq_getElem (by omega),
      Option.getD_some]
  have ordered : ∀ rank other (later : rank ≤ other) (lt : other < values.length),
      values[rank] ≤ values[other] := by
    intro rank other later lt
    rcases later.eq_or_lt with rfl | before
    · exact le_rfl
    · exact pairwise_iff_getElem.mp rising rank other _ _ before
  have ends := ordered 0 (values.length - 1) (by omega) (by omega)
  rw [front, back]
  have climbs := endpointSlope_climbs slopeShift pos ends
  generalize (endpointSlope (values[0] : Nat) (values[values.length - 1] : Nat) values.length
    slopeShift).getD 0 = scaledSlope at climbs ⊢
  have start : (Int64.ofInt (values[0] : Int)).toInt = values[0] :=
    Int64.toInt_ofInt_of_le (by omega) (by omega)
  have small : ∀ value ∈ values, value < 2 ^ 57 := by
    intro value mem
    obtain ⟨rank, lt, rfl⟩ := getElem_of_mem mem
    have most := ordered rank (values.length - 1) (by omega) (by omega)
    omega
  have near : ∀ rank < values.length,
      |line (Int64.ofInt (values[0] : Int)) scaledSlope slopeShift rank| ≤ 2 ^ 60 := by
    intro rank lt
    have least := climbs.start_le rank
    have most := climbs.le_reach lt
    unfold line
    rw [start]
    exact abs_le.mpr ⟨by omega, by omega⟩
  have wider : ∀ value ∈ values, value < 2 ^ 58 :=
    fun value mem => (small value mem).trans (by norm_num)
  obtain ⟨plan, found⟩ := evaluate_exists wider near ne (by
    intro rank other lt within
    unfold line
    rcases le_total other rank with before | after
    · -- the line does not fall, so the values' own distance is the most
      have slope := climbs.mono before
      have upper := small _ (getElem_mem lt)
      omega
    · -- the values do not fall, so the line's own rise is the most
      have values_rise := ordered rank other after within
      have least := climbs.start_le rank
      have most := climbs.le_reach within
      omega)
  exact ⟨plan, found, evaluate_fits wider near found⟩

theorem residual_eq (fits : Fits plan values slopeShift)
    (lt : rank < values.length) : ((residual plan rank values[rank] slopeShift).toNat : Int) =
      values[rank] - line plan.intercept plan.scaledSlope slopeShift rank ∧
    (residual plan rank values[rank] slopeShift).toNat < 2 ^ plan.bits := by
  have above := fits.above rank lt
  have within := fits.within rank lt
  have narrow : (2 : Int) ^ plan.bits ≤ 2 ^ 57 := pow_le_pow_right₀ (by norm_num) fits.narrow
  have exactly : (residual plan rank values[rank] slopeShift).toNat =
      (values[rank] - line plan.intercept plan.scaledSlope slopeShift rank).toNat := by
    unfold residual
    rw [predict_eq (fits.near rank lt) (by norm_num)]
    exact toNat_ofInt (by omega) (by omega)
  rw [exactly]
  refine ⟨by omega, ?_⟩
  zify
  omega

end Luxir.Codec.LinearFit
