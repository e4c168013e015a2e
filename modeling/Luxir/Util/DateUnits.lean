/-!
The units of date fields. A field stores whole units since the epoch, and a query asks for a window
of instants. The window is turned into units by rounding its edges outwards; edges beyond the stored
values saturate.
-/

namespace Luxir.Util.DateUnits

inductive DateUnit where
  | millis
  | nanos
deriving DecidableEq, Repr

/-- Each edge is in milliseconds with a remainder in nanoseconds. -/
structure DateRange where
  lo : Int64
  hiExclusive : Int64
  loNanos : Int32
  hiNanos : Int32
deriving DecidableEq, Repr

def kMinEpochMs : Int := -1096193779200000

def kMaxEpochMs : Int := 971890963199999

def dateUnitNanos : DateUnit → Int
  | .millis => 1000000
  | .nanos => 1

/-- The floor or the ceiling, from a division that truncates. -/
def toUnits128 (millis : Int64) (nanos : Int32) (unitNanos : Int) (roundUp : Bool) : Int :=
  let total := millis.toInt * 1000000 + nanos.toInt
  let quotient := total.tdiv unitNanos
  let remainder := total.tmod unitNanos
  let quotient := if remainder < 0 ∧ !roundUp then quotient - 1 else quotient
  if remainder > 0 ∧ roundUp then quotient + 1 else quotient

def clampDateUnits (value : Int) : Int64 :=
  Int64.ofInt (max (-9223372036854775808) (min value 9223372036854775807))

def dateUnitWindow (range : DateRange) (unit : DateUnit) : Int64 × Int64 :=
  let unitNanos := dateUnitNanos unit
  (clampDateUnits (toUnits128 range.lo range.loNanos unitNanos false),
    clampDateUnits (toUnits128 range.hiExclusive range.hiNanos unitNanos true))

/-- The instants of a range, in nanoseconds. -/
def DateRange.Contains (range : DateRange) (instant : Int) : Prop :=
  range.lo.toInt * 1000000 + range.loNanos.toInt ≤ instant ∧
    instant < range.hiExclusive.toInt * 1000000 + range.hiNanos.toInt

section
variable (millis : Int64) (nanos : Int32) {unitNanos : Int} (pos : 0 < unitNanos)
include pos

theorem ediv_eq_tdiv (total : Int) : total / unitNanos =
    if total.tmod unitNanos < 0 then total.tdiv unitNanos - 1 else total.tdiv unitNanos := by
  have whole := Int.mul_tdiv_add_tmod total unitNanos
  have less := Int.tmod_lt_of_pos total pos
  have more := Int.lt_tmod_of_pos total pos
  split
  · have unique := (Int.ediv_emod_unique (a := total) (r := total.tmod unitNanos + unitNanos)
      (q := total.tdiv unitNanos - 1) pos).mpr
    rw [Int.mul_sub] at unique
    exact (unique ⟨by omega, by omega, by omega⟩).1
  · exact ((Int.ediv_emod_unique pos).mpr ⟨by omega, by omega, less⟩).1

theorem toUnits_floor : toUnits128 millis nanos unitNanos false =
    (millis.toInt * 1000000 + nanos.toInt) / unitNanos := by
  rw [ediv_eq_tdiv pos]
  simp [toUnits128]

theorem toUnits_ceiling : toUnits128 millis nanos unitNanos true =
    -(-(millis.toInt * 1000000 + nanos.toInt) / unitNanos) := by
  rw [ediv_eq_tdiv pos, Int.neg_tmod, Int.neg_tdiv]
  simp only [toUnits128, Int.neg_lt_zero_iff, Bool.not_true, Bool.false_eq_true, and_false,
    and_true, if_false, gt_iff_lt]
  split <;> omega

end

theorem toInt_clamp (value : Int) : (clampDateUnits value).toInt =
    max (-9223372036854775808) (min value 9223372036854775807) := by
  apply Int64.toInt_ofInt_of_le <;> omega

/-- A value is in the window of a query exactly if one of its instants is in the range. Columns do
not take the greatest value, where the window saturates. -/
theorem window_matches (range : DateRange) (unit : DateUnit) (value : Int64)
    (below : value.toInt < 9223372036854775807) (window : ∃ instant, range.Contains instant) :
    (dateUnitWindow range unit).1 ≤ value ∧ value < (dateUnitWindow range unit).2 ↔
      ∃ instant, range.Contains instant ∧ value.toInt * dateUnitNanos unit ≤ instant ∧
        instant < (value.toInt + 1) * dateUnitNanos unit := by
  have pos : 0 < dateUnitNanos unit := by cases unit <;> decide
  have least := value.le_toInt
  unfold dateUnitWindow DateRange.Contains at *
  rw [Int64.le_iff_toInt_le, Int64.lt_iff_toInt_lt, toInt_clamp, toInt_clamp,
    toUnits_floor _ _ pos, toUnits_ceiling _ _ pos]
  generalize range.lo.toInt * 1000000 + range.loNanos.toInt = start at *
  generalize range.hiExclusive.toInt * 1000000 + range.hiNanos.toInt = stop at *
  have first : start / dateUnitNanos unit < value.toInt + 1 ↔
      start < (value.toInt + 1) * dateUnitNanos unit := Int.ediv_lt_iff_lt_mul pos
  have second : -stop / dateUnitNanos unit < -value.toInt ↔
      -stop < -value.toInt * dateUnitNanos unit := Int.ediv_lt_iff_lt_mul pos
  have next : (value.toInt + 1) * dateUnitNanos unit =
      value.toInt * dateUnitNanos unit + dateUnitNanos unit := by
    rw [Int.add_mul, Int.one_mul]
  rw [Int.neg_mul] at second
  obtain ⟨witness, _⟩ := window
  constructor
  · intro bounds
    exact ⟨max start (value.toInt * dateUnitNanos unit), by omega⟩
  · rintro ⟨instant, _, _⟩
    omega

theorem window_matches_second : (dateUnitWindow ⟨0, 1000, 0, 0⟩ .millis).1 ≤ 999 ∧
      999 < (dateUnitWindow ⟨0, 1000, 0, 0⟩ .millis).2 :=
  (window_matches ⟨0, 1000, 0, 0⟩ .millis 999 (by decide) ⟨0, by decide, by decide⟩).mpr
    ⟨999000000, ⟨by decide, by decide⟩, by decide, by decide⟩

end Luxir.Util.DateUnits
