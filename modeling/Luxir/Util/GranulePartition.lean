import Luxir.Util.DateRounding
import Mathlib.Data.Int.ConditionallyCompleteOrder
import Mathlib.Tactic.IntervalCases

/-!
Calendar granules at a fixed offset. The granules of a unit are numbered, each starts where the one
before ends, and rounding an instant gives the one that holds it.
-/

namespace Luxir.Util.GranulePartition
open DateUnits DateRounding

/-- Months are counted from January of the year zero. -/
def monthDays (month : Int) : Int :=
  let year := month / 12
  if month % 12 = 1 then
    if year % 4 = 0 ∧ (year % 100 ≠ 0 ∨ year % 400 = 0) then 29 else 28
  else if month % 12 = 3 ∨ month % 12 = 5 ∨ month % 12 = 8 ∨ month % 12 = 10 then 30
  else 31

def monthStart (month : Int) : Int := firstOfMonth (month / 12) (month % 12 + 1)

def granuleStart (number : Int) : DateMathUnit → Int
  | .millisecond => number
  | .second => number * 1000
  | .minute => number * 60000
  | .hour => number * 3600000
  | .day => number * kMsPerDay
  -- A Monday: the fifth of January, 1970 was one.
  | .week => (7 * number + 4) * kMsPerDay
  | .month => monthStart number * kMsPerDay
  | .year => monthStart (number * 12) * kMsPerDay

theorem monthStart_succ (month : Int) :
    monthStart (month + 1) = monthStart month + monthDays month := by
  obtain ⟨year, rest, rfl, low, high⟩ : ∃ year rest, month = 12 * year + rest ∧ 0 ≤ rest ∧
      rest < 12 := ⟨month / 12, month % 12, by omega, by omega, by omega⟩
  have sameYear : (12 * year + rest) / 12 = year := by omega
  have sameMonth : (12 * year + rest) % 12 = rest := by omega
  simp only [monthStart, monthDays, sameYear, sameMonth, firstOfMonth]
  by_cases last : rest = 11
  · have nextYear : (12 * year + rest + 1) / 12 = year + 1 := by omega
    have nextMonth : (12 * year + rest + 1) % 12 = 0 := by omega
    rw [nextYear, nextMonth]
    simp [last]
    omega
  · have nextYear : (12 * year + rest + 1) / 12 = year := by omega
    have nextMonth : (12 * year + rest + 1) % 12 = rest + 1 := by omega
    rw [nextYear, nextMonth]
    interval_cases rest <;> simp at last ⊢
    case neg.«1» => split_ifs <;> omega
    all_goals omega

theorem monthStart_strictMono : StrictMono monthStart := by
  apply strictMono_int_of_lt_succ
  intro month
  rw [monthStart_succ]
  simp only [monthDays]
  split_ifs <;> omega

theorem monthStart_eq {year month : Int} (low : 1 ≤ month) (high : month ≤ 12) :
    monthStart (year * 12 + (month - 1)) = firstOfMonth year month := by
  have sameYear : (year * 12 + (month - 1)) / 12 = year := by omega
  have sameMonth : (year * 12 + (month - 1)) % 12 + 1 = month := by omega
  rw [monthStart, sameYear, sameMonth]

theorem periodOf_range (starts : Int → Int) (day : Int) (fuel : Nat) (period : Int) :
    period ≤ periodOf starts day fuel period ∧ periodOf starts day fuel period ≤ period + fuel := by
  induction fuel generalizing period with
  | zero => simp [periodOf]
  | succ fuel ih =>
    have later := ih (period + 1)
    rw [periodOf]
    split <;> omega

theorem granuleStart_strictMono (unit : DateMathUnit) : StrictMono (granuleStart · unit) := by
  intro first second before
  have months := monthStart_strictMono before
  have years := monthStart_strictMono (show first * 12 < second * 12 by omega)
  cases unit <;> simp only [granuleStart, kMsPerDay] <;> omega

theorem granule_numbered (civil : Int) (unit : DateMathUnit) : ∃ number, granule civil unit =
      (granuleStart number unit, granuleStart (number + 1) unit - 1) := by
  have limit : firstOfMonth (kMaxYear + 1) 1 * kMsPerDay = kMaxEpochMs + 1 := by decide
  cases unit <;> simp only [granule, granuleStart, Prod.mk.injEq]
  case month =>
    obtain ⟨low, high⟩ : 1 ≤ monthOf (civil / kMsPerDay) ∧ monthOf (civil / kMsPerDay) ≤ 12 :=
      periodOf_range _ _ 11 1
    generalize yearOf _ = year, monthOf _ = month at *
    refine ⟨year * 12 + (month - 1), by rw [monthStart_eq low high], ?_⟩
    by_cases last : month = 12
    · have next : year * 12 + (month - 1) + 1 = (year + 1) * 12 + (1 - 1) := by omega
      rw [next, monthStart_eq le_rfl (by decide)]
      simp only [last, and_true, if_true]
      split
      next final => rw [final, limit, Int.add_sub_cancel]
      next => rfl
    · have next : year * 12 + (month - 1) + 1 = year * 12 + (month + 1 - 1) := by omega
      rw [next, monthStart_eq (by omega) (by omega), if_neg (fun both => last both.2), if_neg last]
  case year =>
    generalize yearOf _ = year at *
    have start : ∀ year, monthStart (year * 12) = firstOfMonth year 1 := fun year =>
      (congrArg monthStart (by omega)).trans (monthStart_eq le_rfl (by decide))
    refine ⟨year, by rw [start], ?_⟩
    rw [start]
    split
    next final => rw [final, limit]
    next => rfl
  case millisecond => exact ⟨civil, rfl, by omega⟩
  case week =>
    refine ⟨(civil / kMsPerDay + 3) / 7 - 1, ?_, ?_⟩ <;> simp only [kMsPerDay] <;> omega
  case day => exact ⟨_, rfl, by simp only [kMsPerDay]; omega⟩
  all_goals exact ⟨_, rfl, by omega⟩

def firstInstant (unit : DateMathUnit) (offset number : Int) : Int :=
  granuleStart number unit - 1000 * offset

def Holds (unit : DateMathUnit) (offset number instant : Int) : Prop :=
  firstInstant unit offset number ≤ instant ∧ instant < firstInstant unit offset (number + 1)

def Supported (unit : DateMathUnit) (offset number : Int) : Prop :=
  ∀ instant, Holds unit offset number instant →
    supported instant ∧ supported (instant + 1000 * offset)

def offsetOf : TimeZone → Option Int
  | .utc => some 0
  | .fixed offsetMinutes => some (60 * offsetMinutes)
  | .iana _ _ => none

section
variable {unit : DateMathUnit} {offset number instant : Int} {zone : TimeZone}

theorem holds_ends (unit : DateMathUnit) (offset number : Int) :
    Holds unit offset number (firstInstant unit offset number) ∧
      Holds unit offset number (firstInstant unit offset (number + 1) - 1) := by
  have rising := granuleStart_strictMono unit (Int.lt_succ number)
  simp only [Holds, firstInstant] at rising ⊢
  omega

theorem holds_unique {other : Int} (holds : Holds unit offset number instant)
    (again : Holds unit offset other instant) : other = number := by
  simp only [Holds, firstInstant] at holds again
  have upper : number < other + 1 := (granuleStart_strictMono unit).lt_iff_lt.mp (by omega)
  have lower : other < number + 1 := (granuleStart_strictMono unit).lt_iff_lt.mp (by omega)
  omega

theorem holds_granule (unit : DateMathUnit) (civil : supported (instant + 1000 * offset)) :
    ∃ number, Holds unit offset number instant ∧ granule (instant + 1000 * offset) unit =
      (granuleStart number unit, granuleStart (number + 1) unit - 1) := by
  obtain ⟨number, found⟩ := granule_numbered (instant + 1000 * offset) unit
  have contains := granule_contains civil unit
  rw [found] at contains
  refine ⟨number, ?_, found⟩
  simp only [Holds, firstInstant]
  omega

theorem offset_eq (fixed : offsetOf zone = some offset) :
    zone.offsetAt instant = offset ∧ zone.offsetOfCivil (some offset) instant = offset := by
  cases zone <;> simp_all [offsetOf, TimeZone.offsetAt, TimeZone.offsetOfCivil]

theorem rounded_eq (coarse : unit ≠ .millisecond) (fixed : offsetOf zone = some offset)
    (within : Supported unit offset number) (holds : Holds unit offset number instant) :
    roundedInterval instant unit zone =
      some (firstInstant unit offset number, firstInstant unit offset (number + 1) - 1) := by
  obtain ⟨here, civil⟩ := within instant holds
  obtain ⟨other, again, cell⟩ := holds_granule unit civil
  rw [holds_unique holds again] at cell
  have found : civilFromInstant instant zone = some (instant + 1000 * offset, offset) := by
    simp [civilFromInstant, (offset_eq fixed).1, here, civil]
  obtain ⟨first, last⟩ := holds_ends unit offset number
  have resolve : ∀ civil, Holds unit offset number (civil - 1000 * offset) → supported civil ∧
      instantFromCivil civil zone (some offset) = some (civil - 1000 * offset) := by
    intro civil held
    obtain ⟨given, known⟩ := within _ held
    rw [Int.sub_add_cancel] at known
    simp [instantFromCivil, (offset_eq fixed).2, known, given]
  obtain ⟨firstKnown, firstFound⟩ := resolve (granuleStart number unit) first
  obtain ⟨lastKnown, lastFound⟩ := resolve (granuleStart (number + 1) unit - 1)
    (by rwa [sub_right_comm])
  unfold roundedInterval
  rw [if_neg coarse, found]
  simp only [cell, firstKnown, lastKnown, firstFound, lastFound]
  have ordered := last.1
  simp [firstInstant] at ordered ⊢
  omega

end

/-- The granules follow the Gregorian months, and rounding maps an instant to the one around it. -/
theorem rounded_partition (unit : DateMathUnit) (coarse : unit ≠ .millisecond) (zone : TimeZone)
    (offset : Int) (fixed : offsetOf zone = some offset) : monthStart (1970 * 12) = 0 ∧
    (∀ month, monthStart (month + 1) = monthStart month + monthDays month) ∧
    (∀ instant, supported (instant + 1000 * offset) → ∃! number, Holds unit offset number instant) ∧
    ∀ number, (Supported unit offset number → ∀ instant, Holds unit offset number instant →
        roundedInterval instant unit zone =
          some (firstInstant unit offset number, firstInstant unit offset (number + 1) - 1)) ∧
      (Supported unit offset (number + 1) →
        roundedInterval (firstInstant unit offset (number + 1) - 1 + 1) unit zone =
          some (firstInstant unit offset (number + 1),
            firstInstant unit offset (number + 1 + 1) - 1)) := by
  refine ⟨by decide, monthStart_succ, ?_, ?_⟩
  · intro instant civil
    obtain ⟨number, holds, -⟩ := holds_granule unit civil
    exact ⟨number, holds, fun other again => holds_unique holds again⟩
  · intro number
    refine ⟨fun within instant holds => rounded_eq coarse fixed within holds, ?_⟩
    intro within
    rw [Int.sub_add_cancel]
    exact rounded_eq coarse fixed within (holds_ends unit offset (number + 1)).1

/-- The day of the epoch, an hour ahead. -/
theorem rounded_partition_day : roundedInterval 0 .day (.fixed 60) = some (-3600000, 82799999) := by
  refine ((rounded_partition .day (by decide) (.fixed 60) 3600 rfl).2.2.2 0).1 ?_ 0 ?_
  · rintro instant ⟨first, last⟩
    simp only [firstInstant, granuleStart, kMsPerDay] at first last
    constructor <;> apply decide_eq_true <;> unfold kMinEpochMs kMaxEpochMs <;> omega
  · unfold Holds
    decide

end Luxir.Util.GranulePartition
