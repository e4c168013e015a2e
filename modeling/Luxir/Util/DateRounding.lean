import Luxir.Util.DateUnits

/-!
Rounding an instant to a calendar unit. The granule around the civil time is found by the calendar,
and its first and last milliseconds are resolved back to instants. A named zone is the list of its
transitions. A civil time that a transition skips is resolved with the offset before it, which moves
it forward: a granule whose first millisecond is skipped may then start after the instant it is for.
-/

namespace Luxir.Util.DateRounding
open DateUnits

inductive DateMathUnit where
  | year
  | month
  | week
  | day
  | hour
  | minute
  | second
  | millisecond
deriving DecidableEq, Repr

/-- From `instant` on the offset is `offset`, both in seconds. -/
structure Transition where
  instant : Int
  offset : Int
deriving DecidableEq, Repr

inductive TimeZone where
  | utc
  | fixed (offsetMinutes : Int)
  | iana (offset : Int) (transitions : List Transition)
deriving DecidableEq, Repr

def offsetAt (offset : Int) : List Transition → Int → Int
  | [], _ => offset
  | change :: rest, instant =>
    if instant < change.instant then offset else offsetAt change.offset rest instant

inductive Kind where
  | unique
  | skipped
  | repeated
deriving DecidableEq, Repr

structure LocalOffsets where
  kind : Kind
  before : Int
  after : Int
deriving DecidableEq, Repr

/-- A transition skips or repeats the civil seconds between its two civil times. -/
def localAt (offset : Int) : List Transition → Int → LocalOffsets
  | [], _ => ⟨.unique, offset, offset⟩
  | change :: rest, civil =>
    if civil < change.instant + min offset change.offset then ⟨.unique, offset, offset⟩
    else if civil < change.instant + max offset change.offset then
      ⟨if offset < change.offset then .skipped else .repeated, offset, change.offset⟩
    else localAt change.offset rest civil

def supported (millis : Int) : Bool := kMinEpochMs ≤ millis ∧ millis ≤ kMaxEpochMs

def TimeZone.offsetAt : TimeZone → Int → Int
  | utc, _ => 0
  | fixed offsetMinutes, _ => 60 * offsetMinutes
  | iana offset transitions, millis => DateRounding.offsetAt offset transitions (millis / 1000)

def civilFromInstant (millis : Int) (zone : TimeZone) : Option (Int × Int) :=
  let offset := zone.offsetAt millis
  let civil := millis + 1000 * offset
  if supported millis ∧ supported civil then some (civil, offset) else none

def offsetForLocal (found : LocalOffsets) (preferredOffset : Option Int) : Int :=
  if found.kind = .repeated ∧ preferredOffset = some found.after then found.after else found.before

def TimeZone.offsetOfCivil (preferredOffset : Option Int) : TimeZone → Int → Int
  | utc, _ => 0
  | fixed offsetMinutes, _ => 60 * offsetMinutes
  | iana offset transitions, civil =>
    offsetForLocal (localAt offset transitions (civil / 1000)) preferredOffset

def instantFromCivil (civil : Int) (zone : TimeZone) (preferredOffset : Option Int) : Option Int :=
  let instant := civil - 1000 * zone.offsetOfCivil preferredOffset civil
  if supported civil ∧ supported instant then some instant else none

def kMsPerDay : Int := 86400000

def kMinYear : Int := -32767

def kMaxYear : Int := 32767

def firstOfMonth (year month : Int) : Int :=
  let year := if month ≤ 2 then year - 1 else year
  365 * year + year / 4 - year / 100 + year / 400 + (153 * ((month + 9) % 12) + 2) / 5 - 719468

def periodOf (starts : Int → Int) (day : Int) : Nat → Int → Int
  | 0, period => period
  | fuel + 1, period =>
    if day < starts (period + 1) then period else periodOf starts day fuel (period + 1)

def yearOf (day : Int) : Int := periodOf (firstOfMonth · 1) day 65534 kMinYear

def monthOf (day : Int) : Int := periodOf (firstOfMonth (yearOf day)) day 11 1

/-- The first and the last millisecond of the granule around a civil time. -/
def granule (civil : Int) : DateMathUnit → Int × Int
  | .millisecond => (civil, civil)
  | .second => (civil / 1000 * 1000, civil / 1000 * 1000 + 999)
  | .minute => (civil / 60000 * 60000, civil / 60000 * 60000 + 59999)
  | .hour => (civil / 3600000 * 3600000, civil / 3600000 * 3600000 + 3599999)
  | .day => (civil / kMsPerDay * kMsPerDay, civil / kMsPerDay * kMsPerDay + kMsPerDay - 1)
  | .week =>
    -- The epoch is a Thursday, and a week starts on Monday.
    let start := civil / kMsPerDay - (civil / kMsPerDay + 3) % 7
    (start * kMsPerDay, start * kMsPerDay + 7 * kMsPerDay - 1)
  | .month =>
    let year := yearOf (civil / kMsPerDay)
    let month := monthOf (civil / kMsPerDay)
    (firstOfMonth year month * kMsPerDay,
      if year = kMaxYear ∧ month = 12 then kMaxEpochMs
      else if month = 12 then firstOfMonth (year + 1) 1 * kMsPerDay - 1
      else firstOfMonth year (month + 1) * kMsPerDay - 1)
  | .year =>
    let year := yearOf (civil / kMsPerDay)
    (firstOfMonth year 1 * kMsPerDay,
      (if year = kMaxYear then kMaxEpochMs + 1 else firstOfMonth (year + 1) 1 * kMsPerDay) - 1)

def roundedInterval (millis : Int) (unit : DateMathUnit) (zone : TimeZone) : Option (Int × Int) :=
  if unit = .millisecond then some (millis, millis) else
  match civilFromInstant millis zone with
  | none => none
  | some (civil, offset) =>
    let (civilLo, civilLast) := granule civil unit
    if !supported civilLo ∨ !supported civilLast then none else
    match instantFromCivil civilLo zone (some offset),
      instantFromCivil civilLast zone (some offset) with
    | some lo, some last => if last < lo then none else some (lo, last)
    | _, _ => none

section
variable {day civil : Int}

theorem periodOf_spec (starts : Int → Int) (fuel : Nat) (period : Int)
    (begun : starts period ≤ day) : starts (periodOf starts day fuel period) ≤ day ∧
      (periodOf starts day fuel period = period + fuel ∨
        day < starts (periodOf starts day fuel period + 1)) := by
  induction fuel generalizing period with
  | zero => exact ⟨begun, .inl (by simp [periodOf])⟩
  | succ fuel ih =>
    rw [periodOf]
    split
    next ends => exact ⟨begun, .inr ends⟩
    next later =>
      obtain ⟨begun, full | ends⟩ := ih (period + 1) (by omega)
      · exact ⟨begun, .inl (by omega)⟩
      · exact ⟨begun, .inr ends⟩

theorem granule_contains (range : supported civil) (unit : DateMathUnit) :
    (granule civil unit).1 ≤ civil ∧ civil ≤ (granule civil unit).2 := by
  have range := of_decide_eq_true range
  simp only [kMinEpochMs, kMaxEpochMs] at range
  have first : firstOfMonth kMinYear 1 ≤ civil / 86400000 := by
    have start : firstOfMonth kMinYear 1 = -12687428 := by decide
    omega
  obtain ⟨yearStarts, yearEnds⟩ := periodOf_spec (firstOfMonth · 1) 65534 kMinYear first
  rw [← yearOf] at yearStarts yearEnds
  obtain ⟨monthStarts, monthEnds⟩ := periodOf_spec _ 11 1 yearStarts
  rw [← monthOf] at monthStarts monthEnds
  have lastYear : kMinYear + (65534 : Nat) = kMaxYear := rfl
  cases unit
  case month =>
    simp only [granule]
    split
    next => simp only [kMsPerDay, kMaxEpochMs] at *; omega
    next => split <;> simp only [kMsPerDay] at * <;> omega
  case year =>
    simp only [granule]
    split <;> simp only [kMsPerDay, kMaxEpochMs] at * <;> omega
  all_goals simp only [granule, kMsPerDay]; omega

end

section
variable {offset seconds millis civil : Int} {change : Transition} {rest : List Transition}

@[simp]
theorem offsetForLocal_unique (preferred : Option Int) :
    offsetForLocal ⟨.unique, offset, offset⟩ preferred = offset := by
  simp [offsetForLocal]

@[simp]
theorem offsetForLocal_change (preferred : Option Int) (after : Int) :
    offsetForLocal ⟨if offset < after then .skipped else .repeated, offset, after⟩ preferred =
      if after ≤ offset ∧ preferred = some after then after else offset := by
  by_cases forward : offset < after
  · simp [offsetForLocal, forward, Int.not_le.mpr forward]
  · simp [offsetForLocal, forward, Int.not_lt.mp forward]

/-- The civil times that one transition skips or repeats lie before those of the next. -/
def Ordered (offset : Int) : List Transition → Prop
  | first :: second :: rest =>
    first.instant + max offset first.offset ≤ second.instant + min first.offset second.offset ∧
      Ordered first.offset (second :: rest)
  | _ => True

theorem civil_after (ordered : Ordered offset (change :: rest)) (late : change.instant ≤ seconds) :
    change.instant + min offset change.offset ≤ seconds + offsetAt change.offset rest seconds := by
  induction rest generalizing offset change with
  | nil => simp only [offsetAt]; omega
  | cons second rest ih =>
    obtain ⟨apart, ordered⟩ := ordered
    rw [offsetAt]
    split
    next early => omega
    next late =>
      have := ih ordered (by omega)
      omega

theorem offset_within (ordered : Ordered offset (change :: rest))
    (within : seconds + offsetAt change.offset rest seconds <
      change.instant + max offset change.offset) :
    offsetAt change.offset rest seconds = change.offset := by
  cases rest with
  | nil => rfl
  | cons =>
    obtain ⟨apart, ordered⟩ := ordered
    rw [offsetAt] at within ⊢
    split at within
    next early => exact if_pos early
    next later =>
      have := civil_after ordered (Int.not_lt.mp later)
      omega

theorem resolved_after (preferred : Option Int) (ordered : Ordered offset (change :: rest))
    (beyond : change.instant + max offset change.offset ≤ seconds) :
    change.instant ≤ seconds - offsetForLocal (localAt change.offset rest seconds) preferred := by
  induction rest generalizing offset change with
  | nil =>
    rw [localAt, offsetForLocal_unique]
    omega
  | cons second rest ih =>
    obtain ⟨apart, ordered⟩ := ordered
    rw [localAt]
    split
    next before =>
      rw [offsetForLocal_unique]
      omega
    next reached =>
      split
      next within =>
        rw [offsetForLocal_change]
        split <;> omega
      next past =>
        have := ih ordered (by omega)
        omega

variable {transitions : List Transition}

theorem resolved_le (early : civil ≤ millis + 1000 * offsetAt offset transitions (millis / 1000))
    (present : (localAt offset transitions (civil / 1000)).kind ≠ .skipped) :
    civil - 1000 * offsetForLocal (localAt offset transitions (civil / 1000))
      (some (offsetAt offset transitions (millis / 1000))) ≤ millis := by
  induction transitions generalizing offset with
  | nil =>
    simp only [offsetAt] at early
    rw [localAt, offsetForLocal_unique]
    omega
  | cons change rest ih =>
    rw [offsetAt] at early ⊢
    rw [localAt] at present ⊢
    split
    next =>
      rw [offsetForLocal_unique]
      split at early <;> omega
    next reached =>
      rw [if_neg reached] at present
      split
      next within =>
        rw [if_pos within] at present
        rw [offsetForLocal_change]
        split at early <;> simp only [*] <;> split <;> grind
      next past =>
        rw [if_neg past] at present
        split at early
        next => omega
        next later => simpa only [if_neg later] using ih early present

theorem le_resolved (ordered : Ordered offset transitions)
    (late : millis + 1000 * offsetAt offset transitions (millis / 1000) ≤ civil) :
    millis ≤ civil - 1000 * offsetForLocal (localAt offset transitions (civil / 1000))
      (some (offsetAt offset transitions (millis / 1000))) := by
  induction transitions generalizing offset with
  | nil =>
    simp only [offsetAt] at late
    rw [localAt, offsetForLocal_unique]
    omega
  | cons change rest ih =>
    rw [offsetAt] at late ⊢
    rw [localAt]
    by_cases before : millis / 1000 < change.instant
    · rw [if_pos before] at late ⊢
      split
      next =>
        rw [offsetForLocal_unique]
        omega
      next =>
        split
        next =>
          rw [offsetForLocal_change]
          split <;> grind
        next past =>
          have := resolved_after (some offset) ordered (Int.not_lt.mp past)
          omega
    · rw [if_neg before] at late ⊢
      have reached := civil_after ordered (Int.not_lt.mp before)
      rw [if_neg (by omega)]
      split
      next within =>
        have same := offset_within ordered (show millis / 1000 + _ < _ by omega)
        rw [same] at late reached ⊢
        rw [offsetForLocal_change]
        split <;> grind
      next past =>
        refine ih ?_ late
        cases rest with
        | nil => trivial
        | cons => exact ordered.2

end

variable {millis civil : Int} {zone : TimeZone}

def TimeZone.Regular : TimeZone → Prop
  | iana offset transitions => Ordered offset transitions
  | _ => True

def TimeZone.skips : TimeZone → Int → Bool
  | iana offset transitions, civil => (localAt offset transitions (civil / 1000)).kind = .skipped
  | _, _ => false

/-- The civil time is resolved with the offset at the instant preferred. -/
def TimeZone.resolve (zone : TimeZone) (millis civil : Int) : Int :=
  civil - 1000 * zone.offsetOfCivil (some (zone.offsetAt millis)) civil

theorem resolve_le (early : civil ≤ millis + 1000 * zone.offsetAt millis)
    (present : zone.skips civil = false) : zone.resolve millis civil ≤ millis := by
  cases zone with
  | utc => exact Int.sub_right_le_of_le_add early
  | fixed => exact Int.sub_right_le_of_le_add early
  | iana => exact resolved_le early (of_decide_eq_false present)

theorem le_resolve (regular : zone.Regular) (late : millis + 1000 * zone.offsetAt millis ≤ civil) :
    millis ≤ zone.resolve millis civil := by
  cases zone with
  | utc => exact Int.le_sub_right_of_add_le late
  | fixed => exact Int.le_sub_right_of_add_le late
  | iana => exact le_resolved regular late

theorem instantFromCivil_some {instant : Int}
    (resolved : instantFromCivil civil zone (some (zone.offsetAt millis)) = some instant) :
    instant = zone.resolve millis civil := by
  simp only [instantFromCivil] at resolved
  split at resolved
  next => exact (Option.some.inj resolved).symm
  next => cases resolved

/-- The civil time is skipped, and by the offset from before the transition the instant comes
earlier. -/
def TimeZone.Precedes (zone : TimeZone) (millis civil : Int) : Prop :=
  zone.skips civil = true ∧ millis + 1000 * zone.offsetOfCivil none civil < civil

instance (zone : TimeZone) (millis civil : Int) : Decidable (zone.Precedes millis civil) :=
  inferInstanceAs (Decidable (_ ∧ _))

/-- A skipped civil time is resolved with the offset from before the transition. -/
theorem resolve_le_iff (early : civil ≤ millis + 1000 * zone.offsetAt millis) :
    zone.resolve millis civil ≤ millis ↔ ¬zone.Precedes millis civil := by
  cases skipped : zone.skips civil with
  | false => exact iff_of_true (resolve_le early skipped) (by simp [TimeZone.Precedes, skipped])
  | true =>
    have resolved : zone.resolve millis civil = civil - 1000 * zone.offsetOfCivil none civil := by
      cases zone with
      | utc | fixed => rfl
      | iana =>
        have kind := of_decide_eq_true skipped
        simp [TimeZone.resolve, TimeZone.offsetOfCivil, offsetForLocal, kind]
    rw [resolved, TimeZone.Precedes, and_iff_right skipped]
    omega

/-- An interval contains its instant just when the instant does not precede the start of its granule
by the offset from before a transition that skips that start. -/
theorem rounded_contains (millis : Int) (unit : DateMathUnit) (zone : TimeZone) (lo last : Int)
    (regular : zone.Regular) (rounds : roundedInterval millis unit zone = some (lo, last)) :
    lo ≤ millis ∧ millis ≤ last ↔ unit = .millisecond ∨
      ¬zone.Precedes millis (granule (millis + 1000 * zone.offsetAt millis) unit).1 := by
  unfold roundedInterval at rounds
  split at rounds
  next fine =>
    cases rounds
    exact iff_of_true ⟨Int.le_refl _, Int.le_refl _⟩ (.inl fine)
  next coarse =>
    rw [or_iff_right coarse]
    split at rounds
    next => cases rounds
    next civil offset found =>
      simp only [civilFromInstant] at found
      split at found
      next range =>
        cases found
        obtain ⟨starts, ends⟩ := granule_contains range.2 unit
        simp only at rounds
        split at rounds
        next => cases rounds
        next =>
          split at rounds
          next lo' last' first final =>
            split at rounds
            next => cases rounds
            next =>
              cases rounds
              rw [instantFromCivil_some first, instantFromCivil_some final,
                and_iff_left (le_resolve regular ends)]
              exact resolve_le_iff starts
          next => cases rounds
      next => cases found

/-- In Toronto the clocks of March 30, 1919 went from half past eleven at night to half past
midnight. -/
def toronto : TimeZone := .iana (-18000) [⟨-1601753400, -14400⟩]

/-- In São Paulo the clocks of November 4, 2018 went from midnight to one o'clock: the skipped start
of the day is resolved to its first instant. -/
def saoPaulo : TimeZone := .iana (-10800) [⟨1541300400, -7200⟩]

theorem rounded_contains_skipped :
    (1541300400000 : Int) ≤ 1541302200000 ∧ (1541302200000 : Int) ≤ 1541383199999 :=
  (rounded_contains 1541302200000 .day saoPaulo _ _ trivial (by decide)).mpr (by decide)

/-- A quarter of an hour after the transition the day is found to start in another quarter. -/
theorem rounded_after :
    roundedInterval (-1601752500000) .day toronto = some (-1601751600000, -1601668800001) ∧
      ¬ -1601751600000 ≤ -1601752500000 := by
  decide

end Luxir.Util.DateRounding
