import Mathlib.Algebra.Order.Ring.Nat

/-!
The run directory of range facets. Adjacent cells of one width form a run, and a cursor keeps the
run of its last lookup. Distances between fences are unsigned, since they may exceed what a signed
word holds.
-/

namespace Luxir.Search.FacetRuns
open List Int64

inductive Kind where
  | fixed
  | floating
  | calendar
deriving DecidableEq

/-- Calendar grids of months have no gap. -/
structure RangeFacetGrid where
  kind : Kind
  gap : Int64
deriving DecidableEq

structure RangeFacetRun where
  first : Int64
  width : Nat
  gap : Nat
  bucket : Nat
deriving DecidableEq

def distance (upper lower : Int64) : Nat := ((upper.toInt - lower.toInt) % 2 ^ 64).toNat

/-- The runs of the fences from `first` on, of which the run in progress has come to `last`. -/
def runsFrom (first : Int64) (stride bucket : Nat) (last : Int64) (index : Nat) :
    List Int64 → List RangeFacetRun
  | [] => [⟨first, distance last first, stride, bucket⟩]
  | fence :: rest =>
    if distance fence last = stride then runsFrom first stride bucket fence (index + 1) rest
    else ⟨first, distance last first, stride, bucket⟩ ::
      runsFrom last (distance fence last) index fence (index + 1) rest

def RangeFacetGrid.runs (grid : RangeFacetGrid) (fences : List Int64) : List RangeFacetRun :=
  if grid.kind = .floating ∨ grid.kind = .calendar ∧ grid.gap = 0 then []
  else match fences with
    | first :: second :: rest => runsFrom first (distance second first) 0 second 1 rest
    | _ => []

def RangeFacetRun.empty : RangeFacetRun := ⟨0, 0, 0, 0⟩

def cachedBucket (cached : RangeFacetRun) (value : Int64) : Option Nat :=
  if distance value cached.first ≥ cached.width then none
  else some (cached.bucket + distance value cached.first / cached.gap)

/-- The last run that starts at or before the value; there is none to read before the first. -/
def seek (value : Int64) (runs : List RangeFacetRun) : Option (Nat × RangeFacetRun) :=
  (runs.takeWhile fun run => !(value < run.first)).getLast?.map fun cached =>
    (cached.bucket + distance value cached.first / cached.gap, cached)

def bucketOf (cached : RangeFacetRun) (value : Int64) (runs : List RangeFacetRun) :
    Option (Nat × RangeFacetRun) :=
  match cachedBucket cached value with
  | some bucket => some (bucket, cached)
  | none => seek value runs

def lookups (runs : List RangeFacetRun) : List Int64 → RangeFacetRun → Option RangeFacetRun
  | [], cached => some cached
  | value :: rest, cached => do
    let (_, cached) ← bucketOf cached value runs
    lookups runs rest cached

theorem distance_eq {upper lower : Int64} (order : lower ≤ upper) :
    (distance upper lower : Int) = upper.toInt - lower.toInt := by
  have known := le_iff_toInt_le.mp order
  have least := lower.le_toInt
  have most := upper.toInt_lt
  unfold distance
  omega

section
variable {fences rest : List Int64} {first last fence value : Int64} {stride bucket index : Nat}

/-- A value before the first fence is at a greater distance, as the difference wraps. -/
theorem distance_lt_iff (order : first < last) :
    distance value first < distance last first ↔ first ≤ value ∧ value < last := by
  rw [lt_iff_toInt_lt] at order ⊢
  rw [le_iff_toInt_le]
  have least := first.le_toInt
  have most := last.toInt_lt
  have lower := value.le_toInt
  have upper := value.toInt_lt
  unfold distance
  omega

def Bucket (fences : List Int64) (value : Int64) (bucket : Nat) : Prop :=
  ∃ low high, fences[bucket]? = some low ∧ fences[bucket + 1]? = some high ∧ low ≤ value ∧
    value < high

/-- The cells from `bucket` to `index` have one width, and `last` ends them. -/
structure Even (fences : List Int64) (first : Int64) (stride bucket : Nat) (last : Int64)
    (index : Nat) : Prop where
  later : bucket ≤ index
  stop : last.toInt = first.toInt + ((index - bucket) * stride : Nat)
  cell : ∀ value, first ≤ value → value < last →
    Bucket fences value (bucket + distance value first / stride)

theorem Even.none : Even fences last stride index last index :=
  ⟨le_rfl, by simp, fun _ low high => absurd low (Int64.not_le.mpr high)⟩

theorem Even.extend (even : Even fences first stride bucket last index)
    (here : fences[index]? = some last) (next : fences[index + 1]? = some fence)
    (order : last < fence) (same : distance fence last = stride) :
    Even fences first stride bucket fence (index + 1) := by
  have width := distance_eq (Int64.le_of_lt order)
  have stop := even.stop
  have more : index + 1 - bucket = index - bucket + 1 := Nat.succ_sub even.later
  have grown : fence.toInt = first.toInt + ((index + 1 - bucket) * stride : Nat) := by
    rw [more, Nat.succ_mul]
    omega
  refine ⟨even.later.trans (Nat.le_succ _), grown, fun value low high => ?_⟩
  by_cases old : value < last
  · exact even.cell value low old
  have offset := distance_eq low
  have above := le_iff_toInt_le.mp (Int64.not_lt.mp old)
  have below := lt_iff_toInt_lt.mp high
  have quotient : distance value first / stride = index - bucket := by
    apply Nat.div_eq_of_lt_le
    · omega
    · rw [more] at grown
      omega
  rw [quotient, Nat.add_sub_cancel' even.later]
  exact ⟨last, fence, here, next, Int64.not_lt.mp old, high⟩

def Served (fences : List Int64) (run : RangeFacetRun) : Prop :=
  ∀ value, distance value run.first < run.width →
    Bucket fences value (run.bucket + distance value run.first / run.gap)

theorem Even.served (even : Even fences first stride bucket last index) (order : first < last) :
    Served fences ⟨first, distance last first, stride, bucket⟩ := by
  intro value within
  obtain ⟨low, high⟩ := (distance_lt_iff order).mp within
  exact even.cell value low high

theorem runsFrom_head (first : Int64) (stride bucket : Nat) (last : Int64) (index : Nat)
    (rest : List Int64) : ∃ width tail,
    runsFrom first stride bucket last index rest = ⟨first, width, stride, bucket⟩ :: tail := by
  induction rest generalizing last index with
  | nil => exact ⟨_, _, rfl⟩
  | cons fence rest ih =>
    rw [runsFrom]
    split
    next => exact ih _ _
    next => exact ⟨_, _, rfl⟩

theorem next_fence (rising : fences.Pairwise (· < ·))
    (split : fences.drop index = last :: fence :: rest) :
    fences[index]? = some last ∧ fences[index + 1]? = some fence ∧
      fences.drop (index + 1) = fence :: rest ∧ last < fence := by
  have here : fences[index]? = (fences.drop index)[0]? := by rw [getElem?_drop, Nat.add_zero]
  have next : fences[index + 1]? = (fences.drop index)[1]? := by rw [getElem?_drop]
  have sorted := rising.sublist (drop_sublist index fences)
  rw [split] at here next sorted
  refine ⟨here, next, ?_, rel_of_pairwise_cons sorted mem_cons_self⟩
  rw [← tail_drop, split, tail_cons]

theorem runsFrom_spec (rising : fences.Pairwise (· < ·)) (split : fences.drop index = last :: rest)
    (even : Even fences first stride bucket last index) (order : first < last) :
    (∀ run ∈ runsFrom first stride bucket last index rest, Served fences run) ∧
      ∀ value, first ≤ value → (∀ final ∈ (last :: rest).getLast?, value < final) →
        ∃ run ∈ ((runsFrom first stride bucket last index rest).takeWhile fun run =>
          !(value < run.first)).getLast?, distance value run.first < run.width := by
  have own := even.served order
  induction rest generalizing first stride bucket last index with
  | nil =>
    refine ⟨fun run mem => mem_singleton.mp mem ▸ own, fun value low high => ?_⟩
    have within := (distance_lt_iff order).mpr ⟨low, high last rfl⟩
    refine ⟨⟨first, distance last first, stride, bucket⟩, ?_, within⟩
    simp [runsFrom, Int64.not_lt.mpr low]
  | cons fence rest ih =>
    obtain ⟨here, next, split, less⟩ := next_fence rising split
    rw [runsFrom]
    split_ifs with same
    · have longer := even.extend here next less same
      have order := Int64.lt_trans order less
      exact ih split longer order (longer.served order)
    have single := Even.none.extend here next less rfl
    obtain ⟨served, finds⟩ := ih split single less (single.served less)
    refine ⟨forall_mem_cons.mpr ⟨own, served⟩, fun value low high => ?_⟩
    rw [takeWhile_cons_of_pos (by simp [Int64.not_lt.mpr low])]
    by_cases before : value < last
    · obtain ⟨width, tail, head⟩ := runsFrom_head last (distance fence last) index fence
        (index + 1) rest
      rw [head, takeWhile_cons_of_neg (by simp [before])]
      exact ⟨_, rfl, (distance_lt_iff order).mpr ⟨low, before⟩⟩
    · obtain ⟨run, found, within⟩ := finds value (Int64.not_lt.mp before) high
      refine ⟨run, ?_, within⟩
      rw [getLast?_cons, Option.mem_def.mp found]
      rfl

end

/-- Fixed grids and those of days or weeks have runs. -/
def RangeFacetGrid.HasRuns (grid : RangeFacetGrid) : Prop :=
  grid.kind = .fixed ∨ grid.kind = .calendar ∧ grid.gap ≠ 0

def Ranged (fences : List Int64) (value : Int64) : Prop :=
  (∀ first ∈ fences.head?, first ≤ value) ∧ ∀ last ∈ fences.getLast?, value < last

theorem runs_spec {fences : List Int64} {grid : RangeFacetGrid} (dense : grid.HasRuns)
    (rising : fences.Pairwise (· < ·)) (two : 2 ≤ fences.length) :
    (∀ run ∈ grid.runs fences, Served fences run) ∧
      ∀ value, Ranged fences value → ∃ run ∈ ((grid.runs fences).takeWhile fun run =>
        !(value < run.first)).getLast?, distance value run.first < run.width := by
  match fences, two with
  | first :: second :: rest, _ =>
    have order := rel_of_pairwise_cons rising mem_cons_self
    have runs : grid.runs (first :: second :: rest) =
        runsFrom first (distance second first) 0 second 1 rest := by
      rw [RangeFacetGrid.runs, if_neg]
      rcases dense with fixed | ⟨calendar, gap⟩ <;> simp_all
    have single : Even (first :: second :: rest) first (distance second first) 0 second 1 :=
      Even.none.extend rfl rfl order rfl
    obtain ⟨served, finds⟩ := runsFrom_spec rising rfl single order
    rw [runs]
    refine ⟨served, fun value ranged => ?_⟩
    exact finds value (ranged.1 first rfl) (by simpa using ranged.2)

section
variable {runs : List RangeFacetRun} {start cached : RangeFacetRun}

theorem bucketOf_kept {run : RangeFacetRun} {value : Int64} {bucket : Nat}
    (found : bucketOf cached value runs = some (bucket, run)) : run = cached ∨ run ∈ runs := by
  unfold bucketOf at found
  split at found
  · cases found
    exact .inl rfl
  · obtain ⟨last, mem, same⟩ := Option.map_eq_some_iff.mp found
    cases same
    exact .inr ((takeWhile_sublist _).subset (mem_of_mem_getLast? mem))

theorem lookups_kept {earlier : List Int64} (reached : lookups runs earlier start = some cached) :
    cached = start ∨ cached ∈ runs := by
  induction earlier generalizing start with
  | nil =>
    cases reached
    exact .inl rfl
  | cons value rest ih =>
    obtain ⟨⟨bucket, next⟩, found, reached⟩ := Option.bind_eq_some_iff.mp reached
    rcases ih reached with rfl | mem
    · exact bucketOf_kept found
    · exact .inr mem

end

theorem bucketOf_fences (grid : RangeFacetGrid) (fences : List Int64) (dense : grid.HasRuns)
    (rising : fences.Pairwise (· < ·)) (two : 2 ≤ fences.length) (earlier : List Int64)
    (cached : RangeFacetRun) (reached : lookups (grid.runs fences) earlier .empty = some cached)
    (value : Int64) (ranged : Ranged fences value) :
    ∃ bucket run, bucketOf cached value (grid.runs fences) = some (bucket, run) ∧
      Bucket fences value bucket := by
  obtain ⟨served, finds⟩ := runs_spec dense rising two
  unfold bucketOf cachedBucket
  by_cases outside : distance value cached.first ≥ cached.width
  · obtain ⟨run, found, within⟩ := finds value ranged
    have mem := (takeWhile_sublist _).subset (mem_of_mem_getLast? found)
    rw [if_pos outside, seek, found]
    exact ⟨_, run, rfl, served run mem value within⟩
  · rw [if_neg outside]
    have within := Nat.not_le.mp outside
    rcases lookups_kept reached with rfl | mem
    · exact absurd within (Nat.not_lt_zero _)
    · exact ⟨_, cached, rfl, served cached mem value within⟩

/-- A lookup in the first cell, after one in the last; that cell is wider than a signed word. -/
theorem bucketOf_fences_wide : ∃ bucket run,
    bucketOf ⟨-2, 9223372036854775809, 9223372036854775809, 1⟩ (-3)
        (RangeFacetGrid.runs ⟨.fixed, 1⟩ [-3, -2, 9223372036854775807]) = some (bucket, run) ∧
      Bucket [-3, -2, 9223372036854775807] (-3) bucket :=
  bucketOf_fences ⟨.fixed, 1⟩ [-3, -2, 9223372036854775807] (.inl rfl) (by decide) (by decide) [5]
    _ (by decide) (-3) (by simp [Ranged])

end Luxir.Search.FacetRuns
