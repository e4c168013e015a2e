import Luxir.Points.OrdinalSearch

/-!
The search for ranges of values. The points at ordinals below a position are accounted for by the
runs found so far; each step of a search appends a run or passes ordinals that no range asks for.
-/

namespace Luxir.Points.RangeSearch
open Lib.Folds Util.Gallop PointsWriter PointsReader LeafCoding LeafReading Nat
open List Point PointsFile OrdinalSearch

section
variable {wanted : Nat → Prop} {runs : List OrdinalRange} {position first last : Nat}
  {run : OrdinalRange}

def Covers (runs : List OrdinalRange) (ordinal : Nat) : Prop :=
  ∃ run ∈ runs, run.first ≤ ordinal ∧ ordinal < run.last

/-- Separate runs, in order, that hold the wanted ordinals below a position. -/
structure Covering (wanted : Nat → Prop) (runs : List OrdinalRange) (position : Nat) : Prop where
  nonempty : ∀ run ∈ runs, run.first < run.last
  apart : runs.Pairwise fun earlier later => earlier.last < later.first
  ends : ∀ run ∈ runs, run.last ≤ position
  covers : ∀ ordinal < position, Covers runs ordinal ↔ wanted ordinal

theorem Covering.pass (cover : Covering wanted runs position) (later : position ≤ last)
    (unwanted : ∀ ordinal, position ≤ ordinal → ordinal < last → ¬wanted ordinal) :
    Covering wanted runs last := by
  refine ⟨cover.nonempty, cover.apart, fun run mem => (cover.ends run mem).trans later, ?_⟩
  intro ordinal below
  by_cases old : ordinal < position
  · exact cover.covers ordinal old
  · refine iff_of_false ?_ (unwanted ordinal (not_lt.mp old) below)
    rintro ⟨run, mem, _, lt⟩
    exact old (lt.trans_le (cover.ends run mem))

theorem covers_concat {ordinal : Nat} : Covers (runs ++ [run]) ordinal ↔
      Covers runs ordinal ∨ run.first ≤ ordinal ∧ ordinal < run.last := by
  unfold Covers
  simp only [mem_append, mem_singleton, or_and_right, exists_or, exists_eq_left]

/-- A run is left out when it is empty, and merged when the last one reaches it. -/
theorem append_cases (runs : List OrdinalRange) (first last : Nat) :
    first = last ∧ append runs first last = runs ∨
      first ≠ last ∧ (∃ before run, runs = before ++ [run] ∧ run.last = first ∧
        append runs first last = before ++ [⟨run.first, last⟩]) ∨
      first ≠ last ∧ (∀ run, runs.getLast? = some run → run.last ≠ first) ∧
        append runs first last = runs ++ [⟨first, last⟩] := by
  unfold append
  by_cases empty : first = last
  · exact .inl ⟨empty, if_pos empty⟩
  rw [if_neg empty]
  cases found : runs.getLast? with
  | none => exact .inr (.inr ⟨empty, fun run gone => by simp at gone, rfl⟩)
  | some run =>
    dsimp only
    by_cases met : run.last = first
    · obtain ⟨before, split⟩ := getLast?_eq_some_iff.mp found
      rw [if_pos met, split, dropLast_concat]
      exact .inr (.inl ⟨empty, before, run, rfl, met, rfl⟩)
    · rw [if_neg met]
      refine .inr (.inr ⟨empty, fun other same => ?_, rfl⟩)
      rw [← Option.some.inj same]
      exact met

theorem Covering.concat (ne : ∀ run ∈ runs, run.first < run.last)
    (apart : runs.Pairwise fun early later => early.last < later.first)
    (gap : ∀ early ∈ runs, early.last < run.first) (filled : run.first < run.last)
    (covers : ∀ ordinal < run.last, Covers (runs ++ [run]) ordinal ↔ wanted ordinal) :
    Covering wanted (runs ++ [run]) run.last := by
  refine ⟨?_, pairwise_append.mpr ⟨apart, pairwise_singleton _ _, ?_⟩, ?_, covers⟩
  · exact forall_mem_append.mpr ⟨ne, forall_mem_singleton.mpr filled⟩
  · exact fun early mem => forall_mem_singleton.mpr (gap early mem)
  · exact forall_mem_append.mpr ⟨fun other old => ((gap other old).trans filled).le,
      forall_mem_singleton.mpr le_rfl⟩

theorem Covering.append (cover : Covering wanted runs position) (later : position ≤ first)
    (order : first ≤ last)
    (unwanted : ∀ ordinal, position ≤ ordinal → ordinal < first → ¬wanted ordinal)
    (all : ∀ ordinal, first ≤ ordinal → ordinal < last → wanted ordinal) :
    Covering wanted (PointsReader.append runs first last) last := by
  have passed := cover.pass later unwanted
  have covers : ∀ ordinal < last,
      (Covers runs ordinal ∨ first ≤ ordinal ∧ ordinal < last) ↔ wanted ordinal := by
    intro ordinal below
    by_cases old : ordinal < first
    · rw [← passed.covers ordinal old]
      exact or_iff_left fun new => absurd new.1 (not_le.mpr old)
    · exact iff_of_true (.inr ⟨not_lt.mp old, below⟩) (all ordinal (not_lt.mp old) below)
  rcases append_cases runs first last with ⟨rfl, same⟩ | ⟨_, before, run, rfl, met, merged⟩ |
    ⟨differ, gap, added⟩
  · rw [same]
    exact passed
  · have ne := passed.nonempty run (by simp)
    have apart := pairwise_append.mp passed.apart
    rw [merged]
    refine Covering.concat (fun other mem => passed.nonempty other (mem_append_left _ mem))
      apart.1 (fun early mem => apart.2.2 early mem run (by simp))
      ((ne.trans_le met.le).trans_le order) ?_
    intro ordinal below
    rw [← covers ordinal below, covers_concat, covers_concat, or_assoc]
    refine or_congr_right ?_
    dsimp only
    omega
  · rw [added]
    refine Covering.concat passed.nonempty passed.apart ?_ (lt_of_le_of_ne order differ) ?_
    · intro early mem
      have ends := passed.ends early mem
      rcases eq_nil_or_concat runs with rfl | ⟨before, run, rfl⟩
      · cases mem
      rw [concat_eq_append] at mem passed gap
      rcases mem_append.mp mem with old | new
      · have apart := (pairwise_append.mp passed.apart).2.2 early old run (by simp)
        have ne := passed.nonempty run (by simp)
        have bound := passed.ends run (by simp)
        dsimp only
        omega
      · rw [mem_singleton.mp new] at ends ⊢
        exact lt_of_le_of_ne ends (gap run (by simp))
    · intro ordinal below
      rw [← covers ordinal below, covers_concat]

end

variable {i j rounds first : Nat} {decoded : Option (List Int)}
  {ranges : List ValueRange} {codec : NumericCodec} {opts : Options} {reader : Reader}
  {leaves : List (List Point)}

section

structure Disjoint (ranges : List ValueRange) : Prop where
  valid : ∀ range ∈ ranges, range.lo ≤ range.hi
  apart : ranges.Pairwise fun lower higher => lower.hi < higher.lo

def Wanted (points : List Point) (ranges : List ValueRange) (ordinal : Nat) : Prop :=
  ∃ point, points[ordinal]? = some point ∧
    ∃ range ∈ ranges, range.lo ≤ point.value ∧ point.value ≤ range.hi

variable (disjoint : Disjoint ranges)
include disjoint

theorem Disjoint.valid_at (known : i < ranges.length) :
    (ranges.getD i default).lo ≤ (ranges.getD i default).hi := by
  rw [getD_eq_getElem _ _ known]
  exact disjoint.valid _ (getElem_mem known)

theorem Disjoint.apart_at (less : i < j) (known : j < ranges.length) :
    (ranges.getD i default).hi < (ranges.getD j default).lo := by
  rw [getD_eq_getElem _ _ known, getD_eq_getElem _ _ (less.trans known)]
  exact pairwise_iff_getElem.mp disjoint.apart i j (less.trans known) known less

theorem Disjoint.lo_mono (order : i ≤ j) (known : j < ranges.length) :
    (ranges.getD i default).lo ≤ (ranges.getD j default).lo := by
  rcases order.eq_or_lt with rfl | less
  · exact le_rfl
  · exact (disjoint.valid_at (less.trans known)).trans (disjoint.apart_at less known).le

theorem Disjoint.hi_mono (order : i ≤ j) (known : j < ranges.length) :
    (ranges.getD i default).hi ≤ (ranges.getD j default).hi := by
  rcases order.eq_or_lt with rfl | less
  · exact le_rfl
  · exact (disjoint.apart_at less known).le.trans (disjoint.valid_at known)

end

section
variable {lo hi : Int}

structure Fence (reader : Reader) (count : Nat) (lo hi : Int) (first last : Nat) : Prop where
  order : first ≤ last
  known : last < count
  before : ∀ k < first, reader.leafMax k < lo
  reach : ∀ k, first ≤ k → k < count → lo ≤ reader.leafMax k
  under : ∀ k ≤ last, reader.leafMin k ≤ hi
  after : ∀ k, last < k → k < count → hi < reader.leafMin k

variable (holds : Holds codec opts reader leaves)
include holds

theorem fenceRange_cases (order : lo ≤ hi) : fenceRange reader lo hi = none ∧
        (∀ k < leaves.length, reader.leafMax k < lo ∨ hi < reader.leafMin k) ∨
      ∃ first last, fenceRange reader lo hi = some (first, last) ∧
        Fence reader leaves.length lo hi first last := by
  have left := reaching_cut holds lo
  have right := above_cut holds hi
  unfold fenceRange
  rw [if_neg (not_lt.mpr order)]
  generalize bisect (fun leaf => reader.leafMax leaf < lo) _ _ _ = first at *
  generalize bisect (fun leaf => reader.leafMin leaf ≤ hi) _ _ _ = ends at *
  by_cases crossed : first ≥ ends
  · rw [if_pos crossed]
    refine .inl ⟨rfl, fun k known => ?_⟩
    by_cases early : k < first
    · exact .inl (of_decide_eq_true (left.before k early))
    · exact .inr (not_le.mp (of_decide_eq_false (right.after k (by omega) known)))
  · rw [if_neg crossed]
    have bound := right.le
    refine .inr ⟨first, ends - 1, rfl, by omega, by omega, ?_, ?_, ?_, ?_⟩
    · exact fun k early => of_decide_eq_true (left.before k early)
    · exact fun k late known => not_lt.mp (of_decide_eq_false (left.after k late known))
    · exact fun k lt => of_decide_eq_true (right.before k (by omega))
    · exact fun k late known => not_le.mp (of_decide_eq_false (right.after k (by omega) known))

end

def position (reader : Reader) (leaves : List (List Point)) (k : Nat) : Nat :=
  min leaves.flatten.length (k * reader.leafSizeMax)

variable (holds : Holds codec opts reader leaves)
include holds

variable {output : List OrdinalRange} {k cursor : Nat}

theorem position_eq (known : k < leaves.length) :
    position reader leaves k = k * reader.leafSizeMax := by
  have next := holds.cut.next known
  unfold position
  omega

theorem position_end : position reader leaves leaves.length = leaves.flatten.length := by
  rw [position, min_eq_left holds.cut.length_le]

def Free (ranges : List ValueRange) (value : Int) : Prop :=
  ∀ j < ranges.length, (ranges.getD j default).hi < value ∨ value < (ranges.getD j default).lo

theorem free_at (known : k < leaves.length) (lt : i < leaves[k].length)
    (free : Free ranges leaves[k][i].value) :
    ¬Wanted leaves.flatten ranges (k * reader.leafSizeMax + i) := by
  rintro ⟨point, found, range, mem, low, high⟩
  rw [holds.cut.point known lt] at found
  obtain ⟨j, ranged, rfl⟩ := mem_iff_getElem.mp mem
  have apart := free j ranged
  rw [getD_eq_getElem _ _ ranged, Option.some.inj found] at apart
  omega

theorem free_leaves (free : ∀ k (known : k < leaves.length), first ≤ k → k < last →
      ∀ point ∈ leaves[k], Free ranges point.value) :
    ∀ ordinal, position reader leaves first ≤ ordinal → ordinal < position reader leaves last →
      ¬Wanted leaves.flatten ranges ordinal := by
  intro ordinal from_first before
  unfold position at from_first before
  obtain ⟨k, known, i, lt, rfl⟩ := holds.cut.place (show ordinal < leaves.flatten.length by omega)
  have size := holds.cut.short _ (getElem_mem known)
  refine free_at holds known lt (free k known ?_ ?_ _ (getElem_mem lt))
  · refine not_lt.mp fun early => ?_
    have step := mul_le_mul_right reader.leafSizeMax (succ_le_of_lt early)
    rw [succ_mul] at step
    omega
  · refine not_le.mp fun late => ?_
    have step := mul_le_mul_right reader.leafSizeMax late
    omega

/-- A search inside a leaf: what lies before the cursor is accounted for, and the ranges before the
current one end below what is left. -/
structure Inside (reader : Reader) (leaves : List (List Point)) (ranges : List ValueRange) (k i : Nat)
    (known : k < leaves.length) (cursor : Nat) (output : List OrdinalRange) : Prop where
  covering : Covering (Wanted leaves.flatten ranges) output (k * reader.leafSizeMax + cursor)
  bound : cursor ≤ leaves[k].length
  passed : ∀ j < i, ∀ place (inside : place < leaves[k].length), cursor ≤ place →
    (ranges.getD j default).hi < leaves[k][place].value
  begun : cursor ≠ 0 → ∃ j < i, reader.leafMin k ≤ (ranges.getD j default).hi

omit holds in
theorem leafRanges_done {residualScratch valueScratch : Nat}
    (done : ¬(i < ranges.length ∧ (ranges.getD i default).lo ≤ reader.leafMax k)) :
    leafRanges codec reader ranges residualScratch valueScratch k rounds i decoded cursor output =
      .ok output := by
  cases rounds with
  | zero => rfl
  | succ =>
    unfold leafRanges
    rw [if_neg done]

theorem values_ascend (known : k < leaves.length) (from_place : Nat) :
    Ascends ((leaves[k].map value).getD · 0) from_place (leaves[k].map value).length := by
  have sorted := (holds.stored k known).sound.sorted
  refine ascends_getD (pairwise_map.mpr (sorted.imp fun before => ?_)) _ _
  rcases before with below | ⟨same, _⟩ <;> omega

variable {known : k < leaves.length}

theorem free_rest (disjoint : Disjoint ranges)
    (state : Inside reader leaves ranges k i known cursor output)
    (done : ¬(i < ranges.length ∧ (ranges.getD i default).lo ≤ reader.leafMax k)) :
    Covering (Wanted leaves.flatten ranges) output (position reader leaves (k + 1)) := by
  have bound := state.bound
  rw [position, succ_mul, holds.cut.next known]
  refine state.covering.pass (by omega) fun ordinal past lt => ?_
  obtain ⟨place, rfl⟩ := Nat.exists_eq_add_of_le (show k * reader.leafSizeMax ≤ ordinal by omega)
  have within : place < leaves[k].length := by omega
  refine free_at holds known within fun j ranged => ?_
  by_cases early : j < i
  · exact .inl (state.passed j early place within (by omega))
  · have order := disjoint.lo_mono (not_lt.mp early) ranged
    have most := le_leafMax holds known (getElem_mem within)
    exact .inr (by omega)

theorem Inside.step (disjoint : Disjoint ranges)
    (state : Inside reader leaves ranges k i known cursor output) (ranged : i < ranges.length)
    (meets : reader.leafMin k ≤ (ranges.getD i default).hi) (begins : cursor ≤ first)
    (order : first ≤ last) (ends : last ≤ leaves[k].length)
    (below : ∀ place (lt : place < leaves[k].length), cursor ≤ place → place < first →
      leaves[k][place].value < (ranges.getD i default).lo)
    (within : ∀ place (lt : place < leaves[k].length), first ≤ place → place < last →
      (ranges.getD i default).lo ≤ leaves[k][place].value ∧
        leaves[k][place].value ≤ (ranges.getD i default).hi)
    (above : ∀ place (lt : place < leaves[k].length), last ≤ place →
      (ranges.getD i default).hi < leaves[k][place].value) :
    Inside reader leaves ranges k (i + 1) known last
      (append output (k * reader.leafSizeMax + first) (k * reader.leafSizeMax + last)) := by
  refine ⟨state.covering.append (by omega) (by omega) ?_ ?_, ends, ?_, ?_⟩
  · intro ordinal past before
    obtain ⟨place, rfl⟩ := Nat.exists_eq_add_of_le (show k * reader.leafSizeMax ≤ ordinal by omega)
    have lt : place < leaves[k].length := by omega
    refine free_at holds known lt fun j here => ?_
    rcases lt_trichotomy j i with early | rfl | late
    · exact .inl (state.passed j early place lt (by omega))
    · exact .inr (below place lt (by omega) (by omega))
    · have less := below place lt (by omega) (by omega)
      exact .inr (less.trans_le (disjoint.lo_mono late.le here))
  · intro ordinal past before
    obtain ⟨place, rfl⟩ := Nat.exists_eq_add_of_le (show k * reader.leafSizeMax ≤ ordinal by omega)
    have lt : place < leaves[k].length := by omega
    obtain ⟨low, high⟩ := within place lt (by omega) (by omega)
    rw [getD_eq_getElem _ _ ranged] at low high
    exact ⟨_, holds.cut.point known lt, _, getElem_mem ranged, low, high⟩
  · intro j early place lt past
    rcases Nat.lt_succ_iff_lt_or_eq.mp early with old | rfl
    · exact state.passed j old place lt (by omega)
    · exact above place lt past
  · exact fun _ => ⟨i, Nat.lt_succ_self i, meets⟩

omit holds in
theorem value_at {leaf : List Point} {place : Nat} (lt : place < leaf.length) :
    (leaf.map value).getD place 0 = leaf[place].value := by
  rw [getD_eq_getElem _ _ ((length_map _).symm ▸ lt), getElem_map]

theorem rangeEnd_spec (known : k < leaves.length)
    (begins : first ≤ (leaves[k].map value).length) (hi : Int)
    (found : last = if hi = 2 ^ 63 - 1 then (leaves[k].map value).length
      else gallopLowerBound first (leaves[k].map value).length (hi + 1)
        ((leaves[k].map value).getD · 0)) : first ≤ last ∧ last ≤ leaves[k].length ∧
      (∀ place (lt : place < leaves[k].length), first ≤ place → place < last →
        leaves[k][place].value ≤ hi) ∧
      ∀ place (lt : place < leaves[k].length), last ≤ place → hi < leaves[k][place].value := by
  have size : (leaves[k].map value).length = leaves[k].length := length_map _
  split_ifs at found with most
  · rw [size] at found
    rw [size] at begins
    subst found
    refine ⟨begins, le_rfl, ?_, fun place lt past => absurd lt (not_lt.mpr past)⟩
    intro place lt _ _
    have upper := ((holds.stored k known).sound.fits _ (getElem_mem lt)).upper
    omega
  · have splits : Splits (hi + 1) ((leaves[k].map value).getD · 0) first
        (leaves[k].map value).length last :=
      found ▸ gallopLowerBound_splits begins (values_ascend holds known first)
    refine ⟨splits.ge, splits.le.trans_eq size, ?_, ?_⟩
    · intro place lt past before
      have less := splits.below place past before
      rw [value_at lt] at less
      omega
    · intro place lt past
      have more := splits.above place past (size.symm ▸ lt)
      rw [value_at lt] at more
      omega

variable (codes : RoundTrips codec) {residualScratch valueScratch : Nat}
include codes

theorem leafRanges_covering (disjoint : Disjoint ranges)
    (state : Inside reader leaves ranges k i known cursor output)
    (enough : ranges.length ≤ rounds + i)
    (values : ∀ list, decoded = some list → list = leaves[k].map value)
    (first : leaves[k].length ≤ residualScratch) (second : leaves[k].length ≤ valueScratch) :
    ∃ found, leafRanges codec reader ranges residualScratch valueScratch k rounds i decoded cursor
        output = .ok found ∧
      Covering (Wanted leaves.flatten ranges) found (position reader leaves (k + 1)) := by
  fun_induction leafRanges codec reader ranges residualScratch valueScratch k rounds i decoded
    cursor output with
  | case1 | case5 => exact ⟨_, rfl, free_rest holds disjoint state (by omega)⟩
  | case2 rounds i decoded cursor output more range skip ih =>
    refine ih ⟨state.covering, state.bound, ?_, ?_⟩ (by omega) values
    · intro j early place lt past
      rcases Nat.lt_succ_iff_lt_or_eq.mp early with old | rfl
      · exact state.passed j old place lt past
      · exact skip.trans_le (leafMin_le holds known (getElem_mem lt))
    · intro moved
      obtain ⟨j, early, met⟩ := state.begun moved
      exact ⟨j, Nat.lt_succ_of_lt early, met⟩
  | case3 rounds i decoded cursor output more range leafStart skip whole ih =>
    -- A range over the whole leaf is the first to meet it, and the last.
    have fresh : cursor = 0 := by
      by_contra moved
      obtain ⟨j, early, met⟩ := state.begun moved
      exact absurd (met.trans_lt (disjoint.apart_at early more.1)) (not_lt.mpr whole.1)
    subst fresh
    have next := state.step holds disjoint more.1 (not_lt.mp skip) le_rfl (Nat.zero_le _) le_rfl
      (fun _ _ _ lt => absurd lt (Nat.not_lt_zero _))
      (fun place lt _ _ => ⟨whole.1.trans (leafMin_le holds known (getElem_mem lt)),
        (le_leafMax holds known (getElem_mem lt)).trans whole.2⟩)
      (fun place lt past => absurd lt (not_lt.mpr past))
    have done : ¬(i + 1 < ranges.length ∧
        (ranges.getD (i + 1) default).lo ≤ reader.leafMax k) := fun ⟨here, meets⟩ =>
      absurd ((disjoint.apart_at (Nat.lt_succ_self i) here).trans_le meets) (not_lt.mpr whole.2)
    rw [leafRanges_done done, leafInfo_eq codes (holds.stored k known)]
    exact ⟨_, rfl, free_rest holds disjoint next done⟩
  | case4 rounds i decoded cursor output more range leafStart skip whole ih =>
    have decodes : leafValues codec reader residualScratch valueScratch k decoded =
        .ok (leaves[k].map value) := by
      cases decoded with
      | some list => exact congrArg Except.ok (values list rfl)
      | none => exact decodeLeafValuesInto_eq codes (holds.stored k known) second first
    have size : (leaves[k].map value).length = leaves[k].length := length_map _
    have begins : Splits range.lo ((leaves[k].map value).getD · 0) cursor
        (leaves[k].map value).length _ :=
      gallopLowerBound_splits (size ▸ state.bound) (values_ascend holds known cursor)
    rw [decodes, ok_bind]
    obtain ⟨order, ends, upTo, above⟩ := rangeEnd_spec holds known begins.le range.hi rfl
    refine ih _ (state.step holds disjoint more.1 (not_lt.mp skip) begins.ge order ends ?_ ?_
      above) (by omega) fun list same => (Option.some.inj same).symm
    all_goals intro place lt past before
    · rw [← value_at lt]
      exact begins.below place past before
    · refine ⟨?_, upTo place lt past before⟩
      rw [← value_at lt]
      exact begins.above place past (size ▸ lt)

omit codes in
/-- The leaves that are left lie above all ranges. -/
theorem Covering.finish (order : k ≤ leaves.length)
    (cover : Covering (Wanted leaves.flatten ranges) output (position reader leaves k))
    (below : ∀ later, k ≤ later → later < leaves.length → ∀ j < ranges.length,
      (ranges.getD j default).hi < reader.leafMin later) :
    Covering (Wanted leaves.flatten ranges) output leaves.flatten.length := by
  rw [← position_end holds]
  refine cover.pass ?_ (free_leaves holds ?_)
  · have step := mul_le_mul_right reader.leafSizeMax order
    unfold position
    omega
  · intro later known past _ point mem j here
    exact .inl ((below later past known j here).trans_le (leafMin_le holds known mem))

theorem leafLoop_covering (disjoint : Disjoint ranges) {lastLeaf leaf : Nat}
    (lt : lastLeaf < leaves.length)
    (fence : ∀ k, lastLeaf < k → k < leaves.length → ∀ j < ranges.length,
      (ranges.getD j default).hi < reader.leafMin k) (enough : lastLeaf + 1 ≤ rounds + leaf)
    (met : leaf ≤ lastLeaf + 1)
    (cover : Covering (Wanted leaves.flatten ranges) output (position reader leaves leaf))
    (bound : cursor ≤ ranges.length) (passed : ∀ j < cursor, ∀ k, leaf ≤ k → k < leaves.length →
      (ranges.getD j default).hi < reader.leafMin k) (first : reader.leafSizeMax ≤ residualScratch)
    (second : reader.leafSizeMax ≤ valueScratch) :
    ∃ found, leafLoop codec reader ranges residualScratch valueScratch lastLeaf rounds leaf cursor
        output = .ok found ∧
      Covering (Wanted leaves.flatten ranges) found leaves.flatten.length := by
  induction rounds generalizing leaf cursor output with
  | zero => exact ⟨output, rfl, cover.finish holds (by omega) fun k _ => fence k (by omega)⟩
  | succ rounds ih =>
    unfold leafLoop
    by_cases more : leaf ≤ lastLeaf
    · have known : leaf < leaves.length := by omega
      have size := holds.cut.short _ (getElem_mem known)
      have ascends : Ascends (fun index => (ranges.getD index default).hi) cursor ranges.length :=
        fun one two _ order here => disjoint.hi_mono order here
      have splits : Splits (reader.leafMin leaf) (fun index => (ranges.getD index default).hi) cursor
          ranges.length _ := gallopLowerBound_splits bound ascends
      rw [if_pos more]
      generalize gallopLowerBound cursor _ (reader.leafMin leaf) _ = next at *
      have below : ∀ j < next, ∀ k, leaf ≤ k → k < leaves.length →
          (ranges.getD j default).hi < reader.leafMin k := by
        intro j early k past here
        by_cases old : j < cursor
        · exact passed j old k past here
        · have less := splits.below j (not_lt.mp old) early
          exact less.trans_le (leafMin_mono holds past here)
      by_cases exhausted : next = ranges.length
      · rw [if_pos exhausted]
        refine ⟨output, rfl, cover.finish holds known.le fun k past here j lt => ?_⟩
        exact below j (exhausted ▸ lt) k past here
      rw [if_neg exhausted]
      have later : ∀ j < next, ∀ k, leaf + 1 ≤ k → k < leaves.length →
          (ranges.getD j default).hi < reader.leafMin k :=
        fun j early k past => below j early k (le_of_succ_le past)
      have state : Inside reader leaves ranges leaf next known 0 output := by
        refine ⟨?_, zero_le _, ?_, fun moved => absurd rfl moved⟩
        · rw [add_zero, ← position_eq holds known]
          exact cover
        · intro j early place lt _
          exact (below j early leaf le_rfl known).trans_le (leafMin_le holds known (getElem_mem lt))
      split_ifs with skip
      · have done : ¬(next < ranges.length ∧
            (ranges.getD next default).lo ≤ reader.leafMax leaf) := by omega
        exact ih (by omega) (by omega) (free_rest holds disjoint state done) splits.le later
      · obtain ⟨found, search, covered⟩ : ∃ found, leafRanges codec reader ranges residualScratch
            valueScratch leaf ranges.length next none 0 output = .ok found ∧ _ :=
          leafRanges_covering holds codes disjoint state (le_add_right _ _)
            (fun list gone => by cases gone) (size.trans first) (size.trans second)
        rw [search, ok_bind]
        exact ih (by omega) (by omega) covered splits.le later
    · rw [if_neg more]
      exact ⟨output, rfl, cover.finish holds (by omega) fun k _ => fence k (by omega)⟩

omit codes in
theorem single_covering {range : ValueRange} (order : range.lo ≤ range.hi) {firstLeaf lastLeaf : Nat}
    (fence : Fence reader leaves.length range.lo range.hi firstLeaf lastLeaf)
    (one : firstLeaf < leaves.length) (two : lastLeaf < leaves.length) {lower upper : Nat × Nat}
    (low : Bounds leaves[firstLeaf] range.lo range.hi lower)
    (high : Bounds leaves[lastLeaf] range.lo range.hi upper) :
    Covering (Wanted leaves.flatten [range])
      (append [] (firstLeaf * reader.leafSizeMax + lower.1) (lastLeaf * reader.leafSizeMax + upper.2))
      leaves.flatten.length := by
  have begins : ∀ {ordinal : Nat} {point : Point}, leaves.flatten[ordinal]? = some point →
      (point.value < range.lo ↔ ordinal < firstLeaf * reader.leafSizeMax + lower.1) := by
    refine passed_iff holds (· < range.lo) one low.lower_le ?_ low.lower ?_
    · intro k early point mem
      exact (le_leafMax holds (early.trans one) mem).trans_lt (fence.before k early)
    · intro k known late point mem
      have reach := (fence.reach firstLeaf le_rfl one).trans (leafMax_le_leafMin holds late known)
      exact not_lt.mpr (reach.trans (leafMin_le holds known mem))
  have ends : ∀ {ordinal : Nat} {point : Point}, leaves.flatten[ordinal]? = some point →
      (point.value ≤ range.hi ↔ ordinal < lastLeaf * reader.leafSizeMax + upper.2) := by
    refine passed_iff holds (· ≤ range.hi) two high.upper_le ?_ high.upper ?_
    · intro k early point mem
      have under := (leafMax_le_leafMin holds early two).trans (fence.under lastLeaf le_rfl)
      exact (le_leafMax holds (early.trans two) mem).trans under
    · intro k known late point mem
      exact not_le.mpr ((fence.after k late known).trans_le (leafMin_le holds known mem))
  have firstBound : firstLeaf * reader.leafSizeMax + lower.1 ≤ leaves.flatten.length := by
    have next := holds.cut.next one
    have lt := low.lower_le
    omega
  have lastBound : lastLeaf * reader.leafSizeMax + upper.2 ≤ leaves.flatten.length := by
    have next := holds.cut.next two
    have lt := high.upper_le
    omega
  generalize firstLeaf * reader.leafSizeMax + lower.1 = start at *
  generalize lastLeaf * reader.leafSizeMax + upper.2 = stop at *
  have found : ∀ ordinal (known : ordinal < leaves.flatten.length),
      leaves.flatten[ordinal]? = some leaves.flatten[ordinal] := fun _ known =>
    getElem?_eq_getElem known
  have ordered : start ≤ stop := by
    by_contra crossed
    have known : stop < leaves.flatten.length := by omega
    have below := (begins (found stop known)).mpr (by omega)
    have above := mt (ends (found stop known)).mp (lt_irrefl stop)
    omega
  have empty : Covering (Wanted leaves.flatten [range]) [] 0 :=
    ⟨by simp, List.Pairwise.nil, by simp, fun _ lt => absurd lt (not_lt_zero _)⟩
  refine (empty.append (zero_le _) ordered ?_ ?_).pass lastBound ?_
  · rintro ordinal _ before ⟨point, here, other, mem, low, _⟩
    rw [mem_singleton.mp mem] at low
    exact absurd ((begins here).mpr before) (not_lt.mpr low)
  · intro ordinal past before
    have here := found ordinal (before.trans_le lastBound)
    exact ⟨_, here, range, mem_singleton_self range,
      not_lt.mp (mt (begins here).mp (not_lt.mpr past)), (ends here).mpr before⟩
  · rintro ordinal past _ ⟨point, here, other, mem, _, high⟩
    rw [mem_singleton.mp mem] at high
    exact absurd ((ends here).mp high) (not_lt.mpr past)

theorem ordinalRanges_covering (disjoint : Disjoint ranges) {outputSize : Nat}
    (room : ranges.length ≤ outputSize) (first : reader.leafSizeMax ≤ residualScratch)
    (second : reader.leafSizeMax ≤ valueScratch) :
    ∃ runs, ordinalRanges codec reader ranges outputSize residualScratch valueScratch = .ok runs ∧
      Covering (Wanted leaves.flatten ranges) runs leaves.flatten.length := by
  have nothing : Covering (Wanted leaves.flatten ranges) [] (position reader leaves 0) := by
    rw [position, zero_mul, min_zero]
    exact ⟨by simp, List.Pairwise.nil, by simp, fun _ lt => absurd lt (not_lt_zero _)⟩
  unfold ordinalRanges
  by_cases empty : ranges = []
  · rw [if_pos empty]
    refine ⟨[], rfl, nothing.finish holds (zero_le _) fun _ _ _ j here => ?_⟩
    rw [empty] at here
    exact absurd here (not_lt_zero _)
  · have ranged : 0 < ranges.length := length_pos_of_ne_nil empty
    have headed : ranges.headD default = ranges.getD 0 default := by
      cases ranges <;> rfl
    have lasted : ranges.getLastD default = ranges.getD (ranges.length - 1) default := by
      rw [getLastD_eq_getLast?, getLast?_eq_getElem?, getD_eq_getElem?_getD]
    have least : ∀ j < ranges.length, (ranges.getD 0 default).lo ≤ (ranges.getD j default).lo :=
      fun j here => disjoint.lo_mono (zero_le j) here
    have most : ∀ j < ranges.length,
        (ranges.getD j default).hi ≤ (ranges.getD (ranges.length - 1) default).hi :=
      fun j here => disjoint.hi_mono (by omega) (by omega)
    have order := (disjoint.valid_at ranged).trans (most 0 ranged)
    rw [if_neg empty, if_neg (not_lt.mpr room), headed, lasted]
    rcases fenceRange_cases holds order with ⟨missed, apart⟩ | ⟨firstLeaf, lastLeaf, found, fence⟩
    · rw [missed]
      refine ⟨[], rfl, ?_⟩
      rw [← position_end holds]
      refine nothing.pass (by unfold position; omega) (free_leaves holds ?_)
      intro k known _ _ point mem j here
      have low := leafMin_le holds known mem
      have high := le_leafMax holds known mem
      have lowest := least j here
      have highest := most j here
      rcases apart k known with below | above <;> omega
    · rw [found]
      dsimp only
      have two := fence.known
      have one := fence.order.trans_lt two
      by_cases single : ranges.length = 1
      · obtain ⟨range, rfl⟩ := length_eq_one_iff.mp single
        have bounds : ∀ k (known : k < leaves.length), firstLeaf ≤ k → k ≤ lastLeaf →
            ∃ bounds, valueBounds codec reader k range.lo range.hi residualScratch valueScratch =
              .ok bounds ∧ Bounds leaves[k] range.lo range.hi bounds := by
          intro k known past before
          have size := holds.cut.short _ (getElem_mem known)
          exact valueBounds_eq holds codes known (fence.under k before) (fence.reach k past known)
            (size.trans first) (size.trans second)
        obtain ⟨lower, lowerFound, low⟩ := bounds firstLeaf one le_rfl fence.order
        obtain ⟨upper, upperFound, high⟩ := bounds lastLeaf two fence.order le_rfl
        have cover := single_covering holds order fence one two low high
        rw [if_pos single]
        change ∃ runs, (valueBounds codec reader firstLeaf range.lo range.hi _ _ >>= _) = _ ∧ _
        rw [lowerFound, ok_bind]
        by_cases same : firstLeaf = lastLeaf
        · subst same
          rw [lowerFound] at upperFound
          rw [if_pos rfl]
          refine ⟨_, rfl, ?_⟩
          rwa [← Except.ok.inj upperFound] at cover
        · rw [if_neg same]
          change ∃ runs, (valueBounds codec reader lastLeaf range.lo range.hi _ _ >>= _) = _ ∧ _
          rw [upperFound, ok_bind]
          exact ⟨_, rfl, cover⟩
      · rw [if_neg single]
        refine leafLoop_covering holds codes disjoint two ?_ ?_ (le_succ_of_le fence.order) ?_
          (zero_le _) (fun j lt => absurd lt (not_lt_zero _)) first second
        · intro k late known j here
          exact (most j here).trans_lt (fence.after k late known)
        · rw [holds.count]
          omega
        · refine nothing.pass (by unfold position; omega) (free_leaves holds ?_)
          intro k known _ early point mem j here
          have high := (le_leafMax holds known mem).trans_lt (fence.before k early)
          exact .inr (high.trans_le (least j here))

end Luxir.Points.RangeSearch
