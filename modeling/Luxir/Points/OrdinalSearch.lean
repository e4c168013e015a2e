import Luxir.Points.PointsFile
import Luxir.Util.BranchlessSearch

/-!
Searches over an index of points by a single value: the leaf is found by the leaves' bounds, and the
place inside it among the leaf's values or their residuals.
-/

namespace Luxir.Points.OrdinalSearch
open Lib.Folds Util.BranchlessSearch PointsWriter PointsReader LeafCoding LeafReading PointsFile Nat
open List

variable {point : Point} {first k second : Nat} {α : Type} {passed : α → Bool} {past : Nat → Bool}
  {ordinal : Nat}

section

/-- In a list whose passed values come first, the bound tells them from the others. -/
theorem stdBound_iff {values : List α}
    (falling : values.Pairwise fun first second => passed second = true → passed first = true)
    {i : Nat} (known : i < values.length) : passed values[i] = true ↔ i < stdBound passed values := by
  unfold stdBound
  induction values generalizing i with
  | nil => exact absurd known (not_lt_zero _)
  | cons value rest ih =>
    obtain ⟨head, later⟩ := pairwise_cons.mp falling
    rw [takeWhile_cons]
    cases here : passed value with
    | true =>
      cases i with
      | zero => simp [here]
      | succ =>
        rw [if_pos rfl, length_cons, succ_lt_succ_iff]
        exact ih later (lt_of_succ_lt_succ known)
    | false =>
      rw [if_neg Bool.false_ne_true]
      refine iff_of_false (fun passes => ?_) (not_lt_zero _)
      cases i with
      | zero => exact Bool.false_ne_true (here.symm.trans passes)
      | succ =>
        have first := head _ (getElem_mem (lt_of_succ_lt_succ known)) passes
        exact Bool.false_ne_true (here.symm.trans first)

theorem bisect_cut {len rounds last : Nat} (falling : Falling past len)
    (enough : last - first ≤ rounds) (order : first ≤ last) (upper : last ≤ len)
    (before : ∀ i < first, past i = true) (after : ∀ i, last ≤ i → i < len → past i = false) :
    Cut past len (bisect past rounds first last) := by
  fun_induction bisect past rounds first last with
  | case2 rounds first last more mid probe ih =>
    refine ih (by omega) (by omega) upper (fun i less => ?_) after
    exact falling i _ (le_of_lt_succ less) (by omega) probe
  | case3 rounds first last more mid probe ih =>
    refine ih (by omega) (by omega) (by omega) before fun i behind lt => ?_
    exact eq_false_of_ne_true fun passes => probe (falling _ i behind lt passes)
  | case1 | case4 =>
    exact ⟨order.trans upper, before, fun i behind => after i (by omega)⟩

theorem bisect_whole {len : Nat} (falling : Falling past len) :
    Cut past len (bisect past len 0 len) :=
  bisect_cut falling (sub_le _ _) (zero_le _) le_rfl
    (fun _ less => absurd less (not_lt_zero _))
    (fun _ behind lt => absurd lt (not_lt.mpr behind))

theorem ceil_lt {residual divisor delta : Nat} (pos : 0 < divisor) :
    residual < delta / divisor + (if delta % divisor ≠ 0 then 1 else 0) ↔
      residual * divisor < delta := by
  have whole := Nat.div_add_mod' delta divisor
  have below := Nat.le_div_iff_mul_le pos (x := residual) (y := delta)
  by_cases even : delta % divisor = 0
  · rw [if_neg (not_not.mpr even), Nat.add_zero]
    rw [even, Nat.add_zero] at whole
    conv_rhs => rw [← whole]
    exact (Nat.mul_lt_mul_right pos).symm
  · have differ : residual * divisor ≠ delta := by
      intro same
      rw [← same, Nat.mul_mod_left] at even
      exact even rfl
    rw [if_pos even, Nat.lt_succ_iff, below]
    omega

structure Bounds (leaf : List Point) (lo hi : Int) (bounds : Nat × Nat) : Prop where
  lower_le : bounds.1 ≤ leaf.length
  upper_le : bounds.2 ≤ leaf.length
  lower : ∀ i (known : i < leaf.length), leaf[i].value < lo ↔ i < bounds.1
  upper : ∀ i (known : i < leaf.length), leaf[i].value ≤ hi ↔ i < bounds.2

variable {leaf : List Point} {lo hi : Int}

theorem bounds_of_list (keyOf : Point → α) {below upTo : α → Bool} (sorted : leaf.Pairwise Before)
    (low : ∀ point ∈ leaf, below (keyOf point) = true ↔ point.value < lo)
    (high : ∀ point ∈ leaf, upTo (keyOf point) = true ↔ point.value ≤ hi) :
    Bounds leaf lo hi (stdBound below (leaf.map keyOf), stdBound upTo (leaf.map keyOf)) := by
  have order : ∀ {first second : Point}, Before first second → first.value ≤ second.value := by
    rintro first second (less | ⟨same, _⟩)
    · exact less.le
    · exact same.le
  have falls : ∀ {passes : α → Bool} {holds : Int → Prop}, (∀ {a b}, a ≤ b → holds b → holds a) →
      (∀ point ∈ leaf, passes (keyOf point) = true ↔ holds point.value) →
        (leaf.map keyOf).Pairwise fun one two => passes two = true → passes one = true := by
    intro passes holds down iff
    rw [pairwise_map]
    refine sorted.imp_of_mem fun one two before passed => ?_
    rw [iff _ one]
    exact down (order before) ((iff _ two).mp passed)
  have size : (leaf.map keyOf).length = leaf.length := length_map _
  refine ⟨(takeWhile_sublist _).length_le.trans_eq size,
    (takeWhile_sublist _).length_le.trans_eq size, ?_, ?_⟩
  · intro i known
    rw [← low _ (getElem_mem known), ← stdBound_iff (falls lt_of_le_of_lt low) (size.symm ▸ known),
      getElem_map]
  · intro i known
    rw [← high _ (getElem_mem known), ← stdBound_iff (falls le_trans high) (size.symm ▸ known),
      getElem_map]

variable {opts : Options} (sound : Sound leaf)
include sound

variable (opts) in
theorem residual_mul (mem : point ∈ leaf) :
    (((distance (front leaf).value point.value / leafGcd opts leaf) * leafGcd opts leaf : Nat) :
      Int) = point.value - (front leaf).value := by
  rw [Nat.div_mul_cancel (leafGcd_dvd opts mem)]
  exact distance_front sound mem

def lowerResidual (options : Options) (leaf : List Point) (lo : Int) : Nat :=
  if lo > (front leaf).value then
    distance (front leaf).value lo / leafGcd options leaf +
      if distance (front leaf).value lo % leafGcd options leaf ≠ 0 then 1 else 0
  else 0

def upperResidual (options : Options) (leaf : List Point) (hi : Int) : Nat :=
  if hi < (back leaf).value then distance (front leaf).value hi / leafGcd options leaf
  else distance (front leaf).value (back leaf).value / leafGcd options leaf

variable (opts) in
theorem lowerResidual_iff (reach : lo ≤ (back leaf).value) (mem : point ∈ leaf) :
    distance (front leaf).value point.value / leafGcd opts leaf < lowerResidual opts leaf lo ↔
      point.value < lo := by
  have least := sound.fits _ (front_mem sound.nonempty)
  have most := sound.fits _ (back_mem sound.nonempty)
  have bound := front_le sound.sorted mem
  unfold lowerResidual
  by_cases below : lo > (front leaf).value
  · have delta := distance_eq below.le least.lower (reach.trans_lt most.upper)
    have scaled := residual_mul opts sound mem
    rw [if_pos below, ceil_lt (leafGcd_pos opts leaf)]
    omega
  · rw [if_neg below]
    exact iff_of_false (not_lt_zero _) (by omega)

variable (opts) in
theorem upperResidual_iff (reach : (front leaf).value ≤ hi) (mem : point ∈ leaf) :
    distance (front leaf).value point.value / leafGcd opts leaf ≤ upperResidual opts leaf hi ↔
      point.value ≤ hi := by
  have least := sound.fits _ (front_mem sound.nonempty)
  have most := sound.fits _ (back_mem sound.nonempty)
  have scaled := residual_mul opts sound mem
  unfold upperResidual
  split_ifs with above
  · have delta := distance_eq reach least.lower (above.trans most.upper)
    rw [le_div_iff_mul_le (leafGcd_pos opts leaf)]
    omega
  · have bound := le_back sound.sorted mem
    have last := distance_front sound (back_mem sound.nonempty)
    rw [le_div_iff_mul_le (leafGcd_pos opts leaf)]
    omega

variable (narrow : valueFormat opts leaf ≤ 32)
include narrow

theorem residual_back_lt :
    distance (front leaf).value (back leaf).value / leafGcd opts leaf < 2 ^ 32 :=
  (valueResiduals_lt sound opts _ (mem_map_of_mem (back_mem sound.nonempty))).trans_le
    (Nat.pow_le_pow_right (by decide) narrow)

theorem lowerResidual_lt (reach : lo ≤ (back leaf).value) :
    lowerResidual opts leaf lo < 2 ^ 32 := by
  have last := lowerResidual_iff opts sound reach (back_mem sound.nonempty)
  have small := residual_back_lt sound narrow
  omega

theorem upperResidual_lt (reach : (front leaf).value ≤ hi) :
    upperResidual opts leaf hi < 2 ^ 32 := by
  have small := residual_back_lt sound narrow
  unfold upperResidual
  split_ifs with above
  · have least := sound.fits _ (front_mem sound.nonempty)
    have most := sound.fits _ (back_mem sound.nonempty)
    have delta := distance_eq reach least.lower (above.trans most.upper)
    have last := distance_front sound (back_mem sound.nonempty)
    refine (Nat.div_le_div_right ?_).trans_lt small
    omega
  · exact small

end

variable {codec : NumericCodec} {opts : Options} {reader : Reader} {leaves : List (List Point)}
  (holds : Holds codec opts reader leaves)
include holds

theorem leaf_le (order : first < second) (known : second < leaves.length) {early later : Point}
    (one : early ∈ leaves[first]) (two : later ∈ leaves[second]) : early.value ≤ later.value := by
  have pairs := (pairwise_flatten.mp holds.sorted).2
  have sorted := pairwise_iff_getElem.mp pairs first second (by omega) known order
  rcases sorted early one later two with less | ⟨same, _⟩ <;> omega

theorem leafMin_le (known : k < leaves.length) (mem : point ∈ leaves[k]) :
    reader.leafMin k ≤ point.value := by
  rw [holds.least k known]
  exact front_le (holds.stored k known).sound.sorted mem

theorem le_leafMax (known : k < leaves.length) (mem : point ∈ leaves[k]) :
    point.value ≤ reader.leafMax k := by
  rw [holds.greatest k known]
  exact le_back (holds.stored k known).sound.sorted mem

theorem leafMax_le_leafMin (less : first < second) (known : second < leaves.length) :
    reader.leafMax first ≤ reader.leafMin second := by
  have early : first < leaves.length := less.trans known
  rw [holds.greatest first early, holds.least second known]
  exact leaf_le holds less known (back_mem (holds.cut.nonempty _ (getElem_mem early)))
    (front_mem (holds.cut.nonempty _ (getElem_mem known)))

theorem leafMin_le_leafMax (known : k < leaves.length) : reader.leafMin k ≤ reader.leafMax k := by
  rw [holds.greatest k known]
  exact leafMin_le holds known (back_mem (holds.cut.nonempty _ (getElem_mem known)))

theorem leafMax_mono (order : first ≤ second) (known : second < leaves.length) :
    reader.leafMax first ≤ reader.leafMax second := by
  rcases order.eq_or_lt with rfl | less
  · exact le_rfl
  · exact (leafMax_le_leafMin holds less known).trans (leafMin_le_leafMax holds known)

theorem leafMin_mono (order : first ≤ second) (known : second < leaves.length) :
    reader.leafMin first ≤ reader.leafMin second := by
  rcases order.eq_or_lt with rfl | less
  · exact le_rfl
  · exact (leafMin_le_leafMax holds (less.trans known)).trans (leafMax_le_leafMin holds less known)

theorem reaching_cut (lo : Int) : Cut (fun leaf => decide (reader.leafMax leaf < lo)) leaves.length
    (bisect (fun leaf => reader.leafMax leaf < lo) reader.leavesCount 0 reader.leavesCount) := by
  rw [holds.count]
  refine bisect_whole fun first second order known less => ?_
  rw [decide_eq_true_iff] at less ⊢
  exact (leafMax_mono holds order known).trans_lt less

theorem above_cut (hi : Int) : Cut (fun leaf => decide (reader.leafMin leaf ≤ hi)) leaves.length
    (bisect (fun leaf => reader.leafMin leaf ≤ hi) reader.leavesCount 0 reader.leavesCount) := by
  rw [holds.count]
  refine bisect_whole fun first second order known less => ?_
  rw [decide_eq_true_iff] at less ⊢
  exact (leafMin_mono holds order known).trans less

theorem point_place (found : leaves.flatten[ordinal]? = some point) :
    ∃ k, ∃ known : k < leaves.length, ∃ i, ∃ lt : i < leaves[k].length,
      ordinal = k * reader.leafSizeMax + i ∧ point = leaves[k][i] := by
  obtain ⟨here, _⟩ := List.getElem?_eq_some_iff.mp found
  obtain ⟨k, known, i, lt, rfl⟩ := holds.cut.place here
  refine ⟨k, known, i, lt, rfl, ?_⟩
  rw [holds.cut.point known lt] at found
  exact (Option.some.inj found).symm

theorem passed_iff (past : Int → Prop) {a : Nat} (known : k < leaves.length)
    (short : a ≤ leaves[k].length)
    (before : ∀ j (early : j < k), ∀ point ∈ leaves[j], past point.value)
    (here : ∀ i (lt : i < leaves[k].length), past leaves[k][i].value ↔ i < a)
    (after : ∀ j (late : j < leaves.length), k < j → ∀ point ∈ leaves[j], ¬past point.value)
    (found : leaves.flatten[ordinal]? = some point) :
    past point.value ↔ ordinal < k * reader.leafSizeMax + a := by
  obtain ⟨j, lt, i, place, rfl, rfl⟩ := point_place holds found
  have fits := holds.cut.short _ (getElem_mem lt)
  have bound := holds.cut.short _ (getElem_mem known)
  rcases lt_trichotomy j k with early | rfl | late
  · have step := mul_le_mul_right reader.leafSizeMax early
    rw [succ_mul] at step
    exact iff_of_true (before j early _ (getElem_mem place)) (by omega)
  · rw [here i place]
    omega
  · have step := mul_le_mul_right reader.leafSizeMax late
    rw [succ_mul] at step
    exact iff_of_false (after j lt late _ (getElem_mem place)) (by omega)

variable (codes : RoundTrips codec) {lo hi : Int} {residualScratch rawScratch : Nat}
include codes

theorem valueBounds_eq (known : k < leaves.length) (low : reader.leafMin k ≤ hi)
    (high : lo ≤ reader.leafMax k) (first : leaves[k].length ≤ residualScratch)
    (second : leaves[k].length ≤ rawScratch) :
    ∃ bounds, valueBounds codec reader k lo hi residualScratch rawScratch = .ok bounds ∧
      Bounds leaves[k] lo hi bounds := by
  have kept := holds.stored k known
  have sound := kept.sound
  have least := fun (point : Point) (mem : point ∈ leaves[k]) => leafMin_le holds known mem
  have greatest := fun (point : Point) (mem : point ∈ leaves[k]) =>
    le_leafMax holds known mem
  unfold valueBounds
  rw [leafInfo_eq codes kept, if_neg (by omega)]
  dsimp only
  split
  · refine ⟨_, rfl, zero_le _, le_rfl, ?_, ?_⟩
    · intro i lt
      have bound := least _ (getElem_mem lt)
      exact iff_of_false (by omega) (not_lt_zero _)
    · intro i lt
      have bound := greatest _ (getElem_mem lt)
      exact iff_of_true (by omega) lt
  · by_cases narrow : valueFormat opts leaves[k] ≤ 32
    · rw [if_pos narrow, if_neg (by omega), decodeResiduals_eq codes kept narrow]
      rw [holds.least k known] at low ⊢
      rw [holds.greatest k known] at high ⊢
      change ∃ bounds, (if lowerResidual opts leaves[k] lo > 2 ^ 32 - 1 then _ else _) = _ ∧ _
      have lower := lowerResidual_lt sound narrow high
      have upper : ¬upperResidual opts leaves[k] hi > 2 ^ 32 - 1 := by
        have bound := upperResidual_lt sound narrow low
        omega
      rw [if_neg (by omega)]
      refine ⟨_, rfl, bounds_of_list _ sound.sorted ?_ ?_⟩
      · intro point mem
        rw [decide_eq_true_iff]
        exact lowerResidual_iff opts sound high mem
      intro point mem
      rw [decide_eq_true_iff, ← upperResidual_iff opts sound low mem]
      change _ ≤ (if upperResidual opts leaves[k] hi > 2 ^ 32 - 1 then _ else _) ↔ _
      rw [if_neg upper]
      rfl
    · rw [if_neg narrow, if_neg (by omega), rawValues_eq codes kept narrow]
      refine ⟨_, rfl, bounds_of_list Point.value sound.sorted ?_ ?_⟩
      all_goals
        intro point _
        exact decide_eq_true_iff

theorem ordinalOfFirstAtLeast_eq (value : Int) (first : reader.leafSizeMax ≤ residualScratch)
    (second : reader.leafSizeMax ≤ rawScratch) :
    ordinalOfFirstAtLeast codec reader value residualScratch rawScratch =
      .ok (leaves.flatten.countP fun point => point.value < value) := by
  have cut := reaching_cut holds value
  unfold ordinalOfFirstAtLeast
  generalize bisect _ _ _ _ = k at *
  by_cases past : k = reader.leavesCount
  · rw [if_pos past, holds.points]
    refine congrArg Except.ok (countP_eq_length.mpr fun point mem => ?_).symm
    obtain ⟨ordinal, found⟩ := mem_iff_getElem?.mp mem
    obtain ⟨j, known, i, lt, _, rfl⟩ := point_place holds found
    have less := of_decide_eq_true (cut.before j (by rw [past, holds.count]; exact known))
    exact decide_eq_true ((le_leafMax holds known (getElem_mem lt)).trans_lt less)
  · have known : k < leaves.length := lt_of_le_of_ne cut.le (holds.count ▸ past)
    have reach := not_lt.mp (of_decide_eq_false (cut.after k le_rfl known))
    have size := holds.cut.short _ (getElem_mem known)
    have least := (holds.stored k known).sound.fits _
      (front_mem (holds.cut.nonempty _ (getElem_mem known)))
    have low : reader.leafMin k ≤ 2 ^ 63 - 1 := by
      rw [holds.least k known]
      have upper := least.upper
      omega
    obtain ⟨bounds, found, part⟩ := valueBounds_eq holds codes known low reach (size.trans first)
      (size.trans second)
    rw [if_neg past, found, ok_bind]
    have cutoff : ∀ {ordinal : Nat} {point : Point}, leaves.flatten[ordinal]? = some point →
        (point.value < value ↔ ordinal < k * reader.leafSizeMax + bounds.1) := by
      refine passed_iff holds (· < value) known part.lower_le ?_ part.lower ?_
      · intro j early point mem
        have less := of_decide_eq_true (cut.before j early)
        exact (le_leafMax holds (early.trans known) mem).trans_lt less
      · intro j late behind point mem
        have more := leafMax_le_leafMin holds behind late
        exact not_lt.mpr ((reach.trans more).trans (leafMin_le holds late mem))
    have bounded : k * reader.leafSizeMax + bounds.1 ≤ leaves.flatten.length := by
      have next := holds.cut.next known
      have lt := part.lower_le
      omega
    refine congrArg Except.ok (Lib.Bits.countP_of_cut bounded fun i lt => ?_).symm
    rw [decide_eq_true_iff]
    exact cutoff (List.getElem?_eq_getElem lt)

end Luxir.Points.OrdinalSearch
