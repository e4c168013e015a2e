import Luxir.Screaming.SetCursor

/-!
Walks of an iterator: any mix of steps and skips. Every call lands on the least value that is left
to it, and the rank is the index of the value. A skip that runs off the end leaves the iterator
where it was, so that only further skips are meaningful after it.
-/

namespace Luxir.Screaming.SetWalk
open SetBuilder SetReader DenseWords Chunks SetImage SetCursor Iterator List Nat

/-- The least value that is not below a bound, or the sentinel. -/
def Ceiling (sequence : List Nat) (least : Nat) (result : Int) : Prop :=
  (result = endValue ∧ ∀ v ∈ sequence, v < least) ∨
    ∃ value ∈ sequence, result = (value : Int) ∧ least ≤ value ∧
      ∀ v ∈ sequence, least ≤ v → value ≤ v

structure Lost (chunks : List Chunk) (it : Iterator) (least : Nat) : Prop where
  base : it.bucketBase < (least / bucketWidth * bucketWidth : Nat)
  passed : ∀ chunk ∈ chunks, chunk.upper < least / bucketWidth

def Lands (bitset : BitSet) (chunks : List Chunk) (least : Nat) (result : Int × Iterator) : Prop :=
  (∃ i j, ∃ (inside : i < chunks.length) (known : j < chunks[i].locals.length), On bitset chunks
    result.2 i j inside known ∧ result.1 = result.2.curr ∧ least ≤ chunks[i].upper * bucketWidth +
    chunks[i].locals[j] ∧ ∀ v ∈ (sequenceOf chunks).take (startRank chunks i + j), v < least) ∨
  (result.1 = endValue ∧ (∀ v ∈ sequenceOf chunks, v < least) ∧
    (result.2.curr = endValue ∨ Lost chunks result.2 least))

variable {target : Nat} {out : Int × Iterator}
  {bitset : BitSet} {chunks : List Chunk} {it : Iterator}

section
variable {i n least : Nat} {lt : i < chunks.length}

theorem take_succ_lt {j : Nat} (lt : i < chunks.length) (known : j < chunks[i].locals.length)
    (passed : ∀ v ∈ (sequenceOf chunks).take (startRank chunks i + j), v < least)
    (more : chunks[i].upper * bucketWidth + chunks[i].locals[j] < least) :
    ∀ v ∈ (sequenceOf chunks).take (startRank chunks i + (j + 1)), v < least := by
  intro v mem
  have found := sequence_get lt known
  rw [← add_assoc, take_add_one, found, mem_append] at mem
  rcases mem with old | new
  · exact passed v old
  · rw [Option.toList_some, mem_singleton] at new
    rw [new]
    exact more

theorem take_cut_lt {m : Nat} (lt : i < chunks.length) (order : n ≤ m)
    (bound : m ≤ chunks[i].locals.length)
    (passed : ∀ v ∈ (sequenceOf chunks).take (startRank chunks i + n), v < least)
    (below : ∀ k (known : k < chunks[i].locals.length), k < m →
      chunks[i].upper * bucketWidth + chunks[i].locals[k] < least) :
    ∀ v ∈ (sequenceOf chunks).take (startRank chunks i + m), v < least := by
  induction m, order using le_induction with
  | base => exact passed
  | succ m _ ih =>
    have known := bound
    refine take_succ_lt lt known (ih (le_of_lt known) fun k inner less => ?_)
      (below m known (lt_succ_self _))
    exact below k inner (lt_succ_of_lt less)

theorem nextBucket_lands (opened : Opened bitset chunks) {k : Nat} (most : k ≤ chunks.length)
    (idx : it.bucketIdx + 1 = k) (counted : it.bucketRank + it.bucketSize = startRank chunks k)
    (passed : ∀ v ∈ (sequenceOf chunks).take (startRank chunks k), v < least)
    (ahead : ∀ known : k < chunks.length, least ≤ chunks[k].upper * bucketWidth) :
    Lands bitset chunks least (it.nextBucket bitset) := by
  rcases lt_or_eq_of_le most with lt | rfl
  · have first := length_locals_pos chunks[k]
    obtain ⟨found, step, on⟩ := nextBucket_on opened lt first idx counted
    have met := ahead lt
    rw [step]
    refine .inl ⟨k, 0, lt, first, on, on.curr.symm, by omega, ?_⟩
    rw [add_zero]
    exact passed
  · have ended : it.bucketIdx + 1 ≥ bitset.nBuckets := by
      rw [opened.count]
      omega
    unfold nextBucket
    rw [if_pos ended]
    refine .inr ⟨rfl, ?_, .inl rfl⟩
    rwa [startRank_length, take_length] at passed

theorem upper_succ (sorted : Sorted chunks) (lt : i < chunks.length)
    (known : i + 1 < chunks.length) :
    (chunks[i].upper + 1) * bucketWidth ≤ chunks[i + 1].upper * bucketWidth :=
  mul_le_mul_right _ (pairwise_iff_getElem.mp sorted.ascending i (i + 1) lt known (lt_succ_self _))

theorem next_lands (opened : Opened bitset chunks) (stands : At bitset chunks it i n lt)
    (passed : ∀ v ∈ (sequenceOf chunks).take (startRank chunks i + n), v < least)
    (ahead : ∀ known : n < chunks[i].locals.length,
      least ≤ chunks[i].upper * bucketWidth + chunks[i].locals[n])
    (within : least ≤ (chunks[i].upper + 1) * bucketWidth) :
    Lands bitset chunks least (it.next bitset) := by
  rcases lt_or_eq_of_le stands.bound with more | rfl
  · obtain ⟨found, step, on⟩ := next_on opened stands more
    rw [step]
    exact .inl ⟨i, n, lt, more, on, on.curr.symm, ahead more, passed⟩
  rw [next_exhausted opened stands]
  rw [← startRank_succ lt] at passed
  refine nextBucket_lands opened (show i + 1 ≤ chunks.length from lt) ?_ ?_ passed fun known => ?_
  · rw [stands.idx]
    rfl
  · rw [startRank_succ lt, stands.rank, stands.size]
  · exact within.trans (upper_succ opened.sorted lt known)

theorem advanceWithin_lands (opened : Opened bitset chunks)
    (stands : At bitset chunks it i n lt) (same : target / bucketWidth = chunks[i].upper)
    (passed : ∀ v ∈ (sequenceOf chunks).take (startRank chunks i + n), v < target) :
    Lands bitset chunks target (it.advanceWithin bitset target) := by
  have whole := div_add_mod' target bucketWidth
  rw [same] at whole
  have short := mod_lt target (show 0 < bucketWidth by decide)
  obtain ⟨m, bound, cut⟩ := exists_cut chunks[i] (target % bucketWidth)
  have least : n ≤ m := by
    by_contra less
    have known : m < chunks[i].locals.length := by
      have most := stands.bound
      omega
    have here := (cut m known).not.mp (lt_irrefl m)
    have mem : chunks[i].upper * bucketWidth + chunks[i].locals[m] ∈
        (sequenceOf chunks).take (startRank chunks i + n) := by
      refine mem_iff_getElem?.mpr ⟨startRank chunks i + m, ?_⟩
      rw [getElem?_take_of_lt (by omega)]
      exact sequence_get lt known
    have before := passed _ mem
    omega
  have below := take_cut_lt lt least bound passed fun k known less => by
    have before := (cut k known).mp less
    omega
  rcases advanceWithin_cut opened stands same least bound cut with
    ⟨more, found, step, on⟩ | ⟨rfl, ready, step, idx, counted⟩
  · have here := (cut m more).not.mp (lt_irrefl m)
    rw [step]
    exact .inl ⟨i, m, lt, more, on, on.curr.symm, by omega, below⟩
  rw [step]
  rw [← startRank_succ lt] at below
  refine nextBucket_lands opened (show i + 1 ≤ chunks.length from lt) ?_ counted below fun known => ?_
  · rw [idx]
    rfl
  · have above := upper_succ opened.sorted lt known
    rw [add_mul, one_mul] at above
    omega

theorem take_buckets_lt {k m : Nat} (order : k ≤ m) (most : m ≤ chunks.length)
    (passed : ∀ v ∈ (sequenceOf chunks).take (startRank chunks k), v < least)
    (below : ∀ l (known : l < chunks.length), k ≤ l → l < m →
      (chunks[l].upper + 1) * bucketWidth ≤ least) :
    ∀ v ∈ (sequenceOf chunks).take (startRank chunks m), v < least := by
  induction m, order using le_induction with
  | base => exact passed
  | succ m lower ih =>
    have known : m < chunks.length := most
    have before := ih (le_of_lt known) fun l inner first last =>
      below l inner first (lt_succ_of_lt last)
    have whole := below m known lower (lt_succ_self _)
    rw [startRank_succ known]
    refine take_cut_lt known (zero_le _) le_rfl before fun j inner _ => ?_
    have small := chunks[m].small _ (getElem_mem inner)
    rw [add_mul, one_mul] at whole
    omega

theorem bucket_of_value {chunk : Chunk} {v : Nat} (mem : v ∈ chunk.values) :
    v / bucketWidth = chunk.upper := by
  obtain ⟨low, known, rfl⟩ := mem_map.mp mem
  have small := chunk.small low known
  unfold bucketWidth at *
  omega

theorem Lost.below (lost : Lost chunks it least) :
    ∀ v ∈ sequenceOf chunks, v / bucketWidth < least / bucketWidth := by
  intro v mem
  obtain ⟨chunk, listed, inside⟩ := mem_flatMap.mp mem
  rw [bucket_of_value inside]
  exact lost.passed chunk listed

theorem Lost.mono (lost : Lost chunks it least) {more : Nat} (order : least ≤ more) :
    Lost chunks it more := by
  have later : least / bucketWidth ≤ more / bucketWidth := Nat.div_le_div_right order
  refine ⟨lost.base.trans_le ?_, fun chunk mem => (lost.passed chunk mem).trans_le later⟩
  exact Int.ofNat_le.mpr (Nat.mul_le_mul_right _ later)

theorem advanceBucket_none (opened : Opened bitset chunks) (it : Iterator) {upperBits : Nat}
    (below : ∀ chunk ∈ chunks, chunk.upper < upperBits) (rounds k : Nat) :
    ∃ left, it.advanceBucket bitset upperBits rounds k = (false, left) ∧
      left.bucketBase = it.bucketBase ∧ left.curr = it.curr := by
  fun_induction advanceBucket bitset it upperBits rounds k with
  | case1 it | case4 it => exact ⟨it, rfl, rfl, rfl⟩
  | case2 it rounds k more next met =>
    have lt : k < chunks.length := opened.count ▸ more
    have passed := below _ (getElem_mem lt)
    rw [opened.upper k lt] at met
    omega
  | case3 it rounds k more next met ih => exact ih

/-- A skip behind the last bucket finds nothing, and stores nothing. -/
theorem Lost.advance (opened : Opened bitset chunks) (lost : Lost chunks it target) :
    ∃ left, it.advance bitset target = (endValue, left) ∧ Lost chunks left target ∧
      left.curr = it.curr := by
  obtain ⟨left, step, base, curr⟩ := advanceBucket_none opened it lost.passed bitset.nBuckets
    (it.bucketIdx + 1).toNat
  refine ⟨left, ?_, ⟨base ▸ lost.base, lost.passed⟩, curr⟩
  unfold Iterator.advance
  dsimp only
  rw [if_pos lost.base.ne', step, Bool.not_false, if_pos rfl]

theorem start_base_lt (target : Nat) :
    start.bucketBase < (target / bucketWidth * bucketWidth : Nat) := by
  show (-1 : Int) < _
  omega

theorem At.base_lt (stands : At bitset chunks it i n lt)
    (below : chunks[i].upper < target / bucketWidth) :
    it.bucketBase < (target / bucketWidth * bucketWidth : Nat) := by
  rw [stands.base]
  exact Int.ofNat_lt.mpr (mul_lt_mul_of_pos_right below (by decide))

theorem advanceFar_lands (opened : Opened bitset chunks) {k : Nat} (idx : it.bucketIdx + 1 = k)
    (counted : it.bucketRank + it.bucketSize = startRank chunks k)
    (passed : ∀ l (known : l < chunks.length), l < k → chunks[l].upper < target / bucketWidth)
    (base : it.bucketBase < (target / bucketWidth * bucketWidth : Nat)) :
    Lands bitset chunks target (it.advance bitset target) := by
  have index : (it.bucketIdx + 1).toNat = k := by omega
  have below : ∀ upper, upper < target / bucketWidth → (upper + 1) * bucketWidth ≤ target :=
    fun upper => (le_div_iff_mul_le (by decide)).mp
  rcases advanceBucket_spec opened (show chunks.length ≤ bitset.nBuckets + k by
      rw [opened.count]
      omega) counted with
    ⟨m, lt, lower, met, between, ready, step, stands⟩ | behind
  · unfold Iterator.advance
    rw [if_pos base.ne', index, step]
    have before := take_buckets_lt (zero_le m) (le_of_lt lt) (fun v mem => by cases mem)
      fun l known _ last => below _ ((lt_or_ge l k).elim (passed l known)
        fun first => between l known first last)
    dsimp only
    rw [Bool.not_true, if_neg Bool.false_ne_true, stands.base]
    split_ifs with beyond
    · have above : target ≤ chunks[m].upper * bucketWidth := by
        unfold bucketWidth at *
        omega
      refine next_lands opened stands before (fun known => by omega) ?_
      rw [add_mul, one_mul]
      omega
    · have eq : target / bucketWidth = chunks[m].upper := by
        unfold bucketWidth at *
        omega
      exact advanceWithin_lands opened stands eq before
  · have lost : Lost chunks it target := by
      refine ⟨base, fun chunk mem => ?_⟩
      obtain ⟨l, known, rfl⟩ := mem_iff_getElem.mp mem
      exact (lt_or_ge l k).elim (passed l known) (behind l known)
    obtain ⟨left, step, gone, -⟩ := lost.advance opened
    rw [step]
    exact .inr ⟨rfl, fun v mem => lt_of_div_lt_div (gone.below v mem), .inr gone⟩

end

/-- A walk: the iterator, the result of its last call, and a bound above all targets so far. After
the sentinel only skips follow. -/
inductive Walk (bitset : BitSet) : Iterator → Int → Nat → Prop
  | start : Walk bitset start (-1) 0
  | next {it : Iterator} {result : Int} {least : Nat} (walk : Walk bitset it result least)
      (going : result ≠ endValue) :
      Walk bitset (it.next bitset).2 (it.next bitset).1 least
  | advance {it : Iterator} {result : Int} {least : Nat} (walk : Walk bitset it result least)
      (target : Nat) (behind : it.curr < target) (later : least ≤ target)
      (bound : (target : Int) ≤ endValue) :
      Walk bitset (it.advance bitset target).2 (it.advance bitset target).1 (target + 1)

variable {i j least : Nat} {lt : i < chunks.length}

inductive Standing (bitset : BitSet) (chunks : List Chunk) : Iterator → Int → Nat → Prop
  | fresh : Standing bitset chunks start (-1) 0
  | on {it : Iterator} {i j least : Nat} (inside : i < chunks.length)
      (known : j < chunks[i].locals.length) (on : On bitset chunks it i j inside known) :
      Standing bitset chunks it it.curr least
  | ended {it : Iterator} {least : Nat} (curr : it.curr = endValue) :
      Standing bitset chunks it endValue least
  | lost {it : Iterator} {least : Nat} (lost : Lost chunks it least) :
      Standing bitset chunks it endValue least

theorem Lands.standing (lands : Lands bitset chunks least out)
    {more : Nat} (order : least ≤ more) : Standing bitset chunks out.2 out.1 more := by
  rcases lands with ⟨i, j, lt, known, on, same, _⟩ | ⟨same, _, curr | lost⟩
  all_goals rw [same]
  · exact .on lt known on
  · exact .ended curr
  · exact .lost (lost.mono order)

section
variable (bitset : BitSet) (it : Iterator)

theorem nextBucket_curr : (it.nextBucket bitset).1 = (it.nextBucket bitset).2.curr := by
  unfold nextBucket
  split
  · rfl
  · dsimp only
    split <;> rfl

theorem denseNextMaybe_curr (words : Nat) :
    (it.denseNextMaybe bitset words).1 = (it.denseNextMaybe bitset words).2.curr := by
  unfold denseNextMaybe
  dsimp only
  split
  · split
    · rfl
    · exact nextBucket_curr bitset it
  · exact nextBucket_curr bitset it

theorem next_curr : (it.next bitset).1 = (it.next bitset).2.curr := by
  unfold Iterator.next
  split
  · split
    · exact nextBucket_curr bitset it
    · rfl
  · exact denseNextMaybe_curr bitset it _

theorem advanceWithin_curr (target : Nat) :
    (it.advanceWithin bitset target).1 = (it.advanceWithin bitset target).2.curr := by
  unfold advanceWithin
  split
  · dsimp only
    split
    · exact nextBucket_curr bitset it
    · rfl
  · exact denseNextMaybe_curr bitset _ _

theorem advanceBucket_curr (upperBits rounds k : Nat)
    (failed : (it.advanceBucket bitset upperBits rounds k).1 = false) :
    (it.advanceBucket bitset upperBits rounds k).2.curr = it.curr := by
  fun_induction advanceBucket with
  | case1 | case4 => rfl
  | case2 => cases failed
  | case3 _ _ _ _ _ _ ih => exact ih failed

theorem advance_curr (target : Nat) :
    (it.advance bitset target).1 = (it.advance bitset target).2.curr ∨
      (it.advance bitset target).1 = endValue ∧ (it.advance bitset target).2.curr = it.curr := by
  unfold advance
  dsimp only
  split
  · split
    next failed => exact .inr ⟨rfl, advanceBucket_curr bitset it _ _ _ (by simpa using failed)⟩
    · split
      · exact .inl (next_curr bitset _)
      · exact .inl (advanceWithin_curr bitset _ target)
  · exact .inl (advanceWithin_curr bitset it target)

end

theorem value_lt_iff (sorted : Sorted chunks) {p q v w : Nat}
    (first : (sequenceOf chunks)[p]? = some v) (second : (sequenceOf chunks)[q]? = some w) :
    v < w ↔ p < q := by
  obtain ⟨_, rfl⟩ := List.getElem?_eq_some_iff.mp first
  obtain ⟨_, rfl⟩ := List.getElem?_eq_some_iff.mp second
  exact (sequence_pairwise sorted).sortedLT.getElem_lt_getElem_iff

theorem Lands.standing_next (lands : Lands bitset chunks least (it.next bitset)) (more : Nat) :
    Standing bitset chunks (it.next bitset).2 (it.next bitset).1 more := by
  have kept := next_curr bitset it
  rcases lands with ⟨i, j, lt, known, on, same, _⟩ | ⟨same, _⟩
  · rw [same]
    exact .on lt known on
  · rw [same] at kept ⊢
    exact .ended kept.symm

theorem Lands.ceiling (sorted : Sorted chunks)
    (lands : Lands bitset chunks least out) : Ceiling (sequenceOf chunks) least out.1 := by
  rcases lands with ⟨i, j, lt, known, on, same, met, passed⟩ | ⟨same, all, _⟩
  · have found := sequence_get lt known
    refine .inr ⟨_, mem_of_getElem? found, same.trans on.curr, met, fun v mem more => ?_⟩
    obtain ⟨p, at_p⟩ := mem_iff_getElem?.mp mem
    by_contra! less
    have order := (value_lt_iff sorted at_p found).mp less
    have before := passed v (mem_iff_getElem?.mpr ⟨p, by rwa [getElem?_take_of_lt order]⟩)
    omega
  · exact .inl ⟨same, all⟩

variable {known : j < chunks[i].locals.length} {out : Int}

theorem On.passed (sorted : Sorted chunks) (on : On bitset chunks it i j lt known)
    (more : it.curr < (least : Int)) :
    ∀ v ∈ (sequenceOf chunks).take (startRank chunks i + (j + 1)), v < least := by
  intro v mem
  obtain ⟨p, at_p⟩ := mem_iff_getElem?.mp mem
  rw [getElem?_take] at at_p
  split_ifs at at_p with order
  have before := (value_lt_iff sorted (sequence_get lt known) at_p).not.mpr (by omega)
  have curr := on.curr
  omega

variable (opened : Opened bitset chunks)
include opened

theorem next_on_lands (on : On bitset chunks it i j lt known) :
    Lands bitset chunks (chunks[i].upper * bucketWidth + chunks[i].locals[j] + 1)
      (it.next bitset) := by
  have small := chunks[i].small _ (getElem_mem known)
  refine next_lands opened on.at_next (On.passed opened.sorted on ?_) (fun more => ?_) ?_
  · rw [on.curr]
    omega
  · have strict := pairwise_iff_getElem.mp chunks[i].increasing j (j + 1) known more
      (lt_succ_self _)
    omega
  · rw [add_mul, one_mul]
    omega

theorem advance_on_lands (on : On bitset chunks it i j lt known) (past : it.curr < target) :
    Lands bitset chunks target (it.advance bitset target) := by
  have passed := On.passed opened.sorted on past
  have stands := on.at_next
  have curr := on.curr
  by_cases same : ((target / bucketWidth * bucketWidth : Nat) : Int) = it.bucketBase
  · have eq : target / bucketWidth = chunks[i].upper := by
      rw [stands.base] at same
      exact eq_of_mul_eq_mul_right (show 0 < bucketWidth by decide) (Int.ofNat_inj.mp same)
    unfold advance
    rw [if_neg (not_not.mpr same)]
    exact advanceWithin_lands opened stands eq passed
  · have above : (chunks[i].upper + 1) * bucketWidth ≤ target := by
      rw [stands.base] at same
      unfold bucketWidth at curr same ⊢
      omega
    have higher : chunks[i].upper < target / bucketWidth :=
      (le_div_iff_mul_le (by decide)).mpr above
    refine advanceFar_lands opened (show it.bucketIdx + 1 = ((i + 1 : Nat) : Int) by
      rw [stands.idx]
      rfl) ?_ (fun l inside first => ?_) (At.base_lt stands higher)
    · rw [startRank_succ lt, stands.rank, stands.size]
    · rcases lt_or_eq_of_le (le_of_lt_succ first) with less | rfl
      · exact (pairwise_iff_getElem.mp opened.sorted.ascending l i inside lt less).trans higher
      · exact higher

theorem next_start_lands : Lands bitset chunks 0 (start.next bitset) := by
  have step : start.next bitset = start.nextBucket bitset := rfl
  rw [step]
  exact nextBucket_lands opened (zero_le _) rfl rfl (fun v mem => by cases mem) fun _ => zero_le _

theorem advance_start_lands (target : Nat) :
    Lands bitset chunks target (start.advance bitset target) :=
  advanceFar_lands opened (show start.bucketIdx + 1 = ((0 : Nat) : Int) from rfl) rfl
    (fun l _ early => absurd early (not_lt_zero l)) (start_base_lt target)

/-- Every state of a walk is one of the four. -/
theorem Walk.standing (walk : Walk bitset it out least) : Standing bitset chunks it out least := by
  induction walk with
  | start => exact .fresh
  | next _ going ih =>
    cases ih with
    | fresh => exact (next_start_lands opened).standing_next _
    | on lt known on => exact (next_on_lands opened on).standing_next _
    | ended | lost => exact absurd rfl going
  | advance _ target past later bound ih =>
    cases ih with
    | fresh => exact (advance_start_lands opened target).standing (le_succ _)
    | on lt known on => exact (advance_on_lands opened on past).standing (le_succ _)
    | ended => omega
    | lost lost =>
      obtain ⟨left, step, gone, -⟩ := (lost.mono later).advance opened
      rw [step]
      exact .lost (gone.mono (le_succ _))

theorem rank_on (on : On bitset chunks it i j lt known) :
    it.rank bitset = (startRank chunks i + j : Nat) := by
  have ranked := on.at_next.rank
  unfold rank
  rcases on.at_next.bucket with ⟨_, bucket⟩ | ⟨dense, bucket, _⟩
  · rw [bucket]
    dsimp only
    omega
  obtain ⟨rest, block⟩ := opened.block i lt
  have small := chunks[i].small _ (getElem_mem known)
  rw [bucket]
  rw [on.curr, local_index _ small, ranked]
  have counted := rankDense_eq (dense_words dense block) small
  rw [rank_local chunks[i] known] at counted
  show ((startRank chunks i : Nat) : Int) +
    (rankDense bitset.file (place bitset i) chunks[i].locals[j] : Nat) = _
  rw [show rankDense bitset.file (place bitset i) chunks[i].locals[j] = j from counted,
    Int.natCast_add]

section
variable (walk : Walk bitset it out least)
include walk

theorem Walk.next_ceiling (going : out ≠ endValue) :
    Ceiling (sequenceOf chunks) (out + 1).toNat (it.next bitset).1 := by
  cases walk.standing opened with
  | fresh => exact (next_start_lands opened).ceiling opened.sorted
  | on lt known on =>
    have lands := (next_on_lands opened on).ceiling opened.sorted
    rw [on.curr]
    exact lands
  | ended | lost => exact absurd rfl going

theorem Walk.advance_ceiling (past : it.curr < target) (later : least ≤ target)
    (bound : (target : Int) ≤ endValue) :
    Ceiling (sequenceOf chunks) target (it.advance bitset target).1 := by
  cases walk.standing opened with
  | fresh => exact (advance_start_lands opened target).ceiling opened.sorted
  | on lt known on => exact (advance_on_lands opened on past).ceiling opened.sorted
  | ended => omega
  | lost lost =>
    obtain ⟨left, step, gone, -⟩ := (lost.mono later).advance opened
    rw [step]
    exact .inl ⟨rfl, fun v mem => lt_of_div_lt_div (gone.below v mem)⟩

/-- A skip stores what it returns just when the set has a value in or behind the target's bucket. -/
theorem Walk.advance_val_iff (past : it.curr < target) (later : least ≤ target)
    (bound : (target : Int) ≤ endValue) :
    (it.advance bitset target).1 = (it.advance bitset target).2.curr ↔
      ∃ v ∈ sequenceOf chunks, target / bucketWidth ≤ v / bucketWidth := by
  have standing := walk.standing opened
  by_cases ahead : ∃ v ∈ sequenceOf chunks, target / bucketWidth ≤ v / bucketWidth
  · refine iff_of_true ?_ ahead
    have found : ∀ it, ¬Lost chunks it target := by
      obtain ⟨v, mem, ahead⟩ := ahead
      exact fun it lost => Nat.not_lt_of_le ahead (lost.below v mem)
    have stored : Lands bitset chunks target (it.advance bitset target) →
        (it.advance bitset target).1 = (it.advance bitset target).2.curr := by
      rintro (⟨i, j, lt, known, on, same, _⟩ | ⟨same, _, curr | lost⟩)
      · exact same
      · exact same.trans curr.symm
      · exact absurd lost (found _)
    cases standing with
    | fresh => exact stored (advance_start_lands opened target)
    | on lt known on => exact stored (advance_on_lands opened on past)
    | ended => omega
    | lost lost => exact absurd (lost.mono later) (found it)
  · refine iff_of_false (fun same => ?_) ahead
    have passed : ∀ chunk ∈ chunks, chunk.upper < target / bucketWidth := by
      intro chunk mem
      obtain ⟨low, known⟩ := exists_mem_of_ne_nil _ chunk.nonempty
      have value : _ ∈ chunk.values := mem_map_of_mem known
      rw [← bucket_of_value value]
      exact Nat.lt_of_not_le fun met => ahead ⟨_, mem_flatMap.mpr ⟨chunk, mem, value⟩, met⟩
    have lost : Lost chunks it target := by
      refine ⟨?_, passed⟩
      cases standing with
      | fresh => exact start_base_lt target
      | on lt known on => exact At.base_lt on.at_next (passed _ (getElem_mem lt))
      | ended => omega
      | lost lost => exact (lost.mono later).base
    obtain ⟨left, step, -, curr⟩ := lost.advance opened
    rw [step] at same
    dsimp only at same
    omega

theorem Walk.rank (found : 0 ≤ out) (going : out ≠ endValue) :
    ∃ index, it.rank bitset = (index : Nat) ∧ (sequenceOf chunks)[index]? = some out.toNat := by
  cases walk.standing opened with
  | fresh => omega
  | on lt known on =>
    refine ⟨_, rank_on opened on, ?_⟩
    rw [on.curr]
    exact sequence_get lt known
  | ended | lost => exact absurd rfl going

end

variable (small : ∀ v ∈ sequenceOf chunks, (v : Int) < endValue)
include small

theorem ended_stays (stepped : it.next bitset = it.nextBucket bitset)
    (again : { it with curr := endValue }.next bitset =
      { it with curr := endValue }.nextBucket bitset) {k : Nat} (most : k ≤ chunks.length)
    (idx : it.bucketIdx + 1 = k) (counted : it.bucketRank + it.bucketSize = startRank chunks k)
    (ended : (it.next bitset).1 = endValue) :
    (it.next bitset).2.next bitset = (endValue, (it.next bitset).2) := by
  rcases lt_or_eq_of_le most with lt | rfl
  · have first := length_locals_pos chunks[k]
    obtain ⟨found, step, _⟩ := nextBucket_on opened lt first idx counted
    have below := small _ (mem_of_getElem? (sequence_get lt first))
    rw [stepped, step] at ended
    omega
  · have last : it.bucketIdx + 1 ≥ bitset.nBuckets := by
      rw [opened.count]
      omega
    have spent : it.nextBucket bitset = (endValue, { it with curr := endValue }) := by
      unfold nextBucket
      rw [if_pos last]
    rw [stepped, spent]
    rw [again]
    unfold nextBucket
    rw [if_pos last]

omit opened in
theorem next_at_end (stands : At bitset chunks it i chunks[i].locals.length lt) :
    { it with curr := endValue }.next bitset = { it with curr := endValue }.nextBucket bitset := by
  unfold Iterator.next
  rcases stands.bucket with ⟨_, bucket⟩ | ⟨_, bucket, _⟩
  · rw [bucket]
    dsimp only
    rw [stands.size, if_pos (by omega)]
  have below := small _ (mem_of_getElem? (sequence_get lt (length_locals_pos chunks[i])))
  rw [bucket]
  unfold denseNextMaybe
  dsimp only
  rw [stands.base, if_neg]
  unfold endValue bucketWidth at *
  omega

theorem Walk.next_stays (walk : Walk bitset it out least) (going : out ≠ endValue)
    (ended : (it.next bitset).1 = endValue) :
    (it.next bitset).2.next bitset = (endValue, (it.next bitset).2) := by
  cases walk.standing opened with
  | fresh => exact ended_stays opened small rfl rfl (zero_le _) rfl rfl ended
  | on lt known on =>
    have stands := on.at_next
    rcases lt_or_eq_of_le stands.bound with more | all
    · obtain ⟨found, step, _⟩ := next_on opened stands more
      have below := small _ (mem_of_getElem? (sequence_get lt more))
      rw [step] at ended
      omega
    · rw [all] at stands
      refine ended_stays opened small (next_exhausted opened stands) (next_at_end small stands)
        lt ?_ ?_ ended
      · rw [stands.idx]
        rfl
      · rw [startRank_succ lt, stands.rank, stands.size]
  | ended | lost => exact absurd rfl going

theorem Walk.advance_ended (walk : Walk bitset it out least) (gone : out = endValue)
    (past : it.curr < target) (later : least ≤ target) (bound : (target : Int) ≤ endValue) :
    (it.advance bitset target).1 = endValue := by
  cases walk.standing opened with
  | fresh => cases gone
  | on lt known on =>
    have below := small _ (mem_of_getElem? (sequence_get lt known))
    rw [← on.curr] at below
    omega
  | ended => omega
  | lost lost =>
    obtain ⟨left, step, -⟩ := (lost.mono later).advance opened
    rw [step]

end Luxir.Screaming.SetWalk
