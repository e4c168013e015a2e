import Luxir.Screaming.SetBuilding
import Luxir.Screaming.SetWalk
import Mathlib.Data.List.Perm.Subperm

/-!
A set that was built is read back: by steps, by skips, by rank and by index.
-/

namespace Luxir.Screaming.SetRoundTrip
open Lib.Bytes Lib.Bits Util.BranchlessSearch List
open SetBuilder SetReader DenseWords Chunks SetImage SetBuilding SetCursor SetWalk Selector

def steps (bitset : BitSet) : Nat → Iterator → List Int
  | 0, _ => []
  | count + 1, it => (it.next bitset).1 :: steps bitset count (it.next bitset).2

variable {k v : Nat} {it : Iterator} {out : Int} {least : Nat}

section
variable {bitset : BitSet} {chunks : List Chunk}

theorem rank_whole (chunk : Chunk) :
    rank (bitsOf chunk.locals) bucketWidth = chunk.locals.length := by
  rw [rank_bitsOf, countP_eq_length]
  intro v mem
  exact decide_eq_true (chunk.small v mem)

theorem selectInBucket_eq (opened : Opened bitset chunks) {i j : Nat} (lt : i < chunks.length)
    (known : j < chunks[i].locals.length) :
    bitset.selectInBucket i j = (chunks[i].upper * bucketWidth + chunks[i].locals[j] : Nat) := by
  obtain ⟨rest, block⟩ := opened.block i lt
  unfold BitSet.selectInBucket BitSet.bucketBase
  dsimp only
  rw [opened.size i lt, opened.upper i lt]
  split_ifs with sparse
  · rw [sparse_read sparse block known]
  have words := dense_words sparse block
  have here := (testBit_bitsOf _ _).mpr (getElem_mem known)
  obtain ⟨found, ranked⟩ := selectDense_spec words (show j < rank (bitsOf chunks[i].locals)
    bucketWidth by
      rw [rank_whole]
      exact known)
  have same := eq_of_rank_eq found here (ranked.trans (rank_local chunks[i] known).symm)
  rw [same]

theorem length_le_startRank (chunks : List Chunk) {i : Nat} (lt : i < chunks.length)
    (lower : startRank chunks i ≤ k) (upper : k < startRank chunks (i + 1)) :
    ∃ known : k - startRank chunks i < chunks[i].locals.length, (sequenceOf chunks)[k]? =
      some (chunks[i].upper * bucketWidth + chunks[i].locals[k - startRank chunks i]) := by
  rw [startRank_succ lt] at upper
  have known : k - startRank chunks i < chunks[i].locals.length := by omega
  have found := sequence_get lt known
  rw [Nat.add_sub_cancel' lower] at found
  exact ⟨known, found⟩

section
variable (opened : Opened bitset chunks)
include opened

theorem selectInBucket_rank {i : Nat} (lt : i < chunks.length) (lower : startRank chunks i ≤ k)
    (upper : k < startRank chunks (i + 1)) (found : (sequenceOf chunks)[k]? = some v) :
    bitset.selectInBucket i (k - startRank chunks i) = v := by
  obtain ⟨known, same⟩ := length_le_startRank chunks lt lower upper
  rw [found] at same
  rw [selectInBucket_eq opened lt known, Option.some.inj same]

theorem selectFrom_eq (found : (sequenceOf chunks)[k]? = some v) (rounds bi : Nat)
    (whole : bi + rounds = chunks.length) (lower : startRank chunks bi ≤ k) :
    bitset.selectFrom k rounds bi (startRank chunks bi) = v := by
  induction rounds generalizing bi with
  | zero =>
    have most := (List.getElem?_eq_some_iff.mp found).1
    rw [← startRank_length, ← whole, add_zero] at most
    omega
  | succ rounds ih =>
    have lt : bi < chunks.length := by omega
    unfold BitSet.selectFrom
    dsimp only
    rw [opened.size bi lt, ← startRank_succ lt]
    split_ifs with here
    · exact selectInBucket_rank opened lt lower here found
    · exact ih (bi + 1) (by omega) (not_lt.mp here)

theorem select_eq (found : (sequenceOf chunks)[k]? = some v) : bitset.select k = v := by
  unfold BitSet.select
  rw [opened.count]
  exact selectFrom_eq opened found chunks.length 0 (zero_add _) (Nat.zero_le _)

theorem cardinality_eq : bitset.cardinality = (sequenceOf chunks).length := by
  have counted : ∀ n ≤ chunks.length, (range n).foldl
      (fun c i => c + ((bitset.descriptor i).size + 1)) 0 = startRank chunks n := by
    intro n most
    induction n with
    | zero => rfl
    | succ n ih =>
      rw [range_succ, foldl_append, ih (Nat.le_of_succ_le most)]
      rw [foldl_cons, foldl_nil, opened.size n most, startRank_succ most]
  unfold BitSet.cardinality
  rw [opened.count, counted _ (le_rfl), startRank_length]

theorem bucketStartRank_eq :
    (ofSet bitset).bucketStartRank = (range (chunks.length + 1)).map (startRank chunks) := by
  have counted : ∀ n ≤ chunks.length, (range n).foldl
      (fun ranks i => ranks ++ [ranks.getLastD 0 + ((bitset.descriptor i).size + 1)]) [0] =
        (range (n + 1)).map (startRank chunks) := by
    intro n most
    induction n with
    | zero => rfl
    | succ n ih =>
      rw [range_succ, foldl_append, ih (Nat.le_of_succ_le most)]
      rw [foldl_cons, foldl_nil, opened.size n most]
      have longer : range (n + 1 + 1) = range (n + 1) ++ [n + 1] := range_succ
      have last : ((range (n + 1)).map (startRank chunks)).getLastD 0 = startRank chunks n := by
        rw [range_succ, map_append, map_singleton, getLastD_concat]
      rw [last, longer, map_append, map_singleton, startRank_succ most]
  show (range bitset.nBuckets).foldl _ _ = _
  rw [opened.count]
  exact counted _ (le_rfl)

end

theorem startRank_mono (chunks : List Chunk) {first second : Nat} (order : first ≤ second) :
    startRank chunks first ≤ startRank chunks second := by
  obtain ⟨between, rfl⟩ := Nat.exists_eq_add_of_le order
  unfold startRank sequenceOf
  rw [take_add, flatMap_append, length_append]
  exact Nat.le_add_right _ _

theorem selector_select_eq (opened : Opened bitset chunks)
    (found : (sequenceOf chunks)[k]? = some v) : (ofSet bitset).select k = v := by
  have read : ∀ i ≤ chunks.length,
      (ofSet bitset).bucketStartRank.getD i 0 = startRank chunks i := by
    intro i bound
    rw [bucketStartRank_eq opened, getD_eq_getElem?_getD, getElem?_map,
      getElem?_range (Nat.lt_succ_of_le bound)]
    rfl
  have most := (List.getElem?_eq_some_iff.mp found).1
  rw [← startRank_length] at most
  have ascends : ∀ first second, first ≤ second → second < chunks.length + 1 →
      (ofSet bitset).bucketStartRank.getD first 0 ≤
        (ofSet bitset).bucketStartRank.getD second 0 := by
    intro first second order lt
    rw [read first (by omega), read second (by omega)]
    exact startRank_mono chunks order
  have cut := upperBound_cut k ascends
  have past : ∀ i ≤ chunks.length, startRank chunks i ≤ k ↔
      i < upperBound (fun i => (ofSet bitset).bucketStartRank.getD i 0) (chunks.length + 1) k := by
    intro i bound
    have moved := cut.past_iff (Nat.lt_succ_of_le bound)
    rw [read i bound, Bool.not_eq_true', decide_eq_false_iff_not, Nat.not_lt] at moved
    exact moved
  have first := (past 0 (Nat.zero_le _)).mp (Nat.zero_le _)
  have last := mt (past chunks.length (le_rfl)).mpr (not_le.mpr most)
  show BitSet.selectInBucket bitset _ _ = _
  rw [show (ofSet bitset).bitset.nBuckets = chunks.length from opened.count]
  generalize upperBound (fun i => (ofSet bitset).bucketStartRank.getD i 0)
    (chunks.length + 1) k = up at past first last
  obtain ⟨bi, rfl⟩ : ∃ bi, up = bi + 1 := ⟨up - 1, by omega⟩
  have lt : bi < chunks.length := by omega
  rw [Nat.add_sub_cancel, read bi (le_of_lt lt)]
  refine selectInBucket_rank opened lt ((past bi (by omega)).mpr (by omega)) ?_ found
  exact not_le.mp (mt (past (bi + 1) (by omega)).mp (lt_irrefl _))

theorem selector_cardinality_eq (opened : Opened bitset chunks) :
    (ofSet bitset).cardinality = (sequenceOf chunks).length := by
  unfold cardinality
  rw [bucketStartRank_eq opened, range_succ, map_append, map_singleton,
    getLastD_concat, startRank_length]

theorem Ceiling.next {sequence : List Nat} (rising : sequence.Pairwise fun low high => low < high)
    {before after : List Nat} (split : sequence = before ++ after)
    (passed : ∀ v ∈ before, v < least) (ahead : ∀ v ∈ after, least ≤ v)
    (ceiling : Ceiling sequence least out) :
    out = match after with
      | [] => endValue
      | value :: _ => (value : Int) := by
  subst split
  cases after with
  | nil =>
    rcases ceiling with ⟨same, _⟩ | ⟨value, mem, _, met, _⟩
    · exact same
    · rw [append_nil] at mem
      have less := passed value mem
      omega
  | cons first =>
    have reach := ahead first mem_cons_self
    rcases ceiling with ⟨_, all⟩ | ⟨value, mem, same, met, lowest⟩
    · have less := all first (by simp)
      omega
    have below := lowest first (by simp) reach
    rcases mem_append.mp mem with early | late
    · have less := passed value early
      omega
    rcases mem_cons.mp late with rfl | later
    · exact same
    · have order := (pairwise_append.mp rising).2.1
      have strict := (pairwise_cons.mp order).1 value later
      omega

theorem steps_eq (opened : Opened bitset chunks) {after : List Nat}
    (small : ∀ v ∈ sequenceOf chunks, (v : Int) < endValue) {before : List Nat}
    (split : sequenceOf chunks = before ++ after)
    (walk : Walk bitset it out least) (going : out ≠ endValue)
    (passed : ∀ v ∈ before, v < (out + 1).toNat) (ahead : ∀ v ∈ after, (out + 1).toNat ≤ v) :
    steps bitset (after.length + 1) it = after.map Int.ofNat ++ [endValue] := by
  have rising := sequence_pairwise opened.sorted
  induction after generalizing before it out with
  | nil =>
    have ended := Ceiling.next rising split passed ahead (walk.next_ceiling opened going)
    show [(it.next bitset).1] = [endValue]
    rw [ended]
  | cons first rest ih =>
    have value := Ceiling.next rising split passed ahead (walk.next_ceiling opened going)
    dsimp only at value
    have mem : first ∈ sequenceOf chunks := by
      rw [split]
      simp
    have fits := small first mem
    have order := rising
    rw [split, pairwise_append] at order
    obtain ⟨_, tail, across⟩ := order
    have later := (pairwise_cons.mp tail).1
    show (it.next bitset).1 :: steps bitset (rest.length + 1) (it.next bitset).2 =
      Int.ofNat first :: (rest.map Int.ofNat ++ [endValue])
    have regrouped : sequenceOf chunks = before ++ [first] ++ rest := by
      rw [split, append_assoc]
      rfl
    rw [ih regrouped (walk.next going) (by omega) ?_ ?_, value]
    · rfl
    · intro v found
      rw [value]
      rcases mem_append.mp found with early | last
      · have less := across v early first mem_cons_self
        omega
      · rw [mem_singleton.mp last]
        omega
    · intro v found
      have less := later v found
      rw [value]
      omega

/-- Every way to read a set agrees with a sequence. -/
structure ReadsAs (bitset : BitSet) (sequence : List Nat) : Prop where
  iterates : steps bitset (sequence.length + 1) Iterator.start =
    sequence.map Int.ofNat ++ [endValue]
  next : ∀ {it result least}, Walk bitset it result least → result ≠ endValue →
    Ceiling sequence (result + 1).toNat (it.next bitset).1
  advance : ∀ {it result least}, Walk bitset it result least → ∀ target : Nat, it.curr < target →
    least ≤ target → (target : Int) ≤ endValue →
      Ceiling sequence target (it.advance bitset target).1
  rank : ∀ {it result least}, Walk bitset it result least → 0 ≤ result → result ≠ endValue →
    ∃ index, it.rank bitset = (index : Nat) ∧ sequence[index]? = some result.toNat
  select : ∀ (k : Nat) (known : k < sequence.length), bitset.select k = sequence[k]
  selector : ∀ (k : Nat) (known : k < sequence.length), (ofSet bitset).select k = sequence[k]
  cardinality : bitset.cardinality = sequence.length
  selectorCardinality : (ofSet bitset).cardinality = sequence.length

theorem readsAs_opened (opened : Opened bitset chunks)
    (small : ∀ v ∈ sequenceOf chunks, v < 2147483647) : ReadsAs bitset (sequenceOf chunks) where
  iterates := by
    have bounded : ∀ v ∈ sequenceOf chunks, (v : Int) < endValue := by
      intro v mem
      have fits := small v mem
      rw [endValue]
      omega
    have begun : Walk bitset Iterator.start (-1) 0 := Walk.start
    exact steps_eq opened bounded (nil_append (sequenceOf chunks)).symm begun
      (by decide) (fun v mem => absurd mem not_mem_nil) (fun v _ => Nat.zero_le v)
  next walk going := walk.next_ceiling opened going
  advance walk _ past later bound := walk.advance_ceiling opened past later bound
  rank walk found going := walk.rank opened found going
  select _ known := select_eq opened (getElem?_eq_getElem known)
  selector _ known := selector_select_eq opened (getElem?_eq_getElem known)
  cardinality := cardinality_eq opened
  selectorCardinality := selector_cardinality_eq opened

end

variable {scratchSize : Nat} {sequence : List Nat}

def setOf (scratchSize : Nat) (sequence : List Nat) (front back : Bytes) : BitSet :=
  let image := (Builder.build scratchSize sequence).out
  BitSet.ofEnd (front ++ (image ++ back)) (front.length + image.length)

theorem setOf_opened (room : 16 ≤ scratchSize)
    (rising : sequence.Pairwise fun low high => low < high)
    (small : ∀ v ∈ sequence, v < 2147483647) (front back : Bytes) :
    ∃ chunks, sequence = sequenceOf chunks ∧ Opened (setOf scratchSize sequence front back) chunks ∧
      (Builder.build scratchSize sequence).cardinality = sequence.length := by
  have pos : 1 ≤ Builder.maxDescriptors scratchSize := by
    unfold Builder.maxDescriptors
    omega
  obtain ⟨chunks, sorted, wrote, same, counted⟩ := build_image pos rising small
  refine ⟨chunks, same, ?_, ?_⟩
  · unfold setOf
    rw [wrote]
    exact opened sorted front back
  have most :=
    (subperm_of_subset (rising.imp fun less => Nat.ne_of_lt less)
      fun v mem => mem_range.mpr (small v mem)).length_le
  rw [length_range] at most
  rw [Builder.cardinality, counted]
  omega

theorem set_reads_back (scratchSize : Nat) (sequence : List Nat) (room : 16 ≤ scratchSize)
    (increasing : sequence.Pairwise fun low high => low < high)
    (small : ∀ v ∈ sequence, v < 2147483647) (front back : Bytes) :
    ReadsAs (setOf scratchSize sequence front back) sequence ∧
      (Builder.build scratchSize sequence).cardinality = sequence.length := by
  obtain ⟨chunks, same, opened, counted⟩ := setOf_opened room increasing small front back
  refine ⟨?_, counted⟩
  have reads := readsAs_opened opened fun v member => small v (same ▸ member)
  rw [← same] at reads
  exact reads

theorem set_reads_back_two : (setOf 16 [3, 70000] [] []).select 1 = 70000 ∧
      Ceiling [3, 70000] 5 (Iterator.start.advance (setOf 16 [3, 70000] [] []) 5).1 := by
  have reads := (set_reads_back 16 [3, 70000] (by decide) (by simp) (by simp) [] []).1
  exact ⟨reads.select 1 (by decide), reads.advance Walk.start 5 (by decide) (by decide) (by decide)⟩

/-- A skip that runs off the end still moves the counts, so that a step after it goes back to a
value of the old bucket and ranks it wrongly. -/
theorem next_after_end_goes_back :
    let bitset := setOf 1024 [1, 2, 65536, 65537, 65538] [] []
    let first := Iterator.start.next bitset
    let skipped := first.2.advance bitset 200000
    let stepped := skipped.2.next bitset
    first.1 = 1 ∧ skipped.1 = endValue ∧ stepped.1 = 2 ∧ stepped.2.rank bitset = 3 := by
  decide +kernel

theorem steps_stay {bitset : BitSet} (stays : it.next bitset = (endValue, it))
    (count : Nat) : steps bitset count it = replicate count endValue := by
  induction count with
  | zero => rfl
  | succ count ih => rw [steps, stays, ih, replicate_succ]

/-- A step stores what it returns, and after the sentinel all further steps return it. A skip stores
what it returns just when a bucket is left for its target, and otherwise nothing; after the sentinel
all further skips return it. -/
theorem set_runs_out (scratchSize : Nat) (sequence : List Nat) (room : 16 ≤ scratchSize)
    (increasing : sequence.Pairwise fun low high => low < high)
    (small : ∀ v ∈ sequence, v < 2147483647) (front back : Bytes) (bitset : BitSet)
    (built : bitset = setOf scratchSize sequence front back) :
    (∀ it : Iterator, (it.next bitset).1 = (it.next bitset).2.curr) ∧
    (∀ (it : Iterator) (target : Nat),
      (it.advance bitset target).1 = (it.advance bitset target).2.curr ∨
      (it.advance bitset target).1 = endValue ∧ (it.advance bitset target).2.curr = it.curr) ∧
    (∀ it result least, Walk bitset it result least → ∀ target : Nat, it.curr < target →
      least ≤ target → (target : Int) ≤ endValue →
      ((it.advance bitset target).1 = (it.advance bitset target).2.curr ↔
        ∃ v ∈ sequence, target / bucketWidth ≤ v / bucketWidth)) ∧
    (∀ it result least, Walk bitset it result least → result ≠ endValue → (it.next bitset).1 =
      endValue → ∀ count, steps bitset count (it.next bitset).2 = replicate count endValue) ∧
    ∀ it least, Walk bitset it endValue least → ∀ target : Nat, it.curr < target →
      least ≤ target → (target : Int) ≤ endValue → (it.advance bitset target).1 = endValue := by
  obtain ⟨chunks, rfl, opened, _⟩ := setOf_opened room increasing small front back
  have bounded : ∀ v ∈ sequenceOf chunks, (v : Int) < endValue := fun v member => by
    have fits := small v member
    rw [endValue]
    omega
  rw [← built] at opened
  refine ⟨next_curr bitset, advance_curr bitset, ?_, ?_, ?_⟩
  · intro it result least walk target behind later bound
    exact walk.advance_val_iff opened behind later bound
  · intro it result least walk going ended count
    exact steps_stay (walk.next_stays opened bounded going ended) count
  · intro it least walk target behind later bound
    exact walk.advance_ended opened bounded rfl behind later bound

/-- In a set of two buckets, a skip behind all values but not behind the second bucket, and steps
past the end. -/
theorem set_runs_out_two :
    let bitset := setOf 16 [5, 10, 70000] [] []
    let first := (Iterator.start.next bitset).2
    let last := ((first.next bitset).2.next bitset).2
    (first.advance bitset 70001).1 = (first.advance bitset 70001).2.curr ∧
      steps bitset 2 (last.next bitset).2 = [endValue, endValue] := by
  intro bitset first last
  obtain ⟨-, -, skips, stays, -⟩ := set_runs_out 16 [5, 10, 70000] (by decide) (by simp) (by simp)
    [] [] bitset rfl
  have walk : Walk bitset first _ _ := Walk.start.next (by decide)
  have walked : Walk bitset last _ _ := (walk.next (by decide +kernel)).next (by decide +kernel)
  exact ⟨(skips _ _ _ walk 70001 (by decide +kernel) (by decide) (by decide)).mpr
    ⟨70000, by decide, by decide⟩, stays _ _ _ walked (by decide +kernel) (by decide +kernel) 2⟩

/-- A skip off the end of the last bucket is followed by a value, and one that finds no bucket
leaves the old value current. -/
theorem value_after_end :
    let bitset := setOf 16 [5, 10] [] []
    let first := (Iterator.start.next bitset).2
    let skipped := first.advance bitset 20
    let lost := first.advance bitset 70000
    skipped.1 = endValue ∧ (skipped.2.next bitset).1 = 10 ∧ lost.1 = endValue ∧ lost.2.curr = 5 := by
  decide +kernel

end Luxir.Screaming.SetRoundTrip
