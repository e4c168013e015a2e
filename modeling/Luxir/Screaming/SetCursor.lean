import Luxir.Screaming.SetImage

/-!
The iterator as a cursor. Wherever it stands, the next value and the value at or after a target are
those of the whole sequence, as long as the iterator has not run past the last bucket.
-/

namespace Luxir.Screaming.SetCursor
open Lib.Bytes Lib.Bits SetBuilder SetReader DenseWords Chunks SetImage Util.Gallop List Nat
open Iterator

def sequenceOf (chunks : List Chunk) : List Nat := chunks.flatMap Chunk.values

def startRank (chunks : List Chunk) (i : Nat) : Nat := (sequenceOf (chunks.take i)).length

def place (bitset : BitSet) (i : Nat) : Nat := bitset.start + (bitset.descriptor i).offset

structure At (bitset : BitSet) (chunks : List Chunk) (it : Iterator) (i n : Nat)
    (inside : i < chunks.length) : Prop where
  idx : it.bucketIdx = i
  base : it.bucketBase = (chunks[i].upper * bucketWidth : Nat)
  size : it.bucketSize = chunks[i].locals.length
  rank : it.bucketRank = startRank chunks i
  bound : n ≤ chunks[i].locals.length
  bucket : (chunks[i].locals.length ≤ bucketSparseMax ∧
      it.bucket = .sparse (place bitset i) ((n : Int) - 1)) ∨
    (¬chunks[i].locals.length ≤ bucketSparseMax ∧ it.bucket = .dense (place bitset i) ∧
      ∃ position ≤ bucketWidth, it.curr + 1 = (chunks[i].upper * bucketWidth + position : Nat) ∧
        ∀ k (known : k < chunks[i].locals.length), k < n ↔ chunks[i].locals[k] < position)

variable (chunk : Chunk) {chunks : List Chunk} {bitset : BitSet} {it : Iterator} {i n : Nat}
  {lt : i < chunks.length}

theorem length_values : chunk.values.length = chunk.locals.length := length_map _

theorem startRank_succ {i : Nat} (lt : i < chunks.length) :
    startRank chunks (i + 1) = startRank chunks i + chunks[i].locals.length := by
  unfold startRank sequenceOf
  rw [← take_append_getElem lt, flatMap_append, length_append, flatMap_singleton, length_values]

theorem startRank_length (chunks : List Chunk) :
    startRank chunks chunks.length = (sequenceOf chunks).length := by
  rw [startRank, take_length]

theorem sequence_get {i j : Nat} (lt : i < chunks.length) (known : j < chunks[i].locals.length) :
    (sequenceOf chunks)[startRank chunks i + j]? =
      some (chunks[i].upper * bucketWidth + chunks[i].locals[j]) := by
  have split : chunks = chunks.take i ++ chunks[i] :: chunks.drop (i + 1) := by
    rw [← drop_eq_getElem_cons lt, take_append_drop]
  have whole : sequenceOf chunks = sequenceOf (chunks.take i) ++
      (chunks[i].values ++ sequenceOf (chunks.drop (i + 1))) := by
    conv_lhs => rw [split]
    unfold sequenceOf
    rw [flatMap_append, flatMap_cons]
  rw [whole, startRank, getElem?_append_right (Nat.le_add_right _ _), Nat.add_sub_cancel_left,
    getElem?_append_left (by rw [length_values]; exact known), Chunk.values,
    getElem?_map, getElem?_eq_getElem known]
  rfl

theorem values_pairwise : chunk.values.Pairwise fun low high => low < high := by
  unfold Chunk.values
  rw [pairwise_map]
  exact chunk.increasing.imp fun less => Nat.add_lt_add_left less _

theorem sequence_pairwise (sorted : Sorted chunks) :
    (sequenceOf chunks).Pairwise fun low high => low < high := by
  unfold sequenceOf
  rw [pairwise_flatMap]
  refine ⟨fun chunk _ => values_pairwise chunk, sorted.ascending.imp fun {first second} less => ?_⟩
  intro low mem high found
  obtain ⟨v, known, rfl⟩ := mem_map.mp mem
  obtain ⟨w, _, rfl⟩ := mem_map.mp found
  have small := first.small v known
  rw [bucketWidth] at small ⊢
  omega

variable {position : Nat}

theorem exists_cut (position : Nat) : ∃ n ≤ chunk.locals.length,
    ∀ k (known : k < chunk.locals.length), k < n ↔ chunk.locals[k] < position := by
  have rising : chunk.locals.Pairwise (· ≤ ·) := chunk.increasing.imp le_of_lt
  have splits : Splits position (chunk.locals.getD · 0) 0 chunk.locals.length _ :=
    gallopLowerBound_splits (zero_le _) (ascends_getD rising 0 0)
  refine ⟨_, splits.le, fun k known => ?_⟩
  rw [splits.lt_iff (zero_le _) known, getD_eq_getElem _ _ known]

theorem dense_found (opened : Opened bitset chunks) (lt : i < chunks.length)
    (dense : ¬chunks[i].locals.length ≤ bucketSparseMax) (more : n < chunks[i].locals.length)
    (cut : ∀ k (known : k < chunks[i].locals.length), k < n ↔ chunks[i].locals[k] < position) :
    nextSetBit bitset.file (place bitset i) position = chunks[i].locals[n] := by
  obtain ⟨rest, block⟩ := opened.block i lt
  have words : Words bitset.file (place bitset i) (bitsOf chunks[i].locals) :=
    dense_words dense block
  have order := pairwise_iff_getElem.mp chunks[i].increasing
  have here : position ≤ chunks[i].locals[n] := by
    have past := (cut n more).not.mp (lt_irrefl n)
    omega
  have present : (bitsOf chunks[i].locals).testBit chunks[i].locals[n] = true :=
    (testBit_bitsOf _ _).mpr (getElem_mem more)
  have small := chunks[i].small _ (getElem_mem more)
  rcases nextSetBit_first words (here.trans_lt small) with ⟨_, clear⟩ | ⟨met, found, clear⟩
  · rw [clear _ here] at present
    cases present
  obtain ⟨k, known, same⟩ := mem_iff_getElem.mp ((testBit_bitsOf _ _).mp found)
  rw [← same] at met clear ⊢
  rcases lt_trichotomy k n with less | rfl | greater
  · have before := (cut k known).mp less
    omega
  · rfl
  · rw [clear _ here (order n k more known greater)] at present
    cases present

theorem dense_exhausted (opened : Opened bitset chunks) (lt : i < chunks.length)
    (dense : ¬chunks[i].locals.length ≤ bucketSparseMax) (bound : position < bucketWidth)
    (passed : ∀ k (known : k < chunks[i].locals.length), chunks[i].locals[k] < position) :
    nextSetBit bitset.file (place bitset i) position = maxIndex := by
  obtain ⟨rest, block⟩ := opened.block i lt
  rcases nextSetBit_first (dense_words dense block) bound with ⟨missing, _⟩ | ⟨met, found, _⟩
  · exact missing
  · obtain ⟨k, known, same⟩ := mem_iff_getElem.mp ((testBit_bitsOf _ _).mp found)
    have before := passed k known
    omega

structure On (bitset : BitSet) (chunks : List Chunk) (it : Iterator) (i j : Nat)
    (inside : i < chunks.length) (known : j < chunks[i].locals.length) : Prop where
  at_next : At bitset chunks it i (j + 1) inside
  curr : it.curr = (chunks[i].upper * bucketWidth + chunks[i].locals[j] : Nat)

def Yields (bitset : BitSet) (chunks : List Chunk) (result : Int × Iterator) (i j : Nat)
    (inside : i < chunks.length) (known : j < chunks[i].locals.length) : Prop :=
  ∃ found, result = (((chunks[i].upper * bucketWidth + chunks[i].locals[j] : Nat) : Int), found) ∧
    On bitset chunks found i j inside known

theorem At.value (stands : At bitset chunks it i n lt) (v : Nat) :
    it.bucketBase + (v : Int) = (chunks[i].upper * bucketWidth + v : Nat) := by
  rw [stands.base, ← Int.natCast_add]

theorem sparseNext_on (opened : Opened bitset chunks) (stands : At bitset chunks it i n lt)
    (sparse : chunks[i].locals.length ≤ bucketSparseMax) {m : Nat}
    (more : m < chunks[i].locals.length) :
    Yields bitset chunks (it.sparseNext bitset (place bitset i) ((m : Int) - 1)) i m lt more := by
  obtain ⟨rest, block⟩ := opened.block i lt
  have index : ((m : Int) - 1 + 1).toNat = m := by omega
  have read : load 2 bitset.file (place bitset i + m * 2) = chunks[i].locals[m] :=
    sparse_read sparse block more
  unfold sparseNext
  dsimp only
  rw [index, read, stands.value]
  refine ⟨_, rfl, ⟨stands.idx, stands.base, stands.size, stands.rank, more, .inl ⟨sparse, ?_⟩⟩, rfl⟩
  dsimp only
  congr 1
  omega

theorem dense_on (stands : At bitset chunks it i n lt)
    (dense : ¬chunks[i].locals.length ≤ bucketSparseMax) (more : n < chunks[i].locals.length)
    (words : it.bucket = .dense (place bitset i)) : On bitset chunks { it with
      curr := (chunks[i].upper * bucketWidth + chunks[i].locals[n] : Nat) } i n lt more := by
  have small := chunks[i].small _ (getElem_mem more)
  refine ⟨⟨stands.idx, stands.base, stands.size, stands.rank, more, .inr ⟨dense, words,
    chunks[i].locals[n] + 1, small, ?_, fun k other => ?_⟩⟩, rfl⟩
  · dsimp only
    omega
  · rw [Nat.lt_succ_iff, Nat.lt_succ_iff, chunks[i].increasing.sortedLT.getElem_le_getElem_iff]

section
variable (opened : Opened bitset chunks)
include opened

theorem bucketAt_eq (lt : i < chunks.length) :
    bucketAt bitset i = if chunks[i].locals.length ≤ bucketSparseMax then
      .sparse (place bitset i) (-1) else .dense (place bitset i) := by
  rw [bucketAt, opened.size i lt]
  rfl

theorem bucketSetup_at (lt : i < chunks.length) (counted : it.bucketRank = startRank chunks i) :
    At bitset chunks (it.bucketSetup bitset i) i 0 lt := by
  have base : ((bitset.bucketBase i : Nat) : Int) = (chunks[i].upper * bucketWidth : Nat) := by
    rw [BitSet.bucketBase, opened.upper i lt]
  have size := opened.size i lt
  unfold bucketSetup
  rw [bucketAt_eq opened lt]
  split_ifs with sparse
  · exact ⟨rfl, base, size, counted, zero_le _, .inl ⟨sparse, rfl⟩⟩
  refine ⟨rfl, base, size, counted, zero_le _, .inr ⟨sparse, rfl, 0, zero_le _, ?_, ?_⟩⟩
  · rw [add_zero (chunks[i].upper * bucketWidth), ← base]
    exact Int.sub_add_cancel _ _
  · intro k known
    omega

end

theorem local_index (upper : Nat) (small : position < bucketWidth) :
    (((upper * bucketWidth + position : Nat) : Int) % bucketWidth).toNat = position := by
  rw [bucketWidth] at small ⊢
  omega

section
variable (opened : Opened bitset chunks)
include opened

section
variable (stands : At bitset chunks it i n lt)
  (dense : ¬chunks[i].locals.length ≤ bucketSparseMax) (more : n < chunks[i].locals.length)
include stands dense

theorem dense_next :
    it.bucket = .dense (place bitset i) ∧ it.curr + 1 < it.bucketBase + bucketWidth ∧
      nextSetBit bitset.file (place bitset i) ((it.curr + 1) % bucketWidth).toNat =
        chunks[i].locals[n] := by
  rcases stands.bucket with ⟨sparse, _⟩ | ⟨_, bucket, position, _, curr, cut⟩
  · exact absurd sparse dense
  · have small := chunks[i].small _ (getElem_mem more)
    have here := (cut n more).not.mp (lt_irrefl n)
    rw [curr, stands.base, local_index _ (by omega)]
    exact ⟨bucket, by omega, dense_found opened lt dense more cut⟩

theorem denseNext_on : Yields bitset chunks (it.denseNext bitset (place bitset i)) i n lt more := by
  obtain ⟨bucket, _, found⟩ := dense_next opened stands dense more
  unfold denseNext
  dsimp only
  rw [found, stands.value]
  exact ⟨_, rfl, dense_on stands dense more bucket⟩

theorem denseNextMaybe_on :
    Yields bitset chunks (it.denseNextMaybe bitset (place bitset i)) i n lt more := by
  obtain ⟨bucket, next, found⟩ := dense_next opened stands dense more
  have small := chunks[i].small _ (getElem_mem more)
  have other : chunks[i].locals[n] ≠ maxIndex := by
    rw [bucketWidth] at small
    rw [maxIndex]
    omega
  unfold denseNextMaybe
  rw [if_pos next, found, if_pos other, stands.value]
  exact ⟨_, rfl, dense_on stands dense more bucket⟩

end

theorem denseNextMaybe_exhausted (stands : At bitset chunks it i chunks[i].locals.length lt)
    (dense : ¬chunks[i].locals.length ≤ bucketSparseMax) :
    it.denseNextMaybe bitset (place bitset i) = it.nextBucket bitset := by
  rcases stands.bucket with ⟨sparse, _⟩ | ⟨_, _, position, bound, curr, cut⟩
  · exact absurd sparse dense
  unfold denseNextMaybe
  dsimp only
  split
  next next =>
    have small : position < bucketWidth := by
      rw [curr, stands.base] at next
      omega
    rw [curr, local_index _ small, dense_exhausted opened lt dense
      small (fun k known => (cut k known).mp known), if_neg (not_not.mpr rfl)]
  · rfl

theorem nextBucket_on (lt : i < chunks.length) (first : 0 < chunks[i].locals.length)
    (idx : it.bucketIdx + 1 = i) (counted : it.bucketRank + it.bucketSize = startRank chunks i) :
    Yields bitset chunks (it.nextBucket bitset) i 0 lt first := by
  have index : (it.bucketIdx + 1).toNat = i := by omega
  unfold nextBucket
  rw [opened.count, if_neg (by omega)]
  dsimp only
  rw [index]
  have stands := bucketSetup_at opened lt (show ({ it with
    bucketRank := it.bucketRank + it.bucketSize } : Iterator).bucketRank = _ from counted)
  generalize bucketSetup bitset { it with
    bucketRank := it.bucketRank + it.bucketSize } i = ready at stands ⊢
  rcases stands.bucket with ⟨sparse, bucket⟩ | ⟨dense, bucket, _⟩
  · rw [bucket]
    exact sparseNext_on opened stands sparse first
  · rw [bucket]
    exact denseNext_on opened stands dense first

theorem next_on (stands : At bitset chunks it i n lt) (more : n < chunks[i].locals.length) :
    Yields bitset chunks (it.next bitset) i n lt more := by
  unfold Iterator.next
  rcases stands.bucket with ⟨sparse, bucket⟩ | ⟨dense, bucket, _⟩
  · have left : ¬(n : Int) - 1 + 1 ≥ it.bucketSize := by
      rw [stands.size]
      omega
    rw [bucket]
    dsimp only
    rw [if_neg left]
    exact sparseNext_on opened stands sparse more
  · rw [bucket]
    exact denseNextMaybe_on opened stands dense more

theorem next_exhausted (stands : At bitset chunks it i chunks[i].locals.length lt) :
    it.next bitset = it.nextBucket bitset := by
  unfold Iterator.next
  rcases stands.bucket with ⟨_, bucket⟩ | ⟨dense, bucket, _⟩
  · rw [bucket]
    dsimp only
    rw [stands.size, if_pos (by omega)]
  · rw [bucket]
    exact denseNextMaybe_exhausted opened stands dense

end

theorem sparse_skip (opened : Opened bitset chunks) (lt : i < chunks.length)
    (sparse : chunks[i].locals.length ≤ bucketSparseMax) {key m : Nat}
    (least : n ≤ m) (bound : m ≤ chunks[i].locals.length)
    (cut : ∀ k (known : k < chunks[i].locals.length), k < m ↔ chunks[i].locals[k] < key) :
    gallopLowerBoundArray (chunks[i].locals.length - n) key
      (fun j => load 2 bitset.file (place bitset i + (n + j) * 2)) = m - n := by
  obtain ⟨rest, block⟩ := opened.block i lt
  have read : ∀ j (known : n + j < chunks[i].locals.length),
      load 2 bitset.file (place bitset i + (n + j) * 2) = chunks[i].locals[n + j] :=
    fun j known => sparse_read sparse block known
  have ascends : Ascends (fun j => load 2 bitset.file (place bitset i + (n + j) * 2)) 0
      (chunks[i].locals.length - n) := by
    intro first second _ before last
    dsimp only
    rw [read first (by omega), read second (by omega),
      chunks[i].increasing.sortedLT.getElem_le_getElem_iff]
    omega
  have splits : Splits key _ 0 _ _ := gallopLowerBoundArray_splits ascends
  generalize gallopLowerBoundArray (chunks[i].locals.length - n) key
    (fun j => load 2 bitset.file (place bitset i + (n + j) * 2)) = found at splits ⊢
  have same : ∀ j, j < chunks[i].locals.length - n → (j < found ↔ n + j < m) := by
    intro j known
    rw [splits.lt_iff (zero_le _) known, read j (by omega), cut]
  have most := splits.le
  have first := same found
  have second := same (m - n)
  omega

/-- Within the bucket of the target a skip lands on the first value not below it, or moves on. -/
theorem advanceWithin_cut (opened : Opened bitset chunks)
    (stands : At bitset chunks it i n lt) {target m : Nat}
    (same : target / bucketWidth = chunks[i].upper) (least : n ≤ m)
    (bound : m ≤ chunks[i].locals.length) (cut : ∀ k (known : k < chunks[i].locals.length),
      k < m ↔ chunks[i].locals[k] < target % bucketWidth) :
    (∃ more, Yields bitset chunks (it.advanceWithin bitset target) i m lt more) ∨
    (m = chunks[i].locals.length ∧ ∃ ready : Iterator, it.advanceWithin bitset target =
      ready.nextBucket bitset ∧ ready.bucketIdx = i ∧
      ready.bucketRank + ready.bucketSize = startRank chunks (i + 1)) := by
  have counted : it.bucketRank + it.bucketSize = startRank chunks (i + 1) := by
    rw [startRank_succ lt, stands.rank, stands.size]
  unfold advanceWithin
  rcases stands.bucket with ⟨sparse, bucket⟩ | ⟨dense, bucket, _⟩
  · have index : ((n : Int) - 1 + 1).toNat = n := by omega
    rw [bucket]
    dsimp only
    rw [index, stands.size, sparse_skip opened lt sparse least bound cut]
    by_cases more : m < chunks[i].locals.length
    · have place_m : ((n + (m - n) : Nat) : Int) - 1 = (m : Int) - 1 := by omega
      rw [if_neg (by omega), place_m]
      exact .inl ⟨more, sparseNext_on opened stands sparse more⟩
    · rw [if_pos (by omega)]
      exact .inr ⟨by omega, it, rfl, stands.idx, counted⟩
  · rw [bucket]
    have whole := div_add_mod' target bucketWidth
    rw [same] at whole
    have moved : At bitset chunks { it with
        curr := (target : Int) - 1, bucket := .dense (place bitset i) } i m lt := by
      refine ⟨stands.idx, stands.base, stands.size, stands.rank, bound, .inr ⟨dense, rfl,
        target % bucketWidth, le_of_lt (mod_lt _ (by decide)), ?_, cut⟩⟩
      dsimp only
      omega
    rcases lt_or_eq_of_le bound with more | rfl
    · exact .inl ⟨more, denseNextMaybe_on opened moved dense more⟩
    · exact .inr ⟨rfl, _, denseNextMaybe_exhausted opened moved dense, stands.idx, counted⟩

/-- The loop over the buckets: the first one that is not below the target, or none. -/
theorem advanceBucket_spec (opened : Opened bitset chunks) {upperBits rounds k : Nat}
    (enough : chunks.length ≤ rounds + k)
    (counted : it.bucketRank + it.bucketSize = startRank chunks k) :
    (∃ m, ∃ lt : m < chunks.length, k ≤ m ∧ upperBits ≤ chunks[m].upper ∧
      (∀ l (known : l < chunks.length), k ≤ l → l < m → chunks[l].upper < upperBits) ∧
      ∃ ready, it.advanceBucket bitset upperBits rounds k = (true, ready) ∧
        At bitset chunks ready m 0 lt) ∨
    ∀ l (known : l < chunks.length), k ≤ l → chunks[l].upper < upperBits := by
  have count := opened.count
  fun_induction advanceBucket bitset it upperBits rounds k with
  | case1 | case4 => exact .inr fun l known lower => by omega
  | case2 it rounds k more next met =>
    rw [count] at more
    rw [opened.upper k more] at met
    refine .inl ⟨k, more, le_rfl, met, fun l _ lower upper => by omega, _, rfl, ?_⟩
    dsimp only [next]
    rw [opened.size k more]
    exact bucketSetup_at opened more counted
  | case3 it rounds k more next met ih =>
    rw [count] at more
    rw [opened.upper k more] at met
    have step := ih (by omega) (by
      dsimp only [next]
      rw [counted, opened.size k more, startRank_succ more])
    rcases step with ⟨m, lt, lower, above, between, rest⟩ | below
    · refine .inl ⟨m, lt, by omega, above, fun l known first last => ?_, rest⟩
      rcases eq_or_lt_of_le first with rfl | later
      · omega
      · exact between l known later last
    · refine .inr fun l known first => ?_
      rcases eq_or_lt_of_le first with rfl | later
      · omega
      · exact below l known later

end Luxir.Screaming.SetCursor
