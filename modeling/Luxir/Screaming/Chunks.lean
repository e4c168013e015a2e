import Luxir.Screaming.DenseWords

/-!
What a bucket stands for: a run of ascending sixteen-bit values under common upper bits. Both of
its containers give the values back.
-/

namespace Luxir.Screaming.Chunks
open Lib.Bytes Lib.Bits SetBuilder SetReader DenseWords List

structure Chunk where
  upper : Nat
  locals : List Nat
  nonempty : locals ≠ []
  increasing : locals.Pairwise fun low high => low < high
  small : ∀ v ∈ locals, v < bucketWidth

def bitsOf (locals : List Nat) : Nat := locals.foldl setBit 0

namespace Chunk

def values (chunk : Chunk) : List Nat := chunk.locals.map fun v => chunk.upper * bucketWidth + v

def bytes (chunk : Chunk) : Bytes :=
  if chunk.locals.length ≤ bucketSparseMax then
    chunk.locals.flatMap (spell 2) ++ replicate (pad (chunk.locals.length * 2)) 0
  else
    spell bitsBytes (bitsOf chunk.locals) ++ (rankIndex (bitsOf chunk.locals)).flatMap (spell 2)

end Chunk

theorem testBit_setBit (bits val bit : Nat) :
    (setBit bits val).testBit bit = (bits.testBit bit || decide (bit = val)) := by
  rw [setBit, Nat.testBit_or, Nat.one_shiftLeft, Nat.testBit_two_pow]
  simp only [eq_comm]

theorem testBit_foldl (locals : List Nat) (bits bit : Nat) :
    (locals.foldl setBit bits).testBit bit = (bits.testBit bit || decide (bit ∈ locals)) := by
  induction locals generalizing bits with
  | nil => simp
  | cons val rest ih =>
    rw [foldl_cons, ih, testBit_setBit, Bool.or_assoc]
    simp only [mem_cons, Bool.decide_or]

theorem testBit_bitsOf (locals : List Nat) (bit : Nat) :
    (bitsOf locals).testBit bit = true ↔ bit ∈ locals := by
  rw [bitsOf, testBit_foldl, Nat.zero_testBit, Bool.false_or, decide_eq_true_iff]

theorem miniBlock_eq (bits block : Nat) :
    rank bits (block * 512) + miniBlock bits block = rank bits ((block + 1) * 512) := by
  have words : ∀ count first start, (range' first count).foldl
      (fun rank j => rank + popcount (word bits j)) start + rank bits (first * 64) =
      start + rank bits ((first + count) * 64) := by
    intro count
    induction count with
    | zero => intro first start; rfl
    | succ count ih =>
      intro first start
      have whole := rank_word bits first
      have rest := ih (first + 1) (start + popcount (word bits first))
      have last : first + 1 + count = first + (count + 1) := by omega
      rw [last] at rest
      rw [range'_succ, foldl_cons]
      omega
  have all := words wordsPerCount (block * wordsPerCount) 0
  have first : block * wordsPerCount * 64 = block * 512 := by rw [wordsPerCount]; omega
  have last : (block * wordsPerCount + wordsPerCount) * 64 = (block + 1) * 512 := by
    rw [wordsPerCount]
    omega
  rw [first, last] at all
  rw [miniBlock]
  omega

theorem rankIndex_eq (bits : Nat) :
    rankIndex bits = (range rankIndexEntries).map fun m => rank bits (m * 512) := by
  have loop : ∀ count ≤ rankIndexEntries - 1, (range count).foldl
      (fun (state : Nat × List Nat) block =>
        let cumulativeRank := (state.1 + miniBlock bits block) % 65536
        (cumulativeRank, state.2 ++ [cumulativeRank])) (0, [0]) =
      (rank bits (count * 512), (range (count + 1)).map fun m => rank bits (m * 512)) := by
    intro count
    induction count with
    | zero => intro _; rfl
    | succ count ih =>
      intro lt
      have most := rank_le bits ((count + 1) * 512)
      rw [rankIndexEntries] at lt
      rw [range_succ, foldl_append, ih (by rw [rankIndexEntries]; omega), foldl_cons, foldl_nil]
      rw [miniBlock_eq, Nat.mod_eq_of_lt (by omega), range_succ (n := count + 1), map_append]
      rfl
  rw [rankIndex, loop _ (le_rfl)]
  rfl

variable {chunk : Chunk} {file rest : Bytes} {place j : Nat}

theorem length_locals_le (chunk : Chunk) : chunk.locals.length ≤ bucketWidth := by
  by_contra many
  have last := index_le_of_rising chunk.increasing (show bucketWidth < chunk.locals.length by omega)
  have bound := chunk.small _ (getElem_mem (show bucketWidth < chunk.locals.length by omega))
  omega

theorem length_locals_pos (chunk : Chunk) : 0 < chunk.locals.length :=
  length_pos_iff.mpr chunk.nonempty

theorem length_bytes (chunk : Chunk) : chunk.bytes.length =
    if chunk.locals.length ≤ bucketSparseMax then
      (chunk.locals.length * 2 + blockAlign - 1) / blockAlign * blockAlign
    else denseContainerSize := by
  unfold Chunk.bytes
  split_ifs with sparse
  · rw [length_append, length_flatMap (length_spell 2), length_replicate, pad, blockAlign]
    omega
  · rw [length_append, length_spell, length_flatMap (length_spell 2), rankIndex_eq,
      length_map, length_range]
    rfl

theorem length_bytes_le (chunk : Chunk) : chunk.bytes.length ≤ denseContainerSize := by
  rw [length_bytes]
  split_ifs with sparse
  · rw [bucketSparseMax] at sparse
    rw [blockAlign, denseContainerSize]
    omega
  · exact le_rfl

theorem sparse_read (sparse : chunk.locals.length ≤ bucketSparseMax)
    (wrote : file.drop place = chunk.bytes ++ rest)
    (lt : j < chunk.locals.length) : load 2 file (place + j * 2) = chunk.locals[j] := by
  rw [Chunk.bytes, if_pos sparse, append_assoc] at wrote
  have found := drop_records (length_spell 2) wrote lt
  have bound := chunk.small _ (getElem_mem lt)
  rw [load_spell found]
  exact Nat.mod_eq_of_lt bound

theorem load_inside {width total value offset : Nat}
    (wrote : file.drop place = spell total value ++ rest) (lt : offset + width ≤ total) :
    load width file (place + offset) = field value (8 * offset) (8 * width) := by
  have shifted : load width file (place + offset) = load width (file.drop place) offset := by
    rw [load, load, drop_drop]
  have split : value % 2 ^ (8 * total) + 2 ^ (8 * total) * (value / 2 ^ (8 * total)) = value :=
    Nat.mod_add_div _ _
  have fits : 8 * offset + 8 * width ≤ 8 * total := by omega
  rw [shifted, load_eq_field, wrote, number_append, number_spell, length_spell, pow_256,
    field_add_mul fits]
  conv_rhs => rw [← split, field_add_mul fits]

theorem dense_words (dense : ¬chunk.locals.length ≤ bucketSparseMax)
    (wrote : file.drop place = chunk.bytes ++ rest) : Words file place (bitsOf chunk.locals) := by
  rw [Chunk.bytes, if_neg dense, append_assoc] at wrote
  have index := drop_past wrote rfl
  rw [length_spell, rankIndex_eq] at index
  refine ⟨fun i lt => ?_, fun m lt => ?_, fun v here => ?_⟩
  · rw [fixedNumWords] at lt
    rw [wordAt, load_inside wrote (by rw [bitsBytes]; omega), word]
    congr 1
    omega
  · have bound : m < ((range rankIndexEntries).map fun m =>
        rank (bitsOf chunk.locals) (m * 512)).length := by
      rw [length_map, length_range]
      exact lt
    have found := drop_records (length_spell 2) index bound
    rw [getElem_map, getElem_range] at found
    have most := rank_le (bitsOf chunk.locals) (m * 512)
    rw [rankIndexEntries] at lt
    rw [rankIndexAt, load_spell found, Nat.mod_eq_of_lt (by omega)]
  · exact chunk.small v ((testBit_bitsOf _ _).mp here)

theorem rank_bitsOf (chunk : Chunk) (position : Nat) :
    rank (bitsOf chunk.locals) position = chunk.locals.countP fun v => v < position :=
  rank_eq_countP (chunk.increasing.imp fun less => Nat.ne_of_lt less)
    (testBit_bitsOf chunk.locals) position

theorem rank_local (chunk : Chunk) (lt : j < chunk.locals.length) :
    rank (bitsOf chunk.locals) chunk.locals[j] = j := by
  rw [rank_bitsOf]
  refine countP_of_cut lt.le fun i known => ?_
  rw [decide_eq_true_eq]
  exact chunk.increasing.sortedLT.getElem_lt_getElem_iff

end Luxir.Screaming.Chunks
