import Luxir.Codec.LinearPack
import Luxir.Codec.NumColumnFormat

/-!
The decode layer of numeric columns: point reads, reads of adjacent pairs, and reads of whole
frames of 128 values. All three agree on any column whose blocks hold what their descriptors say.
-/

namespace Luxir.Codec.NumColumn
open Lib.Bytes Lib.Words LinearFit LinearPack NumColumnFormat List Nat

/-- A view of a finished column. `withGcd` is a property of the column, not of a block. -/
structure NumColumnT where
  withGcd : Bool
  file : Bytes
  blocks : Nat
  blockMeta : Nat
  nValues : Nat
deriving DecidableEq, Repr

def reconstruct (withGcd : Bool) (info : NumBlockInfo) (rankInBlock residual : Nat) : Int64 :=
  let scaled :=
    if info.scaledSlope ≠ 0 then
      UInt64.ofNat residual + (slopeTerm rankInBlock info.scaledSlope).toUInt64
    else UInt64.ofNat residual
  if withGcd then (info.baseBits + info.gcd * scaled).toInt64
  else (info.baseBits + scaled).toInt64

namespace NumColumnT

def blockInfo (column : NumColumnT) (blockNum : Nat) : NumBlockInfo :=
  NumBlockInfo.ofBytes column.file (column.blockMeta + blockNum * NumBlockInfo.size)

/-- The value as the first of the block plus a multiple of the rank, if the block is so even. -/
def affineBlock (column : NumColumnT) (blockNum : Nat) : Option (UInt64 × UInt64) :=
  let info := column.blockInfo blockNum
  if info.bits ≠ 0 ∨
      info.scaledSlope.toUInt64 &&& ((1 : UInt64) <<< UInt64.ofNat slopeShift - 1) ≠ 0 then none
  else
    let step := (Int64.ofInt (info.scaledSlope.toInt >>> slopeShift)).toUInt64
    some (info.baseBits, if column.withGcd then step * info.gcd else step)

def loadInt64 (column : NumColumnT) (offset : Nat) : Int64 :=
  (UInt64.ofNat (load 8 column.file offset)).toInt64

def valueAt (column : NumColumnT) (rank : Nat) : Int64 :=
  let rankInBlock := rank % blockSize
  let info := column.blockInfo (rank / blockSize)
  let payload := column.blocks + info.payloadOffset
  if info.bits > maxPackedBits then column.loadInt64 (payload + rankInBlock * 8)
  else
    let residual := select64 column.file payload rankInBlock info.bits (mask info.bits)
    reconstruct column.withGcd info rankInBlock residual

def valuesAt (column : NumColumnT) (rank : Nat) : Int64 × Int64 :=
  let rankInBlock := rank % blockSize
  if rankInBlock = 0 then (if rank > 0 then column.valueAt (rank - 1) else 0, column.valueAt rank)
  else
    let info := column.blockInfo (rank / blockSize)
    let payload := column.blocks + info.payloadOffset
    if info.bits > maxPackedBits then
      (column.loadInt64 (payload + (rankInBlock - 1) * 8),
        column.loadInt64 (payload + (rankInBlock - 1) * 8 + 8))
    else
      let prev := select64 column.file payload (rankInBlock - 1) info.bits (mask info.bits)
      let cur := select64 column.file payload rankInBlock info.bits (mask info.bits)
      (reconstruct column.withGcd info (rankInBlock - 1) prev,
        reconstruct column.withGcd info rankInBlock cur)

def decodeFrame (avx2 : Bool) (column : NumColumnT) (rank : Nat) : Nat × List Int64 :=
  let start := rank / bulkSize * bulkSize
  let rankInBlock := start % blockSize
  let info := column.blockInfo (start / blockSize)
  let count := min bulkSize (column.nValues - start)
  let payload := column.blocks + info.payloadOffset
  if info.bits > maxPackedBits then
    (start, (range count).map fun i => column.loadInt64 (payload + rankInBlock * 8 + i * 8))
  else if info.bits ≤ 32 then
    let residuals := unpack128 avx2 column.file payload rankInBlock count info.bits (mask info.bits)
    if info.gcd = 1 ∧ info.scaledSlope = 0 then
      (start, residuals.map fun residual => (info.baseBits + UInt64.ofNat residual).toInt64)
    else if info.scaledSlope = 0 then
      (start, residuals.map fun residual =>
        (info.baseBits + info.gcd * UInt64.ofNat residual).toInt64)
    else
      (start, residuals.mapIdx fun i residual =>
        reconstruct column.withGcd info (rankInBlock + i) residual)
  else
    (start, (range count).map fun i =>
      let residual := select64 column.file payload (rankInBlock + i) info.bits (mask info.bits)
      reconstruct column.withGcd info (rankInBlock + i) residual)

structure Bulk where
  decodedStart : Int
  decodedEnd : Int
  decoded : List Int64
deriving DecidableEq, Repr

def Bulk.start : Bulk := ⟨-1, -1, []⟩

def Bulk.valueAt (avx2 : Bool) (column : NumColumnT) (bulk : Bulk) (index : Nat) : Int64 × Bulk :=
  let bulk :=
    if (index : Int) < bulk.decodedStart ∨ (index : Int) ≥ bulk.decodedEnd then
      let frame := column.decodeFrame avx2 index
      ⟨frame.1, frame.1 + frame.2.length, frame.2⟩
    else bulk
  (bulk.decoded.getD ((index : Int) - bulk.decodedStart).toNat 0, bulk)

end NumColumnT

variable {rank : Nat} {info : NumBlockInfo} {blockNum rankInBlock : Nat} {withGcd : Bool}

theorem reconstruct_eq (plain : withGcd = false → info.gcd = 1) (rank residual : Nat) :
    reconstruct withGcd info rank residual = (info.baseBits + UInt64.ofInt (info.gcd.toNat *
      (((rank : Int) * info.scaledSlope.toInt) >>> slopeShift + residual))).toInt64 := by
  have scaled : (if info.scaledSlope ≠ 0 then
      UInt64.ofNat residual + (slopeTerm rank info.scaledSlope).toUInt64
      else UInt64.ofNat residual) =
      UInt64.ofInt (((rank : Int) * info.scaledSlope.toInt) >>> slopeShift + residual) := by
    split_ifs with sloped
    · rw [slopeTerm, toUInt64_ofInt, UInt64.ofInt_add, ofInt_natCast, UInt64.add_comm]
    · have level : info.scaledSlope = 0 := not_not.mp sloped
      simp [level, ofInt_natCast]
  unfold reconstruct
  rw [scaled, UInt64.ofInt_mul, ofInt_natCast, UInt64.ofNat_toNat]
  cases withGcd with
  | true => rfl
  | false => simp [plain rfl]

/-- The payload at an offset holds the values as the descriptor says. -/
structure Stored (withGcd : Bool) (file : Bytes) (payload : Nat) (info : NumBlockInfo)
    (values : List Int64) : Prop where
  raw : info.bits > maxPackedBits → ∀ rank (inside : rank < values.length),
    (UInt64.ofNat (load 8 file (payload + rank * 8))).toInt64 = values[rank]
  packed : info.bits ≤ maxPackedBits → ∀ rank (inside : rank < values.length),
    reconstruct withGcd info rank
      (field (number (file.drop payload)) (rank * info.bits) info.bits) = values[rank]
  plain : withGcd = false → info.gcd = 1

structure Holds (column : NumColumnT) (values : List Int64) : Prop where
  count : column.nValues = values.length
  stored : ∀ blockNum, blockNum * blockSize < values.length → Stored column.withGcd column.file
      (column.blocks + (column.blockInfo blockNum).payloadOffset) (column.blockInfo blockNum)
      ((values.drop (blockNum * blockSize)).take blockSize)

variable {column : NumColumnT} {values : List Int64}

section
variable (holds : Holds column values)
include holds

theorem Holds.raw (at_rank : blockNum * blockSize + rankInBlock = rank)
    (short : rankInBlock < blockSize) (lt : rank < values.length)
    (wide : (column.blockInfo blockNum).bits > maxPackedBits) :
    column.loadInt64 (column.blocks + (column.blockInfo blockNum).payloadOffset +
      rankInBlock * 8) = values[rank] := by
  have kept := holds.stored blockNum (by omega)
  have read := kept.raw wide rankInBlock (by simp; omega)
  subst at_rank
  simpa [NumColumnT.loadInt64] using read

theorem Holds.packed
    (at_rank : blockNum * blockSize + rankInBlock = rank) (short : rankInBlock < blockSize)
    (lt : rank < values.length) (narrow : (column.blockInfo blockNum).bits ≤ maxPackedBits) :
    reconstruct column.withGcd (column.blockInfo blockNum) rankInBlock
      (field (number (column.file.drop (column.blocks + (column.blockInfo blockNum).payloadOffset)))
        (rankInBlock * (column.blockInfo blockNum).bits)
        (column.blockInfo blockNum).bits) = values[rank] := by
  have kept := holds.stored blockNum (by omega)
  have read := kept.packed narrow rankInBlock (by simp; omega)
  subst at_rank
  simpa using read

theorem valueAt_eq (lt : rank < values.length) : column.valueAt rank = values[rank] := by
  have split : rank / blockSize * blockSize + rank % blockSize = rank := div_add_mod' _ _
  have short : rank % blockSize < blockSize := mod_lt _ (by decide)
  unfold NumColumnT.valueAt
  dsimp only
  split_ifs with wide
  · exact holds.raw split short lt wide
  · rw [select64_eq _ _ _ (not_lt.mp wide)]
    exact holds.packed split short lt (not_lt.mp wide)

theorem valuesAt_eq (lt : rank < values.length) :
    column.valuesAt rank = (if rank = 0 then 0 else values[rank - 1], values[rank]) := by
  have split : rank / blockSize * blockSize + rank % blockSize = rank := Nat.div_add_mod' _ _
  have short : rank % blockSize < blockSize := Nat.mod_lt _ (by decide)
  unfold NumColumnT.valuesAt
  dsimp only
  by_cases boundary : rank % blockSize = 0
  · rw [if_pos boundary, valueAt_eq holds lt]
    rcases Nat.eq_zero_or_pos rank with zero | pos
    · rw [if_neg (by omega), if_pos zero]
    · rw [if_pos pos, if_neg (by omega), valueAt_eq holds (by omega : rank - 1 < _)]
  · have nonzero : rank ≠ 0 := by
      rintro rfl
      exact boundary (Nat.zero_mod _)
    have before : rank / blockSize * blockSize + (rank % blockSize - 1) = rank - 1 := by omega
    rw [if_neg boundary, if_neg nonzero]
    split_ifs with wide
    · have next : ∀ payload, payload + (rank % blockSize - 1) * 8 + 8 =
          payload + rank % blockSize * 8 := by
        intro payload
        omega
      rw [next, holds.raw before (by omega) (by omega) wide, holds.raw split short lt wide]
    · have narrow := Nat.not_lt.mp wide
      rw [select64_eq _ _ _ narrow, select64_eq _ _ _ narrow,
        holds.packed before (by omega) (by omega) narrow, holds.packed split short lt narrow]

end

theorem reconstruct_level (plain : withGcd = false → info.gcd = 1)
    (level : info.scaledSlope = 0) (rank residual : Nat) : reconstruct withGcd info rank residual =
      (info.baseBits + info.gcd * UInt64.ofNat residual).toInt64 := by
  unfold reconstruct
  cases withGcd with
  | true => simp [level]
  | false => simp [level, plain rfl]

theorem frame_eq (holds : Holds column values) {start : Nat} (value : Nat → Int64)
    (same : ∀ i (more : start + i < values.length), i < bulkSize → value i = values[start + i]) :
    (range (min bulkSize (column.nValues - start))).map value =
      (values.drop start).take bulkSize := by
  apply ext_getElem
  · simp [holds.count]
  intro i first second
  have bound : i < bulkSize ∧ start + i < values.length := by
    simp only [length_take, length_drop] at second
    omega
  rw [getElem_map, getElem_range, getElem_take, getElem_drop]
  exact same i bound.2 bound.1

theorem mapIdx_range {β : Type} (count : Nat) (residual : Nat → Nat) (value : Nat → Nat → β) :
    ((range count).map residual).mapIdx value =
      (range count).map fun i => value i (residual i) := by
  apply ext_getElem
  · simp
  · intro i first second
    simp

theorem decodeFrame_eq (avx2 : Bool) (holds : Holds column values) (lt : rank < values.length) :
    column.decodeFrame avx2 rank =
      (rank / bulkSize * bulkSize, (values.drop (rank / bulkSize * bulkSize)).take bulkSize) := by
  have begins : rank / bulkSize * bulkSize ≤ rank := div_mul_le_self _ _
  have aligned : rank / bulkSize * bulkSize % blockSize + bulkSize ≤ blockSize := by
    unfold bulkSize blockSize
    omega
  have octets : rank / bulkSize * bulkSize % blockSize % 8 = 0 := by
    unfold bulkSize blockSize
    omega
  unfold NumColumnT.decodeFrame
  generalize rank / bulkSize * bulkSize = start at *
  have split : ∀ i, start / blockSize * blockSize + (start % blockSize + i) = start + i := by
    intro i
    have whole := div_add_mod' start blockSize
    omega
  have plain := (holds.stored (start / blockSize) ((div_mul_le_self _ _).trans_lt (by omega))).plain
  dsimp only
  split
  next wide =>
    rw [frame_eq holds]
    intro i more short
    have place : ∀ payload, payload + start % blockSize * 8 + i * 8 =
        payload + (start % blockSize + i) * 8 := by
      intro payload
      omega
    rw [place]
    exact holds.raw (split i) (by omega) more wide
  next wide =>
    have narrow := not_lt.mp wide
    have packed : ∀ i (more : start + i < values.length), i < bulkSize →
        reconstruct column.withGcd (column.blockInfo (start / blockSize)) (start % blockSize + i)
          (field (number (column.file.drop (column.blocks + (column.blockInfo (start /
            blockSize)).payloadOffset))) ((start % blockSize + i) * (column.blockInfo (start /
            blockSize)).bits) (column.blockInfo (start / blockSize)).bits) = values[start + i] :=
      fun i more short => holds.packed (split i) (by omega) more narrow
    split
    · rename_i half
      rw [unpack128_eq avx2 _ _ _ half octets]
      by_cases level : (column.blockInfo (start / blockSize)).scaledSlope = 0
      · have formula := reconstruct_level plain level
        simp only [formula] at packed
        by_cases unscaled : (column.blockInfo (start / blockSize)).gcd = 1
        · rw [if_pos ⟨unscaled, level⟩, map_map, frame_eq holds]
          intro i more short
          simpa [unscaled] using packed i more short
        · rw [if_neg (fun both => unscaled both.1), if_pos level, map_map, frame_eq holds]
          exact packed
      · rw [if_neg (fun both => level both.2), if_neg level, mapIdx_range, frame_eq holds]
        exact packed
    · rw [frame_eq holds]
      intro i more short
      rw [select64_eq _ _ _ narrow]
      exact packed i more short

theorem decodeFrame_get (avx2 : Bool) (holds : Holds column values) (lt : rank < values.length) :
    (column.decodeFrame avx2 rank).1 ≤ rank ∧
      rank < (column.decodeFrame avx2 rank).1 + (column.decodeFrame avx2 rank).2.length ∧
      ∀ other, (column.decodeFrame avx2 rank).1 ≤ other →
        other < (column.decodeFrame avx2 rank).1 + (column.decodeFrame avx2 rank).2.length →
        values[other]? = some ((column.decodeFrame avx2 rank).2.getD
            (other - (column.decodeFrame avx2 rank).1) 0) := by
  have begins : rank / bulkSize * bulkSize ≤ rank := div_mul_le_self _ _
  have ends : rank < rank / bulkSize * bulkSize + bulkSize :=
    lt_div_mul_add (show 0 < bulkSize by decide)
  rw [decodeFrame_eq avx2 holds lt]
  dsimp only
  generalize rank / bulkSize * bulkSize = start at *
  have length : ((values.drop start).take bulkSize).length =
      min bulkSize (values.length - start) := by
    rw [length_take, length_drop]
  refine ⟨begins, by omega, fun other lower upper => ?_⟩
  have within : other - start < ((values.drop start).take bulkSize).length := by omega
  have same : start + (other - start) = other := by omega
  rw [getD_eq_getElem?_getD, getElem?_eq_getElem within, getElem_take,
    getElem_drop, getElem?_eq_getElem (by omega)]
  simp only [same, Option.getD_some]

def BulkReads (values : List Int64) (bulk : NumColumnT.Bulk) : Prop :=
  ∀ index : Nat, bulk.decodedStart ≤ index → (index : Int) < bulk.decodedEnd →
    values[index]? = some (bulk.decoded.getD ((index : Int) - bulk.decodedStart).toNat 0)

theorem bulkReads_start (values : List Int64) : BulkReads values NumColumnT.Bulk.start := by
  intro index _ upper
  dsimp only [NumColumnT.Bulk.start] at upper
  omega

theorem bulk_valueAt (avx2 : Bool) (holds : Holds column values) {bulk : NumColumnT.Bulk}
    (reads : BulkReads values bulk) {index : Nat} (lt : index < values.length) :
    (NumColumnT.Bulk.valueAt avx2 column bulk index).1 = values[index] ∧
      BulkReads values (NumColumnT.Bulk.valueAt avx2 column bulk index).2 := by
  have found := getElem?_eq_getElem lt
  unfold NumColumnT.Bulk.valueAt
  split_ifs with outside
  · obtain ⟨lower, upper, same⟩ := decodeFrame_get avx2 holds lt
    generalize column.decodeFrame avx2 index = frame at *
    have place : ∀ other : Nat, ((other : Int) - frame.1).toNat = other - frame.1 := by
      intro other
      omega
    refine ⟨?_, fun other after before => ?_⟩
    · have value := same index lower upper
      rw [found, Option.some.injEq] at value
      dsimp only
      rw [place, value]
    · dsimp only at after before ⊢
      rw [place]
      exact same other (by omega) (by omega)
  · have value := reads index (by omega) (by omega)
    rw [found, Option.some.injEq] at value
    exact ⟨value.symm, reads⟩

theorem holds_single (count : column.nValues = values.length) (short : values.length ≤ blockSize)
    (described : column.blockInfo 0 = info)
    (kept : Stored column.withGcd column.file (column.blocks + info.payloadOffset) info values) :
    Holds column values := by
  refine ⟨count, fun blockNum begins => ?_⟩
  have zero : blockNum = 0 := by
    by_contra later
    have beyond : 1 * blockSize ≤ blockNum * blockSize := mul_le_mul_right blockSize (by omega)
    omega
  subst zero
  rw [described, zero_mul, drop_zero, take_of_length_le short]
  exact kept

theorem dvd_of_low_bits {slope : Int64}
    (flat : slope.toUInt64 &&& ((1 : UInt64) <<< UInt64.ofNat slopeShift - 1) = 0) :
    ((2 ^ slopeShift : Nat) : Int) ∣ slope.toInt := by
  have mask : ((1 : UInt64) <<< UInt64.ofNat slopeShift - 1).toNat = 2 ^ 14 - 1 := by decide
  have low := congrArg UInt64.toNat flat
  rw [UInt64.toNat_and, mask, and_two_pow_sub_one_eq_mod, ← ofInt_toInt, UInt64.ofInt,
    UInt64.toNat_ofNat'] at low
  have shift : ((2 ^ slopeShift : Nat) : Int) = 2 ^ 14 := by decide
  rw [shift]
  apply Int.dvd_of_emod_eq_zero
  change _ = 0 at low
  omega

theorem affineBlock_eq (holds : Holds column values) (short : values.length ≤ blockSize)
    {base step : UInt64} (even : column.affineBlock 0 = some (base, step))
    (lt : rank < values.length) : values[rank].toUInt64 = base + UInt64.ofNat rank * step := by
  have plain := (holds.stored 0 (by omega)).plain
  unfold NumColumnT.affineBlock at even
  dsimp only at even
  split at even
  · cases even
  rename_i uneven
  cases even
  obtain ⟨empty, flat⟩ := not_or.mp uneven
  have noBits := not_not.mp empty
  have first : 0 * blockSize + rank = rank := by omega
  have read := holds.packed first (by omega) lt (by rw [noBits]; exact zero_le _)
  rw [noBits, field_zero, reconstruct_eq plain, Int.shiftRight_eq_div_pow,
    Int.mul_ediv_assoc _ (dvd_of_low_bits (not_not.mp flat)), cast_zero, Int.add_zero,
    UInt64.ofInt_mul, UInt64.ofInt_mul, ofInt_natCast, UInt64.ofNat_toNat, ofInt_natCast] at read
  rw [← read, UInt64.toUInt64_toInt64, toUInt64_ofInt, Int.shiftRight_eq_div_pow]
  split_ifs with scaled
  · ac_rfl
  · rw [plain (by simpa using scaled), UInt64.one_mul]

end Luxir.Codec.NumColumn
