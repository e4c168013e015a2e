import Luxir.Codec.NumColumn

/-!
The writer of numeric columns. Every 4096 values are planned and written as a block; the
descriptors follow the blocks. What the writer puts after them (zones, orders and bounds that
other readers use) is any further text here.
-/

namespace Luxir.Codec.ColumnRoundTrip
open Lib.Bytes Lib.Words LinearFit LinearPack NumColumnFormat NumColumn List NumBlockInfo

def maxAlign : Nat := 8

/-- A fill that is not zero catches bugs better. -/
def align (out : Bytes) (alignment : Nat) : Bytes :=
  out ++ replicate ((alignment - out.length % alignment) % alignment) 0x11

namespace NumBlockCodec

def pack (out : Bytes) (plan : BlockPlan) (quotients : List Nat) : Bytes :=
  let residuals := quotients.mapIdx fun i quotient => (residual plan i quotient).toNat
  (residuals.foldl Writer.append (Writer.start out plan.bits)).finish false

def payload (out : Bytes) (values : List Int64) (plan : BlockPlan) (quotients : List Nat) : Bytes :=
  if plan.raw then out ++ values.flatMap fun value => spell 8 value.toUInt64.toNat
  else pack out plan quotients

def write (out : Bytes) (origin : Nat) (values : List Int64) (plan : BlockPlan)
    (quotients : List Nat) : Bytes × NumBlockInfo :=
  let out := if plan.raw then align out maxAlign else out
  (payload out values plan quotients, plan.info.setPayload (out.length - origin) plan.bits)

def append (out : Bytes) (values : List Int64) (useGcd : Bool) : Bytes × NumBlockInfo :=
  let planned := planBlock values useGcd
  (payload out values planned.1 planned.2, planned.1.info.setPayload out.length planned.1.bits)

end NumBlockCodec

structure NumColumnWriter where
  out : Bytes
  colStart : Nat
  nAdded : Nat
  blockInfo : List NumBlockInfo
  values : List Int64
  useGcd : Bool
deriving DecidableEq, Repr

structure FinishData where
  columnLoc : Nat
  columnMetaOff : Nat
  numValues : Nat
deriving DecidableEq, Repr

namespace NumColumnWriter

def start (out : Bytes) (useGcd : Bool) : NumColumnWriter :=
  ⟨out, out.length, 0, [], [], useGcd⟩

def addBlock (writer : NumColumnWriter) (block : List Int64) : NumColumnWriter :=
  let planned := planBlock block writer.useGcd
  let written := NumBlockCodec.write writer.out writer.colStart block planned.1 planned.2
  { writer with out := written.1, blockInfo := writer.blockInfo ++ [written.2] }

def addInt64 (writer : NumColumnWriter) (val : Int64) : NumColumnWriter :=
  let writer := { writer with nAdded := writer.nAdded + 1, values := writer.values ++ [val] }
  if writer.values.length = blockSize then { writer.addBlock writer.values with values := [] }
  else writer

/-- `trailer` is what follows the descriptors. -/
def finish (writer : NumColumnWriter) (trailer : Bytes) : Bytes × FinishData :=
  let writer :=
    if writer.values.isEmpty then writer
    else { writer.addBlock writer.values with values := [] }
  let out := align writer.out maxAlign
  let metaOff := out.length - writer.colStart
  (out ++ writer.blockInfo.flatMap toBytes ++ trailer, ⟨writer.colStart, metaOff, writer.nAdded⟩)

end NumColumnWriter

def FinishData.column (data : FinishData) (file : Bytes) (withGcd : Bool) : NumColumnT :=
  ⟨withGcd, file, data.columnLoc, data.columnLoc + data.columnMetaOff, data.numValues⟩

variable {values : List Int64} {writer : NumColumnWriter} (out : Bytes) {quotients : List Nat}
  {added : List Int64} {plan : BlockPlan}

theorem reconstruct_residual (packed : Packed values plan quotients) {withGcd : Bool}
    (plain : withGcd = false → plan.info.gcd = 1) {rank : Nat} (lt : rank < values.length)
    (same : rank < quotients.length) (offset : Nat) :
    reconstruct withGcd (plan.info.setPayload offset plan.bits) rank
      (NumColumnFormat.residual plan rank quotients[rank]).toNat = values[rank] := by
  obtain ⟨min, base, scaled⟩ := packed.base
  obtain ⟨distance, _⟩ := residual_eq packed.fits same
  have whole := scaled rank lt same
  have exactly : min.toInt + plan.info.gcd.toNat * plan.fit.intercept.toInt +
      plan.info.gcd.toNat * (((rank : Int) * plan.fit.scaledSlope.toInt) >>> slopeShift +
        (NumColumnFormat.residual plan rank quotients[rank]).toNat) = values[rank].toInt := by
    rw [← whole, NumColumnFormat.residual, distance, line]
    ring
  have read := reconstruct_eq
    (show withGcd = false → (plan.info.setPayload offset plan.bits).gcd = 1 from plain) rank
    (NumColumnFormat.residual plan rank quotients[rank]).toNat
  simp only [setPayload] at read ⊢
  rw [read, packed.slope, base, ← UInt64.ofInt_add, exactly, ofInt_toInt, Int64.toInt64_toUInt64]

theorem length_spell_word (value : Int64) : (spell 8 value.toUInt64.toNat).length = 8 :=
  length_spell _ _

theorem residuals_small (packed : Packed values plan quotients) :
    ∀ value ∈ quotients.mapIdx (fun i quotient => (NumColumnFormat.residual plan i quotient).toNat),
      value < 2 ^ plan.bits := by
  intro value mem
  obtain ⟨rank, lt, rfl⟩ := mem_mapIdx.mp mem
  rw [packed.width]
  exact (residual_eq packed.fits lt).2

def payloadSize (count bits : Nat) : Nat :=
  if bits ≤ maxPackedBits then packedByteSize count bits else count * 8

theorem payload_stored (useGcd : Bool) (ne : values ≠ []) (short : values.length ≤ blockSize) :
    ∃ payload, NumBlockCodec.payload out values (planBlock values useGcd).1
        (planBlock values useGcd).2 = out ++ payload ∧
      payload.length = payloadSize values.length (planBlock values useGcd).1.bits ∧
      ∀ file rest place offset, file.drop place = payload ++ rest → offset < 2 ^ 56 →
        Stored useGcd file place
          ((planBlock values useGcd).1.info.setPayload offset (planBlock values useGcd).1.bits)
          values := by
  have gcd : useGcd = false → (planBlock values useGcd).1.info.gcd = 1 := by
    rintro rfl
    exact planBlock_gcd values
  rcases planBlock_cases values useGcd ne short with raw | packed
  · have wide : (planBlock values useGcd).1.raw = true := by
      unfold BlockPlan.raw
      rw [raw]
      rfl
    refine ⟨values.flatMap fun value => spell 8 value.toUInt64.toNat, ?_, ?_, ?_⟩
    · rw [NumBlockCodec.payload, if_pos wide]
    · rw [length_flatMap length_spell_word, payloadSize, raw]
      rfl
    · intro file rest place offset written fits
      have bits := bits_setPayload (planBlock values useGcd).1.info fits
        (show (planBlock values useGcd).1.bits < 2 ^ 8 by rw [raw]; decide)
      refine ⟨fun _ rank lt => ?_, fun narrow => ?_, gcd⟩
      · rw [ofNat_load_spell (drop_records length_spell_word written lt), Int64.toInt64_toUInt64]
      · rw [bits, raw] at narrow
        exact absurd narrow (by decide)
  · have narrow : (planBlock values useGcd).1.bits ≤ maxPackedBits := by
      rw [packed.width]
      exact packed.fits.narrow
    have small := residuals_small packed
    obtain ⟨payload, wrote, length, spelled⟩ := pack_spec out _ narrow small
    refine ⟨payload, ?_, ?_, ?_⟩
    · rw [NumBlockCodec.payload, if_neg (by simpa [BlockPlan.raw] using narrow)]
      exact wrote
    · rw [length, payloadSize, if_pos narrow, length_mapIdx, packed.length]
    · intro file rest place offset written fits
      have bits := bits_setPayload (planBlock values useGcd).1.info fits
        (narrow.trans_lt (by decide))
      refine ⟨fun wide => ?_, fun _ rank lt => ?_, gcd⟩
      · rw [bits] at wide
        exact absurd narrow (Nat.not_le.mpr wide)
      have same : rank < (planBlock values useGcd).2.length := by
        rw [packed.length]
        exact lt
      rw [bits, field_packed small length spelled written (by simpa using same), getElem_mapIdx]
      exact reconstruct_residual packed gcd lt same offset

theorem planBlock_bits (values : List Int64) (useGcd : Bool) (ne : values ≠ [])
    (short : values.length ≤ blockSize) : (planBlock values useGcd).1.bits = rawBits ∨
      (planBlock values useGcd).1.bits ≤ maxPackedBits := by
  rcases planBlock_cases values useGcd ne short with raw | packed
  · exact .inl raw
  · rw [packed.width]
    exact .inr packed.fits.narrow

/-- A block on its own: a sound descriptor, and the payload it describes. -/
structure Described (useGcd : Bool) (values : List Int64) (info : NumBlockInfo)
    (payload : Bytes) : Prop where
  length : payload.length = payloadSize values.length info.bits
  kinds : info.bits = rawBits ∨ info.bits ≤ maxPackedBits
  gcd : info.gcd ≠ 0
  plain : useGcd = false → info.gcd = 1
  stored : ∀ file rest place, file.drop place = payload ++ rest →
    Stored useGcd file place info values

theorem append_stored (values : List Int64) (useGcd : Bool) (ne : values ≠ [])
    (short : values.length ≤ blockSize) (near : out.length < 2 ^ 56) :
    ∃ payload info, NumBlockCodec.append out values useGcd = (out ++ payload, info) ∧
      info.payloadOffset = out.length ∧ Described useGcd values info payload := by
  have kinds := planBlock_bits values useGcd ne short
  have narrow : (planBlock values useGcd).1.bits < 2 ^ 8 := by
    rcases kinds with raw | packed
    · rw [raw]
      decide
    · exact packed.trans_lt (by decide)
  have bits := bits_setPayload (planBlock values useGcd).1.info near narrow
  obtain ⟨payload, wrote, length, kept⟩ := payload_stored out useGcd ne short
  refine ⟨payload, (planBlock values useGcd).1.info.setPayload out.length
    (planBlock values useGcd).1.bits, ?_, payloadOffset_setPayload _ near narrow, ?_, ?_, ?_, ?_, ?_⟩
  · unfold NumBlockCodec.append
    dsimp only
    rw [wrote]
  · rw [bits]
    exact length
  · rw [bits]
    exact kinds
  · exact planBlock_gcd_ne_zero values useGcd
  · rintro rfl
    exact planBlock_gcd values
  · intro file rest place written
    exact kept file rest place out.length written near

theorem addBlock_stored (writer : NumColumnWriter) {block : List Int64} (ne : block ≠ [])
    (short : block.length ≤ blockSize) (origin : writer.colStart ≤ writer.out.length) :
    ∃ written info, writer.addBlock block =
        { writer with out := writer.out ++ written, blockInfo := writer.blockInfo ++ [info] } ∧
      ((writer.out ++ written).length - writer.colStart < 2 ^ 56 → ∀ more,
        Stored writer.useGcd (writer.out ++ written ++ more)
          (writer.colStart + info.payloadOffset) info block) := by
  obtain ⟨pad, padded⟩ : ∃ pad, (if (planBlock block writer.useGcd).1.raw then
      align writer.out maxAlign else writer.out) = writer.out ++ pad := by
    split_ifs
    · exact ⟨_, rfl⟩
    · exact ⟨[], (append_nil _).symm⟩
  obtain ⟨payload, wrote, _, kept⟩ := payload_stored (writer.out ++ pad) writer.useGcd ne short
  refine ⟨pad ++ payload, (planBlock block writer.useGcd).1.info.setPayload
    ((writer.out ++ pad).length - writer.colStart) (planBlock block writer.useGcd).1.bits, ?_, ?_⟩
  · unfold NumColumnWriter.addBlock NumBlockCodec.write
    dsimp only
    rw [padded, wrote, append_assoc]
  intro fits more
  have offset : (writer.out ++ pad).length - writer.colStart < 2 ^ 56 := by
    simp only [length_append] at fits ⊢
    omega
  have narrow : (planBlock block writer.useGcd).1.bits < 2 ^ 8 := by
    rcases planBlock_bits block writer.useGcd ne short with raw | packed
    · rw [raw]
      decide
    · exact packed.trans_lt (by decide)
  rw [payloadOffset_setPayload _ offset narrow]
  apply kept _ more _ _ _ offset
  have place : writer.colStart + ((writer.out ++ pad).length - writer.colStart) =
      (writer.out ++ pad).length := by
    simp only [length_append]
    omega
  rw [place, ← append_assoc, append_assoc (writer.out ++ pad), drop_left]

def block (values : List Int64) (blockNum : Nat) : List Int64 :=
  (values.drop (blockNum * blockSize)).take blockSize

theorem block_append (more : List Int64) {blockNum : Nat}
    (full : (blockNum + 1) * blockSize ≤ values.length) :
    block (values ++ more) blockNum = block values blockNum := by
  rw [Nat.add_mul, one_mul] at full
  unfold block
  rw [drop_append_of_le_length (by omega), take_append_of_le_length]
  rw [length_drop]
  omega

/-- The blocks that were written hold the values, in files that go on as they like. -/
def Written (values : List Int64) (writer : NumColumnWriter) : Prop :=
  writer.out.length - writer.colStart < 2 ^ 56 →
    ∀ blockNum (inside : blockNum < writer.blockInfo.length) (more : Bytes),
      Stored writer.useGcd (writer.out ++ more)
        (writer.colStart + writer.blockInfo[blockNum].payloadOffset) writer.blockInfo[blockNum]
        (block values blockNum)

theorem written_addBlock (writer : NumColumnWriter) {done : List Int64} (last : List Int64)
    (wrote : Written done writer) (origin : writer.colStart ≤ writer.out.length)
    (full : done.length = writer.blockInfo.length * blockSize) (ne : last ≠ [])
    (short : last.length ≤ blockSize) : Written (done ++ last) (writer.addBlock last) ∧
      (writer.addBlock last).colStart ≤ (writer.addBlock last).out.length ∧
      (writer.addBlock last).blockInfo.length = writer.blockInfo.length + 1 := by
  obtain ⟨bytes, info, added, kept⟩ := addBlock_stored writer ne short origin
  rw [added]
  refine ⟨?_, by simp only [length_append]; omega, by simp⟩
  intro fits blockNum lt more
  by_cases old : blockNum < writer.blockInfo.length
  · have before : writer.out.length - writer.colStart < 2 ^ 56 := by
      simp only [length_append] at fits
      omega
    have filled : (blockNum + 1) * blockSize ≤ done.length := by
      rw [full]
      exact Nat.mul_le_mul_right blockSize old
    rw [block_append last filled, getElem_append_left old, append_assoc]
    exact wrote before blockNum old (bytes ++ more)
  · have last_block : blockNum = writer.blockInfo.length := by
      simp only [length_append, length_singleton] at lt
      omega
    subst last_block
    have here : block (done ++ last) writer.blockInfo.length = last := by
      unfold block
      rw [← full, drop_left, take_of_length_le short]
    rw [here, getElem_concat_length rfl]
    exact kept fits more

/-- The values added are those written as blocks and those still pending. -/
structure Writes (added : List Int64) (writer : NumColumnWriter) : Prop where
  count : writer.nAdded = added.length
  origin : writer.colStart ≤ writer.out.length
  short : writer.values.length < blockSize
  pending : ∃ done, added = done ++ writer.values ∧
    done.length = writer.blockInfo.length * blockSize ∧ Written done writer

theorem writes_start (useGcd : Bool) : Writes [] (NumColumnWriter.start out useGcd) where
  count := rfl
  origin := le_rfl
  short := by
    show 0 < blockSize
    decide
  pending := ⟨[], rfl, by simp [NumColumnWriter.start], by
    intro _ _ lt
    simp [NumColumnWriter.start] at lt⟩

theorem writes_addInt64 (writes : Writes added writer) (val : Int64) :
    Writes (added ++ [val]) (writer.addInt64 val) := by
  obtain ⟨count, origin, short, done, split, full, wrote⟩ := writes
  unfold NumColumnWriter.addInt64
  dsimp only
  split_ifs with filled
  · obtain ⟨grown, later, blocks⟩ := written_addBlock
      { writer with nAdded := writer.nAdded + 1, values := writer.values ++ [val] }
      (writer.values ++ [val]) wrote origin full (by simp) filled.le
    refine ⟨by simp [NumColumnWriter.addBlock, count], later, by show 0 < blockSize; decide,
      done ++ (writer.values ++ [val]), ?_, ?_, grown⟩
    · rw [split, append_assoc, append_nil]
    · rw [length_append, full, filled]
      rw [blocks]
      ring
  · refine ⟨by simp [count], origin, ?_, done, by rw [split, append_assoc], full, wrote⟩
    simp only [length_append, length_singleton] at filled ⊢
    omega

theorem writes_adds (writes : Writes added writer) :
    Writes (added ++ values) (values.foldl NumColumnWriter.addInt64 writer) := by
  induction values generalizing added writer with
  | nil => simpa using writes
  | cons val rest ih =>
    have later := ih (writes_addInt64 writes val)
    simpa using later

theorem finished_holds (writer : NumColumnWriter) (origin : writer.colStart ≤ writer.out.length)
    (count : writer.nAdded = values.length)
    (blocks : values.length ≤ writer.blockInfo.length * blockSize) (wrote : Written values writer)
    (trailer tail : Bytes)
    (fits : (align writer.out maxAlign).length - writer.colStart < 2 ^ 56) :
    Holds (FinishData.column ⟨writer.colStart, (align writer.out maxAlign).length - writer.colStart,
      writer.nAdded⟩ (align writer.out maxAlign ++ writer.blockInfo.flatMap toBytes ++ trailer ++
      tail) writer.useGcd) values := by
  obtain ⟨pad, padded⟩ : ∃ pad, align writer.out maxAlign = writer.out ++ pad := ⟨_, rfl⟩
  rw [padded] at fits ⊢
  have place : writer.colStart + ((writer.out ++ pad).length - writer.colStart) =
      (writer.out ++ pad).length := by
    simp only [length_append]
    omega
  refine ⟨count, ?_⟩
  intro blockNum begins
  have lt := lt_of_mul_lt_mul_right (begins.trans_le blocks) (Nat.zero_le _)
  have info : NumColumnT.blockInfo (FinishData.column ⟨writer.colStart, (writer.out ++ pad).length -
      writer.colStart, writer.nAdded⟩ (writer.out ++ pad ++ writer.blockInfo.flatMap toBytes ++
      trailer ++ tail) writer.useGcd) blockNum = writer.blockInfo[blockNum] := by
    apply ofBytes_toBytes
    apply drop_records length_toBytes _ lt
    · exact trailer ++ tail
    · simp only [FinishData.column]
      rw [place, append_assoc, append_assoc (writer.out ++ pad), drop_left]
  rw [info]
  have before : writer.out.length - writer.colStart < 2 ^ 56 := by
    simp only [length_append] at fits
    omega
  have kept := wrote before blockNum lt
    (pad ++ (writer.blockInfo.flatMap toBytes ++ (trailer ++ tail)))
  simpa only [FinishData.column, append_assoc, block] using kept

theorem finish_holds (writes : Writes values writer) (trailer tail : Bytes)
    (fits : (writer.finish trailer).2.columnMetaOff < 2 ^ 56) :
    Holds ((writer.finish trailer).2.column ((writer.finish trailer).1 ++ tail) writer.useGcd)
      values := by
  obtain ⟨count, origin, short, done, split, full, wrote⟩ := writes
  unfold NumColumnWriter.finish at fits ⊢
  by_cases empty : writer.values = []
  · rw [empty, append_nil] at split
    subst split
    simp only [empty, isEmpty_nil, if_true] at fits ⊢
    exact finished_holds writer origin count full.le wrote trailer tail fits
  · have left : writer.values.isEmpty = false := by simpa using empty
    obtain ⟨grown, later, blocks⟩ :=
      written_addBlock writer writer.values wrote origin full empty short.le
    rw [← split] at grown
    have enough : values.length ≤ (writer.addBlock writer.values).blockInfo.length * blockSize := by
      rw [split, length_append, full, blocks, Nat.add_mul, one_mul]
      omega
    simp only [left, Bool.false_eq_true, if_false] at fits ⊢
    exact finished_holds { writer.addBlock writer.values with values := [] }
      later count enough grown trailer tail fits

theorem adds_keep (values : List Int64) (writer : NumColumnWriter) :
    (values.foldl NumColumnWriter.addInt64 writer).useGcd = writer.useGcd ∧
      (values.foldl NumColumnWriter.addInt64 writer).colStart = writer.colStart := by
  induction values generalizing writer with
  | nil => exact ⟨rfl, rfl⟩
  | cons val rest ih =>
    have same : (writer.addInt64 val).useGcd = writer.useGcd ∧
        (writer.addInt64 val).colStart = writer.colStart := by
      unfold NumColumnWriter.addInt64
      dsimp only
      split_ifs <;> exact ⟨rfl, rfl⟩
    rw [foldl_cons, (ih _).1, (ih _).2]
    exact same

/-- A column that was written and finished reads back as the values added, by every path: alone,
in pairs and in frames, however the frames are unpacked and whatever surrounds the column. -/
theorem column_round_trip (useGcd avx2 : Bool) (out trailer tail : Bytes) (values : List Int64)
    (fits : ((values.foldl NumColumnWriter.addInt64 (NumColumnWriter.start out useGcd)).finish
      trailer).2.columnMetaOff ≤ offsetMask.toNat) : let finished :=
      (values.foldl NumColumnWriter.addInt64 (NumColumnWriter.start out useGcd)).finish trailer
    let column := finished.2.column (finished.1 ++ tail) useGcd
    column.nValues = values.length ∧ ∀ rank (inside : rank < values.length),
        column.valueAt rank = values[rank] ∧
        column.valuesAt rank = (if rank = 0 then 0 else values[rank - 1], values[rank]) ∧
        column.decodeFrame avx2 rank = (rank / bulkSize * bulkSize,
            (values.drop (rank / bulkSize * bulkSize)).take bulkSize) := by
  have writes : Writes values
      (values.foldl NumColumnWriter.addInt64 (NumColumnWriter.start out useGcd)) :=
    writes_adds (writes_start out useGcd)
  have limit : offsetMask.toNat < 2 ^ 56 := by decide
  have kind : (values.foldl NumColumnWriter.addInt64 (NumColumnWriter.start out useGcd)).useGcd =
      useGcd := (adds_keep values _).1
  have holds := finish_holds writes trailer tail (fits.trans_lt limit)
  rw [kind] at holds
  exact ⟨holds.count, fun rank inside =>
    ⟨valueAt_eq holds inside, valuesAt_eq holds inside, decodeFrame_eq avx2 holds inside⟩⟩

theorem column_round_trip_pair : let finished :=
      ([7, -3].foldl NumColumnWriter.addInt64 (NumColumnWriter.start [] true)).finish []
    finished.2.columnMetaOff ≤ offsetMask.toNat ∧
      (finished.2.column (finished.1 ++ []) true).valueAt 1 = -3 :=
  ⟨by decide, ((column_round_trip true true [] [] [] [7, -3] (by decide)).2 1 (by decide)).1⟩

end Luxir.Codec.ColumnRoundTrip
