import Luxir.Search.OrdDeltas

/-!
The readers of an ordinal map's deltas find what the writers stored, for each encoding. Frames and
lists of ordinals are read as single ordinals are, whatever the encoding.
-/

namespace Luxir.Search.OrdDeltaReads
open Lib.Bytes Lib.Words Codec.LinearFit Codec.LinearPack Codec.ColumnRoundTrip OrdDeltas List Nat
open PackedDeltaRuns

variable {deltas : PredictedDeltaBlocks} {count value : Nat} {plan : Plan} {values : List Nat}
  {info : PredictedBlockInfo} {writer : Writer} {runs : List Run}

section
variable (file : Bytes) (mapping : SegToGlobal)

theorem unpackDeltas_eq {start : Nat} (lt : start % blockSize + count ≤ blockSize) :
    mapping.unpackDeltas file start count =
      (range count).map fun i => mapping.deltaAt file (start + i) := by
  unfold SegToGlobal.unpackDeltas SegToGlobal.deltaAt
  by_cases identity : mapping.bits = 0
  · simp [identity, map_const']
  simp only [if_neg identity]
  cases mapping.encoding with
  | flat => simp [unpack64, SegToGlobal.flatDeltaAt]
  | singleFit => exact Codec.NumColumn.mapIdx_range count _ _
  | predicted =>
    refine (Codec.NumColumn.mapIdx_range count _ _).trans ?_
    apply map_congr_left
    intro i mem
    have begun := mem_range.mp mem
    have pos : 0 < blockSize := by decide
    have block : (start + i) / blockSize = start / blockSize := by
      rw [Nat.div_eq_iff pos]
      have parts := Nat.div_add_mod start blockSize
      rw [mul_comm] at parts
      constructor <;> omega
    have rank : (start + i) % blockSize = start % blockSize + i := by
      rw [Nat.add_mod, Nat.mod_eq_of_lt (by omega : i < blockSize), Nat.mod_eq_of_lt (by omega)]
    dsimp only [SegToGlobal.predictedDeltaAt]
    rw [block, rank]

theorem globalOrdsOfStored_eq (kept : List Nat) : mapping.globalOrdsOfStored file kept =
      kept.map fun ord => mapping.globalOrd file (ord - 1) := by
  unfold SegToGlobal.globalOrdsOfStored SegToGlobal.globalOrd SegToGlobal.deltaAt
  split
  · rfl
  · cases mapping.encoding <;> rfl

def Decoded (bulk : SegToGlobal.BulkGlobalOrds) : Prop :=
  ∀ ord : Nat, bulk.decodedStart ≤ ord → (ord : Int) < bulk.decodedEnd →
    bulk.decoded[((ord : Int) - bulk.decodedStart).toNat]? = some (mapping.deltaAt file ord)

theorem decoded_start : Decoded file mapping SegToGlobal.BulkGlobalOrds.start := by
  intro ord lower upper
  simp only [SegToGlobal.BulkGlobalOrds.start] at upper
  omega

theorem decoded_frame (ord : Nat) : Decoded file mapping ⟨(ord / bulkSize * bulkSize : Nat),
      (min (ord / bulkSize * bulkSize + bulkSize) mapping.numOrds : Nat),
      mapping.unpackDeltas file (ord / bulkSize * bulkSize)
        (min (ord / bulkSize * bulkSize + bulkSize) mapping.numOrds -
          ord / bulkSize * bulkSize)⟩ := by
  intro other lower upper
  dsimp only at lower upper ⊢
  -- A frame starts at a multiple of its size, so it stays within a block.
  rw [unpackDeltas_eq file mapping (by unfold bulkSize blockSize; omega), getElem?_map]
  have place : ((other : Int) - (ord / bulkSize * bulkSize : Nat)).toNat <
      min (ord / bulkSize * bulkSize + bulkSize) mapping.numOrds - ord / bulkSize * bulkSize := by
    omega
  rw [getElem?_range place, Option.map_some]
  congr 2
  omega

theorem bulk_globalOrd {bulk : SegToGlobal.BulkGlobalOrds} (decoded : Decoded file mapping bulk)
    {ord : Nat} (lt : ord < mapping.numOrds) :
    (bulk.globalOrd file mapping ord).1 = mapping.globalOrd file ord ∧
      Decoded file mapping (bulk.globalOrd file mapping ord).2 := by
  unfold SegToGlobal.BulkGlobalOrds.globalOrd
  by_cases identity : mapping.bits = 0
  · simp [identity, SegToGlobal.globalOrd, SegToGlobal.deltaAt, decoded]
  simp only [if_neg identity]
  split_ifs with outside
  · have frame := decoded_frame file mapping ord
    refine ⟨?_, frame⟩
    have found := frame ord (by dsimp only; have := div_mul_le_self ord bulkSize; omega) (by
        have next : ord < ord / bulkSize * bulkSize + bulkSize := by
          unfold bulkSize
          omega
        dsimp only
        omega)
    rw [getD_eq_getElem?_getD, found]
    rfl
  · have found := decoded ord (by omega) (by omega)
    refine ⟨?_, decoded⟩
    rw [getD_eq_getElem?_getD, found]
    rfl

end

/-- The bytes hold the values at one width, wherever they are placed. -/
def Spells (payload : Bytes) (bits : Nat) (values : List Nat) : Prop :=
  ∀ file place rest, file.drop place = payload ++ rest → ∀ rank (inside : rank < values.length),
    select64 file place rank bits (mask bits) = values[rank]

theorem finish_spells {before : Bytes}
    (packs : Packs before values writer) (narrow : writer.bits ≤ 57)
    (small : ∀ value ∈ values, value < 2 ^ writer.bits) :
    ∃ payload, writer.finish true = before ++ payload ∧ Spells payload writer.bits values := by
  obtain ⟨payload, finished, length, spelled⟩ := finish_spec packs
  refine ⟨payload ++ replicate tailPad 0, by rw [finish_pad, finished, append_assoc], ?_⟩
  intro file place rest wrote rank lt
  rw [append_assoc] at wrote
  rw [select64_eq file place rank narrow, field_packed small length spelled wrote lt]

theorem pack_spells (before : Bytes) {bits : Nat} (narrow : bits ≤ 57)
    (small : ∀ value ∈ values, value < 2 ^ bits) :
    ∃ payload, (values.foldl Writer.append (Writer.start before bits)).finish true =
        before ++ payload ∧ Spells payload bits values := by
  have same : (values.foldl Writer.append (Writer.start before bits)).bits = bits :=
    appends_bits values _
  have packs := packs_appends (packs_start before bits) narrow small
  have spells := finish_spells packs (same.symm ▸ narrow) (by rwa [same])
  rwa [same] at spells

section

theorem chunks_eq {β : Type} (value : Nat → β) (chunks count : Nat) :
    (range chunks).flatMap (fun chunk =>
        (range (min 128 (count - chunk * 128))).map fun i => value (chunk * 128 + i)) =
      (range (min count (chunks * 128))).map value := by
  induction chunks with
  | zero => simp
  | succ chunks ih =>
    have split : min count ((chunks + 1) * 128) =
        min count (chunks * 128) + min 128 (count - chunks * 128) := by omega
    rw [range_succ, flatMap_append, ih, split, range_add, map_append, map_map]
    congr 1
    rw [flatMap_singleton]
    apply map_congr_left
    intro i mem
    have begun := mem_range.mp mem
    have full : min count (chunks * 128) = chunks * 128 := by omega
    rw [Function.comp_apply, full]

theorem map_range_eq {value : Nat → Nat} (length : values.length = count)
    (same : ∀ rank (lt : rank < values.length), value rank = values[rank]) :
    (range count).map value = values := by
  apply ext_getElem
  · simp [length]
  · intro rank first second
    rw [getElem_map, getElem_range, same rank second]

variable {deltas : PackedDeltaRuns} {added : List Nat} {packed : Bytes}

theorem runValues_eq {payload rest : Bytes} {run : Run} {endIndex : Nat}
    (spells : Spells payload run.width values)
    (wrote : packed.drop run.byteOffset = payload ++ rest)
    (length : endIndex = run.startIndex + values.length) :
    runValues packed run endIndex = values := by
  unfold runValues unpack64
  rw [chunks_eq fun rank => select64 packed run.byteOffset rank run.width (mask run.width)]
  exact map_range_eq (by omega) (spells packed run.byteOffset rest wrote)

theorem valuesOf_concat (packed : Bytes) (runs : List Run) (run : Run) (count : Nat) :
    valuesOf packed (runs ++ [run]) count =
      valuesOf packed runs run.startIndex ++ runValues packed run count := by
  induction runs with
  | nil => rfl
  | cons first rest ih =>
    cases rest with
    | nil => rfl
    | cons =>
      simp only [cons_append, valuesOf] at ih ⊢
      rw [ih, append_assoc]

inductive Laid : Bytes → List Run → List Nat → Prop
  | nil : Laid [] [] []
  | run {packed payload : Bytes} {runs : List Run} {values chunk : List Nat} {width : Nat}
      (before : Laid packed runs values) (spells : Spells payload width chunk) :
      Laid (packed ++ payload) (runs ++ [⟨values.length, width, packed.length⟩]) (values ++ chunk)

theorem Laid.values_eq (laid : Laid packed runs values) (tail : Bytes) :
    valuesOf (packed ++ tail) runs values.length = values := by
  induction laid generalizing tail with
  | nil => rfl
  | @run packed payload runs values chunk width before spells ih =>
    have here : (packed ++ payload ++ tail).drop packed.length = payload ++ tail := by
      rw [append_assoc, drop_left]
    rw [valuesOf_concat, runValues_eq spells here (by rw [length_append])]
    rw [append_assoc, ih]

theorem Laid.eq_nil (laid : Laid packed runs values)
    (noRuns : runs = []) : packed = [] ∧ values = [] := by
  cases laid with
  | nil => exact ⟨rfl, rfl⟩
  | run => simp at noRuns

structure Open (added : List Nat) (deltas : PackedDeltaRuns) (writer : Writer) : Prop where
  current : deltas.writer = some writer
  narrow : writer.bits ≤ 57
  small : ∀ value ∈ added, value < 2 ^ writer.bits
  split : ∃ packed runs done chunk, added = done ++ chunk ∧ Laid packed runs done ∧
    Packs packed chunk writer ∧ deltas.runs = runs ++ [⟨done.length, writer.bits, packed.length⟩]

structure Takes (added : List Nat) (deltas : PackedDeltaRuns) : Prop where
  count : deltas.count = added.length
  first : deltas.firstDelta = added.headD 0
  last : deltas.lastDelta = added.getLastD 0
  state : deltas.writer = none ∧ deltas.packed = [] ∧ deltas.runs = [] ∧ added = [] ∨
    ∃ writer, Open added deltas writer

theorem Open.laid (opened : Open added deltas writer) :
    Laid (writer.finish true) deltas.runs added := by
  obtain ⟨now, narrow, small, packed, runs, done, chunk, rfl, laid, packs, extended⟩ := opened
  obtain ⟨payload, finished, spells⟩ := finish_spells packs narrow
    fun value mem => small value (mem_append_right _ mem)
  rw [finished, extended]
  exact laid.run spells

theorem open_add (takes : Takes added deltas) (narrow : value < 2 ^ 57) :
    ∃ writer, Open (added ++ [value]) (deltas.add value) writer := by
  have width : bitWidth value ≤ 57 := bitWidth_le.mpr narrow
  have fits := lt_two_pow_bitWidth value
  have fresh : ∀ packed, Packs packed [value]
      ((Writer.start packed (bitWidth value)).append value) := by
    intro packed
    have packs := packs_append (packs_start packed (bitWidth value)) width fits
    rwa [nil_append] at packs
  have bits : ∀ packed, ((Writer.start packed (bitWidth value)).append value).bits =
      bitWidth value := fun packed => append_bits _ _
  rcases takes.state with ⟨closed, packed, runs, rfl⟩ | ⟨writer, opened⟩
  · refine ⟨(Writer.start [] (bitWidth value)).append value, ?_, ?_, ?_, [], [], [], [value], rfl,
      .nil, fresh [], ?_⟩
    · simp [add, needsRun, startRun, closed, packed]
    · rwa [bits]
    · rw [bits]
      simpa using fits
    · simp [add, needsRun, startRun, closed, packed, runs, takes.count, bits]
  · obtain ⟨packed, runs, done, chunk, split, laid, packs, extended⟩ := opened.split
    have last : deltas.runs.getLast? = some ⟨done.length, writer.bits, packed.length⟩ := by
      rw [extended, getLast?_concat]
    by_cases wider : writer.bits < bitWidth value
    · have needs : deltas.needsRun (bitWidth value) = true := by
        simp [needsRun, opened.current, last, wider]
      refine ⟨(Writer.start (writer.finish true) (bitWidth value)).append value, ?_, ?_, ?_,
        writer.finish true, deltas.runs, added, [value], rfl, opened.laid, fresh _, ?_⟩
      · simp [add, needs, startRun, opened.current]
      · rwa [bits]
      · rw [bits]
        refine forall_mem_append.mpr ⟨fun other before => ?_, forall_mem_singleton.mpr fits⟩
        exact (opened.small other before).trans (Nat.pow_lt_pow_right (by norm_num) wider)
      · simp [add, needs, startRun, opened.current, takes.count, bits]
    · have keeps : deltas.needsRun (bitWidth value) = false := by
        simp [needsRun, opened.current, last, wider]
      have here := fits.trans_le (Nat.pow_le_pow_right (by norm_num) (not_lt.mp wider))
      have same := append_bits writer value
      refine ⟨writer.append value, ?_, same.symm ▸ opened.narrow, ?_, packed, runs, done, chunk ++
        [value], by rw [split, append_assoc], laid, packs_append packs opened.narrow here, ?_⟩
      · simp [add, keeps, opened.current]
      · rw [same]
        exact forall_mem_append.mpr ⟨opened.small, forall_mem_singleton.mpr here⟩
      · simp [add, keeps, extended, same]

theorem add_counts (deltas : PackedDeltaRuns) (value : Nat) :
    (deltas.add value).count = deltas.count + 1 ∧ (deltas.add value).lastDelta = value ∧
      (deltas.add value).firstDelta = if deltas.count = 0 then value else deltas.firstDelta := by
  unfold add
  dsimp only
  split_ifs <;> simp_all [startRun]

theorem takes_add (takes : Takes added deltas) (narrow : value < 2 ^ 57) :
    Takes (added ++ [value]) (deltas.add value) := by
  obtain ⟨count, last, first⟩ := add_counts deltas value
  refine ⟨?_, ?_, ?_, .inr (open_add takes narrow)⟩
  · rw [count, takes.count, length_append, length_singleton]
  · rw [first, takes.count, takes.first]
    cases added <;> simp
  · rw [last, getLastD_concat]

theorem takes_adds (takes : Takes added deltas) (narrow : ∀ value ∈ values, value < 2 ^ 57) :
    Takes (added ++ values) (values.foldl add deltas) := by
  induction values generalizing added deltas with
  | nil => simpa using takes
  | cons value rest ih =>
    have later := ih (takes_add takes (narrow value mem_cons_self))
      fun other mem => narrow other (mem_cons_of_mem _ mem)
    simpa using later

structure Taken (values : List Nat) (deltas : PackedDeltaRuns) : Prop where
  count : deltas.count = values.length
  first : deltas.firstDelta = values.headD 0
  last : deltas.lastDelta = values.getLastD 0
  laid : Laid deltas.packed deltas.runs values
  narrow : deltas.bits ≤ 57
  small : ∀ value ∈ values, value < 2 ^ deltas.bits

theorem packedDeltas_taken (ne : values ≠ [])
    (narrow : ∀ value ∈ values, value < 2 ^ 57) : Taken values (packedDeltas values) := by
  have takes := takes_adds
    (show Takes [] start from ⟨rfl, rfl, rfl, .inl ⟨rfl, rfl, rfl, rfl⟩⟩) narrow
  rw [nil_append] at takes
  rcases takes.state with ⟨-, -, -, empty⟩ | ⟨writer, opened⟩
  · exact absurd empty ne
  have laid := opened.laid
  obtain ⟨packed, runs, done, chunk, -, -, -, extended⟩ := opened.split
  have closed : packedDeltas values = { values.foldl add start with
        packed := writer.finish true
        writer := none } := by
    simp only [packedDeltas, finish, opened.current]
  have bits : (packedDeltas values).bits = writer.bits := by
    rw [closed, PackedDeltaRuns.bits]
    rw [extended, getLast?_concat]
  refine ⟨?_, ?_, ?_, ?_, bits ▸ opened.narrow, bits ▸ opened.small⟩
  · rw [closed, takes.count]
  · rw [closed, takes.first]
  · rw [closed, takes.last]
  · rw [closed]
    exact laid

theorem Taken.values_eq (taken : Taken values deltas) : deltas.values = values := by
  have read := taken.laid.values_eq []
  rwa [append_nil, ← taken.count] at read

/-- A single run is moved as it is; otherwise the values are packed again at the last width. -/
theorem Taken.writeFinal_spells (taken : Taken values deltas) (out : Bytes) :
    ∃ payload, deltas.writeFinal out = out ++ payload ∧ Spells payload deltas.bits values := by
  unfold writeFinal
  split_ifs with single
  · refine ⟨deltas.packed, rfl, ?_⟩
    have laid := taken.laid
    unfold PackedDeltaRuns.bits
    generalize deltas.packed = packed, deltas.runs = runs at laid single
    cases laid with
    | nil => simp at single
    | @run before payload runs done chunk width early spells =>
      obtain ⟨rfl, rfl⟩ := early.eq_nil (by simpa using single)
      simpa using spells
  · rw [taken.values_eq]
    exact pack_spells out taken.narrow taken.small

end

def Predicts (payload : Bytes) (plan : Plan) (slopeShift : Nat) (values : List Nat) : Prop :=
  ∀ file place rest, file.drop place = payload ++ rest → ∀ rank (inside : rank < values.length),
    (predict plan.intercept plan.scaledSlope rank slopeShift).toInt +
      select64 file place rank plan.bits (mask plan.bits) = values[rank]

theorem residuals_predict {slopeShift : Nat}
    (fits : Fits plan values slopeShift) (out : Bytes) : ∃ payload, (if plan.bits = 0 then out
        else ((values.mapIdx fun index value =>
          (residual plan index value slopeShift).toNat).foldl Writer.append
            (Writer.start out plan.bits)).finish true) = out ++ payload ∧
      Predicts payload plan slopeShift values := by
  have line_eq : ∀ rank < values.length,
      (predict plan.intercept plan.scaledSlope rank slopeShift).toInt =
        line plan.intercept plan.scaledSlope slopeShift rank :=
    fun rank lt => predict_eq (fits.near rank lt) (by norm_num)
  split_ifs with level
  · refine ⟨[], (append_nil _).symm, ?_⟩
    intro file place rest _ rank lt
    obtain ⟨distance, small⟩ := residual_eq fits lt
    rw [level] at small
    rw [line_eq rank lt, level]
    simp only [select64, if_true]
    omega
  · have small : ∀ value ∈ values.mapIdx (fun index value =>
        (residual plan index value slopeShift).toNat), value < 2 ^ plan.bits := by
      intro value mem
      obtain ⟨rank, lt, rfl⟩ := mem_mapIdx.mp mem
      exact (residual_eq fits lt).2
    obtain ⟨payload, wrote, spells⟩ := pack_spells out fits.narrow small
    refine ⟨payload, wrote, ?_⟩
    intro file place rest placed rank lt
    obtain ⟨distance, -⟩ := residual_eq fits lt
    have read := spells file place rest placed rank (by simpa using lt)
    rw [getElem_mapIdx] at read
    rw [line_eq rank lt, read, distance]
    omega

theorem Taken.planSingleFit_fits {deltas : PackedDeltaRuns}
    (taken : Taken values deltas) (ne : values ≠ []) (rising : values.Pairwise (· ≤ ·))
    (bound : values.getLastD 0 + values.length ≤ 2 ^ 57) :
    Fits deltas.planSingleFit values singleFitSlopeShift := by
  obtain ⟨plan, found, fits⟩ := evaluate_rising ne rising bound
  unfold planSingleFit
  dsimp only
  rw [taken.values_eq, taken.count, taken.first, taken.last, found]
  exact fits

theorem Taken.writeSingleFit_predicts {deltas : PackedDeltaRuns}
    (taken : Taken values deltas) (fits : Fits plan values singleFitSlopeShift) (out : Bytes) :
    ∃ payload, deltas.writeSingleFit out plan = out ++ payload ∧
      Predicts payload plan singleFitSlopeShift values := by
  unfold writeSingleFit
  rw [taken.values_eq]
  exact residuals_predict fits out

theorem planBlock_fits (ne : values ≠ [])
    (short : values.length ≤ blockSize) (small : ∀ value ∈ values, value < 2 ^ 57) :
    Fits (planBlock values) values blockSlopeShift := by
  have front : values.headD 0 < 2 ^ 57 := by
    cases values with
    | nil => decide
    | cons first => exact small first mem_cons_self
  have start : (Int64.ofInt (values.headD 0 : Int)).toInt = values.headD 0 :=
    Int64.toInt_ofInt_of_le (by omega) (by omega)
  have near : |(Int64.ofInt (values.headD 0 : Int)).toInt| ≤ 2 ^ 60 := by
    rw [start]
    exact abs_le.mpr ⟨by omega, by omega⟩
  obtain ⟨constant, found⟩ := evaluate_level _ blockSlopeShift ne near small
  have level : Fits constant values blockSlopeShift := by
    refine evaluate_fits (fun value mem => (small value mem).trans (by norm_num)) ?_ found
    intro rank _
    rwa [line_level]
  unfold planBlock
  rw [found, Option.getD_some]
  dsimp only
  split
  · exact level
  · next linear planned =>
    split_ifs
    · exact planLinearFit_fits small (short.trans (by decide)) planned
    · exact level

def Describes (payload : Bytes) (info : PredictedBlockInfo) (values : List Nat) : Prop :=
  ∀ file place rest, file.drop place = payload ++ rest → ∀ rank (inside : rank < values.length),
    (predict info.intercept info.scaledSlope rank blockSlopeShift).toInt +
      select64 file (place + info.payloadOffset.toNat) rank info.bits.toNat
        (mask info.bits.toNat) = values[rank]

theorem Describes.grow {payload : Bytes}
    (describes : Describes payload info values) (more : Bytes) :
    Describes (payload ++ more) info values := by
  intro file place rest wrote
  exact describes file place (more ++ rest) (by rw [wrote, append_assoc])

def blockOf (values : List Nat) (block : Nat) : List Nat :=
  (values.drop (block * blockSize)).take blockSize

theorem blockOf_append (more : List Nat) {block : Nat}
    (full : (block + 1) * blockSize ≤ values.length) :
    blockOf (values ++ more) block = blockOf values block := by
  rw [add_mul, one_mul] at full
  rw [blockOf, blockOf, drop_append_of_le_length (by omega),
    take_append_of_le_length (by rw [length_drop]; omega)]

def Described (values : List Nat) (deltas : PredictedDeltaBlocks) : Prop :=
  deltas.payload.length < 2 ^ 64 → ∀ block (inside : block < deltas.blocks.length),
    Describes deltas.payload deltas.blocks[block] (blockOf values block)

theorem flushBlock_eq (left : deltas.block ≠ []) (short : deltas.block.length ≤ blockSize)
    (small : ∀ value ∈ deltas.block, value < 2 ^ 57) :
    ∃ payload info, deltas.flushBlock.payload = deltas.payload ++ payload ∧
      deltas.flushBlock.blocks = deltas.blocks ++ [info] ∧ deltas.flushBlock.block = [] ∧
      (deltas.payload.length < 2 ^ 64 → Describes (deltas.payload ++ payload) info deltas.block) := by
  have fits := planBlock_fits left short small
  obtain ⟨payload, wrote, predicts⟩ := residuals_predict fits deltas.payload
  have bits : (UInt8.ofNat (planBlock deltas.block).bits).toNat = (planBlock deltas.block).bits := by
    have narrow := fits.narrow
    unfold maxPackedBits at narrow
    rw [UInt8.toNat_ofNat']
    omega
  unfold PredictedDeltaBlocks.flushBlock
  rw [if_neg left]
  refine ⟨payload, _, wrote, rfl, rfl, ?_⟩
  intro word file place rest placed
  have offset : (UInt64.ofNat deltas.payload.length).toNat = deltas.payload.length := by
    rw [UInt64.toNat_ofNat']
    exact mod_eq_of_lt word
  rw [bits, offset]
  rw [append_assoc] at placed
  exact predicts file _ rest (drop_past placed rfl)

theorem described_flush {done : List Nat} (described : Described done deltas)
    (full : done.length = deltas.blocks.length * blockSize) (left : deltas.block ≠ [])
    (short : deltas.block.length ≤ blockSize) (small : ∀ value ∈ deltas.block, value < 2 ^ 57) :
    Described (done ++ deltas.block) deltas.flushBlock ∧
      deltas.flushBlock.blocks.length = deltas.blocks.length + 1 ∧
      deltas.flushBlock.block = [] := by
  obtain ⟨payload, info, grown, extended, flushed, describes⟩ := flushBlock_eq left short small
  refine ⟨?_, by rw [extended, length_append, length_singleton], flushed⟩
  intro word block lt
  have before : deltas.payload.length < 2 ^ 64 := by
    rw [grown, length_append] at word
    omega
  simp only [extended, grown]
  rw [extended, length_append, length_singleton] at lt
  rcases Nat.lt_succ_iff_lt_or_eq.mp lt with early | rfl
  · have whole : (block + 1) * blockSize ≤ done.length := by
      rw [full]
      exact Nat.mul_le_mul_right _ early
    rw [getElem_append_left early, blockOf_append _ whole]
    exact (described before block early).grow payload
  · have here : blockOf (done ++ deltas.block) deltas.blocks.length = deltas.block := by
      rw [blockOf, ← full, drop_left, take_of_length_le short]
    rw [here, getElem_concat_length rfl]
    exact describes before

structure Collects (added : List Nat) (deltas : PredictedDeltaBlocks) : Prop where
  last : deltas.lastDelta = added.getLastD 0
  short : deltas.block.length < blockSize
  widest : deltas.maxResidualBits ≤ maxPackedBits
  split : ∃ done, added = done ++ deltas.block ∧
    done.length = deltas.blocks.length * blockSize ∧ Described done deltas

theorem collects_start : Collects [] PredictedDeltaBlocks.start where
  last := rfl
  widest := zero_le _
  short := by decide
  split := ⟨[], rfl, by simp [PredictedDeltaBlocks.start], by
    intro _ block lt
    simp [PredictedDeltaBlocks.start] at lt⟩

theorem flush_last (deltas : PredictedDeltaBlocks) :
    deltas.flushBlock.lastDelta = deltas.lastDelta := by
  unfold PredictedDeltaBlocks.flushBlock
  split_ifs <;> rfl

theorem flush_widest (widest : deltas.maxResidualBits ≤ maxPackedBits)
    (short : deltas.block.length ≤ blockSize) (small : ∀ value ∈ deltas.block, value < 2 ^ 57) :
    deltas.flushBlock.maxResidualBits ≤ maxPackedBits := by
  unfold PredictedDeltaBlocks.flushBlock
  split_ifs with empty
  · exact widest
  · exact max_le widest (planBlock_fits empty short small).narrow

theorem collects_add {added : List Nat} (collects : Collects added deltas) (small : value < 2 ^ 57)
    (smaller : ∀ other ∈ added, other < 2 ^ 57) :
    Collects (added ++ [value]) (deltas.add value) := by
  obtain ⟨last, short, widest, done, split, full, described⟩ := collects
  have narrow : ∀ other ∈ deltas.block ++ [value], other < 2 ^ 57 :=
    forall_mem_append.mpr ⟨fun other before => smaller other (split ▸ mem_append_right _ before),
      forall_mem_singleton.mpr small⟩
  unfold PredictedDeltaBlocks.add
  dsimp only
  split_ifs with filled
  · obtain ⟨grown, blocks, flushed⟩ := @described_flush { deltas with
        block := deltas.block ++ [value], lastDelta := value, count := deltas.count + 1 }
      done described full (by simp) filled.le narrow
    refine ⟨?_, by rw [flushed]; decide, flush_widest widest filled.le narrow,
      done ++ (deltas.block ++ [value]), ?_, ?_, grown⟩
    · rw [flush_last, getLastD_concat]
    · rw [split, flushed, append_assoc, append_nil]
    · rw [length_append, full, filled, blocks, add_mul, one_mul]
  · refine ⟨by rw [getLastD_concat], ?_, widest, done, by rw [split, append_assoc], full, described⟩
    simp only [length_append, length_singleton] at filled ⊢
    omega

theorem collects_adds {added values : List Nat} (collects : Collects added deltas)
    (small : ∀ value ∈ added ++ values, value < 2 ^ 57) :
    Collects (added ++ values) (values.foldl PredictedDeltaBlocks.add deltas) := by
  induction values generalizing added deltas with
  | nil => simpa using collects
  | cons value rest ih =>
    have step := collects_add collects (small value (by simp))
      fun other mem => small other (mem_append_left _ mem)
    have later := ih step (by simpa using small)
    simpa using later

structure Collected (values : List Nat) (deltas : PredictedDeltaBlocks) : Prop where
  last : deltas.lastDelta = values.getLastD 0
  widest : deltas.maxResidualBits ≤ maxPackedBits
  blocks : values.length ≤ deltas.blocks.length * blockSize
  described : Described values deltas

theorem predictedDeltas_collected (small : ∀ value ∈ values, value < 2 ^ 57) :
    Collected values (predictedDeltas values) := by
  have collects := collects_adds collects_start (by simpa using small)
  rw [nil_append] at collects
  obtain ⟨last, short, widest, done, split, full, described⟩ := collects
  unfold predictedDeltas PredictedDeltaBlocks.finish
  by_cases empty : (values.foldl PredictedDeltaBlocks.add PredictedDeltaBlocks.start).block = []
  · have flushed : (values.foldl PredictedDeltaBlocks.add PredictedDeltaBlocks.start).flushBlock =
        values.foldl PredictedDeltaBlocks.add PredictedDeltaBlocks.start := by
      rw [PredictedDeltaBlocks.flushBlock, if_pos empty]
    rw [empty, append_nil] at split
    rw [flushed]
    exact ⟨last, widest, ((congrArg length split).trans full).le, split ▸ described⟩
  · have left : ∀ value ∈
        (values.foldl PredictedDeltaBlocks.add PredictedDeltaBlocks.start).block, value < 2 ^ 57 :=
      fun value mem => small value (split ▸ mem_append_right _ mem)
    obtain ⟨grown, blocks, -⟩ := described_flush described full empty short.le left
    rw [← split] at grown
    refine ⟨by rw [flush_last, last], flush_widest widest short.le left, ?_, grown⟩
    have count := congrArg length split
    rw [length_append, full] at count
    rw [blocks, add_mul, one_mul]
    omega

theorem length_toBytes (info : PredictedBlockInfo) :
    info.toBytes.length = PredictedBlockInfo.size := by
  simp [PredictedBlockInfo.toBytes, PredictedBlockInfo.size]

theorem ofBytes_toBytes {file rest : Bytes} {offset : Nat}
    (wrote : file.drop offset = info.toBytes ++ rest) :
    PredictedBlockInfo.ofBytes file offset = info := by
  simp only [PredictedBlockInfo.toBytes, append_assoc] at wrote
  have second := drop_past wrote rfl
  have third := drop_past second rfl
  have fourth := drop_past third rfl
  simp only [length_spell, add_assoc] at second third fourth
  have bits : UInt8.ofNat (load 1 file (offset + (8 + (8 + 8)))) = info.bits := by
    have bound := info.bits.toNat_lt
    rw [load_spell fourth, pow_256, mod_eq_of_lt bound, UInt8.ofNat_toNat]
  unfold PredictedBlockInfo.ofBytes
  rw [Codec.NumColumnFormat.ofNat_load_spell wrote, Codec.NumColumnFormat.ofNat_load_spell second,
    Codec.NumColumnFormat.ofNat_load_spell third, bits, Int64.toInt64_toUInt64,
    Int64.toInt64_toUInt64]

structure Finds (file : Bytes) (mapping : SegToGlobal) (values : List Nat) : Prop where
  count : mapping.numOrds = values.length
  found : ∀ ord (inside : ord < values.length), mapping.deltaAt file ord = values[ord]

variable {file payload rest : Bytes} {mapping : SegToGlobal}

theorem finds_identity (file : Bytes) (zero : ∀ value ∈ values, value = 0) :
    Finds file (SegToGlobal.identity values.length) values := by
  refine ⟨rfl, fun ord lt => ?_⟩
  rw [zero _ (getElem_mem lt)]
  rfl

theorem finds_flat (spells : Spells payload mapping.bits values)
    (wrote : file.drop mapping.deltas = payload ++ rest)
    (count : mapping.numOrds = values.length) (wide : mapping.bits ≠ 0)
    (masked : mapping.mask = mask mapping.bits) (flat : mapping.encoding = .flat) :
    Finds file mapping values := by
  refine ⟨count, fun ord lt => ?_⟩
  rw [SegToGlobal.deltaAt, if_neg wide, flat]
  dsimp only [SegToGlobal.flatDeltaAt]
  rw [masked, spells file _ rest wrote ord lt]

theorem finds_singleFit (predicts : Predicts payload plan singleFitSlopeShift values)
    (wrote : file.drop mapping.deltas = payload ++ rest) (count : mapping.numOrds = values.length)
    (wide : mapping.bits ≠ 0)
    (line : mapping.intercept = plan.intercept ∧ mapping.scaledSlope = plan.scaledSlope)
    (width : mapping.residualBits = plan.bits) (masked : mapping.mask = mask plan.bits)
    (fit : mapping.encoding = .singleFit) : Finds file mapping values := by
  refine ⟨count, fun ord lt => ?_⟩
  rw [SegToGlobal.deltaAt, if_neg wide, fit]
  dsimp only [SegToGlobal.singleFitDeltaAt]
  rw [line.1, line.2, width, masked, predicts file _ rest wrote ord lt]

theorem finds_predicted (collected : Collected values deltas)
    (word : deltas.payload.length < 2 ^ 64) (wrote : file.drop mapping.deltas = deltas.payload ++
      (deltas.blocks.flatMap PredictedBlockInfo.toBytes ++ rest))
    (descriptors : mapping.blockMeta = mapping.deltas + deltas.payload.length)
    (count : mapping.numOrds = values.length) (wide : mapping.bits ≠ 0)
    (predicted : mapping.encoding = .predicted) : Finds file mapping values := by
  refine ⟨count, fun ord lt => ?_⟩
  have pos : 0 < blockSize := by decide
  have split : ord / blockSize * blockSize + ord % blockSize = ord := div_add_mod' _ _
  have block : ord / blockSize < deltas.blocks.length :=
    (div_lt_iff_lt_mul pos).mpr (lt.trans_le collected.blocks)
  have begun : (file.drop mapping.blockMeta) =
      deltas.blocks.flatMap PredictedBlockInfo.toBytes ++ rest :=
    drop_past wrote descriptors.symm
  have info : mapping.blockInfo file (ord / blockSize) = deltas.blocks[ord / blockSize] :=
    ofBytes_toBytes (drop_records length_toBytes begun block)
  rw [SegToGlobal.deltaAt, if_neg wide, predicted]
  dsimp only [SegToGlobal.predictedDeltaAt]
  have short := mod_lt ord pos
  have rank : ord % blockSize < (blockOf values (ord / blockSize)).length := by
    rw [blockOf, length_take, length_drop]
    omega
  rw [info, collected.described word _ block file _ _ wrote _ rank]
  simp only [blockOf, getElem_take, getElem_drop, split]

end Luxir.Search.OrdDeltaReads
