import Luxir.Codec.ColumnRoundTrip

/-!
How an ordinal map stores the deltas of a segment: packed at one width, as residuals over a line for
each block of 4096, or as residuals over one line for the whole segment. Deltas do not decrease, so
while they come in they are packed in runs of growing width. The readers find one delta, a frame of
deltas, or the deltas of stored ordinals.
-/

namespace Luxir.Search.OrdDeltas
open Lib.Bytes Lib.Words Codec.LinearFit Codec.LinearPack

inductive DeltaEncoding where
  | flat | predicted | singleFit
  deriving DecidableEq, Repr

def DeltaEncoding.code : DeltaEncoding → Nat
  | .flat => 1
  | .predicted => 2
  | .singleFit => 3

def blockSize : Nat := 4096
def bulkSize : Nat := 128
def blockSlopeShift : Nat := 14
def singleFitSlopeShift : Nat := 31

structure PredictedBlockInfo where
  payloadOffset : UInt64
  intercept : Int64
  scaledSlope : Int64
  bits : UInt8
  deriving DecidableEq, Repr

namespace PredictedBlockInfo

def size : Nat := 32

def toBytes (info : PredictedBlockInfo) : Bytes :=
  spell 8 info.payloadOffset.toNat ++ spell 8 info.intercept.toUInt64.toNat ++
    spell 8 info.scaledSlope.toUInt64.toNat ++ spell 1 info.bits.toNat ++ List.replicate 7 0

def ofBytes (file : Bytes) (offset : Nat) : PredictedBlockInfo where
  payloadOffset := UInt64.ofNat (load 8 file offset)
  intercept := (UInt64.ofNat (load 8 file (offset + 8))).toInt64
  scaledSlope := (UInt64.ofNat (load 8 file (offset + 16))).toInt64
  bits := UInt8.ofNat (load 1 file (offset + 24))

end PredictedBlockInfo

/-- A line for a block: level through the first value, unless a slope saves bits. The level fit is
asserted to exist. -/
def planBlock (values : List Nat) : Plan :=
  let constant :=
    (evaluate values (Int64.ofInt (values.headD 0 : Int)) 0 blockSlopeShift).getD ⟨0, 0, 0⟩
  match planLinearFit values blockSlopeShift with
  | none => constant
  | some linear => if linear.bits < constant.bits then linear else constant

def unpack64 (file : Bytes) (base idx count bits mask : Nat) : List Nat :=
  (List.range count).map fun i => select64 file base (idx + i) bits mask

structure Run where
  startIndex : Nat
  width : Nat
  byteOffset : Nat
  deriving DecidableEq, Repr

/-- An open writer has the packed bytes. -/
structure PackedDeltaRuns where
  packed : Bytes
  runs : List Run
  writer : Option Writer
  count : Nat
  firstDelta : Nat
  lastDelta : Nat
  deriving DecidableEq, Repr

namespace PackedDeltaRuns

def start : PackedDeltaRuns := ⟨[], [], none, 0, 0, 0⟩

def startRun (deltas : PackedDeltaRuns) (width : Nat) : PackedDeltaRuns :=
  let packed := match deltas.writer with
    | some writer => writer.finish true
    | none => deltas.packed
  { deltas with
    packed := packed
    runs := deltas.runs ++ [⟨deltas.count, width, packed.length⟩]
    writer := some (Writer.start packed width) }

def needsRun (deltas : PackedDeltaRuns) (width : Nat) : Bool :=
  match deltas.writer, deltas.runs.getLast? with
  | some _, some run => run.width < width
  | _, _ => true

def add (deltas : PackedDeltaRuns) (value : Nat) : PackedDeltaRuns :=
  let width := bitWidth value
  let deltas := if deltas.needsRun width then deltas.startRun width else deltas
  { deltas with
    writer := deltas.writer.map fun writer => writer.append value
    firstDelta := if deltas.count = 0 then value else deltas.firstDelta
    lastDelta := value
    count := deltas.count + 1 }

def finish (deltas : PackedDeltaRuns) : PackedDeltaRuns :=
  match deltas.writer with
  | some writer => { deltas with packed := writer.finish true, writer := none }
  | none => deltas

def bits (deltas : PackedDeltaRuns) : Nat :=
  match deltas.runs.getLast? with
  | some run => run.width
  | none => 0

/-- The values of a run that ends before `endIndex`, 128 at a time. -/
def runValues (packed : Bytes) (run : Run) (endIndex : Nat) : List Nat :=
  let runCount := endIndex - run.startIndex
  (List.range ((runCount + 127) / 128)).flatMap fun chunk =>
    unpack64 packed run.byteOffset (chunk * 128) (min 128 (runCount - chunk * 128)) run.width
      (mask run.width)

def valuesOf (packed : Bytes) : List Run → Nat → List Nat
  | [], _ => []
  | [run], count => runValues packed run count
  | run :: next :: rest, count =>
      runValues packed run next.startIndex ++ valuesOf packed (next :: rest) count

def values (deltas : PackedDeltaRuns) : List Nat := valuesOf deltas.packed deltas.runs deltas.count

/-- The plan is asserted to exist. -/
def planSingleFit (deltas : PackedDeltaRuns) : Plan :=
  let slope := endpointSlope deltas.firstDelta deltas.lastDelta deltas.count singleFitSlopeShift
  (evaluate deltas.values (Int64.ofInt (deltas.firstDelta : Int)) (slope.getD 0)
    singleFitSlopeShift).getD ⟨0, 0, 0⟩

/-- The deltas at their final width; a single run has it already. -/
def writeFinal (deltas : PackedDeltaRuns) (out : Bytes) : Bytes :=
  if deltas.runs.length = 1 then out ++ deltas.packed
  else (deltas.values.foldl Writer.append (Writer.start out deltas.bits)).finish true

def writeSingleFit (deltas : PackedDeltaRuns) (out : Bytes) (plan : Plan) : Bytes :=
  if plan.bits = 0 then out
  else
    let residuals := deltas.values.mapIdx fun index value =>
      (residual plan index value singleFitSlopeShift).toNat
    (residuals.foldl Writer.append (Writer.start out plan.bits)).finish true

end PackedDeltaRuns

def packedDeltas (values : List Nat) : PackedDeltaRuns :=
  (values.foldl PackedDeltaRuns.add PackedDeltaRuns.start).finish

structure PredictedDeltaBlocks where
  block : List Nat
  payload : Bytes
  blocks : List PredictedBlockInfo
  count : Nat
  lastDelta : Nat
  maxResidualBits : Nat
  deriving DecidableEq, Repr

namespace PredictedDeltaBlocks

def start : PredictedDeltaBlocks := ⟨[], [], [], 0, 0, 0⟩

def flushBlock (deltas : PredictedDeltaBlocks) : PredictedDeltaBlocks :=
  if deltas.block = [] then deltas
  else
    let plan := planBlock deltas.block
    let residuals := deltas.block.mapIdx fun index value =>
      (residual plan index value blockSlopeShift).toNat
    { deltas with
      maxResidualBits := max deltas.maxResidualBits plan.bits
      payload := if plan.bits = 0 then deltas.payload
        else (residuals.foldl Writer.append (Writer.start deltas.payload plan.bits)).finish true
      blocks := deltas.blocks ++ [⟨UInt64.ofNat deltas.payload.length, plan.intercept,
        plan.scaledSlope, UInt8.ofNat plan.bits⟩]
      block := [] }

def add (deltas : PredictedDeltaBlocks) (value : Nat) : PredictedDeltaBlocks :=
  let deltas := { deltas with
    block := deltas.block ++ [value]
    lastDelta := value
    count := deltas.count + 1 }
  if deltas.block.length = blockSize then deltas.flushBlock else deltas

def finish (deltas : PredictedDeltaBlocks) : PredictedDeltaBlocks := deltas.flushBlock

def bits (deltas : PredictedDeltaBlocks) : Nat := bitWidth deltas.lastDelta

/-- The payload, then the descriptors of its blocks, with the place of these. -/
def writeFinal (deltas : PredictedDeltaBlocks) (out : Bytes) : Bytes × Nat :=
  let out := out ++ deltas.payload
  (out ++ deltas.blocks.flatMap PredictedBlockInfo.toBytes, out.length)

end PredictedDeltaBlocks

def predictedDeltas (values : List Nat) : PredictedDeltaBlocks :=
  (values.foldl PredictedDeltaBlocks.add PredictedDeltaBlocks.start).finish

/-- Places in the map's bytes stand for pointers. -/
structure SegToGlobal where
  numOrds : Nat
  deltas : Nat
  blockMeta : Nat
  intercept : Int64
  scaledSlope : Int64
  mask : Nat
  bits : Nat
  residualBits : Nat
  encoding : DeltaEncoding
  deriving DecidableEq, Repr

namespace SegToGlobal

def identity (numOrds : Nat) : SegToGlobal := ⟨numOrds, 0, 0, 0, 0, 0, 0, 0, .flat⟩

variable (file : Bytes) (mapping : SegToGlobal)

def flatDeltaAt (segmentOrd : Nat) : Int :=
  select64 file mapping.deltas segmentOrd mapping.bits mapping.mask

def singleFitDeltaAt (segmentOrd : Nat) : Int :=
  (predict mapping.intercept mapping.scaledSlope segmentOrd singleFitSlopeShift).toInt +
    select64 file mapping.deltas segmentOrd mapping.residualBits mapping.mask

def blockInfo (block : Nat) : PredictedBlockInfo :=
  PredictedBlockInfo.ofBytes file (mapping.blockMeta + block * PredictedBlockInfo.size)

def predictedDeltaAt (segmentOrd : Nat) : Int :=
  let rankInBlock := segmentOrd % blockSize
  let info := mapping.blockInfo file (segmentOrd / blockSize)
  let residual := select64 file (mapping.deltas + info.payloadOffset.toNat) rankInBlock
    info.bits.toNat (Codec.LinearPack.mask info.bits.toNat)
  (predict info.intercept info.scaledSlope rankInBlock blockSlopeShift).toInt + residual

def deltaAt (segmentOrd : Nat) : Int :=
  if mapping.bits = 0 then 0
  else match mapping.encoding with
    | .flat => mapping.flatDeltaAt file segmentOrd
    | .singleFit => mapping.singleFitDeltaAt file segmentOrd
    | .predicted => mapping.predictedDeltaAt file segmentOrd

def globalOrd (segmentOrd : Nat) : Int := segmentOrd + mapping.deltaAt file segmentOrd

/-- Stored ordinals count from one. -/
def globalOrdsOfStored (stored : List Nat) : List Int :=
  let rebase := fun delta : Nat → Int =>
    stored.map fun ord => ((ord - 1 : Nat) : Int) + delta (ord - 1)
  if mapping.bits = 0 then rebase fun _ => 0
  else match mapping.encoding with
    | .flat => rebase fun segmentOrd =>
        select64 file mapping.deltas segmentOrd mapping.bits mapping.mask
    | .singleFit => rebase fun segmentOrd => mapping.singleFitDeltaAt file segmentOrd
    | .predicted => rebase fun segmentOrd => mapping.predictedDeltaAt file segmentOrd

/-- Up to 128 deltas of one block. -/
def unpackDeltas (start count : Nat) : List Int :=
  if mapping.bits = 0 then List.replicate count 0
  else match mapping.encoding with
    | .flat =>
        (unpack64 file mapping.deltas start count mapping.bits mapping.mask).map fun delta : Nat =>
          (delta : Int)
    | .singleFit =>
        (unpack64 file mapping.deltas start count mapping.residualBits mapping.mask).mapIdx
          fun (i residual : Nat) =>
            (predict mapping.intercept mapping.scaledSlope (start + i) singleFitSlopeShift).toInt +
              residual
    | .predicted =>
        let rankInBlock := start % blockSize
        let info := mapping.blockInfo file (start / blockSize)
        (unpack64 file (mapping.deltas + info.payloadOffset.toNat) rankInBlock count
          info.bits.toNat (Codec.LinearPack.mask info.bits.toNat)).mapIdx fun (i residual : Nat) =>
            (predict info.intercept info.scaledSlope (rankInBlock + i) blockSlopeShift).toInt +
              residual

structure BulkGlobalOrds where
  decodedStart : Int
  decodedEnd : Int
  decoded : List Int
  deriving DecidableEq, Repr

def BulkGlobalOrds.start : BulkGlobalOrds := ⟨-1, -1, []⟩

def BulkGlobalOrds.globalOrd (bulk : BulkGlobalOrds) (segmentOrd : Nat) : Int × BulkGlobalOrds :=
  if mapping.bits = 0 then (segmentOrd, bulk)
  else
    let bulk :=
      if (segmentOrd : Int) < bulk.decodedStart ∨ (segmentOrd : Int) ≥ bulk.decodedEnd then
        let decodedStart := segmentOrd / bulkSize * bulkSize
        let decodedEnd := min (decodedStart + bulkSize) mapping.numOrds
        ⟨decodedStart, decodedEnd, mapping.unpackDeltas file decodedStart (decodedEnd - decodedStart)⟩
      else bulk
    (segmentOrd + bulk.decoded.getD ((segmentOrd : Int) - bulk.decodedStart).toNat 0, bulk)

end SegToGlobal

end Luxir.Search.OrdDeltas
