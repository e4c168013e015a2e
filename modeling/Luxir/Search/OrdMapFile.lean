import Luxir.Search.OrdDeltaReads
import Luxir.Search.OrdMapMerge
import Luxir.Util.Encoding

/-!
The bytes of an ordinal map: the deltas of the segments, two columns that lead from a global ordinal
back to a segment, and the metadata that a reader starts from. A segment with all terms, or with
none, needs no deltas.
-/

namespace Luxir.Search.OrdMapFile
open Lib.Bytes Lib.Words Codec.NumColumn Codec.ColumnRoundTrip Util.Encoding OrdDeltas
open OrdMapMerge SegToGlobal Util.Heap

section

def deltaBits (encoding : DeltaEncoding) (values : List Nat) : Nat :=
  match encoding with
  | .predicted => (predictedDeltas values).bits
  | .flat | .singleFit => (packedDeltas values).bits

/-- What a reader needs to find the deltas, and the payload with the deltas. -/
def writeDeltas (encoding : DeltaEncoding) (values : List Nat) (payload : Bytes) : Bytes × Bytes :=
  match encoding with
  | .flat => (writeVLong payload.length, (packedDeltas values).writeFinal payload)
  | .predicted =>
      let written := (predictedDeltas values).writeFinal payload
      (writeVLong payload.length ++ writeVLong written.2 ++
        writeVInt (predictedDeltas values).maxResidualBits, written.1)
  | .singleFit =>
      let fit := (packedDeltas values).planSingleFit
      (spell 8 fit.intercept.toUInt64.toNat ++ spell 8 fit.scaledSlope.toUInt64.toNat ++
        writeVInt fit.bits ++ (if fit.bits = 0 then [] else writeVLong payload.length),
        (packedDeltas values).writeSingleFit payload fit)

structure SegmentDeltas where
  numTerms : Nat
  values : List Nat
  deriving DecidableEq, Repr

def SegmentDeltas.writesDeltas (segment : SegmentDeltas) (numOrds : Nat) : Bool :=
  segment.numTerms ≠ 0 ∧ segment.numTerms < numOrds

def writeSegment (encoding : DeltaEncoding) (numOrds : Nat) (segment : SegmentDeltas)
    (payload : Bytes) : Bytes × Bytes :=
  if segment.writesDeltas numOrds then
    let bits := deltaBits encoding segment.values
    if bits = 0 then (writeVLong segment.numTerms ++ writeVInt bits, payload)
    else
      let written := writeDeltas encoding segment.values payload
      (writeVLong segment.numTerms ++ writeVInt bits ++ writeVInt encoding.code ++ written.1,
        written.2)
  else (writeVLong segment.numTerms, payload)

/-- The metadata of the segments in order, and the payload of all. -/
def writeSegments (encoding : DeltaEncoding) (numOrds : Nat) :
    List SegmentDeltas → Bytes → Bytes × Bytes
  | [], payload => ([], payload)
  | segment :: rest, payload =>
      let first := writeSegment encoding numOrds segment payload
      let later := writeSegments encoding numOrds rest first.2
      (first.1 ++ later.1, later.2)

/-- A global column in a file of its own, padded so that the next column starts aligned. -/
def writeColumn (values : List Nat) (trailer : Bytes) : Bytes × FinishData :=
  let finished := ((values.map fun value : Nat => Int64.ofInt (value : Int)).foldl
    NumColumnWriter.addInt64 (NumColumnWriter.start [] true)).finish trailer
  (align finished.1 maxAlign, finished.2)

def columnMeta (data : FinishData) (place : Nat) : Bytes :=
  writeVLong data.numValues ++ writeVLong (data.columnLoc + place) ++ writeVLong data.columnMetaOff

variable {α : Type}

/-- The two global columns from a place on, if some segment lacks terms, and their metadata. The
trailers are what the columns have behind their descriptors. -/
def writeColumns (merged : State α) (needed : Bool) (trailers : Bytes × Bytes)
    (place : Nat) : Bytes × Bytes :=
  if needed then
    let firstSegs := writeColumn merged.firstSegs trailers.1
    let globDeltas := writeColumn merged.globDeltas trailers.2
    (firstSegs.1 ++ globDeltas.1,
      columnMeta firstSegs.2 place ++ columnMeta globDeltas.2 (place + firstSegs.1.length))
  else ([], writeVLong 0 ++ writeVLong 0)

variable [LinearOrder α] [StdHeap (termCmp (α := α))]

def segmentDeltas (segments : List (List α)) : List SegmentDeltas :=
  segments.mapIdx fun idx terms => ⟨terms.length, (merge segments).added idx⟩

def needGlobalDeltas (segments : List (List α)) : Bool :=
  (segmentDeltas segments).any fun segment => segment.writesDeltas (merge segments).globalOrd

def writeMap (encoding : DeltaEncoding) (segments : List (List α))
    (trailers : Bytes × Bytes) : Bytes × Bytes :=
  let merged := merge segments
  let written := writeSegments encoding merged.globalOrd (segmentDeltas segments) []
  let payload := align written.2 8
  let columns := writeColumns merged (needGlobalDeltas segments) trailers payload.length
  (payload ++ columns.1,
    writeVLong merged.globalOrd ++ writeVLong segments.length ++ written.1 ++ columns.2)

def build (encoding : DeltaEncoding) (segments : List (List α))
    (trailers : Bytes × Bytes) : Bytes :=
  let written := writeMap encoding segments trailers
  written.1 ++ written.2 ++ spell 4 written.2.length

end

/-- `firstFull` is the first segment that has all ordinals. -/
structure OrdMap where
  data : Bytes
  nOrds : Nat
  firstFull : Option Nat
  segToGlobal : List SegToGlobal
  firstSegs : Option NumColumnT
  globDeltas : Option NumColumnT
  deriving DecidableEq, Repr

def readLong (stream : Bytes) : Option (Int64 × Bytes) :=
  if stream.length < 8 then none
  else some ((UInt64.ofNat (load 8 stream 0)).toInt64, stream.drop 8)

/-- Where a segment's deltas are, for the width of the largest. Widths and encodings are bytes. -/
def readDeltas (numOrds bits : Nat) (stream : Bytes) : Option (SegToGlobal × Bytes) := do
  let (encoding, stream) ← readVInt stream
  let encoding := encoding % 2 ^ 8
  if encoding = DeltaEncoding.flat.code then
    let (loc, stream) ← readVLong stream
    some ({ identity numOrds with
      deltas := loc
      mask := Codec.LinearPack.mask bits
      bits := bits
      residualBits := bits
      encoding := .flat }, stream)
  else if encoding = DeltaEncoding.predicted.code then
    let (loc, stream) ← readVLong stream
    let (blockMetaLoc, stream) ← readVLong stream
    let (residualBits, stream) ← readVInt stream
    some ({ identity numOrds with
      deltas := loc
      blockMeta := blockMetaLoc
      bits := bits
      residualBits := residualBits % 2 ^ 8
      encoding := .predicted }, stream)
  else
    let (intercept, stream) ← readLong stream
    let (scaledSlope, stream) ← readLong stream
    let (residualBits, stream) ← readVInt stream
    let residualBits := residualBits % 2 ^ 8
    let mapping := { identity numOrds with
      intercept := intercept
      scaledSlope := scaledSlope
      mask := Codec.LinearPack.mask residualBits
      bits := bits
      residualBits := residualBits
      encoding := .singleFit }
    if residualBits ≠ 0 then
      let (loc, stream) ← readVLong stream
      some ({ mapping with deltas := loc }, stream)
    else some (mapping, stream)

def readSegment (nOrds : Nat) (stream : Bytes) : Option (SegToGlobal × Bytes) := do
  let (nValues, stream) ← readVLong stream
  if nValues > 0 ∧ nValues ≠ nOrds then
    let (bits, stream) ← readVInt stream
    let bits := bits % 2 ^ 8
    if bits = 0 then some (identity nValues, stream)
    else readDeltas nValues bits stream
  else some (identity nValues, stream)

def readSegments (nOrds : Nat) : Nat → Bytes → Option (List SegToGlobal × Bytes)
  | 0, stream => some ([], stream)
  | nSegs + 1, stream => do
      let (mapping, stream) ← readSegment nOrds stream
      let (mappings, stream) ← readSegments nOrds nSegs stream
      some (mapping :: mappings, stream)

/-- The global columns are only read if no segment has all terms. -/
def readColumn (data : Bytes) (firstFull : Option Nat) (stream : Bytes) :
    Option (Option NumColumnT × Bytes) := do
  let (nValues, stream) ← readVLong stream
  if nValues > 0 ∧ firstFull = none then
    let (loc, stream) ← readVLong stream
    let (metaOff, stream) ← readVLong stream
    some (some ⟨true, data, loc, loc + metaOff, nValues⟩, stream)
  else some (none, stream)

/-- The metadata starts a size before the end; the size is a signed word of four bytes. -/
def openMap (data : Bytes) : Option OrdMap := do
  let metaSize := signed 32 (load 4 data (data.length - 4))
  let stream := data.drop ((data.length : Int) - 4 - metaSize).toNat
  let (nOrds, stream) ← readVLong stream
  let (nSegs, stream) ← readVLong stream
  let (segToGlobal, stream) ← readSegments nOrds nSegs stream
  let firstFull := segToGlobal.findIdx? fun mapping => mapping.numOrds = nOrds
  let (firstSegs, stream) ← readColumn data firstFull stream
  let (globDeltas, _) ← readColumn data firstFull stream
  some ⟨data, nOrds, firstFull, segToGlobal, firstSegs, globDeltas⟩

/-- A map without segment mappings has one segment with terms. -/
def OrdMap.getSegToGlobal (map : OrdMap) (seg : Nat) : SegToGlobal :=
  if map.segToGlobal = [] then
    if map.firstFull = some seg then identity map.nOrds else identity 0
  else map.segToGlobal.getD seg (identity 0)

/-- The map of a field: none without terms, and no bytes if only one segment has terms. -/
def buildMap {α : Type} [LinearOrder α] [StdHeap (termCmp (α := α))] (encoding : DeltaEncoding)
    (segments : List (List α)) (trailers : Bytes × Bytes) : Option OrdMap :=
  match startQueue segments with
  | [] => none
  | [single] => some ⟨[], single.numTerms, some single.idx, [], none, none⟩
  | _ :: _ :: _ => openMap (build encoding segments trailers)

end Luxir.Search.OrdMapFile
