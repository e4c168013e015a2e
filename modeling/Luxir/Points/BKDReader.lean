import Luxir.Points.BKDWriter
import Luxir.Points.PointsReader

/-!
The reader of an index of points in the plane. A query descends into the cells that it crosses; what
lies in a cell follows from the splits above it, and how many leaves from the number of all leaves.
-/

namespace Luxir.Points.BKDReader
open Lib.Bytes Lib.Words BKDWriter
open PointsWriter (NumericCodec magic version leafHeaderSize docContig docBitset)
open PointsReader (Emitted DocBlock decodeDocBlock emitWord invalidIn)

inductive CellRelation where
  | outside
  | inside
  | crosses
deriving DecidableEq, Repr

structure Cell where
  latMin : Int
  latMax : Int
  lonMin : Int
  lonMax : Int
deriving DecidableEq, Repr

structure Relation where
  compare : Cell → CellRelation
  matchesAt : Int → Int → Bool

structure LongitudeRelation where
  inside : Bool
  outside : Bool

def compareLongitudeInterval (intervalMin intervalMax cellMin cellMax : Int) : LongitudeRelation :=
  if intervalMin ≤ intervalMax then
    ⟨intervalMin ≤ cellMin ∧ cellMax ≤ intervalMax, cellMax < intervalMin ∨ intervalMax < cellMin⟩
  else
    let insideUpper := intervalMin ≤ cellMin
    let insideLower := cellMax ≤ intervalMax
    let disjointUpper := cellMax < intervalMin
    let disjointLower := intervalMax < cellMin
    ⟨insideUpper ∨ insideLower, disjointUpper ∧ disjointLower⟩

def longitudeInRange (longitude minLongitude maxLongitude : Int) : Bool :=
  if minLongitude ≤ maxLongitude then minLongitude ≤ longitude ∧ longitude ≤ maxLongitude
  else longitude ≥ minLongitude ∨ longitude ≤ maxLongitude

/-- A box with its bounds in it. Longitudes that are reversed go around. -/
structure BoxRelation where
  latMin : Int
  latMax : Int
  lonMin : Int
  lonMax : Int
  ordered : latMin ≤ latMax

def BoxRelation.make (latMin latMax lonMin lonMax : Int) : Except String BoxRelation :=
  if reversed : latMax < latMin then
    .error "BKDBoxRelation: latitude bounds are reversed"
  else .ok ⟨latMin, latMax, lonMin, lonMax, not_lt.mp reversed⟩

def BoxRelation.compare (box : BoxRelation) (cell : Cell) : CellRelation :=
  if cell.latMax < box.latMin ∨ box.latMax < cell.latMin then .outside
  else
    let latInside := box.latMin ≤ cell.latMin ∧ cell.latMax ≤ box.latMax
    let lon := compareLongitudeInterval box.lonMin box.lonMax cell.lonMin cell.lonMax
    if lon.outside then .outside
    else if latInside ∧ lon.inside then .inside else .crosses

def BoxRelation.matchesAt (box : BoxRelation) (lat lon : Int) : Bool :=
  box.latMin ≤ lat ∧ lat ≤ box.latMax ∧ longitudeInRange lon box.lonMin box.lonMax

def BoxRelation.relation (box : BoxRelation) : Relation := ⟨box.compare, box.matchesAt⟩

structure Reader where
  file : Bytes
  points : Nat
  metaOffset : Nat
  pointsCount : Nat
  leavesCount : Nat
  leafSizeMax : Nat
  innerNodeData : Nat
  minLatData : Nat
  maxLatData : Nat
  minLonData : Nat
  maxLonData : Nat
  leafPointerData : Nat
deriving DecidableEq, Repr

def invalid {α : Type} (reason : String) : Except String α := invalidIn "BKDReader" reason

structure LeafInfo where
  count : Nat
  docCodec : Nat
  docBits : Nat
  latBits : Nat
  lonBits : Nat
  docBase : Nat
  docBytes : Nat
  latMin : Int
  lonMin : Int
  latBytes : Nat
  lonBytes : Nat
deriving DecidableEq, Repr

namespace Reader

def init (file : Bytes) (pointsOff : Nat) (pointsMetaOff : Int) : Except String Reader :=
  if pointsMetaOff ≤ 0 then invalid "points index is absent"
  else if pointsOff > file.length then invalid "points location is out of bounds"
  else if pointsMetaOff.toNat > file.length - pointsOff then invalid "metadata is out of bounds"
  else
    let place := pointsOff + pointsMetaOff.toNat
    if file.length - place < fixedHeaderSize then invalid "truncated metadata header"
    else if load 4 file place ≠ magic then invalid "bad magic"
    else if load 2 file (place + 4) ≠ version then invalid "unsupported version"
    else if load 1 file (place + 6) ≠ formatKind then invalid "unsupported format kind"
    else if load 1 file (place + 7) ≠ 0x11 then invalid "bad metadata reserved byte"
    else if load 4 file (place + 8) ≠ flags then invalid "unsupported metadata flags"
    else
      let leavesCount := load 4 file (place + 12)
      let leafSizeMax := load 2 file (place + 16)
      let pointsCount := load 8 file (place + 24)
      if leafSizeMax = 0 then invalid "maxPointsPerLeaf must be positive"
      else if load 1 file (place + 18) ≠ bytesPerDim ∨ load 1 file (place + 19) ≠ numIndexDims ∨
          load 1 file (place + 20) ≠ numDataDims then
        invalid "unsupported dimensions"
      else if load 3 file (place + 21) ≠ 0x111111 then invalid "bad metadata padding"
      else if leavesCount = 0 then invalid "leafCount must be positive"
      else if pointsCount = 0 then invalid "pointCount must be positive"
      else if leafCount leafSizeMax pointsCount ≠ leavesCount then
        invalid "leafCount does not match pointCount"
      else
        let directory := (place + fixedHeaderSize + 7) / 8 * 8
        let innerBytes := (leavesCount - 1) * 8
        let directoryBytes := innerBytes + leavesCount * 4 * 4 + (leavesCount + 1) * 8
        if directory > file.length ∨ directoryBytes > file.length - directory then
          invalid "truncated metadata arrays"
        else
          let bounds := directory + innerBytes
          let leafPointerData := bounds + leavesCount * 4 * 4
          if load 8 file leafPointerData ≠ 0 then invalid "first leaf pointer must be zero"
          else if load 8 file (leafPointerData + leavesCount * 8) ≠ pointsMetaOff.toNat then
            invalid "final leaf pointer does not equal pointsMetaOff"
          else .ok ⟨file, pointsOff, pointsMetaOff.toNat, pointsCount, leavesCount, leafSizeMax,
            directory, bounds, bounds + leavesCount * 4, bounds + leavesCount * 4 * 2,
            bounds + leavesCount * 4 * 3, leafPointerData⟩

variable (reader : Reader)

def leafRangePoints (firstLeaf leaves : Nat) : Except String Nat :=
  if firstLeaf + leaves > reader.leavesCount then .error "BKDReader: leaf range"
  else
    .ok (min reader.pointsCount ((firstLeaf + leaves) * reader.leafSizeMax) -
      firstLeaf * reader.leafSizeMax)

def innerNode (nodeId : Nat) : Except String InnerNode :=
  if nodeId = 0 ∨ nodeId ≥ reader.leavesCount then .error "BKDReader: inner node id"
  else
    let place := reader.innerNodeData + (nodeId - 1) * 8
    if load 1 reader.file (place + 4) > 1 then invalid "invalid split dimension"
    else if load 1 reader.file (place + 5) ≠ 0x11 ∨ load 2 reader.file (place + 6) ≠ 0x1111 then
      invalid "bad inner node reserved bytes"
    else .ok ⟨signed 32 (load 4 reader.file place), load 1 reader.file (place + 4)⟩

def leafBounds (leafIndex : Nat) : Except String Cell :=
  if leafIndex ≥ reader.leavesCount then .error "BKDReader: leaf index"
  else
    let bound (data : Nat) := signed 32 (load 4 reader.file (data + leafIndex * 4))
    .ok ⟨bound reader.minLatData, bound reader.maxLatData, bound reader.minLonData,
      bound reader.maxLonData⟩

def leafFP (leafIndex : Nat) : Nat := load 8 reader.file (reader.leafPointerData + leafIndex * 8)

def leafInfo (leafIndex : Nat) : Except String LeafInfo :=
  if leafIndex ≥ reader.leavesCount then .error "BKDReader: leaf index"
  else
    let start := reader.leafFP leafIndex
    let ends := reader.leafFP (leafIndex + 1)
    if start ≥ ends ∨ ends > reader.metaOffset ∨ ends - start < leafHeaderSize then
      invalid "invalid leaf extent"
    else
      let header := reader.points + start
      let docBytes := load 4 reader.file (header + 12)
      let latBytes := load 4 reader.file (header + 24)
      let fixedPayload := leafHeaderSize + docBytes + latBytes
      if fixedPayload > ends - start then invalid "leaf payload lengths exceed extent"
      else
        let lonBytes := ends - start - fixedPayload
        if lonBytes > 2 ^ 32 - 1 then invalid "longitude payload exceeds uint32"
        else .ok ⟨load 2 reader.file header, load 1 reader.file (header + 2), load 1 reader.file
          (header + 3), load 1 reader.file (header + 4), load 1 reader.file (header + 5), load 4
          reader.file (header + 8), docBytes, signed 32 (load 4 reader.file (header + 16)), signed
          32 (load 4 reader.file (header + 20)), latBytes, lonBytes⟩

def docPayload (leafIndex : Nat) : Nat := reader.points + reader.leafFP leafIndex + leafHeaderSize

end Reader

section
variable (codec : NumericCodec) (reader : Reader) (leafIndex : Nat) (info : LeafInfo)

def decodeDocids : Except String (List Nat) :=
  decodeDocBlock codec "BKDReader" true
    ⟨info.count, info.docCodec, info.docBits, info.docBase, info.docBytes⟩
    (reader.file.drop (reader.docPayload leafIndex))

def decodeCoordinates : Except String (List Nat × List Nat) :=
  let latPayload := reader.docPayload leafIndex + info.docBytes
  let lonPayload := latPayload + info.latBytes
  let lat := codec.decodeWithMeta (reader.file.drop latPayload) info.count info.latBits
  let lon := codec.decodeWithMeta (reader.file.drop lonPayload) info.count info.lonBits
  if lat.2 ≠ info.latBytes ∨ lon.2 ≠ info.lonBytes then
    invalid "coordinate decoder byte length mismatch"
  else .ok (lat.1, lon.1)

def restored (least : Int) (residual : Nat) : Int := signed 32 ((wrap 32 least + residual) % 2 ^ 32)

def emitLeafDocids : Except String (List Emitted) :=
  if info.docCodec = docContig then
    .ok [.run (signed 32 info.docBase) (signed 32 ((info.docBase + info.count) % 2 ^ 32))]
  else if info.docCodec = docBitset then
    .ok ((List.range (info.docBytes / 8)).flatMap fun i =>
      emitWord (info.docBase / 64) i (load 8 reader.file (reader.docPayload leafIndex + i * 8)))
  else do
    let docs ← decodeDocids codec reader leafIndex info
    return docs.map fun doc => .doc (signed 32 doc)

end

variable (codec : NumericCodec) (reader : Reader) (relation : Relation)

def lowerCell (node : InnerNode) (cell : Cell) : Cell :=
  if node.splitDim = 0 then { cell with latMax := node.splitValue }
  else { cell with lonMax := node.splitValue }

def upperCell (node : InnerNode) (cell : Cell) : Cell :=
  if node.splitDim = 0 then { cell with latMin := node.splitValue }
  else { cell with lonMin := node.splitValue }

/-- The descent of a query, with what it does about a cell inside and about a leaf that it
reaches. -/
def visit {β : Type} (empty : β) (join : β → β → β) (whole : Nat → Nat → Except String β)
    (leafAt : Nat → Except String β) : Nat → Nat → Nat → Nat → Cell → Except String β
  | 0, _, _, _, _ => .ok empty
  | rounds + 1, nodeId, leaves, firstLeaf, cell =>
      match relation.compare cell with
      | .outside => .ok empty
      | .inside => whole firstLeaf leaves
      | .crosses =>
          if leaves ≠ 1 then do
            let node ← reader.innerNode nodeId
            let leftLeaves := numLeftLeaves leaves
            let left ← visit empty join whole leafAt rounds (nodeId * 2 % 2 ^ 32) leftLeaves firstLeaf
              (lowerCell node cell)
            let right ← visit empty join whole leafAt rounds ((nodeId * 2 + 1) % 2 ^ 32)
              (leaves - leftLeaves) (firstLeaf + leftLeaves) (upperCell node cell)
            return join left right
          else leafAt firstLeaf

def everywhere : Cell := ⟨-2 ^ 31, 2 ^ 31 - 1, -2 ^ 31, 2 ^ 31 - 1⟩

def emitLeaves (firstLeaf leaves : Nat) : Except String (List Emitted) :=
  (List.range' firstLeaf leaves).foldlM (fun emitted leaf => do
      let info ← reader.leafInfo leaf
      let more ← emitLeafDocids codec reader leaf info
      return emitted ++ more) []

def intersectLeaf (leaf : Nat) : Except String (List Emitted) := do
  let info ← reader.leafInfo leaf
  let tight ← reader.leafBounds leaf
  match relation.compare tight with
  | .outside => return []
  | .inside => emitLeafDocids codec reader leaf info
  | .crosses =>
      let docs ← decodeDocids codec reader leaf info
      let coordinates ← decodeCoordinates codec reader leaf info
      return (List.range info.count).flatMap fun i =>
        if relation.matchesAt (restored info.latMin (coordinates.1.getD i 0))
            (restored info.lonMin (coordinates.2.getD i 0)) then
          [.doc (signed 32 (docs.getD i 0))]
        else []

structure Scratch where
  docs : Nat
  lat : Nat
  lon : Nat

def intersect (scratch : Scratch) : Except String (List Emitted) :=
  if scratch.docs < reader.leafSizeMax ∨ scratch.lat < reader.leafSizeMax ∨
      scratch.lon < reader.leafSizeMax then
    .error "BKDReader: intersect scratch is too small"
  else
    visit reader relation [] (· ++ ·) (emitLeaves codec reader) (intersectLeaf codec reader relation)
      reader.leavesCount 1 reader.leavesCount 0 everywhere

structure EstimateResult where
  estimatedCount : Nat
  upperBound : Nat
  crossingPoints : Nat
deriving DecidableEq, Repr

def EstimateResult.join (first second : EstimateResult) : EstimateResult :=
  ⟨first.estimatedCount + second.estimatedCount, first.upperBound + second.upperBound,
    first.crossingPoints + second.crossingPoints⟩

def estimateLeaf (leaf : Nat) : Except String EstimateResult := do
  let info ← reader.leafInfo leaf
  let tight ← reader.leafBounds leaf
  match relation.compare tight with
  | .outside => return ⟨0, 0, 0⟩
  | .inside => return ⟨info.count, info.count, 0⟩
  | .crosses => return ⟨(info.count + 1) / 2, info.count, info.count⟩

def estimateLeaves (firstLeaf leaves : Nat) : Except String EstimateResult := do
  let points ← reader.leafRangePoints firstLeaf leaves
  return ⟨points, points, 0⟩

def estimateIntersect : Except String EstimateResult :=
  visit reader relation ⟨0, 0, 0⟩ EstimateResult.join (estimateLeaves reader)
    (estimateLeaf reader relation) reader.leavesCount 1 reader.leavesCount 0 everywhere

def countLeaf (leaf : Nat) : Except String Nat := do
  let info ← reader.leafInfo leaf
  let tight ← reader.leafBounds leaf
  match relation.compare tight with
  | .outside => return 0
  | .inside => return info.count
  | .crosses =>
      let coordinates ← decodeCoordinates codec reader leaf info
      return (List.range info.count).countP fun i =>
        relation.matchesAt (restored info.latMin (coordinates.1.getD i 0))
          (restored info.lonMin (coordinates.2.getD i 0))

def countIntersect (scratch : Scratch) : Except String Nat :=
  if scratch.lat < reader.leafSizeMax ∨ scratch.lon < reader.leafSizeMax then
    .error "BKDReader: count scratch is too small"
  else
    visit reader relation 0 (· + ·) reader.leafRangePoints (countLeaf codec reader relation)
      reader.leavesCount 1 reader.leavesCount 0 everywhere

end Luxir.Points.BKDReader
