import Luxir.Points.PointsWriter

/-!
The writer of an index of points in the plane. The points are cut by their coordinates into leaves
of one size; the inner nodes of the tree are numbered as in a heap, so that the number of leaves
tells its shape.
-/

namespace Luxir.Points.BKDWriter
open Lib.Bytes Lib.Words
open PointsWriter (NumericCodec EncodedDocs encodeDocs docBase magic version)

structure Point where
  lat : Int
  lon : Int
  docid : Int
deriving DecidableEq, Repr, Inhabited

structure Options where
  maxPointsPerLeaf : Nat
  bitsetDocids : Bool
deriving DecidableEq, Repr

structure InnerNode where
  splitValue : Int
  splitDim : Nat
deriving DecidableEq, Repr, Inhabited

def formatKind : Nat := 2

def flags : Nat := 0

def bytesPerDim : Nat := 4

def numIndexDims : Nat := 2

def numDataDims : Nat := 2

def fixedHeaderSize : Nat := 32

def numLeftLeaves (leaves : Nat) : Nat :=
  if leaves ≤ 1 then 0
  else
    let floorPower := 2 ^ Nat.log2 leaves
    floorPower / 2 + min (leaves - floorPower) (floorPower / 2)

def Point.coordinate (point : Point) (dim : Nat) : Int := if dim = 0 then point.lat else point.lon

def lowest (dim : Nat) (points : List Point) : Int :=
  points.foldl (fun low point => min low (point.coordinate dim))
    (points.headD default |>.coordinate dim)

def highest (dim : Nat) (points : List Point) : Int :=
  points.foldl (fun high point => max high (point.coordinate dim))
    (points.headD default |>.coordinate dim)

def dimSpan (dim : Nat) (points : List Point) : Nat :=
  wrap 32 (highest dim points - lowest dim points)

def dimSpans (points : List Point) : Nat × Nat := (dimSpan 0 points, dimSpan 1 points)

def lessByDim (dim : Nat) (a b : Point) : Bool :=
  let other := if dim = 0 then 1 else 0
  if a.coordinate dim ≠ b.coordinate dim then a.coordinate dim < b.coordinate dim
  else if a.coordinate other ≠ b.coordinate other then a.coordinate other < b.coordinate other
  else a.docid < b.docid

section
variable (codec : NumericCodec) (options : Options)

def docPoints (leaf : List Point) : List PointsWriter.Point :=
  leaf.map fun point => ⟨0, point.docid⟩

def encodeDocids (leaf : List Point) : EncodedDocs :=
  encodeDocs codec ⟨options.maxPointsPerLeaf, options.bitsetDocids, false⟩ (docPoints leaf)

structure Bounds where
  minLat : Int
  maxLat : Int
  minLon : Int
  maxLon : Int
deriving DecidableEq, Repr

def Bounds.around (points : List Point) : Bounds :=
  ⟨lowest 0 points, highest 0 points, lowest 1 points, highest 1 points⟩

def Bounds.latBits (bounds : Bounds) : Nat := bitWidth (wrap 32 (bounds.maxLat - bounds.minLat))

def Bounds.lonBits (bounds : Bounds) : Nat := bitWidth (wrap 32 (bounds.maxLon - bounds.minLon))

def dimensionResiduals (leaf : List Point) (dim : Nat) (least : Int) : List Nat :=
  leaf.map fun point => wrap 32 (point.coordinate dim - least)

def encodeDimension (leaf : List Point) (dim : Nat) (least : Int) (bits : Nat) : Bytes :=
  codec.encodeWithMeta (dimensionResiduals leaf dim least) bits

def lessInLeaf (a b : Point) : Bool :=
  if a.docid ≠ b.docid then a.docid < b.docid
  else if a.lat ≠ b.lat then a.lat < b.lat
  else a.lon < b.lon

def sortLeaf (points : List Point) : List Point := points.mergeSort fun a b => !lessInLeaf b a

def latBytes (bounds : Bounds) (leaf : List Point) : Bytes :=
  encodeDimension codec leaf 0 bounds.minLat bounds.latBits

def lonBytes (bounds : Bounds) (leaf : List Point) : Bytes :=
  encodeDimension codec leaf 1 bounds.minLon bounds.lonBits

def leafHeader (bounds : Bounds) (leaf : List Point) : Bytes :=
  let docs := encodeDocids codec options leaf
  spell 2 leaf.length ++ (spell 1 docs.docCodec ++ (spell 1 docs.docBits ++
    (spell 1 bounds.latBits ++ (spell 1 bounds.lonBits ++ (spell 2 0x1111 ++
      (spell 4 (docBase (docPoints leaf)) ++ (spell 4 docs.bytes.length ++
        (spell 4 (wrap 32 bounds.minLat) ++ (spell 4 (wrap 32 bounds.minLon) ++
          (spell 4 (latBytes codec bounds leaf).length ++ spell 4 0x11111111))))))))))

def leafBytes (bounds : Bounds) (leaf : List Point) : Bytes :=
  leafHeader codec options bounds leaf ++ ((encodeDocids codec options leaf).bytes ++
    (latBytes codec bounds leaf ++ lonBytes codec bounds leaf))

structure EncodedLeaf where
  bounds : Bounds
  bytes : Bytes

def encodeLeaf (points : List Point) : Except String EncodedLeaf :=
  if points = [] then .error "BKDWriter: empty leaf"
  else
    let bounds := Bounds.around points
    .ok ⟨bounds, leafBytes codec options bounds (sortLeaf points)⟩

end

section
variable (nthElement : (Point → Point → Bool) → List Point → Nat → List Point) (size nodes : Nat)

/-- Rearranges the points of a subtree, and lists the inner nodes that it has stored with their
numbers. -/
def partition : Nat → List Point → Nat → Nat → Nat →
    Except String (List Point × List (Nat × InnerNode))
  | 0, points, _, _, _ => .ok (points, [])
  | rounds + 1, points, leaves, nodeId, lastSplitDim =>
      if leaves = 1 then .ok (points, [])
      else
        let leftLeaves := numLeftLeaves leaves
        let leftPoints := leftLeaves * size
        if leftPoints = 0 ∨ leftPoints ≥ points.length then
          .error "BKDWriter: invalid derived tree partition"
        else
          let spans := dimSpans points
          let splitDim :=
            if spans.1 = spans.2 then lastSplitDim ^^^ 1 else if spans.1 > spans.2 then 0 else 1
          let points := nthElement (lessByDim splitDim) points leftPoints
          let splitValue := (points.getD leftPoints default).coordinate splitDim
          if nodeId = 0 ∨ nodeId > nodes then .error "BKDWriter: invalid heap node id"
          else do
            let left ← partition rounds (points.take leftPoints) leftLeaves (nodeId * 2 % 2 ^ 32)
              splitDim
            let right ← partition rounds (points.drop leftPoints) (leaves - leftLeaves)
              ((nodeId * 2 + 1) % 2 ^ 32) splitDim
            return (left.1 ++ right.1, (nodeId, ⟨splitValue, splitDim⟩) :: (left.2 ++ right.2))

def storeNodes (writes : List (Nat × InnerNode)) : List InnerNode :=
  writes.foldl (fun stored write => stored.set (write.1 - 1) write.2) (List.replicate nodes default)

end

structure Data where
  pointsStart : Nat
  pointsMetaOff : Nat
  pointCount : Nat
  leafCount : Nat
deriving DecidableEq, Repr

def chunk (size : Nat) (points : List Point) (leaf : Nat) : List Point :=
  (points.drop (leaf * size)).take size

def innerBytes (node : InnerNode) : Bytes :=
  spell 4 (wrap 32 node.splitValue) ++ (spell 1 node.splitDim ++ ([0x11] ++ spell 2 0x1111))

def metaHeader (leafCount maxPointsPerLeaf pointCount : Nat) : Bytes :=
  spell 4 magic ++ (spell 2 version ++ (spell 1 formatKind ++ ([0x11] ++ (spell 4 flags ++
    (spell 4 leafCount ++ (spell 2 maxPointsPerLeaf ++ (spell 1 bytesPerDim ++
      (spell 1 numIndexDims ++ (spell 1 numDataDims ++ ([0x11, 0x11, 0x11] ++
        spell 8 pointCount))))))))))

def leafPointers (leaves : List EncodedLeaf) : List Nat :=
  (List.range (leaves.length + 1)).map fun k => ((leaves.take k).flatMap EncodedLeaf.bytes).length

def leafCount (size points : Nat) : Nat := points / size + if points % size ≠ 0 then 1 else 0

def write (codec : NumericCodec)
    (nthElement : (Point → Point → Bool) → List Point → Nat → List Point) (options : Options)
    (out : Bytes) (points : List Point) : Except String (Data × Bytes) :=
  if options.maxPointsPerLeaf = 0 then .error "BKDWriter: maxPointsPerLeaf must be positive"
  else if points = [] then .error "BKDWriter: empty input"
  else if points.any fun point => point.docid < 0 then
    .error "BKDWriter: docid must be non-negative"
  else
    let totalLeaves := leafCount options.maxPointsPerLeaf points.length
    if totalLeaves > 2 ^ 32 - 1 then .error "BKDWriter: too many leaves"
    else do
      let arranged ← partition nthElement options.maxPointsPerLeaf (totalLeaves - 1) totalLeaves
        points totalLeaves 1 1
      let leaves ← (List.range totalLeaves).mapM fun leaf =>
        encodeLeaf codec options (chunk options.maxPointsPerLeaf arranged.1 leaf)
      let body := leaves.flatMap EncodedLeaf.bytes
      let header := metaHeader totalLeaves options.maxPointsPerLeaf points.length
      let bounds (bound : Bounds → Int) :=
        leaves.flatMap fun leaf => spell 4 (wrap 32 (bound leaf.bounds))
      return (⟨out.length, body.length, points.length, totalLeaves⟩,
        PointsWriter.Writer.align (out ++ body ++ header) ++
          ((storeNodes (totalLeaves - 1) arranged.2).flatMap innerBytes ++
            (bounds Bounds.minLat ++ (bounds Bounds.maxLat ++ (bounds Bounds.minLon ++
              (bounds Bounds.maxLon ++ (leafPointers leaves).flatMap (spell 8)))))))

end Luxir.Points.BKDWriter
