import Luxir.Lib.Bytes
import Luxir.Lib.Words

/-!
The writer of an index of points: values with documents, in the order of the values. Points are cut
into leaves of one size; the values of a leaf are stored as multiples above the least one, and its
documents in one of three forms. A directory of the leaves' bounds and places ends the index.
-/

namespace Luxir.Points.PointsWriter
open Lib.Bytes Lib.Words List

structure Point where
  value : Int
  docid : Int
deriving DecidableEq, Repr

/-- The codec of integers that are given with their width. Decoding returns the values and the
number of bytes read. -/
structure NumericCodec where
  encodeWithMeta : List Nat → Nat → Bytes
  decodeWithMeta : Bytes → Nat → Nat → List Nat × Nat

def byteSize (count bits : Nat) : Nat :=
  if bits = 0 then 0
  else
    let fullBlocks := count / 128
    let tail := count % 128
    let bytes := fullBlocks * 4 * bits * 4
    if tail ≠ 0 then
      let rows := (tail + 3) / 4
      bytes + 4 * ((rows * bits + 31) / 32) * 4
    else bytes

structure Options where
  maxPointsPerLeaf : Nat
  bitsetDocids : Bool
  valueGcd : Bool
deriving DecidableEq, Repr

def magic : Nat := 0x31545053

def version : Nat := 1

def formatKind : Nat := 1

def flagLeafMax : Nat := 1

def fixedHeaderSize : Nat := 28

def leafHeaderSize : Nat := 32

def docContig : Nat := 0

def docFor : Nat := 1

def docBitset : Nat := 3

section
variable (codec : NumericCodec) (options : Options) (leaf : List Point)

def front : Point := leaf.headD ⟨0, 0⟩

def back : Point := leaf.getLastD ⟨0, 0⟩

def distance (low high : Int) : Nat := wrap 64 (high - low)

def leafGcd : Nat :=
  let valueGcd :=
    if options.valueGcd then
      leaf.foldl (fun valueGcd point =>
        if valueGcd = 1 then valueGcd
        else Nat.gcd valueGcd (distance (front leaf).value point.value)) 0
    else 1
  if valueGcd = 0 then 1 else valueGcd

def valueFormat : Nat :=
  bitWidth (distance (front leaf).value (back leaf).value / leafGcd options leaf)

def docids : List Nat := leaf.map fun point => point.docid.toNat

def docBase : Nat := (docids leaf).foldl min (docids leaf |>.headD 0)

def maxDocid : Nat := (docids leaf).foldl max (docids leaf |>.headD 0)

def contiguous : Bool :=
  (range leaf.length).all fun i => (docids leaf).getD i 0 = docBase leaf + i

def strictlyAscending : Bool :=
  (range' 1 (leaf.length - 1)).all fun i =>
    (docids leaf).getD (i - 1) 0 < (docids leaf).getD i 0

def docResiduals : List Nat := (docids leaf).map fun docid => docid - docBase leaf

def residualBits : Nat := bitWidth ((docResiduals leaf).foldl max 0)

/-- A bit for every document, from the word of the least one on. -/
def docWords : List Nat :=
  let firstWord := docBase leaf / 64
  (docids leaf).foldl
    (fun words docid => words.modify (docid / 64 - firstWord) (· ||| 1 <<< (docid % 64)))
    (replicate (maxDocid leaf / 64 - firstWord + 1) 0)

structure EncodedDocs where
  docCodec : Nat
  docBits : Nat
  bytes : Bytes

/-- The bitmap is taken where it is smaller; it keeps the order of documents only if they ascend. -/
def encodeDocs : EncodedDocs :=
  if contiguous leaf then ⟨docContig, 0, []⟩
  else
    let encoded := codec.encodeWithMeta (docResiduals leaf) (residualBits leaf)
    let bitsetBytes := (maxDocid leaf / 64 - docBase leaf / 64 + 1) * 8
    if options.bitsetDocids ∧ strictlyAscending leaf ∧ bitsetBytes < encoded.length then
      ⟨docBitset, 0, (docWords leaf).flatMap (spell 8)⟩
    else ⟨docFor, residualBits leaf, encoded⟩

def valueResiduals : List Nat :=
  leaf.map fun point => distance (front leaf).value point.value / leafGcd options leaf

/-- Values that are too far apart are stored whole. -/
def encodeValues : Bytes :=
  if valueFormat options leaf ≤ 32 then
    codec.encodeWithMeta (valueResiduals options leaf) (valueFormat options leaf)
  else leaf.flatMap fun point => spell 8 (wrap 64 point.value)

def leafHeader (docs : EncodedDocs) : Bytes :=
  spell 2 leaf.length ++ (spell 1 docs.docCodec ++ (spell 1 docs.docBits ++
    (spell 1 (valueFormat options leaf) ++ ([0x11, 0x11, 0x11] ++ (spell 4 (docBase leaf) ++
      (spell 4 docs.bytes.length ++ (spell 8 (wrap 64 (front leaf).value) ++
        spell 8 (leafGcd options leaf))))))))

def leafBytes : Bytes :=
  let docs := encodeDocs codec options leaf
  leafHeader options leaf docs ++ (docs.bytes ++ encodeValues codec options leaf)

end

structure Writer where
  options : Options
  out : Bytes
  pointsStart : Nat
  pointCount : Nat
  finished : Bool
  last : Option Point
  leaf : List Point
  leafMin : List Int
  leafMax : List Int
  leafFP : List Nat

namespace Writer
variable (codec : NumericCodec)

def start (options : Options) (out : Bytes) : Except String Writer :=
  if options.maxPointsPerLeaf = 0 then
    .error "PointsWriter: maxPointsPerLeaf must be positive"
  else .ok ⟨options, out, out.length, 0, false, none, [], [], [], []⟩

def flushLeaf (writer : Writer) : Except String Writer :=
  if writer.leaf = [] then .ok writer
  else if writer.leafFP.length ≥ 2 ^ 32 - 1 then .error "PointsWriter: too many leaves"
  else .ok { writer with
    leafFP := writer.leafFP ++ [writer.out.length - writer.pointsStart]
    leafMin := writer.leafMin ++ [(front writer.leaf).value]
    leafMax := writer.leafMax ++ [(back writer.leaf).value]
    out := writer.out ++ leafBytes codec writer.options writer.leaf
    leaf := [] }

def outOfOrder (last : Option Point) (point : Point) : Bool :=
  match last with
  | none => false
  | some last =>
      point.value < last.value ∨ (point.value = last.value ∧ point.docid < last.docid)

def addPoint (writer : Writer) (point : Point) : Except String Writer :=
  if writer.finished then .error "PointsWriter: addPoint after finish"
  else if point.docid < 0 then .error "PointsWriter: docid must be non-negative"
  else if outOfOrder writer.last point then
    .error "PointsWriter: points are not sorted by (value, docid)"
  else if writer.pointCount = 2 ^ 64 - 1 then .error "PointsWriter: too many points"
  else
    let writer := { writer with
      leaf := writer.leaf ++ [point]
      pointCount := writer.pointCount + 1
      last := some point }
    if writer.leaf.length = writer.options.maxPointsPerLeaf then writer.flushLeaf codec
    else .ok writer

structure Data where
  pointsStart : Nat
  pointsMetaOff : Nat
  pointCount : Nat
  leafCount : Nat
deriving DecidableEq, Repr

def align (out : Bytes) : Bytes := out ++ replicate ((8 - out.length % 8) % 8) 0x11

theorem align_parts {head body header directory tail file : Bytes}
    (wrote : align (head ++ body ++ header) ++ directory ++ tail = file) :
    (∃ rest, file.drop head.length = body ++ rest) ∧
      (∃ rest, file.drop (head.length + body.length) = header ++ rest) ∧
      (∃ rest, file.drop ((head.length + body.length + header.length + 7) / 8 * 8) =
        directory ++ rest) ∧ head.length + body.length + header.length ≤ file.length ∧
      (head.length + body.length + header.length + 7) / 8 * 8 + directory.length ≤ file.length := by
  simp only [align, append_assoc] at wrote
  have bodyPlace := drop_past (drop_zero.trans wrote.symm) (Nat.zero_add _)
  have headerPlace := drop_past bodyPlace rfl
  have padPlace := drop_past headerPlace rfl
  have size := congrArg length wrote
  simp only [length_append, length_replicate] at size
  refine ⟨⟨_, bodyPlace⟩, ⟨_, headerPlace⟩, ⟨_, drop_past padPlace ?_⟩, by omega, by omega⟩
  simp only [length_append, length_replicate]
  omega

def metaHeader (leafCount maxPointsPerLeaf pointCount : Nat) : Bytes :=
  spell 4 magic ++ (spell 2 version ++ (spell 1 formatKind ++ ([0x11] ++ (spell 4 flagLeafMax ++
    (spell 4 leafCount ++ (spell 2 maxPointsPerLeaf ++ (spell 2 0x1111 ++ spell 8 pointCount)))))))

def finish (writer : Writer) : Except String (Data × Bytes) :=
  if writer.finished then .error "PointsWriter: finish called twice"
  else if writer.pointCount = 0 then .error "PointsWriter: empty input"
  else do
    let writer ← writer.flushLeaf codec
    let pointsMetaOff := writer.out.length - writer.pointsStart
    let out := align (writer.out ++ metaHeader writer.leafMin.length
      writer.options.maxPointsPerLeaf writer.pointCount)
    let out := out ++ (writer.leafMin.flatMap (fun value => spell 8 (wrap 64 value)) ++
      (writer.leafMax.flatMap (fun value => spell 8 (wrap 64 value)) ++
        (writer.leafFP ++ [pointsMetaOff]).flatMap (spell 8)))
    return (⟨writer.pointsStart, pointsMetaOff, writer.pointCount, writer.leafMin.length⟩, out)

def write (options : Options) (out : Bytes) (points : List Point) :
    Except String (Data × Bytes) := do
  let writer ← start options out
  let writer ← points.foldlM (addPoint codec) writer
  writer.finish codec

end Writer

end Luxir.Points.PointsWriter
