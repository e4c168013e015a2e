import Luxir.Lib.Bits
import Luxir.Points.PointsWriter
import Luxir.Util.Gallop

/-!
The reader of an index of points. Ranges of values are found by the leaves' bounds and then inside
the leaves at their ends; documents are reported one by one, as runs or as words of a bitmap.
-/

namespace Luxir.Points.PointsReader
open Lib.Bits Lib.Bytes Lib.Words PointsWriter Util.Gallop List

structure Reader where
  file : Bytes
  points : Nat
  metaOffset : Nat
  pointsCount : Nat
  leavesCount : Nat
  leafSizeMax : Nat
  leafMins : Nat
  leafMaxes : Nat
  leafPointers : Nat
deriving DecidableEq, Repr

def invalidIn {α : Type} (reader reason : String) : Except String α :=
  .error (reader ++ ": " ++ reason)

def invalid {α : Type} (reason : String) : Except String α := invalidIn "PointsReader" reason

structure LeafInfo where
  count : Nat
  docCodec : Nat
  docBits : Nat
  valueFormat : Nat
  docBase : Nat
  docBytes : Nat
  valueMin : Int
  valueGcd : Nat
deriving DecidableEq, Repr

structure ValueRange where
  lo : Int
  hi : Int
deriving DecidableEq, Repr, Inhabited

structure OrdinalRange where
  first : Nat
  last : Nat
deriving DecidableEq, Repr

/-- What a caller is given: a document, a run of documents or a word of a bitmap. -/
inductive Emitted where
  | doc (docid : Int)
  | run (first last : Int)
  | word (index : Int) (word : Nat)
deriving DecidableEq, Repr

namespace Reader

def ofFile (file : Bytes) (pointsOff : Nat) (pointsMetaOff : Int) : Except String Reader :=
  if pointsMetaOff ≤ 0 then invalid "points index is absent"
  else if pointsOff > file.length then invalid "points location is out of bounds"
  else if pointsMetaOff.toNat > file.length - pointsOff then invalid "metadata is out of bounds"
  else
    let place := pointsOff + pointsMetaOff.toNat
    if file.length - place < fixedHeaderSize then invalid "truncated metadata header"
    else if load 4 file place ≠ magic then invalid "bad magic"
    else if load 2 file (place + 4) ≠ version then invalid "unsupported version"
    else if load 1 file (place + 6) ≠ formatKind then invalid "unsupported format kind"
    else if load 1 file (place + 7) ≠ 0x11 then invalid "bad metadata reserved byte"
    else if load 4 file (place + 8) ≠ flagLeafMax then invalid "unsupported metadata flags"
    else if load 2 file (place + 18) ≠ 0x1111 then invalid "bad metadata reserved word"
    else
      let leavesCount := load 4 file (place + 12)
      let leafSizeMax := load 2 file (place + 16)
      let pointsCount := load 8 file (place + 20)
      if leavesCount = 0 then invalid "leafCount must be positive"
      else if leafSizeMax = 0 then invalid "maxPointsPerLeaf must be positive"
      else if pointsCount = 0 then invalid "pointCount must be positive"
      else
        let directory := (place + fixedHeaderSize + 7) / 8 * 8
        let directoryBytes := leavesCount * 8 * 2 + (leavesCount + 1) * 8
        if directory > file.length ∨ directoryBytes > file.length - directory then
          invalid "truncated leaf directory"
        else
          let leafPointers := directory + leavesCount * 8 + leavesCount * 8
          if load 8 file leafPointers ≠ 0 then invalid "first leaf pointer must be zero"
          else if load 8 file (leafPointers + leavesCount * 8) ≠ pointsMetaOff.toNat then
            invalid "final leaf pointer does not equal pointsMetaOff"
          else .ok ⟨file, pointsOff, pointsMetaOff.toNat, pointsCount, leavesCount, leafSizeMax,
            directory, directory + leavesCount * 8, leafPointers⟩

variable (reader : Reader)

def leafMin (leafIndex : Nat) : Int :=
  signed 64 (load 8 reader.file (reader.leafMins + leafIndex * 8))

def leafMax (leafIndex : Nat) : Int :=
  signed 64 (load 8 reader.file (reader.leafMaxes + leafIndex * 8))

def leafFP (leafIndex : Nat) : Nat := load 8 reader.file (reader.leafPointers + leafIndex * 8)

def leafInfo (leafIndex : Nat) : LeafInfo :=
  let header := reader.points + reader.leafFP leafIndex
  ⟨load 2 reader.file header, load 1 reader.file (header + 2), load 1 reader.file (header + 3), load
    1 reader.file (header + 4), load 4 reader.file (header + 8), load 4 reader.file (header + 12),
    signed 64 (load 8 reader.file (header + 16)), load 8 reader.file (header + 24)⟩

def leafOrdinalStart (leafIndex : Nat) : Nat := leafIndex * reader.leafSizeMax

def leafOrdinalEnd (leafIndex : Nat) : Nat :=
  min reader.pointsCount (reader.leafOrdinalStart leafIndex + reader.leafSizeMax)

def docPayload (leafIndex : Nat) : Nat := reader.points + reader.leafFP leafIndex + leafHeaderSize

def valuePayload (leafIndex : Nat) : Nat :=
  reader.docPayload leafIndex + (reader.leafInfo leafIndex).docBytes

end Reader

def wordDocs (reader : String) (count base : Nat) : Nat → Nat → List Nat → Except String (List Nat)
  | 0, _, docs => .ok docs
  | rounds + 1, word, docs =>
      if word ≠ 0 then
        if docs.length = count then invalidIn reader "BITSET popcount exceeds count"
        else
          wordDocs reader count base rounds (word &&& (word - 1))
            (docs ++ [base * 64 + countrZero word])
      else .ok docs

structure DocBlock where
  count : Nat
  docCodec : Nat
  docBits : Nat
  docBase : Nat
  docBytes : Nat

/-- The documents of a leaf in either format. Not every caller checks how much the codec has
read. -/
def decodeDocBlock (codec : NumericCodec) (reader : String) (checked : Bool) (block : DocBlock)
    (payload : Bytes) : Except String (List Nat) :=
  if block.docCodec = docContig then
    .ok ((range block.count).map fun i => (block.docBase + i) % 2 ^ 32)
  else if block.docCodec = docFor then
    let decoded := codec.decodeWithMeta payload block.count block.docBits
    if checked ∧ decoded.2 ≠ block.docBytes then
      invalidIn reader "FOR decoder byte length mismatch"
    else if decoded.1.any fun doc => block.docBase + doc > 2 ^ 31 - 1 then
      invalidIn reader "decoded docid exceeds int32"
    else .ok (decoded.1.map fun doc => block.docBase + doc)
  else if block.docCodec = docBitset then do
    let docs ← (range (block.docBytes / 8)).foldlM
      (fun docs wordIndex => wordDocs reader block.count (block.docBase / 64 + wordIndex) 64
        (load 8 payload (wordIndex * 8)) docs) []
    if docs.length ≠ block.count then invalidIn reader "BITSET popcount does not match count"
    else .ok docs
  else invalidIn reader "reserved docid codec"

section
variable (codec : NumericCodec) (reader : Reader)

def decodeDocs (checked : Bool) (leafIndex : Nat) : Except String (List Nat) :=
  let info := reader.leafInfo leafIndex
  decodeDocBlock codec "PointsReader" checked
    ⟨info.count, info.docCodec, info.docBits, info.docBase, info.docBytes⟩
    (reader.file.drop (reader.docPayload leafIndex))

def decodeValues (leafIndex : Nat) : List Int × Nat :=
  let info := reader.leafInfo leafIndex
  let payload := reader.valuePayload leafIndex
  if info.valueFormat ≤ 32 then
    let decoded := codec.decodeWithMeta (reader.file.drop payload) info.count info.valueFormat
    (decoded.1.map fun residual =>
      signed 64 ((residual * info.valueGcd + wrap 64 info.valueMin) % 2 ^ 64), decoded.2)
  else
    ((range info.count).map fun i => signed 64 (load 8 reader.file (payload + i * 8)),
      info.count * 8)

def decodeLeafValuesInto (leafIndex values residualScratch : Nat) : Except String (List Int) :=
  if values < (reader.leafInfo leafIndex).count ∨
      residualScratch < (reader.leafInfo leafIndex).count then
    .error "PointsReader: leaf value scratch is too small"
  else .ok (decodeValues codec reader leafIndex).1

/-- The values and the documents of a leaf, for a merge. The arrays are given by their sizes. -/
def decodeLeafInto (leafIndex values docids residualScratch : Nat) :
    Except String (List Int × List Nat) :=
  let count := (reader.leafInfo leafIndex).count
  if values < count ∨ docids < count ∨ residualScratch < count then
    .error "PointsReader: leaf decode scratch is too small"
  else do
    let docs ← decodeDocs codec reader false leafIndex
    let values ← decodeLeafValuesInto codec reader leafIndex values residualScratch
    return (values, docs)

def decodeLeaf (leafIndex : Nat) : Except String (List Point) := do
  let info := reader.leafInfo leafIndex
  let docs ← decodeDocs codec reader true leafIndex
  let values := decodeValues codec reader leafIndex
  let expected := reader.leafFP (leafIndex + 1) - reader.leafFP leafIndex - leafHeaderSize -
    info.docBytes
  if info.valueFormat ≤ 32 ∧ values.2 ≠ expected then
    invalid "value decoder byte length mismatch"
  else .ok (zipWith (fun value doc => ⟨value, signed 32 doc⟩) values.1 docs)

def readAll : Except String (List Point) :=
  (range reader.leavesCount).foldlM (fun decoded leafIndex => do
      let leafPoints ← decodeLeaf codec reader leafIndex
      return decoded ++ leafPoints) []

end

section
variable (codec : NumericCodec) (reader : Reader)

/-- The bisection of the leaves: the first one that is not passed. -/
def bisect (past : Nat → Bool) : Nat → Nat → Nat → Nat
  | 0, first, _ => first
  | rounds + 1, first, last =>
      if first < last then
        let mid := first + (last - first) / 2
        if past mid then bisect past rounds (mid + 1) last else bisect past rounds first mid
      else first

def fenceRange (lo hi : Int) : Option (Nat × Nat) :=
  if hi < lo then none
  else
    let left := bisect (fun leaf => reader.leafMax leaf < lo) reader.leavesCount 0 reader.leavesCount
    let right :=
      bisect (fun leaf => reader.leafMin leaf ≤ hi) reader.leavesCount 0 reader.leavesCount
    if left ≥ right then none else some (left, right - 1)

def stdBound {α : Type} (passed : α → Bool) (values : List α) : Nat :=
  (values.takeWhile passed).length

def valueBounds (leafIndex : Nat) (lo hi : Int) (residualScratch rawScratch : Nat) :
    Except String (Nat × Nat) :=
  let info := reader.leafInfo leafIndex
  let least := reader.leafMin leafIndex
  let greatest := reader.leafMax leafIndex
  let payload := reader.valuePayload leafIndex
  if hi < least ∨ greatest < lo then .ok (0, 0)
  else if lo ≤ least ∧ greatest ≤ hi then .ok (0, info.count)
  else if info.valueFormat ≤ 32 then
    if residualScratch < info.count then
      .error "PointsReader: residual scratch is too small"
    else
      let values := (codec.decodeWithMeta (reader.file.drop payload) info.count info.valueFormat).1
      let lower :=
        if lo > least then
          let delta := distance least lo
          delta / info.valueGcd + if delta % info.valueGcd ≠ 0 then 1 else 0
        else 0
      let upper :=
        if hi < greatest then distance least hi / info.valueGcd
        else distance least greatest / info.valueGcd
      if lower > 2 ^ 32 - 1 then .ok (0, 0)
      else
        let upperResidual := if upper > 2 ^ 32 - 1 then 2 ^ 32 - 1 else upper
        .ok (stdBound (· < lower) values, stdBound (· ≤ upperResidual) values)
  else if rawScratch < info.count then .error "PointsReader: raw scratch is too small"
  else
    let values := (range info.count).map fun i =>
      signed 64 (load 8 reader.file (payload + i * 8))
    .ok (stdBound (· < lo) values, stdBound (· ≤ hi) values)

/-- A run that begins where the last one ends goes on with it. -/
def append (output : List OrdinalRange) (first last : Nat) : List OrdinalRange :=
  if first = last then output
  else
    match output.getLast? with
    | some run =>
        if run.last = first then output.dropLast ++ [⟨run.first, last⟩]
        else output ++ [⟨first, last⟩]
    | none => output ++ [⟨first, last⟩]

def leafValues (residualScratch valueScratch leaf : Nat) :
    Option (List Int) → Except String (List Int)
  | some values => .ok values
  | none => decodeLeafValuesInto codec reader leaf valueScratch residualScratch

/-- The ranges that meet a leaf. Its values are decoded when a range ends inside. -/
def leafRanges (ranges : List ValueRange) (residualScratch valueScratch leaf : Nat) :
    Nat → Nat → Option (List Int) → Nat → List OrdinalRange → Except String (List OrdinalRange)
  | 0, _, _, _, output => .ok output
  | rounds + 1, i, decoded, valueCursor, output =>
      if i < ranges.length ∧ (ranges.getD i default).lo ≤ reader.leafMax leaf then
        let range := ranges.getD i default
        let leafStart := reader.leafOrdinalStart leaf
        if range.hi < reader.leafMin leaf then
          leafRanges ranges residualScratch valueScratch leaf rounds (i + 1) decoded valueCursor
            output
        else if range.lo ≤ reader.leafMin leaf ∧ reader.leafMax leaf ≤ range.hi then
          leafRanges ranges residualScratch valueScratch leaf rounds (i + 1) decoded valueCursor
            (append output leafStart (leafStart + (reader.leafInfo leaf).count))
        else do
          let values ← leafValues codec reader residualScratch valueScratch leaf decoded
          let first := gallopLowerBound valueCursor values.length range.lo (values.getD · 0)
          let last :=
            if range.hi = 2 ^ 63 - 1 then values.length
            else gallopLowerBound first values.length (range.hi + 1) (values.getD · 0)
          leafRanges ranges residualScratch valueScratch leaf rounds (i + 1) (some values) last
            (append output (leafStart + first) (leafStart + last))
      else .ok output

/-- The leaves in their order, with a cursor in the ranges that gallops along. -/
def leafLoop (ranges : List ValueRange) (residualScratch valueScratch lastLeaf : Nat) :
    Nat → Nat → Nat → List OrdinalRange → Except String (List OrdinalRange)
  | 0, _, _, output => .ok output
  | rounds + 1, leaf, rangeCursor, output =>
      if leaf ≤ lastLeaf then
        let cursor := gallopLowerBound rangeCursor ranges.length (reader.leafMin leaf)
          fun index => (ranges.getD index default).hi
        if cursor = ranges.length then .ok output
        else if (ranges.getD cursor default).lo > reader.leafMax leaf then
          leafLoop ranges residualScratch valueScratch lastLeaf rounds (leaf + 1) cursor output
        else do
          let output ← leafRanges codec reader ranges residualScratch valueScratch leaf
            ranges.length cursor none 0 output
          leafLoop ranges residualScratch valueScratch lastLeaf rounds (leaf + 1) cursor output
      else .ok output

def ordinalRanges (ranges : List ValueRange) (outputSize residualScratch valueScratch : Nat) :
    Except String (List OrdinalRange) :=
  if ranges = [] then .ok []
  else if outputSize < ranges.length then
    .error "PointsReader: ordinal range output is too small"
  else
    match fenceRange reader (ranges.headD default).lo (ranges.getLastD default).hi with
    | none => .ok []
    | some (firstLeaf, lastLeaf) =>
        if ranges.length = 1 then do
          let range := ranges.headD default
          let first ← valueBounds codec reader firstLeaf range.lo range.hi residualScratch
            valueScratch
          let begins := reader.leafOrdinalStart firstLeaf + first.1
          if firstLeaf = lastLeaf then
            return append [] begins (reader.leafOrdinalStart firstLeaf + first.2)
          else
            let last ← valueBounds codec reader lastLeaf range.lo range.hi residualScratch
              valueScratch
            return append [] begins (reader.leafOrdinalStart lastLeaf + last.2)
        else
          leafLoop codec reader ranges residualScratch valueScratch lastLeaf reader.leavesCount
            firstLeaf 0 []

def ordinalOfFirstAtLeast (value : Int) (residualScratch rawScratch : Nat) : Except String Nat :=
  let leaf :=
    bisect (fun leaf => reader.leafMax leaf < value) reader.leavesCount 0 reader.leavesCount
  if leaf = reader.leavesCount then .ok reader.pointsCount
  else do
    let bounds ← valueBounds codec reader leaf value (2 ^ 63 - 1) residualScratch rawScratch
    return reader.leafOrdinalStart leaf + bounds.1

end

section
variable (codec : NumericCodec) (reader : Reader)

def payloadWord (leafIndex wordIndex : Nat) : Nat :=
  load 8 reader.file (reader.docPayload leafIndex + wordIndex * 8)

def clearBits : Nat → Nat → Nat
  | 0, word => word
  | remaining + 1, word => clearBits remaining (word &&& (word - 1))

def selectWords (leafIndex : Nat) : Nat → Nat → Nat → Except String Nat
  | 0, _, _ => invalid "BITSET ordinal exceeds popcount"
  | rounds + 1, wordIndex, remaining =>
      let word := payloadWord reader leafIndex wordIndex
      let count := popcount word
      if remaining < count then .ok (wordIndex * 64 + countrZero (clearBits remaining word))
      else selectWords leafIndex rounds (wordIndex + 1) (remaining - count)

/-- The place of a bit by its ordinal, and the end of the bitmap for the ordinal behind the last. -/
def selectBit (leafIndex ordinal : Nat) : Except String Nat :=
  let info := reader.leafInfo leafIndex
  let wordCount := info.docBytes / 8
  if ordinal = info.count then .ok (wordCount * 64)
  else selectWords reader leafIndex wordCount 0 ordinal

def emitWord (wordBase wordIndex word : Nat) : List Emitted :=
  if word ≠ 0 then [.word (signed 32 wordBase + wordIndex) word] else []

def maskedWord (firstBit endBit wordIndex word : Nat) : Nat :=
  let word :=
    if wordIndex = firstBit / 64 then word &&& complement (maskBits (firstBit % 64)) else word
  if wordIndex = (endBit - 1) / 64 ∧ endBit % 64 ≠ 0 then word &&& maskBits (endBit % 64) else word

def emitBits (leafIndex first last : Nat) : Except String (List Emitted) :=
  let info := reader.leafInfo leafIndex
  let wordBase := info.docBase / 64
  if first = 0 ∧ last = info.count then
    .ok ((range (info.docBytes / 8)).flatMap fun wordIndex =>
      emitWord wordBase wordIndex (payloadWord reader leafIndex wordIndex))
  else do
    let firstBit ← selectBit reader leafIndex first
    let endBit ← selectBit reader leafIndex last
    let firstWord := firstBit / 64
    let lastWord := (endBit - 1) / 64
    return (range' firstWord (lastWord + 1 - firstWord)).flatMap fun wordIndex =>
      emitWord wordBase wordIndex
        (maskedWord firstBit endBit wordIndex (payloadWord reader leafIndex wordIndex))

def emitDocids (leafIndex first last docScratch : Nat) : Except String (List Emitted) :=
  let info := reader.leafInfo leafIndex
  let payload := reader.docPayload leafIndex
  if first > last ∨ last > info.count then .error "PointsReader: leaf point range"
  else if first = last then .ok []
  else if info.docCodec = docContig then
    .ok [.run (signed 32 ((info.docBase + first) % 2 ^ 32))
      (signed 32 ((info.docBase + last) % 2 ^ 32))]
  else if info.docCodec = docBitset then emitBits reader leafIndex first last
  else if info.docCodec ≠ docFor then invalid "reserved docid codec"
  else if docScratch < info.count then .error "PointsReader: docid scratch is too small"
  else
    let docs := (codec.decodeWithMeta (reader.file.drop payload) info.count info.docBits).1
    (range' first (last - first)).foldlM (fun emitted i =>
        let doc := info.docBase + docs.getD i 0
        if doc > 2 ^ 31 - 1 then invalid "decoded docid exceeds int32"
        else .ok (emitted ++ [.doc doc])) []

/-- A part of the range for each leaf that it meets. -/
def emitParts (docScratch last : Nat) : Nat → Nat → Except String (List Emitted)
  | 0, _ => .ok []
  | rounds + 1, first =>
      if first < last then do
        let leafIndex := first / reader.leafSizeMax
        let leafStart := reader.leafOrdinalStart leafIndex
        let partEnd := min last (reader.leafOrdinalEnd leafIndex)
        let emitted ← emitDocids codec reader leafIndex (first - leafStart) (partEnd - leafStart)
          docScratch
        let rest ← emitParts docScratch last rounds partEnd
        return emitted ++ rest
      else .ok []

def emitOrdinalRange (first last docScratch : Nat) : Except String (List Emitted) :=
  if first > last ∨ last > reader.pointsCount then
    .error "PointsReader: point ordinal range"
  else emitParts codec reader docScratch last (last - first) first

end

def Emitted.docids : Emitted → List Int
  | .doc docid => [docid]
  | .run first last => (range (last - first).toNat).map fun i : Nat => first + i
  | .word index bits => ((range 64).filter bits.testBit).map fun bit : Nat => index * 64 + bit

end Luxir.Points.PointsReader
