import Luxir.Codec.NumColumn
import Luxir.Reader.RunList
import Luxir.Util.Gallop

/-!
The stored runs of request versions: blocks of up to 256 runs, a directory of the blocks and a
header behind it. The constructor checks all of them and throws on a file that does not fit.
-/

namespace Luxir.Reader.RunReader
open Lib.Bytes RunList Codec.LinearPack Codec.NumColumn Util.Gallop
open Codec.NumColumnFormat (NumBlockInfo rawBits bulkSize)
open Codec.LinearFit (maxPackedBits)

def blockHeaderSize : Nat := 40
def directorySize : Nat := 16
def headerSize : Nat := 24
def encoding : Nat := 2
def runsPerBlock : Nat := 256

/-- One block in place, shared by the inverter and immutable segments. -/
structure VersionBlock where
  file : Bytes
  data : Nat
  count : Nat
deriving DecidableEq, Repr

namespace VersionBlock

def firstDocId (block : VersionBlock) : Nat := load 4 block.file (block.data + 32)

/-- Zero means irregular starts, which have a column of their own. -/
def step (block : VersionBlock) : Nat := load 4 block.file (block.data + 36)

def versions (block : VersionBlock) : NumColumnT :=
  ⟨true, block.file, block.data, block.data, block.count⟩

def starts (block : VersionBlock) : NumColumnT :=
  ⟨false, block.file, block.data, block.data + blockHeaderSize, block.count⟩

def start (block : VersionBlock) (index : Nat) : Nat :=
  if block.step ≠ 0 then (block.firstDocId + index * block.step) % 2 ^ 32
  else (block.starts.valueAt index).toUInt64.toNat % 2 ^ 32

def version (block : VersionBlock) (index : Nat) : UInt64 := (block.versions.valueAt index).toUInt64

def search (doc hint count : Nat) (start : Nat → Nat) : Nat :=
  let hint := min hint (count - 1)
  if doc < start hint then
    let reverse := gallopLowerBound 0 (hint + 1) (-(doc : Int)) fun i => -(start (hint - i) : Int)
    hint - reverse
  else gallopLowerBound hint count (doc + 1) start - 1

def find (block : VersionBlock) (doc hint : Nat) : Nat :=
  if block.step ≠ 0 then min ((doc - block.firstDocId) / block.step) (block.count - 1)
  else search doc hint block.count block.start

end VersionBlock

/-- An exact affine beginning of the runs, one document to a run. -/
structure VersionAffinePrefix where
  base : UInt64
  step : UInt64
  count : Nat
deriving DecidableEq, Repr

namespace VersionAffinePrefix

def append (affine : VersionAffinePrefix) (block : VersionBlock) (firstRun : Nat) :
    VersionAffinePrefix :=
  if affine.count ≠ firstRun ∨ block.firstDocId ≠ affine.count ∨ block.step ≠ 1 then affine
  else
    match block.versions.affineBlock 0 with
    | none => affine
    | some fit =>
        if affine.count = 0 then ⟨fit.1, fit.2, block.count⟩
        else if affine.base + UInt64.ofNat affine.count * affine.step ≠ fit.1 ∨
            affine.step ≠ fit.2 then affine
        else { affine with count := affine.count + block.count }

def birth (affine : VersionAffinePrefix) (doc : Nat) : UInt64 :=
  affine.base + UInt64.ofNat doc * affine.step

end VersionAffinePrefix

structure VersionBlockDirectory where
  firstDocId : Nat
  reserved : Nat
  offset : Nat
deriving DecidableEq, Repr

namespace VersionBlockDirectory

def toBytes (entry : VersionBlockDirectory) : Bytes :=
  spell 4 entry.firstDocId ++ spell 4 entry.reserved ++ spell 8 entry.offset

def ofBytes (file : Bytes) (place : Nat) : VersionBlockDirectory :=
  ⟨load 4 file place, load 4 file (place + 4), load 8 file (place + 8)⟩

end VersionBlockDirectory

structure VersionRunsHeader where
  encoding : Nat
  count : Nat
  directoryOffset : Nat
  bytes : Nat
deriving DecidableEq, Repr

namespace VersionRunsHeader

def toBytes (header : VersionRunsHeader) : Bytes :=
  spell 4 header.encoding ++ spell 4 header.count ++ spell 8 header.directoryOffset ++
    spell 8 header.bytes

def ofBytes (file : Bytes) (place : Nat) : VersionRunsHeader :=
  ⟨load 4 file place, load 4 file (place + 4), load 8 file (place + 8), load 8 file (place + 16)⟩

end VersionRunsHeader

structure VersionRuns where
  file : Bytes
  data : Nat
  directory : Nat
  count : Nat
  maxDoc : Nat
  dense : Bool
  affine : VersionAffinePrefix
deriving DecidableEq, Repr

namespace VersionRuns

def numBlocks (source : VersionRuns) : Nat := (source.count + runsPerBlock - 1) / runsPerBlock

def entry (source : VersionRuns) (index : Nat) : VersionBlockDirectory :=
  VersionBlockDirectory.ofBytes source.file (source.directory + index * directorySize)

def block (source : VersionRuns) (index : Nat) : VersionBlock :=
  ⟨source.file, source.data + (source.entry index).offset,
    min runsPerBlock (source.count - index * runsPerBlock)⟩

/-- A descriptor of a block of `count` runs must lie between the block's own header, its last
byte and the padding. -/
def checkInfo (count : Nat) (info : NumBlockInfo) (metaSize room : Nat) (monotonic : Bool) : Bool :=
  let packed := info.bits ≤ maxPackedBits
  let bytes := if packed then packedByteSize count info.bits else count * 8
  ¬(¬packed ∧ info.bits ≠ rawBits ∨ info.gcd = 0 ∨ monotonic = true ∧ info.gcd ≠ 1) ∧
    ¬(info.payloadOffset < metaSize ∨ info.payloadOffset > room ∨
      bytes + tailPad > room - info.payloadOffset)

/-- One start of an irregular block, after the one before. -/
def checkStart (avx2 : Bool) (view : VersionBlock) (firstDocId maxDoc : Nat)
    (state : NumColumnT.Bulk × Nat) (j : Nat) : Option (NumColumnT.Bulk × Nat) :=
  let read := NumColumnT.Bulk.valueAt avx2 view.starts state.1 j
  let start := read.1.toInt
  if start < 0 ∨ start ≥ maxDoc ∨ (if j = 0 then start ≠ firstDocId else start ≤ state.2) then none
  else some (read.2, start.toNat)

/-- The last start of a block that keeps its order, and keeps before the next block. -/
def checkStarts (avx2 : Bool) (source : VersionRuns) (room metaSize previous i : Nat) :
    Option Nat :=
  let entry := source.entry i
  let view := source.block i
  let before := fun last => i + 1 < source.numBlocks → last < (source.entry (i + 1)).firstDocId
  if view.step ≠ 0 then
    let last := view.firstDocId + (view.count - 1) * view.step
    if last ≥ source.maxDoc ∨ ¬before last then none else some last
  else if room < metaSize then none
  else if !checkInfo view.count (view.starts.blockInfo 0) metaSize room true then none
  else
    match (List.range view.count).foldlM
        (checkStart avx2 view entry.firstDocId source.maxDoc) (NumColumnT.Bulk.start, previous) with
    | none => none
    | some read => if before read.2 then some read.2 else none

def openBlock (avx2 : Bool) (source : VersionRuns) (directoryOffset : Nat)
    (state : Nat × Bool × VersionAffinePrefix) (i : Nat) :
    Option (Nat × Bool × VersionAffinePrefix) :=
  let entry := source.entry i
  let limit :=
    if i + 1 < source.numBlocks then (source.entry (i + 1)).offset else directoryOffset
  if entry.offset % 8 ≠ 0 ∨ entry.offset > limit ∨ limit > directoryOffset ∨
      limit - entry.offset < blockHeaderSize ∨ entry.reserved ≠ 0 ∨
      entry.firstDocId ≥ source.maxDoc ∨
      (if i = 0 then entry.firstDocId ≠ 0 else entry.firstDocId ≤ state.1) then none
  else
    let view := source.block i
    let metaSize := blockHeaderSize + if view.step ≠ 0 then 0 else NumBlockInfo.size
    if entry.firstDocId ≠ view.firstDocId then none
    else if !checkInfo view.count (view.versions.blockInfo 0) metaSize (limit - entry.offset) false
    then none
    else
      match checkStarts avx2 source (limit - entry.offset) metaSize state.1 i with
      | none => none
      | some previous =>
          some (previous, state.2.1 && (view.step = 1 && entry.firstDocId = i * runsPerBlock),
            state.2.2.append view (i * runsPerBlock))

/-- The constructor. The file is mapped at a multiple of 8. -/
def openRuns (avx2 : Bool) (file : Bytes) (headerOffset count : Nat) (maxDoc : Int) :
    Option VersionRuns :=
  if headerOffset > file.length ∨ file.length - headerOffset < headerSize ∨
      headerOffset % 8 ≠ 0 ∨ maxDoc ≤ 0 ∨ count = 0 ∨ (count : Int) > maxDoc then none
  else
    let header := VersionRunsHeader.ofBytes file headerOffset
    if header.bytes > headerOffset + headerSize ∨ header.bytes < headerSize ∨
        header.bytes % 8 ≠ 0 then none
    else
      let data := headerOffset + headerSize - header.bytes
      let source : VersionRuns :=
        ⟨file, data, data + header.directoryOffset, count, maxDoc.toNat, true, ⟨0, 0, 0⟩⟩
      if header.encoding ≠ encoding ∨ header.count ≠ count ∨ header.bytes > file.length ∨
          header.directoryOffset % 8 ≠ 0 ∨ header.directoryOffset > header.bytes ∨
          source.numBlocks * directorySize + headerSize ≠ header.bytes - header.directoryOffset
      then none
      else
        match (List.range source.numBlocks).foldlM
            (openBlock avx2 source header.directoryOffset) (0, true, ⟨0, 0, 0⟩) with
        | none => none
        | some state => some { source with dense := state.2.1, affine := state.2.2 }

end VersionRuns

/-- Probes in any order. The run found last and the frame decoded last are kept; the frame serves
either dense documents or the runs of one block. -/
structure Cursor where
  blockIndex : Nat
  runIndex : Nat
  first : Nat
  stop : Nat
  version : UInt64
  frameBlock : Nat
  frameStart : Int
  frameEnd : Int
  values : List Int64
  decodedFirst : Nat
  decodedEnd : Nat
deriving DecidableEq, Repr

namespace Cursor

def start : Cursor := ⟨0, 0, 0, 0, 0, 2 ^ 32 - 1, -1, -1, [], 0, 0⟩

def lookupDense (avx2 : Bool) (source : VersionRuns) (cursor : Cursor) (doc : Nat) :
    UInt64 × Cursor :=
  let cursor :=
    if doc < cursor.decodedFirst ∨ doc ≥ cursor.decodedEnd then
      let block := doc / runsPerBlock
      let frame := (source.block block).versions.decodeFrame avx2 (doc % runsPerBlock)
      let decodedFirst := block * runsPerBlock + frame.1
      { cursor with
        values := frame.2
        decodedFirst := decodedFirst
        decodedEnd := decodedFirst + frame.2.length
        frameBlock := 2 ^ 32 - 1 }
    else cursor
  ((cursor.values.getD (doc - cursor.decodedFirst) 0).toUInt64, cursor)

def lookupRun (avx2 : Bool) (source : VersionRuns) (cursor : Cursor) (doc : Nat) :
    UInt64 × Cursor :=
  let blockIndex :=
    if source.dense then min (doc / runsPerBlock) (source.numBlocks - 1)
    else
      VersionBlock.search doc cursor.blockIndex source.numBlocks fun i =>
        (source.entry i).firstDocId
  let block := source.block blockIndex
  let runIndex := block.find doc cursor.runIndex
  let stop :=
    if runIndex + 1 < block.count then block.start (runIndex + 1)
    else if blockIndex + 1 < source.numBlocks then (source.entry (blockIndex + 1)).firstDocId
    else source.maxDoc
  let cursor :=
    { cursor with
      blockIndex := blockIndex, runIndex := runIndex, first := block.start runIndex, stop := stop }
  let cursor :=
    if cursor.frameBlock ≠ blockIndex ∨ (runIndex : Int) < cursor.frameStart ∨
        (runIndex : Int) ≥ cursor.frameEnd then
      let frame := block.versions.decodeFrame avx2 runIndex
      { cursor with
        values := frame.2
        frameStart := frame.1
        frameEnd := frame.1 + frame.2.length
        frameBlock := blockIndex
        decodedEnd := 0 }
    else cursor
  let version := (cursor.values.getD ((runIndex : Int) - cursor.frameStart).toNat 0).toUInt64
  (version, { cursor with version := version })

def birth (avx2 : Bool) (source : VersionRuns) (cursor : Cursor) (docId : Int) :
    Option (UInt64 × Cursor) :=
  if docId < 0 ∨ docId ≥ source.maxDoc then none
  else
    let doc := docId.toNat
    if doc < source.affine.count then some (source.affine.birth doc, cursor)
    else if doc ≥ cursor.first ∧ doc < cursor.stop then some (cursor.version, cursor)
    else if source.dense ∧ doc < source.count then some (cursor.lookupDense avx2 source doc)
    else some (cursor.lookupRun avx2 source doc)

end Cursor

/-- All runs in order, decoded a frame at a time. -/
structure Iterator where
  index : Nat
  versions : List Int64
  starts : List Int64
deriving DecidableEq, Repr

namespace Iterator

def start : Iterator := ⟨0, [], []⟩

def next (avx2 : Bool) (source : VersionRuns) (iterator : Iterator) :
    Option (VersionRun × Iterator) :=
  if iterator.index = source.count then none
  else
    let within := iterator.index % runsPerBlock
    let frame := within % bulkSize
    let block := source.block (iterator.index / runsPerBlock)
    let iterator :=
      if frame = 0 then
        { iterator with
          versions := (block.versions.decodeFrame avx2 within).2
          starts :=
            if block.step = 0 then (block.starts.decodeFrame avx2 within).2 else iterator.starts }
      else iterator
    let firstDocId :=
      if block.step ≠ 0 then block.start within
      else (iterator.starts.getD frame 0).toUInt64.toNat % 2 ^ 32
    some (⟨firstDocId, (iterator.versions.getD frame 0).toUInt64⟩,
      { iterator with index := iterator.index + 1 })

def runs (avx2 : Bool) (source : VersionRuns) : Nat → Iterator → List VersionRun
  | 0, _ => []
  | calls + 1, iterator =>
      match iterator.next avx2 source with
      | none => []
      | some step => step.1 :: runs avx2 source calls step.2

end Iterator

end Luxir.Reader.RunReader
