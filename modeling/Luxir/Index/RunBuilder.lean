import Luxir.Codec.ColumnRoundTrip
import Luxir.Reader.RunReader

/-!
The builder of request-version runs. Runs collect in an uncompressed tail; a full tail is sealed
as an encoded block. Only the last run of the tail can still be replaced, so a sealed block never
changes. The output writes the blocks, their directory and the header.
-/

namespace Luxir.Index.RunBuilder
open Lib.Bytes Codec.LinearPack Codec.ColumnRoundTrip Reader.RunList Reader.RunReader
open Codec.NumColumnFormat (NumBlockInfo)

def evenly (step : Nat) : List VersionRun → Bool
  | first :: second :: rest =>
      second.firstDocId - first.firstDocId = step && evenly step (second :: rest)
  | _ => true

def blockStep : List VersionRun → Nat
  | first :: second :: rest =>
      let step := second.firstDocId - first.firstDocId
      if evenly step (second :: rest) then step else 0
  | _ => 1

def headerBytes (versions : NumBlockInfo) (firstDocId step : Nat) : Bytes :=
  versions.toBytes ++ spell 4 firstDocId ++ spell 4 step

/-- Zeros up to a multiple of 8 that leaves room for the loads of the readers. -/
def padBlock (block : Bytes) : Bytes :=
  block ++ List.replicate ((block.length + tailPad + 7) / 8 * 8 - block.length) 0

def encode (runs : List VersionRun) : Bytes :=
  let step := blockStep runs
  let firstDocId := (runs.head?.map VersionRun.firstDocId).getD 0
  let metaSize := blockHeaderSize + if step ≠ 0 then 0 else NumBlockInfo.size
  let versions := NumBlockCodec.append (List.replicate metaSize 0)
    (runs.map fun run => run.version.toInt64) true
  -- The descriptors overwrite the zeros that kept their place.
  if step ≠ 0 then
    padBlock (headerBytes versions.2 firstDocId step ++ versions.1.drop metaSize)
  else
    let starts := NumBlockCodec.append versions.1
      (runs.map fun run => Int64.ofInt run.firstDocId) false
    padBlock (headerBytes versions.2 firstDocId step ++ starts.2.toBytes ++ starts.1.drop metaSize)

structure SealedBlock where
  data : Bytes
  firstDocId : Nat
deriving DecidableEq, Repr

structure VersionRunBuilder where
  tail : List VersionRun
  sealedBlocks : List SealedBlock
  sealedLast : VersionRun
  sealedCount : Nat
  sealedDense : Bool
  tailDense : Bool
  affine : VersionAffinePrefix
deriving DecidableEq, Repr

structure Lookup where
  block : Nat
  run : Nat
  first : Nat
  stop : Nat
  version : UInt64
deriving DecidableEq, Repr

def Lookup.start : Lookup := ⟨0, 0, 0, 0, 0⟩

namespace VersionRunBuilder

def start : VersionRunBuilder := ⟨[⟨0, 0⟩], [], ⟨0, 0⟩, 0, true, true, ⟨0, 0, 0⟩⟩

def tailFirst (builder : VersionRunBuilder) : Nat :=
  (builder.tail.head?.map VersionRun.firstDocId).getD 0

def size (builder : VersionRunBuilder) : Nat := builder.sealedCount + builder.tail.length

def sealTail (builder : VersionRunBuilder) : VersionRunBuilder :=
  let block := encode builder.tail
  { tail := []
    sealedBlocks := builder.sealedBlocks ++ [⟨block, builder.tailFirst⟩]
    sealedLast := builder.tail.getLastD builder.sealedLast
    sealedCount := builder.sealedCount + builder.tail.length
    sealedDense :=
      builder.sealedDense && (builder.tailDense && builder.tailFirst = builder.sealedCount)
    tailDense := true
    affine := builder.affine.append ⟨block, 0, builder.tail.length⟩ builder.sealedCount }

/-- Throws when the starts decrease. -/
def add (builder : VersionRunBuilder) (start : Nat) (version : UInt64) : Option VersionRunBuilder :=
  let last := builder.tail.getLastD builder.sealedLast
  if start < last.firstDocId then none
  else if start = last.firstDocId then
    -- The tail is asserted not to be empty.
    let tail := builder.tail.dropLast ++ [{ last with version := version }]
    let before := builder.tail.dropLast.getLastD builder.sealedLast
    if builder.size > 1 ∧ before.version = version then
      some { builder with tail := tail.dropLast }
    else some { builder with tail := tail }
  else if last.version ≠ version then
    let builder := if builder.tail.length = runsPerBlock then builder.sealTail else builder
    let builder := { builder with tail := builder.tail ++ [⟨start, version⟩] }
    if builder.tail.length > 1 then
      some { builder with tailDense :=
          builder.tailDense && start = builder.tailFirst + builder.tail.length - 1 }
    else some builder
  else some builder

def sealedView (builder : VersionRunBuilder) (index : Nat) : VersionBlock :=
  ⟨(builder.sealedBlocks[index]?.map SealedBlock.data).getD [], 0, runsPerBlock⟩

def sealedFirst (builder : VersionRunBuilder) (index : Nat) : Nat :=
  (builder.sealedBlocks[index]?.map SealedBlock.firstDocId).getD 0

def tailRun (builder : VersionRunBuilder) (index : Nat) : VersionRun :=
  builder.tail.getD index ⟨0, 0⟩

def lookupBirth (builder : VersionRunBuilder) (doc : Nat) (lookup : Lookup) : UInt64 × Lookup :=
  if builder.sealedDense ∧ builder.tailDense ∧
      (builder.tail = [] ∨ builder.tailFirst = builder.sealedCount) then
    if builder.tail ≠ [] ∧ doc ≥ builder.sealedCount then
      ((builder.tailRun (min (doc - builder.sealedCount) (builder.tail.length - 1))).version, lookup)
    else
      let doc := min doc (builder.sealedCount - 1)
      ((builder.sealedView (doc / runsPerBlock)).version (doc % runsPerBlock), lookup)
  else if doc ≥ lookup.first ∧ doc < lookup.stop then (lookup.version, lookup)
  else if builder.tail ≠ [] ∧ doc ≥ builder.tailFirst then
    let index :=
      if builder.tailDense then min (doc - builder.tailFirst) (builder.tail.length - 1)
      else
        VersionBlock.search doc lookup.run builder.tail.length fun i =>
          (builder.tailRun i).firstDocId
    let stop :=
      if index + 1 < builder.tail.length then (builder.tailRun (index + 1)).firstDocId
      else (doc + 1) % 2 ^ 32
    let run := builder.tailRun index
    (run.version,
      { lookup with run := index, first := run.firstDocId, stop := stop, version := run.version })
  else
    let blockIndex :=
      if builder.sealedDense then min (doc / runsPerBlock) (builder.sealedBlocks.length - 1)
      else
        VersionBlock.search doc lookup.block builder.sealedBlocks.length builder.sealedFirst
    let block := builder.sealedView blockIndex
    let index := block.find doc lookup.run
    let stop :=
      if index + 1 < block.count then block.start (index + 1)
      else if blockIndex + 1 < builder.sealedBlocks.length then builder.sealedFirst (blockIndex + 1)
      else if builder.tail ≠ [] then builder.tailFirst
      else (doc + 1) % 2 ^ 32
    (block.version index, ⟨blockIndex, index, block.start index, stop, block.version index⟩)

def birth (builder : VersionRunBuilder) (doc : Nat) (lookup : Lookup) : UInt64 × Lookup :=
  if doc < builder.affine.count then (builder.affine.birth doc, lookup)
  else builder.lookupBirth doc lookup

end VersionRunBuilder

/-- Blocks precede the directory and the header, so that they can be written as they come. -/
structure VersionRunsOutput where
  out : Bytes
  start : Nat
  directory : List VersionBlockDirectory
deriving DecidableEq, Repr

namespace VersionRunsOutput

def begin (out : Bytes) : VersionRunsOutput := ⟨align out 8, (align out 8).length, []⟩

def add (output : VersionRunsOutput) (block : Bytes) (firstDoc : Nat) : VersionRunsOutput :=
  { output with
    directory := output.directory ++ [⟨firstDoc, 0, output.out.length - output.start⟩]
    out := output.out ++ block }

def finish (output : VersionRunsOutput) (count : Nat) : Bytes × Nat :=
  if count = 0 then (output.out, 0)
  else
    let directoryOffset := output.out.length - output.start
    let out := output.out ++ output.directory.flatMap VersionBlockDirectory.toBytes
    let header : VersionRunsHeader :=
      ⟨encoding, count, directoryOffset, out.length - output.start + headerSize⟩
    (out ++ header.toBytes, out.length)

end VersionRunsOutput

/-- A last run that starts where the documents end is left out. -/
def VersionRunBuilder.finish (builder : VersionRunBuilder) (output : VersionRunsOutput)
    (maxDoc : Nat) : VersionRunsOutput × Nat :=
  let output := builder.sealedBlocks.foldl
    (fun output block => output.add block.data block.firstDocId) output
  let n :=
    if builder.tail.getLast?.map VersionRun.firstDocId = some maxDoc then builder.tail.length - 1
    else builder.tail.length
  if n ≠ 0 then
    (output.add (encode (builder.tail.take n)) builder.tailFirst, builder.sealedCount + n)
  else (output, builder.sealedCount + n)

end Luxir.Index.RunBuilder
