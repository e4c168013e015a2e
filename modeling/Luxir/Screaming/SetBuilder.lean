import Luxir.Lib.Bits

/-!
The builder of a screaming bitset. Values that share their upper sixteen bits form a bucket: a
sorted list of sixteen-bit values while it is sparse, a bitmap with a rank index otherwise. The
descriptors of the buckets wait in scratch buffers until the end.
-/

namespace Luxir.Screaming.SetBuilder
open Lib.Bytes Lib.Bits

/-- The values of one bucket share their upper bits. -/
def bucketWidth : Nat := 65536
def bucketSparseMax : Nat := 4096
def blockAlign : Nat := 8
def fixedNumWords : Nat := 1024
def bitsBytes : Nat := 8192
def wordsPerCount : Nat := 8
def rankIndexEntries : Nat := 128
def denseContainerSize : Nat := 8448

structure Descriptor where
  upperBits : Nat
  size : Nat
  offset : Nat
deriving DecidableEq, Repr

def Descriptor.bytes (desc : Descriptor) : Bytes :=
  spell 2 desc.upperBits ++ spell 2 desc.size ++ spell 4 desc.offset

/-- The words of a bitmap lie in memory as one number. -/
def setBit (bits val : Nat) : Nat := bits ||| 1 <<< val

def word (bits index : Nat) : Nat := field bits (index * 64) 64

/-- The count of a mini-block of words. -/
def miniBlock (bits block : Nat) : Nat :=
  (List.range' (block * wordsPerCount) wordsPerCount).foldl
    (fun rank j => rank + popcount (word bits j)) 0

/-- The cumulative counts before each mini-block; the last one is not counted. -/
def rankIndex (bits : Nat) : List Nat :=
  ((List.range (rankIndexEntries - 1)).foldl (fun state block =>
      let cumulativeRank := (state.1 + miniBlock bits block) % 65536
      (cumulativeRank, state.2 ++ [cumulativeRank]))
    (0, [0])).2

def pad (writeSize : Nat) : Nat := (blockAlign - writeSize % blockAlign) % blockAlign

/-- The buffers of the source, and the bytes written so far. Descriptors go to the end of the last
scratch buffer, the ones before it are full. -/
structure Builder where
  values : Nat → Nat
  bits : Nat
  totalCard : Nat
  currBucket : Nat
  bucketSize : Nat
  numBuckets : Nat
  bucketStart : Nat
  linked : List (List Descriptor)
  scratch : List Descriptor
  out : Bytes

namespace Builder

def start : Builder := ⟨fun _ => 0, 0, 0, 0, 0, 0, 0, [], [], []⟩

/-- A scratch buffer ends in the link to the next one. -/
def maxDescriptors (scratchSize : Nat) : Nat := (scratchSize - 8) / 8

def sparseBytes (values : Nat → Nat) (bucketSize : Nat) : Bytes :=
  (List.range bucketSize).flatMap fun i => spell 2 (values i)

/-- The bitmap of a dense bucket: the values buffered before it became dense are filled in. -/
def denseBits (values : Nat → Nat) (bits : Nat) : Nat :=
  (List.range bucketSparseMax).foldl (fun bits i => setBit bits (values i)) bits

def addDescriptor (scratchSize : Nat) (builder : Builder) (desc : Descriptor) : Builder :=
  if builder.scratch.length ≥ maxDescriptors scratchSize then
    { builder with linked := builder.linked ++ [builder.scratch], scratch := [desc] }
  else { builder with scratch := builder.scratch ++ [desc] }

def write (builder : Builder) (bytes : Bytes) : Builder :=
  { builder with out := builder.out ++ bytes }

/-- The container of the current bucket: the bitmap it leaves behind, the bytes it writes and
their number. -/
def container (builder : Builder) : Nat × Bytes × Nat :=
  if builder.bucketSize ≤ bucketSparseMax then
    let writeSize := builder.bucketSize * 2
    (builder.bits, sparseBytes builder.values builder.bucketSize ++ List.replicate (pad writeSize)
      0, writeSize + pad writeSize)
  else
    let bits := denseBits builder.values builder.bits
    (bits, spell bitsBytes bits ++ (rankIndex bits).flatMap (spell 2), denseContainerSize)

def flushBucket (scratchSize : Nat) (builder : Builder) : Builder :=
  if builder.bucketSize = 0 then builder
  else
    let desc : Descriptor := ⟨builder.currBucket % 65536, (builder.bucketSize - 1) % 65536,
      builder.bucketStart⟩
    let container := builder.container
    { (builder.addDescriptor scratchSize desc).write container.2.1 with
      bits := container.1
      numBuckets := builder.numBuckets + 1
      bucketStart := (builder.bucketStart + container.2.2) % 2 ^ 32
      bucketSize := 0 }

/-- Enters a value into the current bucket; the bitmap is started when the list is full. -/
def put (builder : Builder) (lowerBits : Nat) : Builder :=
  let builder :=
    if builder.bucketSize ≥ bucketSparseMax then
      let bits := if builder.bucketSize = bucketSparseMax then 0 else builder.bits
      { builder with bits := setBit bits lowerBits }
    else { builder with values := Function.update builder.values builder.bucketSize lowerBits }
  { builder with bucketSize := builder.bucketSize + 1, totalCard := builder.totalCard + 1 }

def add (scratchSize : Nat) (builder : Builder) (val : Nat) : Builder :=
  let bucket := val / bucketWidth
  let builder :=
    if bucket ≠ builder.currBucket then
      { builder.flushBucket scratchSize with currBucket := bucket, bucketSize := 0 }
    else builder
  builder.put (val % bucketWidth)

/-- The loop over the scratch buffers, from the first one along the links. -/
def descriptorBytes (maxDescriptors numBuckets : Nat) : List (List Descriptor) → Nat → Bytes
  | [], _ => []
  | buffer :: links, nDescriptors =>
      if nDescriptors < numBuckets then
        (buffer.take (min maxDescriptors (numBuckets - nDescriptors))).flatMap Descriptor.bytes ++
          descriptorBytes maxDescriptors numBuckets links (nDescriptors + maxDescriptors)
      else []

def flush (scratchSize : Nat) (builder : Builder) : Builder :=
  let builder := builder.flushBucket scratchSize
  let builder := builder.write (descriptorBytes (maxDescriptors scratchSize) builder.numBuckets
    (builder.linked ++ [builder.scratch]) 0)
  builder.write (spell 2 builder.numBuckets)

def cardinality (builder : Builder) : Nat := builder.totalCard % 2 ^ 32

def build (scratchSize : Nat) (sequence : List Nat) : Builder :=
  (sequence.foldl (add scratchSize) start).flush scratchSize

end Builder

end Luxir.Screaming.SetBuilder
