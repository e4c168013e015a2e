import Luxir.Screaming.SetBuilder
import Luxir.Util.BranchlessSearch
import Luxir.Util.Gallop

/-!
The readers of a screaming bitset: the iterator with its skips and ranks, and the two selects.
-/

namespace Luxir.Screaming.SetReader
open Lib.Bytes Lib.Bits SetBuilder Util.Gallop Util.BranchlessSearch

def endValue : Int := 2147483647

def maxIndex : Nat := 4294967295

structure BitSet where
  file : Bytes
  start : Nat
  descriptors : Nat
  nBuckets : Nat
deriving DecidableEq, Repr

def descriptorAt (file : Bytes) (descriptors i : Nat) : Descriptor :=
  ⟨load 2 file (descriptors + i * 8), load 2 file (descriptors + i * 8 + 2),
    load 4 file (descriptors + i * 8 + 4)⟩

def blockBytes (desc : Descriptor) : Nat :=
  let sz := desc.size + 1
  if sz ≤ bucketSparseMax then (sz * 2 + blockAlign - 1) / blockAlign * blockAlign
  else denseContainerSize

namespace BitSet

def descriptor (bitset : BitSet) (i : Nat) : Descriptor :=
  descriptorAt bitset.file bitset.descriptors i

def ofEnd (file : Bytes) (pointerToEnd : Nat) : BitSet :=
  let nBuckets := load 2 file (pointerToEnd - 2)
  let descriptors := pointerToEnd - 2 - nBuckets * 8
  if nBuckets = 0 then ⟨file, descriptors, descriptors, nBuckets⟩
  else
    let lastDescriptor := descriptorAt file descriptors (nBuckets - 1)
    let sizeOfAllBuckets := lastDescriptor.offset + blockBytes lastDescriptor
    ⟨file, descriptors - sizeOfAllBuckets, descriptors, nBuckets⟩

def bucketBase (bitset : BitSet) (i : Nat) : Nat := (bitset.descriptor i).upperBits * bucketWidth

def cardinality (bitset : BitSet) : Nat :=
  (List.range bitset.nBuckets).foldl (fun c i => c + ((bitset.descriptor i).size + 1)) 0

end BitSet

section
variable (file : Bytes) (words : Nat)

def wordAt (i : Nat) : Nat := load 8 file (words + i * 8)

def nextSetBitLoop : Nat → Nat → Nat
  | 0, _ => maxIndex
  | rounds + 1, i =>
      if i < fixedNumWords then
        if wordAt file words i ≠ 0 then i * 64 + countrZero (wordAt file words i)
        else nextSetBitLoop rounds (i + 1)
      else maxIndex

def nextSetBit (val : Nat) : Nat :=
  let wordIdx := val / 64
  let bitIdx := val % 64
  let word := wordAt file words wordIdx >>> bitIdx
  if word ≠ 0 then val + countrZero word
  else nextSetBitLoop file words fixedNumWords (wordIdx + 1)

/-- The rank index lies right behind the words. -/
def rankIndexAt (m : Nat) : Nat := load 2 file (words + bitsBytes + m * 2)

/-- Clears the lowest bits, and takes the next one. -/
def selectInWord (word : Nat) : Nat → Nat
  | 0 => countrZero word
  | r + 1 => selectInWord (word &&& (word - 1)) r

def selectLoop (localRank : Nat) : Nat → Nat → Nat → Nat × Nat
  | 0, wordIdx, rankSoFar => (wordIdx, rankSoFar)
  | rounds + 1, wordIdx, rankSoFar =>
      let pc := popcount (wordAt file words wordIdx)
      if rankSoFar + pc > localRank then (wordIdx, rankSoFar)
      else selectLoop localRank rounds (wordIdx + 1) (rankSoFar + pc)

def selectDense (localRank : Nat) : Nat :=
  let lo := upperBound (rankIndexAt file words) rankIndexEntries localRank
  let found := selectLoop file words localRank fixedNumWords ((lo - 1) * wordsPerCount)
    (rankIndexAt file words (lo - 1))
  found.1 * 64 + selectInWord (wordAt file words found.1) (localRank - found.2)

def rankDense (localIndex : Nat) : Nat :=
  let rankBase := rankIndexAt file words (localIndex / (64 * wordsPerCount))
  let wordIndex := localIndex / 64
  let first := wordIndex / wordsPerCount * wordsPerCount
  let rankBase := (List.range' first (wordIndex - first)).foldl
    (fun rankBase i => (rankBase + popcount (wordAt file words i)) % 65536) rankBase
  let bitIdx := localIndex % 64
  let bitsToTheRight := wordAt file words wordIndex &&& (1 <<< bitIdx - 1)
  (rankBase + popcount bitsToTheRight) % 65536

end

namespace BitSet

def selectInBucket (bitset : BitSet) (bi localRank : Nat) : Int :=
  let desc := bitset.descriptor bi
  let bucketBase := bitset.bucketBase bi
  let card := desc.size + 1
  let place := bitset.start + desc.offset
  if card ≤ bucketSparseMax then (bucketBase + load 2 bitset.file (place + localRank * 2) : Nat)
  else (bucketBase + selectDense bitset.file place localRank : Nat)

def selectFrom (bitset : BitSet) (k : Nat) : Nat → Nat → Nat → Int
  | 0, _, _ => endValue
  | rounds + 1, bi, cum =>
      let card := (bitset.descriptor bi).size + 1
      if k < cum + card then bitset.selectInBucket bi (k - cum)
      else bitset.selectFrom k rounds (bi + 1) (cum + card)

def select (bitset : BitSet) (k : Nat) : Int := bitset.selectFrom k bitset.nBuckets 0 0

end BitSet

/-- The prefix of cardinalities is computed once. -/
structure Selector where
  bitset : BitSet
  bucketStartRank : List Nat
deriving DecidableEq, Repr

namespace Selector

def ofSet (bitset : BitSet) : Selector :=
  ⟨bitset, (List.range bitset.nBuckets).foldl
    (fun ranks i => ranks ++ [ranks.getLastD 0 + ((bitset.descriptor i).size + 1)]) [0]⟩

def cardinality (selector : Selector) : Nat := selector.bucketStartRank.getLastD 0

def select (selector : Selector) (k : Nat) : Int :=
  let up := upperBound (fun i => selector.bucketStartRank.getD i 0) (selector.bitset.nBuckets + 1) k
  let bi := up - 1
  selector.bitset.selectInBucket bi (k - selector.bucketStartRank.getD bi 0)

end Selector

inductive Bucket where
  | sparse (values : Nat) (index : Int)
  | dense (words : Nat)
deriving DecidableEq, Repr

structure Iterator where
  curr : Int
  bucketIdx : Int
  bucketBase : Int
  bucketSize : Nat
  bucketRank : Nat
  bucket : Bucket
deriving DecidableEq, Repr

namespace Iterator

def start : Iterator := ⟨-1, -1, -1, 0, 0, .sparse 0 (-1)⟩

variable (bitset : BitSet)

/-- Only for a sparse bucket with a value left. -/
def sparseNext (it : Iterator) (values : Nat) (index : Int) : Int × Iterator :=
  let index := index + 1
  let nextInBucket := load 2 bitset.file (values + index.toNat * 2)
  let curr := it.bucketBase + nextInBucket
  (curr, { it with curr := curr, bucket := .sparse values index })

/-- Only for a dense bucket with a value left. -/
def denseNext (it : Iterator) (words : Nat) : Int × Iterator :=
  let localIndex := ((it.curr + 1) % bucketWidth).toNat
  let curr := it.bucketBase + nextSetBit bitset.file words localIndex
  (curr, { it with curr := curr })

def bucketAt (i : Nat) : Bucket :=
  let desc := bitset.descriptor i
  if desc.size + 1 ≤ bucketSparseMax then .sparse (bitset.start + desc.offset) (-1)
  else .dense (bitset.start + desc.offset)

/-- Points the iterator before the first value of a bucket. -/
def bucketSetup (it : Iterator) (i : Nat) : Iterator :=
  let it := { it with
    bucketIdx := i
    bucketBase := bitset.bucketBase i
    bucketSize := (bitset.descriptor i).size + 1
    bucket := bucketAt bitset i }
  match it.bucket with
  | .sparse _ _ => it
  | .dense _ => { it with curr := it.bucketBase - 1 }

def nextBucket (it : Iterator) : Int × Iterator :=
  if it.bucketIdx + 1 ≥ bitset.nBuckets then (endValue, { it with curr := endValue })
  else
    let it := { it with bucketRank := it.bucketRank + it.bucketSize }
    let it := it.bucketSetup bitset (it.bucketIdx + 1).toNat
    match it.bucket with
    | .sparse values index => it.sparseNext bitset values index
    | .dense words => it.denseNext bitset words

def denseNextMaybe (it : Iterator) (words : Nat) : Int × Iterator :=
  let next := it.curr + 1
  if next < it.bucketBase + bucketWidth then
    let localFound := nextSetBit bitset.file words (next % bucketWidth).toNat
    if localFound ≠ maxIndex then
      (it.bucketBase + localFound, { it with curr := it.bucketBase + localFound })
    else it.nextBucket bitset
  else it.nextBucket bitset

def next (it : Iterator) : Int × Iterator :=
  match it.bucket with
  | .sparse values index =>
      if index + 1 ≥ it.bucketSize then it.nextBucket bitset
      else it.sparseNext bitset values index
  | .dense words => it.denseNextMaybe bitset words

/-- The loop over the following descriptors; the counts go on even when it finds none. -/
def advanceBucket (it : Iterator) (upperBits : Nat) : Nat → Nat → Bool × Iterator
  | 0, _ => (false, it)
  | rounds + 1, i =>
      if i < bitset.nBuckets then
        let it := { it with
          bucketRank := it.bucketRank + it.bucketSize
          bucketSize := (bitset.descriptor i).size + 1 }
        if (bitset.descriptor i).upperBits ≥ upperBits then (true, it.bucketSetup bitset i)
        else it.advanceBucket upperBits rounds (i + 1)
      else (false, it)

/-- The rest of a skip, within the bucket of the target. -/
def advanceWithin (it : Iterator) (target : Nat) : Int × Iterator :=
  match it.bucket with
  | .sparse values index =>
      let lowerIdx := (index + 1).toNat
      let count := it.bucketSize - lowerIdx
      let lowerBound := gallopLowerBoundArray count (target % bucketWidth)
        fun i => load 2 bitset.file (values + (lowerIdx + i) * 2)
      if lowerBound = count then it.nextBucket bitset
      else it.sparseNext bitset values ((lowerIdx + lowerBound : Nat) - 1)
  | .dense words => { it with curr := (target : Int) - 1 }.denseNextMaybe bitset words

/-- The target is asserted to lie behind the current value. -/
def advance (it : Iterator) (target : Nat) : Int × Iterator :=
  let targetBase := target / bucketWidth * bucketWidth
  if (targetBase : Int) ≠ it.bucketBase then
    let advanced := it.advanceBucket bitset (target / bucketWidth) bitset.nBuckets
      (it.bucketIdx + 1).toNat
    if !advanced.1 then (endValue, advanced.2)
    else if advanced.2.bucketBase > targetBase then advanced.2.next bitset
    else advanced.2.advanceWithin bitset target
  else it.advanceWithin bitset target

def rank (it : Iterator) : Int :=
  match it.bucket with
  | .sparse _ index => it.bucketRank + index
  | .dense words => it.bucketRank + rankDense bitset.file words (it.curr % bucketWidth).toNat

end Iterator

end Luxir.Screaming.SetReader
