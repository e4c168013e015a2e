import Luxir.Index.TrieFrontier
import Luxir.Lib.Bits

/-!
The reader of the separator trie. One descent finds the block that may contain a target: the last
separator at or before it, counted from the implicit empty one.
-/

namespace Luxir.Reader.TrieLookup
open Lib.Bytes Lib.Bits Index.TrieFrontier

structure Child where
  pos : Nat
  label : UInt8
  found : Bool
  hasNext : Bool
deriving DecidableEq, Repr

def Child.none : Child := ⟨0, 0, false, false⟩

section
variable (file : Bytes)

def byteAt (place : Nat) : UInt8 := file.getD place 0

def readLE (place width : Nat) : Nat := load 8 file place &&& maskBits (width * 8)

/-- Bits behind the bitmap belong to the child entries and are masked out. -/
def loadBitmapWord (bitmap strategySize byteOffset : Nat) : Nat :=
  let validBits :=
    if byteOffset ≥ strategySize then 0 else min 64 ((strategySize - byteOffset) * 8)
  load 8 file (bitmap + byteOffset) &&& maskBits validBits

/-- The loop over whole words, and the rest of the last one. -/
def countBitsBelow (bitmap strategySize : Nat) : Nat → Nat → Nat → Nat
  | 0, _, _ => 0
  | rounds + 1, byteOffset, bit =>
      let word := loadBitmapWord file bitmap strategySize byteOffset
      if bit ≥ 64 then
        popcount word + countBitsBelow bitmap strategySize rounds (byteOffset + 8) (bit - 64)
      else popcount (word &&& maskBits bit)

def anyBitsLoop (bitmap strategySize : Nat) : Nat → Nat → Nat → Bool
  | 0, _, _ => false
  | rounds + 1, byteOffset, bitInWord =>
      if byteOffset < strategySize then
        let word := loadBitmapWord file bitmap strategySize byteOffset
        let word := if bitInWord ≠ 0 then word &&& complement (maskBits bitInWord) else word
        if word ≠ 0 then true else anyBitsLoop bitmap strategySize rounds (byteOffset + 8) 0
      else false

def anyBitsAbove (bitmap strategySize bit : Nat) : Bool :=
  let totalBits := strategySize * 8
  if bit + 1 ≥ totalBits then false
  else
    let next := bit + 1
    anyBitsLoop file bitmap strategySize strategySize (next / 64 * 8) (next % 64)

def dw (header : UInt8) : Nat := ((header >>> 3) &&& 7).toNat + 1

def strategySize (node : Nat) : Nat := (byteAt file (node + 2)).toNat + 1

def entryBase (node : Nat) (header : UInt8) : Nat :=
  if header &&& 3 = signSingle then node + 2 else node + 3 + strategySize file node

def childDelta (node : Nat) (header : UInt8) (pos : Nat) : Nat :=
  readLE file (entryBase file node header + pos * (dw header + ordWidth)) (dw header)

def childLo (node : Nat) (header : UInt8) (pos : Nat) : Nat :=
  readLE file (entryBase file node header + pos * (dw header + ordWidth) + dw header) ordWidth

def ceilBitsLoop (node : Nat) (minLabel : UInt8) : Nat → Nat → Nat → Nat → Child
  | 0, _, _, _ => Child.none
  | rounds + 1, byteOffset, wordStartBit, bitInWord =>
      let size := strategySize file node
      let bitmap := node + 3
      if byteOffset < size then
        let word := loadBitmapWord file bitmap size byteOffset &&& complement (maskBits bitInWord)
        if word ≠ 0 then
          let foundIdx := wordStartBit + countrZero word
          ⟨countBitsBelow file bitmap size (foundIdx + 1) 0 foundIdx, UInt8.ofNat (minLabel.toNat +
            foundIdx), true, anyBitsAbove file bitmap size foundIdx⟩
        else ceilBitsLoop node minLabel rounds (byteOffset + 8) (wordStartBit + 64) 0
      else Child.none

def ceilBits (node : Nat) (minLabel b : UInt8) : Child :=
  let size := strategySize file node
  let idx := b.toNat - minLabel.toNat
  let totalBits := size * 8
  if idx ≥ totalBits then Child.none
  else
    let byteOffset := idx / 64 * 8
    let wordStartBit := byteOffset * 8
    ceilBitsLoop file node minLabel size byteOffset wordStartBit (idx - wordStartBit)

/-- The first place in a sorted stretch whose byte is not below the one looked for. -/
def byteLowerBound (bytes : Nat) (b : UInt8) : Nat → Nat → Nat → Nat
  | 0, lo, _ => lo
  | rounds + 1, lo, hi =>
      if lo < hi then
        let mid := (lo + hi) / 2
        if byteAt file (bytes + mid) < b then byteLowerBound bytes b rounds (mid + 1) hi
        else byteLowerBound bytes b rounds lo mid
      else lo

def ceilArray (node : Nat) (b : UInt8) : Child :=
  let size := strategySize file node
  let labels := node + 3
  let lo := byteLowerBound file labels b size 0 size
  if lo = size then Child.none
  else ⟨lo + 1, byteAt file (labels + lo), true, lo + 1 < size⟩

def skipAbsent (absents absentCount : Nat) : Nat → Nat → Nat → Nat × Nat
  | 0, c, absentIdx => (c, absentIdx)
  | rounds + 1, c, absentIdx =>
      if absentIdx < absentCount ∧ (byteAt file (absents + absentIdx)).toNat = c then
        skipAbsent absents absentCount rounds (c + 1) (absentIdx + 1)
      else (c, absentIdx)

def ceilReverseArray (node : Nat) (minLabel b : UInt8) : Child :=
  let size := strategySize file node
  let strategy := node + 3
  let maxLabel := byteAt file strategy
  if b > maxLabel then Child.none
  else
    let absents := strategy + 1
    let absentCount := size - 1
    let lo := byteLowerBound file absents b absentCount 0 absentCount
    let walked := skipAbsent file absents absentCount absentCount b.toNat lo
    ⟨walked.1 - minLabel.toNat - walked.2, UInt8.ofNat walked.1, true, walked.1 < maxLabel.toNat⟩

def ceilChild (node : Nat) (header b : UInt8) : Child :=
  let sign := header &&& 3
  if sign = signLeaf then Child.none
  else if sign = signSingle then
    let label := byteAt file (node + 1)
    if label < b then Child.none else ⟨0, label, true, false⟩
  else
    let minLabel := byteAt file (node + 1)
    if b ≤ minLabel then ⟨0, minLabel, true, true⟩
    else
      let strategy := header >>> 6
      if strategy = strategyBits then ceilBits file node minLabel b
      else if strategy = strategyArray then ceilArray file node b
      else ceilReverseArray file node minLabel b

end

structure TrieReader where
  file : Bytes
  base : Nat
  rootOff : Nat
  nBlocks : Nat
deriving DecidableEq, Repr

namespace TrieReader

def descend (reader : TrieReader) : Key → Nat → Nat → Bool → Int → Int
  | [], _, nodeLo, nodeTerminal, _ => if nodeTerminal then nodeLo else (nodeLo : Int) - 1
  | b :: target, nodeFp, _, _, rememberedFloor =>
      let node := reader.base + nodeFp
      let header := byteAt reader.file node
      let child := ceilChild reader.file node header b
      if !child.found then rememberedFloor
      else if child.label > b then (childLo reader.file node header child.pos : Int) - 1
      else
        let rememberedFloor :=
          if child.hasNext then (childLo reader.file node header (child.pos + 1) : Int) - 1
          else rememberedFloor
        let lo := childLo reader.file node header child.pos
        let delta := childDelta reader.file node header child.pos
        let nodeFp := nodeFp - delta
        let nodeTerminal := byteAt reader.file (reader.base + nodeFp) &&& terminalBit ≠ 0
        reader.descend target nodeFp lo nodeTerminal rememberedFloor

def floorBlock (reader : TrieReader) (target : Key) : Int :=
  reader.descend target reader.rootOff 0 true (reader.nBlocks - 1)

end TrieReader

end Luxir.Reader.TrieLookup
