import Luxir.Lib.Bytes
import Luxir.Lib.Words
import Mathlib.Data.List.FinRange

/-!
The codec of postings: a block of 128 words is packed with one width, and the few words that are
wider are patched. The packing kernels are a library's, and a parameter here.
-/

namespace Luxir.Codec.Pfor
open Lib.Bytes Lib.Words List

abbrev Word := BitVec 32

abbrev blockSize : Nat := 128

abbrev Block := Fin blockSize → Word

/-- The kernels of the packing library. A kernel that unpacks is given the stream from its place
on. -/
structure Kernels where
  simdpack : Nat → Block → List Word
  simdunpack : Nat → List Word → Block
  usimdpackwithoutmask : Nat → Block → List Word
  usimdunpack : Nat → List Word → Block
  fastpackwithoutmask : Nat → (Fin 32 → Word) → List Word
  fastunpack : Nat → List Word → Fin 32 → Word
  gccbits : Word → Nat

section
variable (kernels : Kernels)

/-- A group of a lane; what lies behind its values is filled with zeros. -/
def group (size : Nat) (values : List Word) (j : Nat) : Fin size → Word :=
  fun i => values.getD (j + i) 0

/-- The values of a lane have `lane + 1` bits. The last group is packed in full, and the words that
hold only its padding are taken back. -/
def writeLane (lane : Nat) (values : List Word) : List Word :=
  let whole := values.length / 128
  let simd := (range whole).flatMap fun g =>
    kernels.usimdpackwithoutmask (lane + 1) (group 128 values (128 * g))
  let groups := (values.length - 128 * whole + 31) / 32
  let scalar := (range groups).flatMap fun g =>
    kernels.fastpackwithoutmask (lane + 1) (group 32 values (128 * whole + 32 * g))
  let j := 128 * whole + 32 * groups
  let out := simd ++ scalar
  out.take (out.length - (j - values.length) * (lane + 1) / 32)

/-- Returns the values and the number of words behind them. The last group is unpacked from a buffer
of the stack, behind whose words stale ones remain. -/
def readLane (stale stream : List Word) (lane count : Nat) : List Word × Nat :=
  let whole := count / 128
  let simd := (range whole).flatMap fun g =>
    ofFn (kernels.usimdunpack (lane + 1) (stream.drop (4 * (lane + 1) * g)))
  let j := 128 * whole
  let place := 4 * (lane + 1) * whole
  let full := (count - j) / 32
  let scalar := (range full).flatMap fun g =>
    ofFn (kernels.fastunpack (lane + 1) (stream.drop (place + (lane + 1) * g)))
  let j := j + 32 * full
  let place := place + (lane + 1) * full
  let remaining := count - j
  let buffer := (stream.drop place).take ((remaining * (lane + 1) + 31) / 32) ++ stale
  let place := place + ((count + 31) / 32 * 32 - j) / 32 * (lane + 1)
  let groups := (count - j + 31) / 32
  let last := (range groups).flatMap fun g =>
    ofFn (kernels.fastunpack (lane + 1) (buffer.drop ((lane + 1) * g)))
  let j := j + 32 * groups
  ((simd ++ scalar ++ last).take count, place - (j - count) * (lane + 1) / 32)

end

structure Best where
  bestb : Nat
  bestcexcept : Nat
  bestcost : Nat
deriving DecidableEq, Repr

def freqs (gccbits : Word → Nat) (input : Block) (k : Nat) : Nat :=
  (finRange blockSize).countP fun i => gccbits (input i) = k

def topWidth (freqs : Nat → Nat) : Nat → Nat
  | 0 => 0
  | k + 1 => if freqs (k + 1) = 0 then topWidth freqs k else k + 1

def cost (maxb b cexcept : Nat) : Nat :=
  let thiscost := cexcept * 8 + cexcept * (maxb - b) + b * blockSize + 8
  if maxb - b = 1 then thiscost - cexcept else thiscost

/-- Tries the widths below `b`, from the widest on. -/
def narrow (freqs : Nat → Nat) (maxb : Nat) : Nat → Nat → Best → Best
  | 0, _, best => best
  | b + 1, cexcept, best =>
      let cexcept := cexcept + freqs (b + 1)
      let thiscost := cost maxb b cexcept
      narrow freqs maxb b cexcept
        (if thiscost < best.bestcost then ⟨b, cexcept, thiscost⟩ else best)

def maxWidth (gccbits : Word → Nat) (input : Block) : Nat := topWidth (freqs gccbits input) 32

def getBestBFromData (gccbits : Word → Nat) (input : Block) : Best :=
  let maxb := maxWidth gccbits input
  narrow (freqs gccbits input) maxb maxb 0 ⟨maxb, 0, maxb * blockSize⟩

def exceptions (input : Block) (bestb : Nat) : List (Fin blockSize) :=
  (finRange blockSize).filter fun k => (1 : Word) <<< bestb ≤ input k

def residuals (input : Block) (bestb : Nat) : List Word :=
  (exceptions input bestb).map fun k => input k >>> bestb

def wordBytes (words : List Word) : Bytes := words.flatMap fun word => spell 4 word.toNat

def padded (bytes : Bytes) : Bytes :=
  bytes ++ replicate ((bytes.length + 3) / 4 * 4 - bytes.length) 0

def header (gccbits : Word → Nat) (input : Block) (best : Best) : Bytes :=
  UInt8.ofNat best.bestb :: UInt8.ofNat best.bestcexcept ::
    if best.bestcexcept > 0 then
      UInt8.ofNat (maxWidth gccbits input) ::
        (exceptions input best.bestb).map fun k => UInt8.ofNat k.val
    else []

/-- A residual of width one is not stored. -/
def encodeBlockPFor (kernels : Kernels) (input : Block) : Bytes :=
  let best := getBestBFromData kernels.gccbits input
  let width := maxWidth kernels.gccbits input - best.bestb
  let lane :=
    if best.bestcexcept > 0 ∧ width > 1 then
      writeLane kernels (width - 1) (residuals input best.bestb)
    else []
  padded (header kernels.gccbits input best) ++ wordBytes (kernels.simdpack best.bestb input ++ lane)

def byteAt (bytes : Bytes) (i : Nat) : Nat := load 1 bytes i

def wordsFrom (bytes : Bytes) (place : Nat) : List Word :=
  (range (bytes.length / 4 - place)).map fun i =>
    BitVec.ofNat 32 (load 4 bytes (4 * (place + i)))

def patch (out : Block) (position : Nat) (value : Word) : Block :=
  fun i => if i.val = position then out i ||| value else out i

def headerWords (cexcept : Nat) : Nat := ((if cexcept > 0 then 3 + cexcept else 2) + 3) / 4

def decodeBlockPFor (kernels : Kernels) (stale : List Word) (inc : Bytes) : Block × Nat :=
  let bestb := byteAt inc 0
  let cexcept := byteAt inc 1
  let place := headerWords cexcept
  let out := kernels.simdunpack bestb (wordsFrom inc place)
  let place := place + 4 * bestb
  if cexcept > 0 then
    let width := byteAt inc 2 - bestb
    if width = 1 then
      ((range cexcept).foldl
        (fun out k => patch out (byteAt inc (3 + k)) ((1 : Word) <<< bestb)) out, 4 * place)
    else
      let vals := readLane kernels stale (wordsFrom inc place) (width - 1) cexcept
      ((range cexcept).foldl (fun out k => patch out (byteAt inc (3 + k)) (vals.1.getD k 0 <<<
        bestb)) out, 4 * (place + vals.2))
  else (out, 4 * place)

def skipBlockPFor (inc : Bytes) : Nat :=
  let bestb := byteAt inc 0
  let cexcept := byteAt inc 1
  let place := headerWords cexcept + 4 * bestb
  let width := byteAt inc 2 - bestb
  if cexcept > 0 ∧ width > 1 then
    let k := width - 1
    let whole := cexcept / 128
    let j := 128 * whole
    let place := place + 4 * (k + 1) * whole
    let full := (cexcept - j) / 32
    let j := j + 32 * full
    let place := place + (k + 1) * full
    let jPadded := (cexcept + 31) / 32 * 32
    let place := place + (jPadded - j) / 32 * (k + 1)
    4 * (place - (jPadded - cexcept) * (k + 1) / 32)
  else 4 * place

namespace LuxirPFOR

def encodeBlock (kernels : Kernels) (input : Block) : Bytes := encodeBlockPFor kernels input

def decodeBlock (kernels : Kernels) (stale : List Word) (inc : Bytes) : Block × Nat :=
  decodeBlockPFor kernels stale inc

def skipBlock (inc : Bytes) : Nat := skipBlockPFor inc

end LuxirPFOR

end Luxir.Codec.Pfor
