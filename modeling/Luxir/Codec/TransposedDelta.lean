import Luxir.Codec.Pfor
import Mathlib.Data.BitVec
import Mathlib.Data.Fin.VecNotation
import Mathlib.Tactic.FinCases

/-!
Gaps of a block in four lanes of 32: a running sum goes down the rows of all lanes at once, and the
lanes' bases follow from the totals before them.
-/

namespace Luxir.Codec.TransposedDelta
open Pfor

abbrev lanes : Nat := 4

abbrev rowsPerLane : Nat := 32

def entry (block : Block) (i : Nat) : Word := if known : i < blockSize then block ⟨i, known⟩ else 0

/-- What a row of a lane is the gap to. -/
def prev (doc : Block) (base : Word) (j : Nat) : Nat → Word
  | 0 => if j = 0 then base else entry doc (rowsPerLane * j - 1)
  | m + 1 => entry doc (rowsPerLane * j + m)

def t4Delta (doc : Block) (base : Word) : Block := fun i =>
  let m := i.val / lanes
  let j := i.val % lanes
  entry doc (rowsPerLane * j + m) - prev doc base j m

abbrev Vec := Fin 4 → Word

def unpackLow32 (a b : Vec) : Vec := ![a 0, b 0, a 1, b 1]

def unpackHigh32 (a b : Vec) : Vec := ![a 2, b 2, a 3, b 3]

def unpackLow64 (a b : Vec) : Vec := ![a 0, a 1, b 0, b 1]

def unpackHigh64 (a b : Vec) : Vec := ![a 2, a 3, b 2, b 3]

/-- Four rows turned into the four lanes' parts. -/
def untranspose (r0 r1 r2 r3 : Vec) : Fin 4 → Vec :=
  let t0 := unpackLow32 r0 r1
  let t1 := unpackHigh32 r0 r1
  let t2 := unpackLow32 r2 r3
  let t3 := unpackHigh32 r2 r3
  ![unpackLow64 t0 t2, unpackHigh64 t0 t2, unpackLow64 t1 t3, unpackHigh64 t1 t3]

def row (p : Block) : Nat → Vec
  | 0 => fun j => 0 + entry p j
  | m + 1 => fun j => row p m j + entry p (lanes * (m + 1) + j)

def off (p : Block) (base : Word) : Nat → Word
  | 0 => base
  | j + 1 => off p base j + row p (rowsPerLane - 1) (Fin.ofNat 4 j)

def t4InverseDelta (p : Block) (base : Word) : Block := fun i =>
  let offv : Vec := fun j => off p base j
  let mb := i.val % rowsPerLane / 4 * 4
  untranspose (fun j => row p mb j + offv j) (fun j => row p (mb + 1) j + offv j)
    (fun j => row p (mb + 2) j + offv j) (fun j => row p (mb + 3) j + offv j)
    (Fin.ofNat 4 (i.val / rowsPerLane)) (Fin.ofNat 4 (i.val % 4))

namespace LuxirPFORd

/-- The base is the last entry of the block before. -/
def encodeBlock (kernels : Kernels) (input : Block) (base : Word) : Bytes :=
  encodeBlockPFor kernels (t4Delta input base)

def decodeBlock (kernels : Kernels) (stale : List Word) (inc : Bytes) (base : Word) : Block × Nat :=
  let ret := decodeBlockPFor kernels stale inc
  (t4InverseDelta ret.1 base, ret.2)

end LuxirPFORd

variable {doc : Block} {base : Word}

theorem untranspose_eq (rows : Fin 4 → Vec) (j r : Fin 4) :
    untranspose (rows 0) (rows 1) (rows 2) (rows 3) j r = rows r j := by
  fin_cases j <;> fin_cases r <;> rfl

theorem entry_delta (doc : Block) (base : Word) {m j : Nat} (row : m < 32) (lane : j < 4) :
    entry (t4Delta doc base) (lanes * m + j) =
      entry doc (rowsPerLane * j + m) - prev doc base j m := by
  have lt : lanes * m + j < blockSize := by
    show 4 * m + j < 128
    omega
  have rows : (lanes * m + j) / lanes = m := by
    show (4 * m + j) / 4 = m
    omega
  have rest : (lanes * m + j) % lanes = j := by
    show (4 * m + j) % 4 = j
    omega
  rw [entry, dif_pos lt, t4Delta]
  rw [rows, rest]

theorem row_delta {m : Nat} (bound : m < 32) (j : Fin 4) :
    row (t4Delta doc base) m j = entry doc (rowsPerLane * j + m) - prev doc base j 0 := by
  induction m with
  | zero =>
    have first := entry_delta doc base bound j.isLt
    rw [Nat.mul_zero, Nat.zero_add] at first
    show 0 + entry (t4Delta doc base) j = _
    rw [first, zero_add]
  | succ m ih =>
    show row (t4Delta doc base) m j + entry (t4Delta doc base) (lanes * (m + 1) + j) = _
    rw [ih (Nat.lt_of_succ_lt bound), entry_delta doc base bound j.isLt, add_comm]
    exact sub_add_sub_cancel _ _ _

theorem off_delta {j : Nat} (lane : j < 4) : off (t4Delta doc base) base j = prev doc base j 0 := by
  induction j with
  | zero => rfl
  | succ j ih =>
    have same : (Fin.ofNat 4 j).val = j := Nat.mod_eq_of_lt (Nat.lt_of_succ_lt lane)
    rw [off, ih (Nat.lt_of_succ_lt lane), row_delta (by decide), same, add_sub_cancel]
    show _ = if j + 1 = 0 then base else _
    rw [if_neg (Nat.succ_ne_zero j), Nat.mul_succ]
    rfl

theorem t4InverseDelta_t4Delta (doc : Block) (base : Word) :
    t4InverseDelta (t4Delta doc base) base = doc := by
  funext i
  have small : i.val < 128 := i.isLt
  have lane : (Fin.ofNat 4 (i.val / rowsPerLane)).val = i.val / 32 :=
    Nat.mod_eq_of_lt (show i.val / 32 < 4 by omega)
  have part : (Fin.ofNat 4 (i.val % 4)).val = i.val % 4 :=
    Nat.mod_eq_of_lt (show i.val % 4 < 4 by omega)
  have rows := untranspose_eq (fun r j => row (t4Delta doc base) (i.val % 32 / 4 * 4 + r.val) j +
    off (t4Delta doc base) base j) (Fin.ofNat 4 (i.val / rowsPerLane)) (Fin.ofNat 4 (i.val % 4))
  have place : i.val % 32 / 4 * 4 + i.val % 4 = i.val % 32 := by omega
  have index : rowsPerLane * (i.val / 32) + i.val % 32 = i.val := by
    show 32 * (i.val / 32) + i.val % 32 = i.val
    omega
  rw [part, place, row_delta (by omega), lane, off_delta (by omega), sub_add_cancel, index] at rows
  refine Eq.trans rows ?_
  rw [entry, dif_pos i.isLt]

end Luxir.Codec.TransposedDelta
