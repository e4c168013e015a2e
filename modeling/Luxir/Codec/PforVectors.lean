import Luxir.Codec.PforRoundTrip
import Luxir.Lib.Folds

/-!
The vector build of the encoder. It finds the widths of words by converting them to floating point
numbers, and compares unsigned words with signed comparisons. It makes the same choices as the
scalar build.
-/

namespace Luxir.Codec.PforVectors
open Lib.Folds Lib.Words Pfor PforLane PforRoundTrip List Nat

def signBit : Word := 0x80000000

def above (first second : Word) : Bool := (second ^^^ signBit).slt (first ^^^ signBit)

/-- The binary exponent of a magnitude after its conversion to 24 bits, which rounds to the nearest,
and to even in a tie. -/
def rounded (magnitude : Nat) : Nat :=
  let shift := magnitude.log2 - 23
  let mantissa := magnitude / 2 ^ shift
  let rest := magnitude % 2 ^ shift
  let up := 2 ^ shift < 2 * rest ∨ (2 * rest = 2 ^ shift ∧ mantissa % 2 = 1)
  if 23 < magnitude.log2 ∧ up ∧ mantissa + 1 = 2 ^ 24 then magnitude.log2 + 1 else magnitude.log2

/-- The exponent bits of a signed integer as a floating point number. -/
def exponentBits (value : Word) : Nat :=
  if value = 0 then 0 else 127 + rounded value.toInt.natAbs

def sllv (count : Int) : Word := if 0 ≤ count then (1 : Word) <<< count.toNat else 0

/-- Rounding may have reached the next power of two, which the comparison takes back. -/
def vectorWidth (value : Word) : Nat :=
  let highBit := value.slt 0
  let exponent : Int := exponentBits value - 127
  let width := exponent + 1
  let width := if above (sllv exponent) value then width - 1 else width
  let width := min width 32
  let width := if value = 0 then 0 else width
  (if highBit then 32 else width).toNat

/-- The word whose width a byte of the packed vectors holds. Packing takes each half of the four
rows in turn. -/
def packedFrom (byte : Fin 128) : Fin 128 :=
  ⟨byte / 32 * 32 + byte % 16 / 4 * 8 + byte % 32 / 16 * 4 + byte % 4, by omega⟩

def widths (input : Block) : List Nat :=
  (finRange blockSize).map fun byte => vectorWidth (input (packedFrom byte))

def vectorNarrow (widths : List Nat) (maxb : Nat) : Nat → Best → Best
  | 0, best => best
  | b + 1, best =>
      let cexcept := widths.countP (b < ·)
      let thiscost := cost maxb b cexcept
      vectorNarrow widths maxb b (if thiscost < best.bestcost then ⟨b, cexcept, thiscost⟩ else best)

def vectorMaxWidth (input : Block) : Nat := (widths input).foldl max 0

def vectorBest (input : Block) : Best :=
  let maxb := vectorMaxWidth input
  vectorNarrow (widths input) maxb maxb ⟨maxb, 0, maxb * blockSize⟩

def position (row : Fin 16) (lane : Fin 8) : Fin 128 := ⟨8 * row + lane, by omega⟩

/-- Eight words at a time, and of these the lanes of the mask from the lowest on. -/
def vectorExceptions (input : Block) (bestb : Nat) : List (Fin blockSize) :=
  (finRange 16).flatMap fun row =>
    ((finRange 8).map (position row)).filter fun k => above (input k) ((1 : Word) <<< bestb - 1)

def vectorResiduals (input : Block) (bestb : Nat) : List Word :=
  (vectorExceptions input bestb).map fun k => input k >>> bestb

theorem toNat_flip (word : Word) : (word ^^^ signBit).toNat = (2 ^ 31 + word.toNat) % 2 ^ 32 := by
  apply Nat.eq_of_testBit_eq
  intro i
  have sign : signBit.toNat = 2 ^ 31 := rfl
  rw [BitVec.toNat_xor, sign, Nat.testBit_xor, Nat.testBit_two_pow, Nat.testBit_mod_two_pow]
  rcases Nat.lt_trichotomy i 31 with below | rfl | beyond
  · rw [Nat.testBit_two_pow_add_gt below]
    simp [show 31 ≠ i by omega, show i < 32 by omega]
  · rw [Nat.testBit_two_pow_add_eq]
    simp
  · have beyond : word.toNat.testBit i = false :=
      Nat.testBit_lt_two_pow (word.isLt.trans_le (Nat.pow_le_pow_right (by omega) (by omega)))
    simp [beyond, show 31 ≠ i by omega, show ¬i < 32 by omega]

theorem above_iff (first second : Word) : above first second = true ↔ second < first := by
  rw [above, BitVec.slt_iff_toInt_lt, BitVec.toInt_eq_toNat_cond, BitVec.toInt_eq_toNat_cond,
    toNat_flip, toNat_flip, BitVec.lt_def]
  omega

theorem rounded_cases (value : Nat) :
    rounded value = value.log2 ∨ rounded value = value.log2 + 1 := by
  unfold rounded
  dsimp only
  split_ifs
  · exact .inr rfl
  · exact .inl rfl

theorem toNat_sllv {count : Nat} (bound : count < 32) : (sllv count).toNat = 2 ^ count := by
  rw [sllv, if_pos (Int.natCast_nonneg count), Int.toNat_natCast, toNat_one_shiftLeft bound]

theorem vectorWidth_eq (value : Word) : vectorWidth value = bitWidth value.toNat := by
  have fits := value.isLt
  have signed := value.toInt_eq_toNat_cond
  have high : value.slt 0 = true ↔ 2 ^ 31 ≤ value.toNat := by
    rw [BitVec.slt_iff_toInt_lt, signed]
    show _ < (0 : Int) ↔ _
    omega
  unfold vectorWidth bitWidth exponentBits
  dsimp only
  by_cases zero : value = 0
  · rw [zero]
    rfl
  have pos : value.toNat ≠ 0 := fun vanishes => zero (BitVec.eq_of_toNat_eq vanishes)
  rw [if_neg zero, if_neg pos, if_neg zero]
  by_cases sign : value.slt 0 = true
  · have lower := (le_log2 pos).mpr (high.mp sign)
    have upper := (log2_lt pos).mpr fits
    rw [if_pos sign]
    omega
  · have small : value.toNat < 2 ^ 31 := not_le.mp (mt high.mpr sign)
    have same : value.toInt.natAbs = value.toNat := by omega
    have most := (log2_lt pos).mpr small
    have low := log2_self_le pos
    have next : value.toNat < 2 ^ (value.toNat.log2 + 1) := lt_log2_self
    have unbiased (count : Nat) : ((127 + count : Nat) : Int) - 127 = count := by omega
    rw [if_neg sign, same, unbiased]
    rcases rounded_cases value.toNat with exact | raised
    · have below : ¬above (sllv value.toNat.log2) value = true := by
        rw [above_iff, BitVec.lt_def, toNat_sllv (by omega)]
        exact not_lt.mpr low
      rw [exact, if_neg below]
      omega
    · have beyond : above (sllv (value.toNat.log2 + 1 : Nat)) value = true := by
        rw [above_iff, BitVec.lt_def, toNat_sllv (by omega)]
        exact next
      rw [raised, if_pos beyond]
      omega

variable (input : Block)

theorem packed_all : (finRange blockSize).map packedFrom ~ finRange blockSize := by
  decide +kernel

theorem widths_perm : widths input ~ (finRange blockSize).map fun i => bitWidth (input i).toNat := by
  have permuted := packed_all.map fun i => bitWidth (input i).toNat
  rw [map_map] at permuted
  unfold widths
  simp only [vectorWidth_eq]
  exact permuted

theorem topWidth_occurs (freqs : Nat → Nat) (k : Nat) :
    topWidth freqs k = 0 ∨ freqs (topWidth freqs k) ≠ 0 := by
  induction k with
  | zero => exact .inl rfl
  | succ k ih =>
    unfold topWidth
    split_ifs with unused
    · exact ih
    · exact .inr unused

theorem vectorMaxWidth_eq : vectorMaxWidth input = maxWidth widthOf input := by
  have mem (width : Nat) : width ∈ widths input ↔ ∃ i, bitWidth (input i).toNat = width := by
    rw [(widths_perm input).mem_iff]
    simp
  apply le_antisymm
  · refine foldl_max_le id (widths input) 0 (zero_le _) fun width found => ?_
    obtain ⟨i, rfl⟩ := (mem width).mp found
    exact width_le input i
  rcases topWidth_occurs (freqs widthOf input) 32 with zero | occurs
  · exact (le_of_eq zero).trans (zero_le _)
  unfold freqs at occurs
  rw [← pos_iff_ne_zero, countP_pos_iff] at occurs
  obtain ⟨i, _, same⟩ := occurs
  exact (le_foldl_max id (widths input) 0).2 _ ((mem _).mpr ⟨i, decide_eq_true_eq.mp same⟩)

theorem vectorNarrow_eq (maxb b : Nat) (best : Best) : vectorNarrow (widths input) maxb b best =
    narrow (freqs widthOf input) maxb b (wider input b) best := by
  induction b generalizing best with
  | zero => rfl
  | succ b ih =>
    unfold vectorNarrow narrow
    rw [← wider_succ, (widths_perm input).countP_eq, countP_map]
    exact ih _

theorem vectorBest_eq : vectorBest input = getBestBFromData widthOf input := by
  have nowhere : wider input (widest input) = 0 := wider_eq_zero.mpr (width_le input)
  unfold vectorBest getBestBFromData
  rw [vectorMaxWidth_eq, vectorNarrow_eq, nowhere]

theorem rows_all : ((finRange 16).flatMap fun row => (finRange 8).map (position row)) =
    finRange blockSize := by
  decide +kernel

theorem vectorExceptions_eq {b : Nat} (bound : b < 32) :
    vectorExceptions input b = exceptions input b := by
  unfold vectorExceptions exceptions
  rw [← filter_flatMap, rows_all]
  refine filter_congr fun k _ => ?_
  have one := toNat_one_shiftLeft bound
  have pos := Nat.two_pow_pos b
  rw [Bool.eq_iff_iff, above_iff, decide_eq_true_eq, BitVec.lt_def, BitVec.le_def, one,
    BitVec.toNat_sub_of_le (by rw [BitVec.le_def, one]; exact pos), one]
  show 2 ^ b - 1 < _ ↔ _
  omega

/-- The vector build chooses as the scalar build, patches the same words in the same order, and
counts those that do not fit. -/
theorem builds_agree : vectorBest input = getBestBFromData widthOf input ∧
    vectorMaxWidth input = maxWidth widthOf input ∧
    (0 < (vectorBest input).bestcexcept → vectorExceptions input (vectorBest input).bestb =
        exceptions input (getBestBFromData widthOf input).bestb ∧
      vectorResiduals input (vectorBest input).bestb =
        residuals input (getBestBFromData widthOf input).bestb) ∧
    ((finRange blockSize).countP fun i => 2 ^ (vectorBest input).bestb ≤ (input i).toNat) =
      (vectorBest input).bestcexcept := by
  refine ⟨vectorBest_eq input, vectorMaxWidth_eq input, fun excepts => ?_, ?_⟩
  · rw [vectorBest_eq] at excepts ⊢
    have same := vectorExceptions_eq input ((bestb_lt excepts).trans_le (widest_le input))
    exact ⟨same, by rw [vectorResiduals, same, residuals]⟩
  · rw [vectorBest_eq, (best_counts input).2, wider]
    refine countP_congr fun i _ => ?_
    rw [decide_eq_true_eq, decide_eq_true_eq, ← not_le, bitWidth_le, not_lt]

end Luxir.Codec.PforVectors
