import Mathlib.Algebra.Order.Ring.Int

/-!
Casts between words and the integers they stand for. Both casts of an integer to a word
are ring homomorphisms, so a computation on words is the cast of the same computation on integers.
-/

namespace Luxir.Lib.Words

def bitWidth (value : Nat) : Nat := if value = 0 then 0 else value.log2 + 1

theorem bitWidth_le {value bits : Nat} : bitWidth value ≤ bits ↔ value < 2 ^ bits := by
  unfold bitWidth
  split_ifs with zero
  · exact iff_of_true (Nat.zero_le _) (zero ▸ Nat.two_pow_pos _)
  · rw [Nat.succ_le_iff, Nat.log2_lt zero]

theorem lt_two_pow_bitWidth (value : Nat) : value < 2 ^ bitWidth value := bitWidth_le.mp le_rfl

def wrap (bits : Nat) (value : Int) : Nat := (value % 2 ^ bits).toNat

def signed (bits : Nat) (word : Nat) : Int :=
  if word < 2 ^ (bits - 1) then word else (word : Int) - 2 ^ bits

theorem toUInt64_ofInt (value : Int) : (Int64.ofInt value).toUInt64 = UInt64.ofInt value := by
  apply UInt64.toNat_inj.mp
  have word : (Int64.ofInt value).toUInt64.toNat = (value % 2 ^ 64).toNat := by
    change (Int64.ofInt value).toBitVec.toNat = _
    rw [Int64.toBitVec_ofInt, BitVec.toNat_ofInt]
    rfl
  rw [word, UInt64.ofInt, UInt64.toNat_ofNat']
  exact (Nat.mod_eq_of_lt (by omega)).symm

theorem ofInt_toInt (word : Int64) : UInt64.ofInt word.toInt = word.toUInt64 := by
  rw [← toUInt64_ofInt, Int64.ofInt_toInt]

variable {value : Int}

theorem toNat_ofInt (nonneg : 0 ≤ value) (bound : value < 2 ^ 64) :
    (UInt64.ofInt value).toNat = value.toNat := by
  unfold UInt64.ofInt
  rw [UInt64.toNat_ofNat', Int.emod_eq_of_lt nonneg bound]
  exact Nat.mod_eq_of_lt (by omega)

theorem ofInt_natCast (value : Nat) : UInt64.ofInt value = UInt64.ofNat value := by
  apply UInt64.toNat_inj.mp
  rw [UInt64.ofInt, UInt64.toNat_ofNat', UInt64.toNat_ofNat']
  omega

theorem toNat_sub {low high : Int64} (ordered : low.toInt ≤ high.toInt) :
    ((high.toUInt64 - low.toUInt64).toNat : Int) = high.toInt - low.toInt := by
  have lower := low.le_toInt
  have upper := high.toInt_lt
  have same : high.toUInt64 - low.toUInt64 = UInt64.ofInt (high.toInt - low.toInt) := by
    have total := UInt64.ofInt_add (high.toInt - low.toInt) low.toInt
    rw [Int.sub_add_cancel, ofInt_toInt, ofInt_toInt] at total
    rw [total, UInt64.add_sub_cancel]
  rw [same, toNat_ofInt (by omega) (by omega)]
  omega

theorem signed_wrap (lower : -2 ^ 63 ≤ value) (upper : value < 2 ^ 63) :
    signed 64 (wrap 64 value) = value := by
  unfold signed wrap
  split <;> omega

theorem wrap_lt (value : Int) : wrap 64 value < 2 ^ 64 := by
  unfold wrap
  omega

end Luxir.Lib.Words
