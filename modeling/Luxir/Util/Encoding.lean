import Luxir.Lib.Bytes
import Luxir.Lib.PrefixCodes
import Mathlib.Tactic.Ring
import Mathlib.Data.Nat.Bitwise

/-!
Numbers of variable length: seven bits to a byte, the lowest first, with the high bit set on all
bytes but the last. Signed numbers are first mapped to unsigned ones, by zigzag.
-/

namespace Luxir.Util.Encoding
open Lib.PrefixCodes UInt8 BitVec Nat

def writeVLong (val : Nat) : Bytes :=
  if 0x7f < val then ofNat (val ||| 0x80) :: writeVLong (val >>> 7) else [ofNat val]
termination_by val
decreasing_by
  rw [shiftRight_eq_div_pow]
  exact Nat.div_lt_self (by omega) (by decide)

def zigzagEncode (val : Int64) : UInt64 := (val.toUInt64 <<< 1) ^^^ (val >>> 63).toUInt64

def writeZLong (val : Int64) : Bytes := writeVLong (zigzagEncode val).toNat

/-- The loop is that of `writeVLong`, over a shorter word. -/
def writeVInt (val : Nat) : Bytes := writeVLong val

/-- The loop of the readers: the bits of each byte go above those read before, in a word. -/
def readFrom (wordBits shift val : Nat) : Bytes → Option (Nat × Bytes)
  | [] => none
  | byte :: rest =>
      let val := val ||| ((byte &&& 0x7f).toNat <<< shift) % 2 ^ wordBits
      if byte &&& 0x80 ≠ 0 then readFrom wordBits (shift + 7) val rest else some (val, rest)

def readVLong (bytes : Bytes) : Option (Nat × Bytes) := readFrom 64 0 0 bytes

def readVInt (bytes : Bytes) : Option (Nat × Bytes) := readFrom 32 0 0 bytes

theorem continued_byte (val : Nat) : (ofNat (val ||| 0x80)).toNat = val % 128 + 128 := by
  have low : ∀ byte < 256, byte ||| 128 = byte % 128 + 128 := by decide +kernel
  calc (ofNat (val ||| 0x80)).toNat = (val ||| 0x80) % 2 ^ 8 := toNat_ofNat'
    _ = val % 2 ^ 8 ||| 128 := or_mod_two_pow
    _ = val % 128 + 128 := by
        rw [low _ (mod_lt _ (by decide))]
        omega

theorem last_byte {val : Nat} (small : ¬ 0x7f < val) : (ofNat val).toNat = val := by
  rw [toNat_ofNat']
  omega

theorem writeVLong_eq (val : Nat) :
    writeVLong val = if 0x7f < val then ofNat (val ||| 0x80) :: writeVLong (val >>> 7)
      else [ofNat val] := by
  rw [writeVLong]

theorem writeVLong_delimited : Delimited writeVLong := by
  intro first
  induction first using Nat.strong_induction_on with
  | _ first ih =>
    intro second rest other same
    rw [writeVLong_eq first, writeVLong_eq second] at same
    by_cases more : 0x7f < first <;> by_cases again : 0x7f < second
    all_goals
      simp only [more, again, if_true, if_false, List.cons_append, List.cons.injEq] at same
      have low := congrArg toNat same.1
    · rw [continued_byte, continued_byte] at low
      have smaller : first >>> 7 < first := by
        rw [shiftRight_eq_div_pow]
        exact Nat.div_lt_self (by omega) (by decide)
      have high := ih _ smaller same.2
      have halves := high.1
      rw [shiftRight_eq_div_pow, shiftRight_eq_div_pow] at halves
      exact ⟨by omega, high.2⟩
    · rw [continued_byte, last_byte again] at low
      omega
    · rw [continued_byte, last_byte more] at low
      omega
    · rw [last_byte more, last_byte again] at low
      exact ⟨low, same.2⟩

theorem zigzagEncode_bits (val : Int64) :
    (zigzagEncode val).toBitVec = (val.toBitVec <<< 1) ^^^ val.toBitVec.sshiftRight 63 := by
  simp [zigzagEncode]

/-- The lowest bit is the sign; the others are the value's, all flipped if it is negative. -/
theorem zigzag_lowest (val : Int64) :
    (zigzagEncode val).toBitVec.getLsbD 0 = val.toBitVec.getLsbD 63 := by
  rw [zigzagEncode_bits, getLsbD_xor, getLsbD_shiftLeft, getLsbD_sshiftRight]
  simp

theorem zigzag_higher (val : Int64) {place : Nat} (low : place < 63) :
    (zigzagEncode val).toBitVec.getLsbD (place + 1) =
      ((val.toBitVec.getLsbD place) ^^ (val.toBitVec.getLsbD 63)) := by
  have lt : place + 1 < 64 := by omega
  have beyond : ¬ 63 + (place + 1) < 64 := by omega
  rw [zigzagEncode_bits, getLsbD_xor, getLsbD_shiftLeft, getLsbD_sshiftRight,
    if_neg beyond, msb_eq_getLsbD_last]
  simp [lt, low]

theorem zigzagEncode_injective : Function.Injective zigzagEncode := by
  intro first second same
  have sign : first.toBitVec.getLsbD 63 = second.toBitVec.getLsbD 63 := by
    rw [← zigzag_lowest, ← zigzag_lowest, same]
  apply Int64.toBitVec_inj.mp
  apply eq_of_getLsbD_eq
  intro place lt
  rcases Nat.lt_or_ge place 63 with low | high
  · have bits : (zigzagEncode first).toBitVec.getLsbD (place + 1) =
        (zigzagEncode second).toBitVec.getLsbD (place + 1) := by rw [same]
    rw [zigzag_higher first low, zigzag_higher second low, sign] at bits
    exact Bool.xor_left_inj.mp bits
  · have last : place = 63 := by omega
    rw [last, sign]

theorem writeZLong_delimited : Delimited writeZLong :=
  (writeVLong_delimited.comp fun _ _ => UInt64.toNat_inj.mp).comp zigzagEncode_injective

theorem low_bits (byte : UInt8) : (byte &&& 0x7f).toNat = byte.toNat % 128 := by
  rw [UInt8.toNat_and]
  exact and_two_pow_sub_one_eq_mod byte.toNat 7

theorem high_bit (byte : UInt8) : byte &&& 0x80 ≠ 0 ↔ 128 ≤ byte.toNat := by
  have bits : ∀ value < 256, value &&& 128 = value / 128 * 128 := by decide +kernel
  have bound := byte.toNat_lt
  rw [Ne, ← UInt8.toNat_inj, UInt8.toNat_and]
  change ¬ byte.toNat &&& 128 = 0 ↔ _
  rw [bits _ bound]
  omega

theorem or_above {wordBits val shift digit : Nat} (low : val < 2 ^ shift)
    (word : val + digit * 2 ^ shift < 2 ^ wordBits) :
    val ||| (digit <<< shift) % 2 ^ wordBits = val + digit * 2 ^ shift := by
  rw [mod_eq_of_lt (by rw [Nat.shiftLeft_eq]; omega), Nat.or_comm,
    ← shiftLeft_add_eq_or_of_lt low, Nat.shiftLeft_eq, Nat.add_comm]

theorem readFrom_write {wordBits shift val num : Nat} (low : val < 2 ^ shift)
    (word : val + num * 2 ^ shift < 2 ^ wordBits) (rest : Bytes) :
    readFrom wordBits shift val (writeVLong num ++ rest) = some (val + num * 2 ^ shift, rest) := by
  induction num using Nat.strong_induction_on generalizing shift val with
  | _ num ih =>
    rw [writeVLong_eq]
    by_cases more : 0x7f < num
    · have split : num % 128 * 2 ^ shift + num / 128 * 2 ^ (shift + 7) = num * 2 ^ shift := by
        calc num % 128 * 2 ^ shift + num / 128 * 2 ^ (shift + 7)
            = (num % 128 + 128 * (num / 128)) * 2 ^ shift := by rw [Nat.pow_add]; ring
          _ = num * 2 ^ shift := by rw [mod_add_div]
      have next : num >>> 7 = num / 128 := shiftRight_eq_div_pow num 7
      have digit : (ofNat (num ||| 0x80) &&& 0x7f).toNat = num % 128 := by
        rw [low_bits, continued_byte]
        omega
      have continues : ofNat (num ||| 0x80) &&& 0x80 ≠ 0 := by
        rw [high_bit, continued_byte]
        omega
      have small : val + num % 128 * 2 ^ shift < 2 ^ (shift + 7) := by
        have most : num % 128 * 2 ^ shift ≤ 127 * 2 ^ shift := Nat.mul_le_mul_right _ (by omega)
        rw [Nat.pow_add]
        omega
      rw [if_pos more, List.cons_append, readFrom, if_pos continues, digit,
        or_above low (by omega), next, ih _ (by omega) small (by omega), Nat.add_assoc, split]
    · have digit : (ofNat num &&& 0x7f).toNat = num := by
        rw [low_bits, last_byte more]
        omega
      have ends : ¬ ofNat num &&& 0x80 ≠ 0 := by
        rw [high_bit, last_byte more]
        omega
      rw [if_neg more, List.cons_append, readFrom, if_neg ends, digit, or_above low word]
      rfl

theorem readVLong_write {num : Nat} (word : num < 2 ^ 64) (rest : Bytes) :
    readVLong (writeVLong num ++ rest) = some (num, rest) := by
  have read := readFrom_write (Nat.one_pos : 0 < 2 ^ 0)
    (show 0 + num * 2 ^ 0 < 2 ^ 64 by omega) rest
  simpa [readVLong] using read

theorem readVInt_write {num : Nat} (word : num < 2 ^ 32) (rest : Bytes) :
    readVInt (writeVInt num ++ rest) = some (num, rest) := by
  have read := readFrom_write (Nat.one_pos : 0 < 2 ^ 0)
    (show 0 + num * 2 ^ 0 < 2 ^ 32 by omega) rest
  simpa [readVInt, writeVInt] using read

end Luxir.Util.Encoding
