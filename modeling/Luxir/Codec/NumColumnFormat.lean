import Luxir.Codec.LinearFit
import Luxir.Lib.Bytes

/-!
The blocks of a numeric column: how the descriptor of a block is laid out, and how the planner
chooses between raw values and residuals over a line, after dividing by a common divisor.
-/

namespace Luxir.Codec.NumColumnFormat
open Lib.Words Lib.Bytes Lib.Folds LinearFit UInt64 Nat

def blockSize : Nat := 4096
def bulkSize : Nat := 128
def slopeShift : Nat := bitWidth blockSize + 1
def rawBits : Nat := 64
def minLinearBitsSaved : Nat := 1

/-- Payload offset in the low 56 bits of the first word, packed width in the top 8. -/
structure NumBlockInfo where
  offsetAndBits : UInt64
  baseBits : UInt64
  gcd : UInt64
  scaledSlope : Int64
deriving DecidableEq, Repr

namespace NumBlockInfo

def offsetMask : UInt64 := ((1 : UInt64) <<< 56) - 1

def size : Nat := 32

def payloadOffset (info : NumBlockInfo) : Nat := (info.offsetAndBits &&& offsetMask).toNat

def bits (info : NumBlockInfo) : Nat := (info.offsetAndBits >>> 56).toNat

def setPayload (info : NumBlockInfo) (payloadOffset bits : Nat) : NumBlockInfo :=
  { info with offsetAndBits := ofNat payloadOffset ||| ofNat bits <<< 56 }

def toBytes (info : NumBlockInfo) : Bytes :=
  spell 8 info.offsetAndBits.toNat ++ spell 8 info.baseBits.toNat ++ spell 8 info.gcd.toNat ++
    spell 8 info.scaledSlope.toUInt64.toNat

def ofBytes (file : Bytes) (offset : Nat) : NumBlockInfo where
  offsetAndBits := ofNat (load 8 file offset)
  baseBits := ofNat (load 8 file (offset + 8))
  gcd := ofNat (load 8 file (offset + 16))
  scaledSlope := (ofNat (load 8 file (offset + 24))).toInt64

end NumBlockInfo

structure BlockPlan where
  info : NumBlockInfo
  fit : LinearFit.Plan
  bits : Nat
deriving DecidableEq, Repr

def BlockPlan.raw (plan : BlockPlan) : Bool := plan.bits > maxPackedBits

def minElement (values : List Int64) : Int64 :=
  values.foldl (fun best value => if value < best then value else best) (values.headD 0)

def maxElement (values : List Int64) : Int64 :=
  values.foldl (fun best value => if value < best then best else value) (values.headD 0)

/-- The loop leaves as soon as nothing but 1 can divide. -/
def commonDivisor (values : List Int64) (min : Int64) : Nat :=
  values.foldl (fun gcd value =>
    if gcd = 1 then gcd else Nat.gcd gcd (value.toUInt64 - min.toUInt64).toNat) 0

/-- A sloped line has to save a bit. The level fit is asserted to exist. -/
def chooseFit (quotients : List Nat) : LinearFit.Plan :=
  let constant := (evaluate quotients 0 0 slopeShift).getD ⟨0, 0, 0⟩
  match planLinearFit quotients slopeShift with
  | none => constant
  | some linear => if constant.bits ≥ linear.bits + minLinearBitsSaved then linear else constant

def planBlock (values : List Int64) (useGcd : Bool) : BlockPlan × List Nat :=
  let min := minElement values
  let max := maxElement values
  let divisor := if useGcd then commonDivisor values min else 0
  let gcd := if divisor = 0 then 1 else divisor
  let range := (max.toUInt64 - min.toUInt64).toNat / gcd
  if bitWidth range > maxPackedBits then
    (⟨⟨0, 0, ofNat gcd, 0⟩, ⟨0, 0, 0⟩, rawBits⟩, [])
  else
    let quotients := values.map fun value => (value.toUInt64 - min.toUInt64).toNat / gcd
    let fit := chooseFit quotients
    let baseBits := min.toUInt64 + ofNat gcd * fit.intercept.toUInt64
    (⟨⟨0, baseBits, ofNat gcd, fit.scaledSlope⟩, fit, fit.bits⟩, quotients)

def residual (plan : BlockPlan) (rank quotient : Nat) : UInt64 :=
  LinearFit.residual plan.fit rank quotient slopeShift

def slopeTerm (rank : Nat) (scaledSlope : Int64) : Int64 :=
  Int64.ofInt (((rank : Int) * scaledSlope.toInt) >>> slopeShift)

variable {offset : Nat} {values : List Int64} {value : Int64} (info : NumBlockInfo) {bits : Nat}
  {file rest : Bytes}

theorem setPayload_word (fits : offset < 2 ^ 56) (narrow : bits < 2 ^ 8) :
    (info.setPayload offset bits).offsetAndBits.toNat = bits * 2 ^ 56 + offset := by
  have low : (UInt64.ofNat offset).toNat = offset := by
    rw [toNat_ofNat']
    omega
  have high : (UInt64.ofNat bits).toNat = bits := by
    rw [toNat_ofNat']
    omega
  have shift : (56 : UInt64).toNat % 64 = 56 := rfl
  unfold NumBlockInfo.setPayload
  rw [UInt64.toNat_or, UInt64.toNat_shiftLeft, low, high, shift,
    mod_eq_of_lt (by rw [shiftLeft_eq]; omega), Nat.or_comm,
    ← shiftLeft_add_eq_or_of_lt fits, shiftLeft_eq]

theorem payloadOffset_setPayload (fits : offset < 2 ^ 56) (narrow : bits < 2 ^ 8) :
    (info.setPayload offset bits).payloadOffset = offset := by
  have mask : NumBlockInfo.offsetMask.toNat = 2 ^ 56 - 1 := rfl
  rw [NumBlockInfo.payloadOffset, UInt64.toNat_and, setPayload_word info fits narrow, mask,
    and_two_pow_sub_one_eq_mod]
  omega

theorem bits_setPayload (fits : offset < 2 ^ 56) (narrow : bits < 2 ^ 8) :
    (info.setPayload offset bits).bits = bits := by
  have shift : (56 : UInt64).toNat % 64 = 56 := rfl
  rw [NumBlockInfo.bits, UInt64.toNat_shiftRight, setPayload_word info fits narrow, shift,
    shiftRight_eq_div_pow]
  omega

theorem length_toBytes : info.toBytes.length = NumBlockInfo.size := by
  simp [NumBlockInfo.toBytes, NumBlockInfo.size]

theorem ofNat_load_spell {word : UInt64} (wrote : file.drop offset = spell 8 word.toNat ++ rest) :
    UInt64.ofNat (load 8 file offset) = word := by
  have bound := word.toNat_lt
  rw [load_spell wrote, pow_256, mod_eq_of_lt bound, UInt64.ofNat_toNat]

theorem ofBytes_toBytes {info : NumBlockInfo} (wrote : file.drop offset = info.toBytes ++ rest) :
    NumBlockInfo.ofBytes file offset = info := by
  simp only [NumBlockInfo.toBytes, List.append_assoc] at wrote
  have second := drop_past wrote rfl
  have third := drop_past second rfl
  have fourth := drop_past third rfl
  simp only [length_spell, Nat.add_assoc] at second third fourth
  unfold NumBlockInfo.ofBytes
  rw [ofNat_load_spell wrote, ofNat_load_spell second, ofNat_load_spell third,
    ofNat_load_spell fourth, Int64.toInt64_toUInt64]

theorem minElement_le (mem : value ∈ values) : (minElement values).toInt ≤ value.toInt := by
  apply (foldl_covers (fun after before => after.toInt ≤ before.toInt)
    (fun least elem => least.toInt ≤ elem.toInt) (fun _ => le_rfl) le_trans le_trans _
    values (values.headD 0)).2 value mem
  intro best elem
  split_ifs with less
  all_goals
    rw [Int64.lt_iff_toInt_lt] at less
    omega

theorem le_maxElement (mem : value ∈ values) : value.toInt ≤ (maxElement values).toInt := by
  apply (foldl_covers (fun after before => before.toInt ≤ after.toInt) (fun most elem => elem.toInt
    ≤ most.toInt) (fun _ => le_rfl) (fun later early => le_trans early later) (fun later covered =>
    le_trans covered later) _ values (values.headD 0)).2 value mem
  intro best elem
  split_ifs with less
  all_goals
    rw [Int64.lt_iff_toInt_lt] at less
    omega

theorem commonDivisor_dvd {min : Int64} (mem : value ∈ values) :
    commonDivisor values min ∣ (value.toUInt64 - min.toUInt64).toNat := by
  apply (foldl_covers (fun after before => after ∣ before) (fun divisor elem => divisor ∣
    (elem.toUInt64 - min.toUInt64).toNat) dvd_refl dvd_trans dvd_trans _ values 0).2 value mem
  intro divisor elem
  split_ifs with one
  · exact ⟨dvd_rfl, one ▸ one_dvd _⟩
  · exact ⟨Nat.gcd_dvd_left _ _, Nat.gcd_dvd_right _ _⟩

/-- What a plan for packed residuals promises. -/
structure Packed (values : List Int64) (plan : BlockPlan) (quotients : List Nat) : Prop where
  length : quotients.length = values.length
  width : plan.bits = plan.fit.bits
  fits : Fits plan.fit quotients slopeShift
  slope : plan.info.scaledSlope = plan.fit.scaledSlope
  base : ∃ min : Int64, plan.info.baseBits =
      ofInt (min.toInt + plan.info.gcd.toNat * plan.fit.intercept.toInt) ∧
    ∀ rank (inside : rank < values.length) (same : rank < quotients.length),
      min.toInt + plan.info.gcd.toNat * quotients[rank] = values[rank].toInt

theorem planBlock_gcd (values : List Int64) : (planBlock values false).1.info.gcd = 1 := by
  unfold planBlock
  simp only [Bool.false_eq_true, if_false, if_true]
  split_ifs <;> rfl

theorem commonDivisor_lt (values : List Int64) (min : Int64) :
    commonDivisor values min < 2 ^ 64 := by
  apply List.foldlRecOn (motive := fun divisor => divisor < 2 ^ 64) values _ (by norm_num)
  intro divisor small value _
  split_ifs
  · exact small
  · rcases Nat.eq_zero_or_pos divisor with rfl | pos
    · rw [Nat.gcd_zero_left]
      exact toNat_lt _
    · exact (gcd_le_left _ pos).trans_lt small

theorem divisor_spec (values : List Int64) (useGcd : Bool) :
    ∃ gcd : Nat, (if (if useGcd then commonDivisor values (minElement values) else 0) = 0 then 1
        else if useGcd then commonDivisor values (minElement values) else 0) = gcd ∧
      0 < gcd ∧ gcd < 2 ^ 64 ∧
      ∀ value ∈ values, gcd ∣ (value.toUInt64 - (minElement values).toUInt64).toNat := by
  have bound := commonDivisor_lt values (minElement values)
  cases useGcd with
  | false => exact ⟨1, by simp, one_pos, by norm_num, fun _ _ => one_dvd _⟩
  | true =>
    simp only [if_true]
    refine ⟨_, rfl, ?_⟩
    split_ifs with zero
    · exact ⟨one_pos, by norm_num, fun _ _ => one_dvd _⟩
    · exact ⟨pos_of_ne_zero zero, bound, fun _ mem => commonDivisor_dvd mem⟩

theorem planBlock_gcd_ne_zero (values : List Int64) (useGcd : Bool) :
    (planBlock values useGcd).1.info.gcd ≠ 0 := by
  obtain ⟨gcd, chosen, pos, bound, _⟩ := divisor_spec values useGcd
  have nonzero : ofNat gcd ≠ 0 := by
    intro zero
    have word := congrArg toNat zero
    rw [toNat_ofNat', mod_eq_of_lt bound] at word
    exact pos.ne' word
  unfold planBlock
  dsimp only
  rw [chosen]
  split_ifs <;> exact nonzero

theorem chooseFit_fits {quotients : List Nat} (ne : quotients ≠ [])
    (short : quotients.length ≤ blockSize) (small : ∀ quotient ∈ quotients, quotient < 2 ^ 57) :
    Fits (chooseFit quotients) quotients slopeShift := by
  obtain ⟨constant, found⟩ := evaluate_level 0 slopeShift ne (by decide) small
  have level :=
    evaluate_fits (fun value mem => (small value mem).trans (by norm_num))
      (fun rank _ => by simp [line]) found
  unfold chooseFit
  rw [found, Option.getD_some]
  dsimp only
  split
  · exact level
  · next linear planned =>
    split_ifs
    · exact planLinearFit_fits small (short.trans (by decide)) planned
    · exact level

theorem quotients_small {gcd bits : Nat} (narrow :
      ((maxElement values).toUInt64 - (minElement values).toUInt64).toNat / gcd < 2 ^ bits) :
    ∀ quotient ∈ values.map
      (fun value => (value.toUInt64 - (minElement values).toUInt64).toNat / gcd),
      quotient < 2 ^ bits := by
  refine List.forall_mem_map.mpr fun value lt => ?_
  have least := minElement_le lt
  have most := le_maxElement lt
  have distance := toNat_sub least
  have whole := toNat_sub (least.trans most)
  have smaller : (value.toUInt64 - (minElement values).toUInt64).toNat / gcd ≤
      ((maxElement values).toUInt64 - (minElement values).toUInt64).toNat / gcd :=
    Nat.div_le_div_right (by omega)
  exact smaller.trans_lt narrow

theorem planBlock_cases (values : List Int64) (useGcd : Bool) (ne : values ≠ [])
    (short : values.length ≤ blockSize) : (planBlock values useGcd).1.bits = rawBits ∨
      Packed values (planBlock values useGcd).1 (planBlock values useGcd).2 := by
  obtain ⟨gcd, chosen, pos, bound, divides⟩ := divisor_spec values useGcd
  have word : (UInt64.ofNat gcd).toNat = gcd := by
    rw [toNat_ofNat']
    exact mod_eq_of_lt bound
  unfold planBlock
  dsimp only
  rw [chosen]
  split_ifs with wide
  · exact .inl rfl
  right
  have narrow := bitWidth_le.mp (Nat.not_lt.mp wide)
  have small := quotients_small narrow
  refine ⟨by simp, rfl, chooseFit_fits (by simpa using ne) (by simpa using short) small, rfl,
    minElement values, ?_, ?_⟩
  · dsimp only
    rw [word, ofInt_add, ofInt_mul, ofInt_toInt, ofInt_toInt]
    congr 2
    apply UInt64.toNat_inj.mp
    rw [word, toNat_ofInt (by omega) (by omega), Int.toNat_natCast]
  · intro rank lt same
    have distance := toNat_sub (minElement_le (List.getElem_mem lt))
    have exactly := Nat.mul_div_cancel' (divides _ (List.getElem_mem lt))
    simp only [word, List.getElem_map]
    rw [← cast_mul, exactly, distance]
    omega

end Luxir.Codec.NumColumnFormat
