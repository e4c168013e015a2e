import Luxir.Lib.Bytes

/-!
Sets of bits in a number, read a word at a time. The rank of a position counts the bits below it;
words of a longer bitmap are its fields, and their counts add up.
-/

namespace Luxir.Lib.Bits
open Bytes List Nat

def rank (value position : Nat) : Nat := (range position).countP value.testBit

def popcount (word : Nat) : Nat := rank word 64

def countrZero (word : Nat) : Nat := ((range 64).find? word.testBit).getD 64

def maskBits (count : Nat) : Nat := if count ≥ 64 then 2 ^ 64 - 1 else 2 ^ count - 1

def complement (word : Nat) : Nat := 2 ^ 64 - (word + 1)

theorem index_le_of_rising {α : Type} {list : List α} {key : α → Nat}
    (rising : list.Pairwise fun low high => key low < key high) {index : Nat}
    (lt : index < list.length) : index ≤ key list[index] := by
  induction index with
  | zero => exact zero_le _
  | succ index ih =>
    have before := ih (by omega)
    have strict := pairwise_iff_getElem.mp rising index (index + 1) (by omega) lt (by omega)
    omega

theorem countP_of_cut {α : Type} {list : List α} {passed : α → Bool} {bound : Nat}
    (short : bound ≤ list.length)
    (cut : ∀ i (known : i < list.length), passed list[i] = true ↔ i < bound) :
    list.countP passed = bound := by
  have early : (list.take bound).countP passed = (list.take bound).length := by
    refine countP_eq_length.mpr fun elem mem => ?_
    obtain ⟨i, lt, rfl⟩ := mem_take_iff_getElem.mp mem
    exact (cut i _).mpr (by omega)
  have late : (list.drop bound).countP passed = 0 := by
    refine countP_eq_zero.mpr fun elem mem => ?_
    obtain ⟨i, lt, rfl⟩ := mem_drop_iff_getElem.mp mem
    rw [cut (bound + i)]
    omega
  conv_lhs => rw [← take_append_drop bound list]
  rw [countP_append, early, late, length_take, add_zero, min_eq_left short]

theorem rank_succ (value position : Nat) :
    rank value (position + 1) = rank value position + if value.testBit position then 1 else 0 := by
  unfold rank
  rw [range_succ, countP_append, countP_singleton]

theorem rank_mono (value : Nat) {low high : Nat} (order : low ≤ high) :
    rank value low ≤ rank value high := by
  induction high, order using le_induction with
  | base => exact le_rfl
  | succ =>
    rw [rank_succ]
    omega

theorem rank_congr {first second position : Nat}
    (same : ∀ bit < position, first.testBit bit = second.testBit bit) :
    rank first position = rank second position := by
  apply countP_congr
  intro bit mem
  rw [same bit (mem_range.mp mem)]

theorem testBit_field (value position width bit : Nat) : (field value position width).testBit bit =
      (decide (bit < width) && value.testBit (position + bit)) := by
  unfold field
  rw [testBit_mod_two_pow, ← shiftRight_eq_div_pow, testBit_shiftRight]

theorem rank_add (value position width : Nat) : rank value (position + width) =
      rank value position + rank (field value position width) width := by
  unfold rank
  rw [range_add, countP_append, countP_map, add_left_cancel_iff]
  apply countP_congr
  intro bit mem
  simp [testBit_field, mem_range.mp mem]

theorem popcount_field (value position : Nat) {width : Nat} (narrow : width ≤ 64) :
    rank value (position + width) =
      rank value position + popcount (field value position width) := by
  have beyond : (range (64 - width)).countP
      ((field value position width).testBit ∘ (width + ·)) = 0 := by
    simp [testBit_field]
  rw [rank_add, popcount, ← Nat.add_sub_cancel' narrow]
  simp only [rank, range_add, countP_append, countP_map, beyond, add_zero]

variable {word count value : Nat}

theorem maskBits_eq (narrow : count ≤ 64) : maskBits count = 2 ^ count - 1 := by
  unfold maskBits
  split_ifs with full
  · rw [show count = 64 by omega]
  · rfl

theorem and_maskBits (word : Nat) (narrow : count ≤ 64) :
    word &&& maskBits count = word % 2 ^ count := by
  rw [maskBits_eq narrow, and_two_pow_sub_one_eq_mod]

theorem testBit_above {bit : Nat} (narrow : count ≤ 64) :
    (word &&& complement (maskBits count)).testBit bit =
      (word.testBit bit && decide (count ≤ bit ∧ bit < 64)) := by
  have small : maskBits count < 2 ^ 64 := by
    rw [maskBits_eq narrow]
    have most := Nat.pow_le_pow_right (show 0 < 2 by decide) narrow
    omega
  rw [testBit_and, complement, testBit_two_pow_sub_succ small,
    maskBits_eq narrow, testBit_two_pow_sub_one]
  by_cases below : bit < count
  · simp [below]
  · simp [below, not_lt.mp below]

theorem eq_zero_iff (small : word < 2 ^ 64) : word = 0 ↔ ∀ bit < 64, word.testBit bit = false := by
  constructor
  · rintro rfl bit _
    exact zero_testBit bit
  intro clear
  apply eq_of_testBit_eq
  intro bit
  rw [zero_testBit]
  by_cases lt : bit < 64
  · exact clear bit lt
  · apply testBit_lt_two_pow
    exact small.trans_le (Nat.pow_le_pow_right (by decide) (not_lt.mp lt))

theorem countrZero_spec (small : word < 2 ^ 64) (nonzero : word ≠ 0) :
    countrZero word < 64 ∧ word.testBit (countrZero word) = true ∧
      ∀ bit < countrZero word, word.testBit bit = false := by
  unfold countrZero
  cases found : (range 64).find? word.testBit with
  | none =>
    exfalso
    apply nonzero
    rw [eq_zero_iff small]
    intro bit lt
    have gone := find?_eq_none.mp found bit (mem_range.mpr lt)
    simpa using gone
  | some =>
    have lt := mem_range.mp (mem_of_find?_eq_some found)
    refine ⟨lt, find?_some found, fun lower before => ?_⟩
    have skipped := find?_range_eq_some.mp found
    simpa using skipped.2.2 lower before

theorem testBit_number (bytes : Bytes) (bit : Nat) :
    (number bytes).testBit bit = (bytes.getD (bit / 8) 0).toNat.testBit (bit % 8) := by
  induction bytes generalizing bit with
  | nil => simp [number]
  | cons byte rest ih =>
    have small := byte.toNat_lt
    have split : number (byte :: rest) = 2 ^ 8 * number rest + byte.toNat := by
      rw [number]
      omega
    rw [split, testBit_two_pow_mul_add _ small]
    split_ifs with low
    · rw [div_eq_of_lt low, mod_eq_of_lt low]
      rfl
    · have place : bit / 8 = (bit - 8) / 8 + 1 := by omega
      have inner : bit % 8 = (bit - 8) % 8 := by omega
      rw [ih, place, inner]
      rfl

theorem field_narrow {position width : Nat} (small : value < 2 ^ (position + count))
    (narrow : count ≤ width) : field value position width = field value position count := by
  have bound : value / 2 ^ position < 2 ^ count := by
    rw [Nat.div_lt_iff_lt_mul (Nat.two_pow_pos position), ← pow_add, add_comm]
    exact small
  unfold field
  rw [Nat.mod_eq_of_lt bound,
    Nat.mod_eq_of_lt (bound.trans_le (Nat.pow_le_pow_right (by decide) narrow))]

theorem rank_le (value position : Nat) : rank value position ≤ position := by
  have most := countP_le_length (p := value.testBit) (l := range position)
  rwa [length_range] at most

theorem rank_lt {low high : Nat} (here : value.testBit low = true) (order : low < high) :
    rank value low < rank value high := by
  have step := rank_succ value low
  rw [if_pos here] at step
  have after := rank_mono value (show low + 1 ≤ high from order)
  omega

theorem eq_of_rank_eq {first second : Nat} (one : value.testBit first = true)
    (two : value.testBit second = true) (same : rank value first = rank value second) :
    first = second := by
  rcases lt_trichotomy first second with less | eq | greater
  · have strict := rank_lt one less
    omega
  · exact eq
  · have strict := rank_lt two greater
    omega

theorem rank_eq_countP {members : List Nat} (nodup : members.Nodup)
    (exact_bits : ∀ bit, value.testBit bit = true ↔ bit ∈ members) (position : Nat) :
    rank value position = members.countP fun bit => bit < position := by
  rw [rank, countP_eq_length_filter, countP_eq_length_filter]
  apply Perm.length_eq
  rw [perm_ext_iff_of_nodup (nodup_range.filter _) (nodup.filter _)]
  intro bit
  simp [exact_bits, and_comm]

theorem testBit_clear_lowest (small : word < 2 ^ 64) (nonzero : word ≠ 0) (bit : Nat) :
    (word &&& (word - 1)).testBit bit = (word.testBit bit && decide (bit ≠ countrZero word)) := by
  obtain ⟨_, here, below⟩ := countrZero_spec small nonzero
  generalize countrZero word = low at here below
  have even : word % 2 ^ low = 0 := by
    apply eq_of_testBit_eq
    intro i
    rw [testBit_mod_two_pow, zero_testBit]
    by_cases less : i < low
    · rw [below i less, Bool.and_false]
    · rw [decide_eq_false less, Bool.false_and]
  obtain ⟨half, rfl⟩ := dvd_of_mod_eq_zero even
  obtain ⟨rest, rfl⟩ : ∃ rest, half = 2 * rest + 1 := by
    simp only [testBit_two_pow_mul, ge_iff_le, le_refl, decide_true, Nat.sub_self, testBit_zero,
      Bool.true_and, decide_eq_true_eq] at here
    exact ⟨half / 2, by omega⟩
  have less : 2 ^ low * (2 * rest + 1) - 1 = 2 ^ low * (2 * rest) + (2 ^ low - 1) := by
    rw [mul_succ]
    omega
  rw [testBit_and, less, testBit_two_pow_mul_add _ (by omega), testBit_two_pow_mul]
  rcases lt_trichotomy bit low with early | rfl | late
  · simp [early]
  · simp
  · obtain ⟨more, rfl⟩ := Nat.exists_eq_add_of_lt late
    simp [Nat.add_assoc, testBit_succ, Nat.mul_add_div]

end Luxir.Lib.Bits
