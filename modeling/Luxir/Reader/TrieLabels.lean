import Luxir.Reader.TrieLookup
import Luxir.Util.Gallop

/-!
The child of a node for a byte. Whichever of the three encodings a node has for its labels, the
reader finds the first label that is not below the byte, and its place among the labels.
-/

namespace Luxir.Reader.TrieLabels
open Lib.Bytes Lib.Bits TrieLookup Util.Gallop List UInt8 Nat

structure Ceil (labels : Bytes) (b : UInt8) (child : Child) : Prop where
  missing : child.found = false → ∀ label ∈ labels, label < b
  split : child.found = true → ∃ before after, labels = before ++ child.label :: after ∧
    child.pos = before.length ∧ (∀ label ∈ before, label < b) ∧ b ≤ child.label ∧
    (child.hasNext = true ↔ after ≠ [])

def Increasing (labels : Bytes) : Prop := labels.Pairwise fun low high => low < high

variable {node : Nat} {labels : Bytes} {file rest data : Bytes} {low high b : UInt8}
  {rounds index value : Nat} {hasNext : Bool}

section
variable {b c : UInt8}

theorem ceil_none (below : ∀ label ∈ labels, label < b) : Ceil labels b Child.none :=
  ⟨fun _ => below, fun found => absurd found (by decide)⟩

theorem ceil_at (lt : index < labels.length) (met : b ≤ labels[index])
    (below : ∀ i (early : i < labels.length), i < index → labels[i] < b)
    (next : hasNext = true ↔ index + 1 < labels.length) :
    Ceil labels b ⟨index, labels[index], true, hasNext⟩ := by
  refine ⟨fun missing => (nomatch missing), fun _ => ?_⟩
  refine ⟨labels.take index, labels.drop (index + 1), ?_, ?_, ?_, met, ?_⟩
  · rw [← drop_eq_getElem_cons lt, take_append_drop]
  · rw [length_take]
    exact (min_eq_left (le_of_lt lt)).symm
  · intro label mem
    obtain ⟨i, bound, rfl⟩ := mem_take_iff_getElem.mp mem
    exact below i (by omega) (by omega)
  · rw [next, ne_eq, drop_eq_nil_iff]
    omega

theorem ceil_value (rising : Increasing labels) (mem : c ∈ labels) (met : b ≤ c)
    (gap : ∀ label ∈ labels, label < c → label < b) {pos : Nat}
    (counted : pos = labels.countP fun label => label.toNat < c.toNat)
    (next : hasNext = true ↔ ∃ label ∈ labels, c < label) :
    Ceil labels b ⟨pos, c, true, hasNext⟩ := by
  obtain ⟨index, lt, rfl⟩ := mem_iff_getElem.mp mem
  have order : ∀ i (known : i < labels.length), labels[i] < labels[index] ↔ i < index := by
    intro i known
    rcases lt_trichotomy i index with less | rfl | more
    · exact iff_of_true (pairwise_iff_getElem.mp rising i index known lt less) less
    · exact iff_of_false (UInt8.lt_irrefl _) (lt_irrefl _)
    · exact iff_of_false (UInt8.lt_asymm (pairwise_iff_getElem.mp rising index i lt known more))
        more.not_gt
  have place : pos = index := by
    rw [counted]
    apply countP_of_cut lt.le
    intro i known
    rw [decide_eq_true_eq, ← lt_iff_toNat_lt, order i known]
  rw [place]
  apply ceil_at lt met
  · exact fun i early before => gap _ (getElem_mem early) ((order i early).mpr before)
  · rw [next]
    constructor
    · rintro ⟨label, here, above⟩
      obtain ⟨i, known, rfl⟩ := mem_iff_getElem.mp here
      by_contra last
      rcases (show i < index ∨ i = index by omega) with less | rfl
      · exact UInt8.lt_asymm above ((order i known).mpr less)
      · exact UInt8.lt_irrefl _ above
    · intro more
      exact ⟨_, getElem_mem more, pairwise_iff_getElem.mp rising index _ lt more (lt_succ_self _)⟩

theorem countP_labels (rising : Increasing labels) {least : Nat}
    (ge : ∀ label ∈ labels, least ≤ label.toNat) (value : Nat) :
    labels.countP (fun label => label.toNat < value) =
      (range' least (value - least)).countP fun place => ∃ label ∈ labels, label.toNat = place := by
  rw [countP_eq_length_filter, countP_eq_length_filter, ← length_map toNat]
  apply Perm.length_eq
  rw [perm_ext_iff_of_nodup _ ((nodup_range' 1).filter _)]
  · intro place
    simp only [mem_map, mem_filter, mem_range'_1, decide_eq_true_eq]
    constructor
    · rintro ⟨label, ⟨here, less⟩, rfl⟩
      have above := ge label here
      exact ⟨by omega, label, here, rfl⟩
    · rintro ⟨between, label, here, rfl⟩
      exact ⟨label, ⟨here, by omega⟩, rfl⟩
  · rw [nodup_iff_pairwise_ne, pairwise_map]
    exact (rising.filter _).imp fun less => (lt_iff_toNat_lt.mp less).ne

end

section
variable {place : Nat}

theorem byteAt_data (wrote : file.drop place = data ++ rest) (lt : index < data.length) :
    byteAt file (place + index) = data[index] := by
  have found : file[place + index]? = some data[index] := by
    rw [← getElem?_drop, wrote, getElem?_append_left lt, getElem?_eq_getElem lt]
  rw [byteAt, getD_eq_getElem?_getD, found, Option.getD_some]

theorem byteLowerBound_eq (file : Bytes) (bytes : Nat) (b : UInt8) (rounds lo hi : Nat) :
    byteLowerBound file bytes b rounds lo hi =
      lowerBound b.toNat (fun i => (byteAt file (bytes + i)).toNat) rounds lo hi := by
  induction rounds generalizing lo hi with
  | zero => rfl
  | succ rounds ih =>
    unfold byteLowerBound lowerBound
    split_ifs with more
    · have mid : (lo + hi) / 2 = lo + (hi - lo) / 2 := by omega
      simp only [mid, ih, lt_iff_toNat_lt]
    · rfl

structure Cut (data : Bytes) (value index : Nat) : Prop where
  le : index ≤ data.length
  below : ∀ i (inside : i < data.length), i < index → data[i].toNat < value
  above : ∀ i (inside : i < data.length), index ≤ i → value ≤ data[i].toNat

theorem Cut.count (cut : Cut data value index) :
    index = data.countP fun label => label.toNat < value := by
  refine (countP_of_cut cut.le fun i known => ?_).symm
  rw [decide_eq_true_eq]
  constructor
  · intro less
    by_contra after
    exact (cut.above i known (not_lt.mp after)).not_gt less
  · exact cut.below i known

theorem byteLowerBound_cut (wrote : file.drop place = data ++ rest)
    (rising : Increasing data) (b : UInt8) :
    Cut data b.toNat (byteLowerBound file place b data.length 0 data.length) := by
  have splits : Splits b.toNat (fun i => (byteAt file (place + i)).toNat) 0 data.length
      (byteLowerBound file place b data.length 0 data.length) := by
    rw [byteLowerBound_eq]
    apply lowerBound_splits _ (le_rfl) (le_rfl) (zero_le _) (le_rfl)
    · intro index _ before
      omega
    · intro index _ before
      omega
    · intro first second _ order lt
      dsimp only
      rw [byteAt_data wrote (by omega), byteAt_data wrote lt]
      rcases eq_or_lt_of_le order with same | less
      · simp only [same]
        exact le_rfl
      · have strict := pairwise_iff_getElem.mp rising first second (by omega) lt less
        exact le_of_lt (lt_iff_toNat_lt.mp strict)
  refine ⟨splits.le, fun i lt before => ?_, fun i lt after => ?_⟩
  · have less := splits.below i (zero_le _) before
    rwa [byteAt_data wrote lt] at less
  · have more := splits.above i after lt
    rwa [byteAt_data wrote lt] at more

theorem ceilArray_ceil {first b : UInt8} (rising : Increasing (first :: data))
    (size : strategySize file node = data.length) (wrote : file.drop (node + 3) = data ++ rest)
    (later : first < b) : Ceil (first :: data) b (ceilArray file node b) := by
  have cut := byteLowerBound_cut wrote (pairwise_cons.mp rising).2 b
  unfold ceilArray
  rw [size]
  dsimp only
  generalize byteLowerBound file (node + 3) b data.length 0 data.length = lo at *
  have le := cut.le
  split_ifs with all
  · apply ceil_none
    intro label mem
    rcases mem_cons.mp mem with rfl | lt
    · exact later
    · obtain ⟨i, bound, rfl⟩ := mem_iff_getElem.mp lt
      exact lt_iff_toNat_lt.mpr (cut.below i bound (by omega))
  · have bound : lo < data.length := by omega
    have lt : lo + 1 < (first :: data).length := by simpa using bound
    rw [byteAt_data wrote bound]
    apply ceil_at lt
    · exact le_iff_toNat_le.mpr (cut.above lo bound (le_rfl))
    · intro i within before
      cases i with
      | zero => exact later
      | succ i => exact lt_iff_toNat_lt.mpr (cut.below i (by simpa using within) (by omega))
    · simp

theorem Cut.succ (cut : Cut data value index) (rising : Increasing data)
    (bound : index < data.length) (same : data[index].toNat = value) :
    Cut data (value + 1) (index + 1) := by
  refine ⟨bound, fun i lt before => ?_, fun i lt after => ?_⟩
  · rcases Nat.lt_succ_iff_lt_or_eq.mp before with less | rfl
    · exact (cut.below i lt less).trans (Nat.lt_succ_self _)
    · omega
  · have strict := pairwise_iff_getElem.mp rising index i bound lt after
    have more := lt_iff_toNat_lt.mp strict
    omega

/-- Past a run of absent labels: everything up to the stop is absent, and the stop is not. -/
theorem skipAbsent_spec (wrote : file.drop place = data ++ rest) (rising : Increasing data)
    {c absentIdx : Nat} (enough : data.length ≤ rounds + absentIdx) (cut : Cut data c absentIdx) :
    ∃ stop index, skipAbsent file place data.length rounds c absentIdx = (stop, index) ∧
      c ≤ stop ∧ (∀ value, c ≤ value → value < stop → ∃ label ∈ data, label.toNat = value) ∧
      (∀ label ∈ data, label.toNat ≠ stop) ∧ Cut data stop index := by
  have le := cut.le
  induction rounds generalizing c absentIdx with
  | zero =>
    refine ⟨c, absentIdx, rfl, le_rfl, fun value _ _ => by omega, ?_, cut⟩
    intro label mem
    obtain ⟨i, bound, rfl⟩ := mem_iff_getElem.mp mem
    exact Nat.ne_of_lt (cut.below i bound (by omega))
  | succ rounds ih =>
    unfold skipAbsent
    split_ifs with gone
    · obtain ⟨bound, same⟩ := gone
      rw [byteAt_data wrote bound] at same
      obtain ⟨stop, index, walked, met, gap, others⟩ :=
        ih (by omega) (cut.succ rising bound same) (by omega)
      refine ⟨stop, index, walked, by omega, fun value lower upper => ?_, others⟩
      rcases Nat.eq_or_lt_of_le lower with rfl | more
      · exact ⟨_, getElem_mem bound, same⟩
      · exact gap value more upper
    · refine ⟨c, absentIdx, rfl, le_rfl, fun value _ _ => by omega, ?_, cut⟩
      intro label mem eq
      obtain ⟨i, bound, rfl⟩ := mem_iff_getElem.mp mem
      have after : absentIdx ≤ i := by
        by_contra before
        have less := cut.below i bound (not_le.mp before)
        omega
      have first : absentIdx < data.length := by omega
      have met := cut.above absentIdx first (le_rfl)
      apply gone
      rw [byteAt_data wrote first]
      rcases Nat.eq_or_lt_of_le after with same | less
      · exact ⟨first, by simp only [same, eq]⟩
      · have strict := pairwise_iff_getElem.mp rising absentIdx i first bound less
        have more := lt_iff_toNat_lt.mp strict
        omega

end

structure Spanned (labels : Bytes) (low high : UInt8) : Prop where
  increasing : Increasing labels
  first : low ∈ labels
  last : high ∈ labels
  ge : ∀ label ∈ labels, low.toNat ≤ label.toNat
  le : ∀ label ∈ labels, label.toNat ≤ high.toNat

section
variable {file rest labels absents : Bytes}

structure Absent (labels : Bytes) (low high : UInt8) (absents : Bytes) : Prop where
  increasing : Increasing absents
  mem : ∀ value, (∃ label ∈ absents, label.toNat = value) ↔
    low.toNat < value ∧ value < high.toNat ∧ ¬∃ label ∈ labels, label.toNat = value

theorem Absent.count (gone : Absent labels low high absents) (spanned : Spanned labels low high)
    (lower : low.toNat ≤ value) (upper : value ≤ high.toNat) :
    (labels.countP fun label => label.toNat < value) +
      (absents.countP fun label => label.toNat < value) = value - low.toNat := by
  have above : ∀ label ∈ absents, low.toNat ≤ label.toNat := fun label mem =>
    ((gone.mem label.toNat).mp ⟨label, mem, rfl⟩).1.le
  rw [countP_labels spanned.increasing spanned.ge, countP_labels gone.increasing above]
  trans (range' low.toNat (value - low.toNat)).length
  swap
  · exact length_range'
  rw [length_eq_countP_add_countP fun place => decide (∃ label ∈ labels, label.toNat = place),
    add_left_cancel_iff]
  apply countP_congr
  intro place mem
  rw [mem_range'_1] at mem
  rw [decide_eq_true_eq, decide_eq_true_eq, decide_eq_true_eq, gone.mem]
  constructor
  · exact fun between => between.2.2
  · intro missing
    refine ⟨?_, by omega, missing⟩
    by_contra first
    exact missing ⟨low, spanned.first, by omega⟩

/-- The greatest label, and the labels missing before it. -/
theorem ceilReverseArray_ceil (spanned : Spanned labels low high)
    (gone : Absent labels low high absents) (size : strategySize file node = absents.length + 1)
    (wrote : file.drop (node + 3) = (high :: absents) ++ rest) (later : low < b) :
    Ceil labels b (ceilReverseArray file node low b) := by
  have greatest : byteAt file (node + 3) = high := byteAt_data wrote (Nat.succ_pos _)
  have behind : file.drop (node + 3 + 1) = absents ++ rest := by
    have split : file.drop (node + 3) = [high] ++ (absents ++ rest) := wrote
    exact drop_past split rfl
  have cut := byteLowerBound_cut behind gone.increasing b
  have above := lt_iff_toNat_lt.mp later
  unfold ceilReverseArray
  dsimp only
  rw [greatest, size, Nat.add_sub_cancel]
  split_ifs with beyond
  · apply ceil_none
    intro label mem
    have most := spanned.le label mem
    have more := lt_iff_toNat_lt.mp beyond
    exact lt_iff_toNat_lt.mpr (by omega)
  · have reachable : b.toNat ≤ high.toNat := by
      rw [gt_iff_lt, lt_iff_toNat_lt] at beyond
      omega
    obtain ⟨stop, index, walked, met, gap, here, ends⟩ :=
      skipAbsent_spec behind gone.increasing (Nat.le_add_right _ _) cut
    have within : stop ≤ high.toNat := by
      by_contra past
      obtain ⟨label, mem, same⟩ := gap high.toNat reachable (by omega)
      have between := (gone.mem high.toNat).mp ⟨label, mem, same⟩
      omega
    have small : stop < 256 := within.trans_lt high.toNat_lt
    have word : (ofNat stop).toNat = stop := by
      rw [toNat_ofNat', Nat.mod_eq_of_lt small]
    have mem : ofNat stop ∈ labels := by
      by_contra missing
      have absent : ¬∃ label ∈ labels, label.toNat = stop := by
        rintro ⟨label, lt, rfl⟩
        rw [UInt8.ofNat_toNat] at missing
        exact missing lt
      have less : stop < high.toNat := by
        by_contra last
        exact absent ⟨high, spanned.last, by omega⟩
      obtain ⟨label, lt, same⟩ := (gone.mem stop).mpr ⟨by omega, less, absent⟩
      exact here label lt same
    have counted := gone.count spanned (show low.toNat ≤ stop by omega) within
    rw [← ends.count] at counted
    rw [walked]
    apply ceil_value spanned.increasing mem
    · rw [le_iff_toNat_le, word]
      exact met
    · intro label lt less
      rw [lt_iff_toNat_lt, word] at less
      rw [lt_iff_toNat_lt]
      by_contra stays
      obtain ⟨other, there, same⟩ := gap label.toNat (not_lt.mp stays) less
      exact ((gone.mem label.toNat).mp ⟨other, there, same⟩).2.2 ⟨label, lt, rfl⟩
    · rw [word]
      omega
    · rw [decide_eq_true_eq]
      simp only [lt_iff_toNat_lt, word]
      constructor
      · exact fun less => ⟨high, spanned.last, less⟩
      · rintro ⟨label, lt, less⟩
        exact less.trans_le (spanned.le label lt)

end

variable {bitmap : Nat}

theorem loadBitmapWord_eq (wrote : file.drop bitmap = data ++ rest) (byteOffset : Nat) :
    loadBitmapWord file bitmap data.length byteOffset = field (number data) (8 * byteOffset) 64 := by
  have small := number_lt data
  rw [pow_256] at small
  have loaded : load 8 file (bitmap + byteOffset) =
      field (number data + 2 ^ (8 * data.length) * number rest) (8 * byteOffset) 64 := by
    rw [← pow_256, ← number_append, ← wrote, load, ← drop_drop, ← load, load_eq_field]
  unfold loadBitmapWord
  split_ifs with beyond
  · have zero : field (number data) (8 * byteOffset) 64 = 0 := by
      unfold field
      rw [Nat.div_eq_of_lt, Nat.zero_mod]
      exact small.trans_le (Nat.pow_le_pow_right (by decide) (by omega))
    rw [zero, and_maskBits _ (Nat.zero_le 64), pow_zero, Nat.mod_one]
  · have narrow : min 64 ((data.length - byteOffset) * 8) ≤ 64 := Nat.min_le_left _ _
    rw [and_maskBits _ narrow, loaded, field_mod _ _ narrow, field_add_mul (by omega)]
    rcases Nat.le_total 64 ((data.length - byteOffset) * 8) with wide | short
    · rw [Nat.min_eq_left wide]
    rw [Nat.min_eq_right short]
    symm
    apply field_narrow _ short
    rw [show 8 * byteOffset + (data.length - byteOffset) * 8 = 8 * data.length by omega]
    exact small

variable {byteOffset bitInWord : Nat}

section
variable (wrote : file.drop bitmap = data ++ rest)
include wrote

theorem countBitsBelow_eq {bit : Nat} (enough : bit < rounds * 64) :
    rank (number data) (8 * byteOffset) +
        countBitsBelow file bitmap data.length rounds byteOffset bit =
      rank (number data) (8 * byteOffset + bit) := by
  induction rounds generalizing byteOffset bit with
  | zero => omega
  | succ rounds ih =>
    unfold countBitsBelow
    rw [loadBitmapWord_eq wrote]
    dsimp only
    split_ifs with more
    · have next : rank (number data) (8 * (byteOffset + 8)) +
          countBitsBelow file bitmap data.length rounds (byteOffset + 8) (bit - 64) =
          rank (number data) (8 * (byteOffset + 8) + (bit - 64)) := ih (by omega)
      have whole := popcount_field (number data) (8 * byteOffset) (le_refl 64)
      rw [show 8 * (byteOffset + 8) = 8 * byteOffset + 64 by omega, whole] at next
      rw [show 8 * byteOffset + bit = 8 * byteOffset + 64 + (bit - 64) by omega]
      omega
    · have narrow : bit ≤ 64 := by omega
      rw [and_maskBits _ narrow, field_mod _ _ narrow, ← popcount_field _ _ narrow]

theorem word_above (narrow : bitInWord ≤ 64) (bit : Nat) :
    (loadBitmapWord file bitmap data.length byteOffset &&&
      complement (maskBits bitInWord)).testBit bit =
      (decide (bitInWord ≤ bit ∧ bit < 64) && (number data).testBit (8 * byteOffset + bit)) := by
  rw [testBit_above narrow, loadBitmapWord_eq wrote, testBit_field]
  by_cases lt : bit < 64
  · simp [lt, Bool.and_comm]
  · simp [lt]

theorem word_above_lt (byteOffset bitInWord : Nat) :
    loadBitmapWord file bitmap data.length byteOffset &&& complement (maskBits bitInWord) <
      2 ^ 64 := by
  rw [loadBitmapWord_eq wrote]
  exact (Nat.and_le_left).trans_lt (field_lt _ _ _)

theorem word_above_eq_zero (narrow : bitInWord ≤ 64) :
    loadBitmapWord file bitmap data.length byteOffset &&& complement (maskBits bitInWord) = 0 ↔
      ∀ bit, 8 * byteOffset + bitInWord ≤ bit → bit < 8 * byteOffset + 64 →
        (number data).testBit bit = false := by
  rw [eq_zero_iff (word_above_lt wrote _ _)]
  constructor
  · intro clear bit lower upper
    have gone := clear (bit - 8 * byteOffset) (by omega)
    rw [word_above wrote narrow, decide_eq_true (by omega), Bool.true_and,
      show 8 * byteOffset + (bit - 8 * byteOffset) = bit by omega] at gone
    exact gone
  · intro clear bit lt
    rw [word_above wrote narrow]
    by_cases lower : bitInWord ≤ bit
    · rw [clear _ (by omega) (by omega), Bool.and_false]
    · rw [decide_eq_false (fun both => lower both.1), Bool.false_and]

end

theorem no_bits_beyond {bit : Nat} (beyond : 8 * data.length ≤ bit) :
    (number data).testBit bit = false := by
  have small := number_lt data
  rw [pow_256] at small
  exact Nat.testBit_lt_two_pow (small.trans_le (Nat.pow_le_pow_right (by decide) beyond))

theorem unmasked (wrote : file.drop bitmap = data ++ rest) (byteOffset bitInWord : Nat) :
    (if bitInWord ≠ 0 then loadBitmapWord file bitmap data.length byteOffset &&&
      complement (maskBits bitInWord) else loadBitmapWord file bitmap data.length byteOffset) =
      loadBitmapWord file bitmap data.length byteOffset &&& complement (maskBits bitInWord) := by
  split_ifs with inside
  · rfl
  · rw [not_not.mp inside, loadBitmapWord_eq wrote]
    have full : complement (maskBits 0) = 2 ^ 64 - 1 := rfl
    rw [full, and_two_pow_sub_one_of_lt_two_pow (field_lt _ _ _)]

def SetFrom (data : Bytes) (place : Nat) : Prop :=
  ∃ bit, place ≤ bit ∧ (number data).testBit bit = true

theorem not_setFrom {place : Nat} (beyond : 8 * data.length ≤ place) : ¬SetFrom data place := by
  rintro ⟨bit, lower, set⟩
  rw [no_bits_beyond (beyond.trans lower)] at set
  cases set

section
variable (wrote : file.drop bitmap = data ++ rest)
include wrote

theorem setFrom_word (narrow : bitInWord ≤ 64) : SetFrom data (8 * byteOffset + bitInWord) ↔
      loadBitmapWord file bitmap data.length byteOffset &&& complement (maskBits bitInWord) ≠ 0 ∨
        SetFrom data (8 * (byteOffset + 8) + 0) := by
  rw [ne_eq, word_above_eq_zero wrote narrow]
  constructor
  · rintro ⟨bit, lower, set⟩
    by_cases here : bit < 8 * byteOffset + 64
    · left
      intro clear
      rw [clear bit lower here] at set
      cases set
    · exact .inr ⟨bit, by omega, set⟩
  · rintro (found | ⟨bit, lower, set⟩)
    · by_contra never
      apply found
      intro bit lower _
      cases set : (number data).testBit bit with
      | false => rfl
      | true => exact absurd ⟨bit, lower, set⟩ never
    · exact ⟨bit, by omega, set⟩

theorem anyBitsLoop_iff (narrow : bitInWord ≤ 64) (enough : data.length ≤ rounds + byteOffset) :
    anyBitsLoop file bitmap data.length rounds byteOffset bitInWord = true ↔
      SetFrom data (8 * byteOffset + bitInWord) := by
  induction rounds generalizing byteOffset bitInWord with
  | zero => simpa [anyBitsLoop] using not_setFrom (by omega)
  | succ rounds ih =>
    unfold anyBitsLoop
    dsimp only
    rw [unmasked wrote]
    split
    · rw [setFrom_word wrote narrow, ← ih (zero_le _) (by omega)]
      by_cases zero : loadBitmapWord file bitmap data.length byteOffset &&&
          complement (maskBits bitInWord) = 0
      all_goals simp [zero]
    · simpa using not_setFrom (by omega)

theorem anyBitsAbove_iff (bit : Nat) :
    anyBitsAbove file bitmap data.length bit = true ↔ SetFrom data (bit + 1) := by
  unfold anyBitsAbove
  dsimp only
  split_ifs with last
  · simpa using not_setFrom (by omega)
  · have place : 8 * ((bit + 1) / 64 * 8) + (bit + 1) % 64 = bit + 1 := by omega
    rw [anyBitsLoop_iff wrote (by omega) (by omega), place]

end

structure FirstBit (data : Bytes) (place bit : Nat) : Prop where
  ge : place ≤ bit
  set : (number data).testBit bit = true
  least : ∀ lower, place ≤ lower → lower < bit → (number data).testBit lower = false

theorem ceilBitsLoop_spec (wrote : file.drop (node + 3) = data ++ rest)
    (size : strategySize file node = data.length) (minLabel : UInt8) (narrow : bitInWord ≤ 64)
    (enough : data.length ≤ rounds + byteOffset) :
    (¬SetFrom data (8 * byteOffset + bitInWord) ∧ ceilBitsLoop file node minLabel rounds
        byteOffset (8 * byteOffset) bitInWord = Child.none) ∨
      ∃ bit, FirstBit data (8 * byteOffset + bitInWord) bit ∧
        ceilBitsLoop file node minLabel rounds byteOffset (8 * byteOffset) bitInWord =
          ⟨rank (number data) bit, ofNat (minLabel.toNat + bit), true,
            anyBitsAbove file (node + 3) data.length bit⟩ := by
  induction rounds generalizing byteOffset bitInWord with
  | zero => exact .inl ⟨not_setFrom (by omega), rfl⟩
  | succ rounds ih =>
    unfold ceilBitsLoop
    rw [size]
    dsimp only
    split_ifs with lt nonzero
    · obtain ⟨within, set, least⟩ := countrZero_spec (word_above_lt wrote _ _) nonzero
      generalize countrZero (loadBitmapWord file (node + 3) data.length byteOffset &&&
        complement (maskBits bitInWord)) = place at *
      rw [word_above wrote narrow, Bool.and_eq_true, decide_eq_true_eq] at set
      refine .inr ⟨8 * byteOffset + place, ⟨by omega, set.2, fun lower after before => ?_⟩, ?_⟩
      · have gone := least (lower - 8 * byteOffset) (by omega)
        rw [word_above wrote narrow, decide_eq_true (by omega), Bool.true_and,
          show 8 * byteOffset + (lower - 8 * byteOffset) = lower by omega] at gone
        exact gone
      · have counted : rank (number data) (8 * 0) + countBitsBelow file (node + 3) data.length
            (8 * byteOffset + place + 1) 0 (8 * byteOffset + place) =
            rank (number data) (8 * 0 + (8 * byteOffset + place)) :=
          countBitsBelow_eq wrote (by omega)
        simp only [Nat.mul_zero, zero_add] at counted
        rw [← counted]
        simp [rank]
    · have zero := Classical.not_not.mp nonzero
      have clear := (word_above_eq_zero wrote narrow).mp zero
      rw [setFrom_word wrote narrow]
      rcases ih (Nat.zero_le _) (show data.length ≤ rounds + (byteOffset + 8) by omega) with
        ⟨never, out⟩ | ⟨bit, first, out⟩
      · exact .inl ⟨not_or.mpr ⟨nonzero, never⟩, out⟩
      refine .inr ⟨bit, ⟨?_, first.set, fun lower after before => ?_⟩, out⟩
      · have ge := first.ge
        omega
      · by_cases here : lower < 8 * byteOffset + 64
        · exact clear lower after here
        · exact first.least lower (by omega) before
    · exact .inl ⟨not_setFrom (by omega), rfl⟩

def Marked (labels : Bytes) (low : UInt8) (data : Bytes) : Prop :=
  ∀ bit, (number data).testBit bit = true ↔ ∃ label ∈ labels, label.toNat = low.toNat + bit

theorem Marked.rank_eq (marked : Marked labels low data) (spanned : Spanned labels low high)
    (bit : Nat) :
    rank (number data) bit = labels.countP fun label => label.toNat < low.toNat + bit := by
  rw [countP_labels spanned.increasing spanned.ge, Nat.add_sub_cancel_left, range'_eq_map_range,
    countP_map, rank]
  apply countP_congr
  intro place _
  simp [marked place]

theorem ceilBits_ceil (spanned : Spanned labels low high)
    (marked : Marked labels low data) (size : strategySize file node = data.length)
    (wrote : file.drop (node + 3) = data ++ rest) : Ceil labels b (ceilBits file node low b) := by
  have below : ¬SetFrom data (b.toNat - low.toNat) → ∀ label ∈ labels, label < b := by
    intro never label mem
    rw [lt_iff_toNat_lt]
    by_contra met
    have ge := spanned.ge label mem
    apply never
    refine ⟨label.toNat - low.toNat, by omega, ?_⟩
    rw [marked]
    exact ⟨label, mem, by omega⟩
  unfold ceilBits
  dsimp only
  rw [size]
  split_ifs with beyond
  · exact ceil_none (below (not_setFrom (by omega)))
  generalize offset : (b.toNat - low.toNat) / 64 * 8 = byteOffset at *
  have place : 8 * byteOffset + (b.toNat - low.toNat - 8 * byteOffset) =
      b.toNat - low.toNat := by omega
  rw [mul_comm byteOffset 8]
  rcases ceilBitsLoop_spec wrote size low (show b.toNat - low.toNat - 8 * byteOffset ≤ 64 by omega)
    (le_add_right data.length byteOffset) with ⟨never, out⟩ | ⟨bit, first, out⟩
  · rw [out]
    rw [place] at never
    exact ceil_none (below never)
  rw [place] at first
  rw [out]
  obtain ⟨label, mem, same⟩ := (marked bit).mp first.set
  have word : ofNat (low.toNat + bit) = label := by
    rw [← same, UInt8.ofNat_toNat]
  have ge := first.ge
  rw [word]
  apply ceil_value spanned.increasing mem
  · rw [le_iff_toNat_le]
    omega
  · intro other lt less
    rw [lt_iff_toNat_lt] at less ⊢
    by_contra stays
    have lower := spanned.ge other lt
    have gone := first.least (other.toNat - low.toNat) (by omega) (by omega)
    have set := (marked (other.toNat - low.toNat)).mpr ⟨other, lt, by omega⟩
    rw [gone] at set
    cases set
  · rw [marked.rank_eq spanned, same]
  · rw [anyBitsAbove_iff wrote]
    constructor
    · rintro ⟨next, after, set⟩
      obtain ⟨other, lt, eq⟩ := (marked next).mp set
      exact ⟨other, lt, lt_iff_toNat_lt.mpr (by omega)⟩
    · rintro ⟨other, lt, more⟩
      have less := lt_iff_toNat_lt.mp more
      exact ⟨other.toNat - low.toNat, by omega, (marked _).mpr ⟨other, lt, by omega⟩⟩

end Luxir.Reader.TrieLabels
