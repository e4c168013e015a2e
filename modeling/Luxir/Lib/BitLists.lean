import Luxir.Lib.Bits
import Mathlib.Data.List.Sort

/-!
The bits of words as ascending lists of their places. A loop that takes the lowest bit of a word
until none is left goes through such a list.
-/

namespace Luxir.Lib.BitLists
open Bits List List.Pairwise Nat

def Ascending (list : List Nat) : Prop := list.Pairwise fun low high => low < high

theorem Ascending.ext {first second : List Nat} (one : Ascending first) (two : Ascending second)
    (same : ∀ place, place ∈ first ↔ place ∈ second) : first = second :=
  eq_of_mem_iff one two same

theorem Ascending.getElem_lt {list : List Nat} (rising : Ascending list) {i j : Nat}
    (one : i < list.length) (two : j < list.length) : list[i] < list[j] ↔ i < j := by
  have order := pairwise_iff_getElem.mp rising
  constructor
  · intro less
    by_contra past
    rcases lt_or_eq_of_le (not_lt.mp past) with before | rfl
    · exact lt_asymm less (order j i two one before)
    · exact lt_irrefl _ less
  · exact order i j one two

theorem Ascending.filter_between {list : List Nat} (rising : Ascending list) {first last : Nat}
    {low high : Nat} (order : first ≤ last)
    (lower : ∀ i (known : i < list.length), low ≤ list[i] ↔ first ≤ i)
    (upper : ∀ i (known : i < list.length), list[i] < high ↔ i < last) :
    (list.filter fun place => low ≤ place ∧ place < high) =
      (list.drop first).take (last - first) := by
  refine Ascending.ext (filter _ rising)
    (sublist ((take_sublist _ _).trans (drop_sublist _ _)) rising)
    fun place => ?_
  rw [mem_filter, decide_eq_true_eq]
  constructor
  · rintro ⟨mem, above, below⟩
    obtain ⟨i, known, rfl⟩ := getElem_of_mem mem
    have one := (lower i known).mp above
    have two := (upper i known).mp below
    rw [mem_take_iff_getElem]
    refine ⟨i - first, ?_, ?_⟩
    · rw [length_drop]
      omega
    · rw [getElem_drop]
      congr 1
      omega
  · intro mem
    obtain ⟨i, known, rfl⟩ := mem_take_iff_getElem.mp mem
    rw [length_drop] at known
    rw [getElem_drop]
    exact ⟨getElem_mem _, (lower _ _).mpr (by omega), (upper _ _).mpr (by omega)⟩

def setBits (word : Nat) : List Nat := (range 64).filter word.testBit

theorem mem_setBits {word place : Nat} :
    place ∈ setBits word ↔ place < 64 ∧ word.testBit place = true := by
  rw [setBits, mem_filter, mem_range]

theorem setBits_ascending (word : Nat) : Ascending (setBits word) := filter _ pairwise_lt_range

theorem length_setBits (word : Nat) : (setBits word).length = popcount word := by
  rw [setBits, popcount, rank, countP_eq_length_filter]

theorem setBits_zero : setBits 0 = [] := by
  rw [setBits, filter_eq_nil_iff]
  intro place _
  rw [zero_testBit]
  exact Bool.false_ne_true

theorem setBits_cons {word : Nat} (small : word < 2 ^ 64) (nonzero : word ≠ 0) :
    setBits word = countrZero word :: setBits (word &&& (word - 1)) := by
  obtain ⟨lt, here, below⟩ := countrZero_spec small nonzero
  refine Ascending.ext (setBits_ascending word) (pairwise_cons.mpr ⟨fun place mem => ?_,
    setBits_ascending _⟩) fun place => ?_
  · obtain ⟨_, set⟩ := mem_setBits.mp mem
    rw [testBit_clear_lowest small nonzero, Bool.and_eq_true, decide_eq_true_eq] at set
    by_contra less
    rcases lt_or_eq_of_le (not_lt.mp less) with before | same
    · rw [below place before] at set
      exact absurd set.1 Bool.false_ne_true
    · exact set.2 same
  · rw [mem_cons, mem_setBits, mem_setBits, testBit_clear_lowest small nonzero,
      Bool.and_eq_true, decide_eq_true_eq]
    by_cases same : place = countrZero word
    · simp [same, lt, here]
    · simp [same]

/-- Clearing the lowest bit as often as bits are skipped leads to the bit of a rank. -/
theorem setBits_select (select : Nat → Nat → Nat) (first : ∀ word, select word 0 = countrZero word)
    (next : ∀ word r, select word (r + 1) = select (word &&& (word - 1)) r) {word r : Nat}
    (small : word < 2 ^ 64) (known : r < (setBits word).length) :
    (setBits word)[r] = select word r := by
  have nonzero : ∀ {word place : Nat}, place < (setBits word).length → word ≠ 0 := by
    rintro _ place known rfl
    exact not_lt_zero _ known
  induction r generalizing word with
  | zero => simp only [setBits_cons small (nonzero known), getElem_cons_zero, first]
  | succ r ih =>
    have bits := setBits_cons small (nonzero known)
    simp only [bits, getElem_cons_succ, next]
    rw [bits] at known
    exact ih (and_le_left.trans_lt small) (lt_of_succ_lt_succ known)

theorem rank_setBits {word r : Nat} (small : word < 2 ^ 64) (known : r < (setBits word).length) :
    rank word (setBits word)[r] = r := by
  have rising := setBits_ascending word
  have exact_bits : ∀ bit, word.testBit bit = true ↔ bit ∈ setBits word := by
    intro bit
    rw [mem_setBits, iff_and_self]
    exact fun set => (Nat.pow_lt_pow_iff_right (by decide)).mp
      ((Nat.ge_two_pow_of_testBit set).trans_lt small)
  rw [rank_eq_countP (rising.imp Nat.ne_of_lt) exact_bits]
  apply countP_of_cut known.le
  intro i lt
  rw [decide_eq_true_eq, rising.getElem_lt lt known]

def wordsBits (wordAt : Nat → Nat) (first count : Nat) : List Nat :=
  (range' first count).flatMap fun i => (setBits (wordAt i)).map fun place => i * 64 + place

variable {wordAt : Nat → Nat}

theorem mem_wordsBits {first count place : Nat} : place ∈ wordsBits wordAt first count ↔
    first ≤ place / 64 ∧ place / 64 < first + count ∧
      (wordAt (place / 64)).testBit (place % 64) = true := by
  rw [wordsBits, mem_flatMap]
  constructor
  · rintro ⟨i, lt, mem⟩
    obtain ⟨bit, known, rfl⟩ := mem_map.mp mem
    obtain ⟨short, set⟩ := mem_setBits.mp known
    rw [mem_range'_1] at lt
    have word : (i * 64 + bit) / 64 = i := by omega
    have rest : (i * 64 + bit) % 64 = bit := by omega
    rw [word, rest]
    exact ⟨lt.1, lt.2, set⟩
  · rintro ⟨lower, upper, set⟩
    refine ⟨place / 64, mem_range'_1.mpr ⟨lower, upper⟩, mem_map.mpr
      ⟨place % 64, mem_setBits.mpr ⟨mod_lt _ (by omega), set⟩, by omega⟩⟩

theorem wordsBits_ascending (first count : Nat) : Ascending (wordsBits wordAt first count) := by
  unfold wordsBits Ascending
  rw [pairwise_flatMap]
  refine ⟨fun i _ => ?_, imp (fun {low high} order => ?_) pairwise_lt_range'⟩
  · rw [pairwise_map]
    exact (setBits_ascending _).imp fun less => Nat.add_lt_add_left less _
  intro one mem two known
  obtain ⟨a, lt, rfl⟩ := mem_map.mp mem
  obtain ⟨b, _, rfl⟩ := mem_map.mp known
  have short := (mem_setBits.mp lt).1
  omega

theorem wordsBits_succ (wordAt : Nat → Nat) (first count : Nat) : wordsBits wordAt first (count + 1) =
    wordsBits wordAt first count ++
      (setBits (wordAt (first + count))).map fun place => (first + count) * 64 + place := by
  unfold wordsBits
  rw [range'_1_concat, flatMap_append, flatMap_singleton]

theorem wordsBits_cons (wordAt : Nat → Nat) (first count : Nat) : wordsBits wordAt first (count + 1) =
    ((setBits (wordAt first)).map fun place => first * 64 + place) ++
      wordsBits wordAt (first + 1) count := by
  unfold wordsBits
  rw [range'_succ, flatMap_cons]

theorem length_wordsBits_mono (wordAt : Nat → Nat) (first : Nat) {count more : Nat}
    (order : count ≤ more) :
    (wordsBits wordAt first count).length ≤ (wordsBits wordAt first more).length := by
  induction more, order using le_induction with
  | base => exact le_refl _
  | succ =>
    rw [wordsBits_succ, length_append]
    omega

end Luxir.Lib.BitLists
