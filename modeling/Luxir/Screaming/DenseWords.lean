import Luxir.Lib.BitLists
import Luxir.Screaming.SetReader

/-!
The words of a dense bucket: the search for the next bit, the rank of a bit and the bit of a rank
are those of the whole bitmap.
-/

namespace Luxir.Screaming.DenseWords
open Lib.Bytes Lib.Bits Lib.BitLists SetBuilder SetReader Util.BranchlessSearch Nat

structure Words (file : Bytes) (place bits : Nat) : Prop where
  word : ∀ i < fixedNumWords, wordAt file place i = word bits i
  rankAt : ∀ m < rankIndexEntries, rankIndexAt file place m = rank bits (m * 512)
  inside : ∀ v, bits.testBit v = true → v < bucketWidth

def FirstBit (bits position result : Nat) : Prop :=
  (result = maxIndex ∧ ∀ v, position ≤ v → bits.testBit v = false) ∨
    (position ≤ result ∧ bits.testBit result = true ∧
      ∀ v, position ≤ v → v < result → bits.testBit v = false)

variable {file : Bytes} {place bits : Nat}

theorem word_lt (bits i : Nat) : word bits i < 2 ^ 64 := field_lt bits (i * 64) 64

theorem testBit_word (bits i bit : Nat) :
    (word bits i).testBit bit = (decide (bit < 64) && bits.testBit (i * 64 + bit)) :=
  testBit_field bits (i * 64) 64 bit

theorem testBit_in_word (bits v : Nat) : (word bits (v / 64)).testBit (v % 64) = bits.testBit v := by
  rw [testBit_word, decide_eq_true (mod_lt v (by decide)), Bool.true_and, mul_comm, div_add_mod]

theorem FirstBit.back {position start out : Nat} (first : FirstBit bits position out)
    (order : start ≤ position) (empty : ∀ v, start ≤ v → v < position → bits.testBit v = false) :
    FirstBit bits start out := by
  rcases first with ⟨missing, clear⟩ | ⟨met, here, clear⟩
  · refine .inl ⟨missing, fun v lower => ?_⟩
    rcases lt_or_ge v position with less | more
    · exact empty v lower less
    · exact clear v more
  · refine .inr ⟨order.trans met, here, fun v lower upper => ?_⟩
    rcases lt_or_ge v position with less | more
    · exact empty v lower less
    · exact clear v more upper

theorem nextSetBitLoop_first (words : Words file place bits) {rounds i : Nat}
    (enough : fixedNumWords ≤ rounds + i) :
    FirstBit bits (i * 64) (nextSetBitLoop file place rounds i) := by
  have ended : ∀ i, fixedNumWords ≤ i → FirstBit bits (i * 64) maxIndex := by
    intro i full
    refine .inl ⟨rfl, fun v lower => ?_⟩
    by_contra here
    have bound := words.inside v (Bool.not_eq_false _ ▸ here)
    rw [fixedNumWords] at full
    rw [bucketWidth] at bound
    omega
  fun_induction nextSetBitLoop file place rounds i with
  | case1 i => exact ended i (by omega)
  | case2 rounds i more nonzero =>
    rw [words.word i more] at nonzero ⊢
    obtain ⟨small, here, below⟩ := countrZero_spec (word_lt bits i) nonzero
    refine .inr ⟨le_add_right _ _, ?_, fun v lower upper => ?_⟩
    · rw [testBit_word] at here
      exact (Bool.and_eq_true_iff.mp here).2
    · have same : v / 64 = i := by omega
      rw [← testBit_in_word, same]
      exact below _ (by omega)
  | case3 rounds i more zero ih =>
    rw [words.word i more, not_not] at zero
    refine (ih (by omega)).back (by omega) fun v lower upper => ?_
    have same : v / 64 = i := by omega
    rw [← testBit_in_word, same, zero, zero_testBit]
  | case4 rounds i => exact ended i (by omega)

theorem nextSetBit_first (words : Words file place bits) {val : Nat} (lt : val < bucketWidth) :
    FirstBit bits val (nextSetBit file place val) := by
  unfold nextSetBit
  dsimp only
  rw [bucketWidth] at lt
  rw [words.word _ (by rw [fixedNumWords]; omega)]
  have shifted : word bits (val / 64) >>> (val % 64) < 2 ^ 64 := by
    rw [shiftRight_eq_div_pow]
    exact (Nat.div_le_self _ _).trans_lt (word_lt bits _)
  have bit : ∀ v, val ≤ v → v / 64 = val / 64 →
      bits.testBit v = (word bits (val / 64) >>> (val % 64)).testBit (v - val) := by
    intro v lower same
    have place_in : val % 64 + (v - val) = v % 64 := by omega
    rw [testBit_shiftRight, place_in, ← same, testBit_in_word]
  by_cases zero : word bits (val / 64) >>> (val % 64) = 0
  · rw [if_neg (not_not.mpr zero)]
    refine (nextSetBitLoop_first words (Nat.le_add_right _ _)).back (by omega)
      fun v lower upper => ?_
    rw [bit v lower (by omega), zero, zero_testBit]
  · rw [if_pos zero]
    obtain ⟨_, here, below⟩ := countrZero_spec shifted zero
    have short : countrZero (word bits (val / 64) >>> (val % 64)) + val % 64 < 64 := by
      by_contra outside
      rw [testBit_shiftRight, testBit_word, decide_eq_false (by omega), Bool.false_and] at here
      cases here
    refine .inr ⟨Nat.le_add_right _ _, ?_, fun v lower upper => ?_⟩
    · rw [bit _ (Nat.le_add_right _ _) (by omega), Nat.add_sub_cancel_left]
      exact here
    · rw [bit v lower (by omega)]
      exact below _ (by omega)

theorem rank_word (bits i : Nat) :
    rank bits ((i + 1) * 64) = rank bits (i * 64) + popcount (word bits i) := by
  rw [add_mul, one_mul]
  exact popcount_field bits (i * 64) (le_refl 64)

theorem rank_words (words : Words file place bits) (first count : Nat)
    (lt : first + count < fixedNumWords) : (List.range' first count).foldl
      (fun rankBase i => (rankBase + popcount (wordAt file place i)) % 65536)
      (rank bits (first * 64)) = rank bits ((first + count) * 64) := by
  induction count generalizing first with
  | zero => rfl
  | succ count ih =>
    have most := rank_le bits ((first + 1) * 64)
    rw [fixedNumWords] at lt
    rw [List.range'_succ, List.foldl_cons, words.word _ (by rw [fixedNumWords]; omega), ← rank_word,
      mod_eq_of_lt (by omega), ih (first + 1) (by rw [fixedNumWords]; omega)]
    congr 2
    omega

theorem rankDense_eq (words : Words file place bits) {localIndex : Nat}
    (lt : localIndex < bucketWidth) : rankDense file place localIndex = rank bits localIndex := by
  rw [bucketWidth] at lt
  have most := rank_le bits localIndex
  unfold rankDense
  dsimp only
  have start : rankIndexAt file place (localIndex / (64 * wordsPerCount)) =
      rank bits (localIndex / 64 / wordsPerCount * wordsPerCount * 64) := by
    rw [wordsPerCount, words.rankAt _ (by rw [rankIndexEntries]; omega)]
    congr 1
    omega
  have whole := rank_words words (localIndex / 64 / wordsPerCount * wordsPerCount)
    (localIndex / 64 - localIndex / 64 / wordsPerCount * wordsPerCount)
    (by rw [wordsPerCount, fixedNumWords]; omega)
  have index : localIndex / 64 / wordsPerCount * wordsPerCount +
      (localIndex / 64 - localIndex / 64 / wordsPerCount * wordsPerCount) = localIndex / 64 := by
    rw [wordsPerCount]
    omega
  rw [index] at whole
  have rest : word bits (localIndex / 64) &&& (1 <<< (localIndex % 64) - 1) =
      field bits (localIndex / 64 * 64) (localIndex % 64) := by
    rw [one_shiftLeft, and_two_pow_sub_one_eq_mod, word,
      field_mod _ _ (le_of_lt (mod_lt _ (by decide)))]
  have final := popcount_field bits (localIndex / 64 * 64)
    (le_of_lt (mod_lt localIndex (show 0 < 64 by decide)))
  rw [div_add_mod'] at final
  rw [start, whole, words.word _ (by rw [fixedNumWords]; omega), rest, ← final,
    mod_eq_of_lt (by omega)]

theorem selectInWord_spec {word r : Nat} (small : word < 2 ^ 64) (more : r < popcount word) :
    selectInWord word r < 64 ∧ word.testBit (selectInWord word r) = true ∧
      rank word (selectInWord word r) = r := by
  have known : r < (setBits word).length := more.trans_eq (length_setBits word).symm
  rw [← setBits_select selectInWord (fun _ => rfl) (fun _ _ => rfl) small known]
  obtain ⟨lt, here⟩ := mem_setBits.mp (List.getElem_mem known)
  exact ⟨lt, here, rank_setBits small known⟩

theorem selectLoop_spec (words : Words file place bits)
    (more : localRank < rank bits (fixedNumWords * 64)) {rounds wordIdx : Nat}
    (enough : fixedNumWords ≤ rounds + wordIdx) (met : rank bits (wordIdx * 64) ≤ localRank) :
    ∃ found < fixedNumWords,
      selectLoop file place localRank rounds wordIdx (rank bits (wordIdx * 64)) =
        (found, rank bits (found * 64)) ∧
      rank bits (found * 64) ≤ localRank ∧ localRank < rank bits ((found + 1) * 64) := by
  have lt : wordIdx < fixedNumWords := by
    by_contra outside
    have most := rank_mono bits
      (show fixedNumWords * 64 ≤ wordIdx * 64 from mul_le_mul_right _ (not_lt.mp outside))
    omega
  induction rounds generalizing wordIdx with
  | zero => omega
  | succ rounds ih =>
    unfold selectLoop
    dsimp only
    rw [words.word wordIdx lt, ← rank_word]
    split_ifs with here
    · exact ⟨wordIdx, lt, rfl, met, here⟩
    refine ih (by omega) (not_lt.mp here) ?_
    by_contra outside
    have last : wordIdx + 1 = fixedNumWords := by omega
    rw [last] at here
    omega

theorem selectDense_spec (words : Words file place bits)
    (more : localRank < rank bits bucketWidth) :
    bits.testBit (selectDense file place localRank) = true ∧
      rank bits (selectDense file place localRank) = localRank := by
  have ascends : ∀ first second, first ≤ second → second < rankIndexEntries →
      rankIndexAt file place first ≤ rankIndexAt file place second := by
    intro first second order lt
    rw [words.rankAt second lt, words.rankAt first (order.trans_lt lt)]
    exact rank_mono bits (mul_le_mul_right _ order)
  have cut := upperBound_cut localRank ascends
  unfold selectDense
  dsimp only
  generalize upperBound (rankIndexAt file place) rankIndexEntries localRank = lo at cut ⊢
  have pos : 0 < lo := by
    by_contra zero
    have first := cut.after 0 (by omega) (by decide)
    rw [words.rankAt 0 (by decide), Bool.not_eq_false', decide_eq_true_eq] at first
    have start : rank bits (0 * 512) = 0 := rfl
    omega
  have lt : lo - 1 < rankIndexEntries := by
    have bound := cut.le
    omega
  have met := cut.before (lo - 1) (by omega)
  rw [words.rankAt _ lt, Bool.not_eq_true', decide_eq_false_iff_not, not_lt] at met
  have start : (lo - 1) * 512 = (lo - 1) * wordsPerCount * 64 := by
    rw [wordsPerCount]
    omega
  rw [start] at met
  obtain ⟨found, bound, loop, low, high⟩ := selectLoop_spec words more
    (le_add_right fixedNumWords _) met
  rw [words.rankAt _ lt, start, loop, words.word found bound]
  have next := rank_word bits found
  obtain ⟨short, here, ranked⟩ := selectInWord_spec (word_lt bits found)
    (show localRank - rank bits (found * 64) < popcount (word bits found) by omega)
  generalize selectInWord (word bits found) (localRank - rank bits (found * 64)) = bit at *
  constructor
  · rw [testBit_word] at here
    exact (Bool.and_eq_true_iff.mp here).2
  have split := rank_add bits (found * 64) bit
  have inner : rank (field bits (found * 64) bit) bit = rank (word bits found) bit := by
    apply rank_congr
    intro v less
    rw [testBit_field, decide_eq_true less, Bool.true_and, testBit_word,
      decide_eq_true (show v < 64 by omega), Bool.true_and]
  rw [split, inner, ranked]
  omega

end Luxir.Screaming.DenseWords
