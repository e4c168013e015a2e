import Luxir.Codec.PlainKernels
import Luxir.Codec.TransposedDelta

/-!
A block is decoded from the bytes it was encoded to, and decoding and skipping step over exactly
these.
-/

namespace Luxir.Codec.PforRoundTrip
open Lib.Bytes Lib.Words Pfor PforLane PlainKernels TransposedDelta List LuxirPFORd UInt8 Nat

variable {b : Nat} {patchOf : Nat → Word} {byte : UInt8} {word : Word}

section
variable {input : Block}

def wider (input : Block) (b : Nat) : Nat :=
  (finRange blockSize).countP fun i => b < bitWidth (input i).toNat

theorem topWidth_spec (freqs : Nat → Nat) (k : Nat) :
    topWidth freqs k ≤ k ∧ ∀ j, topWidth freqs k < j → j ≤ k → freqs j = 0 := by
  induction k with
  | zero => exact ⟨le_rfl, fun j above below => by omega⟩
  | succ k ih =>
    unfold topWidth
    split_ifs with unused
    · refine ⟨ih.1.trans (le_succ _), fun j above below => ?_⟩
      rcases lt_or_eq_of_le below with less | rfl
      · exact ih.2 j above (le_of_lt_succ less)
      · exact unused
    · exact ⟨le_rfl, fun j above below => by omega⟩

abbrev widest (input : Block) : Nat := maxWidth widthOf input

theorem widest_le (input : Block) : widest input ≤ 32 := (topWidth_spec _ 32).1

theorem width_le (input : Block) (i : Fin blockSize) : bitWidth (input i).toNat ≤ widest input := by
  by_contra above
  have most := bitWidth_le.mpr (input i).isLt
  have unused := (topWidth_spec (freqs widthOf input) 32).2 _ (not_le.mp above) most
  unfold freqs at unused
  rw [countP_eq_zero] at unused
  exact unused i (mem_finRange i) (decide_eq_true rfl)

theorem wider_succ (input : Block) (b : Nat) :
    wider input b = wider input (b + 1) + freqs widthOf input (b + 1) := by
  unfold wider freqs widthOf
  induction finRange blockSize with
  | nil => rfl
  | cons i rest ih =>
    simp only [countP_cons, ih, decide_eq_true_eq]
    split_ifs <;> omega

theorem wider_eq_zero : wider input b = 0 ↔ ∀ i, bitWidth (input i).toNat ≤ b := by
  unfold wider
  rw [countP_eq_zero]
  constructor
  · intro nowhere i
    have less := nowhere i (mem_finRange i)
    rw [decide_eq_true_eq] at less
    exact not_lt.mp less
  · intro all i _
    rw [decide_eq_true_eq]
    exact not_lt.mpr (all i)

theorem narrow_counts (input : Block) (maxb b : Nat) (best : Best)
    (low : best.bestb ≤ maxb) (within : b ≤ maxb)
    (counted : best.bestcexcept = wider input best.bestb) :
    (narrow (freqs widthOf input) maxb b (wider input b) best).bestb ≤ maxb ∧
      (narrow (freqs widthOf input) maxb b (wider input b) best).bestcexcept =
        wider input (narrow (freqs widthOf input) maxb b (wider input b) best).bestb := by
  induction b generalizing best with
  | zero => exact ⟨low, counted⟩
  | succ b ih =>
    unfold narrow
    dsimp only
    rw [← wider_succ]
    split_ifs with cheaper
    · exact ih ⟨b, wider input b, cost maxb b (wider input b)⟩ (le_of_succ_le within)
        (le_of_succ_le within) rfl
    · exact ih best low (le_of_succ_le within) counted

abbrev best (input : Block) : Best := getBestBFromData widthOf input

theorem best_counts (input : Block) : (best input).bestb ≤ widest input ∧
      (best input).bestcexcept = wider input (best input).bestb := by
  have nowhere := wider_eq_zero.mpr (width_le input)
  have counts := narrow_counts input (widest input) (widest input)
    ⟨widest input, 0, widest input * blockSize⟩ (le_rfl) (le_rfl) nowhere.symm
  rwa [nowhere] at counts

theorem toNat_one_shiftLeft (bound : b < 32) : ((1 : Word) <<< b).toNat = 2 ^ b := by
  rw [BitVec.toNat_shiftLeft, Nat.shiftLeft_eq]
  show 1 * 2 ^ b % 2 ^ 32 = 2 ^ b
  rw [Nat.one_mul]
  exact Nat.mod_eq_of_lt (Nat.pow_lt_pow_right (by omega) bound)

theorem exception_iff (bound : b < 32) (word : Word) :
    (1 : Word) <<< b ≤ word ↔ b < bitWidth word.toNat := by
  have fits : bitWidth word.toNat ≤ b ↔ word.toNat < 2 ^ b := bitWidth_le
  rw [BitVec.le_def, toNat_one_shiftLeft bound]
  omega

theorem length_exceptions (bound : b < 32) : (exceptions input b).length = wider input b := by
  unfold exceptions wider
  rw [countP_eq_length_filter]
  refine congrArg length (filter_congr fun i _ => ?_)
  exact decide_eq_decide.mpr (exception_iff bound (input i))

theorem mem_exceptions (bound : b < 32) {i : Fin blockSize} :
    i ∈ exceptions input b ↔ b < bitWidth (input i).toNat := by
  unfold exceptions
  rw [mem_filter, decide_eq_true_eq, exception_iff bound]
  exact and_iff_right (mem_finRange i)

end

theorem low_or_high (bits : Nat) (word : Word) : low bits word ||| word >>> bits <<< bits = word := by
  apply BitVec.eq_of_getLsbD_eq
  intro i lt
  rw [low, BitVec.getLsbD_or, BitVec.getLsbD_ofNat, Nat.testBit_mod_two_pow, BitVec.testBit_toNat,
    BitVec.getLsbD_shiftLeft, BitVec.getLsbD_ushiftRight]
  by_cases below : i < bits
  · simp [below, lt]
  · rw [Nat.add_sub_cancel' (not_lt.mp below)]
    simp [below, lt]

theorem low_of_fits {bits : Nat} (fits : bitWidth word.toNat ≤ bits) : low bits word = word := by
  rw [low, mod_eq_of_lt (bitWidth_le.mp fits), BitVec.ofNat_toNat, BitVec.setWidth_eq]

theorem patches_eq {positions : List (Fin blockSize)} (nodup : positions.Nodup)
    (value : Fin blockSize → Word) {place : Nat → Nat}
    (places : ∀ k (known : k < positions.length), place k = positions[k].val)
    (values : ∀ k (known : k < positions.length), patchOf k = value positions[k])
    (out : Block) (rounds : Nat) (bound : rounds ≤ positions.length) :
    (range rounds).foldl (fun out k => patch out (place k) (patchOf k)) out =
      fun i => if i ∈ positions.take rounds then out i ||| value i else out i := by
  induction rounds with
  | zero =>
    funext i
    simp
  | succ rounds ih =>
    have lt := bound
    rw [range_succ, foldl_append, ih (le_of_succ_le bound), foldl_cons, foldl_nil]
    funext i
    unfold patch
    rw [places rounds lt, values rounds lt, take_succ_eq_append_getElem lt]
    simp only [mem_append, mem_singleton, Fin.val_inj]
    by_cases same : i = positions[rounds]
    · have fresh : i ∉ positions.take rounds := by
        intro mem
        obtain ⟨k, known, eq⟩ := mem_take_iff_getElem.mp mem
        have clash := (List.Nodup.getElem_inj_iff nodup).mp (eq.trans same)
        omega
      rw [if_pos same, if_neg fresh, if_pos (.inr same), same]
    · simp only [same, or_false, if_false]

theorem byteAt_eq {bytes : Bytes} {i : Nat} (found : bytes[i]? = some byte) :
    byteAt bytes i = byte.toNat := by
  obtain ⟨lt, same⟩ := List.getElem?_eq_some_iff.mp found
  rw [byteAt, load, drop_eq_getElem_cons lt, same]
  show byte.toNat + 256 * 0 = byte.toNat
  omega

theorem wordsFrom_add (bytes : Bytes) (place more : Nat) :
    wordsFrom bytes (place + more) = (wordsFrom bytes place).drop more := by
  unfold wordsFrom
  apply ext_getElem
  · rw [length_map, length_range, length_drop, length_map, length_range]
    omega
  · intro i first second
    rw [getElem_drop, getElem_map, getElem_map, getElem_range, getElem_range, add_assoc]

theorem wordsFrom_eq {bytes back : Bytes} {words : List Word} {place : Nat}
    (wrote : bytes.drop (4 * place) = wordBytes words ++ back) :
    ∃ rest, wordsFrom bytes place = words ++ rest := by
  have fixed : ∀ word : Word, (spell 4 word.toNat).length = 4 := fun word => length_spell 4 _
  refine ⟨(wordsFrom bytes place).drop words.length, ?_⟩
  have enough : words.length ≤ bytes.length / 4 - place := by
    have whole := congrArg length wrote
    rw [length_drop, length_append, wordBytes, length_flatMap fixed] at whole
    omega
  have first : (wordsFrom bytes place).take words.length = words := by
    unfold wordsFrom
    apply ext_getElem
    · rw [length_take, length_map, length_range]
      omega
    intro i lt known
    have found := drop_records fixed wrote known
    rw [getElem_take, getElem_map, getElem_range, mul_add, mul_comm 4 i, load_spell found]
    show BitVec.ofNat 32 (words[i].toNat % 2 ^ 32) = words[i]
    rw [mod_eq_of_lt words[i].isLt, BitVec.ofNat_toNat, BitVec.setWidth_eq]
  conv_lhs => rw [← take_append_drop words.length (wordsFrom bytes place), first]

theorem length_padded (bytes : Bytes) : (padded bytes).length = 4 * ((bytes.length + 3) / 4) := by
  rw [padded, length_append, length_replicate]
  omega

theorem length_wordBytes (words : List Word) : (wordBytes words).length = 4 * words.length := by
  rw [wordBytes, length_flatMap (fun word => length_spell 4 _), mul_comm]

section
variable {kernels : Kernels} {input : Block}

def stored (kernels : Kernels) (input : Block) : List Word :=
  let width := widest input - (best input).bestb
  if (best input).bestcexcept > 0 ∧ width > 1 then
    writeLane kernels (width - 1) (residuals input (best input).bestb)
  else []

theorem bestb_lt (excepts : 0 < (best input).bestcexcept) : (best input).bestb < widest input := by
  obtain ⟨low, counted⟩ := best_counts input
  rcases lt_or_eq_of_le low with less | same
  · exact less
  · have nowhere := wider_eq_zero.mpr (width_le input)
    rw [counted, same, nowhere] at excepts
    exact absurd excepts (lt_irrefl 0)

theorem length_header (input : Block) : ((header widthOf input (best input)).length + 3) / 4 =
      headerWords (best input).bestcexcept := by
  unfold header headerWords
  by_cases excepts : (best input).bestcexcept > 0
  · have most := widest_le input
    have less := bestb_lt excepts
    rw [if_pos excepts, if_pos excepts, length_cons, length_cons, length_cons,
      length_map, length_exceptions (by omega), ← (best_counts input).2]
    omega
  · rw [if_neg excepts, if_neg excepts]
    rfl

variable (inverses : Inverses kernels) (input) (back : Bytes)
include inverses

theorem encode_split :
    encodeBlockPFor kernels input ++ back = padded (header widthOf input (best input)) ++
      (wordBytes (kernels.simdpack (best input).bestb input ++ stored kernels input) ++ back) := by
  rw [← append_assoc, encodeBlockPFor, inverses.gccbits]
  rfl

theorem header_byte {i : Nat}
    (found : (header widthOf input (best input))[i]? = some byte) :
    byteAt (encodeBlockPFor kernels input ++ back) i = byte.toNat := by
  refine byteAt_eq ?_
  have lt := (List.getElem?_eq_some_iff.mp found).1
  rw [encode_split _ inverses, padded, append_assoc, getElem?_append_left lt]
  exact found

theorem byte_bestb :
    byteAt (encodeBlockPFor kernels input ++ back) 0 = (best input).bestb := by
  have low := (best_counts input).1
  have most := widest_le input
  rw [header_byte input inverses back (show _ = some (ofNat _) from rfl), toNat_ofNat']
  exact mod_eq_of_lt (by omega)

theorem byte_cexcept :
    byteAt (encodeBlockPFor kernels input ++ back) 1 = (best input).bestcexcept := by
  have most : (best input).bestcexcept ≤ 128 := by
    rw [(best_counts input).2]
    exact (countP_le_length).trans (le_of_eq length_finRange)
  rw [header_byte input inverses back (show _ = some (ofNat _) from rfl), toNat_ofNat']
  exact mod_eq_of_lt (by omega)

theorem byte_maxb (excepts : 0 < (best input).bestcexcept) :
    byteAt (encodeBlockPFor kernels input ++ back) 2 = widest input := by
  have most := widest_le input
  have found : (header widthOf input (best input))[2]? = Option.some (ofNat (widest input)) := by
    rw [header, if_pos excepts]
    rfl
  rw [header_byte input inverses back found, toNat_ofNat']
  exact mod_eq_of_lt (by omega)

theorem byte_position (excepts : 0 < (best input).bestcexcept) {k : Nat}
    (known : k < (exceptions input (best input).bestb).length) :
    byteAt (encodeBlockPFor kernels input ++ back) (3 + k) =
      (exceptions input (best input).bestb)[k].val := by
  have found : (header widthOf input (best input))[3 + k]? =
      Option.some (ofNat (exceptions input (best input).bestb)[k].val) := by
    rw [header, if_pos excepts, add_comm]
    show ((exceptions input (best input).bestb).map fun k => ofNat k.val)[k]? = _
    rw [getElem?_map, getElem?_eq_getElem known]
    rfl
  have small : (exceptions input (best input).bestb)[k].val < 128 := Fin.isLt _
  rw [header_byte input inverses back found, toNat_ofNat']
  exact mod_eq_of_lt (by omega)

theorem block_words :
    ∃ rest, wordsFrom (encodeBlockPFor kernels input ++ back)
        (headerWords (best input).bestcexcept) =
      kernels.simdpack (best input).bestb input ++ (stored kernels input ++ rest) := by
  have place : (padded (header widthOf input (best input))).length =
      4 * headerWords (best input).bestcexcept := by
    rw [length_padded, length_header]
  have wrote : (encodeBlockPFor kernels input ++ back).drop
      (4 * headerWords (best input).bestcexcept) = wordBytes
        (kernels.simdpack (best input).bestb input ++ stored kernels input) ++ back := by
    rw [encode_split _ inverses]
    exact drop_left' place
  obtain ⟨rest, same⟩ := wordsFrom_eq wrote
  exact ⟨rest, by rw [same, append_assoc]⟩

theorem length_base :
    (kernels.simdpack (best input).bestb input).length = 4 * (best input).bestb := by
  have low := (best_counts input).1
  have most := widest_le input
  rw [inverses.simd.length _ (low.trans most)]
  omega

theorem length_encode : (encodeBlockPFor kernels input).length =
    4 * (headerWords (best input).bestcexcept + 4 * (best input).bestb +
      (stored kernels input).length) := by
  have split := encode_split input inverses []
  rw [append_nil, append_nil] at split
  rw [split, length_append, length_padded, length_header, length_wordBytes,
    length_append, length_base _ inverses]
  omega

theorem unpack_base (rest : List Word) :
    kernels.simdunpack (best input).bestb (kernels.simdpack (best input).bestb input ++ rest) =
      fun i => low (best input).bestb (input i) := by
  have bound := (best_counts input).1.trans (widest_le input)
  rw [inverses.masks input bound, inverses.simd.unpack _ rest bound]
  intro i
  rw [low, BitVec.toNat_ofNat]
  exact (Nat.mod_le _ _).trans_lt (Nat.mod_lt _ (Nat.two_pow_pos _))

omit inverses in
theorem patched_eq (bound : b < 32) :
    (fun i => if i ∈ exceptions input b then low b (input i) ||| input i >>> b <<< b
      else low b (input i)) = input := by
  funext i
  split_ifs with wide
  · rw [low_or_high]
  · rw [mem_exceptions bound] at wide
    exact low_of_fits (not_lt.mp wide)

omit inverses in
theorem residual_one (wide : b < bitWidth word.toNat)
    (narrow : bitWidth word.toNat ≤ b + 1) : word >>> b = 1 := by
  apply BitVec.eq_of_toNat_eq
  have least : 2 ^ b ≤ word.toNat := not_lt.mp (mt bitWidth_le.mpr (not_le.mpr wide))
  have most := bitWidth_le.mp narrow
  rw [BitVec.toNat_ushiftRight, Nat.shiftRight_eq_div_pow]
  show word.toNat / 2 ^ b = 1
  exact Nat.div_eq_of_lt_le (by omega) (by omega)

omit inverses in
theorem residuals_lt (b : Nat) : ∀ value ∈ residuals input b,
    value.toNat < 2 ^ (widest input - b) := by
  refine forall_mem_map.mpr fun i _ => ?_
  have fits := bitWidth_le.mp (width_le input i)
  have split : 2 ^ widest input ≤ 2 ^ b * 2 ^ (widest input - b) := by
    rw [← pow_add]
    exact Nat.pow_le_pow_right (by omega) (by omega)
  rw [BitVec.toNat_ushiftRight, Nat.shiftRight_eq_div_pow, Nat.div_lt_iff_lt_mul (Nat.two_pow_pos b),
    mul_comm]
  omega

theorem patch_exceptions (excepts : 0 < (best input).bestcexcept)
    (values : ∀ k (known : k < (exceptions input (best input).bestb).length),
      patchOf k = input (exceptions input (best input).bestb)[k] >>>
        (best input).bestb <<< (best input).bestb) : (range (best input).bestcexcept).foldl
      (fun out k => patch out (byteAt (encodeBlockPFor kernels input ++ back) (3 + k)) (patchOf k))
      (fun i => low (best input).bestb (input i)) = input := by
  have bound := (bestb_lt excepts).trans_le (widest_le input)
  have count : (best input).bestcexcept = (exceptions input (best input).bestb).length := by
    rw [length_exceptions bound, (best_counts input).2]
  have all := patches_eq (show (exceptions input _).Nodup from .filter _ (nodup_finRange _))
    (fun i => input i >>> (best input).bestb <<< (best input).bestb)
    (fun k known => byte_position input inverses back excepts known) values
    (fun i => low (best input).bestb (input i)) _ (le_of_eq count)
  rw [all, count, take_length]
  exact patched_eq _ bound

theorem decode_encode (tight : Local kernels) (input : Block) (stale : List Word)
    (back : Bytes) : decodeBlockPFor kernels stale (encodeBlockPFor kernels input ++ back) =
      (input, (encodeBlockPFor kernels input).length) := by
  have counted := (best_counts input).2
  have most := widest_le input
  obtain ⟨rest, words⟩ := block_words input inverses back
  have behind : wordsFrom (encodeBlockPFor kernels input ++ back)
      (headerWords (best input).bestcexcept + 4 * (best input).bestb) =
        stored kernels input ++ rest := by
    rw [wordsFrom_add, words, drop_left' (length_base input inverses)]
  unfold decodeBlockPFor
  dsimp only
  rw [byte_bestb _ inverses, byte_cexcept _ inverses, words, unpack_base _ inverses,
    length_encode _ inverses]
  by_cases excepts : (best input).bestcexcept > 0
  · have less := bestb_lt excepts
    have count : (residuals input (best input).bestb).length = (best input).bestcexcept := by
      rw [residuals, length_map, length_exceptions (by omega), counted]
    rw [if_pos excepts, byte_maxb input inverses back excepts]
    by_cases one : widest input - (best input).bestb = 1
    · have nothing : stored kernels input = [] := if_neg fun wide => by omega
      rw [if_pos one, nothing, length_nil, add_zero]
      refine Prod.ext (patch_exceptions input inverses back excepts fun k known => ?_) rfl
      have wide := (mem_exceptions (by omega)).mp (getElem_mem known)
      have narrow := width_le input (exceptions input (best input).bestb)[k]
      rw [residual_one wide (by omega)]
    · have wide : widest input - (best input).bestb - 1 + 1 =
          widest input - (best input).bestb := by omega
      have lane : stored kernels input = writeLane kernels (widest input - (best input).bestb - 1)
          (residuals input (best input).bestb) :=
        if_pos ⟨excepts, show widest input - (best input).bestb > 1 by omega⟩
      have bound : widest input - (best input).bestb - 1 < 32 := by omega
      have small := residuals_lt input (best input).bestb
      rw [← wide] at small
      have read := readLane_writeLane inverses tight bound small stale rest
      rw [if_neg one, behind, lane, ← count, read, count]
      refine Prod.ext (patch_exceptions input inverses back excepts fun k known => ?_) rfl
      rw [residuals, getD_eq_getElem?_getD, getElem?_map, getElem?_eq_getElem known]
      rfl
  · have nothing : stored kernels input = [] := if_neg fun wide => excepts wide.1
    have fits : ∀ i, bitWidth (input i).toNat ≤ (best input).bestb := by
      rw [← wider_eq_zero, ← counted]
      omega
    rw [if_neg excepts, nothing, length_nil, add_zero]
    refine Prod.ext (funext fun i => ?_) rfl
    exact low_of_fits (fits i)

theorem skip_encode :
    skipBlockPFor (encodeBlockPFor kernels input ++ back) =
      (encodeBlockPFor kernels input).length := by
  have most := widest_le input
  unfold skipBlockPFor
  rw [byte_bestb _ inverses, byte_cexcept _ inverses, length_encode _ inverses]
  by_cases excepts : (best input).bestcexcept > 0
  · rw [byte_maxb input inverses back excepts]
    have count : (residuals input (best input).bestb).length = (best input).bestcexcept := by
      have less := bestb_lt excepts
      rw [residuals, length_map, length_exceptions (by omega), (best_counts input).2]
    by_cases wide : widest input - (best input).bestb > 1
    · have lane : stored kernels input = writeLane kernels (widest input - (best input).bestb - 1)
          (residuals input (best input).bestb) := if_pos ⟨excepts, wide⟩
      rw [if_pos ⟨excepts, wide⟩, lane, length_writeLane inverses (by omega), count, ← place_eq]
    · have nothing : stored kernels input = [] := if_neg fun both => wide both.2
      rw [if_neg fun both => wide both.2, nothing]
      rfl
  · have nothing : stored kernels input = [] := if_neg fun both => excepts both.1
    rw [if_neg fun both => excepts both.1, nothing]
    rfl

end

/-- Blocks are decoded from the bytes they were encoded to, which decoding and skipping step over,
whatever lies behind the bytes in the stream and behind the reader's buffer on the stack. -/
theorem blocks_round_trip {kernels : Kernels} (inverses : Inverses kernels) (tight : Local kernels)
    (input : Block) (base : Word) (stale : List Word) (back : Bytes) :
    LuxirPFOR.decodeBlock kernels stale (LuxirPFOR.encodeBlock kernels input ++ back) =
      (input, (LuxirPFOR.encodeBlock kernels input).length) ∧
    LuxirPFOR.skipBlock (LuxirPFOR.encodeBlock kernels input ++ back) =
      (LuxirPFOR.encodeBlock kernels input).length ∧
    decodeBlock kernels stale (encodeBlock kernels input base ++ back) base =
      (input, (encodeBlock kernels input base).length) ∧
    LuxirPFOR.skipBlock (encodeBlock kernels input base ++ back) =
      (encodeBlock kernels input base).length := by
  refine ⟨decode_encode inverses tight input stale back, skip_encode input inverses back, ?_,
    skip_encode (t4Delta input base) inverses back⟩
  unfold decodeBlock encodeBlock
  dsimp only
  rw [decode_encode inverses tight, t4InverseDelta_t4Delta]

def sparseBlock : Block := fun i => if i.val < 2 then 1048576 else 0

theorem blocks_round_trip_sparse :
    (decodeBlock plain [7] (encodeBlock plain sparseBlock 5 ++ [1, 2]) 5).1 = sparseBlock :=
  congrArg Prod.fst (blocks_round_trip plain_inverses plain_local sparseBlock 5 [7] [1, 2]).2.2.1

/-- Kernels that are only inverse to each other are not enough: the last group of a lane is cut to
the words of its values, and has to be read from these. -/
theorem reversed_round_trip_fails : Inverses reversed ∧
    (LuxirPFOR.decodeBlock reversed [] (LuxirPFOR.encodeBlock reversed sparseBlock)).1 ≠
      sparseBlock := by
  refine ⟨reversed_inverses, fun same => ?_⟩
  have first := congrFun same 0
  revert first
  decide +kernel

end Luxir.Codec.PforRoundTrip
