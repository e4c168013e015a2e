import Luxir.Index.RunBuilder
import Luxir.Reader.RunOpening

/-!
A block of runs is found again wherever its bytes lie in a file, and its descriptors pass the
checks of the reader.
-/

namespace Luxir.Index.RunEncoding
open Lib.Bytes Codec.LinearPack Codec.ColumnRoundTrip Codec.NumColumn List
open Reader.RunList Reader.RunReader Reader.BlockReads Reader.RunOpening RunBuilder
open Codec.NumColumnFormat (NumBlockInfo rawBits ofBytes_toBytes length_toBytes blockSize)
open Codec.LinearFit (maxPackedBits)
open VersionRun

variable {runs : List VersionRun} {index : Nat}

section
variable (rising : runs.Pairwise fun early later => early.firstDocId < later.firstDocId)
include rising

theorem evenly_spec {step : Nat} (even : evenly step runs = true) (lt : index + 1 < runs.length) :
    runs[index + 1].firstDocId = runs[index].firstDocId + step := by
  induction runs generalizing index with
  | nil => simp at lt
  | cons first rest ih =>
    cases rest with
    | nil => simp at lt
    | cons second =>
      simp only [evenly, Bool.and_eq_true, decide_eq_true_eq] at even
      have ordered := (pairwise_cons.mp rising).1 second mem_cons_self
      cases index with
      | zero =>
        simp only [getElem_cons_zero, getElem_cons_succ]
        omega
      | succ =>
        exact ih (pairwise_cons.mp rising).2 even.2 (by simpa using lt)

theorem blockStep_next (regular : blockStep runs ≠ 0) (lt : index + 1 < runs.length) :
    runs[index + 1].firstDocId = runs[index].firstDocId + blockStep runs := by
  cases runs with
  | nil => simp at lt
  | cons first rest =>
    cases rest with
    | nil => simp at lt
    | cons second others =>
      unfold blockStep at regular ⊢
      dsimp only at regular ⊢
      split_ifs at regular ⊢ with even
      · have whole : evenly (second.firstDocId - first.firstDocId)
            (first :: second :: others) = true := by
          simp [evenly, even]
        exact evenly_spec rising whole lt
      · exact absurd rfl regular

theorem blockStep_spec (regular : blockStep runs ≠ 0) (lt : index < runs.length) :
    runs[index].firstDocId = runs[0].firstDocId + index * blockStep runs := by
  induction index with
  | zero => simp
  | succ index ih =>
    rw [blockStep_next rising regular lt, ih (by omega), add_mul index 1]
    omega

end

theorem blockStep_lt (block : BlockRuns runs) : blockStep runs < 2 ^ 32 := by
  unfold blockStep
  split
  · next first second rest =>
    have small := block.small second (by simp)
    dsimp only
    split_ifs <;> omega
  · decide

/-- What `padBlock` adds is enough for every read behind the last byte. -/
theorem padBlock_spec (bytes : Bytes) : ∃ pad, padBlock bytes = bytes ++ pad ∧
    tailPad ≤ pad.length ∧ pad.length < tailPad + 8 ∧ (padBlock bytes).length % 8 = 0 := by
  refine ⟨_, rfl, ?_, ?_, ?_⟩
  · rw [length_replicate]
    omega
  · rw [length_replicate]
    omega
  · simp only [padBlock, length_append, length_replicate]
    omega

theorem length_headerBytes (info : NumBlockInfo) (first step : Nat) :
    (headerBytes info first step).length = blockHeaderSize := by
  simp [headerBytes, length_toBytes, blockHeaderSize, NumBlockInfo.size]

theorem payloadSize_le (count bits : Nat) : payloadSize count bits ≤ count * 8 := by
  unfold payloadSize
  split_ifs with narrow
  · have bound : count * bits ≤ count * 57 := Nat.mul_le_mul_left count narrow
    unfold packedByteSize
    rw [Nat.shiftRight_eq_div_pow]
    omega
  · exact le_rfl

def metaSize (runs : List VersionRun) : Nat :=
  blockHeaderSize + if blockStep runs ≠ 0 then 0 else NumBlockInfo.size

/-- The parts of an encoded block: the header, the descriptor of irregular starts, the versions,
the irregular starts and the padding. -/
structure Parts (runs : List VersionRun) (info starts : NumBlockInfo)
    (versions irregular pad : Bytes) : Prop where
  bytes : encode runs = headerBytes info ((runs.head?.map firstDocId).getD 0)
      (blockStep runs) ++ (if blockStep runs ≠ 0 then [] else starts.toBytes) ++
    (versions ++ (irregular ++ pad))
  offset : info.payloadOffset = metaSize runs
  described : Described true (runs.map fun run => run.version.toInt64) info versions
  regular : blockStep runs ≠ 0 → irregular = []
  startsOffset : blockStep runs = 0 → starts.payloadOffset = metaSize runs + versions.length
  startsDescribed : blockStep runs = 0 →
    Described false (runs.map fun run => Int64.ofInt run.firstDocId) starts irregular
  padded : tailPad ≤ pad.length ∧ pad.length < tailPad + 8
  aligned : (encode runs).length % 8 = 0

theorem encode_parts (block : BlockRuns runs) :
    ∃ info starts versions irregular pad, Parts runs info starts versions irregular pad := by
  have ne : runs ≠ [] := ne_nil_of_length_pos block.nonempty
  have short : runs.length ≤ blockSize := block.short.trans (by decide)
  have size : metaSize runs ≤ 72 := by
    unfold metaSize blockHeaderSize NumBlockInfo.size
    split_ifs <;> omega
  obtain ⟨versions, info, wrote, offset, described⟩ := append_stored
    (replicate (metaSize runs) 0) (runs.map fun run => run.version.toInt64) true
    (by simpa using ne) (by simpa using short) (by rw [length_replicate]; omega)
  rw [length_replicate] at offset
  have bound := payloadSize_le runs.length info.bits
  have length := described.length
  rw [length_map] at length
  have few := block.short
  unfold runsPerBlock at few
  obtain ⟨irregular, starts, wroteStarts, startsOffset, startsDescribed⟩ := append_stored
    (replicate (metaSize runs) 0 ++ versions) (runs.map fun run => Int64.ofInt run.firstDocId)
    false (by simpa using ne) (by simpa using short)
    (by rw [length_append, length_replicate]; omega)
  rw [length_append, length_replicate] at startsOffset
  set front := headerBytes info ((runs.head?.map firstDocId).getD 0) (blockStep runs) with header
  by_cases regular : blockStep runs = 0
  · obtain ⟨pad, padded, least, most, aligned⟩ := padBlock_spec
      (front ++ starts.toBytes ++ (versions ++ irregular))
    have bytes : encode runs = padBlock (front ++ starts.toBytes ++ (versions ++ irregular)) := by
      unfold encode
      dsimp only
      rw [← metaSize, wrote, wroteStarts, if_neg (not_not.mpr regular)]
      rw [append_assoc (replicate _ _), drop_left' (length_replicate ..)]
    refine ⟨info, starts, versions, irregular, pad, ?_, offset, described, fun other => absurd
      regular other, fun _ => startsOffset, fun _ => startsDescribed, ⟨least, most⟩, ?_⟩
    · rw [bytes, padded, if_neg (not_not.mpr regular), append_assoc _ _ pad, append_assoc versions]
    · rw [bytes]
      exact aligned
  · obtain ⟨pad, padded, least, most, aligned⟩ := padBlock_spec (front ++ versions)
    have bytes : encode runs = padBlock (front ++ versions) := by
      unfold encode
      dsimp only
      rw [← metaSize, wrote, if_pos regular, drop_left' (length_replicate ..)]
    refine ⟨info, starts, versions, [], pad, ?_, offset, described, fun _ => rfl,
      fun other => absurd other regular, fun other => absurd other regular, ⟨least, most⟩, ?_⟩
    · rw [bytes, padded, if_pos regular, append_nil, nil_append, append_assoc]
    · rw [bytes]
      exact aligned

variable {info starts : NumBlockInfo} {versions irregular pad file rest : Bytes} {data : Nat}

theorem head_eq (ne : 0 < runs.length) :
    (runs.head?.map firstDocId).getD 0 = runs[0].firstDocId := by
  rw [head?_eq_getElem?, getElem?_eq_getElem ne]
  rfl

theorem length_extra (runs : List VersionRun) (starts : NumBlockInfo) :
    (if blockStep runs ≠ 0 then [] else starts.toBytes).length + blockHeaderSize =
      metaSize runs := by
  unfold metaSize
  split_ifs
  · rw [length_nil, add_comm]
  · rw [length_toBytes, add_comm]

theorem Parts.payload (parts : Parts runs info starts versions irregular pad)
    (wrote : file.drop data = encode runs ++ rest) :
    file.drop (data + metaSize runs) = versions ++ (irregular ++ (pad ++ rest)) := by
  have extra := length_extra runs starts
  rw [parts.bytes, append_assoc] at wrote
  have past := drop_past wrote rfl
  rw [length_append, length_headerBytes, add_comm blockHeaderSize, extra] at past
  rw [past]
  simp only [append_assoc]

theorem Parts.header (parts : Parts runs info starts versions irregular pad)
    (block : BlockRuns runs) (wrote : file.drop data = encode runs ++ rest) :
    NumBlockInfo.ofBytes file data = info ∧
      load 4 file (data + 32) = (runs.head?.map firstDocId).getD 0 ∧
      load 4 file (data + 36) = blockStep runs ∧
      (blockStep runs = 0 → NumBlockInfo.ofBytes file (data + blockHeaderSize) = starts) := by
  have small : (runs.head?.map firstDocId).getD 0 < 2 ^ 32 := by
    rw [head_eq block.nonempty]
    exact block.small _ (getElem_mem _)
  have step := blockStep_lt block
  have word : 256 ^ 4 = 2 ^ 32 := by decide
  rw [parts.bytes, headerBytes] at wrote
  simp only [append_assoc] at wrote
  have second := drop_past wrote rfl
  have third := drop_past second rfl
  have fourth := drop_past third rfl
  simp only [length_toBytes, length_spell, add_assoc] at second third fourth
  refine ⟨ofBytes_toBytes wrote, ?_, ?_, fun irregularly => ?_⟩
  · rw [show data + 32 = data + NumBlockInfo.size by rfl, load_spell second, word,
      Nat.mod_eq_of_lt small]
  · rw [show data + 36 = data + (NumBlockInfo.size + 4) by rfl, load_spell third, word,
      Nat.mod_eq_of_lt step]
  · rw [if_neg (not_not.mpr irregularly)] at fourth
    exact ofBytes_toBytes fourth

theorem blockInfo_zero (column : NumColumnT) :
    column.blockInfo 0 = NumBlockInfo.ofBytes column.file column.blockMeta := by
  rw [NumColumnT.blockInfo, zero_mul, add_zero]

theorem encode_reads (block : BlockRuns runs) (wrote : file.drop data = encode runs ++ rest) :
    Reads ⟨file, data, runs.length⟩ runs := by
  obtain ⟨info, starts, versions, irregular, pad, parts⟩ := encode_parts block
  obtain ⟨described, first, step, other⟩ := parts.header block wrote
  have payload := parts.payload wrote
  have ne := block.nonempty
  have short : runs.length ≤ blockSize := block.short.trans (by decide)
  have sameStep : (⟨file, data, runs.length⟩ : VersionBlock).step = blockStep runs := step
  have sameFirst : (⟨file, data, runs.length⟩ : VersionBlock).firstDocId = runs[0].firstDocId :=
    first.trans (head_eq block.nonempty)
  refine ⟨block, rfl, sameFirst, ?_, ?_, ?_⟩
  · intro regular index lt
    rw [sameStep] at regular ⊢
    rw [sameFirst]
    exact blockStep_spec block.increasing regular lt
  · intro irregularly
    rw [sameStep] at irregularly
    have next := drop_past payload rfl
    apply holds_single (by simp [VersionBlock.starts]) (by simpa using short)
      ((blockInfo_zero _).trans (other irregularly))
    apply (parts.startsDescribed irregularly).stored _ (pad ++ rest)
    rw [parts.startsOffset irregularly, ← add_assoc]
    exact next
  · apply holds_single (by simp [VersionBlock.versions]) (by simpa using short)
      ((blockInfo_zero _).trans described)
    apply parts.described.stored _ (irregular ++ (pad ++ rest))
    rw [parts.offset]
    exact payload

theorem checkInfo_described {useGcd monotonic : Bool} {values : List Int64}
    {count room size : Nat} {payload : Bytes}
    (described : Described useGcd values info payload) (all : values.length = count)
    (unscaled : monotonic = true → useGcd = false) (begins : size ≤ info.payloadOffset)
    (ends : info.payloadOffset + payload.length + tailPad ≤ room) :
    VersionRuns.checkInfo count info size room monotonic = true := by
  have length := described.length
  rw [all, payloadSize] at length
  unfold VersionRuns.checkInfo
  simp only [decide_eq_true_eq]
  refine ⟨?_, ?_⟩
  · rintro (⟨wide, other⟩ | zero | ⟨rising, scaled⟩)
    · exact described.kinds.elim other wide
    · exact described.gcd zero
    · exact scaled (described.plain (unscaled rising))
  · rw [← length]
    omega

theorem encode_accepted (block : BlockRuns runs) (wrote : file.drop data = encode runs ++ rest) :
    Accepted ⟨file, data, runs.length⟩ (encode runs).length := by
  obtain ⟨info, starts, versions, irregular, pad, parts⟩ := encode_parts block
  obtain ⟨described, first, step, other⟩ := parts.header block wrote
  have sameStep : (⟨file, data, runs.length⟩ : VersionBlock).step = blockStep runs := step
  have room : (encode runs).length =
      metaSize runs + (versions.length + (irregular.length + pad.length)) := by
    have extra := length_extra runs starts
    rw [parts.bytes, length_append, length_append, length_headerBytes, ← extra]
    simp only [length_append]
    omega
  have pads := parts.padded
  have few := block.short
  have versionsSize := payloadSize_le runs.length info.bits
  have length := parts.described.length
  rw [length_map] at length
  unfold tailPad at pads
  unfold runsPerBlock at few
  have offset := parts.offset
  have whole : blockHeaderSize + NumBlockInfo.size = 72 := rfl
  by_cases regular : blockStep runs = 0
  · have size : metaSize runs = blockHeaderSize + NumBlockInfo.size := by
      rw [metaSize, if_neg (not_not.mpr regular)]
    have irregularSize := payloadSize_le runs.length starts.bits
    have irregularLength := (parts.startsDescribed regular).length
    have startsOffset := parts.startsOffset regular
    rw [length_map] at irregularLength
    refine ⟨parts.aligned, by omega, fun _ => by omega, ?_, fun _ => ?_, by omega⟩
    · rw [sameStep, if_neg (not_not.mpr regular), blockInfo_zero]
      simp only [VersionBlock.versions, described]
      exact checkInfo_described parts.described (length_map _) (by simp) (by omega)
        (by unfold tailPad; omega)
    · rw [blockInfo_zero]
      simp only [VersionBlock.starts, other regular]
      exact checkInfo_described (parts.startsDescribed regular) (length_map _) (by simp)
        (by omega) (by unfold tailPad; omega)
  · have size : metaSize runs = blockHeaderSize := by
      rw [metaSize, if_pos regular, add_zero]
    have nothing := parts.regular regular
    subst nothing
    rw [length_nil] at room
    have never : (⟨file, data, runs.length⟩ : VersionBlock).step ≠ 0 := by
      rw [sameStep]
      exact regular
    refine ⟨parts.aligned, by omega, fun zero => absurd zero never, ?_,
      fun zero => absurd zero never, by omega⟩
    rw [if_pos never, blockInfo_zero]
    simp only [VersionBlock.versions, described]
    exact checkInfo_described parts.described (length_map _) (by simp) (by omega)
      (by unfold tailPad; omega)

end Luxir.Index.RunEncoding
