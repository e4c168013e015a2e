import Luxir.Search.OrdMapFile

/-!
The metadata of a segment leads its reader to the deltas that were written, in every encoding, and
so does the metadata of all segments one after another.
-/

namespace Luxir.Search.OrdMapSegments
open Lib.Bytes Lib.Words Codec.LinearFit Util.Encoding OrdDeltas OrdDeltaReads OrdMapFile List
open PredictedDeltaBlocks SegToGlobal Option

/-- Deltas that do not fall, up to one that the last ordinal can have. -/
structure Climbing (values : List Nat) (nOrds : Nat) : Prop where
  rising : values.Pairwise (· ≤ ·)
  bound : values ≠ [] → values.getLastD 0 + values.length ≤ nOrds

variable {values : List Nat} {nOrds : Nat}

section
variable (climbing : Climbing values nOrds)
include climbing

theorem Climbing.length_le : values.length ≤ nOrds := by
  by_cases empty : values = []
  · simp [empty]
  · have bound := climbing.bound empty
    omega

theorem Climbing.le_last {value : Nat} (mem : value ∈ values) : value ≤ values.getLastD 0 := by
  have rising := climbing.rising
  obtain ⟨init, last, rfl⟩ : ∃ init last, values = init ++ [last] :=
    ⟨_, _, (dropLast_append_getLast (ne_nil_of_mem mem)).symm⟩
  rw [getLastD_concat]
  rcases mem_append.mp mem with before | this
  · exact (pairwise_append.mp rising).2.2 value before last mem_cons_self
  · exact (mem_singleton.mp this).le

theorem Climbing.zero_of_last (last : values.getLastD 0 = 0) : ∀ value ∈ values, value = 0 := by
  intro value mem
  have least := climbing.le_last mem
  omega

theorem Climbing.small (ords : nOrds ≤ 2 ^ 57) : ∀ value ∈ values, value < 2 ^ 57 := by
  intro value mem
  have least := climbing.le_last mem
  have bound := climbing.bound (ne_nil_of_mem mem)
  have pos := length_pos_of_mem mem
  omega

theorem Climbing.zero_of_full (full : values.length = nOrds) : ∀ value ∈ values, value = 0 := by
  intro value mem
  have bound := climbing.bound (ne_nil_of_mem mem)
  exact climbing.zero_of_last (by omega) value mem

theorem deltaBits_le (ords : nOrds ≤ 2 ^ 57) (ne : values ≠ []) (encoding : DeltaEncoding) :
    deltaBits encoding values ≤ 57 := by
  have small := climbing.small ords
  cases encoding with
  | flat | singleFit => exact (packedDeltas_taken ne small).narrow
  | predicted =>
    show bitWidth (predictedDeltas values).lastDelta ≤ 57
    rw [(predictedDeltas_collected small).last]
    have bound := climbing.bound ne
    have pos := length_pos_iff.mpr ne
    exact bitWidth_le.mpr (by omega)

theorem zero_of_deltaBits (ords : nOrds ≤ 2 ^ 57) (ne : values ≠ [])
    {encoding : DeltaEncoding} (narrow : deltaBits encoding values = 0) :
    ∀ value ∈ values, value = 0 := by
  have small := climbing.small ords
  cases encoding with
  | flat | singleFit =>
    intro value mem
    have bound := (packedDeltas_taken ne small).small value mem
    have width : (packedDeltas values).bits = 0 := narrow
    rw [width] at bound
    omega
  | predicted =>
    have width : bitWidth (predictedDeltas values).lastDelta = 0 := narrow
    have last := bitWidth_le.mp width.le
    rw [(predictedDeltas_collected small).last] at last
    exact climbing.zero_of_last (by omega)

end

section

theorem readLong_spell (word : Int64) (stream : Bytes) :
    readLong (spell 8 word.toUInt64.toNat ++ stream) = some (word, stream) := by
  have here : (spell 8 word.toUInt64.toNat ++ stream).drop 0 =
      spell 8 word.toUInt64.toNat ++ stream := rfl
  have past : (spell 8 word.toUInt64.toNat ++ stream).drop 8 = stream :=
    drop_left' (length_spell _ _)
  unfold readLong
  rw [if_neg (by simp), Codec.NumColumnFormat.ofNat_load_spell here, Int64.toInt64_toUInt64, past]

/-- What the metadata of a segment's deltas leads to, in any file that starts with the payload. -/
def Leads (nOrds bits : Nat) (bytes payload : Bytes) (values : List Nat) : Prop :=
  ∃ mapping, (∀ stream, readDeltas nOrds bits (bytes ++ stream) = some (mapping, stream)) ∧
    ∀ rest, Finds (payload ++ rest) mapping values

def Written (encoding : DeltaEncoding) (values : List Nat) (payload : Bytes) : Prop :=
  ∃ more, (writeDeltas encoding values payload).2 = payload ++ more ∧
    Leads values.length (deltaBits encoding values)
      (writeVInt encoding.code ++ (writeDeltas encoding values payload).1) (payload ++ more) values

variable (climbing : Climbing values nOrds) (ords : nOrds ≤ 2 ^ 57) (payload : Bytes)
include climbing ords

theorem flat_leads (ne : values ≠ []) (wide : deltaBits .flat values ≠ 0)
    (word : (writeDeltas .flat values payload).2.length < 2 ^ 64) :
    Written .flat values payload := by
  have taken := packedDeltas_taken ne (climbing.small ords)
  obtain ⟨more, wrote, spells⟩ := taken.writeFinal_spells payload
  have before : payload.length < 2 ^ 64 := by
    dsimp only [writeDeltas] at word
    rw [wrote, length_append] at word
    omega
  refine ⟨more, wrote, { identity values.length with
      deltas := payload.length
      mask := Codec.LinearPack.mask (deltaBits .flat values)
      bits := deltaBits .flat values
      residualBits := deltaBits .flat values
      encoding := .flat }, fun stream => ?_, fun rest => ?_⟩
  · rw [readDeltas, append_assoc, readVInt_write (by decide)]
    dsimp only [bind_eq_bind, bind_some, writeDeltas]
    rw [if_pos (by decide), readVLong_write before]
    rfl
  · have placed : (payload ++ more ++ rest).drop payload.length = more ++ rest := by
      rw [append_assoc, drop_left]
    exact finds_flat spells placed rfl wide rfl rfl

theorem predicted_leads (wide : deltaBits .predicted values ≠ 0)
    (word : (writeDeltas .predicted values payload).2.length < 2 ^ 64) :
    Written .predicted values payload := by
  have collected := predictedDeltas_collected (climbing.small ords)
  have widest : (predictedDeltas values).maxResidualBits < 2 ^ 32 :=
    collected.widest.trans_lt (by decide)
  simp only [writeDeltas, writeFinal, length_append] at word
  refine ⟨(predictedDeltas values).payload ++
      (predictedDeltas values).blocks.flatMap PredictedBlockInfo.toBytes,
    by simp only [writeDeltas, writeFinal, append_assoc],
    { identity values.length with
      deltas := payload.length
      blockMeta := (payload ++ (predictedDeltas values).payload).length
      bits := deltaBits .predicted values
      residualBits := (predictedDeltas values).maxResidualBits % 2 ^ 8
      encoding := .predicted }, fun stream => ?_, fun rest => ?_⟩
  · rw [readDeltas, append_assoc, readVInt_write (by decide)]
    dsimp only [bind_eq_bind, bind_some, writeDeltas, writeFinal]
    rw [if_neg (by decide), if_pos (by decide), append_assoc, append_assoc,
      readVLong_write (by omega)]
    dsimp only [bind_some]
    rw [readVLong_write (by rw [length_append]; omega)]
    dsimp only [bind_some]
    rw [readVInt_write widest]
    rfl
  · have placed : (payload ++ ((predictedDeltas values).payload ++
        (predictedDeltas values).blocks.flatMap PredictedBlockInfo.toBytes) ++ rest).drop
          payload.length = (predictedDeltas values).payload ++
            ((predictedDeltas values).blocks.flatMap PredictedBlockInfo.toBytes ++ rest) := by
      rw [append_assoc, drop_left, append_assoc]
    exact finds_predicted collected (by omega) placed length_append rfl wide rfl

theorem singleFit_leads (ne : values ≠ []) (wide : deltaBits .singleFit values ≠ 0)
    (word : (writeDeltas .singleFit values payload).2.length < 2 ^ 64) :
    Written .singleFit values payload := by
  have taken := packedDeltas_taken ne (climbing.small ords)
  have fits := taken.planSingleFit_fits ne climbing.rising ((climbing.bound ne).trans ords)
  obtain ⟨more, wrote, predicts⟩ := taken.writeSingleFit_predicts fits payload
  have before : payload.length < 2 ^ 64 := by
    dsimp only [writeDeltas] at word
    rw [wrote, length_append] at word
    omega
  have narrow := fits.narrow
  unfold maxPackedBits at narrow
  have byte : (packedDeltas values).planSingleFit.bits % 2 ^ 8 =
      (packedDeltas values).planSingleFit.bits := Nat.mod_eq_of_lt (by omega)
  refine ⟨more, wrote, { identity values.length with
      deltas := if (packedDeltas values).planSingleFit.bits = 0 then 0 else payload.length
      intercept := (packedDeltas values).planSingleFit.intercept
      scaledSlope := (packedDeltas values).planSingleFit.scaledSlope
      mask := Codec.LinearPack.mask (packedDeltas values).planSingleFit.bits
      bits := deltaBits .singleFit values
      residualBits := (packedDeltas values).planSingleFit.bits
      encoding := .singleFit }, fun stream => ?_, fun rest => ?_⟩
  · rw [readDeltas, append_assoc, readVInt_write (by decide)]
    dsimp only [bind_eq_bind, bind_some, writeDeltas]
    rw [if_neg (by decide), if_neg (by decide)]
    simp only [append_assoc]
    rw [readLong_spell]
    dsimp only [bind_some]
    rw [readLong_spell]
    dsimp only [bind_some]
    rw [readVInt_write (by omega)]
    dsimp only [bind_some]
    rw [byte]
    by_cases level : (packedDeltas values).planSingleFit.bits = 0
    · rw [if_neg (not_not.mpr level), if_pos level, if_pos level]
      rfl
    · rw [if_pos level, if_neg level, if_neg level, readVLong_write before]
      rfl
  · by_cases level : (packedDeltas values).planSingleFit.bits = 0
    · -- no bytes are read, so any place will do
      have noMore : more = [] := by
        rw [PackedDeltaRuns.writeSingleFit, if_pos level] at wrote
        simpa using wrote
      have anywhere : ∀ place, (payload ++ more ++ rest).drop place =
          more ++ (payload ++ more ++ rest).drop place := by
        intro place
        rw [noMore, nil_append]
      exact finds_singleFit predicts (anywhere _) rfl wide ⟨rfl, rfl⟩ rfl rfl rfl
    · have placed : (payload ++ more ++ rest).drop
          (if (packedDeltas values).planSingleFit.bits = 0 then 0 else payload.length) =
            more ++ rest := by
        rw [if_neg level, append_assoc, drop_left]
      exact finds_singleFit predicts placed rfl wide ⟨rfl, rfl⟩ rfl rfl rfl

theorem writeDeltas_leads (ne : values ≠ []) {encoding : DeltaEncoding}
    (wide : deltaBits encoding values ≠ 0)
    (word : (writeDeltas encoding values payload).2.length < 2 ^ 64) :
    Written encoding values payload := by
  cases encoding with
  | flat => exact flat_leads climbing ords payload ne wide word
  | predicted => exact predicted_leads climbing ords payload wide word
  | singleFit => exact singleFit_leads climbing ords payload ne wide word

end

variable {encoding : DeltaEncoding} (ords : nOrds ≤ 2 ^ 57)

structure Valid (nOrds : Nat) (segment : SegmentDeltas) : Prop where
  count : segment.values.length = segment.numTerms
  climbing : Climbing segment.values nOrds

include ords

theorem readSegment_written {segment : SegmentDeltas} (valid : Valid nOrds segment)
    (payload : Bytes)
    (word : (writeSegment encoding nOrds segment payload).2.length < 2 ^ 64) :
    ∃ more mapping, (writeSegment encoding nOrds segment payload).2 = payload ++ more ∧
      (∀ stream, readSegment nOrds ((writeSegment encoding nOrds segment payload).1 ++ stream) =
        some (mapping, stream)) ∧
      ∀ rest, Finds (payload ++ more ++ rest) mapping segment.values := by
  obtain ⟨count, climbing⟩ := valid
  have most := climbing.length_le
  have num : segment.numTerms < 2 ^ 64 := by omega
  unfold writeSegment at word ⊢
  by_cases writes : segment.writesDeltas nOrds = true
  · have bounds : segment.numTerms ≠ 0 ∧ segment.numTerms < nOrds := by
      simpa [SegmentDeltas.writesDeltas] using writes
    have ne : segment.values ≠ [] := by
      intro empty
      rw [empty] at count
      exact bounds.1 count.symm
    have narrow := deltaBits_le climbing ords ne encoding
    have byte : deltaBits encoding segment.values % 2 ^ 8 = deltaBits encoding segment.values :=
      Nat.mod_eq_of_lt (by omega)
    have between : segment.numTerms > 0 ∧ segment.numTerms ≠ nOrds := by omega
    simp only [if_pos writes] at word ⊢
    by_cases level : deltaBits encoding segment.values = 0
    · refine ⟨[], identity segment.numTerms, by simp [level], fun stream => ?_, fun rest => ?_⟩
      · simp only [if_pos level]
        rw [readSegment, append_assoc, readVLong_write num]
        dsimp only [bind_eq_bind, bind_some]
        rw [if_pos between, readVInt_write (by omega)]
        dsimp only [bind_some]
        rw [byte, if_pos level]
      · rw [← count]
        exact finds_identity _ (zero_of_deltaBits climbing ords ne level)
    · simp only [if_neg level] at word ⊢
      obtain ⟨more, wrote, mapping, read, finds⟩ :=
        writeDeltas_leads climbing ords payload ne level word
      refine ⟨more, mapping, wrote, fun stream => ?_, finds⟩
      rw [readSegment, append_assoc, append_assoc, append_assoc, readVLong_write num]
      dsimp only [bind_eq_bind, bind_some]
      rw [if_pos between, readVInt_write (by omega)]
      dsimp only [bind_some]
      rw [byte, if_neg level, ← count, ← append_assoc]
      exact read stream
  · have outside : ¬ (segment.numTerms ≠ 0 ∧ segment.numTerms < nOrds) := by
      simpa [SegmentDeltas.writesDeltas] using writes
    simp only [if_neg writes] at word ⊢
    refine ⟨[], identity segment.numTerms, by simp, fun stream => ?_, fun rest => ?_⟩
    · rw [readSegment, readVLong_write num]
      dsimp only [bind_eq_bind, bind_some]
      rw [if_neg (by omega)]
    rw [← count]
    apply finds_identity
    rcases Nat.eq_zero_or_pos segment.values.length with zero | pos
    · rw [length_eq_zero_iff.mp zero]
      simp
    · exact climbing.zero_of_full (by omega)

theorem readSegments_written {segments : List SegmentDeltas}
    (valid : ∀ segment ∈ segments, Valid nOrds segment) (payload : Bytes)
    (word : (writeSegments encoding nOrds segments payload).2.length < 2 ^ 64) :
    ∃ more mappings, (writeSegments encoding nOrds segments payload).2 = payload ++ more ∧
      (∀ stream, readSegments nOrds segments.length
        ((writeSegments encoding nOrds segments payload).1 ++ stream) = some (mappings, stream)) ∧
      ∀ rest, List.Forall₂ (fun segment mapping => Finds (payload ++ more ++ rest) mapping
        segment.values) segments mappings := by
  induction segments generalizing payload with
  | nil => exact ⟨[], [], (append_nil _).symm, fun stream => rfl, fun rest => .nil⟩
  | cons segment later ih =>
    dsimp only [writeSegments] at word ⊢
    obtain ⟨others, mappings, grown, reads, found⟩ :=
      ih (fun other mem => valid other (mem_cons_of_mem _ mem)) _ word
    have shorter : (writeSegment encoding nOrds segment payload).2.length < 2 ^ 64 := by
      rw [grown, length_append] at word
      omega
    obtain ⟨more, mapping, wrote, read, finds⟩ :=
      readSegment_written ords (valid segment mem_cons_self) payload shorter
    refine ⟨more ++ others, mapping :: mappings, ?_, fun stream => ?_, fun rest => ?_⟩
    · rw [grown, wrote, append_assoc]
    · rw [length_cons, readSegments, append_assoc, read]
      dsimp only [bind_eq_bind, bind_some]
      rw [reads]
      rfl
    · refine .cons ?_ ?_
      · have here := finds (others ++ rest)
        simpa only [append_assoc] using here
      · have there := found rest
        rw [wrote] at there
        simpa only [append_assoc] using there

end Luxir.Search.OrdMapSegments
