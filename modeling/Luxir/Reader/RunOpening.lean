import Luxir.Reader.RunCursors

/-!
The checks of the reader pass on runs whose blocks are sound and lie one behind the other, and
what the reader notes while it checks is true of the runs.
-/

namespace Luxir.Reader.RunOpening
open Lib.Folds Codec.NumColumn RunList RunReader BlockReads RunCursors
open Codec.NumColumnFormat (NumBlockInfo)
open VersionRuns List

structure Accepted (view : VersionBlock) (room : Nat) : Prop where
  aligned : room % 8 = 0
  header : blockHeaderSize ≤ room
  starts : view.step = 0 → blockHeaderSize + NumBlockInfo.size ≤ room
  versionsInfo : checkInfo view.count (view.versions.blockInfo 0)
    (blockHeaderSize + if view.step ≠ 0 then 0 else NumBlockInfo.size) room false = true
  startsInfo : view.step = 0 → checkInfo view.count (view.starts.blockInfo 0)
    (blockHeaderSize + NumBlockInfo.size) room true = true
  bound : room < 2 ^ 13

/-- Sound blocks of the given sizes, one behind the other up to the directory. -/
structure Shelved (runs : List VersionRun) (source : VersionRuns) (directoryOffset : Nat)
    (room : Nat → Nat) : Prop where
  covering : Covering runs
  within : ∀ run ∈ runs, run.firstDocId < source.maxDoc
  blocks : Blocks runs source.numBlocks source.block fun i => (source.entry i).firstDocId
  accepted : ∀ index < source.numBlocks, Accepted (source.block index) (room index)
  reserved : ∀ index < source.numBlocks, (source.entry index).reserved = 0
  aligned : ∀ index < source.numBlocks, (source.entry index).offset % 8 = 0
  limit : ∀ index < source.numBlocks,
    (if index + 1 < source.numBlocks then (source.entry (index + 1)).offset
      else directoryOffset) = (source.entry index).offset + room index
  ends : ∀ index < source.numBlocks, (source.entry index).offset + room index ≤ directoryOffset

variable {index maxDoc : Nat} (avx2 : Bool) {list : List VersionRun} {view : VersionBlock}
  {runs : List VersionRun} {source : VersionRuns} {directoryOffset : Nat} {room : Nat → Nat}

theorem toInt_start {first : Nat} (small : first < 2 ^ 32) : (Int64.ofInt first).toInt = first := by
  apply Int64.toInt_ofInt_of_le <;> omega

theorem checkStart_passes (reads : Reads view list)
    (irregular : view.step = 0) {previous : Nat} (within : ∀ run ∈ list, run.firstDocId < maxDoc)
    (lt : index < list.length) {bulk : NumColumnT.Bulk}
    (kept : BulkReads (list.map fun run => Int64.ofInt run.firstDocId) bulk)
    (before : index ≠ 0 → previous < list[index].firstDocId) :
    ∃ next, checkStart avx2 view view.firstDocId maxDoc (bulk, previous) index =
        some (next, list[index].firstDocId) ∧
      BulkReads (list.map fun run => Int64.ofInt run.firstDocId) next := by
  obtain ⟨value, next⟩ := bulk_valueAt avx2 (reads.starts irregular) kept
    (show index < _ by simpa using lt)
  have small := reads.small _ (getElem_mem lt)
  have bound := within _ (getElem_mem lt)
  rw [getElem_map] at value
  refine ⟨_, ?_, next⟩
  unfold checkStart
  dsimp only
  rw [value, toInt_start small, if_neg]
  · simp
  rintro (negative | large | disordered)
  · omega
  · omega
  · split_ifs at disordered with first
    · subst first
      exact disordered (by rw [reads.first])
    · omega

theorem checkStart_all (reads : Reads view list)
    (irregular : view.step = 0) (previous : Nat) (within : ∀ run ∈ list, run.firstDocId < maxDoc)
    {rounds : Nat} (lt : rounds ≤ list.length) : ∃ state, (range rounds).foldlM
        (checkStart avx2 view view.firstDocId maxDoc)
        (NumColumnT.Bulk.start, previous) = some state ∧
      BulkReads (list.map fun run => Int64.ofInt run.firstDocId) state.1 ∧
      (rounds ≠ 0 → list[rounds - 1]?.map VersionRun.firstDocId = some state.2) := by
  apply foldlM_range fun round (state : NumColumnT.Bulk × Nat) =>
    BulkReads (list.map fun run => Int64.ofInt run.firstDocId) state.1 ∧
      (round ≠ 0 → list[round - 1]?.map VersionRun.firstDocId = some state.2)
  · exact ⟨bulkReads_start _, fun zero => absurd rfl zero⟩
  rintro round less ⟨bulk, last⟩ ⟨kept, noted⟩
  have bound : round < list.length := by omega
  have before : round ≠ 0 → last < list[round].firstDocId := by
    intro later
    have found := noted later
    rw [getElem?_eq_getElem (by omega), Option.map_some, Option.some.injEq] at found
    have strict := starts_strict reads.increasing (show round - 1 < round by omega) bound
    omega
  obtain ⟨next, passed, kept⟩ := checkStart_passes avx2 reads irregular within bound kept before
  refine ⟨(next, list[round].firstDocId), passed, kept, fun _ => ?_⟩
  rw [Nat.add_sub_cancel, getElem?_eq_getElem bound]
  rfl

section
variable (shelved : Shelved runs source directoryOffset room)
include shelved

theorem Shelved.last_lt (more : index + 1 < source.numBlocks) {place : Nat}
    (lt : place < (chunk runs index).length) :
    (chunk runs index)[place].firstDocId < (source.entry (index + 1)).firstDocId := by
  have bound := shelved.blocks.begins more
  have first := shelved.blocks.first_eq more bound
  have size := length_chunk runs index
  have before : index * runsPerBlock + place < (index + 1) * runsPerBlock := by
    rw [Nat.add_mul index 1]
    omega
  rw [first, getElem_chunk lt rfl (by omega)]
  exact starts_strict shelved.covering.increasing before _

theorem Shelved.checkStarts (lt : index < source.numBlocks) (previous : Nat) :
    ∃ last, VersionRuns.checkStarts avx2 source (room index)
        (blockHeaderSize + if (source.block index).step ≠ 0 then 0 else NumBlockInfo.size)
        previous index = some last ∧
      (index + 1 < source.numBlocks → last < (source.entry (index + 1)).firstDocId) := by
  have reads := shelved.blocks.reads index lt
  have accepted := shelved.accepted index lt
  have first := shelved.blocks.firsts index lt
  have ne := reads.nonempty
  have within : ∀ run ∈ chunk runs index, run.firstDocId < source.maxDoc :=
    fun run mem => shelved.within run (mem_of_mem_drop (mem_of_mem_take mem))
  have place : (chunk runs index).length - 1 < (chunk runs index).length := by omega
  have bound := within _ (getElem_mem place)
  unfold VersionRuns.checkStarts
  dsimp only at first ⊢
  rw [reads.count, first]
  by_cases regular : (source.block index).step ≠ 0
  · have last := reads.even regular _ place
    rw [if_pos regular, ← last, if_neg]
    · exact ⟨_, rfl, fun more => shelved.last_lt more place⟩
    · rintro (large | disordered)
      · omega
      · exact disordered fun more => shelved.last_lt more place
  · have irregular := not_not.mp regular
    have fits := accepted.starts irregular
    have info := accepted.startsInfo irregular
    rw [reads.count] at info
    obtain ⟨state, passed, _, noted⟩ := checkStart_all avx2 reads irregular previous within
      (Nat.le_refl _)
    have last := noted (by omega)
    rw [getElem?_eq_getElem place, Option.map_some, Option.some.injEq] at last
    rw [if_neg regular, if_neg regular, if_neg (by omega), info, passed]
    dsimp only
    rw [if_neg (by decide), if_pos]
    · exact ⟨_, rfl, fun more => last ▸ shelved.last_lt more place⟩
    · intro more
      rw [← last]
      exact shelved.last_lt more place

end

structure Noted (runs : List VersionRun) (source : VersionRuns) (done : Nat)
    (state : Nat × Bool × VersionAffinePrefix) : Prop where
  before : done ≠ 0 → done < source.numBlocks → state.1 < (source.entry done).firstDocId
  dense : state.2.1 = true → ∀ index (inside : index < runs.length),
    index < done * runsPerBlock → runs[index].firstDocId = index
  affine : Affine runs state.2.2

theorem Shelved.openBlock (shelved : Shelved runs source directoryOffset room) (avx2 : Bool)
    (lt : index < source.numBlocks) {state : Nat × Bool × VersionAffinePrefix}
    (noted : Noted runs source index state) :
    ∃ next, VersionRuns.openBlock avx2 source directoryOffset state index = some next ∧
      Noted runs source (index + 1) next := by
  have reads := shelved.blocks.reads index lt
  have accepted := shelved.accepted index lt
  have first := shelved.blocks.firsts index lt
  have bound := shelved.blocks.begins lt
  have limit := shelved.limit index lt
  have ends := shelved.ends index lt
  have header := accepted.header
  have start := shelved.blocks.first_eq lt bound
  have last := shelved.within _ (getElem_mem bound)
  obtain ⟨previous, passed, before⟩ := shelved.checkStarts avx2 lt state.1
  unfold VersionRuns.openBlock
  dsimp only at first start ⊢
  rw [limit, Nat.add_sub_cancel_left, if_neg, if_neg (not_not.mpr first), accepted.versionsInfo,
    passed]
  · refine ⟨_, rfl, fun _ => before, ?_, noted.affine.append reads⟩
    intro dense place within early
    simp only [Bool.and_eq_true, decide_eq_true_eq] at dense
    obtain ⟨known, regular, begun⟩ := dense
    rw [Nat.add_mul index 1] at early
    by_cases old : place < index * runsPerBlock
    · exact noted.dense known place within old
    have size := length_chunk runs index
    have there : place - index * runsPerBlock < (chunk runs index).length := by omega
    have value := reads.even (by omega) _ there
    rw [getElem_chunk there (by omega) within, regular, ← first, begun] at value
    omega
  · rw [shelved.reserved index lt, shelved.aligned index lt]
    rintro (odd | far | beyond | narrow | other | large | disordered)
    · exact odd rfl
    · omega
    · omega
    · omega
    · exact other rfl
    · omega
    · split_ifs at disordered with zero
      · subst zero
        simp only [Nat.zero_mul] at start bound
        have origin := shelved.covering.zero bound
        omega
      · have after := noted.before zero lt
        omega

theorem Shelved.openBlocks (shelved : Shelved runs source directoryOffset room) (avx2 : Bool) :
    ∃ state, (range source.numBlocks).foldlM
        (VersionRuns.openBlock avx2 source directoryOffset) (0, true, ⟨0, 0, 0⟩) = some state ∧
      Noted runs source source.numBlocks state := by
  apply foldlM_range (Noted runs source)
  · exact ⟨fun zero => absurd rfl zero,
      fun _ index _ early => absurd early (by rw [Nat.zero_mul]; exact Nat.not_lt_zero _),
      Nat.zero_le _, fun _ _ lt => absurd lt (Nat.not_lt_zero _)⟩
  · intro index lt state noted
    exact shelved.openBlock avx2 lt noted

/-- The constructor on a file with sound blocks from `base` on, the directory behind them and the
header behind the directory. -/
theorem openRuns_opened {file : Bytes} {base headerOffset : Nat} (few : maxDoc < 2 ^ 31)
    (shelved : Shelved runs ⟨file, base, base + directoryOffset, runs.length, maxDoc, true, ⟨0, 0,
      0⟩⟩ directoryOffset room) (placed : headerOffset = base + directoryOffset + (runs.length +
      runsPerBlock - 1) / runsPerBlock * directorySize)
    (header : VersionRunsHeader.ofBytes file headerOffset =
      ⟨encoding, runs.length, directoryOffset, directoryOffset +
        (runs.length + runsPerBlock - 1) / runsPerBlock * directorySize + headerSize⟩)
    (baseAligned : base % 8 = 0) (aligned : directoryOffset % 8 = 0)
    (long : headerOffset + headerSize ≤ file.length) :
    ∃ source, openRuns avx2 file headerOffset runs.length maxDoc = some source ∧
      Opened runs source ∧ source.maxDoc = maxDoc := by
  have ne := length_pos_of_ne_nil shelved.covering.ne_nil
  have most : runs.length ≤ maxDoc := by
    have last : runs.length - 1 < runs.length := by omega
    have start := Lib.Bits.index_le_of_rising shelved.covering.increasing last
    have bound := shelved.within _ (getElem_mem last)
    dsimp only at bound
    omega
  obtain ⟨state, opened, noted⟩ := shelved.openBlocks avx2
  have entries : ∀ blocks, blocks * directorySize % 8 = 0 := by
    intro blocks
    unfold directorySize
    omega
  have whole := entries ((runs.length + runsPerBlock - 1) / runsPerBlock)
  have trailer : headerSize = 24 := rfl
  have data : headerOffset + headerSize - (directoryOffset +
      (runs.length + runsPerBlock - 1) / runsPerBlock * directorySize + headerSize) = base := by
    omega
  refine ⟨⟨file, base, base + directoryOffset, runs.length, maxDoc, state.2.1, state.2.2⟩,
    ?_, ?_, rfl⟩
  · unfold openRuns
    rw [if_neg (by omega), header]
    dsimp only
    rw [data, Int.toNat_natCast, if_neg (by omega), if_neg, opened]
    rintro (version | count | bytes | odd | beyond | length)
    · exact version rfl
    · exact count rfl
    · omega
    · exact odd aligned
    · omega
    · apply length
      unfold numBlocks
      dsimp only
      omega
  · refine ⟨shelved.covering, rfl, shelved.blocks, shelved.within, few, ?_, noted.affine⟩
    intro dense index lt
    exact noted.dense dense index lt (lt.trans_le shelved.blocks.total)

end Luxir.Reader.RunOpening
