import Luxir.Lib.Bits
import Luxir.Reader.BlockReads

/-!
Cursors and iterators over opened runs. What a cursor keeps from earlier probes stays true for any
order of probes, and an iterator returns the runs one by one.
-/

namespace Luxir.Reader.RunCursors
open Codec.NumColumn RunList RunReader BlockReads Nat Option VersionRun
open Codec.NumColumnFormat (bulkSize)
open List

structure Opened (runs : List VersionRun) (source : VersionRuns) : Prop where
  covering : Covering runs
  count : source.count = runs.length
  blocks : Blocks runs source.numBlocks source.block fun i => (source.entry i).firstDocId
  within : ∀ run ∈ runs, run.firstDocId < source.maxDoc
  few : source.maxDoc < 2 ^ 31
  dense : source.dense = true →
    ∀ index (inside : index < runs.length), runs[index].firstDocId = index
  affine : Affine runs source.affine

/-- What a cursor remembers: the answer for a stretch of documents, and a frame that belongs to
documents or to the runs of a block. -/
structure CursorReads (runs : List VersionRun) (cursor : Cursor) : Prop where
  answers : ∀ doc, cursor.first ≤ doc → doc < cursor.stop → versionAt runs doc = cursor.version
  docs : ∀ doc, cursor.decodedFirst ≤ doc → doc < cursor.decodedEnd →
    runs[doc]?.map version = some (cursor.values.getD (doc - cursor.decodedFirst) 0).toUInt64
  frame : cursor.frameBlock ≠ 2 ^ 32 - 1 → ∀ place : Nat, cursor.frameStart ≤ place →
    (place : Int) < cursor.frameEnd →
    (chunk runs cursor.frameBlock)[place]?.map version =
      some (cursor.values.getD ((place : Int) - cursor.frameStart).toNat 0).toUInt64

theorem cursorReads_start (runs : List VersionRun) : CursorReads runs Cursor.start := by
  refine ⟨fun doc _ ended => ?_, fun doc _ ended => ?_, fun other => absurd rfl other⟩
  all_goals exact absurd ended (not_lt_zero _)

variable {index : Nat} {runs : List VersionRun} {source : VersionRuns}

section
variable {cursor : Cursor}

theorem Opened.positive (opened : Opened runs source) : 0 < source.numBlocks := by
  have total := opened.blocks.total
  have ne := length_pos_of_ne_nil opened.covering.ne_nil
  by_contra empty
  rw [Nat.eq_zero_of_not_pos empty, Nat.zero_mul] at total
  omega

theorem Opened.numBlocks_lt (opened : Opened runs source) (lt : index < source.numBlocks) :
    index < 2 ^ 31 := by
  have bound := opened.blocks.begins lt
  have start := Lib.Bits.index_le_of_rising opened.covering.increasing bound
  have last := opened.within _ (getElem_mem bound)
  have few := opened.few
  have scaled : index ≤ index * runsPerBlock := Nat.le_mul_of_pos_right _ runsPerBlock_pos
  omega

theorem frame_versions (avx2 : Bool) {view : VersionBlock} {list : List VersionRun}
    (reads : Reads view list) {place : Nat} (lt : place < list.length) :
    (view.versions.decodeFrame avx2 place).1 ≤ place ∧
      place < (view.versions.decodeFrame avx2 place).1 +
        (view.versions.decodeFrame avx2 place).2.length ∧
      ∀ other, (view.versions.decodeFrame avx2 place).1 ≤ other →
        other < (view.versions.decodeFrame avx2 place).1 +
          (view.versions.decodeFrame avx2 place).2.length → list[other]?.map version =
          some ((view.versions.decodeFrame avx2 place).2.getD
            (other - (view.versions.decodeFrame avx2 place).1) 0).toUInt64 := by
  obtain ⟨lower, upper, same⟩ := decodeFrame_get avx2 reads.versions (by simpa using lt)
  refine ⟨lower, upper, fun other after before => ?_⟩
  have value := congrArg (Option.map Int64.toUInt64) (same other after before)
  rw [getElem?_map, Option.map_map, Option.map_some] at value
  rw [← value]
  congr 1

theorem Opened.lookupDense (opened : Opened runs source) (avx2 : Bool)
    (reads : CursorReads runs cursor) (dense : source.dense = true) {doc : Nat}
    (lt : doc < runs.length) : (cursor.lookupDense avx2 source doc).1 = versionAt runs doc ∧
      CursorReads runs (cursor.lookupDense avx2 source doc).2 := by
  have even := opened.dense dense
  have version : versionAt runs doc = runs[doc].version := by
    apply opened.covering.versionAt_eq lt
    · rw [even]
    · intro more
      rw [even]
      omega
  have found : runs[doc]?.map VersionRun.version = some (versionAt runs doc) := by
    rw [getElem?_eq_getElem lt, version]
    rfl
  unfold Cursor.lookupDense
  split_ifs with outside
  · have split := Nat.div_add_mod' doc runsPerBlock
    have short := Nat.mod_lt doc runsPerBlock_pos
    have total := opened.blocks.total
    have block : doc / runsPerBlock < source.numBlocks := by
      rw [Nat.div_lt_iff_lt_mul runsPerBlock_pos]
      omega
    have size := length_chunk runs (doc / runsPerBlock)
    have place : doc % runsPerBlock < (chunk runs (doc / runsPerBlock)).length := by omega
    obtain ⟨lower, upper, same⟩ := frame_versions avx2 (opened.blocks.reads _ block) place
    dsimp only
    generalize (source.block (doc / runsPerBlock)).versions.decodeFrame avx2
      (doc % runsPerBlock) = frame at *
    have docs : ∀ other, doc / runsPerBlock * runsPerBlock + frame.1 ≤ other →
        other < doc / runsPerBlock * runsPerBlock + frame.1 + frame.2.length →
        runs[other]?.map VersionRun.version = some (frame.2.getD
          (other - (doc / runsPerBlock * runsPerBlock + frame.1)) 0).toUInt64 := by
      intro other after before
      have value := same (other - doc / runsPerBlock * runsPerBlock) (by omega) (by omega)
      rw [Nat.sub_sub] at value
      obtain ⟨run, there, same⟩ := map_eq_some_iff.mp value
      rw [getElem?_of_chunk there (by omega), map_some, same]
    refine ⟨?_, reads.answers, docs, fun other => absurd rfl other⟩
    have value := docs doc (by omega) (by omega)
    rw [found, some.injEq] at value
    exact value.symm
  · have value := reads.docs doc (by omega) (by omega)
    rw [found, some.injEq] at value
    exact ⟨value.symm, reads⟩

theorem Opened.lookupRun (opened : Opened runs source) (avx2 : Bool)
    (reads : CursorReads runs cursor) (doc : Nat) :
    (cursor.lookupRun avx2 source doc).1 = versionAt runs doc ∧
      CursorReads runs (cursor.lookupRun avx2 source doc).2 := by
  obtain ⟨lt, begun, ended⟩ := opened.blocks.find_block opened.covering opened.dense
    opened.positive doc cursor.blockIndex
  unfold Cursor.lookupRun
  dsimp only at lt begun ended ⊢
  generalize (if source.dense = true then _ else _) = block at *
  obtain ⟨place, found⟩ := opened.blocks.find_run cursor.runIndex lt begun ended
  have known := opened.numBlocks_lt lt
  have view := opened.blocks.reads block lt
  have stop := opened.blocks.stop_eq lt place source.maxDoc
  rw [stop, view.start_eq place]
  generalize (source.block block).find doc cursor.runIndex = index at *
  have bound := found.inside
  have there := getElem_chunk place rfl bound
  have version : versionAt runs doc = (chunk runs block)[index].version := by
    rw [there]
    exact opened.covering.versionAt_eq bound found.started found.ended
  have answers : ∀ other, (chunk runs block)[index].firstDocId ≤ other →
      other < (runs[block * runsPerBlock + index + 1]?.map VersionRun.firstDocId).getD
        source.maxDoc → versionAt runs other = (chunk runs block)[index].version := by
    intro other started before
    rw [there] at started ⊢
    have same := found.until_next (fun _ => started) before
    exact opened.covering.versionAt_eq bound same.started same.ended
  have value : (chunk runs block)[index]?.map VersionRun.version =
      some (chunk runs block)[index].version := by
    rw [getElem?_eq_getElem place]
    rfl
  split_ifs with outside
  · obtain ⟨lower, upper, same⟩ := frame_versions avx2 view place
    generalize (source.block block).versions.decodeFrame avx2 index = frame at *
    have frames : ∀ other : Nat, (frame.1 : Int) ≤ other →
        (other : Int) < frame.1 + frame.2.length →
        (chunk runs block)[other]?.map VersionRun.version =
          some (frame.2.getD ((other : Int) - frame.1).toNat 0).toUInt64 := by
      intro other after before
      have distance : ((other : Int) - frame.1).toNat = other - frame.1 := by omega
      rw [distance]
      exact same other (by omega) (by omega)
    have decoded := frames index (by omega) (by omega)
    rw [value, some.injEq] at decoded
    refine ⟨by rw [version, decoded], ?_, fun other _ before => ?_, fun _ => frames⟩
    · rw [← decoded]
      exact answers
    · exact absurd before (not_lt_zero _)
  · obtain ⟨same, after⟩ := not_or.mp outside
    obtain ⟨after, before⟩ := not_or.mp after
    have same := not_not.mp same
    have decoded := reads.frame (by omega) index (by omega) (by omega)
    rw [same, value, some.injEq] at decoded
    refine ⟨by rw [version, decoded], ?_, reads.docs, reads.frame⟩
    rw [← decoded]
    exact answers

theorem Opened.birth (opened : Opened runs source) (avx2 : Bool)
    (reads : CursorReads runs cursor) {doc : Nat} (lt : doc < source.maxDoc) :
    ∃ next, cursor.birth avx2 source doc = some (versionAt runs doc, next) ∧
      CursorReads runs next := by
  have valid : ¬((doc : Int) < 0 ∨ (doc : Int) ≥ source.maxDoc) := by omega
  unfold Cursor.birth
  rw [if_neg valid, Int.toNat_natCast]
  dsimp only
  split_ifs with line kept dense
  · exact ⟨cursor, by rw [opened.affine.birth_eq opened.covering line], reads⟩
  · exact ⟨cursor, by rw [reads.answers doc kept.1 kept.2], reads⟩
  · rw [opened.count] at dense
    obtain ⟨version, next⟩ := opened.lookupDense avx2 reads dense.1 dense.2
    exact ⟨_, by rw [← version], next⟩
  · obtain ⟨version, next⟩ := opened.lookupRun avx2 reads doc
    exact ⟨_, by rw [← version], next⟩

end

variable {iterator : Iterator}

def frameOf (value : VersionRun → Int64) (runs : List VersionRun) (index : Nat) : List Int64 :=
  (((chunk runs (index / runsPerBlock)).map value).drop
    (index % runsPerBlock / bulkSize * bulkSize)).take bulkSize

structure IteratorReads (runs : List VersionRun) (source : VersionRuns) (iterator : Iterator) :
    Prop where
  within : iterator.index ≤ runs.length
  versions : iterator.index % runsPerBlock % bulkSize ≠ 0 →
    iterator.versions = frameOf (fun run => run.version.toInt64) runs iterator.index
  starts : iterator.index % runsPerBlock % bulkSize ≠ 0 →
    (source.block (iterator.index / runsPerBlock)).step = 0 →
    iterator.starts = frameOf (fun run => Int64.ofInt run.firstDocId) runs iterator.index

theorem frameOf_get (value : VersionRun → Int64) (lt : index < runs.length) :
    (frameOf value runs index).getD (index % runsPerBlock % bulkSize) 0 = value runs[index] := by
  have split := div_add_mod' index runsPerBlock
  have frame := div_add_mod' (index % runsPerBlock) bulkSize
  have short := mod_lt index runsPerBlock_pos
  have narrow := mod_lt (index % runsPerBlock) (show 0 < bulkSize by decide)
  have size := length_chunk runs (index / runsPerBlock)
  have place : index % runsPerBlock < (chunk runs (index / runsPerBlock)).length := by omega
  unfold frameOf
  rw [getD_eq_getElem?_getD, getElem?_take, if_pos narrow, getElem?_drop, frame,
    getElem?_map, getElem?_eq_getElem place, getElem_chunk place split lt]
  rfl

theorem frameOf_succ (runs : List VersionRun) (value : VersionRun → Int64)
    (mid : (index + 1) % runsPerBlock % bulkSize ≠ 0) :
    (index + 1) / runsPerBlock = index / runsPerBlock ∧
      frameOf value runs (index + 1) = frameOf value runs index := by
  have same : (index + 1) / runsPerBlock = index / runsPerBlock ∧
      (index + 1) % runsPerBlock / bulkSize = index % runsPerBlock / bulkSize := by
    unfold runsPerBlock bulkSize at *
    omega
  refine ⟨same.1, ?_⟩
  unfold frameOf
  rw [same.1, same.2]

theorem Opened.next (opened : Opened runs source) (avx2 : Bool)
    (reads : IteratorReads runs source iterator) (more : iterator.index < runs.length) :
    ∃ next, iterator.next avx2 source = some (runs[iterator.index], next) ∧
      next.index = iterator.index + 1 ∧ IteratorReads runs source next := by
  have split := div_add_mod' iterator.index runsPerBlock
  have short := mod_lt iterator.index runsPerBlock_pos
  have total := opened.blocks.total
  have block : iterator.index / runsPerBlock < source.numBlocks := by
    rw [div_lt_iff_lt_mul runsPerBlock_pos]
    omega
  have view := opened.blocks.reads _ block
  have size := length_chunk runs (iterator.index / runsPerBlock)
  have place : iterator.index % runsPerBlock <
      (chunk runs (iterator.index / runsPerBlock)).length := by omega
  unfold Iterator.next
  rw [if_neg (by rw [opened.count]; omega)]
  dsimp only
  generalize filling : (if iterator.index % runsPerBlock % bulkSize = 0 then _ else iterator) =
    filled
  have index : filled.index = iterator.index := by
    rw [← filling]
    split_ifs <;> rfl
  have versions : filled.versions =
      frameOf (fun run => run.version.toInt64) runs iterator.index := by
    rw [← filling]
    split
    · rw [decodeFrame_eq avx2 view.versions (by simpa using place)]
      rfl
    · rename_i due
      exact reads.versions due
  have starts : (source.block (iterator.index / runsPerBlock)).step = 0 →
      filled.starts = frameOf (fun run => Int64.ofInt run.firstDocId) runs iterator.index := by
    intro irregular
    rw [← filling, if_pos irregular]
    split_ifs with due
    · rw [decodeFrame_eq avx2 (view.starts irregular) (by simpa using place)]
      rfl
    · exact reads.starts due irregular
  have first : (if (source.block (iterator.index / runsPerBlock)).step ≠ 0 then
      (source.block (iterator.index / runsPerBlock)).start (iterator.index % runsPerBlock)
      else (filled.starts.getD (iterator.index % runsPerBlock % bulkSize) 0).toUInt64.toNat %
        2 ^ 32) = runs[iterator.index].firstDocId := by
    have there := getElem_chunk place split more
    split_ifs with regular
    · rw [view.start_eq place, there]
    · rw [starts (not_not.mp regular), frameOf_get _ more]
      have small := view.small _ (getElem_mem place)
      rw [there] at small
      exact toNat_start small
  refine ⟨{ filled with index := filled.index + 1 }, ?_, by rw [index], ?_⟩
  · rw [first, versions, frameOf_get _ more, UInt64.toUInt64_toInt64]
  refine ⟨by dsimp only; omega, fun mid => ?_, fun mid irregular => ?_⟩
  · rw [index] at mid ⊢
    rw [(frameOf_succ runs _ mid).2]
    exact versions
  rw [index] at mid irregular ⊢
  obtain ⟨block, frame⟩ := frameOf_succ runs (fun run => Int64.ofInt run.firstDocId) mid
  rw [block] at irregular
  rw [frame]
  exact starts irregular

/-- An iterator returns the runs in order, and nothing behind the last one. -/
theorem Opened.iterates (opened : Opened runs source) (avx2 : Bool) (calls : Nat)
    (reads : IteratorReads runs source iterator) :
    Iterator.runs avx2 source calls iterator = (runs.drop iterator.index).take calls := by
  induction calls generalizing iterator with
  | zero => simp [Iterator.runs]
  | succ calls ih =>
    by_cases more : iterator.index < runs.length
    · obtain ⟨next, stepped, index, kept⟩ := opened.next avx2 reads more
      rw [Iterator.runs, stepped]
      dsimp only
      rw [ih kept, index, drop_eq_getElem_cons more, take_succ_cons]
    · have last : iterator.index = source.count := by
        have within := reads.within
        have count := opened.count
        omega
      have done : iterator.next avx2 source = none := by
        unfold Iterator.next
        rw [if_pos last]
      rw [Iterator.runs, done, drop_eq_nil_of_le (not_lt.mp more), take_nil]

end Luxir.Reader.RunCursors
