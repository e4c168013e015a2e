import Luxir.Index.RunBuilding

/-!
The file of a builder's runs. The output lays the encoded blocks one behind the other, and the
reader opens what was written, wherever it begins and whatever follows it.
-/

namespace Luxir.Index.RunsFile
open Lib.Bytes Codec.ColumnRoundTrip Reader.RunList Reader.RunReader Reader.BlockReads List
open Reader.RunCursors Reader.RunOpening RunBuilder RunEncoding RunBuilding VersionBlockDirectory
open VersionRunsOutput

def firstOf (runs : List VersionRun) : Nat := (runs.head?.map VersionRun.firstDocId).getD 0

def offsetOf (chunks : List (List VersionRun)) (index : Nat) : Nat :=
  ((chunks.take index).flatMap encode).length

def directoryOf (chunks : List (List VersionRun)) : List VersionBlockDirectory :=
  chunks.mapIdx fun index runs => ⟨firstOf runs, 0, offsetOf chunks index⟩

structure Laid (base : Bytes) (chunks : List (List VersionRun))
    (output : VersionRunsOutput) : Prop where
  out : output.out = base ++ chunks.flatMap encode
  start : output.start = base.length
  directory : output.directory = directoryOf chunks

variable {output : VersionRunsOutput} {base : Bytes}
  {chunks : List (List VersionRun)} {file past rest : Bytes} {index place blocks : Nat}

theorem laid_begin (out : Bytes) : Laid (align out 8) [] (begin out) :=
  ⟨(append_nil _).symm, rfl, rfl⟩

theorem directoryOf_concat (chunks : List (List VersionRun)) (last : List VersionRun) :
    directoryOf (chunks ++ [last]) =
      directoryOf chunks ++ [⟨firstOf last, 0, (chunks.flatMap encode).length⟩] := by
  apply ext_getElem
  · simp [directoryOf]
  intro index first second
  simp only [directoryOf, length_mapIdx, length_append, length_singleton] at first
  by_cases old : index < chunks.length
  · rw [getElem_append_left (by simpa [directoryOf] using old)]
    simp only [directoryOf, offsetOf, getElem_mapIdx, getElem_append_left old,
      take_append_of_le_length (le_of_lt old)]
  · have last : index = chunks.length := by omega
    subst last
    rw [getElem_append_right (by simp [directoryOf])]
    simp [directoryOf, offsetOf]

theorem Laid.add (laid : Laid base chunks output) (runs : List VersionRun) :
    Laid base (chunks ++ [runs]) (output.add (encode runs) (firstOf runs)) := by
  refine ⟨?_, laid.start, ?_⟩
  · simp [VersionRunsOutput.add, laid.out]
  · simp only [VersionRunsOutput.add]
    rw [laid.directory, directoryOf_concat, laid.out, laid.start, length_append,
      Nat.add_sub_cancel_left]

theorem Laid.adds (laid : Laid base chunks output)
    (more : List (List VersionRun)) : Laid base (chunks ++ more) (more.foldl
      (fun output runs => output.add (encode runs) (firstOf runs)) output) := by
  induction more generalizing chunks output with
  | nil => simpa using laid
  | cons runs rest ih =>
    have later := ih (laid.add runs)
    rwa [append_assoc, singleton_append] at later

theorem offsetOf_succ (lt : index < chunks.length) :
    offsetOf chunks (index + 1) = offsetOf chunks index + (encode chunks[index]).length :=
  length_take_succ encode lt

theorem offsetOf_all (chunks : List (List VersionRun)) :
    offsetOf chunks chunks.length = (chunks.flatMap encode).length := by
  rw [offsetOf, take_length]

theorem align_mod (out : Bytes) : (align out 8).length % 8 = 0 := by
  simp only [align, length_append, length_replicate]
  omega

theorem length_entry (entry : VersionBlockDirectory) : entry.toBytes.length = directorySize := by
  simp [toBytes, directorySize]

theorem length_header (header : VersionRunsHeader) : header.toBytes.length = headerSize := by
  simp [VersionRunsHeader.toBytes, headerSize]

theorem load_word {width value : Nat} (wrote : file.drop place = spell width value ++ rest)
    (fits : value < 256 ^ width) : load width file place = value := by
  rw [load_spell wrote, Nat.mod_eq_of_lt fits]

theorem entry_ofBytes {entry : VersionBlockDirectory}
    (wrote : file.drop place = entry.toBytes ++ rest) (first : entry.firstDocId < 256 ^ 4)
    (reserved : entry.reserved < 256 ^ 4) (offset : entry.offset < 256 ^ 8) :
    ofBytes file place = entry := by
  simp only [toBytes, append_assoc] at wrote
  have second := drop_past wrote rfl
  have third := drop_past second rfl
  simp only [length_spell, Nat.add_assoc] at second third
  unfold ofBytes
  rw [load_word wrote first, load_word second reserved, load_word third offset]

theorem header_ofBytes {header : VersionRunsHeader}
    (wrote : file.drop place = header.toBytes ++ rest) (version : header.encoding < 256 ^ 4)
    (count : header.count < 256 ^ 4) (offset : header.directoryOffset < 256 ^ 8)
    (bytes : header.bytes < 256 ^ 8) : VersionRunsHeader.ofBytes file place = header := by
  simp only [VersionRunsHeader.toBytes, append_assoc] at wrote
  have second := drop_past wrote rfl
  have third := drop_past second rfl
  have fourth := drop_past third rfl
  simp only [length_spell, Nat.add_assoc] at second third fourth
  unfold VersionRunsHeader.ofBytes
  rw [load_word wrote version, load_word second count, load_word third offset,
    load_word fourth bytes]

section
variable {runs : List VersionRun} {maxDoc : Nat}

def numBlocks (runs : List VersionRun) : Nat := (runs.length + runsPerBlock - 1) / runsPerBlock

def chunksOf (runs : List VersionRun) : List (List VersionRun) :=
  (range (numBlocks runs)).map (chunk runs)

theorem length_chunksOf (runs : List VersionRun) : (chunksOf runs).length = numBlocks runs := by
  simp [chunksOf]

theorem getElem_chunksOf (lt : index < (chunksOf runs).length) :
    (chunksOf runs)[index] = chunk runs index := by
  simp [chunksOf]

theorem numBlocks_spec (runs : List VersionRun) : runs.length ≤ numBlocks runs * runsPerBlock ∧
      ∀ index < numBlocks runs, index * runsPerBlock < runs.length := by
  unfold numBlocks runsPerBlock
  constructor
  · omega
  · intro index lt
    omega

theorem chunk_blockRuns (cover : Covering runs) (small : ∀ run ∈ runs, run.firstDocId < 2 ^ 32)
    (lt : index < numBlocks runs) : BlockRuns (chunk runs index) := by
  have begins := (numBlocks_spec runs).2 index lt
  have size := length_chunk runs index
  have pos := runsPerBlock_pos
  refine ⟨by omega, by omega, ?_, ?_⟩
  · exact (cover.increasing.sublist (drop_sublist _ _)).sublist (take_sublist _ _)
  · intro run mem
    exact small run (mem_of_mem_drop (mem_of_mem_take mem))

structure Storable (runs : List VersionRun) (maxDoc : Nat) : Prop where
  covering : Covering runs
  within : ∀ run ∈ runs, run.firstDocId < maxDoc
  few : maxDoc < 2 ^ 31

section
variable (storable : Storable runs maxDoc)
include storable

theorem Storable.block (lt : index < numBlocks runs) : BlockRuns (chunk runs index) := by
  have few := storable.few
  exact chunk_blockRuns storable.covering
    (fun run mem => (storable.within run mem).trans (by omega)) lt

theorem Storable.room_facts (lt : index < numBlocks runs) :
    (encode (chunk runs index)).length % 8 = 0 ∧ (encode (chunk runs index)).length < 2 ^ 13 := by
  have accepted : Accepted ⟨encode (chunk runs index), 0, (chunk runs index).length⟩
      (encode (chunk runs index)).length :=
    encode_accepted (storable.block lt) (append_nil _).symm
  exact ⟨accepted.aligned, accepted.bound⟩

theorem Storable.offset_facts (lt : index ≤ numBlocks runs) :
    offsetOf (chunksOf runs) index % 8 = 0 ∧ offsetOf (chunksOf runs) index ≤ index * 2 ^ 13 := by
  induction index with
  | zero => exact ⟨rfl, le_rfl⟩
  | succ index ih =>
    obtain ⟨aligned, bound⟩ := ih (by omega)
    obtain ⟨even, small⟩ := storable.room_facts (show index < numBlocks runs by omega)
    rw [offsetOf_succ (by rw [length_chunksOf]; omega), getElem_chunksOf]
    omega

theorem Storable.blocks_le : numBlocks runs ≤ runs.length ∧ runs.length < 2 ^ 31 := by
  have ne := length_pos_of_ne_nil storable.covering.ne_nil
  have last : runs.length - 1 < runs.length := by omega
  have start := Lib.Bits.index_le_of_rising storable.covering.increasing last
  have bound := storable.within _ (getElem_mem last)
  have few := storable.few
  unfold numBlocks runsPerBlock
  omega

end

theorem Laid.finish (laid : Laid base chunks output) {count : Nat} (nonzero : count ≠ 0) :
    output.finish count = (base ++ (chunks.flatMap encode ++
        ((directoryOf chunks).flatMap toBytes ++
          VersionRunsHeader.toBytes ⟨encoding, count, (chunks.flatMap encode).length,
            (chunks.flatMap encode).length + chunks.length * directorySize + headerSize⟩)),
        base.length + (chunks.flatMap encode).length + chunks.length * directorySize) := by
  have entries : ((directoryOf chunks).flatMap toBytes).length = chunks.length * directorySize := by
    rw [length_flatMap length_entry, directoryOf, length_mapIdx]
  unfold VersionRunsOutput.finish
  rw [if_neg nonzero]
  rw [laid.out, laid.start, laid.directory]
  simp only [length_append, entries, Nat.add_sub_cancel_left, append_assoc, Nat.add_assoc]

theorem Storable.entry (storable : Storable runs maxDoc) (wrote : file.drop place =
      (directoryOf (chunksOf runs)).flatMap toBytes ++ past) (lt : index < numBlocks runs) :
    ofBytes file (place + index * directorySize) =
      ⟨firstOf (chunk runs index), 0, offsetOf (chunksOf runs) index⟩ := by
  have bound : index < (chunksOf runs).length := by
    rw [length_chunksOf]
    exact lt
  have listed : index < (directoryOf (chunksOf runs)).length := by
    rw [directoryOf, length_mapIdx]
    exact bound
  have same : (directoryOf (chunksOf runs))[index] =
      ⟨firstOf (chunk runs index), 0, offsetOf (chunksOf runs) index⟩ := by
    simp only [directoryOf, getElem_mapIdx, getElem_chunksOf bound]
  have found := drop_records length_entry wrote listed
  rw [same] at found
  have block := storable.block lt
  obtain ⟨blocksLe, short⟩ := storable.blocks_le
  have offset := (storable.offset_facts (le_of_lt lt)).2
  have first : firstOf (chunk runs index) < 256 ^ 4 := by
    have small := block.small _ (getElem_mem block.nonempty)
    rw [firstOf, head_eq block.nonempty]
    omega
  apply entry_ofBytes found first
  · dsimp only
    decide
  · dsimp only
    omega

theorem block_written (wrote : file.drop place = (chunksOf runs).flatMap encode ++ past)
    (lt : index < numBlocks runs) : ∃ more,
    file.drop (place + offsetOf (chunksOf runs) index) = encode (chunk runs index) ++ more := by
  have bound : index < (chunksOf runs).length := by
    rw [length_chunksOf]
    exact lt
  have found := drop_record encode wrote bound
  rw [getElem_chunksOf bound] at found
  exact ⟨_, found⟩

theorem Storable.shelved (storable : Storable runs maxDoc)
    (wrote : file.drop place = (chunksOf runs).flatMap encode ++
      ((directoryOf (chunksOf runs)).flatMap toBytes ++ past)) :
    Shelved runs ⟨file, place, place + ((chunksOf runs).flatMap encode).length, runs.length,
        maxDoc, true, ⟨0, 0, 0⟩⟩
      ((chunksOf runs).flatMap encode).length (fun index => (encode (chunk runs index)).length) := by
  have all := offsetOf_all (chunksOf runs)
  rw [length_chunksOf] at all
  have directory := drop_past wrote rfl
  have succ : ∀ index < numBlocks runs, offsetOf (chunksOf runs) (index + 1) =
      offsetOf (chunksOf runs) index + (encode (chunk runs index)).length := by
    intro index lt
    have bound : index < (chunksOf runs).length := by
      rw [length_chunksOf]
      exact lt
    rw [offsetOf_succ bound, getElem_chunksOf bound]
  generalize sourced : (⟨file, place, place + ((chunksOf runs).flatMap encode).length,
    runs.length, maxDoc, true, ⟨0, 0, 0⟩⟩ : VersionRuns) = source
  have blocks : source.numBlocks = numBlocks runs := by
    subst sourced
    rfl
  have entry : ∀ index < numBlocks runs, source.entry index =
      ⟨firstOf (chunk runs index), 0, offsetOf (chunksOf runs) index⟩ := by
    intro index lt
    subst sourced
    exact storable.entry directory lt
  have block : ∀ index < numBlocks runs, source.block index =
      ⟨file, place + offsetOf (chunksOf runs) index, (chunk runs index).length⟩ := by
    intro index lt
    rw [VersionRuns.block, entry index lt, length_chunk]
    subst sourced
    rfl
  have reads : ∀ index < numBlocks runs, Reads (source.block index) (chunk runs index) := by
    intro index lt
    obtain ⟨more, found⟩ := block_written wrote lt
    rw [block index lt]
    exact encode_reads (storable.block lt) found
  rw [← blocks] at succ entry reads
  refine ⟨storable.covering, ?_, ⟨?_, reads, ?_⟩, ?_, ?_, ?_, ?_, ?_⟩
  · subst sourced
    exact storable.within
  · rw [blocks]
    exact (numBlocks_spec runs).1
  all_goals intro index lt
  · rw [(reads index lt).first, entry index lt, ← head_eq (reads index lt).nonempty]
    rfl
  · rw [blocks] at lt
    obtain ⟨more, found⟩ := block_written wrote lt
    rw [block index lt]
    exact encode_accepted (storable.block lt) found
  · rw [entry index lt]
  · rw [entry index lt]
    exact (storable.offset_facts (le_of_lt (blocks ▸ lt))).1
  · rw [entry index lt]
    rw [← succ index lt]
    split_ifs with more
    · rw [entry _ more]
    · rw [← all, ← blocks, show index + 1 = source.numBlocks by omega]
  · rw [entry index lt]
    rw [← succ index lt]
    exact length_take_le_all encode _ _

theorem Storable.opens (storable : Storable runs maxDoc) (avx2 : Bool)
    (laid : Laid base (chunksOf runs) output) (aligned : base.length % 8 = 0) (past : Bytes) :
    ∃ source, VersionRuns.openRuns avx2 ((output.finish runs.length).1 ++ past)
        (output.finish runs.length).2 runs.length maxDoc = some source ∧
      Opened runs source ∧ source.maxDoc = maxDoc := by
  have nonzero : runs.length ≠ 0 := by
    have ne := length_pos_of_ne_nil storable.covering.ne_nil
    omega
  obtain ⟨blocksLe, short⟩ := storable.blocks_le
  obtain ⟨even, bound⟩ := storable.offset_facts (le_rfl)
  have all := offsetOf_all (chunksOf runs)
  rw [length_chunksOf] at all
  rw [all] at even bound
  rw [laid.finish nonzero, length_chunksOf]
  have entries : ((directoryOf (chunksOf runs)).flatMap toBytes).length =
      numBlocks runs * directorySize := by
    rw [length_flatMap length_entry, directoryOf, length_mapIdx, length_chunksOf]
  generalize headed : (⟨encoding, runs.length, ((chunksOf runs).flatMap encode).length,
    ((chunksOf runs).flatMap encode).length + numBlocks runs * directorySize + headerSize⟩ :
      VersionRunsHeader) = header
  have wrote : (base ++ ((chunksOf runs).flatMap encode ++
      ((directoryOf (chunksOf runs)).flatMap toBytes ++ header.toBytes)) ++
        past).drop base.length = (chunksOf runs).flatMap encode ++
      ((directoryOf (chunksOf runs)).flatMap toBytes ++ (header.toBytes ++ past)) := by
    simp only [append_assoc, drop_left]
  have headerAt := drop_past (drop_past wrote rfl) rfl
  rw [entries] at headerAt
  have words : encoding = 2 ∧ headerSize = 24 := ⟨rfl, rfl⟩
  have small : numBlocks runs * directorySize = numBlocks runs * 16 := rfl
  have same : (runs.length + runsPerBlock - 1) / runsPerBlock = numBlocks runs := rfl
  have read := header_ofBytes headerAt
    (by subst headed; dsimp only; omega) (by subst headed; dsimp only; omega)
    (by subst headed; dsimp only; omega) (by subst headed; dsimp only; omega)
  apply openRuns_opened avx2 storable.few (storable.shelved wrote) rfl (read.trans headed.symm)
    aligned even
  simp only [length_append, length_header, entries, same]
  omega

end

variable {latest maxDoc : Nat} {done : List VersionRun} {builder : VersionRunBuilder}

def kept (runs : List VersionRun) (maxDoc : Nat) : List VersionRun :=
  if runs.getLast?.map VersionRun.firstDocId = some maxDoc then runs.dropLast else runs

theorem kept_versionAt {runs : List VersionRun} {doc : Nat} (lt : doc < maxDoc) :
    versionAt (kept runs maxDoc) doc = versionAt runs doc := by
  unfold kept
  split_ifs with last
  · obtain ⟨run, found, start⟩ := Option.map_eq_some_iff.mp last
    obtain ⟨init, rfl⟩ := getLast?_eq_some_iff.mp found
    rw [dropLast_concat, versionAt_concat, if_neg (by omega)]
  · rfl

theorem storable_kept (built : Built latest done builder) (ends : latest ≤ maxDoc)
    (pos : 0 < maxDoc) (few : maxDoc < 2 ^ 31) :
    Storable (kept (done ++ builder.tail) maxDoc) maxDoc := by
  have found := built.last_eq
  obtain ⟨init, split⟩ := getLast?_eq_some_iff.mp found
  have cover := built.covering
  have most := built.ordered _ (mem_of_getLast? found)
  unfold kept
  simp only [found, Option.map_some, Option.some.injEq]
  rw [split] at cover ⊢
  have before := cover.before_last
  split_ifs with last
  · rw [dropLast_concat]
    have ne : init ≠ [] := by
      rintro rfl
      have zero := cover.zero (by simp)
      simp only [nil_append, getElem_cons_zero] at zero
      omega
    refine ⟨cover.init ne, fun run mem => ?_, few⟩
    have early := before run mem
    omega
  · refine ⟨cover, forall_mem_append.mpr ⟨fun run lt => ?_, forall_mem_singleton.mpr (by omega)⟩, few⟩
    have early := before run lt
    omega

theorem numBlocks_full (full : done.length = blocks * runsPerBlock) : numBlocks done = blocks := by
  unfold numBlocks runsPerBlock at *
  omega

theorem sealedBlocks_eq (front : SealedRuns done builder) :
    builder.sealedBlocks = (chunksOf done).map fun runs => ⟨encode runs, firstOf runs⟩ := by
  apply ext_getElem
  · rw [length_map, length_chunksOf, numBlocks_full front.full]
  · intro index first second
    rw [(front.blocks index first).2, getElem_map, getElem_chunksOf]
    rfl

theorem chunksOf_append (full : done.length = blocks * runsPerBlock)
    {part : List VersionRun} (ne : part ≠ []) (short : part.length ≤ runsPerBlock) :
    chunksOf (done ++ part) = chunksOf done ++ [part] := by
  have pos := length_pos_of_ne_nil ne
  have more : numBlocks (done ++ part) = blocks + 1 := by
    have size : (done ++ part).length = done.length + part.length := length_append
    unfold numBlocks runsPerBlock at *
    omega
  unfold chunksOf
  rw [more, numBlocks_full full, range_succ, map_append, map_singleton, chunk_last full short]
  congr 1
  apply map_congr_left
  intro index lt
  apply chunk_append
  rw [full]
  exact Nat.mul_le_mul_right _ (mem_range.mp lt)

theorem kept_eq (built : Built latest done builder) (ends : latest ≤ maxDoc) :
    kept (done ++ builder.tail) maxDoc = done ++ builder.tail.take
      (if builder.tail.getLast?.map VersionRun.firstDocId = some maxDoc then
        builder.tail.length - 1 else builder.tail.length) := by
  unfold kept
  by_cases empty : builder.tail = []
  · have ne := built.covering.ne_nil
    rw [empty, append_nil] at ne ⊢
    have found := built.front.last ne
    have past := built.emptied empty _ (mem_of_getLast? found)
    simp only [found, Option.map_some, Option.some.injEq, take_nil, append_nil]
    rw [if_neg (by omega)]
  · rw [getLast?_append_of_ne_nil _ empty, dropLast_append_of_ne_nil empty, dropLast_eq_take]
    split_ifs
    · rfl
    · rw [take_length]

theorem finish_laid (built : Built latest done builder) (ends : latest ≤ maxDoc)
    (out : Bytes) : ∃ output, builder.finish (begin out) maxDoc =
        (output, (kept (done ++ builder.tail) maxDoc).length) ∧
      Laid (align out 8) (chunksOf (kept (done ++ builder.tail) maxDoc)) output := by
  have front := built.front
  have laid := (laid_begin out).adds (chunksOf done)
  have blocks : builder.sealedBlocks.foldl
      (fun output block => output.add block.data block.firstDocId)
      (begin out) = (chunksOf done).foldl
        (fun output runs => output.add (encode runs) (firstOf runs))
        (begin out) := by
    rw [sealedBlocks_eq front, foldl_map]
  rw [kept_eq built ends]
  unfold VersionRunBuilder.finish
  dsimp only
  rw [blocks]
  generalize (chunksOf done).foldl (fun output runs => output.add (encode runs) (firstOf runs))
    (begin out) = output at *
  have short := built.short
  have least : (if builder.tail.getLast?.map VersionRun.firstDocId = some maxDoc then
      builder.tail.length - 1 else builder.tail.length) ≤ builder.tail.length := by
    split_ifs <;> omega
  generalize (if builder.tail.getLast?.map VersionRun.firstDocId = some maxDoc then
      builder.tail.length - 1 else builder.tail.length) = count at *
  have size : (done ++ builder.tail.take count).length = builder.sealedCount + count := by
    rw [length_append, length_take, Nat.min_eq_left least, front.count]
  rw [size]
  split_ifs with left
  · have ne : builder.tail.take count ≠ [] := by
      apply ne_nil_of_length_pos
      rw [length_take]
      omega
    have first : builder.tailFirst = firstOf (builder.tail.take count) := by
      unfold VersionRunBuilder.tailFirst firstOf
      rw [head?_take, if_neg left]
    refine ⟨_, rfl, ?_⟩
    rw [chunksOf_append front.full ne (by rw [length_take]; omega), first]
    exact laid.add _
  · refine ⟨_, rfl, ?_⟩
    rw [not_not.mp left, take_zero, append_nil]
    exact laid

end Luxir.Index.RunsFile
