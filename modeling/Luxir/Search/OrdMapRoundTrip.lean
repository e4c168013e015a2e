import Luxir.Search.OrdMapSegments

/-!
An ordinal map that is built and opened sends the ordinals of every segment to those of the union,
whatever the encoding, and leads from every ordinal of the union back to a segment's term.
-/

namespace Luxir.Search.OrdMapRoundTrip
open Lib.Bytes Lib.Words Lib.SortedUnion Codec.NumColumn Codec.NumColumnFormat Codec.ColumnRoundTrip
open Util.Encoding OrdDeltas OrdDeltaReads OrdMapMerge OrdMapFile OrdMapSegments NumColumnWriter
open Util.Heap NumBlockInfo Int64 Option
open List hiding union merge

variable {file : Bytes} {ord place : Nat} {mappings : List SegToGlobal} {seg : Nat}
  {column : FinishData} {values : List Nat}

theorem valueAt_drop (withGcd : Bool) (file : Bytes) (place blocks blockMeta nValues rank : Nat) :
    (⟨withGcd, file, place + blocks, place + blockMeta, nValues⟩ : NumColumnT).valueAt rank =
      (⟨withGcd, file.drop place, blocks, blockMeta, nValues⟩ : NumColumnT).valueAt rank := by
  simp only [NumColumnT.valueAt, NumColumnT.blockInfo, ofBytes, NumColumnT.loadInt64,
    Codec.LinearPack.select64, load, drop_drop, add_assoc]

theorem columnLoc_finish (writer : NumColumnWriter) (trailer : Bytes) :
    (writer.finish trailer).2.columnLoc = writer.colStart := by
  unfold finish
  split_ifs <;> rfl

theorem writeColumn_loc (values : List Nat) (trailer : Bytes) :
    (writeColumn values trailer).2.columnLoc = 0 := by
  unfold writeColumn
  rw [columnLoc_finish, (adds_keep _ _).2]
  rfl

theorem writeColumn_holds {trailer : Bytes}
    (fits : (writeColumn values trailer).2.columnMetaOff ≤ offsetMask.toNat) (rest : Bytes) :
    Holds ((writeColumn values trailer).2.column ((writeColumn values trailer).1 ++ rest) true)
      (values.map fun value : Nat => ofInt (value : Int)) := by
  have limit : offsetMask.toNat < 2 ^ 56 := by decide
  unfold writeColumn at fits ⊢
  dsimp only at fits ⊢
  generalize values.map (fun value : Nat => ofInt (value : Int)) = kept at *
  have writes : Writes kept (kept.foldl addInt64 (start [] true)) :=
    writes_adds (writes_start [] true)
  have kind : (kept.foldl addInt64 (start [] true)).useGcd = true := (adds_keep kept _).1
  rw [align, append_assoc]
  have holds := fun tail => finish_holds writes trailer tail (fits.trans_lt limit)
  rw [kind] at holds
  exact holds _

theorem writeColumn_reads {trailer rest : Bytes}
    (fits : (writeColumn values trailer).2.columnMetaOff ≤ offsetMask.toNat)
    (placed : file.drop place = (writeColumn values trailer).1 ++ rest) {rank : Nat}
    (lt : rank < values.length) :
    (⟨true, file, place, place + (writeColumn values trailer).2.columnMetaOff,
      (writeColumn values trailer).2.numValues⟩ : NumColumnT).valueAt rank =
        ofInt values[rank] := by
  have within : rank < (values.map fun value : Nat => ofInt (value : Int)).length := by
    simpa using lt
  have read := valueAt_eq (writeColumn_holds fits rest) within
  rw [getElem_map] at read
  rw [← read, FinishData.column, ← placed, writeColumn_loc, zero_add,
    ← valueAt_drop true file place 0]
  rfl

variable {α : Type} {segments : List (List α)} {terms : List α}

section
variable [LinearOrder α] {idx : Nat}

theorem lt_of_getElem_lt {values : List α} (sorted : values.Pairwise (· < ·)) {first second : Nat}
    {low high : α} (lower : values[first]? = some low) (upper : values[second]? = some high)
    (less : low < high) : first < second := by
  obtain ⟨lt, rfl⟩ := List.getElem?_eq_some_iff.mp lower
  obtain ⟨within, rfl⟩ := List.getElem?_eq_some_iff.mp upper
  rcases lt_trichotomy first second with before | same | after
  · exact before
  · subst same
    exact absurd less (lt_irrefl _)
  · exact absurd (pairwise_iff_getElem.mp sorted second first _ _ after) less.not_gt

variable [StdHeap (termCmp (α := α))] (rising : ∀ terms ∈ segments, terms.Pairwise (· < ·))
include rising

theorem added_maps (segment : segments[idx]? = some terms)
    (lt : ord < ((merge segments).added idx).length) : ∃ term, terms[ord]? = some term ∧
      (union segments)[ord + ((merge segments).added idx)[ord]]? = some term := by
  have merged := merge_spec rising
  have mapped := merged.mapped idx terms segment ord _ (getElem?_eq_getElem lt)
  have within : ord < terms.length := by rwa [← merged.lengths idx terms segment]
  exact ⟨terms[ord], getElem?_eq_getElem within, mapped.trans (getElem?_eq_getElem within)⟩

/-- Ordinals that follow each other have global ordinals in order, so the deltas do not fall. -/
theorem added_climbing (segment : segments[idx]? = some terms) :
    Climbing ((merge segments).added idx) (union segments).length := by
  have sorted := rising terms (mem_of_getElem? segment)
  refine ⟨?_, fun ne => ?_⟩
  · apply isChain_iff_pairwise.mp
    apply isChain_iff_getElem.mpr
    intro ord lt
    obtain ⟨low, lower, lowest⟩ := added_maps rising segment (Nat.lt_of_succ_lt lt)
    obtain ⟨high, upper, highest⟩ := added_maps rising segment lt
    obtain ⟨before, rfl⟩ := List.getElem?_eq_some_iff.mp lower
    obtain ⟨after, rfl⟩ := List.getElem?_eq_some_iff.mp upper
    have less := pairwise_iff_getElem.mp sorted ord (ord + 1) before after (Nat.lt_succ_self _)
    have order := lt_of_getElem_lt (union_sorted segments) lowest highest less
    omega
  · have pos := length_pos_iff.mpr ne
    have final : ((merge segments).added idx).length - 1 < ((merge segments).added idx).length := by
      omega
    obtain ⟨term, -, found⟩ := added_maps rising segment final
    have bound := (List.getElem?_eq_some_iff.mp found).1
    rw [getLastD_eq_getLast?, getLast?_eq_getElem?, getElem?_eq_getElem final, getD_some]
    omega

theorem segmentDeltas_valid :
    ∀ segment ∈ segmentDeltas segments, Valid (union segments).length segment := by
  intro segment mem
  obtain ⟨idx, lt, rfl⟩ := mem_mapIdx.mp mem
  have here := getElem?_eq_getElem lt
  exact ⟨(merge_spec rising).lengths idx _ here, added_climbing rising here⟩

theorem added_rank (segment : segments[idx]? = some terms) (lt : ord < terms.length)
    (within : ord < ((merge segments).added idx).length) :
    ord + ((merge segments).added idx)[ord] = (union segments).idxOf terms[ord] := by
  obtain ⟨term, lower, found⟩ := added_maps rising segment within
  obtain ⟨_, rfl⟩ := List.getElem?_eq_some_iff.mp lower
  obtain ⟨bound, same⟩ := List.getElem?_eq_some_iff.mp found
  rw [← same, (union_sorted segments).nodup.idxOf_getElem]

end

section
variable [LinearOrder α] [StdHeap (termCmp (α := α))]

/-- The sizes of a map fit the words that hold them: deltas of 57 bits, a signed size of 32 for the
metadata, places of 64, and the offsets of 56 within a column. -/
structure Representable (encoding : DeltaEncoding) (segments : List (List α))
    (trailers : Bytes × Bytes) : Prop where
  ords : (union segments).length ≤ 2 ^ 57
  metadata : (writeMap encoding segments trailers).2.length < 2 ^ 31
  data : (writeMap encoding segments trailers).1.length < 2 ^ 64
  firstSegs : (writeColumn (merge segments).firstSegs trailers.1).2.columnMetaOff ≤ offsetMask.toNat
  globDeltas : (writeColumn (merge segments).globDeltas trailers.2).2.columnMetaOff ≤
    offsetMask.toNat

structure Opened (segments : List (List α)) (map : OrdMap) : Prop where
  ords : map.nOrds = (union segments).length
  mappings : Forall₂ (fun segment mapping => Finds map.data mapping segment.values)
    (segmentDeltas segments) map.segToGlobal
  full : map.firstFull = map.segToGlobal.findIdx? fun mapping => mapping.numOrds = map.nOrds
  columns : map.firstFull = none → ∃ firstSegs globDeltas, map.firstSegs = some firstSegs ∧
    map.globDeltas = some globDeltas ∧
    (∀ ord (inside : ord < (merge segments).firstSegs.length),
      firstSegs.valueAt ord = ofInt ((merge segments).firstSegs[ord] : Int)) ∧
    ∀ ord (inside : ord < (merge segments).globDeltas.length),
      globDeltas.valueAt ord = ofInt ((merge segments).globDeltas[ord] : Int)

theorem metadata_found (payload metaOut : Bytes) (short : metaOut.length < 2 ^ 31) :
    (payload ++ metaOut ++ spell 4 metaOut.length).drop
      (((payload ++ metaOut ++ spell 4 metaOut.length).length : Int) - 4 -
        signed 32 (load 4 (payload ++ metaOut ++ spell 4 metaOut.length)
          ((payload ++ metaOut ++ spell 4 metaOut.length).length - 4))).toNat =
      metaOut ++ spell 4 metaOut.length := by
  have total : (payload ++ metaOut ++ spell 4 metaOut.length).length =
      payload.length + metaOut.length + 4 := by
    simp only [length_append, length_spell]
  have last : (payload ++ metaOut ++ spell 4 metaOut.length).drop
      (payload.length + metaOut.length) = spell 4 metaOut.length ++ [] := by
    rw [append_nil]
    exact drop_left' length_append
  have size : load 4 (payload ++ metaOut ++ spell 4 metaOut.length)
      ((payload ++ metaOut ++ spell 4 metaOut.length).length - 4) = metaOut.length := by
    rw [total, Nat.add_sub_cancel, load_spell last, Nat.mod_eq_of_lt (by omega)]
  have signed_eq : signed 32 metaOut.length = metaOut.length := by
    unfold signed
    split_ifs <;> omega
  have place : (((payload.length + metaOut.length + 4 : Nat) : Int) - 4 -
      (metaOut.length : Int)).toNat = payload.length := by omega
  rw [size, signed_eq, total, place, append_assoc, drop_left]

theorem length_writeSegments (encoding : DeltaEncoding) (nOrds : Nat)
    (segments : List SegmentDeltas) (payload : Bytes) :
    segments.length ≤ (writeSegments encoding nOrds segments payload).1.length := by
  have some_byte : ∀ num, 1 ≤ (writeVLong num).length := by
    intro num
    rw [writeVLong_eq]
    split_ifs <;> simp
  induction segments generalizing payload with
  | nil => exact Nat.zero_le _
  | cons segment rest ih =>
    have first : 1 ≤ (writeSegment encoding nOrds segment payload).1.length := by
      have count := some_byte segment.numTerms
      unfold writeSegment
      dsimp only
      split_ifs <;> simp only [length_append] <;> omega
    have later := ih (writeSegment encoding nOrds segment payload).2
    simp only [writeSegments, length_cons, length_append]
    omega

theorem readColumn_skipped (data : Bytes) {full num : Nat} (word : num < 2 ^ 64) (stream : Bytes) :
    readColumn data (some full) (writeVLong num ++ stream) = some (none, stream) := by
  rw [readColumn, readVLong_write word]
  dsimp only [bind_eq_bind, bind_some]
  rw [if_neg (by simp)]

/-- If the columns are not read, the place of the first is taken for the size of the second. -/
theorem columnMeta_skipped (data : Bytes) (full : Nat)
    (count : column.numValues < 2 ^ 64) (word : column.columnLoc + place < 2 ^ 64)
    (stream : Bytes) :
    ∃ mid later, readColumn data (some full) (columnMeta column place ++ stream) =
        some (none, mid) ∧ readColumn data (some full) mid = some (none, later) := by
  refine ⟨writeVLong (column.columnLoc + place) ++ (writeVLong column.columnMetaOff ++ stream),
    writeVLong column.columnMetaOff ++ stream, ?_, readColumn_skipped data word _⟩
  rw [columnMeta, append_assoc, append_assoc]
  exact readColumn_skipped data count _

theorem readColumn_written (data : Bytes) (start : column.columnLoc = 0)
    (values : 0 < column.numValues) (count : column.numValues < 2 ^ 64) (word : place < 2 ^ 64)
    (offset : column.columnMetaOff < 2 ^ 64) (stream : Bytes) :
    readColumn data none (columnMeta column place ++ stream) =
      some (some ⟨true, data, place, place + column.columnMetaOff, column.numValues⟩, stream) := by
  rw [readColumn, columnMeta, append_assoc, append_assoc, readVLong_write count, start, zero_add]
  dsimp only [bind_eq_bind, bind_some]
  rw [if_pos ⟨values, rfl⟩, readVLong_write word]
  dsimp only [bind_some]
  rw [readVLong_write offset]
  rfl

theorem openMap_eq {segs columns tail mid later : Bytes} {nOrds nSegs : Nat}
    {firstSegs globDeltas : Option NumColumnT}
    (found : file.drop ((file.length : Int) - 4 - signed 32 (load 4 file (file.length - 4))).toNat =
      writeVLong nOrds ++ writeVLong nSegs ++ segs ++ columns ++ tail) (ords : nOrds < 2 ^ 64)
    (num : nSegs < 2 ^ 64)
    (reads : ∀ stream, readSegments nOrds nSegs (segs ++ stream) = some (mappings, stream))
    (first : readColumn file (mappings.findIdx? fun mapping => mapping.numOrds = nOrds)
      (columns ++ tail) = some (firstSegs, mid))
    (second : readColumn file (mappings.findIdx? fun mapping => mapping.numOrds = nOrds) mid =
      some (globDeltas, later)) :
    openMap file = some ⟨file, nOrds, mappings.findIdx? fun mapping => mapping.numOrds = nOrds,
      mappings, firstSegs, globDeltas⟩ := by
  unfold openMap
  dsimp only [bind_eq_bind]
  rw [found, append_assoc, append_assoc, append_assoc, readVLong_write ords]
  dsimp only [bind_some]
  rw [readVLong_write num]
  dsimp only [bind_some]
  rw [reads]
  dsimp only [bind_some]
  rw [first]
  dsimp only [bind_some]
  rw [second]
  rfl

variable {encoding : DeltaEncoding} {trailers : Bytes × Bytes}
  (rising : ∀ terms ∈ segments, terms.Pairwise (· < ·)) (ne : union segments ≠ [])
include rising ne

theorem needed_of_none (found : Forall₂ (fun segment mapping => Finds file mapping segment.values)
      (segmentDeltas segments) mappings)
    (none_full : mappings.findIdx? (fun mapping => mapping.numOrds = (union segments).length) =
      none) :
    needGlobalDeltas segments = true := by
  have valid := segmentDeltas_valid rising
  obtain ⟨term, mem⟩ := exists_mem_of_ne_nil _ ne
  obtain ⟨terms, lt, here⟩ := mem_union.mp mem
  obtain ⟨idx, within, rfl⟩ := getElem_of_mem lt
  have bound : idx < (segmentDeltas segments).length := by
    simpa [segmentDeltas] using within
  have partner : idx < mappings.length := found.length_eq ▸ bound
  have finds := forall₂_iff_get.mp found
  have count := (finds.2 idx bound partner).count
  have chosen := valid _ (getElem_mem bound)
  have lacks : mappings[idx].numOrds ≠ (union segments).length := by
    have all := findIdx?_eq_none_iff.mp none_full mappings[idx] (getElem_mem partner)
    simpa using all
  have size : (segmentDeltas segments)[idx].numTerms = segments[idx].length := by
    simp [segmentDeltas]
  have pos := length_pos_of_mem here
  have most := chosen.climbing.length_le
  have same := chosen.count
  simp only [get_eq_getElem] at count
  unfold needGlobalDeltas
  rw [List.any_eq_true]
  refine ⟨_, getElem_mem bound, ?_⟩
  rw [(merge_spec rising).count]
  simp only [SegmentDeltas.writesDeltas, decide_eq_true_eq]
  omega

variable (fits : Representable encoding segments trailers)
include fits

theorem readColumns_written (data rest : Bytes) (place : Nat) (firstFull : Option Nat)
    (needed : firstFull = none → needGlobalDeltas segments = true)
    (placed : data.drop place = (writeColumns (merge segments) (needGlobalDeltas segments) trailers
      place).1 ++ rest) (begins : place + (writeColumns (merge segments) (needGlobalDeltas segments)
      trailers place).1.length < 2 ^ 64) (stream : Bytes) : ∃ firstSegs globDeltas mid later,
      readColumn data firstFull ((writeColumns (merge segments) (needGlobalDeltas segments) trailers
        place).2 ++ stream) = some (firstSegs, mid) ∧
      readColumn data firstFull mid = some (globDeltas, later) ∧
      (firstFull = none → ∃ segs deltas, firstSegs = some segs ∧ globDeltas = some deltas ∧
        (∀ ord (lt : ord < (merge segments).firstSegs.length),
          segs.valueAt ord = ofInt ((merge segments).firstSegs[ord] : Int)) ∧
        ∀ ord (lt : ord < (merge segments).globDeltas.length),
          deltas.valueAt ord = ofInt ((merge segments).globDeltas[ord] : Int)) := by
  have merged := merge_spec rising
  have pos := length_pos_iff.mpr ne
  have ords := fits.ords
  have limit : offsetMask.toNat < 2 ^ 64 := by decide
  have segs_count : (writeColumn (merge segments).firstSegs trailers.1).2.numValues =
      (union segments).length := by
    have count := (writeColumn_holds fits.firstSegs []).count
    rwa [length_map, merged.resolves.segs] at count
  have deltas_count : (writeColumn (merge segments).globDeltas trailers.2).2.numValues =
      (union segments).length := by
    have count := (writeColumn_holds fits.globDeltas []).count
    rwa [length_map, merged.resolves.deltas] at count
  by_cases wrote : needGlobalDeltas segments = true
  · rw [wrote, writeColumns, if_pos rfl] at placed begins
    rw [wrote, writeColumns, if_pos rfl]
    rw [length_append] at begins
    rw [append_assoc] at placed
    set firsts := writeColumn (merge segments).firstSegs trailers.1
    set gaps := writeColumn (merge segments).globDeltas trailers.2
    cases firstFull with
    | some full =>
      obtain ⟨mid, later, first, second⟩ := columnMeta_skipped data full
        (by omega : firsts.2.numValues < 2 ^ 64)
        (by rw [writeColumn_loc]; omega : firsts.2.columnLoc + place < 2 ^ 64)
        (columnMeta gaps.2 (place + firsts.1.length) ++ stream)
      rw [← append_assoc] at first
      exact ⟨none, none, mid, later, first, second, fun gone => nomatch gone⟩
    | none =>
      have first := readColumn_written data (show firsts.2.columnLoc = 0 from writeColumn_loc _ _)
        (by omega) (by omega) (by omega : place < 2 ^ 64) (fits.firstSegs.trans_lt limit)
        (columnMeta gaps.2 (place + firsts.1.length) ++ stream)
      have second := readColumn_written data (show gaps.2.columnLoc = 0 from writeColumn_loc _ _)
        (by omega) (by omega) (by omega : place + firsts.1.length < 2 ^ 64)
        (fits.globDeltas.trans_lt limit) stream
      rw [← append_assoc] at first
      exact ⟨_, _, _, _, first, second, fun _ => ⟨_, _, rfl, rfl,
        fun ord lt => writeColumn_reads fits.firstSegs placed lt,
        fun ord lt => writeColumn_reads fits.globDeltas (drop_past placed rfl) lt⟩⟩
  · cases firstFull with
    | none => exact absurd (needed rfl) wrote
    | some =>
      rw [Bool.not_eq_true] at wrote
      rw [wrote, writeColumns, if_neg Bool.false_ne_true]
      refine ⟨none, none, writeVLong 0 ++ stream, stream, ?_, ?_, fun gone => nomatch gone⟩
      · rw [append_assoc]
        exact readColumn_skipped data (by norm_num) _
      · exact readColumn_skipped data (by norm_num) _

theorem open_build : ∃ map, openMap (build encoding segments trailers) = some map ∧
    Opened segments map := by
  set encoded := writeSegments encoding (union segments).length (segmentDeltas segments)
  have count := (merge_spec rising).count
  have metadata := fits.metadata
  have data := fits.data
  have ords := fits.ords
  have found := metadata_found (writeMap encoding segments trailers).1 _ metadata
  obtain ⟨file, built⟩ : ∃ file, build encoding segments trailers = file := ⟨_, rfl⟩
  have whole : (writeMap encoding segments trailers).1 ++ ((writeMap encoding segments trailers).2 ++
      spell 4 (writeMap encoding segments trailers).2.length) = file := by
    rw [← built, build, append_assoc]
  rw [append_assoc, whole] at found
  simp only [writeMap, count] at metadata data whole found
  generalize spell 4 _ = tail at whole found
  have least := length_writeSegments encoding (union segments).length (segmentDeltas segments) []
  have same : (segmentDeltas segments).length = segments.length := by simp [segmentDeltas]
  obtain ⟨pad, padded⟩ : ∃ pad, align (encoded []).2 8 = (encoded []).2 ++ pad := ⟨_, rfl⟩
  obtain ⟨more, mappings, wrote, reads, finds⟩ := readSegments_written ords
    (segmentDeltas_valid rising) [] (by
      rw [padded, length_append, length_append] at data
      omega : (encoded []).2.length < 2 ^ 64)
  rw [same] at reads
  generalize (encoded []).1 = segs at *
  generalize align (encoded []).2 8 = payload at *
  have mapped := finds (pad ++ ((writeColumns (merge segments) (needGlobalDeltas segments) trailers
    payload.length).1 ++ (writeVLong (union segments).length ++ writeVLong segments.length ++ segs ++
      (writeColumns (merge segments) (needGlobalDeltas segments) trailers payload.length).2 ++ tail)))
  rw [← wrote, ← append_assoc, ← padded, ← append_assoc, whole] at mapped
  have placed : file.drop payload.length = (writeColumns (merge segments) (needGlobalDeltas segments)
      trailers payload.length).1 ++ (writeVLong (union segments).length ++
        writeVLong segments.length ++ segs ++ (writeColumns (merge segments)
          (needGlobalDeltas segments) trailers payload.length).2 ++ tail) := by
    rw [← whole, append_assoc, drop_left]
  rw [length_append] at data
  obtain ⟨firstSegs, globDeltas, mid, later, first, second, columns⟩ :=
    readColumns_written rising ne fits file _ payload.length
      (mappings.findIdx? fun mapping => mapping.numOrds = (union segments).length)
      (needed_of_none rising ne mapped) placed data tail
  have num : segments.length < 2 ^ 64 := by
    simp only [length_append] at metadata
    omega
  rw [built, openMap_eq found (by omega) num reads first second]
  exact ⟨_, rfl, rfl, mapped, rfl, columns⟩

end

theorem length_startQueue {α : Type} (segments : List (List α)) :
    (startQueue segments).length = (segments.filter (!·.isEmpty)).length := by
  have counted : ∀ first, ((segments.zipIdx first).filterMap fun segment =>
      TermsEnumIdx.start segment.2 segment.1).length = (segments.filter (!·.isEmpty)).length := by
    induction segments with
    | nil => exact fun _ => rfl
    | cons terms rest ih =>
      intro first
      rw [zipIdx_cons, filterMap_cons, filter_cons]
      cases terms with
      | nil => exact ih (first + 1)
      | cons => exact congrArg Nat.succ (ih (first + 1))
  exact counted 0

theorem buildMap_eq {α : Type} [LinearOrder α] [StdHeap (termCmp (α := α))] {segments : List (List α)}
    (two : 2 ≤ (segments.filter (!·.isEmpty)).length) (encoding : DeltaEncoding)
    (trailers : Bytes × Bytes) :
    buildMap encoding segments trailers = openMap (build encoding segments trailers) := by
  have several := length_startQueue segments
  unfold buildMap
  split
  · next nothing =>
    rw [nothing, length_nil] at several
    omega
  · next single one =>
    rw [one, length_singleton] at several
    omega
  · rfl

variable [LinearOrder α] [StdHeap (termCmp (α := α))] {map : OrdMap}

theorem Opened.segment (opened : Opened segments map) (segment : segments[seg]? = some terms) :
    map.segToGlobal[seg]? = some (map.getSegToGlobal seg) ∧
      Finds map.data (map.getSegToGlobal seg) ((merge segments).added seg) := by
  obtain ⟨lt, rfl⟩ := List.getElem?_eq_some_iff.mp segment
  have lengths := opened.mappings.length_eq
  have first : seg < (segmentDeltas segments).length := by simpa [segmentDeltas] using lt
  have second : seg < map.segToGlobal.length := by omega
  have chosen : map.getSegToGlobal seg = map.segToGlobal[seg] := by
    have some_mapping : map.segToGlobal ≠ [] := ne_nil_of_length_pos (by omega)
    rw [OrdMap.getSegToGlobal, if_neg some_mapping, getD_eq_getElem _ _ second]
  have finds := (forall₂_iff_get.mp opened.mappings).2 seg first second
  simp only [get_eq_getElem, segmentDeltas, getElem_mapIdx] at finds
  rw [chosen]
  exact ⟨getElem?_eq_getElem second, finds⟩

def bulkGlobalOrds (file : Bytes) (mapping : SegToGlobal) :
    SegToGlobal.BulkGlobalOrds → List Nat → List Int
  | _, [] => []
  | bulk, ord :: rest =>
      let read := bulk.globalOrd file mapping ord
      read.1 :: bulkGlobalOrds file mapping read.2 rest

theorem bulkGlobalOrds_eq {mapping : SegToGlobal} {bulk : SegToGlobal.BulkGlobalOrds}
    (decoded : Decoded file mapping bulk) {ords : List Nat}
    (lt : ∀ ord ∈ ords, ord < mapping.numOrds) :
    bulkGlobalOrds file mapping bulk ords = ords.map fun ord => mapping.globalOrd file ord := by
  induction ords generalizing bulk with
  | nil => rfl
  | cons ord rest ih =>
    obtain ⟨read, kept⟩ := bulk_globalOrd file mapping decoded (lt ord mem_cons_self)
    rw [bulkGlobalOrds, map_cons, read, ih kept fun other mem => lt other (mem_cons_of_mem _ mem)]

section
variable (rising : ∀ terms ∈ segments, terms.Pairwise (· < ·))
include rising

theorem Opened.globalOrd_eq (opened : Opened segments map)
    (segment : segments[seg]? = some terms) (lt : ord < terms.length) :
    (map.getSegToGlobal seg).globalOrd map.data ord = ((union segments).idxOf terms[ord] : Nat) := by
  obtain ⟨-, finds⟩ := opened.segment segment
  have within : ord < ((merge segments).added seg).length := by
    rwa [(merge_spec rising).lengths seg terms segment]
  rw [SegToGlobal.globalOrd, finds.found ord within, ← added_rank rising segment lt within]
  exact (Int.natCast_add _ _).symm

omit [StdHeap (termCmp (α := α))] in
theorem eq_union_of_length (segment : segments[seg]? = some terms)
    (full : terms.length = (union segments).length) : terms = union segments := by
  have mem := mem_of_getElem? segment
  have sorted := rising terms mem
  have subset : terms.toFinset ⊆ (union segments).toFinset := by
    intro term here
    rw [List.mem_toFinset] at here ⊢
    exact mem_union.mpr ⟨terms, mem, here⟩
  have same : terms.toFinset = (union segments).toFinset := by
    apply Finset.eq_of_subset_of_card_le subset
    rw [toFinset_card_of_nodup sorted.nodup,
      toFinset_card_of_nodup (union_sorted segments).nodup, full]
  apply eq_union sorted
  intro term
  rw [← List.mem_toFinset, same, List.mem_toFinset, mem_union]

theorem Opened.resolves (opened : Opened segments map) (count : segments.length < 2 ^ 63)
    (ords : (union segments).length ≤ 2 ^ 57) (lt : ord < (union segments).length) :
    (∃ seg, map.firstFull = some seg ∧ segments[seg]? = some (union segments) ∧
      (map.getSegToGlobal seg).globalOrd map.data ord = ord) ∨
    ∃ firstSegs globDeltas seg delta terms, map.firstFull = none ∧
      map.firstSegs = some firstSegs ∧ map.globDeltas = some globDeltas ∧
      (firstSegs.valueAt ord).toInt = (seg : Nat) ∧ (globDeltas.valueAt ord).toInt = (delta : Nat) ∧
      segments[seg]? = some terms ∧ delta ≤ ord ∧ terms[ord - delta]? = (union segments)[ord]? := by
  cases full : map.firstFull with
  | some seg =>
    left
    have located := opened.full
    rw [full] at located
    obtain ⟨within, counted, -⟩ := findIdx?_eq_some_iff_getElem.mp located.symm
    have bound : seg < segments.length := by
      have lengths := opened.mappings.length_eq
      simp only [segmentDeltas, length_mapIdx] at lengths
      omega
    have segment := getElem?_eq_getElem bound
    obtain ⟨place, finds⟩ := opened.segment segment
    rw [getElem?_eq_getElem within, some.injEq] at place
    rw [place, decide_eq_true_eq, finds.count, (merge_spec rising).lengths seg _ segment,
      opened.ords] at counted
    have whole := eq_union_of_length rising segment counted
    refine ⟨seg, rfl, by rw [segment, whole], ?_⟩
    have here : segments[seg]? = some (union segments) := by rw [segment, whole]
    rw [opened.globalOrd_eq rising here lt, (union_sorted segments).nodup.idxOf_getElem]
  | none =>
    right
    obtain ⟨firstSegs, globDeltas, segs, deltas, readSegs, readDeltas⟩ := opened.columns full
    have resolves := (merge_spec rising).resolves
    have first : ord < (merge segments).firstSegs.length := by rwa [resolves.segs]
    have second : ord < (merge segments).globDeltas.length := by rwa [resolves.deltas]
    obtain ⟨low, terms, segment, found⟩ := resolves.found ord _ _
      (getElem?_eq_getElem first) (getElem?_eq_getElem second)
    have known := (List.getElem?_eq_some_iff.mp segment).1
    refine ⟨firstSegs, globDeltas, _, _, terms, rfl, segs, deltas, ?_, ?_, segment, low, found⟩
    · rw [readSegs ord first]
      exact toInt_ofInt_of_le (by omega) (by omega)
    · rw [readDeltas ord second]
      exact toInt_ofInt_of_le (by omega) (by omega)

end

theorem ordMap_maps_to_union (encoding : DeltaEncoding) (segments : List (List α))
    (trailers : Bytes × Bytes) (increasing : ∀ terms ∈ segments, terms.Pairwise (· < ·))
    (two : 2 ≤ (segments.filter (!·.isEmpty)).length)
    (fits : Representable encoding segments trailers) :
    ∃ map, buildMap encoding segments trailers = some map ∧ map.nOrds = (union segments).length ∧
      (∀ (seg : Nat) terms, segments[seg]? = some terms →
        (∀ ord (inside : ord < terms.length), (map.getSegToGlobal seg).globalOrd map.data ord =
          ((union segments).idxOf terms[ord] : Nat)) ∧
        (∀ ords : List Nat, (∀ ord ∈ ords, ord < terms.length) →
          bulkGlobalOrds map.data (map.getSegToGlobal seg) .start ords =
            ords.map fun ord => (map.getSegToGlobal seg).globalOrd map.data ord) ∧
        ∀ stored : List Nat, (∀ ord ∈ stored, 1 ≤ ord ∧ ord ≤ terms.length) →
          (map.getSegToGlobal seg).globalOrdsOfStored map.data stored =
            stored.map fun ord => (map.getSegToGlobal seg).globalOrd map.data (ord - 1)) ∧
      ∀ ord < (union segments).length,
        (∃ seg, map.firstFull = some seg ∧ segments[seg]? = some (union segments) ∧
          (map.getSegToGlobal seg).globalOrd map.data ord = ord) ∨
        ∃ firstSegs globDeltas seg delta terms, map.firstFull = none ∧
          map.firstSegs = some firstSegs ∧ map.globDeltas = some globDeltas ∧
          (firstSegs.valueAt ord).toInt = (seg : Nat) ∧
          (globDeltas.valueAt ord).toInt = (delta : Nat) ∧
          segments[seg]? = some terms ∧ delta ≤ ord ∧
          terms[ord - delta]? = (union segments)[ord]? := by
  have nonempty : union segments ≠ [] := by
    obtain ⟨terms, member⟩ := exists_mem_of_length_pos (by omega : 0 <
      (segments.filter (!·.isEmpty)).length)
    obtain ⟨inside, filled⟩ := mem_filter.mp member
    obtain ⟨term, here⟩ := exists_mem_of_ne_nil terms (by simpa using filled)
    exact ne_nil_of_mem (mem_union.mpr ⟨terms, inside, here⟩)
  obtain ⟨map, found, opened⟩ := open_build increasing nonempty fits
  have count : segments.length < 2 ^ 63 := by
    have metadata := fits.metadata
    have least := length_writeSegments encoding (merge segments).globalOrd
      (segmentDeltas segments) []
    simp only [writeMap, length_append, segmentDeltas, length_mapIdx] at metadata least
    omega
  refine ⟨map, by rw [buildMap_eq two, found], opened.ords, ?_, ?_⟩
  · intro seg terms segment
    obtain ⟨-, finds⟩ := opened.segment segment
    have numOrds : (map.getSegToGlobal seg).numOrds = terms.length := by
      rw [finds.count, (merge_spec increasing).lengths seg terms segment]
    refine ⟨fun ord inside => opened.globalOrd_eq increasing segment inside, ?_, ?_⟩
    · intro ords inside
      apply bulkGlobalOrds_eq (decoded_start map.data _)
      rwa [numOrds]
    · intro stored _
      exact globalOrdsOfStored_eq map.data _ stored
  · intro ord inside
    exact opened.resolves increasing count fits.ords inside

instance : StdHeap (termCmp (α := Nat)) := sorting termCmp

/-- Each segment lacks a term of the other. -/
theorem ordMap_maps_to_union_pair : ∃ map, buildMap .flat [[1, 3], [2]] ([], []) = some map ∧
      (map.getSegToGlobal 0).globalOrd map.data 1 = ((union [[1, 3], [2]]).idxOf 3 : Nat) := by
  have increasing : ∀ terms ∈ [[1, 3], [2]], terms.Pairwise (· < ·) := by decide
  have count := (merge_spec increasing).count
  obtain ⟨map, built, -, maps, -⟩ := ordMap_maps_to_union .flat [[1, 3], [2]] ([], []) increasing
    (by decide)
    ⟨by rw [← count]; decide +kernel, by decide +kernel, by decide +kernel, by decide +kernel,
      by decide +kernel⟩
  exact ⟨map, built, (maps 0 [1, 3] rfl).1 1 (by decide)⟩

end Luxir.Search.OrdMapRoundTrip
