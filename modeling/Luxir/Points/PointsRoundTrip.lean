import Luxir.Points.DocEmission
import Luxir.Points.RangeSearch

/-!
An index of points from the writer to the reader: what was written is decoded, found by its values
and reported by its ordinals.
-/

namespace Luxir.Points.PointsRoundTrip
open Lib.Bytes Lib.Folds Lib.Words PointsWriter PointsReader LeafCoding LeafReading PointsFile Nat
open OrdinalSearch RangeSearch DocEmission List

/-- What a reader answers about points, with arrays of a leaf's size at least. -/
structure Serves (codec : NumericCodec) (reader : Reader) (points : List Point) (leafSize : Nat) :
    Prop where
  decodes : readAll codec reader = .ok points
  merges : ∀ {values docScratch residualScratch : Nat}, leafSize ≤ values → leafSize ≤ docScratch →
    leafSize ≤ residualScratch → ∃ decoded : List (List Int × List Nat),
      decoded.length = reader.leavesCount ∧
      (∀ k (known : k < decoded.length),
        decodeLeafInto codec reader k values docScratch residualScratch = .ok decoded[k]) ∧
      decoded.flatMap (fun leaf => zipWith (fun value doc => ⟨value, signed 32 doc⟩) leaf.1 leaf.2) =
        points
  covers : ∀ {ranges : List ValueRange} {outputSize residualScratch valueScratch : Nat},
    Disjoint ranges → ranges.length ≤ outputSize → leafSize ≤ residualScratch →
    leafSize ≤ valueScratch →
    ∃ runs, ordinalRanges codec reader ranges outputSize residualScratch valueScratch = .ok runs ∧
      (∀ run ∈ runs, run.first < run.last) ∧
      (runs.Pairwise fun earlier later => earlier.last < later.first) ∧
      ∀ ordinal, Covers runs ordinal ↔ Wanted points ranges ordinal
  counts : ∀ (value : Int) {residualScratch rawScratch : Nat}, leafSize ≤ residualScratch →
    leafSize ≤ rawScratch →
    ordinalOfFirstAtLeast codec reader value residualScratch rawScratch =
      .ok (points.countP fun point => point.value < value)
  reports : (∀ point ∈ points, point.docid < 2 ^ 31 - 1) → ∀ {first last docScratch : Nat},
    first ≤ last → last ≤ points.length → leafSize ≤ docScratch →
    ∃ emitted, emitOrdinalRange codec reader first last docScratch = .ok emitted ∧
      emitted.flatMap Emitted.docids = ((points.drop first).take (last - first)).map Point.docid

section
variable {codec : NumericCodec} {opts : Options} {reader : Reader} {leaves : List (List Point)}
  (codes : RoundTrips codec) (holds : Holds codec opts reader leaves)
include codes holds

theorem readAll_eq : readAll codec reader = .ok leaves.flatten := by
  unfold readAll
  rw [holds.count]
  refine (foldlM_ok (fun k => (leaves.take k).flatten) fun k known => ?_).trans
    (congrArg (fun all : List (List Point) => Except.ok all.flatten) take_length)
  rw [decodeLeaf_eq codes (holds.stored k known) (holds.next k known), ok_bind,
    take_succ_eq_append_getElem known, flatten_append, flatten_singleton]
  rfl

omit codes in
theorem zip_leaf {leaf : List Point} (mem : leaf ∈ leaves) :
    zipWith (fun value doc => ⟨value, signed 32 doc⟩) (leaf.map Point.value) (docids leaf) =
      leaf := by
  obtain ⟨k, known, rfl⟩ := getElem_of_mem mem
  exact zip_points (holds.stored k known)

theorem serves : Serves codec reader leaves.flatten reader.leafSizeMax := by
  refine ⟨readAll_eq codes holds, ?_, ?_, ?_, ?_⟩
  · intro values docScratch residualScratch first second third
    refine ⟨leaves.map fun leaf => (leaf.map Point.value, docids leaf), ?_, ?_, ?_⟩
    · rw [length_map, holds.count]
    · intro k known
      rw [length_map] at known
      have size := holds.cut.short _ (getElem_mem known)
      rw [getElem_map]
      exact decodeLeafInto_eq codes (holds.stored k known) (by omega) (by omega) (by omega)
    · rw [flatMap_map, flatMap_def, map_congr_left fun _ => zip_leaf holds, map_id']
  · intro ranges outputSize residualScratch valueScratch disjoint room first second
    obtain ⟨runs, found, cover⟩ := ordinalRanges_covering holds codes disjoint room first second
    refine ⟨runs, found, cover.nonempty, cover.apart, fun ordinal => ?_⟩
    by_cases known : ordinal < leaves.flatten.length
    · exact cover.covers ordinal known
    refine iff_of_false ?_ ?_
    · rintro ⟨run, mem, _, lt⟩
      exact known (lt.trans_le (cover.ends run mem))
    · rintro ⟨point, here, _⟩
      exact known (List.getElem?_eq_some_iff.mp here).1
  · intro value residualScratch rawScratch first second
    exact ordinalOfFirstAtLeast_eq holds codes value first second
  · intro below first last docScratch order bound scratch
    exact emitOrdinalRange_eq codes holds order bound scratch below

end

/-- A reader of what the writer has written answers as the points themselves do. -/
theorem points_served {codec : NumericCodec} (codes : RoundTrips codec) (options : Options)
    (positive : 0 < options.maxPointsPerLeaf) (narrow : options.maxPointsPerLeaf < 2 ^ 16)
    (head tail : Bytes) {points : List Point} (filled : points ≠ [])
    (fits : ∀ point ∈ points, Fits point) (sorted : points.Pairwise Before)
    (room : leafCount options.maxPointsPerLeaf points.length < 2 ^ 32) :
    ∃ data file reader, Writer.write codec options head points = .ok (data, file) ∧
      Reader.ofFile (file ++ tail) data.pointsStart data.pointsMetaOff = .ok reader ∧
      Serves codec reader points options.maxPointsPerLeaf := by
  have few : points.length < 2 ^ 64 := by
    have bound := (div_lt_iff_lt_mul positive).mp room
    omega
  obtain ⟨leaves, rfl, cut, count, written⟩ := write_eq codec head positive filled
    (fun point member => (fits point member).nonneg) sorted few room
  have filled : leaves ≠ [] := by
    rintro rfl
    exact filled rfl
  obtain ⟨reader, opens, size, holds⟩ := opened_holds (image_opened head tail) codes count filled cut
    narrow few fits sorted
  exact ⟨_, _, reader, written, opens, size ▸ serves codes holds⟩

/-- A codec that stores values as the digits of one number. -/
def digitCodec : NumericCodec where
  encodeWithMeta values bits := spell (byteSize values.length bits) (ofDigits (2 ^ bits) values)
  decodeWithMeta bytes count bits :=
    ((range count).map fun i => field (number bytes) (i * bits) bits, byteSize count bits)

theorem bits_le_byteSize (count bits : Nat) : count * bits ≤ 8 * byteSize count bits := by
  have split : count * bits = 128 * (count / 128 * bits) + count % 128 * bits := by
    conv_lhs => rw [← div_add_mod count 128, add_mul, mul_assoc]
  have blocks : count / 128 * 4 * bits * 4 = 16 * (count / 128 * bits) := by ring
  have rows : count % 128 * bits ≤ 4 * ((count % 128 + 3) / 4 * bits) := by
    rw [← mul_assoc]
    exact mul_le_mul_right bits (by omega)
  unfold byteSize
  dsimp only
  split_ifs with zero tail
  · rw [zero]
    omega
  · rw [split, blocks]
    omega
  · rw [split, blocks]
    rw [not_not.mp tail, zero_mul]
    omega

theorem digits_read {values : List Nat} {bits : Nat} (small : ∀ value ∈ values, value < 2 ^ bits)
    (rest : Bytes) : ((range values.length).map fun i =>
      field (number (spell (byteSize values.length bits) (ofDigits (2 ^ bits) values) ++ rest))
        (i * bits) bits) = values := by
  have room := bits_le_byteSize values.length bits
  apply ext_getElem
  · rw [length_map, length_range]
  intro i _ lt
  have fits : i * bits + bits ≤ 8 * byteSize values.length bits := by
    have step := mul_le_mul_right bits (succ_le_of_lt lt)
    rw [succ_mul] at step
    omega
  have whole := mod_add_div (ofDigits (2 ^ bits) values) (2 ^ (8 * byteSize values.length bits))
  have kept := field_ofDigits small lt
  rw [← whole, field_add_mul fits] at kept
  rw [getElem_map, getElem_range, number_append, number_spell, length_spell, pow_256,
    field_add_mul fits, kept]

theorem digitCodec_roundTrips : RoundTrips digitCodec :=
  ⟨fun _ _ => length_spell _ _, fun rest _ small => Prod.ext (digits_read small rest) rfl⟩

/-- Two leaves and a bitmap. -/
theorem points_served_small : ∃ data file reader, Writer.write digitCodec ⟨3, true, true⟩ [7]
        [⟨-4, 5⟩, ⟨2, 0⟩, ⟨2, 9⟩, ⟨8, 1⟩] = .ok (data, file) ∧
      Reader.ofFile (file ++ [1, 2]) data.pointsStart data.pointsMetaOff = .ok reader ∧
      Serves digitCodec reader [⟨-4, 5⟩, ⟨2, 0⟩, ⟨2, 9⟩, ⟨8, 1⟩] 3 :=
  points_served digitCodec_roundTrips ⟨3, true, true⟩ (by decide) (by decide) [7] [1, 2] (by decide)
    (by decide) (by decide) (by decide)

/-- The end of a run does not fit behind the greatest document, and the run reports nothing. -/
theorem last_document_not_reported : (do
      let written ← Writer.write digitCodec ⟨1, false, false⟩ [] [⟨0, 2147483647⟩]
      let reader ← Reader.ofFile written.2 written.1.pointsStart written.1.pointsMetaOff
      let emitted ← emitOrdinalRange digitCodec reader 0 1 1
      return emitted.flatMap Emitted.docids) = .ok [] := by
  decide +kernel

end Luxir.Points.PointsRoundTrip
