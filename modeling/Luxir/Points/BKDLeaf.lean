import Luxir.Points.BKDQuery
import Luxir.Points.DocEmission

/-!
A leaf of points in the plane, as it is stored and read: its header, its documents in one of three
forms and the distances of its coordinates from the least ones.
-/

namespace Luxir.Points.BKDLeaf
open Lib.Bytes Lib.Folds Lib.Words BKDWriter BKDReader BKDQuery List LeafReading DocEmission Nat
open PointsWriter (NumericCodec EncodedDocs docids docBase docWords docContig docFor docBitset
  leafHeaderSize byteSize encodeDocs)
open PointsReader (Emitted DocBlock)
open LeafCoding (RoundTrips)

section

@[mk_iff]
structure Fits (point : Point) : Prop where
  lat : -2 ^ 31 ≤ point.lat ∧ point.lat < 2 ^ 31
  lon : -2 ^ 31 ≤ point.lon ∧ point.lon < 2 ^ 31
  docid : 0 ≤ point.docid ∧ point.docid < 2 ^ 31

instance (point : Point) : Decidable (Fits point) := decidable_of_iff' _ (fits_iff point)

variable {least most coordinate : Int}

theorem residual_lt (low : -2 ^ 31 ≤ least) (high : most < 2 ^ 31) (lower : least ≤ coordinate)
    (upper : coordinate ≤ most) :
    wrap 32 (coordinate - least) < 2 ^ bitWidth (wrap 32 (most - least)) := by
  rw [← bitWidth_le]
  have order : wrap 32 (coordinate - least) ≤ wrap 32 (most - least) := by
    unfold wrap
    omega
  rw [bitWidth_le]
  exact order.trans_lt (lt_two_pow_bitWidth _)

theorem bits_le (distance : Int) : bitWidth (wrap 32 distance) ≤ 32 := by
  rw [bitWidth_le]
  unfold wrap
  omega

theorem restored_eq (low : -2 ^ 31 ≤ coordinate) (high : coordinate < 2 ^ 31) :
    restored least (wrap 32 (coordinate - least)) = coordinate := by
  unfold restored signed wrap
  split <;> omega

end

variable {codec : NumericCodec} {opts : Options} {bounds : Bounds} {leaf : List Point}
  {reader : Reader} {leafIndex : Nat}

section

structure LeafSound (bounds : Bounds) (leaf : List Point) : Prop where
  nonempty : leaf ≠ []
  count : leaf.length < 65536
  fits : ∀ point ∈ leaf, Fits point
  lat : ∀ point ∈ leaf, bounds.minLat ≤ point.lat ∧ point.lat ≤ bounds.maxLat
  lon : ∀ point ∈ leaf, bounds.minLon ≤ point.lon ∧ point.lon ≤ bounds.maxLon
  latRange : -2 ^ 31 ≤ bounds.minLat ∧ bounds.maxLat < 2 ^ 31
  lonRange : -2 ^ 31 ≤ bounds.minLon ∧ bounds.maxLon < 2 ^ 31
  ordered : leaf.Pairwise fun first second => first.docid ≤ second.docid

variable (sound : LeafSound bounds leaf)
include sound

theorem docPoints_sound : LeafCoding.Sound (docPoints leaf) := by
  refine ⟨?_, ?_, ?_, ?_⟩
  · rw [docPoints, Ne, map_eq_nil_iff]
    exact sound.nonempty
  · rw [docPoints, length_map]
    exact sound.count
  · refine forall_mem_map.mpr fun place known => ?_
    have docid := (sound.fits place known).docid
    exact ⟨show (-2 ^ 63 : Int) ≤ 0 by decide, show (0 : Int) < 2 ^ 63 by decide, docid.1, docid.2⟩
  · rw [docPoints, pairwise_map]
    exact sound.ordered.imp fun order => .inr ⟨rfl, order⟩

omit sound in
theorem length_docPoints : (docPoints leaf).length = leaf.length := length_map _

theorem latResiduals_lt : ∀ residual ∈ dimensionResiduals leaf 0 bounds.minLat,
    residual < 2 ^ bounds.latBits := by
  refine forall_mem_map.mpr fun point known => ?_
  exact residual_lt sound.latRange.1 sound.latRange.2 (sound.lat point known).1
    (sound.lat point known).2

theorem lonResiduals_lt : ∀ residual ∈ dimensionResiduals leaf 1 bounds.minLon,
    residual < 2 ^ bounds.lonBits := by
  refine forall_mem_map.mpr fun point known => ?_
  exact residual_lt sound.lonRange.1 sound.lonRange.2 (sound.lon point known).1
    (sound.lon point known).2

omit sound in
theorem length_leafHeader : (leafHeader codec opts bounds leaf).length = leafHeaderSize := by
  rfl

variable (codes : RoundTrips codec)
include codes

theorem encodeDimension_lt {dim bits : Nat} {least : Int} (narrow : bits ≤ 32)
    (small : ∀ residual ∈ dimensionResiduals leaf dim least, residual < 2 ^ bits) :
    (encodeDimension codec leaf dim least bits).length < 2 ^ 20 := by
  rw [encodeDimension, codes.length narrow small, dimensionResiduals, length_map]
  exact byteSize_lt sound.count narrow

theorem latBytes_lt : (latBytes codec bounds leaf).length < 2 ^ 20 :=
  encodeDimension_lt sound codes (bits_le _) (latResiduals_lt sound)

theorem lonBytes_lt : (lonBytes codec bounds leaf).length < 2 ^ 20 :=
  encodeDimension_lt sound codes (bits_le _) (lonResiduals_lt sound)

omit sound codes in
theorem length_leafBytes (codec : NumericCodec) (opts : Options) (bounds : Bounds)
    (leaf : List Point) : (leafBytes codec opts bounds leaf).length = leafHeaderSize +
    (encodeDocids codec opts leaf).bytes.length + (latBytes codec bounds leaf).length +
      (lonBytes codec bounds leaf).length := by
  rw [leafBytes, length_append, length_append, length_append, length_leafHeader]
  omega

theorem leafBytes_lt (opts : Options) : (leafBytes codec opts bounds leaf).length < 2 ^ 22 := by
  have docs := (encodeDocs_sizes codes (docPoints_sound sound)
    ⟨opts.maxPointsPerLeaf, opts.bitsetDocids, false⟩).2.2
  have lat := latBytes_lt sound codes
  have lon := lonBytes_lt sound codes
  rw [length_leafBytes, leafHeaderSize, encodeDocids]
  omega

end

section

structure LeafAt (codec : NumericCodec) (options : Options) (reader : Reader) (leafIndex : Nat)
    (bounds : Bounds) (leaf : List Point) : Prop where
  sound : LeafSound bounds leaf
  known : leafIndex < reader.leavesCount
  written : ∃ rest, reader.file.drop (reader.points + reader.leafFP leafIndex) =
    leafBytes codec options bounds leaf ++ rest
  next : reader.leafFP (leafIndex + 1) =
    reader.leafFP leafIndex + (leafBytes codec options bounds leaf).length
  inside : reader.leafFP (leafIndex + 1) ≤ reader.metaOffset
  cell : reader.leafBounds leafIndex =
    .ok ⟨bounds.minLat, bounds.maxLat, bounds.minLon, bounds.maxLon⟩

abbrev tight (bounds : Bounds) : Cell := ⟨bounds.minLat, bounds.maxLat, bounds.minLon, bounds.maxLon⟩

def infoOf (codec : NumericCodec) (options : Options) (bounds : Bounds) (leaf : List Point) :
    LeafInfo :=
  ⟨leaf.length, (encodeDocids codec options leaf).docCodec, (encodeDocids codec options leaf).docBits,
    bounds.latBits, bounds.lonBits, docBase (docPoints leaf),
    (encodeDocids codec options leaf).bytes.length, bounds.minLat, bounds.minLon,
    (latBytes codec bounds leaf).length, (lonBytes codec bounds leaf).length⟩

theorem signed_wrap32 {value : Int} (lower : -2 ^ 31 ≤ value) (upper : value < 2 ^ 31) :
    signed 32 (wrap 32 value) = value := by
  unfold signed wrap
  split <;> omega

variable (codes : RoundTrips codec) (kept : LeafAt codec opts reader leafIndex bounds leaf)
include codes kept

theorem leafInfo_eq : reader.leafInfo leafIndex = .ok (infoOf codec opts bounds leaf) := by
  have sound := kept.sound
  obtain ⟨rest, wrote⟩ := kept.written
  obtain ⟨codecs, bits, length⟩ := encodeDocs_sizes codes (docPoints_sound sound)
    ⟨opts.maxPointsPerLeaf, opts.bitsetDocids, false⟩
  have size := length_leafBytes codec opts bounds leaf
  have lat := latBytes_lt sound codes
  have lon := lonBytes_lt sound codes
  have latBits : bounds.latBits ≤ 32 := bits_le _
  have lonBits : bounds.lonBits ≤ 32 := bits_le _
  have next := kept.next
  have lt := kept.inside
  simp only [leafBytes, leafHeader, append_assoc] at wrote
  have two := drop_word wrote
  have three := drop_word two
  have four := drop_word three
  have five := drop_word four
  have six := drop_word five
  have eight := drop_word six
  have twelve := drop_word eight
  have sixteen := drop_word twelve
  have twenty := drop_word sixteen
  have twentyFour := drop_word twenty
  have docBytes := (load_spell twelve).trans (mod_eq_of_lt (length.trans (by decide)))
  have latSize := (load_spell twentyFour).trans (mod_eq_of_lt (lat.trans (by decide)))
  have base : docBase (docPoints leaf) < 2 ^ 31 := by
    have front := LeafCoding.front_mem (docPoints_sound sound).nonempty
    exact (LeafCoding.docBase_le (mem_map_of_mem front)).trans_lt
      (LeafCoding.docid_lt (docPoints_sound sound).fits (mem_map_of_mem front))
  obtain ⟨first, here⟩ := exists_mem_of_ne_nil leaf sound.nonempty
  have latHere := sound.lat first here
  have lonHere := sound.lon first here
  have latRange := sound.latRange
  have lonRange := sound.lonRange
  rw [leafHeaderSize] at size
  unfold Reader.leafInfo
  rw [if_neg (not_le.mpr kept.known)]
  dsimp only
  rw [docBytes, latSize, if_neg (by rw [leafHeaderSize]; omega),
    if_neg (by rw [leafHeaderSize]; omega), if_neg (by rw [leafHeaderSize]; omega)]
  apply congrArg Except.ok
  rw [load_spell wrote, load_spell two, load_spell three, load_spell four, load_spell five,
    load_spell eight, load_spell sixteen, load_spell twenty]
  congr 1
  · exact mod_eq_of_lt sound.count
  · exact mod_eq_of_lt codecs
  · exact mod_eq_of_lt bits
  · exact mod_eq_of_lt (show bounds.latBits < 256 ^ 1 by omega)
  · exact mod_eq_of_lt (show bounds.lonBits < 256 ^ 1 by omega)
  · exact mod_eq_of_lt (show docBase (docPoints leaf) < 256 ^ 4 by omega)
  · rw [mod_eq_of_lt (show wrap 32 bounds.minLat < 256 ^ 4 by unfold wrap; omega)]
    exact signed_wrap32 latRange.1 (by omega)
  · rw [mod_eq_of_lt (show wrap 32 bounds.minLon < 256 ^ 4 by unfold wrap; omega)]
    exact signed_wrap32 lonRange.1 (by omega)
  · rw [leafHeaderSize]
    omega

omit codes in
theorem payload_docs : ∃ rest, reader.file.drop (reader.docPayload leafIndex) =
    (encodeDocids codec opts leaf).bytes ++
      (latBytes codec bounds leaf ++ (lonBytes codec bounds leaf ++ rest)) := by
  obtain ⟨rest, wrote⟩ := kept.written
  simp only [leafBytes, append_assoc] at wrote
  exact ⟨rest, drop_past wrote (congrArg _ length_leafHeader)⟩

theorem decodeDocids_eq : decodeDocids codec reader leafIndex (infoOf codec opts bounds leaf) =
    .ok (docids (docPoints leaf)) := by
  obtain ⟨rest, wrote⟩ := payload_docs kept
  have decoded := decodeDocBlock_eq codes (docPoints_sound kept.sound).fits "BKDReader" true wrote
  rwa [length_docPoints] at decoded

omit kept in
theorem decodeDimension_eq {dim bits : Nat} {least : Int} (narrow : bits ≤ 32)
    (small : ∀ residual ∈ dimensionResiduals leaf dim least, residual < 2 ^ bits)
    (rest : Bytes) :
    codec.decodeWithMeta (encodeDimension codec leaf dim least bits ++ rest) leaf.length bits =
      (dimensionResiduals leaf dim least, (encodeDimension codec leaf dim least bits).length) := by
  have size : (dimensionResiduals leaf dim least).length = leaf.length := length_map _
  have decoded := codes.decode rest narrow small
  rwa [size, ← size, ← codes.length narrow small, size] at decoded

theorem decodeCoordinates_eq :
    decodeCoordinates codec reader leafIndex (infoOf codec opts bounds leaf) =
      .ok (dimensionResiduals leaf 0 bounds.minLat, dimensionResiduals leaf 1 bounds.minLon) := by
  obtain ⟨rest, wrote⟩ := payload_docs kept
  have behindDocs := drop_past wrote rfl
  have behindLat := drop_past behindDocs rfl
  have latBits : bounds.latBits ≤ 32 := bits_le _
  have lonBits : bounds.lonBits ≤ 32 := bits_le _
  unfold decodeCoordinates infoOf
  dsimp only
  rw [behindDocs, behindLat, latBytes, lonBytes, decodeDimension_eq codes latBits (latResiduals_lt
    kept.sound), decodeDimension_eq codes lonBits (lonResiduals_lt kept.sound), if_neg (by simp)]

omit codes in
theorem docids_cast : (docids (docPoints leaf)).map (fun doc : Nat => (doc : Int)) =
    leaf.map Point.docid := by
  rw [docids, docPoints, map_map, map_map]
  apply map_congr_left
  intro point mem
  exact Int.toNat_of_nonneg (kept.sound.fits point mem).docid.1

theorem emitLeafDocids_eq (below : ∀ point ∈ leaf, point.docid < 2 ^ 31 - 1) :
    ∃ emitted, emitLeafDocids codec reader leafIndex (infoOf codec opts bounds leaf) =
        .ok emitted ∧ emitted.flatMap Emitted.docids = leaf.map Point.docid := by
  have sound := docPoints_sound kept.sound
  have size : (docids (docPoints leaf)).length = leaf.length := by
    rw [LeafCoding.length_docids, length_docPoints]
  have small : ∀ doc ∈ docids (docPoints leaf), doc < 2 ^ 31 - 1 := by
    intro doc mem
    have known : (doc : Int) ∈ leaf.map Point.docid := by
      rw [← docids_cast kept]
      exact mem_map_of_mem mem
    obtain ⟨point, here, same⟩ := mem_map.mp known
    have less := below point here
    omega
  obtain ⟨rest, wrote⟩ := payload_docs kept
  have decoded := decodeDocids_eq codes kept
  unfold emitLeafDocids
  rw [decoded, ← docids_cast kept]
  unfold infoOf
  rcases encodeDocs_cases codec ⟨opts.maxPointsPerLeaf, opts.bitsetDocids, false⟩
    (docPoints leaf) with ⟨whole, form⟩ | ⟨rising, form⟩ | form
  · have base : (docBase (docPoints leaf) + 0) % 2 ^ 32 = docBase (docPoints leaf) := by
      have front := LeafCoding.front_mem sound.nonempty
      have least := LeafCoding.docBase_le (mem_map_of_mem front)
      have bound := LeafCoding.docid_lt sound.fits (mem_map_of_mem front)
      omega
    have run := emitRun_docids whole (length_pos_of_ne_nil sound.nonempty) le_rfl small
    rw [base, part, drop_zero, length_docPoints, Nat.sub_zero, take_of_length_le size.le] at run
    rw [encodeDocids, form, if_pos rfl]
    refine ⟨_, rfl, ?_⟩
    rw [flatMap_singleton, run]
  · rw [encodeDocids, form] at wrote ⊢
    have words : ∀ i, 0 ≤ i → i < 0 + (docWords (docPoints leaf)).length →
        load 8 reader.file (reader.docPayload leafIndex + i * 8) = leafWord (docPoints leaf) i := by
      intro i _ lt
      have word := load_docWords wrote (by omega : i < _)
      rwa [load, drop_drop] at word
    have listed := emitWords_docids (docBase_div_lt sound) 0 _ words
    rw [if_neg (show docBitset ≠ docContig by decide), if_pos rfl]
    refine ⟨_, rfl, ?_⟩
    rw [length_flatMap (length_spell 8), Nat.mul_div_cancel _ (by decide), range_eq_range',
      listed, ← leafBits_docids rising, map_map]
    rfl
  · rw [encodeDocids, form, if_neg (show docFor ≠ docContig by decide),
      if_neg (show docFor ≠ docBitset by decide)]
    refine ⟨_, rfl, ?_⟩
    rw [flatMap_map]
    refine map_eq_flatMap.symm.trans (map_congr_left fun doc mem => ?_)
    have less := small doc mem
    rw [signed, if_pos (show doc < 2 ^ 31 by omega)]

end

variable {relation : Relation} (kept : LeafAt codec opts reader leafIndex bounds leaf)
include kept

theorem matches_eq {i : Nat} (known : i < leaf.length) : relation.matchesAt
        (restored bounds.minLat ((dimensionResiduals leaf 0 bounds.minLat).getD i 0))
        (restored bounds.minLon ((dimensionResiduals leaf 1 bounds.minLon).getD i 0)) =
      Accepts relation leaf[i] := by
  have fits := kept.sound.fits leaf[i] (getElem_mem known)
  simp only [dimensionResiduals, getD_eq_getElem?_getD, getElem?_map,
    getElem?_eq_getElem known, Option.map_some, Option.getD_some]
  rw [Accepts]
  congr 1
  · exact restored_eq fits.lat.1 fits.lat.2
  · exact restored_eq fits.lon.1 fits.lon.2

theorem crossing_docs : ((range leaf.length).flatMap fun i => if relation.matchesAt
          (restored bounds.minLat ((dimensionResiduals leaf 0 bounds.minLat).getD i 0))
          (restored bounds.minLon ((dimensionResiduals leaf 1 bounds.minLon).getD i 0)) then
        [Emitted.doc (signed 32 ((docids (docPoints leaf)).getD i 0))] else []) =
    (leaf.filter (Accepts relation)).map fun point => Emitted.doc point.docid := by
  rw [← flatMap_choose, flatMap_def, flatMap_def]
  apply congrArg flatten
  apply range_map_getElem
  intro i lt
  have docid := (kept.sound.fits leaf[i] (getElem_mem lt)).docid
  rw [matches_eq kept lt]
  simp only [docids, docPoints, getD_eq_getElem?_getD, getElem?_map,
    getElem?_eq_getElem lt, Option.map_some, Option.getD_some]
  rw [signed, if_pos (show leaf[i].docid.toNat < 2 ^ 31 by omega), Int.toNat_of_nonneg docid.1]

theorem tight_held : ∀ point ∈ leaf, Holds (tight bounds) point := by
  intro point mem
  obtain ⟨latLow, latHigh⟩ := kept.sound.lat point mem
  obtain ⟨lonLow, lonHigh⟩ := kept.sound.lon point mem
  exact ⟨latLow, latHigh, lonLow, lonHigh⟩

variable (codes : RoundTrips codec) {points : List Point} (right : Sound relation points)
  (known : ∀ point ∈ leaf, point ∈ points)
include codes right known

omit codes in
theorem filter_outside (decided : relation.compare (tight bounds) = .outside) :
    leaf.filter (Accepts relation) = [] := by
  apply filter_eq_nil_iff.mpr
  intro point mem
  rw [right.outside decided (known point mem) (tight_held kept point mem)]
  exact Bool.false_ne_true

omit codes in
theorem filter_inside (decided : relation.compare (tight bounds) = .inside) :
    leaf.filter (Accepts relation) = leaf := by
  apply filter_eq_self.mpr
  intro point mem
  exact right.inside decided (known point mem) (tight_held kept point mem)

theorem intersectLeaf_eq (below : ∀ point ∈ leaf, point.docid < 2 ^ 31 - 1) :
    ∃ emitted, intersectLeaf codec reader relation leafIndex = .ok emitted ∧
      emitted.flatMap Emitted.docids = (leaf.filter (Accepts relation)).map Point.docid := by
  unfold intersectLeaf
  rw [leafInfo_eq codes kept, kept.cell, ok_bind, ok_bind]
  cases decided : relation.compare (tight bounds) with
  | outside =>
    rw [filter_outside kept right known decided]
    exact ⟨[], rfl, rfl⟩
  | inside =>
    rw [filter_inside kept right known decided]
    exact emitLeafDocids_eq codes kept below
  | crosses =>
    rw [decodeDocids_eq codes kept, decodeCoordinates_eq codes kept, ok_bind, ok_bind]
    refine ⟨_, rfl, ?_⟩
    refine (congrArg (flatMap Emitted.docids) (crossing_docs kept)).trans ?_
    rw [flatMap_map]
    exact map_eq_flatMap.symm

theorem countLeaf_eq :
    countLeaf codec reader relation leafIndex = .ok (leaf.countP (Accepts relation)) := by
  unfold countLeaf
  rw [leafInfo_eq codes kept, kept.cell, ok_bind, ok_bind, countP_eq_length_filter]
  cases decided : relation.compare (tight bounds) with
  | outside =>
    rw [filter_outside kept right known decided]
    rfl
  | inside =>
    rw [filter_inside kept right known decided]
    rfl
  | crosses =>
    rw [decodeCoordinates_eq codes kept, ok_bind, ← countP_eq_length_filter]
    apply congrArg Except.ok
    have listed : (range leaf.length).map (fun i => relation.matchesAt
        (restored bounds.minLat ((dimensionResiduals leaf 0 bounds.minLat).getD i 0))
        (restored bounds.minLon ((dimensionResiduals leaf 1 bounds.minLon).getD i 0))) =
          leaf.map (Accepts relation) := range_map_getElem fun i inside => matches_eq kept inside
    have counted := congrArg (countP id) listed
    rwa [countP_map, countP_map] at counted

theorem estimateLeaf_le : ∃ out, estimateLeaf reader relation leafIndex = .ok out ∧
    leaf.countP (Accepts relation) ≤ out.upperBound := by
  have bound : leaf.countP (Accepts relation) ≤ leaf.length := countP_le_length
  unfold estimateLeaf
  rw [leafInfo_eq codes kept, kept.cell, ok_bind, ok_bind]
  cases decided : relation.compare (tight bounds) with
  | outside =>
    refine ⟨_, rfl, ?_⟩
    rw [countP_eq_length_filter, filter_outside kept right known decided]
    rfl
  | inside => exact ⟨_, rfl, bound⟩
  | crosses => exact ⟨_, rfl, bound⟩

end Luxir.Points.BKDLeaf
