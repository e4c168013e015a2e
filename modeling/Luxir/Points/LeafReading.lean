import Luxir.Points.LeafCoding

/-!
What a reader finds at the place of a leaf.
-/

namespace Luxir.Points.LeafReading
open Lib.BitLists Lib.Bytes Lib.Folds Lib.Words PointsWriter PointsReader LeafCoding List Nat

variable {codec : NumericCodec} {leaf : List Point} {opts : Options}

theorem byteSize_lt {count bits : Nat} (few : count < 65536) (narrow : bits ≤ 32) :
    byteSize count bits < 2 ^ 20 := by
  have blocks : count / 128 * bits ≤ 512 * 32 := Nat.mul_le_mul (by omega) narrow
  have rows : (count % 128 + 3) / 4 * bits ≤ 32 * 32 := Nat.mul_le_mul (by omega) narrow
  have product : count / 128 * 4 * bits * 4 = count / 128 * bits * 16 := by
    rw [Nat.mul_right_comm (count / 128) 4 bits, Nat.mul_assoc]
  unfold byteSize
  dsimp only
  rw [product]
  split_ifs <;> omega

theorem length_docResiduals (leaf : List Point) : (docResiduals leaf).length = leaf.length := by
  rw [docResiduals, length_map, length_docids]

theorem encodeDocs_sizes (codes : RoundTrips codec) (sound : Sound leaf) (opts : Options) :
    (encodeDocs codec opts leaf).docCodec < 256 ∧ (encodeDocs codec opts leaf).docBits < 256 ∧
    (encodeDocs codec opts leaf).bytes.length < 2 ^ 20 := by
  have bits := residualBits_le sound.fits
  have encoded := codes.length (bits.trans (by omega)) (docResiduals_lt leaf)
  have short := byteSize_lt sound.count (bits.trans (by omega : 31 ≤ 32))
  rw [length_docResiduals] at encoded
  unfold encodeDocs
  dsimp only
  split_ifs with whole better
  · exact ⟨by decide, by decide, by decide⟩
  · refine ⟨show docBitset < 256 by decide, show 0 < 256 by decide, ?_⟩
    rw [length_flatMap (length_spell 8), length_docWords]
    omega
  · refine ⟨show docFor < 256 by decide, ?_, ?_⟩
    · show residualBits leaf < 256
      omega
    · show (codec.encodeWithMeta (docResiduals leaf) (residualBits leaf)).length < 2 ^ 20
      omega

theorem encodeDocs_cases (codec : NumericCodec) (opts : Options) (leaf : List Point) :
    (contiguous leaf = true ∧ encodeDocs codec opts leaf = ⟨docContig, 0, []⟩) ∨
    (Ascending (docids leaf) ∧
      encodeDocs codec opts leaf = ⟨docBitset, 0, (docWords leaf).flatMap (spell 8)⟩) ∨
    encodeDocs codec opts leaf =
      ⟨docFor, residualBits leaf, codec.encodeWithMeta (docResiduals leaf) (residualBits leaf)⟩ := by
  unfold encodeDocs
  dsimp only
  split_ifs with whole better
  · exact .inl ⟨whole, rfl⟩
  · exact .inr (.inl ⟨ascending_of_strict better.2.1, rfl⟩)
  · exact .inr (.inr rfl)

theorem length_leafHeader (opts : Options) (leaf : List Point) (docs : EncodedDocs) :
    (leafHeader opts leaf docs).length = leafHeaderSize := by
  rfl

theorem leafBytes_lt (codes : RoundTrips codec) (sound : Sound leaf) (opts : Options) :
    (leafBytes codec opts leaf).length < 2 ^ 22 := by
  have docs := (encodeDocs_sizes codes sound opts).2.2
  have header := length_leafHeader opts leaf (encodeDocs codec opts leaf)
  have count := sound.count
  have values : (encodeValues codec opts leaf).length < 2 ^ 20 := by
    unfold encodeValues
    split_ifs with narrow
    · rw [codes.length narrow (valueResiduals_lt sound opts), valueResiduals, length_map]
      exact byteSize_lt count narrow
    · rw [length_flatMap (fun point => length_spell 8 _)]
      omega
  rw [leafHeaderSize] at header
  rw [leafBytes, length_append, length_append]
  omega

theorem wordDocs_eq {name : String} {count base rounds word : Nat} {docs : List Nat}
    (small : word < 2 ^ 64)
    (enough : (setBits word).length ≤ rounds) (room : docs.length + (setBits word).length ≤ count) :
    wordDocs name count base rounds word docs =
      .ok (docs ++ (setBits word).map fun place => base * 64 + place) := by
  fun_induction wordDocs name count base rounds word docs with
  | case1 => rw [length_eq_zero_iff.mp (le_zero.mp enough), map_nil, append_nil]
  | case2 rounds word docs nonzero =>
    rw [setBits_cons small nonzero, length_cons] at room
    omega
  | case3 rounds word docs nonzero more ih =>
    have bits := setBits_cons small nonzero
    rw [bits, length_cons] at enough room
    rw [ih (and_le_left.trans_lt small) (by omega) (by
      rw [length_append, length_singleton]
      omega), bits, map_cons, append_assoc]
    rfl
  | case4 rounds word docs zero => rw [not_not.mp zero, setBits_zero, map_nil, append_nil]

theorem foldlM_words (name : String) {wordAt read : Nat → Nat} {count words : Nat} (base : Nat)
    (small : ∀ i, wordAt i < 2 ^ 64) (room : (wordsBits wordAt 0 words).length ≤ count)
    (found : ∀ i < words, read i = wordAt i) : (range words).foldlM
        (fun docs i => wordDocs name count (base + i) 64 (read i) docs) [] =
      .ok ((wordsBits wordAt 0 words).map fun place => base * 64 + place) := by
  refine foldlM_ok (fun n => (wordsBits wordAt 0 n).map fun place => base * 64 + place)
    fun n lt => ?_
  have most : (setBits (wordAt n)).length ≤ 64 :=
    (length_filter_le _ _).trans (le_of_eq length_range)
  have longer := length_wordsBits_mono wordAt 0 (show n + 1 ≤ words from lt)
  have split := wordsBits_succ wordAt 0 n
  rw [zero_add] at split
  rw [split, length_append, length_map] at longer
  rw [found n lt, wordDocs_eq (small n) most (by rw [length_map]; omega), split, map_append,
    map_map]
  have moved : ((fun place => base * 64 + place) ∘ fun place => n * 64 + place) =
      fun place => (base + n) * 64 + place := by
    funext place
    show base * 64 + (n * 64 + place) = _
    omega
  rw [moved]

section
variable {payload rest : Bytes}

theorem load_docWords (wrote : payload = (docWords leaf).flatMap (spell 8) ++ rest) {i : Nat}
    (lt : i < (docWords leaf).length) : load 8 payload (i * 8) = (docWords leaf).getD i 0 := by
  have found := drop_records (length_spell 8) (drop_zero.trans wrote) lt
  have small := docWords_lt leaf i
  rw [zero_add] at found
  rw [getD_eq_getElem?_getD, getElem?_eq_getElem lt] at small ⊢
  rw [load_spell found]
  exact mod_eq_of_lt small

variable (codes : RoundTrips codec) (fits : ∀ point ∈ leaf, Fits point)
include codes fits

theorem decodeFor_eq (form : encodeDocs codec opts leaf = ⟨docFor, residualBits leaf,
      codec.encodeWithMeta (docResiduals leaf) (residualBits leaf)⟩)
    (wrote : payload = (encodeDocs codec opts leaf).bytes ++ rest) :
    codec.decodeWithMeta payload leaf.length (residualBits leaf) =
      (docResiduals leaf, (encodeDocs codec opts leaf).bytes.length) := by
  have narrow : residualBits leaf ≤ 32 := (residualBits_le fits).trans (by decide)
  have small := docResiduals_lt leaf
  have decoded := codes.decode rest narrow small
  rw [length_docResiduals] at decoded
  rw [form] at wrote
  rw [wrote, decoded, form]
  rw [codes.length narrow small, length_docResiduals]

theorem decodeDocBlock_eq (name : String) (checked : Bool)
    (wrote : payload = (encodeDocs codec opts leaf).bytes ++ rest) :
    decodeDocBlock codec name checked ⟨leaf.length, (encodeDocs codec opts leaf).docCodec,
      (encodeDocs codec opts leaf).docBits, docBase leaf,
      (encodeDocs codec opts leaf).bytes.length⟩ payload = .ok (docids leaf) := by
  unfold decodeDocBlock
  rcases encodeDocs_cases codec opts leaf with ⟨whole, form⟩ | ⟨rising, form⟩ | form
  · rw [form, if_pos rfl]
    refine congrArg Except.ok ?_
    rw [contiguous_eq whole]
    refine map_congr_left fun i lt => ?_
    have mem : docBase leaf + i ∈ docids leaf := by
      rw [contiguous_eq whole]
      exact mem_map_of_mem lt
    exact Nat.mod_eq_of_lt ((docid_lt fits mem).trans (by decide))
  · have bits := wordsBits_docWords rising
    have words : (docWords leaf).length * 8 / 8 = (docWords leaf).length :=
      Nat.mul_div_cancel _ (by decide)
    have room := congrArg length bits
    rw [length_map, length_docids] at room
    rw [form] at wrote ⊢
    have docs := foldlM_words name (docBase leaf / 64) (docWords_lt leaf) (le_of_eq room)
      fun i lt => load_docWords wrote lt
    rw [bits] at docs
    rw [if_neg (show docBitset ≠ docContig by decide),
      if_neg (show docBitset ≠ docFor by decide), if_pos rfl]
    rw [length_flatMap (length_spell 8), words]
    refine Eq.trans (congrArg (· >>= _) docs) ?_
    rw [ok_bind, length_docids, if_neg (not_not.mpr rfl)]
  · have decoded := decodeFor_eq codes fits form wrote
    have within : (docResiduals leaf).any (fun doc => docBase leaf + doc > 2 ^ 31 - 1) = false := by
      rw [any_eq_false]
      intro residual mem
      have known : docBase leaf + residual ∈ docids leaf := by
        rw [← restore_docs]
        exact mem_map_of_mem mem
      have bound := docid_lt fits known
      rw [decide_eq_true_eq]
      omega
    rw [form] at decoded ⊢
    rw [if_neg (show docFor ≠ docContig by decide), if_pos rfl, decoded]
    rw [if_neg (by simp), within, restore_docs]
    rfl

end

variable {reader : Reader} {leafIndex : Nat}

structure LeafAt (codec : NumericCodec) (options : Options) (reader : Reader) (leafIndex : Nat)
    (leaf : List Point) : Prop where
  sound : Sound leaf
  written : ∃ rest, reader.file.drop (reader.points + reader.leafFP leafIndex) =
    leafBytes codec options leaf ++ rest

variable (codes : RoundTrips codec) (kept : LeafAt codec opts reader leafIndex leaf)
include codes kept

theorem leafInfo_eq : reader.leafInfo leafIndex =
    ⟨leaf.length, (encodeDocs codec opts leaf).docCodec, (encodeDocs codec opts leaf).docBits,
      valueFormat opts leaf, docBase leaf, (encodeDocs codec opts leaf).bytes.length,
      (front leaf).value, leafGcd opts leaf⟩ := by
  have sound := kept.sound
  obtain ⟨rest, wrote⟩ := kept.written
  obtain ⟨codecs, bits, length⟩ := encodeDocs_sizes codes sound opts
  have format := valueFormat_le opts leaf
  have least := sound.fits _ (front_mem sound.nonempty)
  have base : docBase leaf < 2 ^ 31 :=
    (docBase_le (mem_map_of_mem (front_mem sound.nonempty))).trans_lt
      (docid_lt sound.fits (mem_map_of_mem (front_mem sound.nonempty)))
  simp only [leafBytes, leafHeader, append_assoc] at wrote
  have two := drop_word wrote
  have three := drop_word two
  have four := drop_word three
  have five := drop_word four
  have eight := drop_past five (congrArg _ (show [0x11, 0x11, 0x11].length = 3 from rfl))
  have twelve := drop_word eight
  have sixteen := drop_word twelve
  have twentyFour := drop_word sixteen
  unfold Reader.leafInfo
  dsimp only
  rw [load_spell wrote, load_spell two, load_spell three, load_spell four, load_spell eight,
    load_spell twelve, load_spell sixteen, load_spell twentyFour]
  have gcd := leafGcd_lt opts leaf
  have value := wrap_lt (front leaf).value
  have count := sound.count
  congr 1
  · exact mod_eq_of_lt count
  · exact mod_eq_of_lt codecs
  · exact mod_eq_of_lt bits
  · exact mod_eq_of_lt (show valueFormat opts leaf < 256 ^ 1 by omega)
  · exact mod_eq_of_lt (show docBase leaf < 256 ^ 4 by omega)
  · exact mod_eq_of_lt (length.trans (by decide))
  · rw [mod_eq_of_lt (show wrap 64 (front leaf).value < 256 ^ 8 from value)]
    exact signed_wrap least.lower least.upper
  · exact mod_eq_of_lt gcd

omit codes in
theorem payload_docs : ∃ rest, reader.file.drop (reader.docPayload leafIndex) =
    (encodeDocs codec opts leaf).bytes ++ rest := by
  obtain ⟨rest, wrote⟩ := kept.written
  rw [leafBytes, append_assoc, append_assoc] at wrote
  exact ⟨_, drop_past wrote (congrArg _ (length_leafHeader opts leaf _))⟩

theorem payload_values : ∃ rest, reader.file.drop (reader.valuePayload leafIndex) =
    encodeValues codec opts leaf ++ rest := by
  obtain ⟨rest, wrote⟩ := kept.written
  rw [leafBytes, append_assoc, append_assoc] at wrote
  have past := drop_past wrote (congrArg _ (length_leafHeader opts leaf _))
  refine ⟨rest, drop_past past ?_⟩
  unfold Reader.valuePayload
  rw [leafInfo_eq codes kept]
  rfl

theorem decodeResiduals_eq (narrow : valueFormat opts leaf ≤ 32) :
    codec.decodeWithMeta (reader.file.drop (reader.valuePayload leafIndex)) leaf.length
      (valueFormat opts leaf) =
        (valueResiduals opts leaf, (encodeValues codec opts leaf).length) := by
  obtain ⟨rest, wrote⟩ := payload_values codes kept
  have count : (valueResiduals opts leaf).length = leaf.length := length_map _
  have small := valueResiduals_lt kept.sound opts
  have decoded := codes.decode rest narrow small
  unfold encodeValues at wrote ⊢
  rw [if_pos narrow] at wrote ⊢
  rw [count] at decoded
  rw [wrote, decoded, codes.length narrow small, count]

theorem rawValues_eq (wide : ¬valueFormat opts leaf ≤ 32) : ((range leaf.length).map fun i =>
      signed 64 (load 8 reader.file (reader.valuePayload leafIndex + i * 8))) =
      leaf.map Point.value := by
  obtain ⟨rest, wrote⟩ := payload_values codes kept
  unfold encodeValues at wrote
  rw [if_neg wide] at wrote
  apply ext_getElem
  · rw [length_map, length_map, length_range]
  intro i first second
  rw [length_map] at second
  have fits := kept.sound.fits _ (getElem_mem second)
  have found := drop_records (fun point : Point => length_spell 8 _) wrote second
  rw [getElem_map, getElem_map, getElem_range, load_spell found,
    mod_eq_of_lt (show wrap 64 leaf[i].value < 256 ^ 8 from wrap_lt _)]
  exact signed_wrap fits.lower fits.upper

theorem decodeValues_eq : (decodeValues codec reader leafIndex).1 = leaf.map Point.value ∧
    (decodeValues codec reader leafIndex).2 = (encodeValues codec opts leaf).length := by
  unfold decodeValues
  rw [leafInfo_eq codes kept]
  by_cases narrow : valueFormat opts leaf ≤ 32
  · rw [if_pos narrow, decodeResiduals_eq codes kept narrow]
    refine ⟨?_, rfl⟩
    dsimp only
    rw [valueResiduals, map_map]
    exact map_congr_left fun point mem => restore_value kept.sound opts mem
  · rw [if_neg narrow]
    refine ⟨rawValues_eq codes kept narrow, ?_⟩
    rw [encodeValues, if_neg narrow]
    exact (length_flatMap (fun point => length_spell 8 _) leaf).symm

omit codes in
theorem payloadWord_eq (bitmap : encodeDocs codec opts leaf =
      ⟨docBitset, 0, (docWords leaf).flatMap (spell 8)⟩) {i : Nat}
    (lt : i < (docWords leaf).length) :
    payloadWord reader leafIndex i = (docWords leaf).getD i 0 := by
  obtain ⟨rest, wrote⟩ := payload_docs kept
  rw [bitmap] at wrote
  rw [← load_docWords wrote lt, payloadWord, load, load, drop_drop]

theorem decodeDocs_eq (checked : Bool) :
    decodeDocs codec reader checked leafIndex = .ok (docids leaf) := by
  obtain ⟨rest, wrote⟩ := payload_docs kept
  unfold decodeDocs
  rw [leafInfo_eq codes kept]
  exact decodeDocBlock_eq codes kept.sound.fits "PointsReader" checked wrote

omit codes in
theorem zip_points : zipWith (fun value doc => (⟨value, signed 32 doc⟩ : Point))
    (leaf.map Point.value) (docids leaf) = leaf := by
  rw [docids, zipWith_map, zipWith_self]
  refine (map_congr_left fun point mem => ?_).trans (map_id leaf)
  have fits := kept.sound.fits point mem
  have nonneg := fits.nonneg
  have small := fits.small
  have same : signed 32 point.docid.toNat = point.docid := by
    rw [signed, if_pos (by omega)]
    omega
  rw [same, id]

theorem decodeLeaf_eq (next : reader.leafFP (leafIndex + 1) =
      reader.leafFP leafIndex + (leafBytes codec opts leaf).length) :
    decodeLeaf codec reader leafIndex = .ok leaf := by
  obtain ⟨values, size⟩ := decodeValues_eq codes kept
  have whole : (leafBytes codec opts leaf).length = leafHeaderSize +
      ((encodeDocs codec opts leaf).bytes.length + (encodeValues codec opts leaf).length) := by
    rw [leafBytes, length_append, length_append, length_leafHeader]
  unfold decodeLeaf
  rw [decodeDocs_eq codes kept, ok_bind]
  dsimp only
  rw [values, size, leafInfo_eq codes kept, next, whole, zip_points kept]
  refine if_neg fun mismatch => mismatch.2 ?_
  dsimp only
  omega

theorem decodeLeafValuesInto_eq {values residualScratch : Nat} (first : leaf.length ≤ values)
    (second : leaf.length ≤ residualScratch) :
    decodeLeafValuesInto codec reader leafIndex values residualScratch =
      .ok (leaf.map Point.value) := by
  unfold decodeLeafValuesInto
  rw [leafInfo_eq codes kept, if_neg (show ¬(_ < leaf.length ∨ _ < leaf.length) by omega),
    (decodeValues_eq codes kept).1]

theorem decodeLeafInto_eq {values docScratch residualScratch : Nat}
    (first : leaf.length ≤ values) (second : leaf.length ≤ docScratch)
    (third : leaf.length ≤ residualScratch) :
    decodeLeafInto codec reader leafIndex values docScratch residualScratch =
      .ok (leaf.map Point.value, docids leaf) := by
  have count : (reader.leafInfo leafIndex).count = leaf.length := by rw [leafInfo_eq codes kept]
  unfold decodeLeafInto
  rw [count, if_neg (by omega), decodeDocs_eq codes kept, ok_bind,
    decodeLeafValuesInto_eq codes kept first third, ok_bind]
  rfl

end Luxir.Points.LeafReading
