import Luxir.Points.BKDLeaf

/-!
The file of an index of points in the plane: the leaves one behind the other, a header, the inner
nodes by their numbers, and for each leaf its bounds and its place.
-/

namespace Luxir.Points.BKDFile
open Lib.Bytes Lib.Folds Lib.Words BKDWriter BKDReader BKDTree BKDLeaf List Nat
open PointsWriter (NumericCodec leafHeaderSize magic version)
open LeafCoding (RoundTrips)
open Bounds EncodedLeaf Reader

variable {points : List Point} {head : Bytes}
  {leaves : List EncodedLeaf} {k : Nat} {file : Bytes} {point : Point}
  {rest : Bytes} {place : Nat}

section
variable {dim : Nat} {bound : Int}

theorem lowest_le (mem : point ∈ points) : lowest dim points ≤ point.coordinate dim :=
  (foldl_min_le (Point.coordinate · dim) points _).2 point mem

theorem le_highest (mem : point ∈ points) : point.coordinate dim ≤ highest dim points :=
  (le_foldl_max (Point.coordinate · dim) points _).2 point mem

theorem le_lowest (filled : points ≠ []) (each : ∀ point ∈ points, bound ≤ point.coordinate dim) :
    bound ≤ lowest dim points := by
  apply le_foldl_min (Point.coordinate · dim) points _ _ each
  rw [headD_eq_head?_getD, head?_eq_some_head filled, Option.getD_some]
  exact each _ (head_mem filled)

theorem highest_lt (filled : points ≠ []) (each : ∀ point ∈ points, point.coordinate dim < bound) :
    highest dim points < bound := by
  apply foldl_max_lt (Point.coordinate · dim) points _ _ each
  rw [headD_eq_head?_getD, head?_eq_some_head filled, Option.getD_some]
  exact each _ (head_mem filled)

theorem sortLeaf_perm (points : List Point) : (sortLeaf points).Perm points :=
  mergeSort_perm points _

theorem sortLeaf_ordered (points : List Point) :
    (sortLeaf points).Pairwise fun first second => first.docid ≤ second.docid := by
  have sorted : (sortLeaf points).Pairwise fun first second => !lessInLeaf second first := by
    apply pairwise_mergeSort
    · intro a b c
      unfold lessInLeaf
      split_ifs <;> simp <;> omega
    · intro a b
      unfold lessInLeaf
      split_ifs <;> simp <;> omega
  refine sorted.imp fun {first second} order => ?_
  unfold lessInLeaf at order
  split_ifs at order <;> simp at order <;> omega

theorem leaf_sound (filled : points ≠ []) (count : points.length < 65536)
    (fits : ∀ point ∈ points, Fits point) : LeafSound (around points) (sortLeaf points) := by
  have perm := sortLeaf_perm points
  refine ⟨?_, ?_, ?_, ?_, ?_, ?_, ?_, sortLeaf_ordered points⟩
  · exact fun empty => filled (nil_perm.mp (empty ▸ perm))
  · rw [perm.length_eq]
    exact count
  · exact fun point mem => fits point (perm.mem_iff.mp mem)
  · intro point mem
    exact ⟨lowest_le (perm.mem_iff.mp mem), le_highest (perm.mem_iff.mp mem)⟩
  · intro point mem
    exact ⟨lowest_le (perm.mem_iff.mp mem), le_highest (perm.mem_iff.mp mem)⟩
  · exact ⟨le_lowest filled fun point mem => (fits point mem).lat.1,
      highest_lt filled fun point mem => (fits point mem).lat.2⟩
  · exact ⟨le_lowest filled fun point mem => (fits point mem).lon.1,
      highest_lt filled fun point mem => (fits point mem).lon.2⟩

end

theorem leafCount_bounds {size points : Nat} (pos : 0 < size) (filled : 0 < points) :
    1 ≤ leafCount size points ∧ (leafCount size points - 1) * size < points ∧
      points ≤ leafCount size points * size := by
  have split := Nat.div_add_mod points size
  have less := Nat.mod_lt points pos
  rw [mul_comm] at split
  unfold leafCount
  generalize points / size = full at *
  generalize points % size = rest at *
  by_cases exactly : rest = 0
  · have filled : full ≠ 0 := by
      rintro rfl
      omega
    rw [if_neg (not_not.mpr exactly), add_zero, Nat.sub_mul]
    omega
  · rw [if_pos exactly, Nat.add_sub_cancel, add_mul]
    omega

def encoded (codec : NumericCodec) (options : Options) (arranged : List Point) (leaf : Nat) :
    EncodedLeaf :=
  ⟨around (chunk options.maxPointsPerLeaf arranged leaf),
    leafBytes codec options (around (chunk options.maxPointsPerLeaf arranged leaf))
      (sortLeaf (chunk options.maxPointsPerLeaf arranged leaf))⟩

def boundBytes (bound : Bounds → Int) (leaf : EncodedLeaf) : Bytes :=
  spell 4 (wrap 32 (bound leaf.bounds))

def directory (nodes : List InnerNode) (leaves : List EncodedLeaf) : Bytes :=
  nodes.flatMap innerBytes ++ (leaves.flatMap (boundBytes minLat) ++
    (leaves.flatMap (boundBytes maxLat) ++ (leaves.flatMap (boundBytes minLon) ++
      (leaves.flatMap (boundBytes maxLon) ++ (leafPointers leaves).flatMap (spell 8)))))

def metaOff (leaves : List EncodedLeaf) : Nat := (leaves.flatMap bytes).length

def image (head : Bytes) (size pointCount : Nat) (nodes : List InnerNode)
    (leaves : List EncodedLeaf) : Bytes :=
  PointsWriter.Writer.align (head ++ leaves.flatMap bytes ++
    metaHeader leaves.length size pointCount) ++ directory nodes leaves

def storedLeaves (codec : NumericCodec) (options : Options) (arranged : List Point) (count : Nat) :
    List EncodedLeaf :=
  (range count).map (encoded codec options arranged)

theorem length_storedLeaves (codec : NumericCodec) (opts : Options) (arranged : List Point)
    (count : Nat) : (storedLeaves codec opts arranged count).length = count := by
  rw [storedLeaves, length_map, length_range]

theorem chunk_nonempty {size leaf count : Nat} {arranged : List Point} (pos : 0 < size)
    (known : leaf < count) (more : (count - 1) * size < arranged.length) :
    chunk size arranged leaf ≠ [] := by
  have least := mul_le_mul_right size (show leaf ≤ count - 1 by omega)
  apply ne_nil_of_length_pos
  rw [chunk, length_take, length_drop]
  omega

theorem write_eq (codec : NumericCodec)
    {nthElement : (Point → Point → Bool) → List Point → Nat → List Point}
    (selects : Selects nthElement) {opts : Options} (pos : 0 < opts.maxPointsPerLeaf) (head : Bytes)
    (filled : points ≠ []) (nonneg : ∀ point ∈ points, 0 ≤ point.docid)
    {leaves : Nat} (count : leafCount opts.maxPointsPerLeaf points.length = leaves)
    (room : leaves < 2 ^ 32) :
    ∃ arranged writes, partition nthElement opts.maxPointsPerLeaf (leaves - 1) leaves points
        leaves 1 1 = .ok (arranged, writes) ∧
      Partitioned opts.maxPointsPerLeaf points leaves 1 arranged writes ∧
      write codec nthElement opts head points =
        .ok (⟨head.length, metaOff (storedLeaves codec opts arranged leaves), points.length, leaves⟩,
          image head opts.maxPointsPerLeaf points.length (storeNodes (leaves - 1) writes)
            (storedLeaves codec opts arranged leaves)) := by
  obtain ⟨least, more, fits⟩ := leafCount_bounds pos (length_pos_of_ne_nil filled)
  rw [count] at least more fits
  obtain ⟨arranged, writes, found, done⟩ := partition_spec selects pos
    (show leaves - 1 < 2 ^ 32 by omega) le_rfl least more fits le_rfl
    (fun id under => by have known := under_root.mp under; omega)
  refine ⟨arranged, writes, found, done, ?_⟩
  have encodes : (range leaves).mapM (fun leaf => encodeLeaf codec opts
      (chunk opts.maxPointsPerLeaf arranged leaf)) =
        .ok (storedLeaves codec opts arranged leaves) := by
    apply mapM_ok
    intro leaf mem
    rw [← done.perm.length_eq] at more
    rw [encodeLeaf, if_neg (chunk_nonempty pos (mem_range.mp mem) more)]
    rfl
  have legal : (points.any fun point => decide (point.docid < 0)) = false := by
    simpa using nonneg
  unfold write
  rw [if_neg (by omega), if_neg filled, legal, if_neg Bool.false_ne_true]
  rw [count, if_neg (by omega), found, ok_bind, encodes, ok_bind, image, length_storedLeaves]
  rfl

section
variable {size pointCount : Nat} {nodes : List InnerNode}

theorem length_metaHeader (leafCount size pointCount : Nat) :
    (metaHeader leafCount size pointCount).length = fixedHeaderSize := by
  simp [metaHeader, fixedHeaderSize]

theorem length_innerBytes (node : InnerNode) : (innerBytes node).length = 8 := by
  simp [innerBytes]

theorem length_boundBytes (bound : Bounds → Int) (leaf : EncodedLeaf) :
    (boundBytes bound leaf).length = 4 := length_spell 4 _

theorem length_leafPointers (leaves : List EncodedLeaf) :
    (leafPointers leaves).length = leaves.length + 1 := by
  rw [leafPointers, length_map, length_range]

def directorySize (leaves : Nat) : Nat := (leaves - 1) * 8 + leaves * 4 * 4 + (leaves + 1) * 8

theorem length_directory (count : nodes.length = leaves.length - 1) :
    (directory nodes leaves).length = directorySize leaves.length := by
  simp only [directory, length_append, length_flatMap length_innerBytes,
    length_flatMap (length_boundBytes _), length_flatMap (length_spell 8), length_leafPointers, count,
    directorySize]
  omega

def directoryPlace (head : Bytes) (leaves : List EncodedLeaf) : Nat :=
  (head.length + metaOff leaves + fixedHeaderSize + 7) / 8 * 8

structure Opened (head : Bytes) (size pointCount : Nat) (nodes : List InnerNode)
    (leaves : List EncodedLeaf) (file : Bytes) : Prop where
  leafPlace : ∃ rest, file.drop head.length = leaves.flatMap bytes ++ rest
  headerPlace : ∃ rest, file.drop (head.length + metaOff leaves) =
    metaHeader leaves.length size pointCount ++ rest
  directoryPlaced : ∃ rest, file.drop (directoryPlace head leaves) = directory nodes leaves ++ rest
  headerInside : head.length + metaOff leaves + fixedHeaderSize ≤ file.length
  directoryInside : directoryPlace head leaves + directorySize leaves.length ≤ file.length

theorem image_opened (count : nodes.length = leaves.length - 1) (tail : Bytes) :
    Opened head size pointCount nodes leaves (image head size pointCount nodes leaves ++ tail) := by
  have parts := PointsWriter.Writer.align_parts
    (rfl : _ = image head size pointCount nodes leaves ++ tail)
  rw [length_metaHeader, length_directory count] at parts
  obtain ⟨leafPlace, headerPlace, directoryPlaced, headerInside, directoryInside⟩ := parts
  exact ⟨leafPlace, headerPlace, directoryPlaced, headerInside, directoryInside⟩

def readerOf (head : Bytes) (size pointCount : Nat) (leaves : List EncodedLeaf)
    (file : Bytes) : Reader :=
  ⟨file, head.length, metaOff leaves, pointCount, leaves.length, size, directoryPlace head leaves,
    directoryPlace head leaves + (leaves.length - 1) * 8, directoryPlace head leaves +
    (leaves.length - 1) * 8 + leaves.length * 4, directoryPlace head leaves + (leaves.length - 1) *
    8 + leaves.length * 4 * 2, directoryPlace head leaves + (leaves.length - 1) * 8 + leaves.length
    * 4 * 3, directoryPlace head leaves + (leaves.length - 1) * 8 + leaves.length * 4 * 4⟩

structure Arrays (reader : Reader) (nodes : List InnerNode) (leaves : List EncodedLeaf) : Prop where
  inner : ∃ rest, reader.file.drop reader.innerNodeData = nodes.flatMap innerBytes ++ rest
  minLat : ∃ rest, reader.file.drop reader.minLatData = leaves.flatMap (boundBytes minLat) ++ rest
  maxLat : ∃ rest, reader.file.drop reader.maxLatData = leaves.flatMap (boundBytes maxLat) ++ rest
  minLon : ∃ rest, reader.file.drop reader.minLonData = leaves.flatMap (boundBytes minLon) ++ rest
  maxLon : ∃ rest, reader.file.drop reader.maxLonData = leaves.flatMap (boundBytes maxLon) ++ rest
  pointers : ∃ rest, reader.file.drop reader.leafPointerData =
    (leafPointers leaves).flatMap (spell 8) ++ rest

theorem opened_arrays (opened : Opened head size pointCount nodes leaves file)
    (count : nodes.length = leaves.length - 1) :
    Arrays (readerOf head size pointCount leaves file) nodes leaves := by
  obtain ⟨tail, inner⟩ := opened.directoryPlaced
  simp only [directory, append_assoc] at inner
  have nodeBytes := length_flatMap length_innerBytes nodes
  have boundSize := fun bound => length_flatMap (length_boundBytes bound) leaves
  rw [count] at nodeBytes
  have minLat := drop_past inner (congrArg _ nodeBytes)
  have maxLat := drop_past minLat (congrArg _ (boundSize _))
  have minLon := drop_past maxLat (show _ = directoryPlace head leaves + (leaves.length - 1) * 8 +
    leaves.length * 4 * 2 by rw [boundSize]; omega)
  have maxLon := drop_past minLon (show _ = directoryPlace head leaves + (leaves.length - 1) * 8 +
    leaves.length * 4 * 3 by rw [boundSize]; omega)
  have pointers := drop_past maxLon (show _ = directoryPlace head leaves + (leaves.length - 1) * 8 +
    leaves.length * 4 * 4 by rw [boundSize]; omega)
  exact ⟨⟨_, inner⟩, ⟨_, minLat⟩, ⟨_, maxLat⟩, ⟨_, minLon⟩, ⟨_, maxLon⟩, ⟨_, pointers⟩⟩

section
variable {reader : Reader} (arrays : Arrays reader nodes leaves)
  (known : reader.leavesCount = leaves.length)
include arrays known

theorem innerNode_eq (count : nodes.length = leaves.length - 1) {id : Nat} {node : InnerNode}
    (pos : 1 ≤ id) (kept : nodes[id - 1]? = some node) (dims : node.splitDim ≤ 1)
    (range : -2 ^ 31 ≤ node.splitValue ∧ node.splitValue < 2 ^ 31) :
    reader.innerNode id = .ok node := by
  obtain ⟨lt, same⟩ := List.getElem?_eq_some_iff.mp kept
  obtain ⟨_, inner⟩ := arrays.inner
  have here := drop_records length_innerBytes inner lt
  rw [same] at here
  simp only [innerBytes, append_assoc] at here
  have four := drop_word here
  have five := drop_word four
  have six := drop_past five (congrArg _ (length_spell 1 0x11))
  have dim : load 1 reader.file (reader.innerNodeData + (id - 1) * 8 + 4) = node.splitDim :=
    (load_spell four).trans (mod_eq_of_lt (by omega))
  have mark : load 1 reader.file (reader.innerNodeData + (id - 1) * 8 + 5) = 0x11 % 256 ^ 1 :=
    load_spell five
  unfold innerNode
  rw [known, if_neg (by omega)]
  dsimp only
  rw [dim, if_neg (by omega), mark, load_spell six, if_neg (by decide), load_spell here]
  have value : signed 32 (wrap 32 node.splitValue % 256 ^ 4) = node.splitValue := by
    rw [mod_eq_of_lt (show wrap 32 node.splitValue < 256 ^ 4 by unfold wrap; omega)]
    exact signed_wrap32 range.1 range.2
  rw [value]

omit arrays known in
theorem bound_read {bound : Bounds → Int}
    (wrote : file.drop place = leaves.flatMap (boundBytes bound) ++ rest) (lt : k < leaves.length)
    (range : -2 ^ 31 ≤ bound leaves[k].bounds ∧ bound leaves[k].bounds < 2 ^ 31) :
    signed 32 (load 4 file (place + k * 4)) = bound leaves[k].bounds := by
  rw [load_spell (drop_records (length_boundBytes bound) wrote lt), mod_eq_of_lt
    (show wrap 32 (bound leaves[k].bounds) < 256 ^ 4 by unfold wrap; omega)]
  exact signed_wrap32 range.1 range.2

theorem leafBounds_eq (lt : k < leaves.length)
    (lat : -2 ^ 31 ≤ leaves[k].bounds.minLat ∧ leaves[k].bounds.maxLat < 2 ^ 31)
    (lon : -2 ^ 31 ≤ leaves[k].bounds.minLon ∧ leaves[k].bounds.maxLon < 2 ^ 31)
    (order : leaves[k].bounds.minLat ≤ leaves[k].bounds.maxLat ∧
      leaves[k].bounds.minLon ≤ leaves[k].bounds.maxLon) :
    reader.leafBounds k = .ok ⟨leaves[k].bounds.minLat, leaves[k].bounds.maxLat,
      leaves[k].bounds.minLon, leaves[k].bounds.maxLon⟩ := by
  obtain ⟨_, minLat⟩ := arrays.minLat
  obtain ⟨_, maxLat⟩ := arrays.maxLat
  obtain ⟨_, minLon⟩ := arrays.minLon
  obtain ⟨_, maxLon⟩ := arrays.maxLon
  unfold leafBounds
  rw [if_neg (by omega)]
  dsimp only
  rw [bound_read minLat lt (by omega), bound_read maxLat lt (by omega),
    bound_read minLon lt (by omega), bound_read maxLon lt (by omega)]

def offset (leaves : List EncodedLeaf) (k : Nat) : Nat := ((leaves.take k).flatMap bytes).length

omit known in
theorem leafFP_eq (lt : k ≤ leaves.length) (small : offset leaves k < 2 ^ 64) :
    reader.leafFP k = offset leaves k := by
  obtain ⟨_, pointers⟩ := arrays.pointers
  have within : k < (leafPointers leaves).length := by
    rw [length_leafPointers]
    omega
  rw [leafFP, load_spell (drop_records (length_spell 8) pointers within)]
  simp only [leafPointers, getElem_map, getElem_range]
  exact mod_eq_of_lt small

end

theorem offset_length : offset leaves leaves.length = metaOff leaves := by
  rw [offset, take_length, metaOff]

theorem init_eq (opened : Opened head size pointCount nodes leaves file)
    (count : nodes.length = leaves.length - 1) (few : leaves.length < 2 ^ 32)
    (filled : 0 < leaves.length) (pos : 0 < size) (narrow : size < 65536)
    (filled : 0 < pointCount) (points : pointCount < 2 ^ 64)
    (fits : leafCount size pointCount = leaves.length) (leaf : 0 < metaOff leaves)
    (small : metaOff leaves < 2 ^ 64) : init file head.length (metaOff leaves) =
      .ok (readerOf head size pointCount leaves file) := by
  obtain ⟨_, header⟩ := opened.headerPlace
  have headerInside := opened.headerInside
  have directoryInside := opened.directoryInside
  have arrays := opened_arrays opened count
  have firstPointer := leafFP_eq arrays (zero_le _) (show offset leaves 0 < 2 ^ 64 by
    rw [offset, take_zero]; decide)
  have lastPointer := leafFP_eq arrays le_rfl (offset_length.symm ▸ small)
  rw [leafFP, zero_mul, add_zero] at firstPointer
  rw [leafFP, offset_length] at lastPointer
  unfold readerOf at firstPointer lastPointer
  simp only [metaHeader, append_assoc] at header
  have four := drop_word header
  have six := drop_word four
  have seven := drop_word six
  have eight := drop_past seven (congrArg _ (length_spell 1 0x11))
  have twelve := drop_word eight
  have sixteen := drop_word twelve
  have eighteen := drop_word sixteen
  have nineteen := drop_word eighteen
  have twenty := drop_word nineteen
  have twentyOne := drop_word twenty
  have twentyFour := drop_past twentyOne (congrArg _ (length_spell 3 0x111111))
  have reserved : load 1 file (head.length + metaOff leaves + 7) = 0x11 % 256 ^ 1 :=
    load_spell seven
  have padding : load 3 file (head.length + metaOff leaves + 21) = 0x111111 % 256 ^ 3 :=
    load_spell twentyOne
  have leavesCount : load 4 file (head.length + metaOff leaves + 12) = leaves.length :=
    (load_spell twelve).trans (mod_eq_of_lt few)
  have leafSizeMax : load 2 file (head.length + metaOff leaves + 16) = size :=
    (load_spell sixteen).trans (mod_eq_of_lt narrow)
  have pointsCount : load 8 file (head.length + metaOff leaves + 24) = pointCount :=
    (load_spell twentyFour).trans (mod_eq_of_lt points)
  unfold init
  rw [if_neg (by omega), if_neg (by omega), Int.toNat_natCast, if_neg (by omega)]
  dsimp only
  rw [if_neg (by omega), if_neg (by rw [load_spell header]; decide),
    if_neg (by rw [load_spell four]; decide), if_neg (by rw [load_spell six]; decide),
    if_neg (by rw [reserved]; decide), if_neg (by rw [load_spell eight]; decide)]
  rw [leavesCount, leafSizeMax, pointsCount, if_neg (by omega),
    if_neg (by rw [load_spell eighteen, load_spell nineteen, load_spell twenty]; decide),
    if_neg (by rw [padding]; decide), if_neg (by omega), if_neg (by omega),
    if_neg (not_not.mpr fits)]
  unfold directoryPlace directorySize at directoryInside
  unfold directoryPlace at firstPointer lastPointer
  rw [if_neg (by omega), firstPointer, if_neg (by rw [offset, take_zero]; decide), lastPointer,
    if_neg (by simp)]
  rfl

end

structure Stored (codec : NumericCodec) (options : Options) (reader : Reader) (arranged : List Point)
    (writes : List (Nat × InnerNode)) (leaves : Nat) : Prop where
  count : reader.leavesCount = leaves
  size : reader.leafSizeMax = options.maxPointsPerLeaf
  points : reader.pointsCount = arranged.length
  node : ∀ id node, (id, node) ∈ writes → reader.innerNode id = .ok node
  leaf : ∀ k < leaves, LeafAt codec options reader k
    (around (chunk options.maxPointsPerLeaf arranged k))
    (sortLeaf (chunk options.maxPointsPerLeaf arranged k))

variable {codec : NumericCodec} {opts : Options} {arranged : List Point}

theorem offset_succ (known : k < leaves.length) :
    offset leaves (k + 1) = offset leaves k + leaves[k].bytes.length :=
  length_take_succ bytes known

variable {leaves : Nat} {writes : List (Nat × InnerNode)}
  (done : Partitioned opts.maxPointsPerLeaf points leaves 1 arranged writes)
  (pos : 0 < opts.maxPointsPerLeaf) (narrow : opts.maxPointsPerLeaf < 2 ^ 16)
  (fits : ∀ point ∈ points, Fits point)
  (more : (leaves - 1) * opts.maxPointsPerLeaf < points.length)
include done pos narrow fits more

theorem chunk_sound (known : k < leaves) :
    LeafSound (around (chunk opts.maxPointsPerLeaf arranged k))
      (sortLeaf (chunk opts.maxPointsPerLeaf arranged k)) := by
  rw [← done.perm.length_eq] at more
  apply leaf_sound (chunk_nonempty pos known more)
  · exact (List.length_take_le _ _).trans_lt narrow
  · exact fun point mem => fits point (done.perm.mem_iff.mp (mem_of_mem_drop (mem_of_mem_take mem)))

theorem opened_stored (codes : RoundTrips codec) (few : leaves < 2 ^ 32)
    (count : leafCount opts.maxPointsPerLeaf points.length = leaves)
    (opened : Opened head opts.maxPointsPerLeaf points.length (storeNodes (leaves - 1) writes)
      (storedLeaves codec opts arranged leaves) file) :
    ∃ reader, init file head.length (metaOff (storedLeaves codec opts arranged leaves)) =
        .ok reader ∧ Stored codec opts reader arranged writes leaves := by
  have size := length_storedLeaves codec opts arranged leaves
  have each : ∀ k (known : k < (storedLeaves codec opts arranged leaves).length),
      (storedLeaves codec opts arranged leaves)[k] = encoded codec opts arranged k :=
    fun k known => by simp only [storedLeaves, getElem_map, getElem_range]
  generalize storedLeaves codec opts arranged leaves = kept at *
  have filled : 0 < points.length := by omega
  obtain ⟨counted, _, bound⟩ := leafCount_bounds pos filled
  rw [count] at counted bound
  have sound := fun k => chunk_sound done pos narrow fits more (k := k)
  have sizes : ∀ leaf ∈ kept, leaf.bytes.length ≤ 2 ^ 22 := by
    intro leaf mem
    obtain ⟨k, lt, rfl⟩ := getElem_of_mem mem
    rw [each k lt]
    exact (leafBytes_lt (sound k (size ▸ lt)) codes opts).le
  have offsets : ∀ k ≤ kept.length, offset kept k < 2 ^ 64 := by
    intro k lt
    have below : offset kept k ≤ k * 2 ^ 22 := length_take_le sizes lt
    omega
  have nodes : (storeNodes (leaves - 1) writes).length = kept.length - 1 := by
    rw [length_storeNodes, size]
  have arrays := opened_arrays opened nodes
  have first : 0 < metaOff kept := by
    have next := offset_succ (show 0 < kept.length by omega)
    have lt : offset kept (0 + 1) ≤ metaOff kept := length_take_le_all bytes _ _
    have header : leafHeaderSize ≤ kept[0].bytes.length := by
      rw [each 0, encoded, length_leafBytes]
      omega
    rw [leafHeaderSize] at header
    omega
  have total : points.length < 2 ^ 64 := by
    have most : leaves * opts.maxPointsPerLeaf ≤ 2 ^ 32 * 2 ^ 16 := Nat.mul_le_mul few.le narrow.le
    omega
  refine ⟨_, init_eq opened nodes (size.symm ▸ few) (size.symm ▸ counted) pos narrow filled total
    (count.trans size.symm) first (offset_length ▸ offsets _ le_rfl), size, rfl,
    done.perm.length_eq.symm, ?_, ?_⟩
  · intro id node mem
    obtain ⟨least, _, found⟩ := storeNodes_found done mem
    obtain ⟨dims, point, known, value⟩ := done.nodes _ mem
    refine innerNode_eq arrays rfl nodes least found dims ?_
    have lt := fits point known
    rw [value, Point.coordinate]
    split
    · exact lt.lat
    · exact lt.lon
  · intro k known
    have here : k < kept.length := size ▸ known
    have own := sound k known
    obtain ⟨point, mem⟩ := exists_mem_of_ne_nil _ own.nonempty
    have lat := own.lat point mem
    have lon := own.lon point mem
    have start := leafFP_eq arrays here.le (offsets k here.le)
    have next := leafFP_eq arrays here (offsets (k + 1) here)
    obtain ⟨_, body⟩ := opened.leafPlace
    have cell := leafBounds_eq arrays rfl here (by rw [each k here]; exact own.latRange)
      (by rw [each k here]; exact own.lonRange)
      (by rw [each k here]; exact ⟨lat.1.trans lat.2, lon.1.trans lon.2⟩)
    rw [each k here] at cell
    refine ⟨own, here, ?_, ?_, ?_, cell⟩
    · rw [start]
      have found := drop_record bytes body here
      rw [each k here] at found
      exact ⟨_, found⟩
    · rw [next, start, offset_succ here, each k here]
      rfl
    · rw [next]
      exact length_take_le_all bytes _ (k + 1)

end Luxir.Points.BKDFile
