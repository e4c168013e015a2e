import Luxir.Points.BKDFile
import Luxir.Points.PointsRoundTrip

/-!
An index of points in the plane from the writer to the reader: a query reports the points that
match, counts them and bounds their number.
-/

namespace Luxir.Points.BKDRoundTrip
open Lib.Folds BKDWriter BKDReader BKDTree BKDQuery BKDLeaf BKDFile
open PointsWriter (NumericCodec)
open PointsReader (Emitted)
open LeafCoding (RoundTrips)
open PointsRoundTrip

variable {arranged : List Point} {leaves : Nat} {codec : NumericCodec} {opts : Options}
  {reader : Reader} {writes : List (Nat × InnerNode)} {relation : Relation}

section
variable {size firstLeaf : Nat}

theorem span_one (leaf : Nat) : span size arranged leaf 1 = chunk size arranged leaf := by
  rw [span, chunk, one_mul]

theorem span_succ (firstLeaf leaves : Nat) : span size arranged firstLeaf (leaves + 1) =
    span size arranged firstLeaf leaves ++ chunk size arranged (firstLeaf + leaves) := by
  rw [span, span, chunk, Nat.succ_mul, List.take_add, List.drop_drop, add_mul]

theorem span_all (fits : arranged.length ≤ leaves * size) :
    span size arranged 0 leaves = arranged := by
  rw [span, zero_mul, List.drop_zero, List.take_of_length_le fits]

theorem mem_of_mem_leaf (leaf : Nat) :
    ∀ point ∈ sortLeaf (chunk size arranged leaf), point ∈ arranged :=
  fun _ mem => List.mem_of_mem_drop (List.mem_of_mem_take ((sortLeaf_perm _).mem_iff.mp mem))

end

section

def Reports (relation : Relation) (emitted : List Emitted) (points : List Point) : Prop :=
  (emitted.flatMap Emitted.docids).Perm ((points.filter (Accepts relation)).map Point.docid)

variable (codes : RoundTrips codec) (kept : Stored codec opts reader arranged writes leaves)
include kept in
theorem leafRangePoints_eq (lt : firstLeaf + count ≤ leaves) :
    reader.leafRangePoints firstLeaf count =
      .ok (span opts.maxPointsPerLeaf arranged firstLeaf count).length := by
  rw [Reader.leafRangePoints, kept.count, if_neg (by omega), kept.size, kept.points, span,
    List.length_take, List.length_drop, add_mul]
  apply congrArg Except.ok
  omega

include codes kept

theorem emitLeaves_eq (below : ∀ point ∈ arranged, point.docid < 2 ^ 31 - 1)
    (lt : firstLeaf + count ≤ leaves) :
    ∃ emitted, emitLeaves codec reader firstLeaf count = .ok emitted ∧
      (emitted.flatMap Emitted.docids).Perm
        ((span opts.maxPointsPerLeaf arranged firstLeaf count).map Point.docid) := by
  induction count with
  | zero =>
    refine ⟨[], rfl, ?_⟩
    rw [span, zero_mul, List.take_zero]
    exact List.Perm.refl _
  | succ count ih =>
    obtain ⟨emitted, found, same⟩ := ih (by omega)
    have leaf := kept.leaf (firstLeaf + count) (by omega)
    have perm := sortLeaf_perm (chunk opts.maxPointsPerLeaf arranged (firstLeaf + count))
    obtain ⟨more, next, docs⟩ := emitLeafDocids_eq codes leaf fun point mem =>
      below point (mem_of_mem_leaf _ point mem)
    refine ⟨emitted ++ more, ?_, ?_⟩
    · unfold emitLeaves at found ⊢
      rw [List.range'_concat, one_mul, List.foldlM_append, found, ok_bind, List.foldlM_cons,
        leafInfo_eq codes leaf, ok_bind, next]
      rfl
    · rw [List.flatMap_append, span_succ, List.map_append, docs]
      exact same.append (perm.map Point.docid)

variable (right : Sound relation arranged)
include right

theorem intersect_collects (below : ∀ point ∈ arranged, point.docid < 2 ^ 31 - 1) :
    Collects opts.maxPointsPerLeaf arranged leaves relation [] (· ++ ·) (emitLeaves codec reader)
      (intersectLeaf codec reader relation) (Reports relation) := by
  refine ⟨?_, ?_, ?_, ?_⟩
  · intro points missed
    have empty := List.filter_eq_nil_iff.mpr fun point mem => Bool.not_eq_true _ ▸ missed point mem
    rw [Reports, empty]
    exact List.Perm.refl _
  · intro first second points others one two
    rw [Reports, List.flatMap_append, List.filter_append, List.map_append]
    exact List.Perm.append one two
  · intro firstLeaf count lt all
    obtain ⟨emitted, found, same⟩ := emitLeaves_eq codes kept below lt
    refine ⟨emitted, found, ?_⟩
    rw [Reports, List.filter_eq_self.mpr all]
    exact same
  · intro leaf known
    have perm := sortLeaf_perm (chunk opts.maxPointsPerLeaf arranged leaf)
    obtain ⟨emitted, found, docs⟩ := intersectLeaf_eq (kept.leaf leaf known) codes right
      (mem_of_mem_leaf leaf) fun point mem => below point (mem_of_mem_leaf leaf point mem)
    refine ⟨emitted, found, ?_⟩
    rw [Reports, docs, span_one]
    exact (perm.filter (Accepts relation)).map Point.docid

theorem count_collects :
    Collects opts.maxPointsPerLeaf arranged leaves relation 0 (· + ·) reader.leafRangePoints
      (countLeaf codec reader relation)
      (fun count points => count = points.countP (Accepts relation)) := by
  refine ⟨?_, ?_, ?_, ?_⟩
  · intro points missed
    exact (List.countP_eq_zero.mpr fun point mem => Bool.not_eq_true _ ▸ missed point mem).symm
  · rintro _ _ points others rfl rfl
    exact List.countP_append.symm
  · intro firstLeaf count lt all
    exact ⟨_, leafRangePoints_eq kept lt, (List.countP_eq_length.mpr all).symm⟩
  · intro leaf known
    have perm := sortLeaf_perm (chunk opts.maxPointsPerLeaf arranged leaf)
    refine ⟨_, countLeaf_eq (kept.leaf leaf known) codes right (mem_of_mem_leaf leaf), ?_⟩
    rw [span_one]
    exact perm.countP_eq _

theorem estimate_collects :
    Collects opts.maxPointsPerLeaf arranged leaves relation ⟨0, 0, 0⟩ EstimateResult.join
      (estimateLeaves reader) (estimateLeaf reader relation)
      (fun out points => points.countP (Accepts relation) ≤ out.upperBound) := by
  refine ⟨?_, ?_, ?_, ?_⟩
  · intro points missed
    exact (List.countP_eq_zero.mpr fun point mem => Bool.not_eq_true _ ▸ missed point mem).le
  · intro first second points others one two
    rw [List.countP_append]
    exact Nat.add_le_add one two
  · intro firstLeaf count lt all
    refine ⟨_, by rw [estimateLeaves, leafRangePoints_eq kept lt]; rfl, ?_⟩
    exact List.countP_le_length
  · intro leaf known
    have perm := sortLeaf_perm (chunk opts.maxPointsPerLeaf arranged leaf)
    obtain ⟨out, found, bound⟩ := estimateLeaf_le (kept.leaf leaf known) codes right
      (mem_of_mem_leaf leaf)
    refine ⟨out, found, ?_⟩
    rw [span_one, ← perm.countP_eq]
    exact bound

end

/-- What a query answers about points, with arrays of a leaf's size at least. -/
structure Answers (codec : NumericCodec) (reader : Reader) (relation : Relation)
    (points : List Point) (leafSize : Nat) : Prop where
  emits : (∀ point ∈ points, point.docid < 2 ^ 31 - 1) → ∀ {scratch : Scratch},
    leafSize ≤ scratch.docs → leafSize ≤ scratch.lat → leafSize ≤ scratch.lon →
    ∃ emitted, intersect codec reader relation scratch = .ok emitted ∧
      Reports relation emitted points
  counts : ∀ {scratch : Scratch}, leafSize ≤ scratch.lat → leafSize ≤ scratch.lon →
    countIntersect codec reader relation scratch = .ok (points.countP (Accepts relation))
  estimates : ∃ result, estimateIntersect reader relation = .ok result ∧
    points.countP (Accepts relation) ≤ result.upperBound

section
variable {arranged points : List Point}

theorem fits_everywhere {point : Point} (fits : Fits point) : Holds everywhere point := by
  obtain ⟨lat, lon, _⟩ := fits
  unfold Holds everywhere
  dsimp only
  omega

theorem answers (codes : RoundTrips codec) (kept : Stored codec opts reader arranged writes leaves)
    (done : Partitioned opts.maxPointsPerLeaf points leaves 1 arranged writes)
    (room : points.length ≤ leaves * opts.maxPointsPerLeaf) (fits : ∀ point ∈ points, Fits point)
    (right : Sound relation points) :
    Answers codec reader relation points opts.maxPointsPerLeaf := by
  have perm := done.perm
  have sound : Sound relation arranged :=
    ⟨fun decided mem => right.inside decided (perm.mem_iff.mp mem),
      fun decided mem => right.outside decided (perm.mem_iff.mp mem)⟩
  have whole := (span_all (perm.length_eq ▸ room)).symm
  have held : ∀ point ∈ arranged, Holds everywhere point :=
    fun point mem => fits_everywhere (fits point (perm.mem_iff.mp mem))
  refine ⟨?_, ?_, ?_⟩
  · intro below scratch docs lat lon
    have collects := intersect_collects codes kept sound fun point mem =>
      below point (perm.mem_iff.mp mem)
    obtain ⟨emitted, found, reports⟩ := visit_spec collects kept.node sound done.tree whole
      (zero_add leaves).le held le_rfl
    refine ⟨emitted, ?_, reports.trans ((perm.filter _).map _)⟩
    rw [intersect, kept.size, kept.count, if_neg (by omega)]
    exact found
  · intro scratch lat lon
    obtain ⟨count, found, same⟩ := visit_spec (count_collects codes kept sound) kept.node sound
      done.tree whole (zero_add leaves).le held le_rfl
    rw [countIntersect, kept.size, kept.count, if_neg (by omega), ← perm.countP_eq, ← same]
    exact found
  · obtain ⟨out, found, bound⟩ := visit_spec (estimate_collects codes kept sound) kept.node
      sound done.tree whole (zero_add leaves).le held le_rfl
    refine ⟨out, ?_, ?_⟩
    · rw [estimateIntersect, kept.count]
      exact found
    · rw [← perm.countP_eq]
      exact bound

end

/-- The writer numbers the inner nodes without a gap, and a reader of what it has written answers
queries as the points themselves do. -/
theorem index_answers {codec : NumericCodec} (codes : RoundTrips codec)
    {nthElement : (Point → Point → Bool) → List Point → Nat → List Point}
    (selects : Selects nthElement) (options : Options) (positive : 0 < options.maxPointsPerLeaf)
    (narrow : options.maxPointsPerLeaf < 2 ^ 16) (head tail : Bytes) (points : List Point)
    (filled : points ≠ []) (fits : ∀ point ∈ points, Fits point)
    {leaves : Nat} (count : leafCount options.maxPointsPerLeaf points.length = leaves)
    (room : leaves < 2 ^ 32) : ∃ arranged writes data file reader,
      partition nthElement options.maxPointsPerLeaf (leaves - 1) leaves points leaves 1 1 =
        .ok (arranged, writes) ∧ (writes.map Prod.fst).Perm (List.range' 1 (leaves - 1)) ∧
      write codec nthElement options head points = .ok (data, file) ∧
      Reader.init (file ++ tail) data.pointsStart data.pointsMetaOff = .ok reader ∧
      (∀ relation, Sound relation points →
        Answers codec reader relation points options.maxPointsPerLeaf) ∧
      ∀ box : BoxRelation, Answers codec reader box.relation points options.maxPointsPerLeaf := by
  obtain ⟨arranged, writes, found, done, written⟩ := write_eq codec selects positive head filled
    (fun point member => (fits point member).docid.1) count room
  obtain ⟨_, more, fit⟩ := leafCount_bounds positive (List.length_pos_of_ne_nil filled)
  rw [count] at more fit
  have nodes : (storeNodes (leaves - 1) writes).length =
      (storedLeaves codec options arranged leaves).length - 1 := by
    rw [length_storeNodes, length_storedLeaves]
  obtain ⟨reader, opens, stored⟩ := opened_stored done positive narrow fits more codes room count
    (image_opened nodes tail)
  have served : ∀ relation, Sound relation points →
      Answers codec reader relation points options.maxPointsPerLeaf :=
    fun relation => answers codes stored done fit fits
  exact ⟨arranged, writes, _, _, reader, found, ids_perm done, written, opens, served,
    fun box => served _ (box_sound box points)⟩

def sortingSelection (less : Point → Point → Bool) (points : List Point) (_ : Nat) : List Point :=
  points.mergeSort fun first second => !less second first

theorem sortingSelection_selects : Selects sortingSelection := by
  have sorted : ∀ {less} (points : List Point), WeakOrder less →
      (points.mergeSort fun first second => !less second first).Pairwise
        fun first second => less second first = false := by
    intro less points weak
    have ordered : (points.mergeSort fun first second => !less second first).Pairwise
        fun first second => !less second first := by
      apply List.pairwise_mergeSort
      · intro a b c
        simpa using fun one two => weak.trans two one
      · intro a b
        cases order : less b a
        · rfl
        · simp [weak.asymm order]
    exact ordered.imp fun before => by simpa using before
  refine ⟨fun _ _ => List.mergeSort_perm _ _, fun {less points place} weak lt => ?_⟩
  have pairs := sorted points weak
  have here : place < (points.mergeSort fun first second => !less second first).length := by
    rw [List.length_mergeSort]
    exact lt
  unfold sortingSelection
  generalize points.mergeSort _ = arranged at *
  rw [List.getD_eq_getElem?_getD, List.getElem?_eq_getElem here, Option.getD_some]
  rw [← List.take_append_drop place arranged, List.pairwise_append] at pairs
  obtain ⟨_, later, across⟩ := pairs
  rw [List.drop_eq_getElem_cons here] at later across ⊢
  refine ⟨fun point mem => across point mem _ List.mem_cons_self, fun point mem => ?_⟩
  rcases List.mem_cons.mp mem with rfl | past
  · cases order : less arranged[place] arranged[place]
    · rfl
    · exact absurd (weak.asymm order) (by simp [order])
  · exact List.rel_of_pairwise_cons later past

/-- Two leaves and two points at one place. -/
theorem index_answers_small : ∃ arranged writes data file reader,
      partition sortingSelection 2 1 2 [⟨10, 20, 0⟩, ⟨-5, 7, 3⟩, ⟨10, 20, 4⟩] 2 1 1 =
        .ok (arranged, writes) ∧ (writes.map Prod.fst).Perm (List.range' 1 1) ∧
      write digitCodec sortingSelection ⟨2, true⟩ [7]
        [⟨10, 20, 0⟩, ⟨-5, 7, 3⟩, ⟨10, 20, 4⟩] = .ok (data, file) ∧
      Reader.init (file ++ [1, 2]) data.pointsStart data.pointsMetaOff = .ok reader ∧
      (∀ relation, Sound relation [⟨10, 20, 0⟩, ⟨-5, 7, 3⟩, ⟨10, 20, 4⟩] →
        Answers digitCodec reader relation [⟨10, 20, 0⟩, ⟨-5, 7, 3⟩, ⟨10, 20, 4⟩] 2) ∧
      ∀ box : BoxRelation, Answers digitCodec reader box.relation
        [⟨10, 20, 0⟩, ⟨-5, 7, 3⟩, ⟨10, 20, 4⟩] 2 :=
  index_answers digitCodec_roundTrips sortingSelection_selects ⟨2, true⟩ (by decide)
    (by decide) [7] [1, 2] [⟨10, 20, 0⟩, ⟨-5, 7, 3⟩, ⟨10, 20, 4⟩] (by decide) (by decide)
    (show leafCount 2 3 = 2 from rfl) (by decide)

/-- The end of a run does not fit behind the greatest document, and a query about everything reports
nothing. -/
theorem last_document_not_emitted : (do
      let written ← write digitCodec sortingSelection ⟨1, false⟩ [] [⟨0, 0, 2147483647⟩]
      let reader ← Reader.init written.2 written.1.pointsStart written.1.pointsMetaOff
      let box ← BoxRelation.make (-2 ^ 31) (2 ^ 31 - 1) (-2 ^ 31) (2 ^ 31 - 1)
      let emitted ← intersect digitCodec reader box.relation ⟨1, 1, 1⟩
      let count ← countIntersect digitCodec reader box.relation ⟨1, 1, 1⟩
      return (emitted.flatMap Emitted.docids, count)) = .ok ([], 1) := by
  decide +kernel

end Luxir.Points.BKDRoundTrip
