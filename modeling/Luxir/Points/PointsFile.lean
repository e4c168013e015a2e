import Mathlib.Algebra.Order.BigOperators.Group.List
import Luxir.Points.LeafReading

/-!
The writer over a whole list of points, and the file that a reader opens: leaves of one size but for
the last, in the order of the points, and a directory that finds them.
-/

namespace Luxir.Points.PointsFile
open Lib.Bytes Lib.Folds Lib.Words PointsWriter PointsReader LeafCoding LeafReading List Writer Nat

/-- Points cut into leaves of one size; only the last one may be shorter. -/
structure Leaves (size : Nat) (leaves : List (List Point)) : Prop where
  positive : 0 < size
  full : ∀ k (known : k < leaves.length), k + 1 < leaves.length → leaves[k].length = size
  short : ∀ leaf ∈ leaves, leaf.length ≤ size
  nonempty : ∀ leaf ∈ leaves, leaf ≠ []

structure Holds (codec : NumericCodec) (options : Options) (reader : Reader)
    (leaves : List (List Point)) : Prop where
  cut : Leaves reader.leafSizeMax leaves
  count : reader.leavesCount = leaves.length
  points : reader.pointsCount = leaves.flatten.length
  sorted : leaves.flatten.Pairwise Before
  least : ∀ k (known : k < leaves.length), reader.leafMin k = (front leaves[k]).value
  greatest : ∀ k (known : k < leaves.length), reader.leafMax k = (back leaves[k]).value
  stored : ∀ k (known : k < leaves.length), LeafAt codec options reader k leaves[k]
  next : ∀ k (known : k < leaves.length),
    reader.leafFP (k + 1) = reader.leafFP k + (leafBytes codec options leaves[k]).length

variable {leaves : List (List Point)} {k : Nat} {writer : Writer} {before : List Point}
  {codec : NumericCodec} {opts : Options}

section
variable {head : Bytes}

def places (codec : NumericCodec) (options : Options) (leaves : List (List Point)) : List Nat :=
  (range leaves.length).map fun k =>
    ((leaves.take k).flatMap (leafBytes codec options)).length

structure Written (codec : NumericCodec) (options : Options) (head : Bytes) (writer : Writer)
    (leaves : List (List Point)) : Prop where
  options_eq : writer.options = options
  out : writer.out = head ++ leaves.flatMap (leafBytes codec options)
  start : writer.pointsStart = head.length
  least : writer.leafMin = leaves.map fun leaf => (front leaf).value
  greatest : writer.leafMax = leaves.map fun leaf => (back leaf).value
  place : writer.leafFP = places codec options leaves
  open_still : writer.finished = false

theorem places_concat (leaves : List (List Point)) (leaf : List Point) :
    places codec opts (leaves ++ [leaf]) = places codec opts leaves ++
      [(leaves.flatMap (leafBytes codec opts)).length] := by
  unfold places
  rw [length_append, length_singleton, range_succ, map_append, map_singleton, take_left]
  congr 1
  refine map_congr_left fun k mem => ?_
  rw [take_append_of_le_length (le_of_lt (mem_range.mp mem))]

theorem flushLeaf_written (wrote : Written codec opts head writer leaves)
    (filled : writer.leaf ≠ []) (room : leaves.length < 2 ^ 32 - 1) :
    ∃ flushed, writer.flushLeaf codec = .ok flushed ∧
      Written codec opts head flushed (leaves ++ [writer.leaf]) ∧ flushed.leaf = [] ∧
      flushed.pointCount = writer.pointCount ∧ flushed.last = writer.last := by
  have few : ¬writer.leafFP.length ≥ 2 ^ 32 - 1 := by
    rw [wrote.place, places, length_map, length_range]
    omega
  unfold flushLeaf
  rw [if_neg filled, if_neg few]
  refine ⟨_, rfl, ⟨wrote.options_eq, ?_, wrote.start, ?_, ?_, ?_, wrote.open_still⟩, rfl, rfl, rfl⟩
  · rw [wrote.out, wrote.options_eq, flatMap_append, flatMap_singleton, append_assoc]
  · rw [wrote.least, map_append, map_singleton]
  · rw [wrote.greatest, map_append, map_singleton]
  · rw [wrote.place, wrote.out, wrote.start, places_concat, length_append, Nat.add_sub_cancel_left]

structure Adding (codec : NumericCodec) (options : Options) (head : Bytes) (writer : Writer)
    (leaves : List (List Point)) (before : List Point) : Prop where
  written : Written codec options head writer leaves
  points : leaves.flatten ++ writer.leaf = before
  full : ∀ leaf ∈ leaves, leaf.length = options.maxPointsPerLeaf
  short : writer.leaf.length < options.maxPointsPerLeaf
  count : writer.pointCount = before.length
  last : writer.last = before.getLast?

theorem outOfOrder_eq_false {point : Point} (sorted : ∀ early ∈ before, Before early point) :
    outOfOrder before.getLast? point = false := by
  cases found : before.getLast? with
  | none => rfl
  | some last =>
    have order := sorted last (mem_of_getLast? found)
    unfold outOfOrder
    rw [decide_eq_false_iff_not]
    rcases order with less | ⟨same, more⟩ <;> omega

def leafCount (size points : Nat) : Nat := (points + size - 1) / size

theorem length_flatten_full {size : Nat} (full : ∀ leaf ∈ leaves, leaf.length = size) :
    leaves.flatten.length = leaves.length * size := by
  rw [length_flatten, sum_eq_card_nsmul _ size (forall_mem_map.mpr full), length_map]
  rfl

theorem addPoint_adding {point : Point} (adding : Adding codec opts head writer leaves before)
    (nonneg : 0 ≤ point.docid) (sorted : ∀ early ∈ before, Before early point)
    (few : before.length + 1 < 2 ^ 64)
    (room : (before.length + 1) / opts.maxPointsPerLeaf < 2 ^ 32) :
    ∃ added leaves, writer.addPoint codec point = .ok added ∧
      Adding codec opts head added leaves (before ++ [point]) := by
  have wrote := adding.written
  have counts := length_flatten_full adding.full
  have total := congrArg length adding.points
  rw [length_append, counts] at total
  have going : ¬writer.finished = true := by
    rw [wrote.open_still]
    exact Bool.false_ne_true
  unfold addPoint
  rw [if_neg going, if_neg (by omega), adding.last,
    outOfOrder_eq_false sorted, if_neg Bool.false_ne_true, adding.count, if_neg (by omega)]
  have concat : before ++ [point] = leaves.flatten ++ (writer.leaf ++ [point]) := by
    rw [← append_assoc, adding.points]
  have counted : (before ++ [point]).length = before.length + 1 := by
    rw [length_append, length_singleton]
  have last : (before ++ [point]).getLast? = some point := getLast?_concat
  by_cases complete : (writer.leaf ++ [point]).length = writer.options.maxPointsPerLeaf
  · rw [if_pos complete]
    rw [wrote.options_eq] at complete
    have grown : Written codec opts head { writer with
        leaf := writer.leaf ++ [point]
        pointCount := before.length + 1
        last := some point } leaves :=
      { wrote with }
    have space : leaves.length < 2 ^ 32 - 1 := by
      rw [length_append, length_singleton] at complete
      have whole : before.length + 1 = (leaves.length + 1) * opts.maxPointsPerLeaf := by
        rw [succ_mul]
        omega
      rw [whole, Nat.mul_div_cancel _ (by omega)] at room
      omega
    obtain ⟨flushed, step, next, empty, count, same⟩ := flushLeaf_written grown (by simp) space
    refine ⟨flushed, _, step, next, ?_, ?_, ?_, ?_, ?_⟩
    · rw [empty, append_nil, concat, flatten_append, flatten_singleton]
    · exact forall_mem_append.mpr ⟨adding.full, forall_mem_singleton.mpr complete⟩
    · rw [empty]
      exact (Nat.zero_le _).trans_lt adding.short
    · rw [count, counted]
    · rw [same, last]
  · rw [if_neg complete]
    rw [wrote.options_eq] at complete
    refine ⟨_, leaves, rfl, { wrote with }, concat.symm, adding.full, ?_, counted.symm, last.symm⟩
    have size := adding.short
    rw [length_append, length_singleton] at complete ⊢
    omega

theorem addPoints_adding (adding : Adding codec opts head writer leaves before)
    (points : List Point) (nonneg : ∀ point ∈ points, 0 ≤ point.docid)
    (sorted : (before ++ points).Pairwise Before) (few : (before ++ points).length < 2 ^ 64)
    (room : (before ++ points).length / opts.maxPointsPerLeaf < 2 ^ 32) :
    ∃ added leaves, points.foldlM (addPoint codec) writer = .ok added ∧
      Adding codec opts head added leaves (before ++ points) := by
  induction points generalizing writer leaves before with
  | nil =>
    refine ⟨writer, leaves, rfl, ?_⟩
    rw [append_nil]
    exact adding
  | cons point rest ih =>
    have regrouped : before ++ point :: rest = before ++ [point] ++ rest := by
      rw [append_assoc]
      rfl
    have order := (pairwise_append.mp sorted).2.2
    rw [regrouped] at sorted few room ⊢
    have shorter : before.length + 1 ≤ (before ++ [point] ++ rest).length := by
      rw [length_append, length_append, length_singleton]
      omega
    obtain ⟨added, more, step, next⟩ := addPoint_adding adding (nonneg point mem_cons_self)
      (fun early mem => order early mem point mem_cons_self)
      (shorter.trans_lt few) ((Nat.div_le_div_right shorter).trans_lt room)
    rw [foldlM_cons, step, ok_bind]
    exact ih next (fun other mem => nonneg other (mem_cons_of_mem _ mem)) sorted few room

def offset (codec : NumericCodec) (options : Options) (leaves : List (List Point)) (k : Nat) : Nat :=
  ((leaves.take k).flatMap (leafBytes codec options)).length

def metaOff (codec : NumericCodec) (options : Options) (leaves : List (List Point)) : Nat :=
  (leaves.flatMap (leafBytes codec options)).length

def directory (codec : NumericCodec) (options : Options) (leaves : List (List Point)) : Bytes :=
  leaves.flatMap (fun leaf => spell 8 (wrap 64 (front leaf).value)) ++
    (leaves.flatMap (fun leaf => spell 8 (wrap 64 (back leaf).value)) ++
      ((range (leaves.length + 1)).flatMap fun k => spell 8 (offset codec options leaves k)))

def image (codec : NumericCodec) (options : Options) (head : Bytes)
    (leaves : List (List Point)) : Bytes :=
  align (head ++ leaves.flatMap (leafBytes codec options) ++
      metaHeader leaves.length options.maxPointsPerLeaf leaves.flatten.length) ++
    directory codec options leaves

theorem pointers_eq (leaves : List (List Point)) :
    (places codec opts leaves ++ [metaOff codec opts leaves]).flatMap (spell 8) =
      (range (leaves.length + 1)).flatMap fun k => spell 8 (offset codec opts leaves k) := by
  rw [range_succ, flatMap_append, flatMap_append, flatMap_singleton,
    flatMap_singleton, places, flatMap_map, offset, take_length]
  rfl

theorem finish_eq {flushed : Writer} (flush : writer.flushLeaf codec = .ok flushed)
    (wrote : Written codec opts head flushed leaves) (going : writer.finished = false)
    (filled : writer.pointCount ≠ 0) (count : flushed.pointCount = leaves.flatten.length) :
    writer.finish codec = .ok (⟨head.length, metaOff codec opts leaves, leaves.flatten.length,
      leaves.length⟩, image codec opts head leaves) := by
  have off : flushed.out.length - flushed.pointsStart = metaOff codec opts leaves := by
    rw [wrote.out, wrote.start, length_append, Nat.add_sub_cancel_left, metaOff]
  have size : flushed.leafMin.length = leaves.length := by
    rw [wrote.least, length_map]
  unfold finish
  rw [going, if_neg Bool.false_ne_true, if_neg filled, flush, ok_bind]
  dsimp only
  rw [off, size, count, wrote.place, pointers_eq, wrote.least, wrote.greatest,
    flatMap_map, flatMap_map, wrote.out, wrote.start, wrote.options_eq]
  rfl

variable (codec head) in
theorem write_eq {points : List Point} (pos : 0 < opts.maxPointsPerLeaf)
    (nonempty : points ≠ []) (nonneg : ∀ point ∈ points, 0 ≤ point.docid)
    (sorted : points.Pairwise Before) (few : points.length < 2 ^ 64)
    (room : leafCount opts.maxPointsPerLeaf points.length < 2 ^ 32) :
    ∃ leaves, leaves.flatten = points ∧ Leaves opts.maxPointsPerLeaf leaves ∧
      leaves.length < 2 ^ 32 ∧
      write codec opts head points = .ok (⟨head.length, metaOff codec opts leaves,
        points.length, leaves.length⟩, image codec opts head leaves) := by
  have started : start opts head =
      .ok ⟨opts, head, head.length, 0, false, none, [], [], [], []⟩ := by
    rw [start, if_neg (ne_of_gt pos)]
  have empty : Adding codec opts head
      ⟨opts, head, head.length, 0, false, none, [], [], [], []⟩ [] [] :=
    ⟨⟨rfl, (append_nil head).symm, rfl, rfl, rfl, rfl, rfl⟩, rfl, by simp, pos, rfl, rfl⟩
  have full : points.length / opts.maxPointsPerLeaf < 2 ^ 32 :=
    (Nat.div_le_div_right (by omega)).trans_lt room
  obtain ⟨writer, leaves, added, adding⟩ := addPoints_adding empty points nonneg sorted few full
  rw [nil_append] at adding
  have wrote := adding.written
  have counts := length_flatten_full adding.full
  have total := congrArg length adding.points
  rw [length_append, counts] at total
  have filled : 0 < points.length := length_pos_of_ne_nil nonempty
  have nonzero : writer.pointCount ≠ 0 := by
    rw [adding.count]
    omega
  unfold write
  rw [started, ok_bind, added, ok_bind]
  by_cases left : writer.leaf = []
  · have flush : writer.flushLeaf codec = .ok writer := by
      rw [flushLeaf, if_pos left]
    have whole : leaves.flatten = points := by
      rw [← adding.points, left, append_nil]
    rw [left, length_nil, add_zero] at total
    refine ⟨leaves, whole, ⟨pos, ?_, ?_, ?_⟩, ?_, ?_⟩
    · intro k known _
      exact adding.full _ (getElem_mem known)
    · intro leaf mem
      exact (adding.full leaf mem).le
    · intro leaf mem
      exact ne_nil_of_length_pos ((adding.full leaf mem).symm ▸ pos)
    · rwa [← total, Nat.mul_div_cancel _ pos] at full
    · rw [finish_eq flush wrote wrote.open_still nonzero (by rw [adding.count, whole]), whole]
  · have pieces : 0 < writer.leaf.length := length_pos_of_ne_nil left
    have short := adding.short
    have space : leaves.length + 1 < 2 ^ 32 := by
      refine lt_of_le_of_lt ?_ room
      rw [leafCount, Nat.le_div_iff_mul_le pos, succ_mul]
      omega
    have whole : (leaves ++ [writer.leaf]).flatten = points := by
      rw [flatten_append, flatten_singleton, adding.points]
    obtain ⟨flushed, flush, next, _, count, _⟩ := flushLeaf_written wrote left (by omega)
    refine ⟨leaves ++ [writer.leaf], whole, ⟨pos, ?_, ?_, ?_⟩, ?_, ?_⟩
    · intro k known inner
      rw [length_append, length_singleton] at inner
      rw [getElem_append_left (lt_of_succ_lt_succ inner)]
      exact adding.full _ (getElem_mem _)
    · exact forall_mem_append.mpr ⟨fun leaf old => (adding.full leaf old).le,
        forall_mem_singleton.mpr short.le⟩
    · refine forall_mem_append.mpr ⟨fun leaf old => ?_, forall_mem_singleton.mpr left⟩
      exact ne_nil_of_length_pos ((adding.full leaf old).symm ▸ pos)
    · rw [length_append, length_singleton]
      exact space
    · rw [finish_eq flush next wrote.open_still nonzero (by rw [count, adding.count, whole]), whole]

end

section
variable {leaves : List (List Point)}

theorem length_metaHeader (leafCount maxPointsPerLeaf pointCount : Nat) :
    (metaHeader leafCount maxPointsPerLeaf pointCount).length = fixedHeaderSize := by
  simp [metaHeader, fixedHeaderSize]

theorem length_directory : (directory codec opts leaves).length =
    leaves.length * 8 * 2 + (leaves.length + 1) * 8 := by
  rw [directory, length_append, length_append,
    length_flatMap (fun _ => length_spell 8 _), length_flatMap (fun _ => length_spell 8 _),
    length_flatMap (fun _ => length_spell 8 _), length_range]
  omega

def directoryPlace (codec : NumericCodec) (options : Options) (head : Bytes)
    (leaves : List (List Point)) : Nat :=
  (head.length + metaOff codec options leaves + fixedHeaderSize + 7) / 8 * 8

theorem offset_zero : offset codec opts leaves 0 = 0 := rfl

theorem offset_length : offset codec opts leaves leaves.length = metaOff codec opts leaves := by
  rw [offset, take_length, metaOff]

theorem offset_succ (known : k < leaves.length) : offset codec opts leaves (k + 1) =
      offset codec opts leaves k + (leafBytes codec opts leaves[k]).length :=
  length_take_succ _ known

theorem offset_lt (codes : RoundTrips codec) (sound : ∀ leaf ∈ leaves, Sound leaf)
    (few : leaves.length < 2 ^ 32) (known : k ≤ leaves.length) :
    offset codec opts leaves k < 2 ^ 64 := by
  have steps : offset codec opts leaves k ≤ k * 2 ^ 22 :=
    length_take_le (fun leaf mem => (leafBytes_lt codes (sound leaf mem) opts).le) known
  omega

structure Opened (codec : NumericCodec) (options : Options) (head : Bytes)
    (leaves : List (List Point)) (file : Bytes) : Prop where
  leafPlace : ∃ rest, file.drop head.length = leaves.flatMap (leafBytes codec options) ++ rest
  headerPlace : ∃ rest, file.drop (head.length + metaOff codec options leaves) =
    metaHeader leaves.length options.maxPointsPerLeaf leaves.flatten.length ++ rest
  directoryPlaced : ∃ rest, file.drop (directoryPlace codec options head leaves) =
    directory codec options leaves ++ rest
  headerInside : head.length + metaOff codec options leaves + fixedHeaderSize ≤ file.length
  directoryInside : directoryPlace codec options head leaves + (leaves.length * 8 * 2 +
    (leaves.length + 1) * 8) ≤ file.length

theorem image_opened (head tail : Bytes) :
    Opened codec opts head leaves (image codec opts head leaves ++ tail) := by
  have parts := align_parts (rfl : _ = image codec opts head leaves ++ tail)
  rw [length_metaHeader, length_directory] at parts
  obtain ⟨leafPlace, headerPlace, directoryPlaced, headerInside, directoryInside⟩ := parts
  exact ⟨leafPlace, headerPlace, directoryPlaced, headerInside, directoryInside⟩

variable {head file : Bytes} (opened : Opened codec opts head leaves file)
include opened

theorem least_read (known : k < leaves.length) :
    load 8 file (directoryPlace codec opts head leaves + k * 8) =
      wrap 64 (front leaves[k]).value := by
  obtain ⟨_, wrote⟩ := opened.directoryPlaced
  rw [directory, append_assoc] at wrote
  rw [load_spell (drop_records (fun _ => length_spell 8 _) wrote known)]
  exact mod_eq_of_lt (wrap_lt _)

theorem greatest_read (known : k < leaves.length) :
    load 8 file (directoryPlace codec opts head leaves + leaves.length * 8 + k * 8) =
      wrap 64 (back leaves[k]).value := by
  obtain ⟨_, wrote⟩ := opened.directoryPlaced
  rw [directory, append_assoc, append_assoc] at wrote
  have past := drop_past wrote (congrArg _ (length_flatMap (fun _ => length_spell 8 _) leaves))
  rw [load_spell (drop_records (fun _ => length_spell 8 _) past known)]
  exact mod_eq_of_lt (wrap_lt _)

theorem pointer_read (known : k ≤ leaves.length) (small : offset codec opts leaves k < 2 ^ 64) :
    load 8 file (directoryPlace codec opts head leaves + leaves.length * 8 + leaves.length * 8 +
      k * 8) = offset codec opts leaves k := by
  obtain ⟨_, wrote⟩ := opened.directoryPlaced
  rw [directory, append_assoc, append_assoc] at wrote
  have fixed := length_flatMap (fun leaf : List Point => length_spell 8 (wrap 64 (front leaf).value))
    leaves
  have past := drop_past wrote (congrArg _ fixed)
  have last := drop_past past (congrArg _ (length_flatMap (fun _ => length_spell 8 _) leaves))
  have lt : k < (range (leaves.length + 1)).length := by
    rw [length_range]
    omega
  rw [load_spell (drop_records (fun _ => length_spell 8 _) last lt), getElem_range]
  exact mod_eq_of_lt small

theorem ofFile_eq (few : leaves.length < 2 ^ 32) (filled : leaves ≠ [])
    (cut : Leaves opts.maxPointsPerLeaf leaves) (size : opts.maxPointsPerLeaf < 65536)
    (points : leaves.flatten.length < 2 ^ 64)
    (offsets : ∀ k ≤ leaves.length, offset codec opts leaves k < 2 ^ 64)
    (pos : 0 < metaOff codec opts leaves) :
    Reader.ofFile file head.length (metaOff codec opts leaves) =
      .ok ⟨file, head.length, metaOff codec opts leaves, leaves.flatten.length, leaves.length,
        opts.maxPointsPerLeaf, directoryPlace codec opts head leaves,
        directoryPlace codec opts head leaves + leaves.length * 8,
        directoryPlace codec opts head leaves + leaves.length * 8 + leaves.length * 8⟩ := by
  obtain ⟨_, header⟩ := opened.headerPlace
  have headerInside := opened.headerInside
  have directoryInside := opened.directoryInside
  have count : 0 < leaves.length := length_pos_of_ne_nil filled
  have filled : 0 < leaves.flatten.length := by
    refine length_pos_of_ne_nil fun empty => ?_
    have first := getElem_mem count
    exact cut.nonempty _ first (flatten_eq_nil_iff.mp empty _ first)
  have firstPointer := pointer_read opened (zero_le _) (offsets 0 (zero_le _))
  have lastPointer := pointer_read opened le_rfl (offsets _ le_rfl)
  rw [zero_mul, add_zero, offset_zero] at firstPointer
  rw [offset_length] at lastPointer
  simp only [metaHeader, append_assoc] at header
  have four := drop_word header
  have six := drop_word four
  have seven := drop_word six
  have eight := drop_past seven (congrArg _ (length_spell 1 0x11))
  have twelve := drop_word eight
  have sixteen := drop_word twelve
  have eighteen := drop_word sixteen
  have twenty := drop_word eighteen
  have reserved : load 1 file (head.length + metaOff codec opts leaves + 7) = 0x11 % 256 ^ 1 :=
    load_spell seven
  have leavesCount : load 4 file (head.length + metaOff codec opts leaves + 12) = leaves.length :=
    (load_spell twelve).trans (mod_eq_of_lt few)
  have leafSizeMax : load 2 file (head.length + metaOff codec opts leaves + 16) =
      opts.maxPointsPerLeaf := (load_spell sixteen).trans (mod_eq_of_lt size)
  have pointsCount : load 8 file (head.length + metaOff codec opts leaves + 20) =
      leaves.flatten.length := (load_spell twenty).trans (mod_eq_of_lt points)
  unfold Reader.ofFile
  rw [if_neg (by omega), if_neg (by omega), Int.toNat_natCast, if_neg (by omega)]
  dsimp only
  rw [if_neg (by omega), if_neg (by rw [load_spell header]; decide),
    if_neg (by rw [load_spell four]; decide), if_neg (by rw [load_spell six]; decide),
    if_neg (by rw [reserved]; decide), if_neg (by rw [load_spell eight]; decide),
    if_neg (by rw [load_spell eighteen]; decide)]
  rw [leavesCount, leafSizeMax, pointsCount, if_neg (by omega), if_neg (ne_of_gt cut.positive),
    if_neg (by omega)]
  unfold directoryPlace at directoryInside firstPointer lastPointer ⊢
  rw [if_neg (by omega), firstPointer, if_neg (by simp), lastPointer, if_neg (by simp)]

omit opened in
theorem metaOff_pos (filled : leaves ≠ []) : 0 < metaOff codec opts leaves := by
  cases leaves with
  | nil => exact absurd rfl filled
  | cons leaf =>
    have header := length_leafHeader opts leaf (encodeDocs codec opts leaf)
    rw [leafHeaderSize] at header
    rw [metaOff, flatMap_cons, length_append, leafBytes, length_append]
    omega

omit opened in
theorem sound_leaves {size : Nat} (cut : Leaves size leaves) (narrow : size < 65536)
    (fits : ∀ point ∈ leaves.flatten, Fits point) (sorted : leaves.flatten.Pairwise Before) :
    ∀ leaf ∈ leaves, Sound leaf := by
  intro leaf mem
  have part := sublist_flatten_of_mem mem
  exact ⟨cut.nonempty leaf mem, (cut.short leaf mem).trans_lt narrow,
    fun point lt => fits point (part.mem lt), sorted.sublist part⟩

theorem opened_holds (codes : RoundTrips codec) (few : leaves.length < 2 ^ 32) (filled : leaves ≠ [])
    (cut : Leaves opts.maxPointsPerLeaf leaves) (size : opts.maxPointsPerLeaf < 65536)
    (points : leaves.flatten.length < 2 ^ 64) (fits : ∀ point ∈ leaves.flatten, Fits point)
    (sorted : leaves.flatten.Pairwise Before) :
    ∃ reader, Reader.ofFile file head.length (metaOff codec opts leaves) = .ok reader ∧
      reader.leafSizeMax = opts.maxPointsPerLeaf ∧ Holds codec opts reader leaves := by
  have sound := sound_leaves cut size fits sorted
  have offsets : ∀ k ≤ leaves.length, offset codec opts leaves k < 2 ^ 64 :=
    fun k known => offset_lt codes sound few known
  refine ⟨_, ofFile_eq opened few filled cut size points offsets (metaOff_pos filled), rfl, cut, rfl,
    rfl, sorted, ?_, ?_, ?_, ?_⟩
  all_goals intro k known
  · have first := fits _ (mem_flatten_of_mem (getElem_mem known)
      (front_mem (cut.nonempty _ (getElem_mem known))))
    show signed 64 (load 8 file _) = _
    rw [least_read opened known]
    exact signed_wrap first.lower first.upper
  · have last := fits _ (mem_flatten_of_mem (getElem_mem known)
      (back_mem (cut.nonempty _ (getElem_mem known))))
    show signed 64 (load 8 file _) = _
    rw [greatest_read opened known]
    exact signed_wrap last.lower last.upper
  · obtain ⟨rest, wrote⟩ := opened.leafPlace
    have place := pointer_read opened known.le (offsets k known.le)
    have found := drop_record _ wrote known
    rw [← offset, ← place] at found
    exact ⟨sound _ (getElem_mem known), _, found⟩
  · show load 8 file _ = load 8 file _ + _
    rw [pointer_read opened known (offsets (k + 1) known),
      pointer_read opened known.le (offsets k known.le), offset_succ known]

end

variable {size : Nat} {leaves : List (List Point)}

theorem flatten_split (known : k < leaves.length) :
    leaves.flatten = (leaves.take k).flatten ++ (leaves[k] ++ (leaves.drop (k + 1)).flatten) := by
  conv_lhs => rw [← take_append_drop k leaves, drop_eq_getElem_cons known]
  rw [flatten_append, flatten_cons]

variable (cut : Leaves size leaves)
include cut

theorem Leaves.start (known : k < leaves.length) : (leaves.take k).flatten.length = k * size := by
  rw [length_flatten_full, length_take, min_eq_left known.le]
  intro leaf mem
  obtain ⟨j, lt, rfl⟩ := mem_take_iff_getElem.mp mem
  exact cut.full j _ (by omega)

theorem Leaves.point {i : Nat} (known : k < leaves.length) (lt : i < leaves[k].length) :
    leaves.flatten[k * size + i]? = some leaves[k][i] := by
  rw [flatten_split known, ← cut.start known, getElem?_append_right (Nat.le_add_right _ _),
    Nat.add_sub_cancel_left, getElem?_append_left lt, getElem?_eq_getElem lt]

theorem Leaves.next (known : k < leaves.length) :
    min leaves.flatten.length (k * size + size) = k * size + leaves[k].length := by
  have total := congrArg length (flatten_split known)
  rw [length_append, length_append, cut.start known] at total
  by_cases inner : k + 1 < leaves.length
  · have full := cut.full k known inner
    omega
  · have ended : leaves.drop (k + 1) = [] := drop_of_length_le (by omega)
    have short := cut.short _ (getElem_mem known)
    rw [ended, flatten_nil, length_nil] at total
    omega

theorem Leaves.length_le : leaves.flatten.length ≤ leaves.length * size := by
  have bound : ∀ length ∈ leaves.map List.length, length ≤ size := by
    refine forall_mem_map.mpr fun leaf known => ?_
    exact cut.short leaf known
  have total := sum_le_card_nsmul _ size bound
  rwa [length_map, ← length_flatten] at total

theorem Leaves.place {ordinal : Nat} (known : ordinal < leaves.flatten.length) :
    ∃ k, ∃ lt : k < leaves.length, ∃ i, i < leaves[k].length ∧ ordinal = k * size + i := by
  have split := div_add_mod' ordinal size
  have short := mod_lt ordinal cut.positive
  have lt : ordinal / size < leaves.length := by
    rw [div_lt_iff_lt_mul cut.positive]
    exact known.trans_le cut.length_le
  have past := cut.next lt
  exact ⟨ordinal / size, lt, ordinal % size, by omega, split.symm⟩

end Luxir.Points.PointsFile
