import Luxir.Points.PointsFile

/-!
The documents of a stretch of ordinals. A leaf reports them as a run, as words of its bitmap or one
by one, whole or from one place to another.
-/

namespace Luxir.Points.DocEmission
open Lib.Bits Lib.BitLists Lib.Bytes Lib.Folds Lib.Words PointsWriter PointsReader LeafCoding List
open Nat
  LeafReading PointsFile

variable {wordAt : Nat → Nat} {codec : NumericCodec} {opts : Options} {reader : Reader}

theorem testBit_maskedWord {firstBit endBit i word bit : Nat} (short : bit < 64) :
    (maskedWord firstBit endBit i word).testBit bit = true ↔
      word.testBit bit = true ∧ (i = firstBit / 64 → firstBit % 64 ≤ bit) ∧
        (i = (endBit - 1) / 64 → endBit % 64 ≠ 0 → bit < endBit % 64) := by
  have lower : (if i = firstBit / 64 then word &&& complement (maskBits (firstBit % 64))
      else word).testBit bit = true ↔
      word.testBit bit = true ∧ (i = firstBit / 64 → firstBit % 64 ≤ bit) := by
    split_ifs with first
    · rw [testBit_above (by omega), Bool.and_eq_true, decide_eq_true_eq]
      simp [first, short]
    · simp [first]
  unfold maskedWord
  rw [← and_assoc, ← lower]
  by_cases last : i = (endBit - 1) / 64 ∧ endBit % 64 ≠ 0
  · rw [if_pos last, and_maskBits _ (by omega), testBit_mod_two_pow, Bool.and_eq_true,
      decide_eq_true_eq, and_comm]
    refine and_congr_right fun _ => ⟨fun below _ _ => below, fun below => below last.1 last.2⟩
  · rw [if_neg last]
    exact (and_iff_left fun here nonzero => absurd ⟨here, nonzero⟩ last).symm

theorem wordsBits_masked {firstBit endBit count : Nat} (order : firstBit < endBit)
    (lt : endBit ≤ count * 64) :
    wordsBits (fun i => maskedWord firstBit endBit i (wordAt i)) (firstBit / 64)
        ((endBit - 1) / 64 + 1 - firstBit / 64) =
      (wordsBits wordAt 0 count).filter fun place => firstBit ≤ place ∧ place < endBit := by
  refine Ascending.ext (wordsBits_ascending _ _)
    (List.Pairwise.filter _ (wordsBits_ascending 0 count)) fun place => ?_
  rw [mem_filter, mem_wordsBits, mem_wordsBits, decide_eq_true_eq,
    testBit_maskedWord (mod_lt _ (by omega))]
  constructor
  · rintro ⟨lower, upper, set, low, high⟩
    refine ⟨⟨zero_le _, by omega, set⟩, ?_, ?_⟩ <;> omega
  · rintro ⟨⟨_, upper, set⟩, low, high⟩
    refine ⟨by omega, by omega, set, ?_, ?_⟩ <;> omega

variable {first last docScratch : Nat}

section
variable {leafIndex : Nat} {leaf : List Point}

theorem emitWord_docids (small : wordBase < 2 ^ 31) (wordIndex word : Nat) :
    (emitWord wordBase wordIndex word).flatMap Emitted.docids =
      ((setBits word).map fun place => wordIndex * 64 + place).map
        fun place => ((wordBase * 64 + place : Nat) : Int) := by
  have base : signed 32 wordBase = wordBase := by
    rw [signed, if_pos small]
  unfold emitWord
  by_cases zero : word = 0
  · rw [if_neg (not_not.mpr zero), zero, setBits_zero]
    rfl
  rw [if_pos zero, flatMap_singleton, Emitted.docids, base, map_map, setBits]
  refine map_congr_left fun bit _ => ?_
  dsimp only [Function.comp_apply]
  push_cast
  ring

theorem emitWords_docids (small : wordBase < 2 ^ 31) (first count : Nat)
    {reported : Nat → Nat} (words : ∀ i, first ≤ i → i < first + count → reported i = wordAt i) :
    ((range' first count).flatMap fun i => emitWord wordBase i (reported i)).flatMap
        Emitted.docids =
      (wordsBits wordAt first count).map fun place => ((wordBase * 64 + place : Nat) : Int) := by
  rw [flatMap_assoc, wordsBits, map_flatMap]
  refine flatMap_congr fun i mem => ?_
  obtain ⟨lower, upper⟩ := mem_range'_1.mp mem
  rw [words i lower upper, emitWord_docids small]

theorem selectWords_eq {rounds wordIndex remaining : Nat}
    (words : ∀ i, wordIndex ≤ i → i < wordIndex + rounds → payloadWord reader leafIndex i = wordAt i)
    (small : ∀ i, wordAt i < 2 ^ 64)
    (known : remaining < (wordsBits wordAt wordIndex rounds).length) :
    selectWords reader leafIndex rounds wordIndex remaining =
      .ok (wordsBits wordAt wordIndex rounds)[remaining] := by
  induction rounds generalizing wordIndex remaining with
  | zero => exact absurd known (not_lt_zero _)
  | succ rounds ih =>
    have bits := wordsBits_cons wordAt wordIndex rounds
    have size : ((setBits (wordAt wordIndex)).map fun place => wordIndex * 64 + place).length =
        popcount (wordAt wordIndex) := by
      rw [length_map, length_setBits]
    unfold selectWords
    rw [words wordIndex le_rfl (by omega)]
    dsimp only
    split_ifs with here
    · have within : remaining < (setBits (wordAt wordIndex)).length := by
        rw [length_setBits]
        exact here
      simp only [bits]
      have skipped := setBits_select (fun word r => countrZero (clearBits r word))
        (fun _ => rfl) (fun _ _ => rfl) (small wordIndex) within
      rw [getElem_append_left (size ▸ here), getElem_map, skipped]
    · have total := known
      rw [bits, length_append, size] at total
      rw [ih (fun i lower upper => words i (by omega) (by omega)) (by omega)]
      simp only [bits]
      rw [getElem_append_right (by omega)]
      simp only [size]

def leafWord (leaf : List Point) (i : Nat) : Nat := (docWords leaf).getD i 0

def leafBits (leaf : List Point) : List Nat := wordsBits (leafWord leaf) 0 (docWords leaf).length

theorem leafBits_docids (rising : Ascending (docids leaf)) :
    (leafBits leaf).map (fun place => docBase leaf / 64 * 64 + place) = docids leaf :=
  wordsBits_docWords rising

theorem length_leafBits (rising : Ascending (docids leaf)) :
    (leafBits leaf).length = leaf.length := by
  rw [← length_docids leaf, ← leafBits_docids rising, length_map]

def part (leaf : List Point) (first last : Nat) : List Int :=
  (((docids leaf).drop first).take (last - first)).map fun doc : Nat => (doc : Int)

theorem part_bits (rising : Ascending (docids leaf)) (first last : Nat) :
    part leaf first last = (((leafBits leaf).drop first).take (last - first)).map
      fun place => ((docBase leaf / 64 * 64 + place : Nat) : Int) := by
  rw [part]
  conv_lhs => rw [← leafBits_docids rising]
  rw [← map_drop, ← map_take, map_map]
  rfl

theorem docBase_div_lt (sound : Sound leaf) : docBase leaf / 64 < 2 ^ 31 := by
  have mem : (front leaf).docid.toNat ∈ docids leaf := mem_map_of_mem (front_mem sound.nonempty)
  have least := docBase_le mem
  have bound := docid_lt sound.fits mem
  omega

variable (codes : RoundTrips codec) (kept : LeafAt codec opts reader leafIndex leaf)
include codes kept

section
variable (rising : Ascending (docids leaf))
  (bitmap : encodeDocs codec opts leaf = ⟨docBitset, 0, (docWords leaf).flatMap (spell 8)⟩)
include rising bitmap

theorem selectBit_eq (known : first < (leafBits leaf).length) :
    selectBit reader leafIndex first = .ok (leafBits leaf)[first] := by
  have info := leafInfo_eq codes kept
  have count := length_leafBits rising
  unfold selectBit
  rw [info, bitmap]
  dsimp only
  rw [if_neg (by omega), length_flatMap (length_spell 8), Nat.mul_div_cancel _ (by decide)]
  refine selectWords_eq (fun i _ lt => ?_) (docWords_lt leaf) known
  exact payloadWord_eq kept bitmap (by omega)

omit rising in
theorem selectBit_end :
    selectBit reader leafIndex leaf.length = .ok ((docWords leaf).length * 64) := by
  have info := leafInfo_eq codes kept
  unfold selectBit
  rw [info, bitmap]
  rw [if_pos rfl, length_flatMap (length_spell 8), Nat.mul_div_cancel _ (by decide)]

theorem selectBit_last (bound : last ≤ leaf.length) :
    ∃ endBit, selectBit reader leafIndex last = .ok endBit ∧ endBit ≤ (docWords leaf).length * 64 ∧
      ∀ i (known : i < (leafBits leaf).length), (leafBits leaf)[i] < endBit ↔ i < last := by
  have count := length_leafBits rising
  have order : Ascending (leafBits leaf) := wordsBits_ascending _ _
  have lt : ∀ place ∈ leafBits leaf, place < (docWords leaf).length * 64 := by
    intro place mem
    obtain ⟨_, upper, _⟩ := mem_wordsBits.mp mem
    omega
  rcases bound.eq_or_lt with rfl | short
  · refine ⟨_, selectBit_end codes kept bitmap, le_rfl, fun i known => ?_⟩
    exact iff_of_true (lt _ (getElem_mem known)) (count ▸ known)
  · have known : last < (leafBits leaf).length := count.symm ▸ short
    exact ⟨_, selectBit_eq codes kept rising bitmap known,
      (lt _ (getElem_mem known)).le, fun i here => order.getElem_lt here known⟩

theorem emitBits_eq (order : first < last) (bound : last ≤ leaf.length) :
    ∃ emitted, emitBits reader leafIndex first last = .ok emitted ∧
      emitted.flatMap Emitted.docids = part leaf first last := by
  have count := length_leafBits rising
  have small := docBase_div_lt kept.sound
  have words : ∀ i < (docWords leaf).length,
      payloadWord reader leafIndex i = leafWord leaf i := fun i lt =>
    payloadWord_eq kept bitmap lt
  unfold emitBits
  rw [leafInfo_eq codes kept, bitmap]
  by_cases whole : first = 0 ∧ last = leaf.length
  · rw [if_pos whole, length_flatMap (length_spell 8), Nat.mul_div_cancel _ (by decide),
      range_eq_range']
    refine ⟨_, rfl, ?_⟩
    rw [emitWords_docids small 0 _ fun i _ lt => words i (by omega), part_bits rising, whole.1,
      whole.2, drop_zero, Nat.sub_zero, take_of_length_le count.le]
    rfl
  · have known : first < (leafBits leaf).length := by omega
    obtain ⟨endBit, found, lt, upper⟩ := selectBit_last codes kept rising bitmap bound
    have ascends : Ascending (leafBits leaf) := wordsBits_ascending _ _
    have lower : ∀ i (here : i < (leafBits leaf).length),
        (leafBits leaf)[first] ≤ (leafBits leaf)[i] ↔ first ≤ i := fun i here => by
      rw [← not_lt, ascends.getElem_lt here known, not_lt]
    have before := (upper first known).mpr order
    rw [if_neg whole, selectBit_eq codes kept rising bitmap known, ok_bind, found, ok_bind]
    refine ⟨_, rfl, ?_⟩
    rw [part_bits rising, ← ascends.filter_between order.le lower upper]
    have masked : wordsBits (fun i => maskedWord (leafBits leaf)[first] endBit i (leafWord leaf i))
        ((leafBits leaf)[first] / 64) ((endBit - 1) / 64 + 1 - (leafBits leaf)[first] / 64) =
        (leafBits leaf).filter fun place => (leafBits leaf)[first] ≤ place ∧ place < endBit :=
      wordsBits_masked before lt
    rw [← masked]
    refine emitWords_docids small _ _ fun i past within => ?_
    rw [words i (by omega)]

end

omit codes kept in
theorem part_eq (bound : last ≤ leaf.length) {reported : Nat → Int}
    (each : ∀ i (known : i < (docids leaf).length), first ≤ i → i < last →
      reported i = (docids leaf)[i]) :
    (range' first (last - first)).map reported = part leaf first last := by
  have size := length_docids leaf
  apply ext_getElem
  · rw [part, length_map, length_range', length_map, length_take, length_drop]
    omega
  · intro i one two
    rw [length_map, length_range'] at one
    simp only [part, getElem_map, getElem_range', getElem_take, getElem_drop, one_mul]
    exact each (first + i) (by omega) (by omega) (by omega)

omit codes kept in
theorem emitRun_docids (whole : contiguous leaf = true) (order : first < last)
    (bound : last ≤ leaf.length) (below : ∀ doc ∈ docids leaf, doc < 2 ^ 31 - 1) :
    Emitted.docids (.run (signed 32 ((docBase leaf + first) % 2 ^ 32))
      (signed 32 ((docBase leaf + last) % 2 ^ 32))) = part leaf first last := by
  have each : ∀ i (known : i < (docids leaf).length), (docids leaf)[i] = docBase leaf + i := by
    intro i known
    simp only [contiguous_eq whole, getElem_map, getElem_range]
  have least : last - 1 < (docids leaf).length := by
    rw [length_docids]
    omega
  have most := below _ (getElem_mem least)
  rw [each] at most
  have begins : signed 32 ((docBase leaf + first) % 2 ^ 32) = docBase leaf + first := by
    rw [mod_eq_of_lt (by omega), signed, if_pos (show _ < 2 ^ 31 by omega), cast_add]
  have ends : signed 32 ((docBase leaf + last) % 2 ^ 32) = docBase leaf + last := by
    rw [mod_eq_of_lt (by omega), signed, if_pos (show _ < 2 ^ 31 by omega), cast_add]
  have size : (docBase leaf + last - (docBase leaf + first) : Int).toNat = last - first := by omega
  have listed : (range' first (last - first)).map (fun i : Nat => (docBase leaf + i : Int)) =
      part leaf first last := part_eq bound fun i known _ _ => by rw [each i known, cast_add]
  rw [Emitted.docids, begins, ends, size, ← listed, range'_eq_map_range, map_map]
  refine map_congr_left fun i _ => ?_
  dsimp only [Function.comp_apply]
  push_cast
  ring

theorem emitDocids_eq (order : first ≤ last) (bound : last ≤ leaf.length)
    (scratch : leaf.length ≤ docScratch) (below : ∀ point ∈ leaf, point.docid < 2 ^ 31 - 1) :
    ∃ emitted, emitDocids codec reader leafIndex first last docScratch = .ok emitted ∧
      emitted.flatMap Emitted.docids = part leaf first last := by
  have info := leafInfo_eq codes kept
  unfold emitDocids
  rw [info]
  dsimp only
  rw [if_neg (by omega)]
  split
  · rename_i empty
    refine ⟨[], rfl, ?_⟩
    rw [part, empty, Nat.sub_self, take_zero]
    rfl
  · rcases encodeDocs_cases codec opts leaf with ⟨whole, form⟩ | ⟨rising, form⟩ | form
    · rw [form, if_pos rfl]
      refine ⟨_, rfl, ?_⟩
      rw [flatMap_singleton]
      exact emitRun_docids whole (by omega) bound fun doc mem => by
        obtain ⟨point, known, rfl⟩ := mem_map.mp mem
        have less := below point known
        omega
    · rw [form, if_neg (show docBitset ≠ docContig by decide), if_pos rfl]
      exact emitBits_eq codes kept rising form (by omega) bound
    · obtain ⟨rest, wrote⟩ := payload_docs kept
      have decoded := decodeFor_eq codes kept.sound.fits form wrote
      rw [form] at decoded ⊢
      rw [if_neg (show docFor ≠ docContig by decide), if_neg (show docFor ≠ docBitset by decide),
        if_neg (not_not.mpr rfl), if_neg (by omega), decoded]
      have restored : ∀ i (known : i < (docids leaf).length),
          docBase leaf + (docResiduals leaf).getD i 0 = (docids leaf)[i] := by
        intro i known
        simp only [← restore_docs leaf, getElem_map]
        rw [getD_eq_getElem?_getD, getElem?_eq_getElem, Option.getD_some]
      have fits := kept.sound.fits
      refine ⟨_, foldlM_append_map (fun i => Emitted.doc
        ((docBase leaf + (docResiduals leaf).getD i 0 : Nat) : Int)) _ ?_ [], ?_⟩
      · intro done i mem
        obtain ⟨lower, upper⟩ := mem_range'_1.mp mem
        have known : i < (docids leaf).length := by
          rw [length_docids]
          omega
        have small := docid_lt fits (getElem_mem known)
        rw [restored i known, if_neg (by omega)]
      · rw [nil_append, flatMap_map]
        exact map_eq_flatMap.symm.trans
          (part_eq bound fun i known _ _ => congrArg _ (restored i known))

end

variable {leaves : List (List Point)}

theorem part_points {leaf : List Point} (sound : Sound leaf) (first last : Nat) :
    part leaf first last = ((leaf.drop first).take (last - first)).map Point.docid := by
  rw [part, docids, ← map_drop, ← map_take, map_map]
  refine map_congr_left fun point mem => ?_
  have known := mem_of_mem_drop (mem_of_mem_take mem)
  exact Int.toNat_of_nonneg (sound.fits point known).nonneg

theorem stretch_leaf {size k : Nat} (cut : Leaves size leaves) (known : k < leaves.length)
    (order : first ≤ last) (bound : last ≤ leaves[k].length) :
    (leaves.flatten.drop (k * size + first)).take (last - first) =
      (leaves[k].drop first).take (last - first) := by
  rw [flatten_split known, ← cut.start known, ← drop_drop, drop_left,
    drop_append_of_le_length (order.trans bound), take_append_of_le_length]
  rw [length_drop]
  omega

theorem stretch_split {points : List Point} {mid : Nat} (one : first ≤ mid)
    (two : mid ≤ last) : (points.drop first).take (last - first) =
      (points.drop first).take (mid - first) ++ (points.drop mid).take (last - mid) := by
  have sizes : last - first = (mid - first) + (last - mid) := by omega
  have place : first + (mid - first) = mid := by omega
  rw [sizes, take_add, drop_drop, place]

variable (codes : RoundTrips codec) (holds : Holds codec opts reader leaves)
include codes holds

theorem emitParts_eq {rounds : Nat} (enough : last - first ≤ rounds)
    (bound : last ≤ leaves.flatten.length) (scratch : reader.leafSizeMax ≤ docScratch)
    (below : ∀ point ∈ leaves.flatten, point.docid < 2 ^ 31 - 1) :
    ∃ emitted, emitParts codec reader docScratch last rounds first = .ok emitted ∧
      emitted.flatMap Emitted.docids =
        ((leaves.flatten.drop first).take (last - first)).map Point.docid := by
  fun_induction emitParts codec reader docScratch last rounds first with
  | case1 | case3 =>
    refine ⟨[], rfl, ?_⟩
    rw [Nat.sub_eq_zero_of_le (by omega), take_zero]
    rfl
  | case2 rounds first more leafIndex leafStart partEnd ih =>
    obtain ⟨k, known, i, lt, place⟩ := holds.cut.place (more.trans_le bound)
    have size := holds.cut.short _ (getElem_mem known)
    have index : leafIndex = k := by
      show first / reader.leafSizeMax = k
      rw [place, mul_comm, Nat.mul_add_div holds.cut.positive, Nat.div_eq_of_lt (by omega),
        add_zero]
    have start : leafStart = k * reader.leafSizeMax := congrArg (· * _) index
    have ends : partEnd = min last (leafStart + leaves[k].length) := by
      show min last (min reader.pointsCount (leafStart + reader.leafSizeMax)) = _
      rw [holds.points, start, holds.cut.next known]
    have within : ∀ point ∈ leaves[k], point.docid < 2 ^ 31 - 1 := fun point mem =>
      below point (mem_flatten_of_mem (getElem_mem known) mem)
    have past : first - leafStart = i := by omega
    obtain ⟨emitted, found, docs⟩ := emitDocids_eq codes (holds.stored k known)
      (show i ≤ partEnd - leafStart by omega) (by omega) (size.trans scratch) within
    obtain ⟨rest, loop, others⟩ := ih (by omega)
    rw [index, past, found, ok_bind, loop, ok_bind]
    refine ⟨_, rfl, ?_⟩
    have sizes : partEnd - leafStart - i = partEnd - first := by omega
    rw [flatMap_append, docs, others, part_points (holds.stored k known).sound,
      ← stretch_leaf holds.cut known (by omega) (by omega), ← place, ← map_append, sizes,
      ← stretch_split (by omega) (by omega)]

theorem emitOrdinalRange_eq (order : first ≤ last) (bound : last ≤ leaves.flatten.length)
    (scratch : reader.leafSizeMax ≤ docScratch)
    (below : ∀ point ∈ leaves.flatten, point.docid < 2 ^ 31 - 1) :
    ∃ emitted, emitOrdinalRange codec reader first last docScratch = .ok emitted ∧
      emitted.flatMap Emitted.docids =
        ((leaves.flatten.drop first).take (last - first)).map Point.docid := by
  unfold emitOrdinalRange
  rw [holds.points, if_neg (by omega)]
  exact emitParts_eq codes holds le_rfl bound scratch below

end Luxir.Points.DocEmission
