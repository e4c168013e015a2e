import Luxir.Reader.RunReader

/-!
What the searches in stored runs find. A list of runs is stored in blocks of 256; whichever way a
block and a run in it are found, and whatever hint the search starts from, it ends on the run of
the document.
-/

namespace Luxir.Reader.BlockReads
open Lib.Words Codec.NumColumn RunList RunReader Util.Gallop Nat
open Codec.NumColumnFormat (blockSize)
open VersionBlock List

structure RunOf (runs : List VersionRun) (doc index : Nat) : Prop where
  inside : index < runs.length
  started : runs[index].firstDocId ≤ doc
  ended : ∀ more : index + 1 < runs.length, doc < runs[index + 1].firstDocId

variable {runs : List VersionRun}
  {index doc place : Nat} {affine : VersionAffinePrefix} {block : VersionBlock} {whole : Nat}

section
variable {start : Nat → Nat} {count : Nat}

theorem search_back {hint : Nat}
    (rising : ∀ first second, first < second → second < count → start first < start second)
    (begun : start 0 ≤ doc) (lt : hint < count) (before : doc < start hint) :
    let reverse := gallopLowerBound 0 (hint + 1) (-(doc : Int)) fun i => -(start (hint - i) : Int)
    1 ≤ reverse ∧ reverse ≤ hint ∧ start (hint - reverse) ≤ doc ∧
      doc < start (hint - reverse + 1) := by
  intro reverse
  have ascends : Ascends (fun i => -(start (hint - i) : Int)) 0 (hint + 1) := by
    intro first second _ order bound
    rcases Nat.eq_or_lt_of_le order with rfl | less
    · exact le_rfl
    · have smaller := rising (hint - second) (hint - first) (by omega) (by omega)
      dsimp only
      omega
  have splits : Splits (-(doc : Int)) (fun i => -(start (hint - i) : Int)) 0 (hint + 1) reverse :=
    gallopLowerBound_splits (by omega) ascends
  have pos : 1 ≤ reverse := by
    by_contra zero
    have first := splits.above 0 (by omega) (by omega)
    simp only [Nat.sub_zero] at first
    omega
  have bounded : reverse ≤ hint := by
    by_contra all
    have last := splits.below hint (by omega) (by omega)
    simp only [Nat.sub_self] at last
    omega
  have met := splits.above reverse le_rfl (by omega)
  have passed := splits.below (reverse - 1) (by omega) (by omega)
  have next : hint - (reverse - 1) = hint - reverse + 1 := by omega
  rw [next] at passed
  exact ⟨pos, bounded, by omega, by omega⟩

/-- Galloping in either direction ends on the last place that starts at or before the document. -/
theorem search_lands (hint : Nat) (pos : 0 < count)
    (rising : ∀ first second, first < second → second < count → start first < start second)
    (begun : start 0 ≤ doc) : search doc hint count start < count ∧
      start (search doc hint count start) ≤ doc ∧ (search doc hint count start + 1 < count →
        doc < start (search doc hint count start + 1)) := by
  unfold search
  dsimp only
  have lt : min hint (count - 1) < count := by omega
  generalize min hint (count - 1) = hint at *
  split_ifs with before
  · obtain ⟨_, bounded, met, passed⟩ := search_back rising begun lt before
    exact ⟨by omega, met, fun _ => passed⟩
  have ascends : Ascends start hint count := by
    intro first second _ order bound
    rcases Nat.eq_or_lt_of_le order with rfl | less
    · exact le_rfl
    · exact le_of_lt (rising first second less bound)
  have splits : Splits (doc + 1) start hint count (gallopLowerBound hint count (doc + 1) start) :=
    gallopLowerBound_splits lt.le ascends
  generalize gallopLowerBound hint count (doc + 1) start = position at *
  have upper := splits.le
  have later : hint < position := by
    by_contra stuck
    have above := splits.above hint (by omega) lt
    omega
  have below := splits.below (position - 1) (by omega) (by omega)
  refine ⟨by omega, by omega, fun more => ?_⟩
  have above := splits.above position le_rfl (by omega)
  rw [Nat.sub_add_cancel (by omega)]
  omega

end

structure BlockRuns (runs : List VersionRun) : Prop where
  nonempty : 0 < runs.length
  short : runs.length ≤ runsPerBlock
  increasing : runs.Pairwise fun earlier later => earlier.firstDocId < later.firstDocId
  small : ∀ run ∈ runs, run.firstDocId < 2 ^ 32

structure Reads (view : VersionBlock) (runs : List VersionRun) : Prop extends BlockRuns runs where
  count : view.count = runs.length
  first : view.firstDocId = runs[0].firstDocId
  even : view.step ≠ 0 → ∀ index (inside : index < runs.length),
    runs[index].firstDocId = view.firstDocId + index * view.step
  starts : view.step = 0 → Holds view.starts (runs.map fun run => Int64.ofInt run.firstDocId)
  versions : Holds view.versions (runs.map fun run => run.version.toInt64)

section
variable {view : VersionBlock}

theorem toNat_start {first : Nat} (small : first < 2 ^ 32) :
    (Int64.ofInt first).toUInt64.toNat % 2 ^ 32 = first := by
  rw [toUInt64_ofInt, toNat_ofInt (by omega) (by omega)]
  omega

variable (reads : Reads view runs)
include reads

theorem Reads.start_eq (lt : index < runs.length) : view.start index = runs[index].firstDocId := by
  have small := reads.small _ (getElem_mem lt)
  unfold start
  split_ifs with regular
  · rw [← reads.even regular index lt]
    omega
  · rw [valueAt_eq (reads.starts (not_not.mp regular)) (by simpa using lt), getElem_map]
    exact toNat_start small

theorem Reads.version_eq (lt : index < runs.length) : view.version index = runs[index].version := by
  unfold version
  rw [valueAt_eq reads.versions (by simpa using lt), getElem_map, UInt64.toUInt64_toInt64]

theorem Reads.find_run (hint : Nat) (begun : view.firstDocId ≤ doc) :
    RunOf runs doc (view.find doc hint) := by
  have ne := reads.nonempty
  have first := reads.first
  unfold find
  rw [reads.count]
  split_ifs with regular
  · have lt : min ((doc - view.firstDocId) / view.step) (runs.length - 1) < runs.length := by
      omega
    have quotient := div_mul_le_self (doc - view.firstDocId) view.step
    refine ⟨lt, ?_, fun more => ?_⟩
    · rw [reads.even regular _ lt]
      have below := mul_le_mul_right view.step
        (min_le_left ((doc - view.firstDocId) / view.step) (runs.length - 1))
      omega
    · have exactly : min ((doc - view.firstDocId) / view.step) (runs.length - 1) =
          (doc - view.firstDocId) / view.step := by omega
      have next := reads.even regular _ more
      have beyond := lt_div_mul_add (a := doc - view.firstDocId) (pos_of_ne_zero regular)
      rw [next, exactly, add_mul, one_mul]
      omega
  · have rising : ∀ first second, first < second → second < runs.length →
        view.start first < view.start second := by
      intro first second less lt
      rw [reads.start_eq (by omega), reads.start_eq lt]
      exact starts_strict reads.increasing less lt
    have zero : view.start 0 ≤ doc := by
      rw [reads.start_eq ne]
      omega
    obtain ⟨lt, started, ended⟩ := search_lands hint ne rising zero
    rw [reads.start_eq lt] at started
    refine ⟨lt, started, fun more => ?_⟩
    rw [← reads.start_eq more]
    exact ended more

end

def chunk (runs : List VersionRun) (index : Nat) : List VersionRun :=
  (runs.drop (index * runsPerBlock)).take runsPerBlock

theorem runsPerBlock_pos : 0 < runsPerBlock := succ_pos 255

theorem length_chunk (runs : List VersionRun) (index : Nat) :
    (chunk runs index).length = min runsPerBlock (runs.length - index * runsPerBlock) := by
  simp [chunk]

theorem getElem_chunk
    (lt : place < (chunk runs index).length) (same : index * runsPerBlock + place = whole)
    (bound : whole < runs.length) : (chunk runs index)[place] = runs[whole] := by
  subst same
  simp [chunk]

theorem getElem?_of_chunk {run : VersionRun}
    (found : (chunk runs index)[place]? = some run) (same : index * runsPerBlock + place = whole) :
    runs[whole]? = some run := by
  unfold chunk at found
  rw [getElem?_take] at found
  split_ifs at found
  rwa [getElem?_drop, same] at found

structure Blocks (runs : List VersionRun) (numBlocks : Nat) (view : Nat → VersionBlock)
    (first : Nat → Nat) : Prop where
  total : runs.length ≤ numBlocks * runsPerBlock
  reads : ∀ index < numBlocks, Reads (view index) (chunk runs index)
  firsts : ∀ index < numBlocks, first index = (view index).firstDocId

variable {numBlocks : Nat} {view : Nat → VersionBlock} {first : Nat → Nat}

section
variable (blocks : Blocks runs numBlocks view first)
include blocks

theorem Blocks.begins (lt : index < numBlocks) : index * runsPerBlock < runs.length := by
  have ne := (blocks.reads index lt).nonempty
  rw [length_chunk] at ne
  omega

theorem Blocks.first_eq (lt : index < numBlocks) (bound : index * runsPerBlock < runs.length) :
    first index = runs[index * runsPerBlock].firstDocId := by
  rw [blocks.firsts index lt, (blocks.reads index lt).first, getElem_chunk _ (by omega) bound]

theorem Blocks.increasing (cover : Covering runs) {early later : Nat}
    (before : early < later) (lt : later < numBlocks) : first early < first later := by
  have bound := blocks.begins lt
  have scaled := mul_lt_mul_of_pos_right before runsPerBlock_pos
  rw [blocks.first_eq (by omega) (by omega), blocks.first_eq lt bound]
  exact starts_strict cover.increasing scaled bound

theorem Blocks.search_block (cover : Covering runs) (pos : 0 < numBlocks) (doc hint : Nat) :
    search doc hint numBlocks first < numBlocks ∧ first (search doc hint numBlocks first) ≤ doc ∧
      (search doc hint numBlocks first + 1 < numBlocks →
        doc < first (search doc hint numBlocks first + 1)) := by
  have bound := blocks.begins pos
  apply search_lands hint pos
  · intro early later before lt
    exact blocks.increasing cover before lt
  · rw [blocks.first_eq pos bound]
    simp only [zero_mul, cover.zero (by omega)]
    exact zero_le doc

theorem Blocks.dense_block
    (dense : ∀ index (lt : index < runs.length), runs[index].firstDocId = index)
    (pos : 0 < numBlocks) (doc : Nat) : min (doc / runsPerBlock) (numBlocks - 1) < numBlocks ∧
      first (min (doc / runsPerBlock) (numBlocks - 1)) ≤ doc ∧
      (min (doc / runsPerBlock) (numBlocks - 1) + 1 < numBlocks →
        doc < first (min (doc / runsPerBlock) (numBlocks - 1) + 1)) := by
  have start : ∀ index < numBlocks, first index = index * runsPerBlock := by
    intro index lt
    have bound := blocks.begins lt
    rw [blocks.first_eq lt bound, dense _ bound]
  refine ⟨by omega, ?_, fun more => ?_⟩
  · rw [start _ (by omega)]
    unfold runsPerBlock
    omega
  · rw [start _ more]
    unfold runsPerBlock at *
    omega

theorem Blocks.find_block (cover : Covering runs) {dense : Bool} (even : dense = true →
      ∀ index (lt : index < runs.length), runs[index].firstDocId = index)
    (pos : 0 < numBlocks) (doc hint : Nat) :
    let index := if dense then min (doc / runsPerBlock) (numBlocks - 1)
      else search doc hint numBlocks first
    index < numBlocks ∧ first index ≤ doc ∧ (index + 1 < numBlocks → doc < first (index + 1)) := by
  cases dense with
  | true => exact blocks.dense_block (even rfl) pos doc
  | false => exact blocks.search_block cover pos doc hint

theorem Blocks.find_run (hint : Nat) (lt : index < numBlocks) (begun : first index ≤ doc)
    (ended : index + 1 < numBlocks → doc < first (index + 1)) :
    (view index).find doc hint < (chunk runs index).length ∧
      RunOf runs doc (index * runsPerBlock + (view index).find doc hint) := by
  have reads := blocks.reads index lt
  have total := blocks.total
  rw [blocks.firsts index lt] at begun
  have found := reads.find_run hint begun
  have within := found.inside
  have started := found.started
  have later := found.ended
  generalize (view index).find doc hint = place at *
  have size := length_chunk runs index
  rw [getElem_chunk within rfl (by omega)] at started
  refine ⟨within, by omega, started, fun more => ?_⟩
  by_cases last : place + 1 < (chunk runs index).length
  · have next := later last
    rwa [getElem_chunk last (by omega) more] at next
  -- The block is full, and the next one begins with the next run.
  have full : index * runsPerBlock + place + 1 = (index + 1) * runsPerBlock := by
    rw [add_mul index 1]
    omega
  have another : index + 1 < numBlocks := by
    by_contra final
    have most := mul_le_mul_right runsPerBlock (not_lt.mp final)
    omega
  have next := ended another
  rw [blocks.first_eq another (by omega)] at next
  simp only [full]
  exact next

/-- The end of a run is the start of the next one, in this block or in the one after. -/
theorem Blocks.stop_eq (lt : index < numBlocks) (within : place < (chunk runs index).length)
    (otherwise : Nat) : (if place + 1 < (view index).count then (view index).start (place + 1)
      else if index + 1 < numBlocks then first (index + 1) else otherwise) =
      (runs[index * runsPerBlock + place + 1]?.map VersionRun.firstDocId).getD otherwise := by
  have reads := blocks.reads index lt
  have total := blocks.total
  have size := length_chunk runs index
  rw [reads.count]
  split_ifs with same another
  · have more : index * runsPerBlock + place + 1 < runs.length := by omega
    rw [reads.start_eq same, getElem_chunk same (by omega) more, getElem?_eq_getElem more]
    rfl
  · have bound := blocks.begins another
    have full : index * runsPerBlock + place + 1 = (index + 1) * runsPerBlock := by
      rw [add_mul index 1] at bound ⊢
      omega
    rw [blocks.first_eq another bound, full, getElem?_eq_getElem bound]
    rfl
  · have most := mul_le_mul_right runsPerBlock (not_lt.mp another)
    rw [add_mul index 1] at most
    rw [getElem?_eq_none (by omega)]
    rfl

end

theorem RunOf.until_next {other otherwise : Nat} (found : RunOf runs doc index)
    (started : ∀ lt : index < runs.length, runs[index].firstDocId ≤ other)
    (before : other < (runs[index + 1]?.map VersionRun.firstDocId).getD otherwise) :
    RunOf runs other index := by
  refine ⟨found.inside, started found.inside, fun more => ?_⟩
  rwa [getElem?_eq_getElem more] at before

structure Affine (runs : List VersionRun) (affine : VersionAffinePrefix) : Prop where
  within : affine.count ≤ runs.length
  line : ∀ doc (inside : doc < runs.length), doc < affine.count →
    runs[doc].firstDocId = doc ∧ runs[doc].version = affine.birth doc

theorem Affine.birth_eq (line : Affine runs affine) (cover : Covering runs)
    (lt : doc < affine.count) : affine.birth doc = versionAt runs doc := by
  have within := line.within
  obtain ⟨same, version⟩ := line.line doc (by omega) lt
  rw [← version]
  symm
  apply cover.versionAt_eq _ (by omega)
  intro more
  have strict := starts_strict cover.increasing (show doc < doc + 1 by omega) more
  omega

theorem Reads.even_line {base step : UInt64}
    (reads : Reads block (chunk runs index)) (regular : block.step = 1)
    (begun : block.firstDocId = index * runsPerBlock)
    (even : block.versions.affineBlock 0 = some (base, step)) (lt : doc < runs.length)
    (lower : index * runsPerBlock ≤ doc) (upper : doc < index * runsPerBlock + block.count) :
    runs[doc].firstDocId = doc ∧
      runs[doc].version = base + UInt64.ofNat (doc - index * runsPerBlock) * step := by
  rw [reads.count] at upper
  have place : doc - index * runsPerBlock < (chunk runs index).length := by omega
  have there := getElem_chunk place (by omega) lt
  have short : (chunk runs index).length ≤ blockSize := reads.short.trans (by decide)
  have start := reads.even (by omega) _ place
  have version := affineBlock_eq reads.versions (by simpa using short) even
    (show doc - index * runsPerBlock < _ by simpa using place)
  rw [there, regular, begun, mul_one] at start
  rw [getElem_map, UInt64.toUInt64_toInt64, there] at version
  exact ⟨by omega, version⟩

theorem Affine.append (line : Affine runs affine) (reads : Reads block (chunk runs index)) :
    Affine runs (affine.append block (index * runsPerBlock)) := by
  have size := length_chunk runs index
  have count := reads.count
  have ne := reads.nonempty
  unfold VersionAffinePrefix.append
  by_cases other : affine.count ≠ index * runsPerBlock ∨ block.firstDocId ≠ affine.count ∨
      block.step ≠ 1
  · rw [if_pos other]
    exact line
  rw [if_neg other]
  obtain ⟨met, rest⟩ := not_or.mp other
  obtain ⟨begun, regular⟩ := not_or.mp rest
  rw [not_not] at met begun regular
  cases even : block.versions.affineBlock 0 with
  | none => exact line
  | some =>
    dsimp only
    have aligned := begun.trans met
    split_ifs with flat uneven
    · refine ⟨by dsimp only; omega, fun doc lt before => ?_⟩
      obtain ⟨same, version⟩ := reads.even_line regular aligned even lt (by omega)
        (by dsimp only at before; omega)
      rw [← met, flat, Nat.sub_zero] at version
      exact ⟨same, version⟩
    · exact line
    · refine ⟨by dsimp only; omega, fun doc lt before => ?_⟩
      by_cases old : doc < affine.count
      · exact line.line doc lt old
      obtain ⟨same, version⟩ := reads.even_line regular aligned even lt (by omega)
        (by dsimp only at before; omega)
      obtain ⟨joined, slope⟩ := not_or.mp uneven
      rw [not_not] at joined slope
      refine ⟨same, ?_⟩
      have split : doc = affine.count + (doc - affine.count) := by omega
      rw [version, ← joined, ← slope, ← met, VersionAffinePrefix.birth]
      conv_rhs => rw [split]
      rw [UInt64.ofNat_add, UInt64.add_mul, UInt64.add_assoc]

end Luxir.Reader.BlockReads
