import Luxir.Screaming.SetImage
import Mathlib.Data.List.Induction

/-!
The builder produces the image of its values, cut into buckets.
-/

namespace Luxir.Screaming.SetBuilding
open Lib.Bytes SetBuilder Chunks SetImage List Builder Chunk

structure Pending (builder : Builder) (locals : List Nat) : Prop where
  size : builder.bucketSize = locals.length
  listed : ∀ i (inside : i < locals.length), i < bucketSparseMax → builder.values i = locals[i]
  mapped : bucketSparseMax < locals.length → ∀ bit, builder.bits.testBit bit = true ↔
    bit ∈ locals.drop bucketSparseMax
  increasing : locals.Pairwise fun low high => low < high
  small : ∀ v ∈ locals, v < bucketWidth

structure Flushed (scratchSize : Nat) (builder : Builder) (chunks : List Chunk) : Prop where
  sorted : Sorted chunks
  out : builder.out = chunks.flatMap bytes
  start : builder.bucketStart = (chunks.flatMap bytes).length
  count : builder.numBuckets = chunks.length
  full : ∀ buffer ∈ builder.linked, buffer.length = maxDescriptors scratchSize
  room : builder.scratch.length ≤ maxDescriptors scratchSize
  listed : builder.linked.flatten ++ builder.scratch = descriptors 0 chunks

variable {builder : Builder} {scratchSize : Nat} {chunks : List Chunk}

section
variable {locals : List Nat} (left : Pending builder locals)
include left

theorem Pending.take_values {count : Nat} (lt : count ≤ locals.length)
    (few : count ≤ bucketSparseMax) :
    (range count).map builder.values = locals.take count := by
  apply ext_getElem
  · rw [length_map, length_range, length_take]
    omega
  · intro i first second
    rw [length_map, length_range] at first
    rw [getElem_map, getElem_range, getElem_take]
    exact left.listed i (by omega) (by omega)

theorem Pending.sparseBytes (sparse : locals.length ≤ bucketSparseMax) :
    Builder.sparseBytes builder.values builder.bucketSize = locals.flatMap (spell 2) := by
  rw [Builder.sparseBytes, left.size]
  conv_rhs => rw [← take_length (l := locals), ← left.take_values (le_rfl) sparse]
  rw [flatMap_map]

theorem Pending.denseBits (dense : bucketSparseMax < locals.length) :
    Builder.denseBits builder.values builder.bits = bitsOf locals := by
  have buffered : Builder.denseBits builder.values builder.bits =
      (locals.take bucketSparseMax).foldl setBit builder.bits := by
    rw [Builder.denseBits, ← left.take_values (le_of_lt dense) (le_rfl), foldl_map]
  apply Nat.eq_of_testBit_eq
  intro bit
  have split : bit ∈ locals ↔
      bit ∈ locals.drop bucketSparseMax ∨ bit ∈ locals.take bucketSparseMax := by
    conv_lhs => rw [← take_append_drop bucketSparseMax locals, mem_append]
    exact or_comm
  rw [buffered, testBit_foldl, Bool.eq_iff_iff, testBit_bitsOf, Bool.or_eq_true,
    left.mapped dense, decide_eq_true_iff, split]

theorem Pending.push {lowerBits : Nat} (greater : ∀ v ∈ locals, v < lowerBits)
    (bound : lowerBits < bucketWidth) {next : Builder}
    (size : next.bucketSize = builder.bucketSize + 1)
    (values : next.values = if builder.bucketSize ≥ bucketSparseMax then builder.values
      else Function.update builder.values builder.bucketSize lowerBits)
    (bits : next.bits = if builder.bucketSize ≥ bucketSparseMax then
      setBit (if builder.bucketSize = bucketSparseMax then 0 else builder.bits) lowerBits
      else builder.bits) :
    Pending next (locals ++ [lowerBits]) := by
  have length := left.size
  refine ⟨?_, fun i lt few => ?_, fun dense bit => ?_, ?_, ?_⟩
  · rw [size, length, length_append, length_singleton]
  · rw [length_append, length_singleton] at lt
    rw [values]
    by_cases last : i = locals.length
    · subst last
      rw [if_neg (by omega), length, Function.update_self]
      simp
    · rw [getElem_append_left (by omega), ← left.listed i (by omega) few]
      split_ifs with many
      · rfl
      · rw [Function.update_of_ne (by omega)]
  · rw [length_append, length_singleton] at dense
    have past : bucketSparseMax - locals.length = 0 := by omega
    rw [bits, if_pos (by omega), testBit_setBit, drop_append, past, drop_zero,
      mem_append, mem_singleton, Bool.or_eq_true, decide_eq_true_iff]
    apply or_congr_left
    split_ifs with first
    · have fits : locals.drop bucketSparseMax = [] := drop_of_length_le (by omega)
      simp [fits]
    · exact left.mapped (by omega) bit
  · rw [pairwise_append]
    exact ⟨left.increasing, pairwise_singleton _ _, fun v mem =>
      forall_mem_singleton.mpr (greater v mem)⟩
  · exact forall_mem_append.mpr ⟨left.small, forall_mem_singleton.mpr bound⟩

end

section
variable {desc : Descriptor}

theorem addDescriptor_out : (builder.addDescriptor scratchSize desc).out = builder.out := by
  unfold addDescriptor
  split_ifs <;> rfl

theorem addDescriptor_listed : (builder.addDescriptor scratchSize desc).linked.flatten ++
        (builder.addDescriptor scratchSize desc).scratch =
      builder.linked.flatten ++ builder.scratch ++ [desc] := by
  unfold addDescriptor
  split_ifs
  · simp only [flatten_append, flatten_singleton]
  · rw [append_assoc]

theorem addDescriptor_room (desc : Descriptor) (pos : 1 ≤ maxDescriptors scratchSize)
    (full : ∀ buffer ∈ builder.linked, buffer.length = maxDescriptors scratchSize)
    (room : builder.scratch.length ≤ maxDescriptors scratchSize) :
    (∀ buffer ∈ (builder.addDescriptor scratchSize desc).linked,
        buffer.length = maxDescriptors scratchSize) ∧
      (builder.addDescriptor scratchSize desc).scratch.length ≤ maxDescriptors scratchSize := by
  unfold addDescriptor
  split_ifs with taken
  · exact ⟨forall_mem_append.mpr ⟨full, forall_mem_singleton.mpr (by omega)⟩, pos⟩
  · refine ⟨full, ?_⟩
    rw [length_append, length_singleton]
    omega

theorem descriptorBytes_eq {max total : Nat} (pos : 1 ≤ max) {linked : List (List Descriptor)}
    {scratch : List Descriptor} {start : Nat} (full : ∀ buffer ∈ linked, buffer.length = max)
    (room : scratch.length ≤ max) (count : start + (linked.flatten ++ scratch).length = total) :
    descriptorBytes max total (linked ++ [scratch]) start =
      (linked.flatten ++ scratch).flatMap Descriptor.bytes := by
  induction linked generalizing start with
  | nil =>
    rw [flatten_nil, nil_append] at count ⊢
    rw [nil_append, descriptorBytes, descriptorBytes, append_nil]
    split_ifs with more
    · rw [take_of_length_le (by omega)]
    · have empty : scratch = [] := eq_nil_of_length_eq_zero (by omega)
      rw [empty, flatMap_nil]
  | cons buffer links ih =>
    have length := full buffer mem_cons_self
    rw [flatten_cons, append_assoc, length_append] at count
    rw [cons_append, descriptorBytes, if_pos (by omega), take_of_length_le (by omega),
      ih (fun other mem => full other (mem_cons_of_mem _ mem)) (by omega)]
    simp only [flatten_cons, flatMap_append, append_assoc]

end

section
variable {chunk : Chunk}

theorem sorted_concat (sorted : Sorted chunks) (bound : chunk.upper < 32768)
    (above : ∀ other ∈ chunks, other.upper < chunk.upper) : Sorted (chunks ++ [chunk]) := by
  constructor
  · rw [pairwise_append]
    exact ⟨sorted.ascending, pairwise_singleton _ _, fun other mem =>
      forall_mem_singleton.mpr (above other mem)⟩
  · exact forall_mem_append.mpr ⟨sorted.bounded, forall_mem_singleton.mpr bound⟩

theorem container_eq (left : Pending builder chunk.locals) :
    builder.container.2 = (chunk.bytes, chunk.bytes.length) := by
  have size := left.size
  unfold container
  by_cases sparse : chunk.locals.length ≤ bucketSparseMax
  · have length : chunk.bytes.length = builder.bucketSize * 2 + pad (builder.bucketSize * 2) := by
      rw [bytes, if_pos sparse, length_append, length_flatMap (length_spell 2),
        length_replicate, size]
    rw [if_pos (size ▸ sparse), length, bytes, if_pos sparse]
    rw [left.sparseBytes sparse, size]
  · have length : chunk.bytes.length = denseContainerSize := by
      rw [length_bytes, if_neg sparse]
    rw [if_neg (size ▸ sparse), length, bytes, if_neg sparse]
    rw [left.denseBits (not_le.mp sparse)]

theorem flushBucket_eq (flushed : Flushed scratchSize builder chunks)
    (left : Pending builder chunk.locals) (same : builder.currBucket = chunk.upper)
    (bound : chunk.upper < 32768) :
    builder.flushBucket scratchSize =
      { builder.addDescriptor scratchSize ⟨chunk.upper, chunk.locals.length - 1,
          (chunks.flatMap bytes).length⟩ with
        bits := builder.container.1
        out := builder.out ++ chunk.bytes
        numBuckets := builder.numBuckets + 1
        bucketStart := (builder.bucketStart + chunk.bytes.length) % 2 ^ 32
        bucketSize := 0 } := by
  have pos := length_locals_pos chunk
  have most := length_locals_le chunk
  have size := left.size
  rw [bucketWidth] at most
  have desc : (⟨builder.currBucket % 65536, (builder.bucketSize - 1) % 65536,
      builder.bucketStart⟩ : Descriptor) = ⟨chunk.upper, chunk.locals.length - 1,
        (chunks.flatMap bytes).length⟩ := by
    rw [same, size, flushed.start, Nat.mod_eq_of_lt (by omega), Nat.mod_eq_of_lt (by omega)]
  unfold flushBucket
  rw [if_neg (by omega)]
  dsimp only
  rw [desc, container_eq left, write, addDescriptor_out]

theorem flushBucket_flushed (pos : 1 ≤ maxDescriptors scratchSize)
    (flushed : Flushed scratchSize builder chunks) (left : Pending builder chunk.locals)
    (same : builder.currBucket = chunk.upper) (bound : chunk.upper < 32768)
    (above : ∀ other ∈ chunks, other.upper < chunk.upper) :
    Flushed scratchSize (builder.flushBucket scratchSize) (chunks ++ [chunk]) := by
  have sorted := sorted_concat flushed.sorted bound above
  have total := sorted.blocks_lt
  have wrote := flushBucket_eq flushed left same bound
  obtain ⟨full, room⟩ := addDescriptor_room ⟨chunk.upper, chunk.locals.length - 1,
    (chunks.flatMap bytes).length⟩ pos flushed.full flushed.room
  rw [flatMap_append, flatMap_singleton, length_append] at total
  rw [wrote]
  refine ⟨sorted, ?_, ?_, ?_, full, room, ?_⟩
  · rw [flatMap_append, flatMap_singleton, flushed.out]
  · rw [flatMap_append, flatMap_singleton, length_append, flushed.start, Nat.mod_eq_of_lt total]
  · rw [length_append, flushed.count, length_singleton]
  · rw [addDescriptor_listed, flushed.listed, descriptors_append, zero_add]
    rfl

end

structure Building (scratchSize : Nat) (builder : Builder) (chunks : List Chunk)
    (locals : List Nat) (sequence : List Nat) : Prop where
  flushed : Flushed scratchSize builder chunks
  pending : Pending builder locals
  bound : builder.currBucket < 32768
  above : ∀ chunk ∈ chunks, chunk.upper < builder.currBucket
  card : builder.totalCard = sequence.length
  values : sequence = chunks.flatMap values ++
    locals.map fun v => builder.currBucket * bucketWidth + v

variable {locals sequence : List Nat} {val : Nat}

def turned (scratchSize : Nat) (builder : Builder) (val : Nat) : Builder :=
  if val / bucketWidth ≠ builder.currBucket then
    { builder.flushBucket scratchSize with currBucket := val / bucketWidth, bucketSize := 0 }
  else builder

theorem building_start (scratchSize : Nat) : Building scratchSize start [] [] [] := by
  refine ⟨⟨⟨List.Pairwise.nil, by simp⟩, rfl, rfl, rfl, by simp [start], Nat.zero_le _, rfl⟩,
    ⟨rfl, by simp, by simp, List.Pairwise.nil, by simp⟩, by decide, by simp, rfl, rfl⟩

theorem flushBucket_totalCard :
    (builder.flushBucket scratchSize).totalCard = builder.totalCard := by
  unfold flushBucket addDescriptor
  split_ifs <;> rfl

variable (pos : 1 ≤ maxDescriptors scratchSize)
include pos

section
variable (building : Building scratchSize builder chunks locals sequence)
include building

variable (begun : locals = [] → chunks = [])
include begun

theorem Building.flush : ∃ wrote, Flushed scratchSize (builder.flushBucket scratchSize) wrote ∧
      sequence = wrote.flatMap Chunk.values ∧
      ∀ chunk ∈ wrote, locals ≠ [] ∧ chunk.upper ≤ builder.currBucket := by
  by_cases empty : locals = []
  · have first := begun empty
    subst empty first
    refine ⟨[], ?_, building.values, by simp⟩
    have empty : builder.bucketSize = 0 := building.pending.size
    rw [flushBucket, if_pos empty]
    exact building.flushed
  · obtain ⟨last, upper, same⟩ : ∃ last : Chunk, last.upper = builder.currBucket ∧
        last.locals = locals :=
      ⟨⟨_, _, empty, building.pending.increasing, building.pending.small⟩, rfl, rfl⟩
    refine ⟨chunks ++ [last], ?_, ?_, fun chunk mem => ⟨empty, ?_⟩⟩
    · exact flushBucket_flushed pos building.flushed (same ▸ building.pending) upper.symm
        (upper ▸ building.bound) (upper ▸ building.above)
    · rw [building.values, flatMap_append, flatMap_singleton, Chunk.values, upper, same]
    · rcases mem_append.mp mem with old | new
      · exact le_of_lt (building.above chunk old)
      · rw [mem_singleton.mp new]
        exact le_of_eq upper

theorem turned_building (later : ∀ v ∈ sequence, v < val) (small : val < 2147483647) :
    ∃ wrote rest, Building scratchSize (turned scratchSize builder val) wrote rest sequence ∧
      (turned scratchSize builder val).currBucket = val / bucketWidth := by
  unfold turned
  by_cases same : val / bucketWidth = builder.currBucket
  · rw [if_neg (not_not.mpr same)]
    exact ⟨chunks, locals, building, same.symm⟩
  rw [if_pos same]
  obtain ⟨wrote, flushed, values, upper⟩ := building.flush pos begun
  refine ⟨wrote, [], ⟨{ flushed with }, ⟨rfl, by simp, by simp, .nil, by simp⟩, ?_,
    fun chunk mem => ?_, ?_, ?_⟩, rfl⟩
  · dsimp only
    rw [bucketWidth]
    omega
  · obtain ⟨filled, most⟩ := upper chunk mem
    obtain ⟨v, lt⟩ := exists_mem_of_ne_nil _ filled
    have before := later (builder.currBucket * bucketWidth + v) (by
      rw [building.values]
      exact mem_append_right _ (mem_map.mpr ⟨v, lt, rfl⟩))
    dsimp only
    rw [bucketWidth] at before same ⊢
    omega
  · rw [flushBucket_totalCard, building.card]
  · rw [map_nil, append_nil]
    exact values

theorem add_building (later : ∀ v ∈ sequence, v < val) (small : val < 2147483647) :
    ∃ wrote rest, rest ≠ [] ∧
      Building scratchSize (builder.add scratchSize val) wrote rest (sequence ++ [val]) := by
  obtain ⟨wrote, rest, inner, same⟩ := turned_building pos building begun later small
  have split := Nat.div_add_mod' val bucketWidth
  have greater : ∀ v ∈ rest, v < val % bucketWidth := by
    intro v mem
    have before := later _ (inner.values ▸ mem_append_right _ (mem_map.mpr ⟨v, mem, rfl⟩))
    rw [same] at before
    omega
  refine ⟨wrote, rest ++ [val % bucketWidth], by simp, ?_⟩
  have entered : builder.add scratchSize val =
      (turned scratchSize builder val).put (val % bucketWidth) := rfl
  rw [entered]
  generalize turned scratchSize builder val = stand at inner same
  obtain ⟨flushed, left, bound, above, card, values⟩ := inner
  have kept : (stand.put (val % bucketWidth)).currBucket = stand.currBucket := by
    unfold put
    split_ifs <;> rfl
  refine ⟨?_, ?_, kept ▸ bound, kept ▸ above, ?_, ?_⟩
  · obtain ⟨sorted, out, start, count, full, room, listed⟩ := flushed
    unfold put
    split_ifs <;> exact ⟨sorted, out, start, count, full, room, listed⟩
  · apply left.push greater (Nat.mod_lt _ (by decide))
    all_goals
      unfold put
      split_ifs <;> rfl
  · have counted : (stand.put (val % bucketWidth)).totalCard = stand.totalCard + 1 := by
      unfold put
      split_ifs <;> rfl
    rw [counted, card, length_append, length_singleton]
  · rw [kept, map_append, ← append_assoc, ← values, map_singleton, same, split]

end

theorem adds_building (rising : sequence.Pairwise fun low high => low < high)
    (small : ∀ v ∈ sequence, v < 2147483647) :
    ∃ chunks locals, (locals = [] → chunks = []) ∧ Building scratchSize
      (sequence.foldl (add scratchSize) start) chunks locals sequence := by
  induction sequence using reverseRecOn with
  | nil => exact ⟨[], [], fun _ => rfl, building_start scratchSize⟩
  | append_singleton sequence val ih =>
    have order := pairwise_append.mp rising
    obtain ⟨chunks, locals, begun, building⟩ := ih order.1 fun v mem =>
      small v (mem_append_left _ mem)
    obtain ⟨wrote, rest, filled, added⟩ := add_building pos building begun
      (fun v mem => order.2.2 v mem val mem_cons_self)
      (small val (mem_append_right _ mem_cons_self))
    rw [foldl_append, foldl_cons, foldl_nil]
    exact ⟨wrote, rest, fun empty => absurd empty filled, added⟩

theorem build_image (rising : sequence.Pairwise fun low high => low < high)
    (small : ∀ v ∈ sequence, v < 2147483647) :
    ∃ chunks, Sorted chunks ∧ (build scratchSize sequence).out = image chunks ∧
      sequence = chunks.flatMap Chunk.values ∧
      (build scratchSize sequence).totalCard = sequence.length := by
  obtain ⟨chunks, locals, begun, building⟩ := adds_building pos rising small
  obtain ⟨wrote, flushed, values, _⟩ := building.flush pos begun
  have bytes := descriptorBytes_eq pos flushed.full flushed.room
    (zero_add _ |>.trans (by rw [flushed.listed, length_descriptors]))
  refine ⟨wrote, flushed.sorted, ?_, values, ?_⟩
  all_goals
    rw [build, flush]
    dsimp only [write]
  · rw [flushed.count, bytes, flushed.listed, flushed.out, image, append_assoc]
  · rw [flushBucket_totalCard, building.card]

end Luxir.Screaming.SetBuilding
