import Luxir.Screaming.Chunks

/-!
The image of a set: the containers of its buckets, their descriptors and the number of buckets. A
set opened at the end of its image finds every bucket.
-/

namespace Luxir.Screaming.SetImage
open Lib.Bytes SetBuilder SetReader Chunks List Chunk

structure Sorted (chunks : List Chunk) : Prop where
  ascending : chunks.Pairwise fun low high => low.upper < high.upper
  bounded : ∀ chunk ∈ chunks, chunk.upper < 32768

def descriptors : Nat → List Chunk → List Descriptor
  | _, [] => []
  | offset, chunk :: more =>
      ⟨chunk.upper, chunk.locals.length - 1, offset⟩ ::
        descriptors (offset + chunk.bytes.length) more

def image (chunks : List Chunk) : Bytes :=
  chunks.flatMap bytes ++ ((descriptors 0 chunks).flatMap Descriptor.bytes ++ spell 2 chunks.length)

structure Opened (bitset : BitSet) (chunks : List Chunk) : Prop where
  sorted : Sorted chunks
  count : bitset.nBuckets = chunks.length
  upper : ∀ i (inside : i < chunks.length), (bitset.descriptor i).upperBits = chunks[i].upper
  size : ∀ i (inside : i < chunks.length), (bitset.descriptor i).size + 1 = chunks[i].locals.length
  block : ∀ i (inside : i < chunks.length), ∃ rest,
    bitset.file.drop (bitset.start + (bitset.descriptor i).offset) = chunks[i].bytes ++ rest

section
variable {chunks : List Chunk} {i : Nat}

theorem Sorted.length_le (sorted : Sorted chunks) : chunks.length ≤ 32768 := by
  by_contra many
  have lt : 32768 < chunks.length := by omega
  have last := Lib.Bits.index_le_of_rising sorted.ascending lt
  have bound := sorted.bounded _ (getElem_mem lt)
  omega

theorem length_blocks_le (chunks : List Chunk) :
    (chunks.flatMap bytes).length ≤ chunks.length * denseContainerSize := by
  induction chunks with
  | nil => exact Nat.zero_le _
  | cons chunk =>
    have most := length_bytes_le chunk
    rw [flatMap_cons, length_append, length_cons, add_mul, one_mul]
    omega

theorem Sorted.blocks_lt (sorted : Sorted chunks) : (chunks.flatMap bytes).length < 2 ^ 32 := by
  have most := length_blocks_le chunks
  have few := sorted.length_le
  rw [denseContainerSize] at most
  omega

theorem length_descriptor (desc : Descriptor) : desc.bytes.length = 8 := by
  simp [Descriptor.bytes]

theorem length_descriptors (offset : Nat) (chunks : List Chunk) :
    (descriptors offset chunks).length = chunks.length := by
  induction chunks generalizing offset with
  | nil => rfl
  | cons chunk more ih => rw [descriptors, length_cons, ih, length_cons]

theorem descriptors_append (offset : Nat) (first second : List Chunk) :
    descriptors offset (first ++ second) = descriptors offset first ++
      descriptors (offset + (first.flatMap bytes).length) second := by
  induction first generalizing offset with
  | nil => rfl
  | cons chunk more ih =>
    rw [cons_append, descriptors, ih, descriptors, flatMap_cons, length_append,
      add_assoc, cons_append]

theorem descriptor_get (offset : Nat) {i : Nat} (lt : i < chunks.length) :
    (descriptors offset chunks)[i]? = some ⟨chunks[i].upper, chunks[i].locals.length - 1,
      offset + ((chunks.take i).flatMap bytes).length⟩ := by
  have split : chunks = chunks.take i ++ chunks[i] :: chunks.drop (i + 1) := by
    rw [← drop_eq_getElem_cons lt, take_append_drop]
  have length : (descriptors offset (chunks.take i)).length = i := by
    rw [length_descriptors, length_take]
    omega
  conv_lhs => rw [split, descriptors_append]
  rw [getElem?_append_right (le_of_eq length), length, Nat.sub_self]
  rfl

end

variable {chunks : List Chunk} {front back file : Bytes}

theorem descriptorAt_eq {desc : Descriptor}
    (wrote : file.drop (place + i * 8) = desc.bytes ++ rest) (upper : desc.upperBits < 65536)
    (size : desc.size < 65536) (offset : desc.offset < 2 ^ 32) :
    descriptorAt file place i = desc := by
  rw [Descriptor.bytes, append_assoc, append_assoc] at wrote
  have second := drop_past wrote (show _ = place + i * 8 + 2 by rw [length_spell])
  have third := drop_past second (show _ = place + i * 8 + 4 by rw [length_spell])
  rw [descriptorAt, load_spell wrote, load_spell second, load_spell third,
    Nat.mod_eq_of_lt (show _ < 256 ^ 2 from upper), Nat.mod_eq_of_lt (show _ < 256 ^ 2 from size),
    Nat.mod_eq_of_lt (show _ < 256 ^ 4 from offset)]

theorem descriptorAt_image (sorted : Sorted chunks)
    (wrote : file.drop place = (descriptors 0 chunks).flatMap Descriptor.bytes ++ rest)
    (lt : i < chunks.length) :
    descriptorAt file place i = ⟨chunks[i].upper, chunks[i].locals.length - 1,
      ((chunks.take i).flatMap bytes).length⟩ := by
  have bound : i < (descriptors 0 chunks).length := by
    rw [length_descriptors]
    exact lt
  have found := drop_records length_descriptor wrote bound
  have entry := descriptor_get 0 lt
  rw [getElem?_eq_getElem bound, Option.some_inj, zero_add] at entry
  rw [entry] at found
  have upper := sorted.bounded _ (getElem_mem lt)
  have most := length_locals_le chunks[i]
  have total := sorted.blocks_lt
  have part : ((chunks.take i).flatMap bytes).length ≤ (chunks.flatMap bytes).length := by
    conv_rhs => rw [← take_append_drop i chunks, flatMap_append, length_append]
    exact Nat.le_add_right _ _
  rw [bucketWidth] at most
  exact descriptorAt_eq found (by dsimp only; omega) (by dsimp only; omega) (by dsimp only; omega)

theorem length_image (chunks : List Chunk) : (image chunks).length =
    (chunks.flatMap bytes).length + (chunks.length * 8 + 2) := by
  rw [image, length_append, length_append, length_flatMap length_descriptor,
    length_descriptors, length_spell]

theorem drop_image (chunks : List Chunk) (front back : Bytes) :
    (front ++ (image chunks ++ back)).drop front.length = chunks.flatMap bytes ++
      ((descriptors 0 chunks).flatMap Descriptor.bytes ++ (spell 2 chunks.length ++ back)) := by
  rw [drop_left, image]
  simp only [append_assoc]

theorem ofEnd_fields (sorted : Sorted chunks) :
    BitSet.ofEnd (front ++ (image chunks ++ back)) (front.length + (image chunks).length) =
      ⟨front ++ (image chunks ++ back), front.length,
        front.length + (chunks.flatMap bytes).length, chunks.length⟩ := by
  have few := sorted.length_le
  have blocks := drop_image chunks front back
  have descs := drop_past blocks rfl
  have last := drop_past descs rfl
  rw [length_flatMap length_descriptor, length_descriptors] at last
  have size := length_image chunks
  have tail : front.length + (image chunks).length - 2 =
      front.length + (chunks.flatMap bytes).length + chunks.length * 8 := by omega
  unfold BitSet.ofEnd
  dsimp only
  rw [tail, load_spell last, Nat.mod_eq_of_lt (show chunks.length < 256 ^ 2 by omega),
    Nat.add_sub_cancel]
  by_cases empty : chunks.length = 0
  · rw [if_pos empty, eq_nil_of_length_eq_zero empty]
    rfl
  have lt : chunks.length - 1 < chunks.length := by omega
  rw [if_neg empty, descriptorAt_image sorted descs lt]
  have split : ((chunks.take (chunks.length - 1)).flatMap bytes).length +
      blockBytes ⟨chunks[chunks.length - 1].upper, chunks[chunks.length - 1].locals.length - 1,
        ((chunks.take (chunks.length - 1)).flatMap bytes).length⟩ =
      (chunks.flatMap bytes).length := by
    have pos := length_locals_pos chunks[chunks.length - 1]
    have whole : chunks = chunks.take (chunks.length - 1) ++ [chunks[chunks.length - 1]] := by
      rw [take_append_getElem lt, Nat.sub_add_cancel (by omega), take_length]
    conv_rhs => rw [whole, flatMap_append, length_append, flatMap_singleton, length_bytes]
    rw [blockBytes]
    rw [Nat.sub_add_cancel pos]
  rw [split, Nat.add_sub_cancel]

theorem opened (sorted : Sorted chunks) (front back : Bytes) :
    Opened (BitSet.ofEnd (front ++ (image chunks ++ back))
      (front.length + (image chunks).length)) chunks := by
  rw [ofEnd_fields sorted]
  have blocks := drop_image chunks front back
  have entry := fun i (lt : i < chunks.length) =>
    descriptorAt_image sorted (drop_past blocks rfl) lt
  refine ⟨sorted, rfl, fun i lt => ?_, fun i lt => ?_, fun i lt => ?_⟩
  · rw [BitSet.descriptor, entry i lt]
  all_goals rw [BitSet.descriptor, entry i lt]
  · exact Nat.sub_add_cancel (length_locals_pos _)
  · exact ⟨_, drop_record bytes blocks lt⟩

end Luxir.Screaming.SetImage
