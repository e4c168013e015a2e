import Mathlib.Data.BitVec
import Mathlib.Data.Nat.Log
import Mathlib.Order.Lattice.Nat

/-! The sketch that counts distinct hashes, as a function of the set of hashes added to it. -/

namespace Luxir.Util.DistinctSketch
open Finset

abbrev Hash := BitVec 64

def xorShift (x : Hash) : Hash := x ^^^ (x >>> 33)

def mix (x : Hash) : Hash :=
  xorShift (xorShift (xorShift x * 0xff51afd7ed558ccd) * 0xc4ceb9fe1a85ec53)

theorem xorShift_involutive : Function.Involutive xorShift := by
  intro x
  unfold xorShift
  ext bit bounded
  simp [BitVec.getLsbD_of_ge x (33 + (33 + bit)) (by omega)]

theorem mul_injective (factor inverse : Hash) (unit : factor * inverse = 1#64) :
    Function.Injective (· * factor) := by
  intro x y same
  simpa [mul_assoc, unit] using congrArg (· * inverse) same

theorem mix_injective : Function.Injective mix := by
  have shift := xorShift_involutive.injective
  have first := mul_injective 0xff51afd7ed558ccd 0x4f74430c22a54005 (by decide)
  have second := mul_injective 0xc4ceb9fe1a85ec53 0x9cb4b2f8129337db (by decide)
  exact shift.comp (second.comp (shift.comp (first.comp shift)))

/-- The binary logarithm of `threshold / 0.75`, rounded up, between 4 and 18. -/
def precisionForThreshold (threshold : Nat) : Nat :=
  min 18 (max 4 (Nat.clog 2 ((4 * max threshold 1 + 2) / 3)))

structure HyperLogLog where
  threshold : Nat
  exact : List Hash := []
  registers : List Nat := []

def index (precision : Nat) (hash : Hash) : Nat := (hash >>> (64 - precision)).toNat

def rank (precision : Nat) (hash : Hash) : Nat :=
  let q := 64 - precision
  let rest := hash <<< precision
  min (if rest = 0 then q + 1 else rest.clz.toNat + 1) (q + 1)

def addDense (precision : Nat) (registers : List Nat) (hash : Hash) : List Nat :=
  registers.modify (index precision hash) fun register =>
    if register < rank precision hash then rank precision hash else register

def HyperLogLog.precision (sketch : HyperLogLog) : Nat := precisionForThreshold sketch.threshold

def HyperLogLog.dense (sketch : HyperLogLog) : Bool := !sketch.registers.isEmpty

def HyperLogLog.toDense (sketch : HyperLogLog) : HyperLogLog :=
  { sketch with
    registers := sketch.exact.foldl (addDense sketch.precision) (.replicate (2 ^ sketch.precision) 0)
    exact := [] }

def HyperLogLog.add (sketch : HyperLogLog) (hash : Hash) : HyperLogLog :=
  if sketch.dense then
    { sketch with registers := addDense sketch.precision sketch.registers hash }
  else
    let sketch := { sketch with exact := sketch.exact.insert hash }
    if sketch.exact.length > sketch.threshold then sketch.toDense else sketch

def HyperLogLog.merge (sketch other : HyperLogLog) : HyperLogLog :=
  if other.dense then
    let sketch := if sketch.dense then sketch else sketch.toDense
    { sketch with registers := sketch.registers.zipWith max other.registers }
  else other.exact.foldl .add sketch

/-- A tree of operations on sketches that begin empty. -/
inductive Operations where
  | empty
  | add (operations : Operations) (hash : Hash)
  | merge (operations other : Operations)

def Operations.sketch (threshold : Nat) : Operations → HyperLogLog
  | empty => { threshold }
  | add operations hash => (operations.sketch threshold).add hash
  | merge operations other => (operations.sketch threshold).merge (other.sketch threshold)

def Operations.hashes : Operations → Finset Hash
  | empty => ∅
  | add operations hash => insert hash operations.hashes
  | merge operations other => operations.hashes ∪ other.hashes

def level (precision : Nat) (hashes : Finset Hash) (position : Nat) : Nat :=
  hashes.sup fun hash => if index precision hash = position then rank precision hash else 0

def levels (threshold : Nat) (hashes : Finset Hash) : List Nat :=
  (List.range (2 ^ precisionForThreshold threshold)).map
    (level (precisionForThreshold threshold) hashes)

/-- A sketch lists a set of at most `threshold` hashes and holds the levels of a larger one. -/
inductive Represents (threshold : Nat) : HyperLogLog → Finset Hash → Prop where
  | exact {hashes : List Hash} : hashes.Nodup → hashes.length ≤ threshold →
      Represents threshold ⟨threshold, hashes, []⟩ hashes.toFinset
  | dense {hashes : Finset Hash} : threshold < hashes.card →
      Represents threshold ⟨threshold, [], levels threshold hashes⟩ hashes

section
open HyperLogLog
variable {threshold : Nat} {sketch other : HyperLogLog} {hashes others : Finset Hash}

theorem addDense_levels (hash : Hash) :
    addDense (precisionForThreshold threshold) (levels threshold hashes) hash =
      levels threshold (insert hash hashes) := by
  apply List.ext_getElem
  · simp [addDense, levels]
  intro position _ _
  simp only [addDense, levels, List.getElem_modify, List.getElem_map, List.getElem_range, level,
    sup_insert]
  split
  · split <;> omega
  · simp

theorem index_lt (hash : Hash) :
    index (precisionForThreshold threshold) hash < (levels threshold hashes).length := by
  have most : precisionForThreshold threshold ≤ 18 := Nat.min_le_left ..
  rw [index, BitVec.toNat_ushiftRight, Nat.shiftRight_eq_div_pow, levels, List.length_map,
    List.length_range]
  apply Nat.div_lt_of_lt_mul
  rw [← Nat.pow_add, Nat.sub_add_cancel (by omega)]
  exact hash.isLt

theorem zipWith_levels : (levels threshold hashes).zipWith max (levels threshold others) =
      levels threshold (hashes ∪ others) := by
  apply List.ext_getElem
  · simp [levels]
  · simp [levels, level, sup_union]

theorem foldl_addDense (more : List Hash) :
    more.foldl (addDense (precisionForThreshold threshold)) (levels threshold hashes) =
      levels threshold (hashes ∪ more.toFinset) := by
  induction more generalizing hashes with
  | nil => simp
  | cons hash more ih => simp [addDense_levels, ih]

theorem toDense_eq (hashes : List Hash) :
    toDense ⟨threshold, hashes, []⟩ = ⟨threshold, [], levels threshold hashes.toFinset⟩ := by
  have start : List.replicate (2 ^ precisionForThreshold threshold) 0 = levels threshold ∅ :=
    List.ext_getElem (by simp [levels]) (by simp [levels, level])
  simp [toDense, precision, start, foldl_addDense]

theorem dense_exact (hashes : List Hash) : dense ⟨threshold, hashes, []⟩ = false := rfl

theorem dense_levels : dense ⟨threshold, [], levels threshold hashes⟩ = true := by
  simp [dense, levels]

theorem Represents.add (holds : Represents threshold sketch hashes) (hash : Hash) :
    Represents threshold (sketch.add hash) (insert hash hashes) := by
  cases holds with
  | @exact hashes nodup fits =>
    have grown : (hashes.insert hash).toFinset = insert hash hashes.toFinset := by
      ext
      simp
    have distinct := nodup.insert (a := hash)
    simp only [HyperLogLog.add, dense_exact, Bool.false_eq_true, if_false, toDense_eq]
    rw [← grown]
    split
    case isTrue more => exact .dense (by rwa [List.toFinset_card_of_nodup distinct])
    case isFalse less => exact .exact distinct (not_lt.mp less)
  | dense many =>
    simp only [HyperLogLog.add, dense_levels, if_true, precision, addDense_levels]
    exact .dense (many.trans_le (card_le_card (subset_insert hash hashes)))

theorem Represents.foldl (more : List Hash) (holds : Represents threshold sketch hashes) :
    Represents threshold (more.foldl .add sketch) (hashes ∪ more.toFinset) := by
  induction more generalizing sketch hashes with
  | nil => simpa using holds
  | cons hash more ih => simpa using ih (holds.add hash)

theorem Represents.merge (holds : Represents threshold sketch hashes)
    (also : Represents threshold other others) :
    Represents threshold (sketch.merge other) (hashes ∪ others) := by
  cases also with
  | exact => exact holds.foldl _
  | dense many =>
    have more := many.trans_le (card_le_card (subset_union_right : others ⊆ hashes ∪ others))
    simp only [HyperLogLog.merge, dense_levels, if_true]
    cases holds with
    | exact =>
      simp only [dense_exact, Bool.false_eq_true, if_false, toDense_eq, zipWith_levels]
      exact .dense more
    | dense =>
      simp only [dense_levels, if_true, zipWith_levels]
      exact .dense more

theorem sketch_represents (operations : Operations) :
    Represents threshold (operations.sketch threshold) operations.hashes := by
  induction operations with
  | empty => exact .exact .nil (Nat.zero_le _)
  | add _ hash ih => exact ih.add hash
  | merge _ _ first second => exact first.merge second
end

/-- Whatever the operations, the sketch is dense when they added more than `threshold` hashes, and
lists these hashes or holds the greatest rank for every index; hashes keep integers apart. -/
theorem sketch_of_hashes (threshold : Nat) (operations : Operations) :
    ((operations.sketch threshold).dense = true ↔ threshold < operations.hashes.card) ∧
    ((operations.sketch threshold).dense = false → (operations.sketch threshold).exact.Nodup ∧
      (operations.sketch threshold).exact.toFinset = operations.hashes) ∧
    ((operations.sketch threshold).dense = true →
      (operations.sketch threshold).registers = levels threshold operations.hashes ∧
      ∀ hash, index (precisionForThreshold threshold) hash <
        (operations.sketch threshold).registers.length) ∧ Function.Injective mix := by
  have holds : Represents threshold _ _ := sketch_represents operations
  generalize operations.sketch threshold = sketch at holds
  generalize operations.hashes = hashes at holds
  cases holds with
  | exact nodup fits =>
    simp [dense_exact, List.toFinset_card_of_nodup nodup, nodup, fits, mix_injective]
  | dense many => simp [dense_levels, many, mix_injective, index_lt]

end Luxir.Util.DistinctSketch
