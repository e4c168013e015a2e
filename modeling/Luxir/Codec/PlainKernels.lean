import Luxir.Codec.PforLane

/-!
Kernels that put the bits of a group's values one after the other. They are inverse to each other,
and find the first values in the first words.
-/

namespace Luxir.Codec.PlainKernels
open Lib.Bytes Pfor PforLane Nat
open Nat (ofDigits)
open List

def words (count value : Nat) : List Word :=
  (range count).map fun k => BitVec.ofNat 32 (field value (32 * k) 32)

def total (stream : List Word) : Nat := ofDigits (2 ^ 32) (stream.map BitVec.toNat)

def pack (size bits : Nat) (values : Fin size → Word) : List Word :=
  words (size * bits / 32) (ofDigits (2 ^ bits) (ofFn fun i => (values i).toNat % 2 ^ bits))

def unpack (size bits : Nat) (stream : List Word) : Fin size → Word := fun i =>
  BitVec.ofNat 32 (field (total stream) (i * bits) bits)

def plain : Kernels where
  simdpack := pack 128
  simdunpack := unpack 128
  usimdpackwithoutmask := pack 128
  usimdunpack := unpack 128
  fastpackwithoutmask := pack 32
  fastunpack := unpack 32
  gccbits := widthOf

theorem total_append (stream rest : List Word) :
    total (stream ++ rest) = total stream + 2 ^ (32 * stream.length) * total rest := by
  rw [total, map_append, ofDigits_append, length_map, ← pow_mul]
  rfl

theorem length_words (count value : Nat) : (words count value).length = count := by
  rw [words, length_map, length_range]

theorem total_words (count value : Nat) : total (words count value) = value % 2 ^ (32 * count) := by
  induction count with
  | zero =>
    rw [mul_zero, pow_zero, mod_one]
    rfl
  | succ count ih =>
    have longer : words (count + 1) value =
        words count value ++ [BitVec.ofNat 32 (field value (32 * count) 32)] := by
      rw [words, range_succ, map_append]
      rfl
    have last : total [BitVec.ofNat 32 (field value (32 * count) 32)] =
        field value (32 * count) 32 := by
      show (BitVec.ofNat 32 (field value (32 * count) 32)).toNat + 2 ^ 32 * 0 = _
      rw [BitVec.toNat_ofNat, mod_eq_of_lt (field_lt _ _ _)]
      rfl
    rw [longer, total_append, ih, length_words, last, field, mul_succ, pow_add, mod_mul]

theorem field_total {stream : List Word} (rest : List Word) {position width : Nat}
    (fits : position + width ≤ 32 * stream.length) :
    field (total (stream ++ rest)) position width = field (total stream) position width := by
  rw [total_append]
  exact field_add_mul fits

theorem field_whole {value position width length : Nat} (fits : position + width ≤ length) :
    field value position width = field (value % 2 ^ length) position width := by
  conv_lhs => rw [← mod_add_div value (2 ^ length)]
  exact field_add_mul fits

theorem inverse {size : Nat} (whole : 32 ∣ size) : Inverse size (pack size) (unpack size) where
  length values _ := length_words _ _
  unpack := by
    intro bits values rest _ small
    funext i
    have exact := Nat.mul_div_cancel' (Nat.dvd_mul_right_of_dvd whole bits)
    have fits : i.val * bits + bits ≤ 32 * (size * bits / 32) := by
      rw [exact, ← Nat.succ_mul]
      exact Nat.mul_le_mul_right bits i.isLt
    have digits : ∀ digit ∈ ofFn (fun i => (values i).toNat % 2 ^ bits), digit < 2 ^ bits := by
      intro digit mem
      obtain ⟨k, rfl⟩ := (mem_ofFn' _ _).mp mem
      exact Nat.mod_lt _ (Nat.two_pow_pos bits)
    have lt : i.val < (ofFn fun i => (values i).toNat % 2 ^ bits).length := by
      rw [length_ofFn]
      exact i.isLt
    have read := field_ofDigits digits lt
    rw [List.getElem_ofFn, Nat.mod_eq_of_lt (small _)] at read
    have kept : i.val * bits + bits ≤ 32 * (pack size bits values).length := by
      rw [pack, length_words]
      exact fits
    unfold unpack
    rw [field_total rest kept, pack, total_words, ← field_whole fits, read,
      BitVec.ofNat_toNat, BitVec.setWidth_eq]

theorem plain_inverses : Inverses plain where
  simd := inverse (by decide)
  masks := by
    intro bits values _
    have same : ∀ i, (low bits (values i)).toNat % 2 ^ bits = (values i).toNat % 2 ^ bits := by
      intro i
      have short : (values i).toNat % 2 ^ bits < 2 ^ 32 := (mod_le _ _).trans_lt (values i).isLt
      rw [low, BitVec.toNat_ofNat, mod_eq_of_lt short, mod_mod]
    show pack 128 bits values = pack 128 bits _
    unfold pack
    simp only [same]
  usimd := inverse (by decide)
  fast := inverse (by decide)
  gccbits := rfl

theorem plain_local : Local plain := by
  intro bits count words rest stale _ enough i lt
  have fits : i.val * bits + bits ≤ 32 * words.length := by
    have product := mul_le_mul_right bits (show i.val + 1 ≤ count from lt)
    rw [succ_mul] at product
    omega
  show BitVec.ofNat 32 _ = BitVec.ofNat 32 _
  rw [field_total rest fits, field_total stale fits]

/-- The same kernels, but for the words of a scalar group, which are in the opposite order. -/
def reversed : Kernels := { plain with
  fastpackwithoutmask := fun bits values => (pack 32 bits values).reverse
  fastunpack := fun bits stream => unpack 32 bits (stream.take bits).reverse }

theorem reversed_inverses : Inverses reversed where
  simd := plain_inverses.simd
  masks := plain_inverses.masks
  usimd := plain_inverses.usimd
  gccbits := rfl
  fast := {
    length := by
      intro bits values bound
      show (pack 32 bits values).reverse.length = _
      rw [length_reverse]
      exact (plain_inverses.fast).length values bound
    unpack := by
      intro bits values rest bound small
      have count : (pack 32 bits values).reverse.length = bits := by
        rw [length_reverse, pack, length_words]
        omega
      have whole := (plain_inverses.fast).unpack values [] bound small
      rw [append_nil] at whole
      show unpack 32 bits (((pack 32 bits values).reverse ++ rest).take bits).reverse = values
      rw [take_left' count, reverse_reverse]
      exact whole }

end Luxir.Codec.PlainKernels
