import Mathlib.Data.Nat.Digits.Defs

/-!
Byte strings as numbers, the least significant byte first, and numbers as packed digits of a
fixed width. A load of several bytes and a shift and mask of it both cut a field of bits out of
the number that the whole string spells.
-/

abbrev Luxir.Bytes := List UInt8

namespace Luxir.Lib.Bytes
open Nat (ofDigits)
open List

def number : Bytes → Nat
  | [] => 0
  | byte :: rest => byte.toNat + 256 * number rest

def spell : Nat → Nat → Bytes
  | 0, _ => []
  | width + 1, value => UInt8.ofNat value :: spell width (value / 256)

/-- The number in the `width` bytes from `offset` on. Bytes past the end read as zero. -/
def load (width : Nat) (bytes : Bytes) (offset : Nat) : Nat :=
  number ((bytes.drop offset).take width)

def field (value position width : Nat) : Nat := value / 2 ^ position % 2 ^ width

variable (bytes : Bytes) {α β : Type} {elements : List α}

theorem number_eq_ofDigits : number bytes = ofDigits 256 (bytes.map UInt8.toNat) := by
  induction bytes with
  | nil => rfl
  | cons byte rest ih => rw [number, ih, map_cons, Nat.ofDigits_cons]

theorem digits_lt : ∀ digit ∈ bytes.map UInt8.toNat, digit < 256 := by
  refine forall_mem_map.mpr fun byte _ => ?_
  exact byte.toNat_lt

theorem number_append (rest : Bytes) :
    number (bytes ++ rest) = number bytes + 256 ^ bytes.length * number rest := by
  simp only [number_eq_ofDigits, map_append, Nat.ofDigits_append, length_map]

theorem number_lt : number bytes < 256 ^ bytes.length := by
  have bound := Nat.ofDigits_lt_base_pow_length (by omega) (digits_lt bytes)
  rwa [← number_eq_ofDigits, length_map] at bound

theorem number_drop (offset : Nat) : number (bytes.drop offset) = number bytes / 256 ^ offset := by
  rw [number_eq_ofDigits, number_eq_ofDigits, map_drop,
    Nat.ofDigits_div_pow_eq_ofDigits_drop offset (by omega) _ (digits_lt bytes)]

theorem number_take (width : Nat) : number (bytes.take width) = number bytes % 256 ^ width := by
  rw [number_eq_ofDigits, number_eq_ofDigits, map_take,
    Nat.ofDigits_mod_pow_eq_ofDigits_take width (by omega) _ (digits_lt bytes)]

theorem pow_256 (width : Nat) : 256 ^ width = 2 ^ (8 * width) := by
  rw [pow_mul]
  rfl

theorem load_eq_field (width : Nat) (bytes : Bytes) (offset : Nat) :
    load width bytes offset = field (number bytes) (8 * offset) (8 * width) := by
  rw [load, number_take, number_drop, pow_256, pow_256, field]

@[simp] theorem length_spell (width value : Nat) : (spell width value).length = width := by
  induction width generalizing value with
  | zero => rfl
  | succ width ih => rw [spell, length_cons, ih]

theorem number_spell (width value : Nat) : number (spell width value) = value % 256 ^ width := by
  induction width generalizing value with
  | zero => simp [spell, number, Nat.mod_one]
  | succ width ih =>
    have lowest : (UInt8.ofNat value).toNat = value % 256 := UInt8.toNat_ofNat'
    rw [spell, number, ih, lowest, pow_succ', Nat.mod_mul]

variable {width index : Nat}

theorem load_spell {value offset : Nat} {bytes rest : Bytes}
    (wrote : bytes.drop offset = spell width value ++ rest) :
    load width bytes offset = value % 256 ^ width := by
  rw [load, wrote, take_left' (length_spell width value), number_spell]

theorem drop_past {β : Type} {file front rest : List β} {place next : Nat}
    (wrote : file.drop place = front ++ rest) (after : place + front.length = next) :
    file.drop next = rest := by
  rw [← after, ← drop_drop, wrote, drop_left]

theorem drop_word {width value place : Nat} {file rest : Bytes}
    (wrote : file.drop place = spell width value ++ rest) : file.drop (place + width) = rest :=
  drop_past wrote (congrArg _ (length_spell width value))

theorem length_flatMap {encode : α → List β}
    (fixed : ∀ elem, (encode elem).length = width) (elements : List α) :
    (elements.flatMap encode).length = elements.length * width := by
  induction elements with
  | nil => simp
  | cons head rest ih =>
    rw [flatMap_cons, length_append, ih, fixed, length_cons]
    ring

theorem length_take_succ (encode : α → List β) (lt : index < elements.length) :
    ((elements.take (index + 1)).flatMap encode).length =
      ((elements.take index).flatMap encode).length + (encode elements[index]).length := by
  rw [take_succ_eq_append_getElem lt, flatMap_append, flatMap_singleton, length_append]

theorem length_take_le_all (encode : α → List β) (elements : List α) (index : Nat) :
    ((elements.take index).flatMap encode).length ≤ (elements.flatMap encode).length := by
  conv_rhs => rw [← take_append_drop index elements, flatMap_append, length_append]
  exact Nat.le_add_right _ _

theorem length_take_le {encode : α → List β} {most : Nat}
    (small : ∀ elem ∈ elements, (encode elem).length ≤ most) (lt : index ≤ elements.length) :
    ((elements.take index).flatMap encode).length ≤ index * most := by
  induction index with
  | zero => exact Nat.zero_le _
  | succ index ih =>
    have size := small _ (getElem_mem lt)
    rw [length_take_succ encode lt, Nat.succ_mul]
    omega

theorem drop_record (encode : α → List β) {file rest : List β} {place : Nat}
    (wrote : file.drop place = elements.flatMap encode ++ rest) (lt : index < elements.length) :
    file.drop (place + ((elements.take index).flatMap encode).length) =
      encode elements[index] ++ ((elements.drop (index + 1)).flatMap encode ++ rest) := by
  have split : elements.flatMap encode = (elements.take index).flatMap encode ++
      (encode elements[index] ++ (elements.drop (index + 1)).flatMap encode) := by
    rw [← flatMap_cons, ← drop_eq_getElem_cons lt, ← flatMap_append, take_append_drop]
  rw [split, append_assoc, append_assoc] at wrote
  exact drop_past wrote rfl

theorem drop_records {encode : α → List β}
    (fixed : ∀ elem, (encode elem).length = width) {file rest : List β}
    {place : Nat} (wrote : file.drop place = elements.flatMap encode ++ rest)
    (lt : index < elements.length) : file.drop (place + index * width) =
      encode elements[index] ++ ((elements.drop (index + 1)).flatMap encode ++ rest) := by
  have before := length_flatMap fixed (elements.take index)
  rw [length_take_of_le lt.le] at before
  rw [← before]
  exact drop_record encode wrote lt

theorem field_field {value position inner count : Nat} (fits : inner + count ≤ width) :
    field (field value position width) inner count = field value (position + inner) count := by
  have split : 2 ^ width = 2 ^ inner * 2 ^ (width - inner) := by
    rw [← pow_add]
    congr 1
    omega
  have divides : 2 ^ count ∣ 2 ^ (width - inner) := pow_dvd_pow 2 (by omega)
  unfold field
  rw [split, Nat.mod_mul_right_div_self, Nat.mod_mod_of_dvd _ divides, Nat.div_div_eq_div_mul,
    ← pow_add]

theorem field_split (value position low high : Nat) : field value position (low + high) =
      field value position low + 2 ^ low * field value (position + low) high := by
  unfold field
  rw [pow_add, Nat.mod_mul, Nat.div_div_eq_div_mul, ← pow_add]

theorem field_mod (value position : Nat) {count : Nat} (fits : count ≤ width) :
    field value position width % 2 ^ count = field value position count :=
  Nat.mod_mod_of_dvd _ (pow_dvd_pow 2 fits)

theorem field_lt (value position width : Nat) : field value position width < 2 ^ width :=
  Nat.mod_lt _ (Nat.two_pow_pos width)

theorem field_add_mul {low high position length : Nat} (fits : position + width ≤ length) :
    field (low + 2 ^ length * high) position width = field low position width := by
  have split : 2 ^ length = 2 ^ position * (2 ^ width * 2 ^ (length - position - width)) := by
    rw [← pow_add, ← pow_add]
    congr 1
    omega
  unfold field
  rw [split, mul_assoc, Nat.add_mul_div_left _ _ (Nat.two_pow_pos position), mul_assoc,
    Nat.add_mul_mod_self_left]

/-- Shifting a loaded word and masking it cuts out a field, if the field lies in the word. -/
theorem shift_mask (value shift width : Nat) :
    value >>> shift &&& (2 ^ width - 1) = field value shift width := by
  rw [Nat.and_two_pow_sub_one_eq_mod, Nat.shiftRight_eq_div_pow, field]

theorem field_ofDigits {digits : List Nat} (small : ∀ digit ∈ digits, digit < 2 ^ width)
    (lt : index < digits.length) :
    field (ofDigits (2 ^ width) digits) (index * width) width = digits[index] := by
  have pos := Nat.two_pow_pos width
  have bound := small _ (getElem_mem lt)
  unfold field
  rw [mul_comm index, pow_mul, Nat.ofDigits_div_pow_eq_ofDigits_drop index pos _ small,
    drop_eq_getElem_cons lt, Nat.ofDigits_cons, Nat.add_mul_mod_self_left, Nat.mod_eq_of_lt bound]

end Luxir.Lib.Bytes
