import Luxir.Lib.Bytes

/-!
Values of one bit width, packed without gaps across byte boundaries. The writer keeps the bits
that do not fill a byte yet; the readers load eight bytes at a value's first byte, or decode
groups of four values through one vector register.
-/

namespace Luxir.Codec.LinearPack
open Lib.Bytes List Nat

def tailPad : Nat := 10

def packedByteSize (count bits : Nat) : Nat := (count * bits + 7) >>> 3

def mask (bits : Nat) : Nat := if bits = 0 then 0 else (1 <<< bits) - 1

structure Writer where
  out : Bytes
  bits : Nat
  pending : Nat
  pendingBits : Nat
deriving DecidableEq, Repr

def Writer.start (out : Bytes) (bits : Nat) : Writer := ⟨out, bits, 0, 0⟩

/-- The loop of `append`: whole bytes leave the pending bits. -/
def Writer.emit (writer : Writer) : Nat → Nat → Bytes → Writer
  | totalBits + 8, pending, out =>
      writer.emit totalBits (pending >>> 8) (out ++ [UInt8.ofNat pending])
  | totalBits, pending, out =>
      { writer with out := out, pending := pending, pendingBits := totalBits }

def Writer.append (writer : Writer) (value : Nat) : Writer :=
  if writer.bits = 0 then writer
  else
    let pending := writer.pending ||| (value <<< writer.pendingBits) % 2 ^ 64
    writer.emit (writer.pendingBits + writer.bits) pending writer.out

def Writer.finish (writer : Writer) (writeTailPad : Bool) : Bytes :=
  let out :=
    if writer.pendingBits ≠ 0 then writer.out ++ [UInt8.ofNat writer.pending] else writer.out
  if writeTailPad then out ++ replicate tailPad 0 else out

def select32 (file : Bytes) (base idx bits mask : Nat) : Nat :=
  if bits = 0 then 0
  else
    let bitPos := idx * bits
    let word := load 8 file (base + bitPos >>> 3)
    (word >>> (bitPos % 8)) % 2 ^ 32 &&& mask

def select64 (file : Bytes) (base idx bits mask : Nat) : Nat :=
  if bits = 0 then 0
  else
    let bitPos := idx * bits
    let word := load 8 file (base + bitPos >>> 3)
    (word >>> (bitPos % 8)) &&& mask

/-- One lane of a group: the shuffle brings the four bytes that hold the value's first bit to the
lane, and from 26 bits on a second register supplies the bits beyond them. -/
def unpackLane (bits position : Nat) (file : Bytes) (packedStart mask : Nat) : Nat :=
  let offset := position >>> 3
  let shift := position % 8
  let packed := (file.drop packedStart).take (if bits ≤ 10 then 8 else 16)
  let unpacked := load 4 packed offset >>> shift
  if bits > 25 then
    let high := (load 4 ((file.drop (packedStart + 4)).take 16) offset <<< (32 - shift)) % 2 ^ 32
    (unpacked ||| high) &&& mask
  else unpacked &&& mask

def unpackGroup (bits phase : Nat) (file : Bytes) (packedStart mask : Nat) : List Nat :=
  (range 4).map fun lane => unpackLane bits (phase + lane * bits) file packedStart mask

/-- The vector kernel. Whole groups are decoded four values at a time (eight, by plain loads, at
32 bits), the rest one by one. Groups of odd width alternate between the phases 0 and 4. -/
def unpackBlockBits (bits : Nat) (file : Bytes) (base idx count mask : Nat) : List Nat :=
  let start := base + (idx * bits) >>> 3
  if bits = 32 then
    let grouped := count / 8 * 8
    (range grouped).map (fun i => load 4 file (start + i * 4)) ++
      (range' grouped (count - grouped)).map fun i => select32 file base (idx + i) bits mask
  else
    let groups := count / 4
    ((range groups).flatMap fun group =>
        unpackGroup bits (if bits % 2 = 0 then 0 else group % 2 * 4) file
          (start + (group * 4 * bits) >>> 3) mask) ++
      (range' (groups * 4) (count - groups * 4)).map fun i =>
        select32 file base (idx + i) bits mask

/-- `avx2` says whether the vector kernels were compiled in. -/
def unpack128 (avx2 : Bool) (file : Bytes) (base idx count bits mask : Nat) : List Nat :=
  if bits = 0 then replicate count 0
  else if avx2 then unpackBlockBits bits file base idx count mask
  else (range count).map fun i => select32 file base (idx + i) bits mask

variable {bits position : Nat} (writer : Writer)

/-- What the writer has taken so far, as one number: the bytes written since the start and the
pending bits above them. -/
structure Packs (before : Bytes) (values : List Nat) (writer : Writer) : Prop where
  written : ∃ payload, writer.out = before ++ payload ∧
    8 * payload.length + writer.pendingBits = values.length * writer.bits ∧
    number payload + 2 ^ (8 * payload.length) * writer.pending = ofDigits (2 ^ writer.bits) values
  short : writer.pendingBits < 8
  small : writer.pending < 2 ^ writer.pendingBits

theorem packs_start (out : Bytes) (bits : Nat) : Packs out [] (Writer.start out bits) where
  written := ⟨[], by simp [Writer.start], by simp [Writer.start], by simp [Writer.start, number]⟩
  short := by simp [Writer.start]
  small := by simp [Writer.start]

theorem emit_bits (totalBits left : Nat) (out : Bytes) :
    (writer.emit totalBits left out).bits = writer.bits := by
  fun_induction Writer.emit with
  | case1 totalBits left out ih => exact ih
  | case2 => rfl

theorem emit_spec (totalBits left : Nat) (out : Bytes) (small : left < 2 ^ totalBits) :
    ∃ payload, (writer.emit totalBits left out).out = out ++ payload ∧
      8 * payload.length + (writer.emit totalBits left out).pendingBits = totalBits ∧
      number payload + 2 ^ (8 * payload.length) * (writer.emit totalBits left out).pending =
        left ∧ (writer.emit totalBits left out).pendingBits < 8 ∧
      (writer.emit totalBits left out).pending <
        2 ^ (writer.emit totalBits left out).pendingBits := by
  fun_induction Writer.emit with
  | case1 totalBits left out ih =>
    have smaller : left >>> 8 < 2 ^ totalBits := by
      rw [Nat.shiftRight_eq_div_pow, Nat.div_lt_iff_lt_mul (Nat.two_pow_pos 8), ← pow_add]
      exact small
    obtain ⟨payload, wrote, length, value, rest⟩ := ih smaller
    refine ⟨UInt8.ofNat left :: payload, ?_, ?_, ?_, rest⟩
    · rw [wrote, append_assoc, singleton_append]
    · rw [length_cons]
      omega
    · have lowest : (UInt8.ofNat left).toNat = left % 256 := UInt8.toNat_ofNat'
      have shifted : left >>> 8 = left / 256 := Nat.shiftRight_eq_div_pow left 8
      rw [shifted] at value
      rw [number, lowest, length_cons, mul_succ, pow_add, mul_right_comm]
      rw [shifted]
      omega
  | case2 totalBits left out short =>
    refine ⟨[], by simp, by simp, by simp [number], ?_, small⟩
    by_contra long
    exact short (totalBits - 8) (by simp only at long; omega)

theorem append_bits (value : Nat) : (writer.append value).bits = writer.bits := by
  unfold Writer.append
  split_ifs
  · rfl
  · exact emit_bits _ _ _ _

theorem appends_bits (values : List Nat) (writer : Writer) :
    (values.foldl Writer.append writer).bits = writer.bits := by
  induction values generalizing writer with
  | nil => rfl
  | cons value rest ih => rw [foldl_cons, ih, append_bits]

theorem or_shiftLeft {left pendingBits value : Nat} (small : left < 2 ^ pendingBits)
    (fits : value < 2 ^ bits) (room : pendingBits + bits ≤ 64) :
    left ||| (value <<< pendingBits) % 2 ^ 64 = left + 2 ^ pendingBits * value ∧
      left + 2 ^ pendingBits * value < 2 ^ (pendingBits + bits) := by
  have bound : left + 2 ^ pendingBits * value < 2 ^ (pendingBits + bits) := by
    calc left + 2 ^ pendingBits * value < 2 ^ pendingBits + 2 ^ pendingBits * value := by omega
      _ = 2 ^ pendingBits * (value + 1) := by ring
      _ ≤ 2 ^ pendingBits * 2 ^ bits := Nat.mul_le_mul_left _ fits
      _ = 2 ^ (pendingBits + bits) := (pow_add _ _ _).symm
  refine ⟨?_, bound⟩
  have word : 2 ^ (pendingBits + bits) ≤ 2 ^ 64 := Nat.pow_le_pow_right (by omega) room
  have shifted : value <<< pendingBits = 2 ^ pendingBits * value := by
    rw [shiftLeft_eq, mul_comm]
  rw [mod_eq_of_lt (by omega), Nat.or_comm, ← shiftLeft_add_eq_or_of_lt small, shifted, add_comm]

section
variable {before : Bytes} {values : List Nat} {writer : Writer}
  (packs : Packs before values writer)
include packs

theorem packs_append {value : Nat} (narrow : writer.bits ≤ 57) (fits : value < 2 ^ writer.bits) :
    Packs before (values ++ [value]) (writer.append value) := by
  obtain ⟨⟨payload, wrote, length, spelled⟩, short, small⟩ := packs
  unfold Writer.append
  split_ifs with noBits
  · have zero : value = 0 := by
      rw [noBits] at fits
      omega
    refine ⟨⟨payload, wrote, by simp [noBits, length], ?_⟩, short, small⟩
    rw [zero, ofDigits_append_zero, spelled]
  · obtain ⟨merged, bound⟩ := or_shiftLeft small fits (by omega)
    obtain ⟨more, wroteMore, lengthMore, spelledMore, shortMore, smallMore⟩ :=
      emit_spec writer (writer.pendingBits + writer.bits) _ writer.out (merged ▸ bound)
    dsimp only
    refine ⟨⟨payload ++ more, ?_, ?_, ?_⟩, shortMore, smallMore⟩
    · rw [wroteMore, wrote, append_assoc]
    · rw [emit_bits, length_append, length_append, length_singleton, add_mul, one_mul]
      omega
    · rw [emit_bits, ofDigits_append, ← spelled, ofDigits_singleton, number_append,
        length_append, pow_256, mul_add, pow_add, ← pow_mul, mul_comm writer.bits,
        ← length, pow_add, add_assoc, mul_assoc, ← mul_add, spelledMore, merged]
      ring

theorem packs_appends {more : List Nat} (narrow : writer.bits ≤ 57)
    (fits : ∀ value ∈ more, value < 2 ^ writer.bits) :
    Packs before (values ++ more) (more.foldl Writer.append writer) := by
  induction more generalizing values writer with
  | nil => simpa using packs
  | cons value rest ih =>
    have bits := append_bits writer value
    have appended := packs_append packs narrow (fits value mem_cons_self)
    have packed := ih appended (bits ▸ narrow)
      fun other mem => bits ▸ fits other (mem_cons_of_mem _ mem)
    simpa using packed

/-- The finished bytes spell the values as the digits of one number. -/
theorem finish_spec : ∃ payload, writer.finish false = before ++ payload ∧
      payload.length = packedByteSize values.length writer.bits ∧
      number payload = ofDigits (2 ^ writer.bits) values := by
  obtain ⟨⟨payload, wrote, length, spelled⟩, short, small⟩ := packs
  have byteSize : packedByteSize values.length writer.bits =
      (values.length * writer.bits + 7) / 8 := Nat.shiftRight_eq_div_pow _ 3
  unfold Writer.finish
  by_cases empty : writer.pendingBits = 0
  · have nothing : writer.pending = 0 := by
      rw [empty] at small
      omega
    refine ⟨payload, by simp [empty, wrote], by omega, ?_⟩
    rwa [nothing, mul_zero, add_zero] at spelled
  · have last : (UInt8.ofNat writer.pending).toNat = writer.pending := by
      have bound : 2 ^ writer.pendingBits ≤ 2 ^ 8 := Nat.pow_le_pow_right (by omega) (by omega)
      rw [UInt8.toNat_ofNat']
      exact mod_eq_of_lt (by omega)
    refine ⟨payload ++ [UInt8.ofNat writer.pending], by simp [empty, wrote], ?_, ?_⟩
    · rw [length_append, length_singleton]
      omega
    · rw [number_append, number, number, last, pow_256, mul_zero, add_zero]
      exact spelled

end

theorem pack_spec (before : Bytes) (values : List Nat) (narrow : bits ≤ 57)
    (fits : ∀ value ∈ values, value < 2 ^ bits) :
    ∃ payload, (values.foldl Writer.append (Writer.start before bits)).finish false =
        before ++ payload ∧ payload.length = packedByteSize values.length bits ∧
      number payload = ofDigits (2 ^ bits) values := by
  have same : (values.foldl Writer.append (Writer.start before bits)).bits = bits :=
    appends_bits values _
  have packs := packs_appends (packs_start before bits) narrow fits
  have finished := finish_spec packs
  rwa [same] at finished

theorem finish_pad : writer.finish true = writer.finish false ++ replicate tailPad 0 := by
  simp [Writer.finish]

variable (file : Bytes) (base : Nat)

theorem mask_eq (bits : Nat) : mask bits = 2 ^ bits - 1 := by
  unfold mask
  split_ifs with noBits
  · simp [noBits]
  · rw [shiftLeft_eq, one_mul]

theorem field_zero (value position : Nat) : field value position 0 = 0 := by
  simp [field, mod_one]

theorem load_field {width : Nat} (fits : position % 8 + bits ≤ 8 * width) :
    field (load width file (base + position >>> 3)) (position % 8) bits =
      field (number (file.drop base)) position bits := by
  have whole := shiftRight_eq_div_pow position 3
  have same : load width file (base + position >>> 3) =
      load width (file.drop base) (position / 8) := by
    rw [load, load, drop_drop, whole]
  rw [same, load_eq_field, field_field fits]
  congr 1
  omega

theorem select64_eq (idx : Nat) (narrow : bits ≤ 57) : select64 file base idx bits (mask bits) =
      field (number (file.drop base)) (idx * bits) bits := by
  unfold select64
  split_ifs with noBits
  · rw [noBits, field_zero]
  · rw [mask_eq, shift_mask]
    exact load_field file base (by omega)

theorem select32_eq (idx : Nat) (narrow : bits ≤ 32) : select32 file base idx bits (mask bits) =
      field (number (file.drop base)) (idx * bits) bits := by
  unfold select32
  split_ifs with noBits
  · rw [noBits, field_zero]
  · rw [mask_eq, and_two_pow_sub_one_eq_mod, mod_mod_of_dvd _ (pow_dvd_pow 2 narrow),
      shiftRight_eq_div_pow]
    exact load_field file base (by omega)

theorem load_register (start width offset : Nat) (fits : offset + 4 ≤ width) :
    load 4 ((file.drop start).take width) offset = load 4 file (start + offset) := by
  unfold load
  rw [drop_take, take_take, drop_drop, min_eq_left (by omega)]

theorem or_high (low high : Nat) {shift : Nat} (short : shift ≤ 32) (bound : low < 2 ^ 32) :
    low >>> shift ||| (high <<< (32 - shift)) % 2 ^ 32 = field (low + 2 ^ 32 * high) shift 32 := by
  set unit := 2 ^ (32 - shift)
  have word : 2 ^ 32 = unit * 2 ^ shift := by
    rw [← pow_add]
    congr 1
    omega
  have shifted : (high <<< (32 - shift)) % 2 ^ 32 = (high % 2 ^ shift) <<< (32 - shift) := by
    rw [shiftLeft_eq, shiftLeft_eq, mul_comm high, word, mul_mod_mul_left, mul_comm]
  have small : low >>> shift < unit := by
    rw [Nat.shiftRight_eq_div_pow, Nat.div_lt_iff_lt_mul (Nat.two_pow_pos shift), ← word]
    exact bound
  have above : low / 2 ^ shift + unit * (high % 2 ^ shift) < 2 ^ 32 := by
    have top := Nat.mod_lt high (Nat.two_pow_pos shift)
    calc low / 2 ^ shift + unit * (high % 2 ^ shift) < unit + unit * (high % 2 ^ shift) := by omega
      _ = unit * (high % 2 ^ shift + 1) := by ring
      _ ≤ unit * 2 ^ shift := Nat.mul_le_mul_left _ top
      _ = 2 ^ 32 := word.symm
  rw [shifted, Nat.or_comm, ← shiftLeft_add_eq_or_of_lt small, shiftLeft_eq,
    Nat.shiftRight_eq_div_pow, field]
  conv_rhs => rw [word, mul_comm unit, mul_assoc, add_mul_div_left _ _ (Nat.two_pow_pos shift)]
  rw [mul_comm (2 ^ shift), ← word]
  have exact_high : unit * high % 2 ^ 32 = unit * (high % 2 ^ shift) := by
    rw [word, mul_mod_mul_left]
  have reduced : (low / 2 ^ shift + unit * high) % 2 ^ 32 =
      low / 2 ^ shift + unit * (high % 2 ^ shift) := by
    rw [add_mod, exact_high, mod_eq_of_lt (show low / 2 ^ shift < 2 ^ 32 by omega),
      mod_eq_of_lt above]
  rw [reduced, mul_comm, add_comm]

theorem load_eight (offset : Nat) :
    load 8 file offset = load 4 file offset + 2 ^ 32 * load 4 file (offset + 4) := by
  rw [load_eq_field, load_eq_field, load_eq_field, mul_add]
  exact field_split _ _ 32 32

theorem load_four_lt (offset : Nat) : load 4 file offset < 2 ^ 32 := by
  rw [load_eq_field]
  exact field_lt _ _ _

theorem unpackLane_eq (packedStart : Nat) (narrow : bits < 32) (near : position ≤ 4 + 3 * bits) :
    unpackLane bits position file packedStart (mask bits) =
      field (number (file.drop packedStart)) position bits := by
  have first : load 4 ((file.drop packedStart).take (if bits ≤ 10 then 8 else 16))
      (position >>> 3) = load 4 file (packedStart + position >>> 3) := by
    apply load_register
    split_ifs <;> omega
  have second : load 4 ((file.drop (packedStart + 4)).take 16) (position >>> 3) =
      load 4 file (packedStart + position >>> 3 + 4) := by
    rw [load_register _ _ _ _ (by omega), add_right_comm]
  unfold unpackLane
  dsimp only
  rw [first, second]
  split_ifs with wide
  · rw [or_high _ _ (by omega) (load_four_lt _ _), ← load_eight, mask_eq,
      and_two_pow_sub_one_eq_mod, field_mod _ _ (by omega)]
    exact load_field file packedStart (by omega)
  · rw [mask_eq, shift_mask]
    exact load_field file packedStart (by omega)

/-- A group starts at the byte of its first value, and its phase is that value's bit there. -/
theorem unpackGroup_eq {phase start : Nat} (narrow : bits < 32) (near : phase ≤ 4)
    (at_start : 8 * start + phase = position) :
    unpackGroup bits phase file (base + start) (mask bits) = (range 4).map fun lane =>
        field (number (file.drop base)) (position + lane * bits) bits := by
  apply map_congr_left
  intro lane mem
  have few := mem_range.mp mem
  have reach : lane * bits ≤ 3 * bits := Nat.mul_le_mul_right bits (by omega)
  rw [unpackLane_eq file _ narrow (by omega), ← drop_drop, number_drop, pow_256]
  unfold field
  rw [Nat.div_div_eq_div_mul, ← pow_add]
  congr 3
  omega

theorem flatMap_groups (groups : Nat) (value : Nat → Nat) :
    ((range groups).flatMap fun group => (range 4).map fun lane =>
      value (group * 4 + lane)) = (range (groups * 4)).map value := by
  induction groups with
  | zero => rfl
  | succ groups ih =>
    have last : range (groups + 1) = range groups ++ [groups] := range_succ
    rw [last, flatMap_append, ih, succ_mul, range_add, map_append, map_map, flatMap_singleton]
    rfl

theorem range_append_range' (first count : Nat) (fits : first ≤ count) :
    range first ++ range' first (count - first) = range count := by
  have whole := range'_append_1 (s := 0) (m := first) (n := count - first)
  rw [zero_add, Nat.add_sub_cancel' fits] at whole
  rw [range_eq_range', range_eq_range', whole]

theorem group_phase (group bits : Nat) :
    group * 4 * bits % 8 = if bits % 2 = 0 then 0 else group % 2 * 4 := by
  obtain ⟨half, rfl | rfl⟩ := even_or_odd' bits
  · have product : group * 4 * (2 * half) = 8 * (group * half) := by ring
    split_ifs <;> omega
  · have product : group * 4 * (2 * half + 1) = 8 * (group * half) + 4 * group := by ring
    split_ifs <;> omega

theorem unpackBlockBits_eq {idx : Nat} (count : Nat) (narrow : bits ≤ 32) (aligned : idx % 8 = 0) :
    unpackBlockBits bits file base idx count (mask bits) = (range count).map fun i =>
        field (number (file.drop base)) ((idx + i) * bits) bits := by
  obtain ⟨octet, rfl⟩ := dvd_of_mod_eq_zero aligned
  have start : (8 * octet * bits) >>> 3 = octet * bits := by
    rw [Nat.shiftRight_eq_div_pow, mul_assoc]
    omega
  have position : ∀ i, (8 * octet + i) * bits = 8 * (octet * bits) + i * bits := by
    intro i
    rw [add_mul, mul_assoc]
  unfold unpackBlockBits
  dsimp only
  rw [start]
  split
  · rename_i widest
    rw [← range_append_range' (count / 8 * 8) count (by omega), map_append]
    congr 1
    all_goals
      apply map_congr_left
      intro i _
    · have whole : base + octet * bits + i * 4 = base + ((8 * octet + i) * bits) >>> 3 := by
        rw [position, Nat.shiftRight_eq_div_pow, widest]
        omega
      have lt : (8 * octet + i) * bits % 8 = 0 := by
        rw [position, widest]
        omega
      have plain : field (load 4 file (base + ((8 * octet + i) * bits) >>> 3))
          ((8 * octet + i) * bits % 8) bits =
          field (number (file.drop base)) ((8 * octet + i) * bits) bits :=
        load_field file base (by rw [lt]; omega)
      rw [whole, ← plain, lt, field, pow_zero, Nat.div_one, widest, mod_eq_of_lt (load_four_lt _ _)]
    · exact select32_eq file base _ narrow
  · rw [← range_append_range' (count / 4 * 4) count (by omega), map_append, ← flatMap_groups]
    congr 1
    · congr 1
      funext group
      have phase : 8 * (octet * bits + (group * 4 * bits) >>> 3) +
          (if bits % 2 = 0 then 0 else group % 2 * 4) = (8 * octet + group * 4) * bits := by
        rw [position, Nat.shiftRight_eq_div_pow, ← group_phase]
        omega
      rw [add_assoc, unpackGroup_eq file base (by omega) (by split_ifs <;> omega) phase]
      apply map_congr_left
      intro lane _
      rw [← add_assoc, add_mul (8 * octet + group * 4)]
    · apply map_congr_left
      intro i _
      exact select32_eq file base _ narrow

theorem unpack128_eq (avx2 : Bool) {idx : Nat} (file : Bytes) (base count : Nat)
    (narrow : bits ≤ 32) (aligned : idx % 8 = 0) :
    unpack128 avx2 file base idx count bits (mask bits) = (range count).map fun i =>
        field (number (file.drop base)) ((idx + i) * bits) bits := by
  unfold unpack128
  split_ifs with noBits vector
  · simp [noBits, field_zero, map_const']
  · exact unpackBlockBits_eq file base count narrow aligned
  · apply map_congr_left
    intro i _
    exact select32_eq file base _ narrow

theorem field_packed {residuals : List Nat} {payload file rest : Bytes}
    {place : Nat} (small : ∀ value ∈ residuals, value < 2 ^ bits)
    (length : payload.length = packedByteSize residuals.length bits)
    (spelled : number payload = ofDigits (2 ^ bits) residuals)
    (wrote : file.drop place = payload ++ rest) {rank : Nat} (lt : rank < residuals.length) :
    field (number (file.drop place)) (rank * bits) bits = residuals[rank] := by
  have byteSize : payload.length = (residuals.length * bits + 7) / 8 :=
    length.trans (shiftRight_eq_div_pow _ 3)
  have before : (rank + 1) * bits ≤ residuals.length * bits := mul_le_mul_right bits lt
  rw [add_mul, one_mul] at before
  rw [wrote, number_append, pow_256, field_add_mul (by omega), spelled, field_ofDigits small lt]

/-- The packed values are what the selects give back, and the vector kernel decodes whatever the
select does. -/
theorem packed_values_selected (values : List Nat) (out rest : Bytes) (writeTailPad : Bool)
    (narrow : bits ≤ 57) (fits : ∀ value ∈ values, value < 2 ^ bits) :
    (∀ i (inside : i < values.length),
      select64 ((values.foldl Writer.append (Writer.start out bits)).finish writeTailPad ++ rest)
        out.length i bits (mask bits) = values[i] ∧ (bits ≤ 32 →
        select32 ((values.foldl Writer.append (Writer.start out bits)).finish writeTailPad ++ rest)
          out.length i bits (mask bits) = values[i])) ∧
    (0 < bits → bits ≤ 32 → ∀ file base idx count, idx % 8 = 0 → count ≤ 128 →
      unpackBlockBits bits file base idx count (mask bits) =
          (range count).map (fun i => select32 file base (idx + i) bits (mask bits)) ∧
        unpack128 true file base idx count bits (mask bits) =
          (range count).map fun i => select32 file base (idx + i) bits (mask bits)) := by
  constructor
  · intro i inside
    obtain ⟨payload, wrote, length, spelled⟩ := pack_spec out values narrow fits
    have placed : ∃ more, ((values.foldl Writer.append (Writer.start out bits)).finish
        writeTailPad ++ rest).drop out.length = payload ++ more := by
      cases writeTailPad with
      | false => exact ⟨rest, by rw [wrote, append_assoc, drop_left]⟩
      | true =>
        refine ⟨replicate tailPad 0 ++ rest, ?_⟩
        rw [finish_pad, wrote, append_assoc, append_assoc, drop_left]
    obtain ⟨more, placed⟩ := placed
    have read := field_packed fits length spelled placed inside
    refine ⟨?_, fun small => ?_⟩
    · rw [select64_eq _ _ _ narrow, read]
    · rw [select32_eq _ _ _ small, read]
  · intro _ small file base idx count aligned _
    have same : (range count).map (fun i => select32 file base (idx + i) bits (mask bits)) =
        (range count).map fun i =>
          field (number (file.drop base)) ((idx + i) * bits) bits := by
      apply map_congr_left
      intro i _
      exact select32_eq file base _ small
    rw [same]
    exact ⟨unpackBlockBits_eq file base count small aligned,
      unpack128_eq true file base count small aligned⟩

def fiveBits : Bytes := ([3, 17, 31].foldl Writer.append (Writer.start [7] 5)).finish true

theorem packed_values_selected_five : select64 fiveBits 1 2 5 (mask 5) = 31 ∧
    select32 fiveBits 1 1 5 (mask 5) = 17 ∧ unpackBlockBits 5 fiveBits 1 0 3 (mask 5) = [3, 17, 31] ∧
    unpack128 true fiveBits 1 0 3 5 (mask 5) = [3, 17, 31] := by
  obtain ⟨selects, unpacks⟩ := packed_values_selected [3, 17, 31] [7] [] true
    (show 5 ≤ 57 by decide) (by decide)
  rw [append_nil] at selects
  have first := (selects 0 (by decide)).2 (by decide)
  have second := (selects 1 (by decide)).2 (by decide)
  have third := selects 2 (by decide)
  have each : (range 3).map (fun i => select32 fiveBits 1 (0 + i) 5 (mask 5)) = [3, 17, 31] := by
    exact congrArg₂ cons first (congrArg₂ cons second (congrArg₂ cons (third.2 (by decide)) rfl))
  have blocks := unpacks (by decide) (by decide) fiveBits 1 0 3 rfl (by decide)
  rw [each] at blocks
  exact ⟨third.1, second, blocks⟩

end Luxir.Codec.LinearPack
