import Luxir.Codec.Pfor

/-!
The lane of a block's residuals. What the kernels are assumed to do, and what the lane then does:
it is read back from the words it was written to, whatever lies behind them.
-/

namespace Luxir.Codec.PforLane
open Lib.Bytes Pfor List

/-- A pair of kernels for groups of one size: the words of a group are as many as its bits fill, and
unpacking is the inverse of packing. -/
structure Inverse (size : Nat) (pack : Nat → (Fin size → Word) → List Word)
    (unpack : Nat → List Word → Fin size → Word) : Prop where
  length : ∀ {bits : Nat} (values : Fin size → Word), bits ≤ 32 →
    (pack bits values).length = size * bits / 32
  unpack : ∀ {bits : Nat} (values : Fin size → Word) (rest : List Word), bits ≤ 32 →
    (∀ i, (values i).toNat < 2 ^ bits) → unpack bits (pack bits values ++ rest) = values

def low (bits : Nat) (value : Word) : Word := BitVec.ofNat 32 (value.toNat % 2 ^ bits)

def widthOf (word : Word) : Nat := Lib.Words.bitWidth word.toNat

/-- The kernels of one width are inverse to each other. Of the three that pack only the first one
masks its values. -/
structure Inverses (kernels : Kernels) : Prop where
  simd : Inverse 128 kernels.simdpack kernels.simdunpack
  masks : ∀ {bits : Nat} (values : Block), bits ≤ 32 →
    kernels.simdpack bits values = kernels.simdpack bits fun i => low bits (values i)
  usimd : Inverse 128 kernels.usimdpackwithoutmask kernels.usimdunpack
  fast : Inverse 32 kernels.fastpackwithoutmask kernels.fastunpack
  gccbits : kernels.gccbits = widthOf

def Local (kernels : Kernels) : Prop :=
  ∀ {bits count : Nat} (words rest stale : List Word), bits ≤ 32 →
    (count * bits + 31) / 32 ≤ words.length → ∀ i : Fin 32, i.val < count →
      kernels.fastunpack bits (words ++ rest) i = kernels.fastunpack bits (words ++ stale) i

section
variable {size : Nat} {values : List Word}

theorem ofFn_group {j : Nat} (lt : j + size ≤ values.length) :
    ofFn (group size values j) = (values.drop j).take size := by
  apply ext_getElem
  · rw [length_ofFn, length_take, length_drop]
    omega
  intro i first second
  rw [length_ofFn] at first
  rw [List.getElem_ofFn, getElem_take, getElem_drop]
  unfold group
  rw [getD_eq_getElem?_getD, getElem?_eq_getElem (show j + i < values.length by omega)]
  rfl

theorem flatMap_group (j count : Nat) (lt : j + size * count ≤ values.length) :
    (range count).flatMap (fun g => ofFn (group size values (j + size * g))) =
      (values.drop j).take (size * count) := by
  induction count with
  | zero => rw [mul_zero, take_zero]; rfl
  | succ count ih =>
    rw [Nat.mul_succ] at lt
    rw [range_succ, flatMap_append, ih (by omega), flatMap_singleton,
      ofFn_group (by omega), Nat.mul_succ, take_add, drop_drop]

theorem group_lt {bits j : Nat} (small : ∀ value ∈ values, value.toNat < 2 ^ bits) (i : Fin size) :
    (group size values j i).toNat < 2 ^ bits := by
  unfold group
  rw [getD_eq_getElem?_getD]
  cases found : values[j + i.val]? with
  | none => exact Nat.two_pow_pos bits
  | some value => exact small value (mem_of_getElem? found)

end

variable {kernels : Kernels} {lane : Nat}

def tailWords (bits count : Nat) : Nat := (count % 32 * bits + 31) / 32

theorem tailWords_le {bits count : Nat} : tailWords bits count ≤ bits := by
  have most : count % 32 * bits ≤ 31 * bits := Nat.mul_le_mul_right _ (by omega)
  unfold tailWords
  omega

/-- The groups of a lane in their order: whole ones of 128, whole ones of 32, and the start of the
last one. -/
def simdPart (kernels : Kernels) (lane : Nat) (values : List Word) : List Word :=
  (range (values.length / 128)).flatMap fun g =>
    kernels.usimdpackwithoutmask (lane + 1) (group 128 values (128 * g))

def fastGroup (kernels : Kernels) (lane : Nat) (values : List Word) (g : Nat) : List Word :=
  kernels.fastpackwithoutmask (lane + 1) (group 32 values (128 * (values.length / 128) + 32 * g))

def fastPart (kernels : Kernels) (lane : Nat) (values : List Word) : List Word :=
  (range (values.length % 128 / 32)).flatMap (fastGroup kernels lane values)

def tailPart (kernels : Kernels) (lane : Nat) (values : List Word) : List Word :=
  (fastGroup kernels lane values (values.length % 128 / 32)).take (tailWords (lane + 1) values.length)

section
variable (inverses : Inverses kernels)
include inverses

variable (bound : lane < 32)
include bound

variable (values : List Word)
include values

theorem length_usimd (g : Nat) :
    (kernels.usimdpackwithoutmask (lane + 1) (group 128 values (128 * g))).length =
      4 * (lane + 1) := by
  rw [inverses.usimd.length _ bound]
  omega

theorem length_fastGroup (g : Nat) : (fastGroup kernels lane values g).length = lane + 1 := by
  unfold fastGroup
  rw [inverses.fast.length _ bound]
  omega

theorem length_simdPart :
    (simdPart kernels lane values).length = values.length / 128 * (4 * (lane + 1)) := by
  unfold simdPart
  rw [length_flatMap (length_usimd inverses bound values), length_range]

theorem length_fastPart :
    (fastPart kernels lane values).length = values.length % 128 / 32 * (lane + 1) := by
  unfold fastPart
  rw [length_flatMap (length_fastGroup inverses bound values), length_range]

theorem length_tailPart :
    (tailPart kernels lane values).length = tailWords (lane + 1) values.length := by
  unfold tailPart
  rw [length_take, length_fastGroup inverses bound]
  exact Nat.min_eq_left tailWords_le

theorem writeLane_eq : writeLane kernels lane values =
      simdPart kernels lane values ++ (fastPart kernels lane values ++
        tailPart kernels lane values) := by
  set n := values.length with size
  have front := length_simdPart inverses bound values
  have last := length_fastGroup inverses bound values
  have rest : n - 128 * (n / 128) = n % 128 := by omega
  have scalar : ∀ groups, ((range groups).flatMap (fastGroup kernels lane values)).length =
      groups * (lane + 1) := by
    intro groups
    rw [length_flatMap last, length_range]
  have whole : writeLane kernels lane values =
      (simdPart kernels lane values ++ (range ((n % 128 + 31) / 32)).flatMap
        (fastGroup kernels lane values)).take (n / 128 * (4 * (lane + 1)) +
          (n % 128 + 31) / 32 * (lane + 1) -
          (128 * (n / 128) + 32 * ((n % 128 + 31) / 32) - n) * (lane + 1) / 32) := by
    rw [← front, ← scalar, ← length_append, ← rest]
    rfl
  rw [whole]
  by_cases even : n % 32 = 0
  · -- no partial group: nothing is taken back
    have groups : (n % 128 + 31) / 32 = n % 128 / 32 := by omega
    have full : 128 * (n / 128) + 32 * (n % 128 / 32) - n = 0 := by
      omega
    have noTail : tailPart kernels lane values = [] := by
      rw [tailPart, tailWords, even]
      rw [zero_mul]
      exact take_zero
    rw [groups, full, noTail, append_nil, zero_mul, Nat.zero_div, Nat.sub_zero]
    refine take_of_length_le ?_
    rw [length_append, front, scalar]
  · have groups : (n % 128 + 31) / 32 = n % 128 / 32 + 1 := by omega
    have excess : 128 * (n / 128) + 32 * (n % 128 / 32 + 1) - n = 32 - n % 32 := by omega
    have kept : lane + 1 - (32 - n % 32) * (lane + 1) / 32 = tailWords (lane + 1) n := by
      have most : n % 32 * (lane + 1) ≤ 32 * (lane + 1) := Nat.mul_le_mul_right _ (by omega)
      unfold tailWords
      rw [Nat.sub_mul]
      omega
    have back : (32 - n % 32) * (lane + 1) / 32 ≤ lane + 1 := by
      have most : (32 - n % 32) * (lane + 1) ≤ 32 * (lane + 1) := Nat.mul_le_mul_right _ (by omega)
      omega
    have count : n / 128 * (4 * (lane + 1)) + (n % 128 / 32 + 1) * (lane + 1) -
          (32 - n % 32) * (lane + 1) / 32 =
        (simdPart kernels lane values).length + ((fastPart kernels lane values).length +
          tailWords (lane + 1) n) := by
      rw [front, length_fastPart inverses bound, ← size, ← kept, add_mul, one_mul]
      omega
    rw [groups, excess, range_succ, flatMap_append, flatMap_singleton, count,
      take_length_add_append]
    show simdPart kernels lane values ++ ((fastPart kernels lane values ++ _).take _) = _
    rw [take_length_add_append]
    rfl

theorem length_writeLane :
    (writeLane kernels lane values).length = values.length / 128 * (4 * (lane + 1)) +
      (values.length % 128 / 32 * (lane + 1) + tailWords (lane + 1) values.length) := by
  rw [writeLane_eq inverses bound, length_append, length_append,
    length_simdPart inverses bound, length_fastPart inverses bound, length_tailPart inverses bound]

end

theorem place_eq (start bits count : Nat) :
    start + 4 * bits * (count / 128) + bits * ((count - 128 * (count / 128)) / 32) +
        ((count + 31) / 32 * 32 - (128 * (count / 128) +
          32 * ((count - 128 * (count / 128)) / 32))) / 32 * bits -
      ((count + 31) / 32 * 32 - count) * bits / 32 =
    start + (count / 128 * (4 * bits) + (count % 128 / 32 * bits + tailWords bits count)) := by
  have rest : count - 128 * (count / 128) = count % 128 := by omega
  have done : 128 * (count / 128) + 32 * (count % 128 / 32) = count / 32 * 32 := by omega
  rw [rest, done, mul_comm (4 * bits), mul_comm bits]
  unfold tailWords
  by_cases even : count % 32 = 0
  · have same : (count + 31) / 32 * 32 = count := by omega
    have noGroups : (count - count / 32 * 32) / 32 = 0 := by omega
    rw [same, noGroups, even, Nat.sub_self, zero_mul, Nat.zero_div]
    omega
  · have one : ((count + 31) / 32 * 32 - count / 32 * 32) / 32 = 1 := by omega
    have excess : (count + 31) / 32 * 32 - count = 32 - count % 32 := by omega
    have most : count % 32 * bits ≤ 32 * bits := Nat.mul_le_mul_right _ (by omega)
    rw [one, excess, Nat.sub_mul, one_mul]
    omega

variable (inverses : Inverses kernels)
include inverses

theorem read_simdPart (bound : lane < 32)
    (small : ∀ value ∈ values, value.toNat < 2 ^ (lane + 1)) (rest : List Word) :
    (range (values.length / 128)).flatMap (fun g => ofFn (kernels.usimdunpack (lane + 1)
      ((simdPart kernels lane values ++ rest).drop (4 * (lane + 1) * g)))) =
      values.take (128 * (values.length / 128)) := by
  have parts : _ = (values.drop 0).take (128 * (values.length / 128)) :=
    flatMap_group 0 (values.length / 128) (by omega)
  rw [drop_zero] at parts
  rw [← parts]
  refine flatMap_congr fun g mem => ?_
  have lt : g < (range (values.length / 128)).length := by
    rw [length_range]
    exact mem_range.mp mem
  have wrote : (simdPart kernels lane values ++ rest).drop 0 = _ := rfl
  have found := drop_records (length_usimd inverses bound values) wrote lt
  rw [zero_add, getElem_range, mul_comm g] at found
  rw [found, inverses.usimd.unpack _ _ bound fun i => group_lt small i, zero_add]

theorem read_fastPart (bound : lane < 32)
    (small : ∀ value ∈ values, value.toNat < 2 ^ (lane + 1)) {stream rest : List Word} {place : Nat}
    (wrote : stream.drop place = fastPart kernels lane values ++ rest) :
    (range (values.length % 128 / 32)).flatMap (fun g => ofFn (kernels.fastunpack (lane + 1)
      (stream.drop (place + (lane + 1) * g)))) =
      (values.drop (128 * (values.length / 128))).take (32 * (values.length % 128 / 32)) := by
  rw [← flatMap_group _ _ (by omega)]
  refine flatMap_congr fun g mem => ?_
  have lt : g < (range (values.length % 128 / 32)).length := by
    rw [length_range]
    exact mem_range.mp mem
  have found := drop_records (length_fastGroup inverses bound values) wrote lt
  rw [getElem_range, mul_comm g] at found
  rw [found, fastGroup, inverses.fast.unpack _ _ bound fun i => group_lt small i]

/-- The last group, from the words that were kept and whatever the buffer held behind them. -/
theorem read_tailPart (tight : Local kernels) (bound : lane < 32)
    (small : ∀ value ∈ values, value.toNat < 2 ^ (lane + 1)) (stale : List Word) :
    (ofFn (kernels.fastunpack (lane + 1) (tailPart kernels lane values ++ stale))).take
        (values.length % 32) = values.drop (values.length / 32 * 32) := by
  have start : 128 * (values.length / 128) + 32 * (values.length % 128 / 32) =
      values.length / 32 * 32 := by omega
  apply ext_getElem
  · rw [length_take, length_ofFn, length_drop]
    omega
  intro i first second
  rw [length_take, length_ofFn] at first
  have lt : i < values.length % 32 := by omega
  have kept := length_tailPart inverses bound values
  have whole := take_append_drop (tailWords (lane + 1) values.length)
    (fastGroup kernels lane values (values.length % 128 / 32))
  have found : kernels.fastunpack (lane + 1)
      (fastGroup kernels lane values (values.length % 128 / 32) ++ []) =
        group 32 values (128 * (values.length / 128) + 32 * (values.length % 128 / 32)) :=
    inverses.fast.unpack _ [] bound fun i => group_lt small i
  rw [append_nil, ← whole, start] at found
  have same := (tight (tailPart kernels lane values) stale _ bound (le_of_eq kept.symm)
    ⟨i, by omega⟩ lt).trans (congrFun found ⟨i, by omega⟩)
  have place : values.length / 32 * 32 + i < values.length := by omega
  rw [getElem_take, List.getElem_ofFn, getElem_drop, same]
  unfold group
  rw [getD_eq_getElem?_getD, getElem?_eq_getElem place]
  rfl

theorem readLane_writeLane (tight : Local kernels) (bound : lane < 32)
    (small : ∀ value ∈ values, value.toNat < 2 ^ (lane + 1)) (stale rest : List Word) :
    readLane kernels stale (writeLane kernels lane values ++ rest) lane values.length =
      (values, (writeLane kernels lane values).length) := by
  set tail := tailPart kernels lane values
  set n := values.length
  have remaining : n - (128 * (n / 128) + 32 * (n % 128 / 32)) = n % 32 := by omega
  have rem : n - 128 * (n / 128) = n % 128 := by omega
  have done : 128 * (n / 128) + 32 * (n % 128 / 32) = n / 32 * 32 := by omega
  have stream : writeLane kernels lane values ++ rest = simdPart kernels lane values ++
      (fastPart kernels lane values ++ (tail ++ rest)) := by
    rw [writeLane_eq inverses bound, append_assoc, append_assoc]
  have past : (writeLane kernels lane values ++ rest).drop
      (4 * (lane + 1) * (n / 128)) = fastPart kernels lane values ++ (tail ++ rest) := by
    rw [stream]
    refine drop_left' ?_
    rw [length_simdPart inverses bound, mul_comm]
  have last : (writeLane kernels lane values ++ rest).drop
      (4 * (lane + 1) * (n / 128) + (lane + 1) * (n % 128 / 32)) = tail ++ rest :=
    drop_past past (by rw [length_fastPart inverses bound, mul_comm (n % 128 / 32)])
  have buffer : (tail ++ rest).take ((n % 32 * (lane + 1) + 31) / 32) = tail :=
    take_left' (length_tailPart inverses bound values)
  have simd := read_simdPart inverses bound small (fastPart kernels lane values ++ (tail ++ rest))
  rw [← stream] at simd
  unfold readLane
  dsimp only
  rw [rem, remaining, last, buffer, simd, read_fastPart inverses bound small past, ← take_add, done]
  apply Prod.ext
  · by_cases even : n % 32 = 0
    · rw [even]
      show (values.take (n / 32 * 32) ++ []).take n = values
      rw [append_nil, take_take]
      exact take_of_length_le (by omega)
    · have one : (n % 32 + 31) / 32 = 1 := by omega
      have cut : (values.take (n / 32 * 32)).length + n % 32 = n := by
        rw [length_take]
        omega
      rw [one]
      show (values.take (n / 32 * 32) ++ (ofFn (kernels.fastunpack (lane + 1)
        (tail ++ stale)) ++ [])).take n = values
      conv_lhs =>
        arg 1
        rw [← cut]
      rw [append_nil, take_length_add_append, read_tailPart inverses tight bound small,
        take_append_drop]
  · have sizes := place_eq 0 (lane + 1) n
    rw [zero_add, zero_add, rem, done] at sizes
    rw [length_writeLane inverses bound, ← sizes]
    have met : n / 32 * 32 + 32 * ((n % 32 + 31) / 32) = (n + 31) / 32 * 32 := by omega
    rw [met]

end Luxir.Codec.PforLane
