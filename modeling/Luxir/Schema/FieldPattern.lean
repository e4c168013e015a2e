import Luxir.Util.Gallop
import Mathlib.Data.List.Infix
import Mathlib.Data.List.Lex
import Mathlib.Data.List.TakeWhile
import Mathlib.Order.Fin.Basic

/-!
Field selectors. A star of a pattern stands for any run of bytes. A catalog is sorted by name, so
the names that begin with the literal head of a pattern lie side by side in it.
-/

namespace Luxir.Schema.FieldPattern
open List Util.Gallop

abbrev Byte := Fin 256

/-- `*` -/
def star : Byte := 42

/-- `_` -/
def underscore : Byte := 95

/-- The matching loop, on what is left of the pattern and of the name. What follows the last star
and where its run ends so far is kept in `back`. -/
def globLoop : Nat → List Byte → List Byte → Option (List Byte × List Byte) → Bool
  | 0, _, _, _ => false
  | _ + 1, pattern, [], _ => (pattern.dropWhile (· == star)).isEmpty
  | rounds + 1, pattern, byte :: name, back =>
      if pattern.head? = some star then
        globLoop rounds pattern.tail (byte :: name) (some (pattern.tail, byte :: name))
      else if pattern.head? = some byte then globLoop rounds pattern.tail name back
      else
        match back with
        | some (starP, starN) => globLoop rounds starP starN.tail (some (starP, starN.tail))
        | none => false

def globMatch (pattern name : List Byte) : Bool :=
  globLoop ((name.length + 1) * (pattern.length + 1)) pattern name none

def literal (pattern : List Byte) : List Byte := pattern.takeWhile (· != star)

section
variable {T : Type} (nameOf : T → List Byte) (derivedOf : T → Bool) (pattern : List Byte)

/-- What is visited before the literal head no longer holds. -/
def scan (derived : Bool) : List T → List T
  | [] => []
  | entry :: rest =>
      if ¬ literal pattern <+: nameOf entry then []
      else if derivedOf entry = derived ∧ globMatch pattern (nameOf entry) then
        entry :: scan derived rest
      else scan derived rest

def forEachFieldPattern (catalog : List T) : List T :=
  let derived := decide ([underscore, underscore] <:+: pattern)
  let start :=
    gallopLowerBound 0 catalog.length (literal pattern) ((catalog.map nameOf).getD · [])
  scan nameOf derivedOf pattern derived (catalog.drop start)

end

/-- The name is the pattern with a run of bytes in the place of each star. -/
def Fills : List Byte → List Byte → Prop
  | [], name => name = []
  | byte :: pattern, name =>
      if byte = star then ∃ run rest, name = run ++ rest ∧ Fills pattern rest
      else ∃ rest, name = byte :: rest ∧ Fills pattern rest

section
variable {pattern name run rest : List Byte}

theorem fills_star : Fills (star :: pattern) name ↔ ∃ rest, rest <:+ name ∧ Fills pattern rest := by
  rw [Fills, if_pos rfl]
  constructor
  · rintro ⟨run, rest, rfl, fills⟩
    exact ⟨rest, suffix_append run rest, fills⟩
  · rintro ⟨rest, ⟨run, rfl⟩, fills⟩
    exact ⟨run, rest, rfl, fills⟩

theorem fills_now_or_later : (Fills pattern name ∨
    ∃ rest, rest <:+ name.tail ∧ Fills pattern rest) ↔ Fills (star :: pattern) name := by
  rw [fills_star]
  cases name <;> simp [suffix_cons_iff, or_and_right, exists_or]

theorem fills_append (plain : star ∉ run) :
    Fills (run ++ pattern) name ↔ ∃ rest, name = run ++ rest ∧ Fills pattern rest := by
  induction run generalizing name with
  | nil => simp
  | cons byte run ih =>
    rw [mem_cons, not_or] at plain
    rw [cons_append, Fills, if_neg (Ne.symm plain.1)]
    simp [ih plain.2]

theorem fills_nil : Fills pattern [] ↔ (pattern.dropWhile (· == star)).isEmpty := by
  induction pattern with
  | nil => simp [Fills]
  | cons byte pattern ih =>
    by_cases first : byte = star
    · simp [first, fills_star, ih]
    · simp [Fills, first]

theorem not_fills_cons {byte : Byte} (first : pattern.head? ≠ some star)
    (same : pattern.head? ≠ some byte) : ¬ Fills pattern (byte :: name) := by
  cases pattern with
  | nil => simp [Fills]
  | cons =>
    rw [head?_cons, Ne, Option.some_inj] at first same
    simp [Fills, first, Ne.symm same]

/-- Once another star is met, no earlier one has to take more bytes: the new one can. -/
theorem fills_of_earlier (plain : star ∉ run) (shorter : rest <:+ (run ++ name).tail)
    (fills : Fills (run ++ star :: pattern) rest) : Fills (star :: pattern) name := by
  rw [fills_append plain] at fills
  obtain ⟨later, rfl, fills⟩ := fills
  have within := shorter.trans (tail_suffix _)
  have fewer := within.length_le
  rw [length_append, length_append, Nat.add_le_add_iff_left] at fewer
  have inside := suffix_of_suffix_length_le ((suffix_append run later).trans within)
    (suffix_append run name) fewer
  rw [fills_star] at fills ⊢
  exact fills.imp fun rest met => ⟨met.1.trans inside, met.2⟩

end

/-- The loop tells whether the rest matches as it stands or once the last star has taken more. It
needs a round for each byte of the pattern, and as many again for each byte taken so. -/
theorem globLoop_iff {width reach rounds : Nat} {pattern name : List Byte}
    {back : Option (List Byte × List Byte)} (short : pattern.length ≤ width)
    (near : name.length ≤ reach) (enough : reach * (width + 1) + pattern.length < rounds)
    (behind : ∀ tried ∈ back, (∃ run, star ∉ run ∧ tried = (run ++ pattern, run ++ name)) ∧
      tried.1.length ≤ width ∧ tried.2.length ≤ reach) :
    globLoop rounds pattern name back ↔ Fills pattern name ∨
      ∃ tried ∈ back, ∃ rest, rest <:+ tried.2.tail ∧ Fills tried.1 rest := by
  fun_induction globLoop rounds pattern name back generalizing reach with
  | case1 => omega
  | case2 =>
    rw [← fills_nil, iff_self_or]
    rintro ⟨tried, found, rest, ends, fills⟩
    obtain ⟨⟨run, plain, rfl⟩, -⟩ := behind tried found
    rw [fills_append plain] at fills
    obtain ⟨later, rfl, fills⟩ := fills
    have fewer : run.length + later.length ≤ run.length - 1 := by simpa using ends.length_le
    have noMore : later = [] := eq_nil_of_length_eq_zero (by omega)
    rwa [noMore] at fills
  | case3 rounds pattern byte name back first ih =>
    obtain ⟨pattern, rfl⟩ := head?_eq_some_iff.mp first
    rw [tail_cons] at ih ⊢
    rw [length_cons] at short enough
    rw [ih (by omega) near (by omega) (by simpa using ⟨by omega, near⟩)]
    simp only [Option.mem_some, exists_eq_left', fills_now_or_later, iff_self_or]
    rintro ⟨tried, found, later, ends, fills⟩
    obtain ⟨⟨run, plain, rfl⟩, -⟩ := behind tried found
    exact fills_of_earlier plain ends fills
  | case4 rounds pattern byte name back first same ih =>
    obtain ⟨pattern, rfl⟩ := head?_eq_some_iff.mp same
    have other : byte ≠ star := fun eq => first (eq ▸ rfl)
    have now : Fills (byte :: pattern) (byte :: name) ↔ Fills pattern name := by
      simp [Fills, other]
    rw [tail_cons] at ih ⊢
    rw [length_cons] at short near enough
    rw [now]
    apply ih (by omega) (Nat.le_of_succ_le near) (by omega)
    intro tried found
    obtain ⟨⟨run, plain, rfl⟩, bounds⟩ := behind tried found
    exact ⟨⟨run ++ [byte], by simp [plain, Ne.symm other], by simp⟩, bounds⟩
  | case5 rounds pattern byte name first same starP starN ih =>
    obtain ⟨-, fits, inside⟩ := behind _ rfl
    dsimp only at fits inside
    rw [length_cons] at near
    obtain ⟨reach, rfl⟩ := Nat.exists_eq_succ_of_ne_zero (Nat.ne_zero_of_lt near)
    have fewer : starN.tail.length ≤ reach := by rw [length_tail]; omega
    rw [Nat.succ_mul] at enough
    rw [ih fits fewer (by omega) (by simpa [fits] using fewer)]
    simp only [Option.mem_some, exists_eq_left', fills_now_or_later, fills_star,
      not_fills_cons first same, false_or]
  | case6 rounds pattern byte name first same => simp [not_fills_cons first same]

theorem globMatch_iff (pattern name : List Byte) : globMatch pattern name ↔ Fills pattern name := by
  rw [globMatch, globLoop_iff le_rfl le_rfl (by rw [Nat.succ_mul]; omega) (by simp)]
  simp

instance (pattern name : List Byte) : Decidable (Fills pattern name) :=
  decidable_of_iff _ (globMatch_iff pattern name)

section
variable {T : Type} {nameOf : T → List Byte} {derivedOf : T → Bool} {pattern : List Byte}
  {catalog : List T} {derived : Bool}

theorem literal_of_fills {name : List Byte} (fills : Fills pattern name) :
    literal pattern <+: name := by
  have plain : star ∉ literal pattern := fun found => by simpa using mem_takeWhile_imp found
  have split : literal pattern ++ pattern.dropWhile (· != star) = pattern :=
    takeWhile_append_dropWhile
  rw [← split, fills_append plain] at fills
  obtain ⟨rest, rfl, -⟩ := fills
  exact prefix_append _ _

theorem begins_of_between {head first later : List Byte} (above : ¬ first < head)
    (order : ¬ later < first) (begins : head <+: later) : head <+: first := by
  induction head generalizing first later with
  | nil => exact nil_prefix
  | cons byte head ih =>
    obtain ⟨rest, rfl⟩ := begins
    cases first with
    | nil => exact absurd (nil_lt_cons byte head) above
    | cons other =>
      simp only [cons_append, cons_lt_cons_iff, not_or, not_and] at above order
      obtain rfl : byte = other := le_antisymm (not_lt.mp above.1) (not_lt.mp order.1)
      rw [cons_prefix_cons]
      exact ⟨rfl, ih (above.2 rfl) (order.2 rfl) (prefix_append head rest)⟩

/-- Where no name lies below the literal head, the scan visits every match. -/
theorem scan_eq_filter (sorted : (catalog.map nameOf).Pairwise (· ≤ ·))
    (above : ∀ entry ∈ catalog, literal pattern ≤ nameOf entry) :
    scan nameOf derivedOf pattern derived catalog =
      catalog.filter fun entry => derivedOf entry = derived ∧ Fills pattern (nameOf entry) := by
  induction catalog with
  | nil => rfl
  | cons entry rest ih =>
    rw [map_cons, pairwise_cons, forall_mem_map] at sorted
    rw [forall_mem_cons] at above
    simp only [scan, globMatch_iff, ih sorted.2 above.2]
    split_ifs with begins visited
    · rw [filter_cons, if_pos (decide_eq_true visited)]
    · rw [filter_cons, if_neg (by simpa using visited)]
    · -- A match further on would put this name among those with the literal head.
      symm
      rw [filter_eq_nil_iff]
      intro later found matched
      have order : nameOf entry ≤ nameOf later := by
        rcases mem_cons.mp found with rfl | behind
        · exact le_rfl
        · exact sorted.1 later behind
      exact begins (begins_of_between (not_lt.mpr above.1) (not_lt.mpr order)
        (literal_of_fills (of_decide_eq_true matched).2))

theorem scan_drop (sorted : (catalog.map nameOf).Pairwise (· ≤ ·)) {start : Nat}
    (splits : Splits (literal pattern) ((catalog.map nameOf).getD · []) 0 catalog.length start) :
    scan nameOf derivedOf pattern derived (catalog.drop start) =
      catalog.filter fun entry => derivedOf entry = derived ∧ Fills pattern (nameOf entry) := by
  rw [scan_eq_filter (by rw [map_drop]; exact sorted.drop)]
  · conv_rhs => rw [← take_append_drop start catalog, filter_append]
    rw [self_eq_append_left, filter_eq_nil_iff]
    intro entry early matched
    obtain ⟨index, lt, rfl⟩ := mem_take_iff_getElem.mp early
    rw [lt_min_iff] at lt
    have less := splits.below index (Nat.zero_le _) lt.1
    have begins := literal_of_fills (of_decide_eq_true matched).2
    exact begins.le (by simpa [lt.2] using less)
  · intro entry late
    obtain ⟨index, lt, rfl⟩ := mem_drop_iff_getElem.mp late
    have met := splits.above (start + index) (Nat.le_add_right _ _) (by omega)
    simpa [Nat.add_comm index start ▸ lt] using met

end

/-- A pattern matches exactly the names that fill it, and selects of a sorted catalog exactly the
matching entries of its kind, in their order. -/
theorem pattern_selects : (∀ pattern name, globMatch pattern name ↔ Fills pattern name) ∧
      ∀ (T : Type) (nameOf : T → List Byte) (derivedOf : T → Bool) (pattern : List Byte)
        (catalog : List T), (catalog.map nameOf).Pairwise (· ≤ ·) →
        forEachFieldPattern nameOf derivedOf pattern catalog = catalog.filter fun entry =>
          derivedOf entry = decide ([underscore, underscore] <:+: pattern) ∧
            Fills pattern (nameOf entry) := by
  refine ⟨globMatch_iff, fun T nameOf derivedOf pattern catalog sorted => ?_⟩
  have size : (catalog.map nameOf).length = catalog.length := length_map nameOf
  have ascends := ascends_getD sorted 0 []
  rw [size] at ascends
  exact scan_drop sorted (gallopLowerBound_splits (Nat.zero_le _) ascends)

/-- `a*` among `a`, `ab` and `b`. -/
theorem pattern_selects_roots :
    forEachFieldPattern id (fun _ => false) [97, star] [[97], [97, 98], [98]] = [[97], [97, 98]] :=
  pattern_selects.2 _ id _ _ [[97], [97, 98], [98]] (by decide)

end Luxir.Schema.FieldPattern
