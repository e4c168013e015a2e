import Mathlib.Data.List.Sort
import Mathlib.Order.RelClasses

/-!
Binary heaps, the greatest entry on top. When the top has changed, greater entries move up until the
new value fits; the standard library makes a heap and takes its top away.
-/

namespace Luxir.Util.Heap
open List

variable {T : Type}

def Child (parent child : Nat) : Prop := child = 2 * parent + 1 ∨ child = 2 * parent + 2

def Above (comp : T → T → Bool) (heap : List T) (high low : Nat) : Prop :=
  ∀ first ∈ heap[high]?, ∀ second ∈ heap[low]?, ¬ comp first second

def Ordered (comp : T → T → Bool) (heap : List T) : Prop :=
  ∀ parent child, Child parent child → Above comp heap parent child

/-- What the standard says of `std::make_heap` and of `std::pop_heap`, without the entry that it
puts at the end. -/
class StdHeap (comp : T → T → Bool) where
  makeHeap : List T → List T
  popHeap : List T → List T
  makeHeap_perm : ∀ entries, makeHeap entries ~ entries
  makeHeap_ordered : ∀ entries, Ordered comp (makeHeap entries)
  popHeap_perm : ∀ top rest, Ordered comp (top :: rest) → popHeap (top :: rest) ~ rest
  popHeap_ordered : ∀ top rest, Ordered comp (top :: rest) → Ordered comp (popHeap (top :: rest))

variable (comp : T → T → Bool)

def largerChild (heap : List T) (empty : Nat) : Option (Nat × T) :=
  match heap[2 * empty + 1]?, heap[2 * empty + 2]? with
  | some child, some other =>
      some (if comp child other then (2 * empty + 2, other) else (2 * empty + 1, child))
  | some child, none => some (2 * empty + 1, child)
  | none, _ => none

/-- The loop of `updateHeapTop`. The slots, which the source counts from one, are counted from
zero. -/
def sink (newVal : T) : Nat → List T → Nat → List T
  | 0, heap, empty => heap.set empty newVal
  | rounds + 1, heap, empty =>
      match largerChild comp heap empty with
      | some (child, larger) =>
          if comp newVal larger then sink newVal rounds (heap.set empty larger) child
          else heap.set empty newVal
      | none => heap.set empty newVal

def updateHeapTop : List T → List T
  | [] => []
  | newVal :: rest => sink comp newVal (rest.length + 1) (newVal :: rest) 0

variable {comp} {heap : List T} {empty parent child : Nat} {value entry : T}

theorem Child.lt (joined : Child parent child) : parent < child := by
  unfold Child at joined
  omega

theorem Child.unique {other : Nat} (joined : Child parent child) (again : Child other child) :
    parent = other := by
  unfold Child at *
  omega

/-- All is in order around a gap: the pairs off it, and the entry over it with those under it. -/
structure Around (comp : T → T → Bool) (heap : List T) (gap : Nat) : Prop where
  off : ∀ parent child, Child parent child → parent ≠ gap → child ≠ gap →
    Above comp heap parent child
  across : ∀ parent child, Child parent gap → Child gap child → Above comp heap parent child

theorem read_set {place : Nat} (read : entry ∈ (heap.set empty value)[place]?) :
    place = empty ∧ entry = value ∨ place ≠ empty ∧ entry ∈ heap[place]? := by
  rw [getElem?_set] at read
  split_ifs at read with same inside
  · exact .inl ⟨same.symm, (Option.mem_some.mp read).symm⟩
  · cases read
  · exact .inr ⟨Ne.symm same, read⟩

theorem above_set (joined : Child parent child)
    (off : parent ≠ empty → child ≠ empty → Above comp heap parent child)
    (under : parent = empty → ∀ second ∈ heap[child]?, ¬ comp value second)
    (parents : child = empty → ∀ first ∈ heap[parent]?, ¬ comp first value) :
    Above comp (heap.set empty value) parent child := by
  intro first above second below
  have lt := joined.lt
  rcases read_set above with ⟨high, rfl⟩ | ⟨high, first_at⟩ <;>
    rcases read_set below with ⟨low, rfl⟩ | ⟨low, second_at⟩
  · omega
  · exact under high second second_at
  · exact parents low first first_at
  · exact off high low first first_at second second_at

theorem Around.fill (around : Around comp heap empty)
    (parents : ∀ parent, Child parent empty → ∀ first ∈ heap[parent]?, ¬ comp first value)
    (under : ∀ child, Child empty child → ∀ second ∈ heap[child]?, ¬ comp value second) :
    Ordered comp (heap.set empty value) := by
  intro parent child joined
  apply above_set joined (around.off parent child joined)
  · rintro rfl
    exact under child joined
  · rintro rfl
    exact parents parent joined

theorem Around.sink (around : Around comp heap empty) (under : Child empty child)
    (found : heap[child]? = some entry)
    (greatest : ∀ other, Child empty other → ∀ second ∈ heap[other]?, ¬ comp entry second) :
    Around comp (heap.set empty entry) child := by
  constructor
  · intro high low joined apart other
    apply above_set joined (around.off high low joined)
    · rintro rfl
      exact greatest low joined
    · rintro rfl first above
      exact around.across high child joined under first above entry found
  · intro high low joined below first above second second_at
    obtain rfl := under.unique joined
    have further := below.lt
    have lt := under.lt
    rcases read_set above with ⟨_, rfl⟩ | ⟨off, _⟩
    · rw [getElem?_set_ne (by omega)] at second_at
      exact around.off child low below (by omega) (by omega) first found second second_at
    · exact absurd rfl off

/-- An entry moves into the gap and leaves one behind: with the value in the gap, nothing is lost.
-/
theorem set_set_of_move (inside : empty < heap.length) (apart : child ≠ empty)
    (found : heap[child]? = some entry) :
    (heap.set empty entry).set child value ~ heap.set empty value := by
  obtain ⟨lt, rfl⟩ := List.getElem?_eq_some_iff.mp found
  have first : empty < (heap.set empty value).length := by simpa using inside
  have second : child < (heap.set empty value).length := by simpa using lt
  simpa [getElem_set_ne apart.symm] using set_set_perm first second

theorem largerChild_none (found : largerChild comp heap empty = none)
    (joined : Child empty child) : heap[child]? = none := by
  unfold largerChild at found
  split at found
  · cases found
  · cases found
  next bare =>
    have short := getElem?_eq_none_iff.mp bare
    unfold Child at joined
    exact getElem?_eq_none_iff.mpr (by omega)

section
variable [IsStrictWeakOrder T fun first second => comp first second]

theorem not_comp_trans {first second third : T} (one : ¬ comp first second)
    (two : ¬ comp second third) : ¬ comp first third := by
  intro less
  have above : ¬ comp second first := fun back => two (trans_of (comp · ·) back less)
  have below : ¬ comp third second := fun back => one (trans_of (comp · ·) less back)
  exact (@IsStrictWeakOrder.incomp_trans T (comp · ·) _ first second third ⟨one, above⟩
    ⟨two, below⟩).1 less

theorem Ordered.top (ordered : Ordered comp heap) (place : Nat) : Above comp heap 0 place := by
  induction place using Nat.strongRecOn with
  | ind place ih =>
    intro first top second below
    rcases Nat.eq_zero_or_pos place with rfl | pos
    · rw [Option.mem_unique top below]
      exact irrefl_of (comp · ·) second
    · have joined : Child ((place - 1) / 2) place := by unfold Child; omega
      obtain ⟨lt, _⟩ := List.getElem?_eq_some_iff.mp below
      have inside := Nat.lt_trans joined.lt lt
      exact not_comp_trans (ih _ joined.lt first top _ (getElem?_eq_getElem inside))
        (ordered _ _ joined _ (getElem?_eq_getElem inside) second below)

theorem largerChild_some (found : largerChild comp heap empty = some (child, entry)) :
    heap[child]? = some entry ∧ Child empty child ∧
      ∀ other, Child empty other → ∀ second ∈ heap[other]?, ¬ comp entry second := by
  have same := irrefl_of (comp · ·) entry
  have back : ∀ other, comp other entry → ¬ comp entry other := fun _ => asymm_of (comp · ·)
  unfold largerChild at found
  split at found
  · split_ifs at found with less
    all_goals
      cases found
      refine ⟨‹_›, by simp [Child], ?_⟩
      rintro other (rfl | rfl) second second_at <;> simp_all
  · cases found
    refine ⟨‹_›, .inl rfl, ?_⟩
    rintro other (rfl | rfl) second second_at <;> simp_all
  · cases found

theorem sink_spec {rounds : Nat} (around : Around comp heap empty)
    (parents : ∀ parent, Child parent empty → ∀ first ∈ heap[parent]?, ¬ comp first value)
    (inside : empty < heap.length) (enough : heap.length ≤ rounds + empty) :
    sink comp value rounds heap empty ~ heap.set empty value ∧
      Ordered comp (sink comp value rounds heap empty) := by
  fun_induction sink comp value rounds heap empty with
  | case1 => omega
  | case2 rounds heap empty child larger found less ih =>
    obtain ⟨here, under, greatest⟩ := largerChild_some found
    have apart := under.lt
    have lt := (List.getElem?_eq_some_iff.mp here).1
    have sunk := ih (around.sink under here greatest) ?_ (by simpa using lt) (by simp; omega)
    · exact ⟨sunk.1.trans (set_set_of_move inside (by omega) here), sunk.2⟩
    · intro parent joined first first_at
      obtain rfl := under.unique joined
      rcases read_set first_at with ⟨_, rfl⟩ | ⟨off, _⟩
      · exact asymm_of (comp · ·) less
      · exact absurd rfl off
  | case3 rounds heap empty child larger found less =>
    obtain ⟨here, under, greatest⟩ := largerChild_some found
    refine ⟨.refl _, around.fill parents fun other joined second second_at => ?_⟩
    exact not_comp_trans less (greatest other joined second second_at)
  | case4 rounds heap empty found =>
    refine ⟨.refl _, around.fill parents fun other joined second second_at => ?_⟩
    rw [largerChild_none found joined] at second_at
    cases second_at

omit [IsStrictWeakOrder T fun first second => comp first second] in
theorem ordered_of_sorted (sorted : heap.Pairwise fun first second => ¬ comp first second) :
    Ordered comp heap := by
  intro parent child joined first first_at second second_at
  obtain ⟨lt, rfl⟩ := List.getElem?_eq_some_iff.mp first_at
  obtain ⟨within, rfl⟩ := List.getElem?_eq_some_iff.mp second_at
  exact pairwise_iff_getElem.mp sorted _ _ lt within joined.lt

/-- The standard is met by sorting. -/
abbrev sorting (comp : T → T → Bool) [IsStrictWeakOrder T fun first second => comp first second] :
    StdHeap comp :=
  have total : Std.Total fun first second : T => ¬ comp first second :=
    ⟨fun first second => by
      by_contra both
      simp only [not_or, not_not] at both
      exact asymm_of (comp · ·) both.1 both.2⟩
  have trans : IsTrans T fun first second => ¬ comp first second := ⟨fun _ _ _ => not_comp_trans⟩
  { makeHeap := insertionSort fun first second => ¬ comp first second
    popHeap := fun heap => insertionSort (fun first second => ¬ comp first second) heap.tail
    makeHeap_perm := perm_insertionSort _
    makeHeap_ordered := fun entries => ordered_of_sorted (pairwise_insertionSort _ entries)
    popHeap_perm := fun _ rest _ => perm_insertionSort _ rest
    popHeap_ordered := fun _ rest _ => ordered_of_sorted (pairwise_insertionSort _ rest) }

theorem updateHeapTop_spec {top : T} {rest : List T} (ordered : Ordered comp (top :: rest)) :
    updateHeapTop comp (value :: rest) ~ value :: rest ∧
      Ordered comp (updateHeapTop comp (value :: rest)) := by
  have around : Around comp (value :: rest) 0 := by
    constructor
    · intro parent child joined high low
      have above := ordered parent child joined
      cases parent with
      | zero => exact absurd rfl high
      | succ =>
        cases child with
        | zero => exact absurd rfl low
        | succ => exact above
    · exact fun parent child joined => absurd joined.lt (Nat.not_lt_zero parent)
  exact sink_spec around (fun parent joined => absurd joined.lt (Nat.not_lt_zero parent))
    (Nat.succ_pos _) (Nat.le_refl _)

end

end Luxir.Util.Heap
