import Mathlib.Order.MinMax

/-!
Folds that improve on what they hold. A fold whose every step is at least as good as before and
covers the element it took covers all elements in the end. A loop whose every round succeeds from
what the rounds before have established succeeds.
-/

namespace Luxir.Lib.Folds
open List

variable {α β : Type} {step : α → β → α} {elements : List α} {value : α → β} {rounds : Nat}

/-- `improves` orders the accumulators, `covers` says that one accounts for an element. -/
theorem foldl_covers (improves : α → α → Prop) (covers : α → β → Prop)
    (refl : ∀ state, improves state state)
    (trans : ∀ {last mid first}, improves last mid → improves mid first → improves last first)
    (mono : ∀ {after before elem}, improves after before → covers before elem →
      covers after elem) (keeps : ∀ state elem, improves (step state elem) state ∧
      covers (step state elem) elem) (elements : List β) (start : α) :
    improves (elements.foldl step start) start ∧
      ∀ elem ∈ elements, covers (elements.foldl step start) elem := by
  induction elements generalizing start with
  | nil => exact ⟨refl start, by simp⟩
  | cons head rest ih =>
    obtain ⟨better, covered⟩ := ih (step start head)
    exact ⟨trans better (keeps start head).1,
      forall_mem_cons.mpr ⟨mono better (keeps start head).2, covered⟩⟩

section
variable {γ : Type} [LinearOrder γ] (key : β → γ) (elements : List β) (start : γ)

theorem foldl_min_le : elements.foldl (fun low elem => min low (key elem)) start ≤ start ∧
    ∀ elem ∈ elements, elements.foldl (fun low elem => min low (key elem)) start ≤ key elem := by
  apply foldl_covers (fun after before => after ≤ before) (fun low elem => low ≤ key elem)
  · exact fun low => le_refl low
  · exact le_trans
  · exact le_trans
  · exact fun low elem => ⟨min_le_left _ _, min_le_right _ _⟩

theorem le_foldl_max : start ≤ elements.foldl (fun high elem => max high (key elem)) start ∧
    ∀ elem ∈ elements, key elem ≤ elements.foldl (fun high elem => max high (key elem)) start := by
  apply foldl_covers (fun after before => before ≤ after) (fun high elem => key elem ≤ high)
  · exact fun high => le_refl high
  · exact fun last first => first.trans last
  · exact fun last first => first.trans last
  · exact fun high elem => ⟨le_max_left _ _, le_max_right _ _⟩

theorem le_foldl_min {bound : γ} (first : bound ≤ start)
    (each : ∀ elem ∈ elements, bound ≤ key elem) :
    bound ≤ elements.foldl (fun low elem => min low (key elem)) start :=
  foldlRecOn (motive := (bound ≤ ·)) elements _ first
    fun _ held elem mem => le_min held (each elem mem)

theorem foldl_max_le {bound : γ} (first : start ≤ bound)
    (each : ∀ elem ∈ elements, key elem ≤ bound) :
    elements.foldl (fun high elem => max high (key elem)) start ≤ bound :=
  foldlRecOn (motive := (· ≤ bound)) elements _ first
    fun _ held elem mem => max_le held (each elem mem)

theorem foldl_max_lt {bound : γ} (first : start < bound)
    (each : ∀ elem ∈ elements, key elem < bound) :
    elements.foldl (fun high elem => max high (key elem)) start < bound :=
  foldlRecOn (motive := (· < bound)) elements _ first
    fun _ held elem mem => max_lt held (each elem mem)

end

theorem foldlM_range {σ : Type} {step : σ → Nat → Option σ} {start : σ}
    (holds : Nat → σ → Prop) (begins : holds 0 start)
    (next : ∀ round < rounds, ∀ state, holds round state →
      ∃ after, step state round = some after ∧ holds (round + 1) after) :
    ∃ last, (range rounds).foldlM step start = some last ∧ holds rounds last := by
  induction rounds with
  | zero => exact ⟨start, rfl, begins⟩
  | succ rounds ih =>
    obtain ⟨state, met, held⟩ := ih fun round lt => next round (by omega)
    obtain ⟨after, stepped, kept⟩ := next rounds (by omega) state held
    refine ⟨after, ?_, kept⟩
    rw [range_succ, foldlM_append, met]
    simp [stepped]

variable {ε : Type}

theorem ok_bind (value : α) (next : α → Except ε β) : (Except.ok value >>= next) = next value := rfl

theorem foldlM_ok {σ : Type} {step : σ → Nat → Except ε σ} (states : Nat → σ)
    (next : ∀ round < rounds, step (states round) round = .ok (states (round + 1))) :
    (range rounds).foldlM step (states 0) = .ok (states rounds) := by
  induction rounds with
  | zero => rfl
  | succ rounds ih =>
    rw [range_succ, foldlM_append, ih fun round lt => next round (by omega), ok_bind,
      foldlM_cons, next rounds (by omega), ok_bind, foldlM_nil]
    rfl

theorem foldlM_append_map {step : List α → β → Except ε (List α)} (one : β → α) (elements : List β)
    (next : ∀ done, ∀ elem ∈ elements, step done elem = .ok (done ++ [one elem])) (start : List α) :
    elements.foldlM step start = .ok (start ++ elements.map one) := by
  induction elements generalizing start with
  | nil =>
    rw [map_nil, append_nil]
    rfl
  | cons elem rest ih =>
    rw [foldlM_cons, next start elem mem_cons_self, ok_bind, ih fun done later mem => next done
      later (mem_cons_of_mem _ mem), map_cons, append_assoc, singleton_append]

theorem mapM_ok {step : α → Except ε β} (each : ∀ elem ∈ elements, step elem = .ok (value elem)) :
    elements.mapM step = .ok (elements.map value) := by
  induction elements with
  | nil => rfl
  | cons elem rest ih =>
    rw [mapM_cons, each elem mem_cons_self, ok_bind,
      ih fun later mem => each later (mem_cons_of_mem _ mem), ok_bind]
    rfl

theorem range_map_getElem {place : Nat → β}
    (each : ∀ i (lt : i < elements.length), place i = value elements[i]) :
    (range elements.length).map place = elements.map value := by
  apply ext_getElem
  · rw [length_map, length_map, length_range]
  · intro i _ lt
    rw [length_map] at lt
    rw [getElem_map, getElem_range, getElem_map, each i lt]

theorem flatMap_choose (chosen : α → Bool) (value : α → β) (elements : List α) :
    (elements.flatMap fun elem => if chosen elem then [value elem] else []) =
      (elements.filter chosen).map value := by
  induction elements with
  | nil => rfl
  | cons elem rest ih =>
    rw [flatMap_cons, ih]
    cases decided : chosen elem <;> simp [decided]

end Luxir.Lib.Folds
