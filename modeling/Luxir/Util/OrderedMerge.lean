import Luxir.Util.MergeCompletion
import Mathlib.Algebra.Order.BigOperators.Group.Finset

/-!
The segments' data merged in order. What has been merged is the left fold of the first segments, and
the data of later ones waits for the segment before it.
-/

namespace Luxir.Util.OrderedMerge
open Lib.LeftFold SegmentMergeDriver MergeCompletion List State Function Mergeable

variable {α : Type} {driver : Driver α} {pending : List (Nat × Mergeable α)}
  {phase : OrderedPhase α}

def contributions (driver : Driver α) : List α := ofFn driver.contribution

theorem length_contributions : (contributions driver).length = driver.numSegs := length_ofFn

theorem take_succ {next : Nat} (lt : next < driver.numSegs) :
    (contributions driver).take (next + 1) =
      (contributions driver).take next ++ [driver.contribution ⟨next, lt⟩] := by
  have known : next < (contributions driver).length := by
    rw [length_contributions]
    exact lt
  rw [take_succ_eq_append_getElem known]
  simp [contributions]

variable {schedule : List (Fin driver.numSegs)} {data : Mergeable α} {entry : Nat × Mergeable α}

section
open OrderedState

variable {run : Option (Mergeable α)} {next : Nat}

theorem absorb_value (merged : run.map value =
      leftFold driver.merge ((contributions driver).take next)) (lt : next < driver.numSegs)
    (own : data.value = driver.contribution ⟨next, lt⟩) : some (absorb driver run data).value =
      leftFold driver.merge ((contributions driver).take (next + 1)) := by
  rw [take_succ lt, ← own]
  cases run with
  | none =>
    have empty : (contributions driver).take next = [] := by
      cases front : (contributions driver).take next with
      | nil => rfl
      | cons =>
        rw [front] at merged
        cases merged
    rw [empty]
    rfl
  | some => exact (leftFold_concat merged.symm data.value).symm

structure Waits (driver : Driver α) (next : Nat) (pending : List (Nat × Mergeable α)) : Prop where
  sorted : pending.Pairwise fun first second => first.1 < second.1
  later : ∀ entry ∈ pending, next < entry.1
  own : ∀ entry ∈ pending, ∃ call : Fin driver.numSegs, entry.1 = call.val ∧
    entry.2.value = driver.contribution call

theorem Waits.tail {rest : List (Nat × Mergeable α)} (waits : Waits driver next (entry :: rest)) :
    Waits driver entry.1 rest := by
  constructor
  · exact (pairwise_cons.mp waits.sorted).2
  · exact (pairwise_cons.mp waits.sorted).1
  · exact fun other mem => waits.own other (mem_cons_of_mem _ mem)

structure Drained (driver : Driver α) (next : Nat) (pending : List (Nat × Mergeable α))
    (result : Mergeable α × Nat × List (Nat × Mergeable α)) : Prop where
  more : next < result.2.1
  bound : result.2.1 ≤ driver.numSegs
  merged : some result.1.value = leftFold driver.merge ((contributions driver).take result.2.1)
  waits : Waits driver result.2.1 result.2.2
  kept : ∀ segnum, segnum ∈ pending.map Prod.fst ↔
    (next < segnum ∧ segnum < result.2.1) ∨ segnum ∈ result.2.2.map Prod.fst

theorem drain_spec (lt : next < driver.numSegs)
    (merged : run.map Mergeable.value = leftFold driver.merge ((contributions driver).take next))
    (own : data.value = driver.contribution ⟨next, lt⟩) (waits : Waits driver next left) :
    Drained driver next left (drain driver run next data left) := by
  induction left generalizing run next data with
  | nil =>
    refine ⟨Nat.lt_succ_self next, lt, absorb_value merged lt own,
      ⟨.nil, by simp [drain], by simp [drain]⟩, fun other => ?_⟩
    simp only [drain, map_nil, not_mem_nil, or_false, false_iff]
    omega
  | cons entry rest ih =>
    obtain ⟨segnum, later⟩ := entry
    have past := waits.later _ mem_cons_self
    have tail := waits.tail
    obtain ⟨call, num, value⟩ := waits.own _ mem_cons_self
    dsimp only at past tail num value
    unfold drain
    split_ifs with follows
    · subst follows
      have inner : next + 1 < driver.numSegs := num ▸ call.isLt
      have same : call = ⟨next + 1, inner⟩ := Fin.ext num.symm
      have so_far : (some (absorb driver run data)).map Mergeable.value =
          leftFold driver.merge ((contributions driver).take (next + 1)) :=
        absorb_value merged lt own
      have drained := ih inner so_far (same ▸ value) tail
      refine { drained with
        more := (Nat.lt_succ_self next).trans drained.more
        kept := fun other => ?_ }
      have more := drained.more
      rw [map_cons, mem_cons, drained.kept other]
      constructor
      · rintro (rfl | ⟨lower, upper⟩ | waiting)
        · exact .inl ⟨Nat.lt_succ_self next, more⟩
        · exact .inl ⟨by omega, upper⟩
        · exact .inr waiting
      · rintro (⟨lower, upper⟩ | waiting)
        · rcases Nat.lt_or_ge (next + 1) other with beyond | here
          · exact .inr (.inl ⟨beyond, upper⟩)
          · exact .inl (by omega)
        · exact .inr (.inr waiting)
    · have beyond : next + 1 < segnum := by omega
      refine ⟨Nat.lt_succ_self next, lt, absorb_value merged lt own,
        ⟨waits.sorted, ?_, waits.own⟩, fun other => ?_⟩
      · exact forall_mem_cons.mpr ⟨beyond, fun entry further =>
          beyond.trans (tail.later entry further)⟩
      · constructor
        · exact fun waiting => .inr waiting
        · rintro (⟨lower, upper⟩ | waiting)
          · dsimp only at upper
            omega
          · exact waiting

variable {segnum : Nat} {left : List (Nat × Mergeable α)}

theorem mem_emplace : entry ∈ emplace segnum data left ↔ entry = (segnum, data) ∨ entry ∈ left := by
  induction left with
  | nil => simp [emplace]
  | cons first rest ih =>
    unfold emplace
    split
    · simp
    · rw [mem_cons, ih, mem_cons]
      exact or_left_comm

theorem emplace_waits (waits : Waits driver next left) (past : next < segnum)
    (gone : segnum ∉ left.map Prod.fst) {call : Fin driver.numSegs} (num : segnum = call.val)
    (own : data.value = driver.contribution call) :
    Waits driver next (emplace segnum data left) := by
  constructor
  · have sorted := waits.sorted
    clear waits
    induction left with
    | nil => simp [emplace]
    | cons first rest ih =>
      rw [map_cons, mem_cons, not_or] at gone
      obtain ⟨front, tail⟩ := pairwise_cons.mp sorted
      unfold emplace
      split
      · rename_i less
        refine pairwise_cons.mpr ⟨forall_mem_cons.mpr ⟨less, fun entry later => ?_⟩, sorted⟩
        exact less.trans (front entry later)
      · rename_i more
        apply pairwise_cons.mpr ⟨_, ih gone.2 tail⟩
        intro entry mem
        rcases mem_emplace.mp mem with rfl | later
        · exact lt_of_le_of_ne (not_lt.mp more) (Ne.symm gone.1)
        · exact front entry later
  · intro entry mem
    rcases mem_emplace.mp mem with rfl | later
    · exact past
    · exact waits.later entry later
  · intro entry mem
    rcases mem_emplace.mp mem with rfl | later
    · exact ⟨call, num, own⟩
    · exact waits.own entry later

end

def arrived : OrderedPhase α → Bool
  | .completing _ | .finished => true
  | .waiting | .accumulating _ | .accumulated _ => false

section
variable {state after : OrderedState driver} {call : Fin driver.numSegs}

/-- How far the merge is: under way, complete, or handed on. -/
inductive Progress (state : OrderedState driver) : Prop
  | merging (more : state.next < driver.numSegs) (merged : state.running.map value =
        leftFold driver.merge ((contributions driver).take state.next))
      (uncompleted : state.completed = []) (nobody : ∀ call data, state.phase call ≠ .completing data)
  | handing (all : state.next = driver.numSegs) (uncompleted : state.completed = [])
      (call : Fin driver.numSegs) (data : Mergeable α) (here : state.phase call = .completing data)
      (merged : leftFold driver.merge (contributions driver) = some data.value)
      (only : ∀ other data, state.phase other = .completing data → other = call)
  | handed (all : state.next = driver.numSegs) (value : α) (completed : state.completed = [value])
      (merged : leftFold driver.merge (contributions driver) = some value)
      (nobody : ∀ call data, state.phase call ≠ .completing data)

structure InOrder (state : OrderedState driver) : Prop where
  waits : Waits driver state.next state.pending
  arrivals : ∀ call, arrived (state.phase call) = true ↔
    call.val < state.next ∨ call.val ∈ state.pending.map Prod.fst
  fresh : ∀ {call data}, state.phase call = .accumulating data → data.value = driver.creator
  own : ∀ {call data}, state.phase call = .accumulated data → data.value = driver.contribution call
  progress : Progress state

@[simp] theorem update_phase (phase : OrderedPhase α) :
    update state.phase call phase call = phase := update_self _ _ _

theorem initial_inOrder (nonempty : 0 < driver.numSegs) : InOrder (OrderedState.initial driver) := by
  constructor
  · exact ⟨.nil, by simp [OrderedState.initial], by simp [OrderedState.initial]⟩
  · simp [OrderedState.initial, arrived]
  · simp [OrderedState.initial]
  · simp [OrderedState.initial]
  · exact .merging nonempty rfl rfl (by simp [OrderedState.initial])

theorem moved_inOrder (inOrder : InOrder state)
    (early : arrived (state.phase call) = false) (still : arrived phase = false)
    (fresh : ∀ data, phase = .accumulating data → data.value = driver.creator)
    (own : ∀ data, phase = .accumulated data → data.value = driver.contribution call) :
    InOrder (state.moved call phase) := by
  have others : ∀ {other}, other ≠ call → (state.moved call phase).phase other = state.phase other :=
    fun apart => update_of_ne apart _ _
  have self : (state.moved call phase).phase call = phase := update_self _ _ _
  have completing : ∀ {other data}, (state.moved call phase).phase other = .completing data ↔
      state.phase other = .completing data := by
    intro other data
    by_cases here : other = call
    · rw [here, self]
      constructor
      · rintro rfl
        cases still
      · intro completes
        rw [completes] at early
        cases early
    · rw [others here]
  constructor
  · exact inOrder.waits
  · intro other
    by_cases here : other = call
    · rw [here, self, still, ← early]
      exact inOrder.arrivals call
    · rw [others here]
      exact inOrder.arrivals other
  · intro other data
    by_cases here : other = call
    · rw [here, self]
      exact fresh data
    · rw [others here]
      exact inOrder.fresh
  · intro other data
    by_cases here : other = call
    · rw [here, self]
      exact own data
    · rw [others here]
      exact inOrder.own
  · cases inOrder.progress with
    | merging more merged uncompleted nobody =>
      exact .merging more merged uncompleted fun other data completes =>
        nobody other data (completing.mp completes)
    | handing all uncompleted owner data here merged only =>
      exact .handing all uncompleted owner data (completing.mpr here) merged
        fun other data completes => only other data (completing.mp completes)
    | handed all value completed merged nobody =>
      exact .handed all value completed merged fun other data completes =>
        nobody other data (completing.mp completes)

theorem mem_keys_emplace {segnum key : Nat} :
    key ∈ (OrderedState.emplace segnum data left).map Prod.fst ↔
      key = segnum ∨ key ∈ left.map Prod.fst := by
  simp only [mem_map, mem_emplace]
  constructor
  · rintro ⟨entry, rfl | here, rfl⟩
    · exact .inl rfl
    · exact .inr ⟨entry, here, rfl⟩
  · rintro (rfl | ⟨entry, here, rfl⟩)
    · exact ⟨_, .inl rfl, rfl⟩
    · exact ⟨entry, .inr here, rfl⟩

section
variable (inOrder : InOrder state)
include inOrder

omit inOrder in
theorem phase_before {phase found : OrderedPhase α} {other : Fin driver.numSegs}
    (now : after.phase other = found) (step : after.phase = update state.phase call phase)
    (unset : phase ≠ found) : state.phase other = found ∧ other ≠ call := by
  rw [step] at now
  by_cases same : other = call
  · rw [same, update_phase] at now
    exact absurd now unset
  · rw [update_of_ne same] at now
    exact ⟨now, same⟩

theorem parked_inOrder (here : state.phase call = .accumulated data)
    (apart : call.val ≠ state.next) : InOrder { state.moved call .finished with
      pending := OrderedState.emplace call.val data state.pending } := by
  have early : arrived (state.phase call) = false := by
    rw [here]
    rfl
  -- The call finds the lock: its segment has not been merged, and does not wait.
  have gone := mt (inOrder.arrivals call).mpr (by rw [early]; exact Bool.false_ne_true)
  have absent : call.val ∉ state.pending.map Prod.fst := fun waiting => gone (.inr waiting)
  have less : state.next < call.val :=
    lt_of_le_of_ne (not_lt.mp fun merged => gone (.inl merged)) (Ne.symm apart)
  have own := inOrder.own here
  constructor
  · exact emplace_waits inOrder.waits less absent rfl own
  · intro other
    dsimp only [OrderedState.moved]
    rw [mem_keys_emplace]
    by_cases same : other = call
    · rw [same, update_phase]
      simp [arrived]
    · rw [update_of_ne same, inOrder.arrivals other]
      have num : other.val ≠ call.val := fun equal => same (Fin.ext equal)
      simp [num]
  · exact fun found => inOrder.fresh (phase_before found rfl nofun).1
  · exact fun found => inOrder.own (phase_before found rfl nofun).1
  · cases inOrder.progress with
    | merging more merged uncompleted nobody =>
      exact .merging more merged uncompleted fun other data found =>
        nobody other data (phase_before found rfl nofun).1
    | handing | handed => omega

theorem merged_inOrder (here : state.phase call = .accumulated data)
    (turn : call.val = state.next) : InOrder (state.locked call data) := by
  have lt : state.next < driver.numSegs := turn ▸ call.isLt
  have same_call : call = ⟨state.next, lt⟩ := Fin.ext turn
  have own : data.value = driver.contribution ⟨state.next, lt⟩ := by
    rw [inOrder.own here, same_call]
  obtain ⟨merged, uncompleted, nobody⟩ : state.running.map value =
      leftFold driver.merge ((contributions driver).take state.next) ∧ state.completed = [] ∧
        ∀ call data, state.phase call ≠ .completing data := by
    cases inOrder.progress with
    | merging more merged uncompleted nobody => exact ⟨merged, uncompleted, nobody⟩
    | handing | handed => omega
  have drained := drain_spec lt merged own inOrder.waits
  unfold OrderedState.locked
  rw [if_neg (not_not.mpr turn)]
  generalize OrderedState.drain driver state.running state.next data state.pending = out at *
  obtain ⟨run, next, left⟩ := out
  have more := drained.more
  have bound := drained.bound
  have kept := drained.kept
  dsimp only at more bound kept ⊢
  have arrivals : ∀ phase : OrderedPhase α, arrived phase = true → ∀ other,
      arrived (update state.phase call phase other) = true ↔
        other.val < next ∨ other.val ∈ left.map Prod.fst := by
    intro phase ends other
    by_cases same : other = call
    · rw [same, update_phase, ends]
      simp [turn, more]
    rw [update_of_ne same, inOrder.arrivals other, kept]
    constructor
    · rintro (before | ⟨_, upper⟩ | waiting)
      · exact .inl (before.trans more)
      · exact .inl upper
      · exact .inr waiting
    · rintro (before | waiting)
      · rcases Nat.lt_or_ge other.val state.next with past | future
        · exact .inl past
        · exact .inr (.inl ⟨by omega, before⟩)
      · exact .inr (.inr waiting)
  split_ifs with all
  · refine ⟨drained.waits, arrivals _ rfl,
      fun found => inOrder.fresh (phase_before found rfl nofun).1,
      fun found => inOrder.own (phase_before found rfl nofun).1, ?_⟩
    have total := drained.merged
    rw [all, ← length_contributions, take_length] at total
    refine .handing all uncompleted call run (update_self _ _ _) total.symm ?_
    intro other data found
    by_contra same
    dsimp only at found
    rw [update_of_ne same] at found
    exact nobody other data found
  · refine ⟨drained.waits, arrivals _ rfl,
      fun found => inOrder.fresh (phase_before found rfl nofun).1,
      fun found => inOrder.own (phase_before found rfl nofun).1, ?_⟩
    exact .merging (lt_of_le_of_ne bound all) drained.merged uncompleted fun other data found =>
      nobody other data (phase_before found rfl nofun).1

theorem completed_inOrder (here : state.phase call = .completing data) :
    InOrder { state.moved call .finished with completed := state.completed ++ [data.value] } := by
  refine ⟨inOrder.waits, fun other => ?_, fun found => inOrder.fresh
    (phase_before found rfl nofun).1, fun found => inOrder.own (phase_before found rfl nofun).1, ?_⟩
  · dsimp only [OrderedState.moved]
    rw [← inOrder.arrivals other]
    by_cases same : other = call
    · rw [same, update_phase, here]
      rfl
    · rw [update_of_ne same]
  · cases inOrder.progress with
    | merging more merged none nobody | handed all value completed merged nobody =>
      exact absurd here (nobody call data)
    | handing all uncompleted owner held there merged only =>
      have self := only call data here
      subst self
      rw [here] at there
      cases there
      refine .handed all data.value (by simp [uncompleted]) merged ?_
      intro other held found
      obtain ⟨found, apart⟩ := phase_before found rfl nofun
      exact apart (only other held found)

theorem act_inOrder (step : state.act call = some after) : InOrder after := by
  unfold OrderedState.act at step
  cases here : state.phase call <;> rw [here] at step <;> cases step
  case waiting =>
    apply moved_inOrder inOrder (by rw [here]; rfl) rfl
    · rintro _ ⟨⟩
      rfl
    · simp
  case accumulating data =>
    apply moved_inOrder inOrder (by rw [here]; rfl) rfl
    · simp
    · rintro _ ⟨⟩
      rw [inOrder.fresh here]
      rfl
  case accumulated data =>
    by_cases turn : call.val = state.next
    · exact merged_inOrder inOrder here turn
    · rw [OrderedState.locked, if_pos turn]
      exact parked_inOrder inOrder here turn
  case completing data => exact completed_inOrder inOrder here

theorem run_inOrder (ran : state.run schedule = some after) : InOrder after := by
  induction schedule generalizing state with
  | nil =>
    cases ran
    exact inOrder
  | cons call rest ih =>
    obtain ⟨next, step, ran⟩ := Lib.Runs.foldlM_cons_some ran
    exact ih (act_inOrder inOrder step) ran

theorem stuck_handed (stuck : ∀ call, state.act call = none) : ∃ value, state.completed = [value] ∧
      leftFold driver.merge (contributions driver) = some value := by
  have finished : ∀ call, state.phase call = .finished := by
    intro call
    have halted := stuck call
    unfold OrderedState.act at halted
    cases here : state.phase call with
    | waiting | accumulating | accumulated | completing => simp [here] at halted
    | finished => rfl
  cases inOrder.progress with
  | merging more =>
    have came := (inOrder.arrivals ⟨state.next, more⟩).mp (by rw [finished]; rfl)
    rcases came with before | waiting
    · exact absurd before (lt_irrefl _)
    · obtain ⟨entry, mem, same⟩ := mem_map.mp waiting
      have later := inOrder.waits.later entry mem
      dsimp only at same
      omega
  | handing all uncompleted owner data here =>
    rw [finished owner] at here
    cases here
  | handed all value completed merged => exact ⟨value, completed, merged⟩

end

def stepsLeft : OrderedPhase α → Nat
  | .waiting => 4
  | .accumulating _ => 3
  | .accumulated _ => 2
  | .completing _ => 1
  | .finished => 0

def left (phases : Fin driver.numSegs → OrderedPhase α) : Nat := ∑ call, stepsLeft (phases call)

theorem left_update {phases : Fin driver.numSegs → OrderedPhase α}
    (less : stepsLeft phase < stepsLeft (phases call)) :
    left (update phases call phase) < left phases := by
  apply Finset.sum_lt_sum
  · intro other _
    by_cases here : other = call
    · rw [here, update_self]
      exact less.le
    · rw [update_of_ne here]
  · exact ⟨call, Finset.mem_univ call, by rw [update_self]; exact less⟩

theorem act_left (step : state.act call = some after) : left after.phase < left state.phase := by
  unfold OrderedState.act at step
  cases here : state.phase call <;> rw [here] at step <;> cases step
  case waiting | accumulating data | completing data =>
    exact left_update (by simp [here, stepsLeft])
  case accumulated data =>
    unfold OrderedState.locked
    split
    · exact left_update (by simp [here, stepsLeft])
    · dsimp only
      split
      all_goals exact left_update (by simp [here, stepsLeft])

theorem run_left (ran : state.run schedule = some after) :
    schedule.length + left after.phase ≤ left state.phase := by
  simpa using Lib.Runs.countP_le (fun state => left state.phase) (fun _ => true)
    (fun step => Nat.one_add_le_iff.mpr (act_left step)) ran

end

/-- The result is handed on at most once, when all segments have contributed, and it is handed on in
every run that ends. -/
structure Once (total : Option α) (completed : List α) (contributed ended : Prop) : Prop where
  result : completed = [] ∨ ∃ value, completed = [value] ∧ total = some value
  last : completed ≠ [] → contributed
  ends : ended → completed ≠ []

theorem unordered_once (nonempty : 0 < driver.numSegs) [Std.Associative driver.merge]
    [Std.Commutative driver.merge] (adds : Adds driver) {state : State driver}
    (ran : (initial driver).run schedule = .some state) :
    Once (leftFold driver.merge (contributions driver)) state.completed
      (∀ call, contributed (state.phase call) = true) (∀ call, state.act call = none) := by
  rcases run_kept adds initial_active ran with active | complete
  · refine ⟨.inl active.completed, fun filled => absurd active.completed filled, fun stuck => ?_⟩
    obtain ⟨call, moves⟩ := active_steps nonempty active
    exact absurd (stuck call) moves
  obtain ⟨value, completed, merged⟩ := complete.result
  refine ⟨.inr ⟨value, completed, merged⟩, fun _ call => ?_, fun _ => ?_⟩
  · rw [complete.finished call]
    rfl
  · rw [completed]
    simp

theorem ordered_once (nonempty : 0 < driver.numSegs) {state : OrderedState driver}
    (ran : (OrderedState.initial driver).run schedule = .some state) :
    Once (leftFold driver.merge (contributions driver)) state.completed
      (∀ call, arrived (state.phase call) = true) (∀ call, state.act call = none) := by
  have inOrder := run_inOrder (initial_inOrder nonempty) ran
  have ends : (∀ call, state.act call = none) → state.completed ≠ [] := by
    intro stuck
    obtain ⟨value, completed, _⟩ := stuck_handed inOrder stuck
    rw [completed]
    simp
  cases inOrder.progress with
  | merging more merged uncompleted | handing all uncompleted =>
    exact ⟨.inl uncompleted, fun filled => absurd uncompleted filled, ends⟩
  | handed all value completed merged =>
    refine ⟨.inr ⟨value, completed, merged⟩, fun _ call => ?_, ends⟩
    have lt : call.val < state.next := by
      rw [all]
      exact call.isLt
    exact (inOrder.arrivals call).mpr (.inl lt)

theorem rank_initial : rank (initial driver) = (driver.numSegs + 1) * (driver.numSegs * 5) := by
  have nobody : idle (initial driver) = ∅ := by
    apply Finset.filter_eq_empty_iff.mpr
    simp [initial, idles]
  rw [rank, nobody]
  simp [work, initial, weight, slotWeight]

/-- The segments complete once: the calls end, one of them hands on the merge of all contributions,
and in ordered mode that is the left fold for any merge. -/
theorem segments_complete_once (driver : Driver α) (nonempty : 0 < driver.numSegs) :
    (Std.Associative driver.merge → Std.Commutative driver.merge → Adds driver →
      ∀ schedule state, (initial driver).run schedule = .some state →
        schedule.length ≤ (driver.numSegs + 1) * (driver.numSegs * 5) ∧
        Once (leftFold driver.merge (contributions driver)) state.completed
          (∀ call, contributed (state.phase call) = true) (∀ call, state.act call = none)) ∧
    ∀ schedule state, (OrderedState.initial driver).run schedule = .some state →
      schedule.length ≤ driver.numSegs * 4 ∧
      Once (leftFold driver.merge (contributions driver)) state.completed
        (∀ call, arrived (state.phase call) = true) (∀ call, state.act call = none) := by
  constructor
  · intro _ _ adds schedule state ran
    have short := run_short ran
    rw [rank_initial] at short
    exact ⟨by omega, unordered_once nonempty adds ran⟩
  · intro schedule state ran
    have short := run_left ran
    simp [left, OrderedState.initial, stepsLeft] at short
    exact ⟨by omega, ordered_once nonempty ran⟩

/-- Counts `10` for the first segment, `11` for the second, and so on. -/
def counts (numSegs : Nat) : Driver Nat :=
  ⟨numSegs, 0, (· + ·), fun call count => count + (10 + call.val)⟩

/-- The second call swaps what the first one released out of the slot. -/
def swapping : List (Fin (counts 2).numSegs) := ([0, 1, 0, 1, 0, 1, 1, 1, 1] : List (Fin 2))

theorem segments_complete_once_swapped : ∃ state,
    (initial (counts 2)).run swapping = some state ∧ state.completed = [21] ∧
    Once (leftFold (counts 2).merge (contributions (counts 2))) state.completed
      (∀ call, contributed (state.phase call) = true) (∀ call, state.act call = none) := by
  have ran : ∃ state, (initial (counts 2)).run swapping = some state ∧
      state.completed = [21] := ⟨_, rfl, rfl⟩
  obtain ⟨state, ran, completed⟩ := ran
  have once := (segments_complete_once (counts 2) (by decide)).1
    (show Std.Associative (α := Nat) (· + ·) from inferInstance)
    (show Std.Commutative (α := Nat) (· + ·) from inferInstance)
    (fun _ _ _ _ => by simp [counts, Driver.contribution]) _ state ran
  exact ⟨state, ran, completed, once.2⟩

/-- Without a segment there is no call, and nothing is handed on. -/
theorem no_segments_not_completed : (∀ call, (initial (counts 0)).act call = none) ∧
    (initial (counts 0)).run [] = some (initial (counts 0)) ∧ (initial (counts 0)).completed = [] :=
  ⟨fun call => call.elim0, rfl, rfl⟩

end Luxir.Util.OrderedMerge
