import Luxir.Lib.Runs
import Luxir.Lib.LeftFold
import Luxir.Util.SegmentMergeDriver
import Mathlib.Data.Fintype.BigOperators
import Mathlib.Tactic.Abel

/-!
The segments' data is complete once. The segments that have contributed are spread over the slot and
the calls, each in one place; a count that a place carries is the number of its segments. So the
call that puts a full count into the slot is the last one.
-/

namespace Luxir.Util.MergeCompletion
open Lib.LeftFold SegmentMergeDriver Finset Multiset State Function List

variable {α : Type}

/-- Data that has something in it is changed as merging with a contribution changes it. -/
def Adds (driver : Driver α) : Prop :=
  ∀ (call : Fin driver.numSegs) (calls : List (Fin driver.numSegs)) (data : α),
    leftFold driver.merge (calls.map driver.contribution) = some data →
    driver.accumulate call data = driver.merge data (driver.contribution call)

structure Carries (driver : Driver α) (calls : List (Fin driver.numSegs)) (data : Mergeable α) :
    Prop where
  count : data.releaseCount = calls.length
  fresh : calls = [] → data.value = driver.creator
  merged : calls ≠ [] → leftFold driver.merge (calls.map driver.contribution) = some data.value

variable {data : Mergeable α}

section
variable {driver : Driver α}

theorem Carries.accumulate (adds : Adds driver) {calls : List (Fin driver.numSegs)}
    (carries : Carries driver calls data) (call : Fin driver.numSegs) :
    Carries driver (calls ++ [call])
      ⟨driver.accumulate call data.value, data.releaseCount + 1⟩ := by
  constructor
  · simp [carries.count]
  · simp
  · intro _
    by_cases empty : calls = []
    · rw [empty, carries.fresh empty]
      rfl
    · have merged := carries.merged empty
      rw [List.map_append, List.map_singleton, leftFold_concat merged,
        adds call calls data.value merged]

theorem Carries.merge [Std.Associative driver.merge] {calls others : List (Fin driver.numSegs)}
    {other : Mergeable α} (one : Carries driver calls data) (two : Carries driver others other)
    (begun : calls ≠ []) (more : others ≠ []) :
    Carries driver (calls ++ others) (driver.mergeData data other) := by
  constructor
  · simp [Driver.mergeData, one.count, two.count]
  · simp [begun]
  · intro _
    rw [map_append]
    exact leftFold_append (one.merged begun) (two.merged more)

end

def dataOf : Phase α → Option (Mergeable α)
  | .accumulating data | .releasing data | .taking data => some data
  | .waiting | .completing | .finished => none

def contributed : Phase α → Bool
  | .waiting | .accumulating _ => false
  | .releasing _ | .taking _ | .completing | .finished => true

def exchanging : Phase α → Bool
  | .releasing _ | .taking _ => true
  | .waiting | .accumulating _ | .completing | .finished => false

variable {driver : Driver α} {state after : State driver} {call : Fin driver.numSegs}

@[simp] theorem moved_phase (slot : Option (Mergeable α)) (phase : Phase α) :
    (state.moved call slot phase).phase call = phase := update_self _ _ _

variable {slot : Option (Mergeable α)} {phase : Phase α} {other : Fin driver.numSegs}

theorem moved_other (apart : other ≠ call) (slot : Option (Mergeable α)) (phase : Phase α) :
    (state.moved call slot phase).phase other = state.phase other := update_of_ne apart _ _

def dataAt (state : State driver) : Option (Fin driver.numSegs) → Option (Mergeable α)
  | none => state.slot
  | some call => dataOf (state.phase call)

def contributors (state : State driver) : Finset (Fin driver.numSegs) :=
  univ.filter fun call => contributed (state.phase call) = true

/-- The segments that have contributed, where their contributions are. -/
structure Spread (state : State driver)
    (held : Option (Fin driver.numSegs) → List (Fin driver.numSegs)) :
    Prop where
  carried : ∀ {place data}, dataAt state place = some data → Carries driver (held place) data
  empty : ∀ {place}, dataAt state place = none → held place = []
  slot : state.slot ≠ none → held none ≠ []
  exchanged : ∀ {call}, exchanging (state.phase call) = true → held (some call) ≠ []
  total : ∑ place, (held place : Multiset (Fin driver.numSegs)) = (contributors state).val

/-- The segments are complete when a call has seen a full count, and not before. -/
structure Watched (state : State driver) : Prop where
  full : ∀ {call}, state.phase call = .completing →
    ∃ data, state.slot = some data ∧ data.releaseCount = driver.numSegs
  seen : ∀ {data}, state.slot = some data → data.releaseCount = driver.numSegs →
    ∃ call, state.phase call = .completing
  once : ∀ {first second}, state.phase first = .completing → state.phase second = .completing →
    first = second

theorem total_update (held : Option (Fin driver.numSegs) → List (Fin driver.numSegs))
    (call : Fin driver.numSegs) (mine theirs : List (Fin driver.numSegs)) :
    ∑ place, ((update (update held (some call) mine) none theirs place :
        List (Fin driver.numSegs)) : Multiset (Fin driver.numSegs)) + (held (some call) + held none) =
      ∑ place, (held place : Multiset (Fin driver.numSegs)) + (mine + theirs) := by
  rw [Fintype.sum_option, Fintype.sum_option, update_self, ← add_sum_erase _ _ (mem_univ call),
    ← add_sum_erase univ
      (fun other => (held (some other) : Multiset (Fin driver.numSegs))) (mem_univ call)]
  have others : ∀ other ∈ univ.erase call,
      ((update (update held (some call) mine) none theirs (some other) :
        List (Fin driver.numSegs)) : Multiset (Fin driver.numSegs)) = held (some other) := by
    intro other mem
    rw [update_of_ne (by simp), update_of_ne (by simpa using ne_of_mem_erase mem)]
  rw [sum_congr rfl others, update_of_ne (by simp), update_self]
  abel

def Stowed (driver : Driver α) (data : Option (Mergeable α)) (segments : List (Fin driver.numSegs)) :
    Prop :=
  match data with
  | none => segments = []
  | some data => Carries driver segments data

variable {held : Option (Fin driver.numSegs) → List (Fin driver.numSegs)}

theorem Spread.stowed (spread : Spread state held) (place : Option (Fin driver.numSegs)) :
    Stowed driver (dataAt state place) (held place) := by
  cases found : dataAt state place with
  | none => exact spread.empty found
  | some => exact spread.carried found

theorem Spread.own (spread : Spread state held) (here : state.phase call = phase)
    (has : dataOf phase = some data) : Carries driver (held (some call)) data :=
  spread.carried (show dataOf (state.phase call) = some data from here ▸ has)

/-- A step changes what the call and the slot hold, and no other place. -/
theorem Spread.moved (spread : Spread state held) (mine theirs : List (Fin driver.numSegs))
    (extra : Multiset (Fin driver.numSegs)) (own : Stowed driver (dataOf phase) mine)
    (put : Stowed driver slot theirs) (filled : slot ≠ none → theirs ≠ [])
    (exchanged : exchanging phase = true → mine ≠ [])
    (sums : (mine + theirs : Multiset (Fin driver.numSegs)) = held (some call) + held none + extra)
    (grown : (contributors (state.moved call slot phase)).val = (contributors state).val + extra) :
    Spread (state.moved call slot phase) (update (update held (some call) mine) none theirs) := by
  have elsewhere : ∀ {other}, other ≠ call →
      update (update held (some call) mine) none theirs (some other) = held (some other) := by
    intro other apart
    rw [update_of_ne (by simp), update_of_ne (by simpa using apart)]
  have here : update (update held (some call) mine) none theirs (some call) = mine := by
    rw [update_of_ne (by simp), update_self]
  have stowed : ∀ place, Stowed driver (dataAt (state.moved call slot phase) place)
      (update (update held (some call) mine) none theirs place) := by
    intro place
    cases place with
    | none =>
      rw [update_self]
      exact put
    | some other =>
      by_cases same : other = call
      · rw [same, here, dataAt, moved_phase]
        exact own
      · rw [elsewhere same, dataAt, moved_other same]
        exact spread.stowed (some other)
  constructor
  · intro place data found
    have carried := stowed place
    rwa [found] at carried
  · intro place gone
    have empty := stowed place
    rwa [gone] at empty
  · intro present
    rw [update_self]
    exact filled present
  · intro other busy
    by_cases same : other = call
    · rw [same, moved_phase] at busy
      rw [same, here]
      exact exchanged busy
    · rw [moved_other same] at busy
      rw [elsewhere same]
      exact spread.exchanged busy
  · have moved := total_update held call mine theirs
    rw [grown]
    apply add_right_cancel (moved.trans _)
    rw [sums, spread.total]
    abel

theorem mem_contributors : other ∈ contributors state ↔ contributed (state.phase other) = true := by
  simp [contributors]

theorem contributors_same (same : contributed phase = contributed (state.phase call)) :
    (contributors (state.moved call slot phase)).val = (contributors state).val + 0 := by
  rw [add_zero, val_inj]
  ext other
  rw [mem_contributors, mem_contributors]
  by_cases here : other = call
  · rw [here, moved_phase, same]
  · rw [moved_other here]

theorem contributors_new (before : contributed (state.phase call) = false)
    (now : contributed phase = true) :
    (contributors (state.moved call slot phase)).val = (contributors state).val + {call} := by
  have outside : call ∉ contributors state := by
    rw [mem_contributors, before]
    exact Bool.false_ne_true
  have grown : contributors (state.moved call slot phase) = insert call (contributors state) := by
    ext other
    rw [mem_insert, mem_contributors, mem_contributors]
    by_cases here : other = call
    · simp [here, now]
    · rw [moved_other here]
      simp [here]
  rw [grown, insert_val_of_notMem outside, add_comm]
  rfl

theorem Spread.bound (spread : Spread state held) (call : Fin driver.numSegs) :
    (held none).length + (held (some call)).length ≤ driver.numSegs := by
  have counted := congrArg Multiset.card spread.total
  rw [Multiset.card_sum, Fintype.sum_option, ← add_sum_erase _ _ (mem_univ call)] at counted
  simp only [coe_card, card_val] at counted
  have most := card_le_univ (contributors state)
  rw [Fintype.card_fin] at most
  omega

theorem Spread.settled (spread : Spread state held) (there : state.slot = some data)
    (full : data.releaseCount = driver.numSegs) (call : Fin driver.numSegs) :
    state.phase call = .completing ∨ state.phase call = .finished := by
  have length := (spread.carried (show dataAt state none = some data from there)).count
  have bound := spread.bound call
  have mine : held (some call) = [] := eq_nil_of_length_eq_zero (by omega)
  have all : contributors state = univ := by
    apply eq_univ_of_card
    have counted := congrArg Multiset.card spread.total
    rw [Multiset.card_sum, Fintype.sum_option] at counted
    simp only [coe_card, card_val] at counted
    have most := card_le_univ (contributors state)
    rw [Fintype.card_fin] at most ⊢
    omega
  have passed := mem_contributors.mp (all ▸ mem_univ call)
  cases here : state.phase call with
  | waiting | accumulating => simp [here, contributed] at passed
  | releasing | taking => exact absurd mine (spread.exchanged (by rw [here]; rfl))
  | completing => exact .inl rfl
  | finished => exact .inr rfl

theorem quiet (spread : Spread state held) (watched : Watched state)
    (here : state.phase call = phase) (busy : phase ≠ .completing ∧ phase ≠ .finished)
    (other : Fin driver.numSegs) : state.phase other ≠ .completing := by
  intro completing
  obtain ⟨data, there, full⟩ := watched.full completing
  rcases spread.settled there full call with ends | ends
  · exact busy.1 (here.symm.trans ends)
  · exact busy.2 (here.symm.trans ends)

theorem watched_quiet (nobody : ∀ other, state.phase other ≠ .completing)
    (still : phase ≠ .completing)
    (short : ∀ {data}, slot = some data → data.releaseCount ≠ driver.numSegs) :
    Watched (state.moved call slot phase) := by
  have nobody : ∀ other, (state.moved call slot phase).phase other ≠ .completing := by
    intro other
    by_cases here : other = call
    · rw [here, moved_phase]
      exact still
    · rw [moved_other here]
      exact nobody other
  constructor
  · exact fun completing => absurd completing (nobody _)
  · exact fun there full => absurd full (short there)
  · exact fun completing => absurd completing (nobody _)

theorem watched_completing (nobody : ∀ other, state.phase other ≠ .completing)
    (full : data.releaseCount = driver.numSegs) :
    Watched (state.moved call (some data) .completing) := by
  have only : ∀ {other}, (state.moved call (some data) .completing).phase other = .completing →
      other = call := by
    intro other completing
    by_contra here
    rw [moved_other here] at completing
    exact nobody other completing
  constructor
  · exact fun _ => ⟨data, rfl, full⟩
  · exact fun _ _ => ⟨call, moved_phase _ _⟩
  · exact fun first second => (only first).trans (only second).symm

structure Active (state : State driver) : Prop where
  completed : state.completed = []
  spread : ∃ held, Spread state held
  watched : Watched state

structure Complete (state : State driver) : Prop where
  finished : ∀ call, state.phase call = .finished
  result : ∃ value, state.completed = [value] ∧
    leftFold driver.merge (ofFn driver.contribution) = some value

section
variable (spread : Spread state held) (watched : Watched state) (completed : state.completed = [])
include spread watched completed

theorem obtain_active (here : state.phase call = .waiting) :
    Active (state.moved call none (.accumulating (state.slot.getD driver.fresh))) := by
  have mine : held (some call) = [] := by
    apply spread.empty
    rw [dataAt, here]
    rfl
  refine ⟨completed, ⟨_, spread.moved (held none) [] 0 ?_ rfl (by simp) (by simp [exchanging])
    (by simp [mine]) (contributors_same (by rw [here]; rfl))⟩,
    watched_quiet (quiet spread watched here (by simp)) (by simp) (by simp)⟩
  cases there : state.slot with
  | none =>
    rw [spread.empty (show dataAt state none = none from there)]
    exact ⟨rfl, fun _ => rfl, fun ne => absurd rfl ne⟩
  | some => exact spread.carried there

theorem accumulate_active (adds : Adds driver) (here : state.phase call = .accumulating data) :
    Active (state.moved call state.slot
      (.releasing ⟨driver.accumulate call data.value, data.releaseCount + 1⟩)) := by
  have nobody := quiet spread watched here (by simp)
  have mine := spread.own here rfl
  refine ⟨completed, ⟨_, spread.moved (held (some call) ++ [call]) (held none) {call}
    (mine.accumulate adds call) (spread.stowed none) spread.slot (by simp) ?_
    (contributors_new (by rw [here]; rfl) rfl)⟩, watched_quiet nobody (by simp) ?_⟩
  · rw [← Multiset.coe_add, Multiset.coe_singleton]
    abel
  · intro data there full
    obtain ⟨other, completing⟩ := watched.seen there full
    exact nobody other completing

theorem put_active (here : state.phase call = .releasing data) (there : state.slot = none) :
    Active (state.moved call (some data)
      (if data.releaseCount = driver.numSegs then .completing else .finished)) := by
  have nobody := quiet spread watched here (by simp)
  have mine := spread.own here rfl
  have filled : held (some call) ≠ [] := spread.exchanged (by rw [here]; rfl)
  have theirs : held none = [] := spread.empty there
  have ends : ∀ full : Prop, [Decidable full] → dataOf (if full then Phase.completing else
      (Phase.finished : Phase α)) = none ∧ exchanging (if full then Phase.completing else
      (Phase.finished : Phase α)) = false ∧ contributed (if full then Phase.completing else
      (Phase.finished : Phase α)) = true := by
    intro full _
    split <;> simp [dataOf, exchanging, contributed]
  obtain ⟨ownless, still, passed⟩ := ends (data.releaseCount = driver.numSegs)
  refine ⟨completed, ⟨_, spread.moved [] (held (some call)) 0 (by rw [ownless]; rfl) mine
    (fun _ => filled) (by simp [still]) (by simp [theirs])
    (contributors_same (passed.trans (by rw [here]; rfl)))⟩, ?_⟩
  split_ifs with full
  · exact watched_completing nobody full
  apply watched_quiet nobody (by simp)
  intro data found
  cases found
  exact full

theorem swap_active {other : Mergeable α} (here : state.phase call = .releasing data)
    (there : state.slot = some other) :
    Active (state.moved call (some data) (.taking other)) := by
  have mine := spread.own here rfl
  have filled : held (some call) ≠ [] := spread.exchanged (by rw [here]; rfl)
  have theirs : held none ≠ [] := spread.slot (by simp [there])
  refine ⟨completed, ⟨_, spread.moved (held none) (held (some call)) 0 (spread.carried there) mine
    (fun _ => filled) (fun _ => theirs) (by rw [add_zero, add_comm])
    (contributors_same (by rw [here]; rfl))⟩,
    watched_quiet (quiet spread watched here (by simp)) (by simp) ?_⟩
  intro data found
  cases found
  have length := mine.count
  have bound := spread.bound call
  have pos := length_pos_of_ne_nil theirs
  omega

theorem back_active (here : state.phase call = .taking data) (there : state.slot = none) :
    Active (state.moved call none (.releasing data)) := by
  have mine := spread.own here rfl
  have filled : held (some call) ≠ [] := spread.exchanged (by rw [here]; rfl)
  have theirs : held none = [] := spread.empty there
  exact ⟨completed, ⟨_, spread.moved (held (some call)) [] 0 mine rfl (by simp) (fun _ => filled)
    (by simp [theirs]) (contributors_same (by rw [here]; rfl))⟩,
    watched_quiet (quiet spread watched here (by simp)) (by simp) (by simp)⟩

theorem merge_active [Std.Associative driver.merge] {other : Mergeable α}
    (here : state.phase call = .taking data) (there : state.slot = some other) :
    Active (state.moved call none (.releasing (driver.mergeData data other))) := by
  have mine := spread.own here rfl
  have filled : held (some call) ≠ [] := spread.exchanged (by rw [here]; rfl)
  have theirs : held none ≠ [] := spread.slot (by simp [there])
  exact ⟨completed, ⟨_, spread.moved (held (some call) ++ held none) [] 0
    (mine.merge (spread.carried there) filled theirs) rfl (by simp) (by simp [filled]) (by simp)
    (contributors_same (by rw [here]; rfl))⟩,
    watched_quiet (quiet spread watched here (by simp)) (by simp) (by simp)⟩

omit completed in
theorem complete_slot (here : state.phase call = .completing) :
    ∃ data, state.slot = some data ∧ (held none).Perm (finRange driver.numSegs) := by
  obtain ⟨data, there, full⟩ := watched.full here
  refine ⟨data, there, ?_⟩
  have others : ∀ other, held (some other) = [] := by
    intro other
    apply spread.empty
    rcases spread.settled there full other with ends | ends
    all_goals
      rw [dataAt, ends]
      rfl
  have all : contributors state = univ := by
    apply eq_univ_iff_forall.mpr
    intro other
    rw [mem_contributors]
    rcases spread.settled there full other with ends | ends
    all_goals
      rw [ends]
      rfl
  have total := spread.total
  rw [Fintype.sum_option, all] at total
  simp only [others, coe_nil, sum_const_zero, add_zero] at total
  exact coe_eq_coe.mp total

theorem completing_complete [Std.Associative driver.merge] [Std.Commutative driver.merge]
    (here : state.phase call = .completing) :
    Complete { state.moved call none .finished with
      completed := state.completed ++ [(state.slot.getD driver.fresh).value] } := by
  obtain ⟨data, there, all⟩ := complete_slot spread watched here
  obtain ⟨other, same, full⟩ := watched.full here
  constructor
  · intro other
    by_cases self : other = call
    · rw [self, moved_phase]
    · rw [moved_other self]
      rcases spread.settled same full other with completing | finished
      · exact absurd (watched.once completing here) self
      · exact finished
  · refine ⟨data.value, ?_, ?_⟩
    · rw [completed, there]
      rfl
    · have carries : Carries driver (held none) data := spread.carried there
      have merged := carries.merged (spread.slot (by simp [there]))
      rw [← merged, ofFn_eq_map]
      exact leftFold_perm (all.symm.map driver.contribution)

end

theorem act_kept [Std.Associative driver.merge] [Std.Commutative driver.merge]
    (adds : Adds driver) (active : Active state) (step : state.act call = some after) :
    Active after ∨ Complete after := by
  obtain ⟨completed, ⟨held, spread⟩, watched⟩ := active
  unfold act at step
  cases here : state.phase call <;> rw [here] at step
  case releasing data =>
    cases there : state.slot <;> rw [there] at step <;> cases step
    · exact .inl (put_active spread watched completed here there)
    · exact .inl (swap_active spread watched completed here there)
  case taking data =>
    cases there : state.slot <;> rw [there] at step <;> cases step
    · exact .inl (back_active spread watched completed here there)
    · exact .inl (merge_active spread watched completed here there)
  all_goals cases step
  case waiting => exact .inl (obtain_active spread watched completed here)
  case accumulating data => exact .inl (accumulate_active spread watched completed adds here)
  case completing => exact .inr (completing_complete spread watched completed here)

theorem Complete.ends (complete : Complete state) (call : Fin driver.numSegs) :
    state.act call = none := by
  rw [act, complete.finished call]

theorem initial_active : Active (initial driver) := by
  refine ⟨rfl, ⟨fun _ => [], ?_⟩, ?_⟩
  · have nobody : contributors (initial driver) = ∅ := by
      apply filter_eq_empty_iff.mpr
      simp [initial, contributed]
    constructor
    · intro place data found
      cases place <;> cases found
    · simp
    · simp [initial]
    · simp [initial, exchanging]
    · simp [nobody]
  · constructor <;> simp [initial]

variable {schedule : List (Fin driver.numSegs)}

theorem run_kept [Std.Associative driver.merge] [Std.Commutative driver.merge] (adds : Adds driver)
    (active : Active state) (ran : state.run schedule = some after) :
    Active after ∨ Complete after := by
  induction schedule generalizing state with
  | nil =>
    cases ran
    exact .inl active
  | cons call rest ih =>
    obtain ⟨next, step, ran⟩ := Lib.Runs.foldlM_cons_some ran
    rcases act_kept adds active step with still | complete
    · exact ih still ran
    cases rest with
    | nil =>
      cases ran
      exact .inr complete
    | cons other =>
      have stuck := complete.ends other
      simp [stuck] at ran

theorem active_steps (nonempty : 0 < driver.numSegs) (active : Active state) :
    ∃ call, state.act call ≠ none := by
  by_contra stopped
  have stuck : ∀ call, state.act call = none :=
    fun call => by_contra fun moves => stopped ⟨call, moves⟩
  have finished : ∀ call, state.phase call = .finished := by
    intro call
    have halted := stuck call
    unfold act at halted
    cases here : state.phase call with
    | waiting | accumulating | completing => simp [here] at halted
    | releasing | taking => cases there : state.slot <;> simp [here, there] at halted
    | finished => rfl
  obtain ⟨_, ⟨held, spread⟩, watched⟩ := active
  have others : ∀ other, held (.some other) = [] := by
    intro other
    apply spread.empty
    rw [dataAt, finished other]
    rfl
  have all : contributors state = univ := by
    apply eq_univ_iff_forall.mpr
    intro other
    rw [mem_contributors, finished other]
    rfl
  have total := congrArg Multiset.card spread.total
  rw [Fintype.sum_option, all] at total
  simp only [others, coe_nil, sum_const_zero, add_zero, coe_card,
    card_val, card_univ, Fintype.card_fin] at total
  cases there : state.slot with
  | none =>
    rw [spread.empty (show dataAt state none = none from there), length_nil] at total
    omega
  | some data =>
    have carries : Carries driver (held none) data := spread.carried there
    obtain ⟨call, completing⟩ := watched.seen there (carries.count.trans total)
    rw [finished call] at completing
    cases completing

/-- How far a call is from its end, apart from exchanges that another call undoes. -/
def weight : Phase α → Nat
  | .waiting => 5
  | .accumulating _ => 4
  | .releasing _ | .taking _ => 3
  | .completing => 1
  | .finished => 0

def slotWeight (slot : Option (Mergeable α)) : Nat := if slot.isSome then 1 else 0

/-- The next exchange leaves the slot as it is, filled or empty. -/
def idles (filled : Bool) : Phase α → Bool
  | .releasing _ => filled
  | .taking _ => !filled
  | _ => false

def idle (state : State driver) : Finset (Fin driver.numSegs) :=
  univ.filter fun call => idles state.slot.isSome (state.phase call) = true

theorem mem_idle : other ∈ idle state ↔ idles state.slot.isSome (state.phase other) = true := by
  simp [idle]

def work (state : State driver) : Nat := ∑ call, weight (state.phase call) + slotWeight state.slot

def rank (state : State driver) : Nat := (driver.numSegs + 1) * work state + (idle state).card

theorem work_moved (slot : Option (Mergeable α)) (phase : Phase α) :
    work (state.moved call slot phase) + (weight (state.phase call) + slotWeight state.slot) =
      work state + (weight phase + slotWeight slot) := by
  have others : ∀ other ∈ univ.erase call,
      weight ((state.moved call slot phase).phase other) = weight (state.phase other) := by
    intro other mem
    rw [moved_other (ne_of_mem_erase mem)]
  unfold work
  rw [← add_sum_erase _ _ (mem_univ call), sum_congr rfl others, moved_phase,
    ← add_sum_erase univ (fun other => weight (state.phase other)) (mem_univ call)]
  change _ + slotWeight slot + _ = _
  omega

theorem rank_less_of_work (less : work after < work state) : rank after < rank state := by
  have few := card_le_univ (idle after)
  rw [Fintype.card_fin] at few
  have more := Nat.mul_le_mul_left (driver.numSegs + 1) less
  rw [Nat.mul_succ] at more
  unfold rank
  omega

theorem rank_moved
    (less : weight phase + slotWeight slot < weight (state.phase call) + slotWeight state.slot) :
    rank (state.moved call slot phase) < rank state := by
  have moved : work (state.moved call slot phase) + _ = _ := work_moved slot phase
  exact rank_less_of_work (by omega)

/-- An exchange that leaves the slot filled or empty is not repeated before another one does not. -/
theorem rank_idle (same : weight phase = weight (state.phase call))
    (still : slot.isSome = state.slot.isSome)
    (before : idles state.slot.isSome (state.phase call) = true)
    (now : idles slot.isSome phase = false) : rank (state.moved call slot phase) < rank state := by
  have fewer : idle (state.moved call slot phase) ⊂ idle state := by
    apply (ssubset_iff_of_subset _).mpr
    · refine ⟨call, mem_idle.mpr before, ?_⟩
      rw [mem_idle, moved_phase]
      exact Bool.eq_false_iff.mp now
    intro other mem
    rw [mem_idle] at mem ⊢
    by_cases here : other = call
    · rw [here]
      exact before
    · rw [moved_other here] at mem
      rw [← still]
      exact mem
  have slots : slotWeight slot = slotWeight state.slot := by
    rw [slotWeight, slotWeight, still]
  have moved : work (state.moved call slot phase) + _ = _ := work_moved slot phase
  have eq : work (state.moved call slot phase) = work state := by omega
  have card := card_lt_card fewer
  unfold rank
  rw [eq]
  omega

theorem act_less (step : state.act call = some after) : rank after < rank state := by
  unfold act at step
  cases here : state.phase call <;> rw [here] at step
  case releasing data =>
    cases there : state.slot <;> rw [there] at step <;> cases step
    · apply rank_moved
      split <;> simp [here, there, weight, slotWeight]
    · apply rank_idle <;> simp [here, there, weight, idles]
  case taking data =>
    cases there : state.slot <;> rw [there] at step <;> cases step
    · apply rank_idle <;> simp [here, there, weight, idles]
    · apply rank_moved
      simp [here, there, weight, slotWeight]
  all_goals cases step
  case accumulating data =>
    apply rank_moved
    simp [here, weight]
  case waiting | completing =>
    refine rank_moved (?_ : _ + slotWeight none < _)
    simp only [here, weight, slotWeight, Option.isSome_none, Bool.false_eq_true, if_false]
    omega

theorem run_short (ran : state.run schedule = some after) :
    schedule.length + rank after ≤ rank state := by
  simpa using Lib.Runs.countP_le rank (fun _ => true)
    (fun step => Nat.one_add_le_iff.mpr (act_less step)) ran

end Luxir.Util.MergeCompletion
