import Luxir.Index.CommitAdmission
import Mathlib.Data.List.Nodup
import Mathlib.Data.List.Range

/-!
The account of a commit. What a commit waits for is the inverters it adopted and, where it waits for
merges, the merges under way. Within an event the count may run ahead of the maps: `Books` says by
how much, so that every part of an event is one entry in the books.
-/

namespace Luxir.Index.CommitAccounting
open CommitAdmission List State

def unfinished (state : State) (commit : Nat) : Nat :=
  state.inverters.countP fun inverter => inverter.commitInfo = some commit

def holds (state : State) (commit : Nat) : Nat :=
  if commit ∈ state.waitingForMerges then state.outstandingMerges else 0

def handed (state : State) : List Nat := state.sequencer.map Handed.commit

/-- The flush node has every inverter that is to be flushed, and no commit waits for an idle one. -/
def Works (inverter : Inverter) : Prop :=
  (inverter.place = .flushing → inverter.queued = true) ∧
    (inverter.place = .idle → inverter.commitInfo = none)

/-- The sequencer has every admitted commit whose count is zero, once, and no other commit, and the
numbers are those of the admitted commits in order. What a commit waits for is under way. -/
structure Ledger (state : State) : Prop where
  once : (handed state).Nodup
  handedOver : ∀ commit, commit ∈ handed state ↔
    commit ∈ state.admitted ∧ (state.commits commit).leftToFlush = 0
  atZero : ∀ put ∈ state.sequencer, put.leftToFlush = 0 ∧
    put.commitNum = (state.commits put.commit).commitNum
  numbers : state.admitted.map (fun commit => (state.commits commit).commitNum) =
    range state.commitNumber
  works : ∀ inverter ∈ state.inverters, Works inverter

/-- The accounting of commits: the count is what is left to wait for, and when nothing is left every
admitted commit has been handed over. -/
structure Accounted (state : State) : Prop extends Ledger state where
  counted : ∀ commit, (state.commits commit).leftToFlush =
    unfinished state commit + holds state commit
  waiting : ∀ commit, commit ∈ state.waitingForMerges ↔ commit ∈ state.admitted ∧
    commit ∉ handed state ∧ (state.commits commit).waitForMerges = true ∧
    (state.commits commit).publishOnly = false
  settled : (∀ inverter ∈ state.inverters, inverter.commitInfo = none) →
    state.outstandingMerges = 0 → (handed state).Perm state.admitted

/-- The books while an event is under way: `owed` is what the counts have beyond the maps. -/
structure Books (owed : Nat → Nat) (state : State) : Prop extends Ledger state where
  counted : ∀ commit, (state.commits commit).leftToFlush =
    unfinished state commit + holds state commit + owed commit
  owedAdmitted : ∀ commit, owed commit ≠ 0 → commit ∈ state.admitted
  adopted : ∀ commit, unfinished state commit ≠ 0 → commit ∈ state.admitted
  initiated : ∀ commit ∈ state.admitted, commit < state.initiated
  waiting : ∀ commit, commit ∈ state.waitingForMerges ↔ commit ∈ state.admitted ∧
    (state.commits commit).leftToFlush ≠ 0 ∧ (state.commits commit).waitForMerges = true ∧
    (state.commits commit).publishOnly = false
  waitingOnce : state.waitingForMerges.Nodup
  running : state.halted = false

theorem Books.settled {state : State} (books : Books (fun _ => 0) state)
    (free : ∀ inverter ∈ state.inverters, inverter.commitInfo = none)
    (merged : state.outstandingMerges = 0) : (handed state).Perm state.admitted := by
  have distinct : state.admitted.Nodup := Nodup.of_map _ (books.numbers ▸ nodup_range)
  refine (perm_ext_iff_of_nodup books.once distinct).mpr fun commit => ?_
  rw [books.handedOver, and_iff_left]
  have unadopted : unfinished state commit = 0 :=
    countP_eq_zero.mpr fun inverter mem => by simp [free inverter mem]
  rw [books.counted, unadopted, holds, merged, ite_self]

theorem Books.accounted {state : State} (books : Books (fun _ => 0) state) : Accounted state where
  toLedger := books.toLedger
  counted := books.counted
  waiting := by
    intro commit
    rw [books.waiting, books.handedOver]
    tauto
  settled := books.settled

theorem initial_books : Books (fun _ => 0) initial := by
  refine ⟨⟨?_, ?_, ?_, ?_, ?_⟩, ?_, ?_, ?_, ?_, ?_, ?_, ?_⟩ <;>
    simp [initial, unfinished, holds, handed]

variable {state : State} {owed : Nat → Nat} {sequencer : Nat → Bool} {commit : Nat}
  {waiting : List Nat} {inverter : Inverter}

section
variable (books : Books owed state)
include books

theorem Books.number_injective {one other : Nat} (first : one ∈ state.admitted)
    (second : other ∈ state.admitted)
    (same : (state.commits one).commitNum = (state.commits other).commitNum) : one = other := by
  have nodup : (state.admitted.map fun commit => (state.commits commit).commitNum).Nodup := by
    rw [books.numbers]
    exact nodup_range
  exact inj_on_of_nodup_map nodup first second same

theorem Books.number_lt (admitted : commit ∈ state.admitted) :
    (state.commits commit).commitNum < state.commitNumber := by
  have listed : (state.commits commit).commitNum ∈
      state.admitted.map fun commit => (state.commits commit).commitNum :=
    mem_map_of_mem admitted
  rw [books.numbers] at listed
  exact mem_range.mp listed

theorem Books.number_used {num : Nat} (used : num ∈ state.sequencer.map Handed.commitNum) :
    ∃ commit ∈ handed state, (state.commits commit).commitNum = num := by
  obtain ⟨put, mem, rfl⟩ := mem_map.mp used
  exact ⟨put.commit, mem_map_of_mem mem, (books.atZero put mem).2.symm⟩

theorem Books.number_unused (admitted : commit ∈ state.admitted) (fresh : commit ∉ handed state) :
    (state.commits commit).commitNum ∉ state.sequencer.map Handed.commitNum := by
  intro used
  obtain ⟨other, had, same⟩ := books.number_used used
  have known := ((books.handedOver other).mp had).1
  rw [books.number_injective known admitted same] at had
  exact fresh had

end

theorem releaseToCommitSequencer_accepted (state : State) (commit : Nat)
    (fresh : (state.commits commit).commitNum ∉ state.sequencer.map Handed.commitNum) :
    state.releaseToCommitSequencer commit true = ({ state with
          sequencer := state.sequencer ++
            [⟨commit, (state.commits commit).commitNum, (state.commits commit).leftToFlush⟩]
          waitingForMerges :=
            if (state.commits commit).waitForMerges then state.waitingForMerges.erase commit
            else state.waitingForMerges }, true) := by
  have unused : (state.sequencer.map Handed.commitNum).contains (state.commits commit).commitNum =
      false := by simpa using fresh
  simp only [releaseToCommitSequencer, unused, Bool.not_false, Bool.and_self, if_true]

theorem releaseAll_accepted (accepts : ∀ commit, sequencer commit = true) {released : List Nat}
    (waits : ∀ commit ∈ released, (state.commits commit).waitForMerges = true)
    (nodup : (released.map fun commit => (state.commits commit).commitNum).Nodup)
    (fresh : ∀ commit ∈ released,
      (state.commits commit).commitNum ∉ state.sequencer.map Handed.commitNum) :
    state.releaseAll sequencer released = ({ state with
          sequencer := state.sequencer ++ released.map fun commit =>
            ⟨commit, (state.commits commit).commitNum, (state.commits commit).leftToFlush⟩
          waitingForMerges := state.waitingForMerges.diff released }, true) := by
  induction released generalizing state with
  | nil => simp [releaseAll]
  | cons commit rest ih =>
    rw [map_cons, nodup_cons] at nodup
    have first := releaseToCommitSequencer_accepted state commit (fresh commit mem_cons_self)
    rw [waits commit mem_cons_self, if_pos rfl] at first
    simp only [releaseAll, accepts, first, if_true]
    rw [ih]
    · simp [diff_cons]
    · exact fun later mem => waits later (mem_cons_of_mem _ mem)
    · exact nodup.2
    · intro later mem
      rw [map_append, mem_append, not_or]
      refine ⟨fresh later (mem_cons_of_mem _ mem), ?_⟩
      rw [map_singleton, mem_singleton]
      exact fun same => nodup.1 (mem_map.mpr ⟨later, mem, same⟩)

def recount (commits : Nat → Commit) (left : Nat → Nat) : Nat → Commit :=
  fun commit => { commits commit with leftToFlush := left commit }

section
variable (commits : Nat → Commit)
include commits

theorem recount_self : recount commits (fun commit => (commits commit).leftToFlush) = commits := rfl

theorem setLeft_eq (commit left : Nat) : setLeft commits commit left = recount commits
      (fun other => if other = commit then left else (commits other).leftToFlush) := by
  funext other
  by_cases same : other = commit
  · subst same
    simp [setLeft, recount]
  · simp [setLeft, recount, same]

theorem hold_all (nodup : waiting.Nodup) :
    waiting.foldl (fun commits commit => setLeft commits commit ((commits commit).leftToFlush + 1))
        commits =
      recount commits fun commit =>
        (commits commit).leftToFlush + if commit ∈ waiting then 1 else 0 := by
  induction waiting generalizing commits with
  | nil => simp [recount_self]
  | cons head rest ih =>
    obtain ⟨gone, distinctRest⟩ := nodup_cons.mp nodup
    rw [foldl_cons, ih _ distinctRest, setLeft_eq]
    funext commit
    by_cases same : commit = head
    · subst same
      simp [recount, gone]
    · simp [recount, same]

theorem drop_all (nodup : waiting.Nodup) (noted : List Nat) :
    waiting.foldl dropHold (commits, noted) = (recount commits fun commit =>
          if commit ∈ waiting then (commits commit).leftToFlush - 1
          else (commits commit).leftToFlush,
        noted ++ waiting.filter fun commit => (commits commit).leftToFlush - 1 = 0) := by
  induction waiting generalizing commits noted with
  | nil => simp [recount_self]
  | cons head rest ih =>
    obtain ⟨gone, distinctRest⟩ := nodup_cons.mp nodup
    have others : rest.filter (fun commit =>
        (setLeft commits head ((commits head).leftToFlush - 1) commit).leftToFlush - 1 = 0) =
        rest.filter fun commit => (commits commit).leftToFlush - 1 = 0 := by
      apply filter_congr
      intro commit mem
      have other : commit ≠ head := fun same => gone (same ▸ mem)
      simp [setLeft_eq, recount, other]
    rw [foldl_cons, dropHold, ih _ distinctRest, others, filter_cons, setLeft_eq]
    congr 1
    · funext commit
      by_cases same : commit = head
      · subst same
        simp [recount, gone]
      · simp [recount, same]
    · by_cases last : (commits head).leftToFlush - 1 = 0 <;> simp [last]

end

theorem Books.waiting_admitted (books : Books owed state)
    (waits : commit ∈ state.waitingForMerges) : commit ∈ state.admitted :=
  ((books.waiting commit).mp waits).1

def entered (state : State) (left : Nat → Nat) (merges : Nat) (freed waiting : List Nat) : State :=
  { state with
    commits := recount state.commits left
    outstandingMerges := merges
    sequencer := state.sequencer ++ freed.map fun commit =>
      ⟨commit, (state.commits commit).commitNum, left commit⟩
    waitingForMerges := waiting }

/-- An entry in the books: the new counts are right, the commits that came to zero are those handed
over, and these wait no longer. -/
structure Entry (state : State) (owed left : Nat → Nat) (merges : Nat) (freed waiting : List Nat) :
    Prop where
  counted : ∀ commit, left commit =
    unfinished state commit + (if commit ∈ waiting then merges else 0) + owed commit
  owedAdmitted : ∀ commit, owed commit ≠ 0 → commit ∈ state.admitted
  zero : ∀ commit, (state.commits commit).leftToFlush = 0 → left commit = 0
  cameToZero : ∀ commit, commit ∈ freed ↔
    commit ∈ state.admitted ∧ (state.commits commit).leftToFlush ≠ 0 ∧ left commit = 0
  freedOnce : freed.Nodup
  stillWaiting : ∀ commit, commit ∈ waiting ↔ commit ∈ state.waitingForMerges ∧ left commit ≠ 0
  waitingOnce : waiting.Nodup

theorem handed_entered (left : Nat → Nat) (merges : Nat) (freed waiting : List Nat) :
    handed (entered state left merges freed waiting) = handed state ++ freed := by
  simp [handed, entered, Function.comp_def]

theorem Books.enter {owing left : Nat → Nat} {merges : Nat} {freed : List Nat}
    (books : Books owing state) (entry : Entry state owed left merges freed waiting) :
    Books owed (entered state left merges freed waiting) where
  counted := entry.counted
  owedAdmitted := entry.owedAdmitted
  adopted := books.adopted
  initiated := books.initiated
  waiting := by
    intro commit
    have before := books.waiting commit
    have zero := entry.zero commit
    change commit ∈ waiting ↔ commit ∈ state.admitted ∧ left commit ≠ 0 ∧ _
    rw [entry.stillWaiting, before]
    tauto
  waitingOnce := entry.waitingOnce
  once := by
    rw [handed_entered, nodup_append']
    refine ⟨books.once, entry.freedOnce, ?_⟩
    intro commit had free
    exact ((entry.cameToZero commit).mp free).2.1 ((books.handedOver commit).mp had).2
  handedOver := by
    intro commit
    have zero := entry.zero commit
    rw [handed_entered, mem_append, books.handedOver, entry.cameToZero]
    tauto
  atZero := by
    intro put mem
    rcases mem_append.mp mem with old | new
    · exact books.atZero put old
    · obtain ⟨commit, free, rfl⟩ := mem_map.mp new
      exact ⟨((entry.cameToZero commit).mp free).2.2, rfl⟩
  numbers := books.numbers
  works := books.works
  running := books.running

def plusEach (owed : Nat → Nat) (commits : List Nat) : Nat → Nat :=
  fun commit => owed commit + if commit ∈ commits then 1 else 0

theorem Books.addMergeWaiterHolds_eq (books : Books owed state) :
    { state with outstandingMerges := state.outstandingMerges + 1 }.addMergeWaiterHolds =
      entered state (plusEach (fun commit => (state.commits commit).leftToFlush)
        state.waitingForMerges) (state.outstandingMerges + 1) [] state.waitingForMerges := by
  simp only [addMergeWaiterHolds, hold_all _ books.waitingOnce, entered, map_nil, append_nil]
  rfl

theorem Books.hold (books : Books owed state) : Books owed
      { state with outstandingMerges := state.outstandingMerges + 1 }.addMergeWaiterHolds := by
  rw [books.addMergeWaiterHolds_eq]
  apply books.enter
  exact {
    counted := by
      intro commit
      have before := books.counted commit
      unfold holds at before
      simp only [plusEach]
      split_ifs at before ⊢ <;> omega
    owedAdmitted := books.owedAdmitted
    zero := by
      intro commit zero
      have free : commit ∉ state.waitingForMerges := fun waits =>
        ((books.waiting commit).mp waits).2.1 zero
      rw [plusEach, if_neg free, zero]
    cameToZero := by
      intro commit
      rw [plusEach]
      constructor
      · exact fun listed => absurd listed not_mem_nil
      · exact fun both => by omega
    freedOnce := nodup_nil
    stillWaiting := by
      intro commit
      refine ⟨fun waits => ⟨waits, ?_⟩, fun both => both.1⟩
      rw [plusEach, if_pos waits]
      omega
    waitingOnce := books.waitingOnce }

/-- A merge that has ended is still held by every waiting commit. -/
theorem Books.endMerge (books : Books owed state) (run : 0 < state.outstandingMerges) :
    Books (plusEach owed state.waitingForMerges)
      { state with outstandingMerges := state.outstandingMerges - 1 } :=
  { books with
    counted := by
      intro commit
      have before := books.counted commit
      unfold holds unfinished at *
      unfold plusEach
      dsimp only
      split_ifs at before ⊢ <;> omega
    owedAdmitted := by
      intro commit owing
      by_cases waits : commit ∈ state.waitingForMerges
      · exact books.waiting_admitted waits
      · apply books.owedAdmitted commit
        simpa [plusEach, waits] using owing }

def freed (state : State) : List Nat :=
  state.waitingForMerges.filter fun commit => (state.commits commit).leftToFlush - 1 = 0

theorem mem_freed : commit ∈ freed state ↔ commit ∈ state.waitingForMerges ∧
    (state.commits commit).leftToFlush - 1 = 0 := by
  simp [freed]

theorem freed_nil (more : ∀ commit ∈ state.waitingForMerges,
    2 ≤ (state.commits commit).leftToFlush) : freed state = [] := by
  apply eq_nil_iff_forall_not_mem.mpr
  intro commit mem
  obtain ⟨waits, last⟩ := mem_freed.mp mem
  have left := more commit waits
  omega

def droppedCount (state : State) (commit : Nat) : Nat :=
  if commit ∈ state.waitingForMerges then (state.commits commit).leftToFlush - 1
  else (state.commits commit).leftToFlush

def dropped (state : State) : State :=
  entered state (droppedCount state) state.outstandingMerges (freed state)
    (state.waitingForMerges.diff (freed state))

theorem Books.releaseMergeWaiterHolds_eq (books : Books owed state)
    (accepts : ∀ commit, sequencer commit = true) :
    state.releaseMergeWaiterHolds sequencer = (dropped state, true) := by
  have waits : ∀ commit ∈ freed state, commit ∈ state.waitingForMerges := fun commit mem =>
    (mem_freed.mp mem).1
  simp only [releaseMergeWaiterHolds, drop_all _ books.waitingOnce, nil_append]
  apply releaseAll_accepted accepts
  · intro commit mem
    exact ((books.waiting commit).mp (waits commit mem)).2.2.1
  · apply List.Nodup.map_on _ (books.waitingOnce.filter _)
    intro one first other second same
    exact books.number_injective (books.waiting_admitted (waits one first))
      (books.waiting_admitted (waits other second)) same
  · intro commit mem
    have waiting := waits commit mem
    exact books.number_unused (books.waiting_admitted waiting) fun had =>
      ((books.waiting commit).mp waiting).2.1 ((books.handedOver commit).mp had).2

theorem Books.dropHolds (books : Books (plusEach owed state.waitingForMerges) state) :
    Books owed (dropped state) := by
  have still : ∀ commit, commit ∈ state.waitingForMerges.diff (freed state) ↔
      commit ∈ state.waitingForMerges ∧ (state.commits commit).leftToFlush - 1 ≠ 0 := by
    intro commit
    rw [books.waitingOnce.mem_sdiff_iff, mem_freed]
    tauto
  apply books.enter
  exact {
    counted := by
      intro commit
      have before := books.counted commit
      unfold holds plusEach at before
      simp only [droppedCount, still]
      by_cases waits : commit ∈ state.waitingForMerges
      · simp only [waits, if_true, true_and] at before ⊢
        split_ifs <;> omega
      · simpa [waits] using before
    owedAdmitted := by
      intro commit owing
      apply books.owedAdmitted commit
      rw [plusEach]
      omega
    zero := by
      intro commit zero
      have free : commit ∉ state.waitingForMerges := fun waits =>
        ((books.waiting commit).mp waits).2.1 zero
      rw [droppedCount, if_neg free, zero]
    cameToZero := by
      intro commit
      have known := books.waiting commit
      rw [mem_freed, droppedCount]
      split_ifs <;> tauto
    freedOnce := books.waitingOnce.filter _
    stillWaiting := by
      intro commit
      rw [still, droppedCount]
      split_ifs <;> tauto
    waitingOnce := books.waitingOnce.diff }

theorem Books.submitMerge (books : Books owed state) (put : Put)
    (accepts : ∀ commit, sequencer commit = true) :
    Books owed (state.submitMerge put sequencer).1 ∧ (state.submitMerge put sequencer).2 = put := by
  have held := books.hold
  by_cases taken : put = .accepted
  · simp only [State.submitMerge, taken, if_true]
    exact ⟨held, trivial⟩
  · have back := held.endMerge (Nat.succ_pos _)
    simp only [State.submitMerge, taken, if_false, back.releaseMergeWaiterHolds_eq accepts, if_true]
    exact ⟨back.dropHolds, trivial⟩

/-- A submission changes no commit's waiting: what is rolled back is not a commit's last hold. -/
theorem Books.submitMerge_waiting (books : Books owed state) (put : Put)
    (accepts : ∀ commit, sequencer commit = true) :
    (state.submitMerge put sequencer).1.waitingForMerges = state.waitingForMerges := by
  by_cases taken : put = .accepted
  · simp only [State.submitMerge, taken, if_true]
    rfl
  have back := books.hold.endMerge (Nat.succ_pos _)
  simp only [State.submitMerge, taken, if_false, back.releaseMergeWaiterHolds_eq accepts]
  change List.diff state.waitingForMerges (freed _) = state.waitingForMerges
  rw [freed_nil, diff_nil]
  intro commit (waits : commit ∈ state.waitingForMerges)
  have left := ((books.waiting commit).mp waits).2.1
  rw [books.addMergeWaiterHolds_eq]
  change 2 ≤ plusEach (fun commit => (state.commits commit).leftToFlush) _ commit
  rw [plusEach, if_pos waits]
  omega

theorem Books.maybeMergeSegments (books : Books owed state) (merge : Option Put)
    (accepts : ∀ commit, sequencer commit = true) :
    Books owed (state.maybeMergeSegments merge sequencer).1 ∧
      (state.maybeMergeSegments merge sequencer).1.waitingForMerges = state.waitingForMerges ∧
      (merge ≠ some .threw → (state.maybeMergeSegments merge sequencer).2 ≠ .threw) := by
  cases merge with
  | none => exact ⟨books, rfl, by simp [State.maybeMergeSegments]⟩
  | some put =>
    obtain ⟨kept, answer⟩ := books.submitMerge put accepts
    rw [State.maybeMergeSegments]
    split
    · exact ⟨books, rfl, by simp⟩
    · exact ⟨kept, books.submitMerge_waiting put accepts, by simp [answer]⟩

theorem unfinished_erase (mem : inverter ∈ state.inverters) (commit : Nat) :
    unfinished state commit =
      unfinished { state with inverters := state.inverters.erase inverter } commit +
        if inverter.commitInfo = some commit then 1 else 0 := by
  have split := (perm_cons_erase mem).countP_eq
    fun inverter => decide (inverter.commitInfo = some commit)
  rw [countP_cons] at split
  simpa [unfinished] using split

theorem Books.erase (books : Books owed state) (mem : inverter ∈ state.inverters) :
    Books (plusEach owed inverter.commitInfo.toList)
      { state with inverters := state.inverters.erase inverter } :=
  { books with
    counted := by
      intro commit
      have before := books.counted commit
      rw [unfinished_erase mem] at before
      have listed : (commit ∈ inverter.commitInfo.toList) =
          (inverter.commitInfo = some commit) := by
        simp
      have sameHolds : holds { state with inverters := state.inverters.erase inverter } commit =
        holds state commit := rfl
      simp only [plusEach, listed]
      omega
    owedAdmitted := by
      intro commit owing
      by_cases mine : inverter.commitInfo = .some commit
      · apply books.adopted commit
        rw [unfinished_erase mem, if_pos mine]
        omega
      · apply books.owedAdmitted commit
        simpa [plusEach, mine] using owing
    adopted := by
      intro commit owing
      apply books.adopted commit
      rw [unfinished_erase mem]
      omega
    works := fun other listed => books.works other (mem_of_mem_erase listed) }

def flushCount (state : State) (commit other : Nat) : Nat :=
  if other = commit then (state.commits commit).leftToFlush - 1
  else (state.commits other).leftToFlush

theorem flushCount_self : flushCount state commit commit =
    (state.commits commit).leftToFlush - 1 := if_pos rfl

theorem flushCount_other {other : Nat} (ne : other ≠ commit) :
    flushCount state commit other = (state.commits other).leftToFlush := if_neg ne

theorem Books.flushing (books : Books (plusEach owed [commit]) state) :
    commit ∈ state.admitted ∧ (state.commits commit).leftToFlush ≠ 0 := by
  have before := books.counted commit
  rw [plusEach, if_pos (mem_singleton.mpr rfl)] at before
  exact ⟨books.owedAdmitted commit (by simp [plusEach]), by omega⟩

theorem Books.flushEntry {freed : List Nat} (books : Books (plusEach owed [commit]) state)
    (isFreed : ∀ other, other ∈ freed ↔ other = commit ∧ flushCount state commit commit = 0)
    (freedOnce : freed.Nodup) (isWaiting : ∀ other, other ∈ waiting ↔
      other ∈ state.waitingForMerges ∧ flushCount state commit other ≠ 0)
    (waitingOnce : waiting.Nodup) :
    Entry state owed (flushCount state commit) state.outstandingMerges freed waiting := by
  have ledger : ∀ other, flushCount state commit other =
      unfinished state other + holds state other + owed other := by
    intro other
    have before := books.counted other
    simp only [plusEach, mem_singleton] at before
    rw [flushCount]
    split_ifs at before ⊢ with same
    · subst same
      omega
    · exact before
  obtain ⟨admitted, counts⟩ := books.flushing
  exact {
    counted := by
      intro other
      have count := ledger other
      rw [holds] at count
      simp only [isWaiting]
      by_cases waited : other ∈ state.waitingForMerges
      · -- a commit that has just come to zero has no merge under way
        simp only [waited, if_true, true_and] at count ⊢
        split_ifs <;> omega
      · simpa [waited] using count
    owedAdmitted := by
      intro other owing
      apply books.owedAdmitted other
      rw [plusEach]
      omega
    zero := by
      intro other zero
      by_cases same : other = commit
      · exact absurd (same ▸ zero) counts
      · rw [flushCount_other same, zero]
    cameToZero := by
      intro other
      rw [isFreed]
      by_cases same : other = commit
      · subst same
        tauto
      · rw [flushCount_other same]
        tauto
    freedOnce := freedOnce
    stillWaiting := isWaiting
    waitingOnce := waitingOnce }

theorem Books.finishFlush (books : Books (plusEach owed [commit]) state)
    (accepts : ∀ commit, sequencer commit = true) :
    Books owed (state.finishFlush commit sequencer) := by
  obtain ⟨admitted, counts⟩ := books.flushing
  have counted : setLeft state.commits commit ((state.commits commit).leftToFlush - 1) =
    recount state.commits (flushCount state commit) := setLeft_eq _ _ _
  have stays : ∀ other ∈ state.waitingForMerges, other ≠ commit →
      flushCount state commit other ≠ 0 := by
    intro other waits ne
    rw [flushCount_other ne]
    exact ((books.waiting other).mp waits).2.1
  by_cases last : (state.commits commit).leftToFlush - 1 = 0
  · have unhanded : commit ∉ handed state := fun had =>
      counts ((books.handedOver commit).mp had).2
    have fresh := books.number_unused admitted unhanded
    have released := releaseToCommitSequencer_accepted { state with
      commits := recount state.commits (flushCount state commit) } commit fresh
    have same : state.finishFlush commit sequencer =
        entered state (flushCount state commit) state.outstandingMerges [commit]
          (if (state.commits commit).waitForMerges then state.waitingForMerges.erase commit
            else state.waitingForMerges) := by
      simp only [State.finishFlush, counted, accepts]
      rw [if_pos last, released]
      rfl
    rw [same]
    apply books.enter
    apply books.flushEntry
    · simp [flushCount_self, last]
    · exact nodup_singleton commit
    · intro other
      split
      · rw [books.waitingOnce.mem_erase_iff]
        constructor
        · exact fun both => ⟨both.2, stays other both.2 both.1⟩
        intro both
        refine ⟨?_, both.1⟩
        intro eq
        rw [eq, flushCount_self] at both
        exact both.2 last
      · rename_i free
        constructor
        · intro waits
          refine ⟨waits, stays other waits ?_⟩
          intro eq
          exact free (eq ▸ ((books.waiting other).mp waits).2.2.1)
        · exact fun both => both.1
    · split
      · exact books.waitingOnce.erase commit
      · exact books.waitingOnce
  · have same : state.finishFlush commit sequencer =
        entered state (flushCount state commit) state.outstandingMerges []
          state.waitingForMerges := by
      simp only [State.finishFlush, last, if_false, counted, entered, map_nil, append_nil]
    rw [same]
    apply books.enter
    apply books.flushEntry
    · simp [flushCount_self, last]
    · exact nodup_nil
    · intro other
      constructor
      · intro waits
        refine ⟨waits, ?_⟩
        by_cases eq : other = commit
        · rw [eq, flushCount_self]
          exact last
        · exact stays other waits eq
      · exact fun both => both.1
    · exact books.waitingOnce

theorem Books.segmentFlushed (books : Books owed state) (mem : inverter ∈ state.inverters)
    {success : Bool} {merge : Option Put} (quiet : merge ≠ some .threw)
    (accepts : ∀ commit, sequencer commit = true) :
    Books owed (state.segmentFlushed inverter success merge sequencer) := by
  have erased := books.erase mem
  obtain ⟨kept, -, answered⟩ := erased.maybeMergeSegments (if success then merge else none) accepts
  have calm := answered (by split <;> simp [quiet])
  simp only [State.segmentFlushed, calm, if_false]
  cases owner : inverter.commitInfo with
  | none =>
    rwa [owner] at kept
  | some =>
    rw [owner] at kept
    exact kept.finishFlush accepts

theorem Books.finishMergeTail (books : Books owed state) (run : 0 < state.outstandingMerges)
    {chain : Option Put} (accepts : ∀ commit, sequencer commit = true) :
    Books owed (state.finishMergeTail chain sequencer) := by
  obtain ⟨kept, same, -⟩ := (books.endMerge run).maybeMergeSegments chain accepts
  simp only [State.finishMergeTail]
  generalize State.maybeMergeSegments _ chain sequencer = chained at kept same ⊢
  rw [← same] at kept
  simp only [kept.releaseMergeWaiterHolds_eq accepts, if_true]
  exact kept.dropHolds

end Luxir.Index.CommitAccounting
