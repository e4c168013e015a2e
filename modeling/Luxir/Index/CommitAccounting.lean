import Luxir.Index.CommitBooks
import Luxir.Lib.Runs
import Mathlib.Algebra.Order.Ring.Nat

/-!
Commits over whole runs. The books are kept by the admission of a commit, which enters all that the
commit adopts at once, and by every other event of the writer, as long as the nodes of the graph
take what they are given. Where the flush node refuses an inverter that a commit has adopted, the
commit is rejected but its account stays open.
-/

namespace Luxir.Index.CommitAccounting
open CommitAdmission List State Function

variable {state : State} {owed : Nat → Nat} {flushNode : Inverter → Bool} {next : State}
  {inverter : Inverter} {request : Request}

def adoptedBy (commit : Nat) (inverters : List Inverter) : Nat :=
  inverters.countP fun inverter => inverter.commitInfo = some commit

theorem adoptedBy_cons (commit : Nat) (inverter : Inverter) (rest : List Inverter) :
    adoptedBy commit (inverter :: rest) =
      adoptedBy commit rest + if inverter.commitInfo = some commit then 1 else 0 := by
  simp [adoptedBy, countP_cons]

theorem adoptedBy_adoptIn (place : Place) (commit version : Nat) (inverters : List Inverter)
    (other : Nat) : adoptedBy other (adoptIn place commit version inverters) =
      adoptedBy other inverters +
        if other = commit then inverters.countP (adopts place version) else 0 := by
  induction inverters with
  | nil => simp [adoptIn, adoptedBy]
  | cons inverter rest ih =>
    rw [adoptIn, map_cons, adoptedBy_cons, adoptedBy_cons, ← adoptIn, ih, countP_cons]
    by_cases mine : adopts place version inverter
    · have free : inverter.commitInfo = none := by
        simp only [adopts, Bool.and_eq_true, decide_eq_true_eq] at mine
        exact mine.1.2
      by_cases same : other = commit
      · simp [mine, free, same]
        omega
      · simp [mine, free, same, Ne.symm same]
    · simp only [mine]
      by_cases same : other = commit <;> simp [same]
      omega

theorem flushIdle_accepted (commit version : Nat) (accepts : ∀ inverter, flushNode inverter = true)
    (inverters : List Inverter) :
    (flushIdle commit version flushNode inverters).2.2 = true ∧
      ∀ other, adoptedBy other (flushIdle commit version flushNode inverters).1 =
        adoptedBy other inverters +
          if other = commit then (flushIdle commit version flushNode inverters).2.1 else 0 := by
  induction inverters with
  | nil => simp [flushIdle]
  | cons inverter rest ih =>
    obtain ⟨allTaken, counts⟩ := ih
    by_cases due : inverter.place = .idle ∧ inverter.minVersion ≤ version
    · simp only [flushIdle, due, accepts, if_true, and_self, allTaken, true_and]
      intro other
      rw [adoptedBy_cons, adoptedBy_cons, counts]
      by_cases free : inverter.commitInfo = none
      · by_cases same : other = commit
        · simp [free, same]
          omega
        · simp [free, same, Ne.symm same]
      · by_cases same : other = commit
        · simp [free, same]
          omega
        · simp [free, same]
    · simp only [flushIdle, due, if_false, allTaken, true_and]
      intro other
      rw [adoptedBy_cons, adoptedBy_cons, counts]
      omega

section
variable (books : Books (fun _ => 0) state)
include books

theorem Books.fresh_commit : state.initiated ∉ state.admitted := fun admitted =>
  absurd (books.initiated _ admitted) (lt_irrefl _)

theorem Books.fresh_unadopted : unfinished state state.initiated = 0 := by
  by_contra adopts
  exact books.fresh_commit (books.adopted _ adopts)

theorem Books.fresh_unwaited : state.initiated ∉ state.waitingForMerges := fun waits =>
  books.fresh_commit (books.waiting_admitted waits)

/-- The message of a commit is entered. An admitted commit takes the next number, and goes to the
sequencer at once if it has nothing to wait for; a rejected one leaves nothing behind. -/
theorem Books.entered (message : Commit) (admits : Bool) (inverters : List Inverter)
    (waiting freed : List Nat) (named : admits = true → message.commitNum = state.commitNumber)
    (refused : admits = false → message.leftToFlush = 0)
    (others : ∀ other, other ≠ state.initiated → adoptedBy other inverters = unfinished state other)
    (counted : message.leftToFlush = adoptedBy state.initiated inverters +
      if state.initiated ∈ waiting then state.outstandingMerges else 0)
    (isWaiting : ∀ other, other ∈ waiting ↔ other ∈ state.waitingForMerges ∨
      other = state.initiated ∧ admits = true ∧ message.leftToFlush ≠ 0 ∧
        message.waitForMerges = true ∧ message.publishOnly = false) (waitingOnce : waiting.Nodup)
    (isFreed : ∀ other, other ∈ freed ↔
      other = state.initiated ∧ admits = true ∧ message.leftToFlush = 0) (freedOnce : freed.Nodup)
    (works : ∀ inverter ∈ inverters, Works inverter) :
    Books (fun _ => 0) { state with
      inverters := inverters
      commits := update state.commits state.initiated message
      initiated := state.initiated + 1
      waitingForMerges := waiting
      commitNumber := bif admits then state.commitNumber + 1 else state.commitNumber
      admitted := bif admits then state.admitted ++ [state.initiated] else state.admitted
      sequencer := state.sequencer ++ freed.map fun commit =>
        ⟨commit, message.commitNum, message.leftToFlush⟩ } := by
  have fresh := books.fresh_commit
  have older : ∀ other ∈ state.admitted, other ≠ state.initiated := fun other mem same =>
    fresh (same ▸ mem)
  have kept : ∀ other, other ≠ state.initiated →
      update state.commits state.initiated message other = state.commits other :=
    fun other ne => update_of_ne ne _ _
  have mine : update state.commits state.initiated message state.initiated = message :=
    update_self _ _ _
  have unwaited := books.fresh_unwaited
  have isAdmitted : ∀ other, (other ∈ bif admits then state.admitted ++ [state.initiated]
      else state.admitted) ↔ other ∈ state.admitted ∨ other = state.initiated ∧ admits = true := by
    intro other
    cases admits <;> simp
  exact {
    counted := by
      intro other
      dsimp only
      by_cases same : other = state.initiated
      · subst same
        rw [mine]
        exact counted
      have before := books.counted other
      rw [kept other same, before, ← others other same]
      have waits : other ∈ waiting ↔ other ∈ state.waitingForMerges := by
        rw [isWaiting]
        tauto
      simp only [CommitAccounting.holds, waits]
      rfl
    owedAdmitted := fun other owing => absurd rfl owing
    adopted := by
      intro other owing
      rw [isAdmitted]
      by_cases same : other = state.initiated
      · refine .inr ⟨same, Bool.of_not_eq_false fun refuses => owing ?_⟩
        rw [same]
        exact (Nat.add_eq_zero_iff.mp (counted.symm.trans (refused refuses))).1
      · left
        apply books.adopted other
        rw [← others other same]
        exact owing
    initiated := by
      intro other mem
      rcases (isAdmitted other).mp mem with old | new
      · exact Nat.lt_succ_of_lt (books.initiated other old)
      · rw [new.1]
        exact Nat.lt_succ_self _
    waiting := by
      intro other
      dsimp only
      rw [isWaiting, isAdmitted]
      by_cases same : other = state.initiated
      · subst same
        rw [mine]
        simp [unwaited, fresh]
      · rw [kept other same, books.waiting]
        tauto
    waitingOnce := waitingOnce
    once := by
      change (map _ _).Nodup
      rw [map_append, map_map, nodup_append']
      refine ⟨books.once, by simpa [comp_def] using freedOnce, ?_⟩
      intro other had mem
      have free : other ∈ freed := by simpa [comp_def] using mem
      rw [((isFreed other).mp free).1] at had
      exact fresh ((books.handedOver _).mp had).1
    handedOver := by
      intro other
      have before := books.handedOver other
      have listed : other ∈ (state.sequencer ++ freed.map fun commit =>
          (⟨commit, message.commitNum, message.leftToFlush⟩ : Handed)).map Handed.commit ↔
          other ∈ handed state ∨ other ∈ freed := by
        simp [handed]
      refine listed.trans ?_
      dsimp only
      rw [before, isFreed, isAdmitted]
      by_cases same : other = state.initiated
      · subst same
        rw [mine]
        simp [fresh]
      · rw [kept other same]
        tauto
    atZero := by
      intro put mem
      rcases mem_append.mp mem with old | new
      · have had : put.commit ∈ handed state := mem_map_of_mem old
        dsimp only
        rw [kept _ (older _ ((books.handedOver _).mp had).1)]
        exact books.atZero put old
      · obtain ⟨commit, free, rfl⟩ := mem_map.mp new
        obtain ⟨rfl, -, zero⟩ := (isFreed commit).mp free
        dsimp only
        rw [mine]
        exact ⟨zero, rfl⟩
    numbers := by
      have before : state.admitted.map (fun commit => (update state.commits state.initiated
          message commit).commitNum) = range state.commitNumber := by
        rw [← books.numbers]
        apply map_congr_left
        intro other mem
        rw [kept other (older other mem)]
      cases admits with
      | false => exact before
      | true =>
        dsimp only [cond_true]
        rw [map_append, before, map_singleton, mine, named rfl, range_succ]
    works := works
    running := books.running }

theorem Books.reject {message : Commit} (zero : message.leftToFlush = 0) {inverters : List Inverter}
    (same : ∀ commit, adoptedBy commit inverters = unfinished state commit)
    (works : ∀ inverter ∈ inverters, Works inverter) :
    Books (fun _ => 0) { state with
      inverters := inverters
      commits := update state.commits state.initiated message
      initiated := state.initiated + 1 } := by
  have entered := books.entered message false inverters state.waitingForMerges []
    (by rintro ⟨⟩) (fun _ => zero) (fun other _ => same other)
    (by rw [if_neg books.fresh_unwaited, same, books.fresh_unadopted, zero]) (by simp)
    books.waitingOnce (by simp) nodup_nil works
  rw [map_nil, append_nil] at entered
  exact entered

end

theorem Books.number_next (books : Books owed state) :
    state.commitNumber ∉ state.sequencer.map Handed.commitNum := by
  intro used
  obtain ⟨commit, had, same⟩ := books.number_used used
  have below := books.number_lt ((books.handedOver commit).mp had).1
  omega

def adoption (state : State) (version : Nat) (flushNode : Inverter → Bool) : List Inverter :=
  adoptIn .busy state.initiated version (flushIdle state.initiated version flushNode
      (adoptIn .flushing state.initiated version state.inverters)).1

def adoptionCount (state : State) (version : Nat) (flushNode : Inverter → Bool) : Nat :=
  let idle := flushIdle state.initiated version flushNode
    (adoptIn .flushing state.initiated version state.inverters)
  state.inverters.countP (adopts .flushing version) + idle.2.1 +
    idle.1.countP (adopts .busy version)

theorem adoptIn_works (place : Place) (commit version : Nat) {inverters : List Inverter}
    (works : ∀ inverter ∈ inverters, Works inverter) (moving : place ≠ .idle) :
    ∀ inverter ∈ adoptIn place commit version inverters, Works inverter := by
  refine forall_mem_map.mpr fun inverter mem => ?_
  split
  next mine =>
    simp only [adopts, Bool.and_eq_true, decide_eq_true_eq] at mine
    exact ⟨(works inverter mem).1, fun idle => absurd (mine.1.1.symm.trans idle) moving⟩
  next => exact works inverter mem

theorem flushIdle_works (commit version : Nat) (accepts : ∀ inverter, flushNode inverter = true)
    {inverters : List Inverter} (works : ∀ inverter ∈ inverters, Works inverter) :
    ∀ inverter ∈ (flushIdle commit version flushNode inverters).1, Works inverter := by
  induction inverters with
  | nil => exact works
  | cons inverter rest ih =>
    obtain ⟨first, others⟩ := forall_mem_cons.mp works
    unfold flushIdle
    simp only [accepts, if_true]
    split
    · exact forall_mem_cons.mpr ⟨⟨fun _ => rfl, nofun⟩, ih others⟩
    · exact forall_mem_cons.mpr ⟨first, ih others⟩

theorem Books.adoption_works (books : Books owed state) (version : Nat)
    (accepts : ∀ inverter, flushNode inverter = true) :
    ∀ inverter ∈ adoption state version flushNode, Works inverter :=
  adoptIn_works _ _ _ (flushIdle_works _ _ accepts (adoptIn_works _ _ _ books.works nofun)) nofun

theorem adoptedBy_adoption (state : State) (version : Nat)
    (accepts : ∀ inverter, flushNode inverter = true) (commit : Nat) :
    adoptedBy commit (adoption state version flushNode) = unfinished state commit +
      if commit = state.initiated then adoptionCount state version flushNode else 0 := by
  obtain ⟨-, counts⟩ := flushIdle_accepted state.initiated version accepts
    (adoptIn .flushing state.initiated version state.inverters)
  rw [adoption, adoptedBy_adoptIn, counts, adoptedBy_adoptIn]
  by_cases mine : commit = state.initiated
  · simp only [mine, if_true, adoptionCount, adoptedBy, unfinished]
    omega
  · simp [mine, adoptedBy, unfinished]

/-- What a commit counts when it has been through the maps. -/
def firstCount (state : State) (request : Request) (flushNode : Inverter → Bool) : Nat :=
  (if request.waitForMerges then state.outstandingMerges else 0) +
    adoptionCount state request.updateVersion flushNode

def firstWaiting (state : State) (request : Request) : List Nat :=
  if request.waitForMerges then state.waitingForMerges ++ [state.initiated]
  else state.waitingForMerges

/-- The state in which a commit has its number and is not admitted yet. -/
def numbered (state : State) (request : Request) (flushNode : Inverter → Bool) : State :=
  { state.enter request (firstCount state request flushNode) state.commitNumber with
    inverters := adoption state request.updateVersion flushNode
    waitingForMerges := firstWaiting state request }

theorem initiateCommit_eq (publishes : request.publishOnly = false)
    (accepts : ∀ inverter, flushNode inverter = true) (sequencer : Bool) :
    state.initiateCommit request true flushNode sequencer =
      let released := (numbered state request flushNode).releaseToCommitSequencer state.initiated
        sequencer
      if firstCount state request flushNode = 0 then
        if released.2 then released.1.admitCommit state.initiated
        else { released.1 with
          waitingForMerges := if request.waitForMerges then
            released.1.waitingForMerges.erase state.initiated
            else released.1.waitingForMerges }
      else (numbered state request flushNode).admitCommit state.initiated := by
  obtain ⟨taken, -⟩ := flushIdle_accepted state.initiated request.updateVersion accepts
    (adoptIn .flushing state.initiated request.updateVersion state.inverters)
  simp only [initiateCommit, publishes, taken, Bool.not_true, Bool.false_eq_true, if_false,
    if_true, numbered, firstCount, firstWaiting, adoption, adoptionCount, Nat.add_assoc]

theorem Books.publishOnly (books : Books (fun _ => 0) state)
    (publishes : request.publishOnly = true) (flushNode : Inverter → Bool) (sequencer : Bool) :
    Books (fun _ => 0) (state.initiateCommit request true flushNode sequencer) := by
  have unwaited := books.fresh_unwaited
  simp only [initiateCommit, Bool.not_true, Bool.false_eq_true, if_false, publishes, if_true]
  cases sequencer with
  | false =>
    exact books.reject rfl (fun _ => rfl) books.works
  | true =>
    have fresh : ((state.enter request 0 state.commitNumber).commits state.initiated).commitNum ∉
        state.sequencer.map Handed.commitNum := by
      simpa only [State.enter, update_self] using books.number_next
    rw [releaseToCommitSequencer_accepted _ _ fresh, if_pos rfl]
    have erased := erase_of_not_mem unwaited
    simp only [State.enter, admitCommit, update_self, erased, ite_self]
    apply books.entered ⟨request, 0, state.commitNumber⟩ true state.inverters
      state.waitingForMerges [state.initiated] (fun _ => rfl) (by rintro ⟨⟩)
    · exact fun _ _ => rfl
    · rw [if_neg unwaited]
      exact books.fresh_unadopted.symm
    · simp
    · exact books.waitingOnce
    · simp
    · exact nodup_singleton _
    · exact books.works

section
variable {request : Request}

theorem Books.erase_firstWaiting (books : Books (fun _ => 0) state) (request : Request) :
    (if request.waitForMerges then (firstWaiting state request).erase state.initiated
      else firstWaiting state request) = state.waitingForMerges := by
  cases waits : request.waitForMerges with
  | false => simp [firstWaiting, waits]
  | true =>
    simp only [firstWaiting, waits, if_true]
    rw [erase_append_right _ books.fresh_unwaited, erase_cons_head, append_nil]

variable (accepts : ∀ inverter, flushNode inverter = true)
include accepts

theorem adoption_others (version other : Nat) (ne : other ≠ state.initiated) :
    adoptedBy other (adoption state version flushNode) = unfinished state other := by
  rw [adoptedBy_adoption state version accepts, if_neg ne, Nat.add_zero]

variable (books : Books (fun _ => 0) state)
include books

theorem Books.adoption_mine (version : Nat) :
    adoptedBy state.initiated (adoption state version flushNode) =
      adoptionCount state version flushNode := by
  rw [adoptedBy_adoption state version accepts, if_pos rfl, books.fresh_unadopted, Nat.zero_add]

theorem Books.initiateCommit_immediate (publishes : request.publishOnly = false) (sequencer : Bool)
    (zero : firstCount state request flushNode = 0) :
    Books (fun _ => 0) (state.initiateCommit request true flushNode sequencer) := by
  have nothing : adoptionCount state request.updateVersion flushNode = 0 := by
    rw [firstCount] at zero
    omega
  have erased := books.erase_firstWaiting request
  rw [initiateCommit_eq publishes accepts]
  simp only [zero, if_true]
  cases sequencer with
  | false =>
    simp only [releaseToCommitSequencer, Bool.false_and, Bool.false_eq_true, if_false]
    simp only [numbered, erased]
    refine books.reject zero (fun commit => ?_) (books.adoption_works _ accepts)
    rw [adoptedBy_adoption state request.updateVersion accepts, nothing, ite_self, Nat.add_zero]
  | true =>
    rw [releaseToCommitSequencer_accepted]
    · simp only [numbered, State.enter, admitCommit, update_self, if_true, erased, zero]
      apply books.entered ⟨request, 0, state.commitNumber⟩ true
        (adoption state request.updateVersion flushNode) state.waitingForMerges [state.initiated]
        (fun _ => rfl) (by rintro ⟨⟩)
      · exact adoption_others accepts request.updateVersion
      · rw [if_neg books.fresh_unwaited, books.adoption_mine accepts, nothing]
      · simp
      · exact books.waitingOnce
      · simp
      · exact nodup_singleton _
      · exact books.adoption_works _ accepts
    · simpa only [numbered, State.enter, update_self] using books.number_next

theorem Books.initiateCommit_waits (publishes : request.publishOnly = false) (sequencer : Bool)
    (pending : firstCount state request flushNode ≠ 0) :
    Books (fun _ => 0) (state.initiateCommit request true flushNode sequencer) := by
  have unwaited := books.fresh_unwaited
  have admitted := books.entered
    ⟨request, firstCount state request flushNode, state.commitNumber⟩ true
    (adoption state request.updateVersion flushNode) (firstWaiting state request) []
    (fun _ => rfl) (by rintro ⟨⟩) (adoption_others accepts request.updateVersion)
  rw [map_nil, append_nil] at admitted
  rw [initiateCommit_eq publishes accepts]
  simp only [pending, if_false]
  apply admitted
  · rw [books.adoption_mine accepts, firstCount, firstWaiting]
    cases request.waitForMerges with
    | false => simp [unwaited]
    | true =>
      simp
      omega
  · intro other
    rw [firstWaiting]
    cases waits : request.waitForMerges with
    | false => simp
    | true => simp [publishes, pending]
  · rw [firstWaiting]
    split
    · rw [← concat_eq_append]
      exact books.waitingOnce.concat unwaited
    · exact books.waitingOnce
  · simp [pending]
  · exact nodup_nil
  · exact books.adoption_works _ accepts

theorem Books.initiateCommit (request : Request) (grown : Bool) (sequencer : Bool) :
    Books (fun _ => 0) (state.initiateCommit request grown flushNode sequencer) := by
  cases grown with
  | false =>
    have zero : (state.commits state.initiated).leftToFlush = 0 := by
      rw [books.counted, books.fresh_unadopted, holds, if_neg books.fresh_unwaited]
    have kept := books.reject zero (fun _ => rfl) books.works
    rw [update_eq_self] at kept
    exact kept
  | true =>
    cases publishes : request.publishOnly with
    | true => exact books.publishOnly publishes flushNode sequencer
    | false =>
      by_cases zero : firstCount state request flushNode = 0
      · exact books.initiateCommit_immediate accepts publishes sequencer zero
      · exact books.initiateCommit_waits accepts publishes sequencer zero

end

section
variable (books : Books owed state)
include books

theorem Books.move {before after : Inverter} (mem : before ∈ state.inverters)
    (same : after.commitInfo = before.commitInfo) (works : Works after) :
    Books owed (state.move before after) := by
  have counts : ∀ commit, unfinished (state.move before after) commit =
      unfinished state commit := by
    intro commit
    rw [unfinished_erase mem]
    simp only [unfinished, State.move, countP_cons, same, decide_eq_true_eq]
  exact { books with
    counted := by
      intro commit
      rw [counts]
      exact books.counted commit
    adopted := by
      intro commit owing
      rw [counts] at owing
      exact books.adopted commit owing
    works := forall_mem_cons.mpr
      ⟨works, fun other listed => books.works other (mem_of_mem_erase listed)⟩ }

/-- The nodes of the graph take what they are given where the writer has changed its state and does
not change it back: an inverter that is released to be flushed, an idle one that a commit flushes, a
merge that the end of a flush submits, and a commit whose count has come to zero. -/
def Event.Taken : Event → Prop
  | .releaseInverter inverter flush accepts =>
    inverter.commitInfo ≠ none ∨ flush = true → accepts = true
  | .initiateCommit _ _ flushNode _ => ∀ inverter, flushNode inverter = true
  | .segmentFlushed _ _ merge sequencer =>
    merge ≠ some .threw ∧ ∀ commit, sequencer commit = true
  | .submitMerge _ sequencer => ∀ commit, sequencer commit = true
  | .finishMergeTail _ sequencer => ∀ commit, sequencer commit = true
  | _ => True

theorem Books.obtainInverter {idle : Option Inverter} {updateVersion : Nat}
    (acted : state.obtainInverter idle updateVersion = some next) : Books owed next := by
  cases idle with
  | none =>
    cases acted
    have counts : ∀ commit, unfinished { state with
        inverters := ⟨state.lastSegId + 1, updateVersion, .busy, none, false⟩ :: state.inverters
        lastSegId := state.lastSegId + 1 } commit = unfinished state commit := by
      intro commit
      simp [unfinished]
    exact { books with
      counted := by
        intro commit
        rw [counts]
        exact books.counted commit
      adopted := by
        intro commit owing
        exact books.adopted commit owing
      works := forall_mem_cons.mpr ⟨by simp [Works], books.works⟩ }
  | some =>
    rw [State.obtainInverter] at acted
    split at acted <;> cases acted
    rename_i found
    exact books.move found.1 rfl (by simp [Works])

theorem Books.releaseInverter {flush accepts : Bool}
    (taken : Event.Taken (.releaseInverter inverter flush accepts))
    (acted : state.releaseInverter inverter flush accepts = some next) : Books owed next := by
  rw [State.releaseInverter] at acted
  split at acted
  · rename_i found
    split at acted <;> cases acted
    · rename_i flushes
      exact books.move found.1 rfl ⟨fun _ => taken flushes, nofun⟩
    · rename_i stays
      exact books.move found.1 rfl ⟨nofun, fun _ => not_not.mp fun mine => stays (.inl mine)⟩
  · cases acted

theorem Books.startIdleFlush {accepts : Bool}
    (acted : state.startIdleFlush inverter accepts = some next) : Books owed next := by
  rw [State.startIdleFlush] at acted
  split at acted
  · rename_i found
    split at acted <;> cases acted
    · exact books.move found.1 rfl ⟨fun _ => rfl, nofun⟩
    · exact books
  · cases acted

end

theorem Books.act (books : Books (fun _ => 0) state) {event : Event} (taken : Event.Taken event)
    (acted : state.act event = some next) : Books (fun _ => 0) next := by
  unfold State.act at acted
  rw [books.running, if_neg Bool.false_ne_true] at acted
  cases event with
  | obtainInverter => exact books.obtainInverter acted
  | releaseInverter => exact books.releaseInverter taken acted
  | startIdleFlush => exact books.startIdleFlush acted
  | initiateCommit request grown flushNode accepts =>
    cases acted
    exact books.initiateCommit taken request grown accepts
  | segmentFlushed =>
    dsimp only at acted
    split at acted <;> cases acted
    rename_i found
    exact books.segmentFlushed found.1 taken.1 taken.2
  | submitMerge put =>
    cases acted
    exact (books.submitMerge put taken).1
  | finishMergeTail =>
    dsimp only at acted
    split at acted <;> cases acted
    rename_i run
    exact books.finishMergeTail run taken

def frame (state : State) : List Inverter × Nat × List Nat :=
  (state.inverters, state.outstandingMerges, state.admitted)

theorem frame_release (state : State) (commit : Nat) (accepts : Bool) :
    frame (state.releaseToCommitSequencer commit accepts).1 = frame state := by
  unfold releaseToCommitSequencer
  dsimp only
  split <;> rfl

theorem frame_releaseAll (sequencer : Nat → Bool) (released : List Nat) (state : State) :
    frame (state.releaseAll sequencer released).1 = frame state := by
  induction released generalizing state with
  | nil => rfl
  | cons commit rest ih =>
    have first := frame_release state commit (sequencer commit)
    unfold releaseAll
    dsimp only
    split
    · rw [ih, first]
    · exact first

theorem frame_finishFlush (state : State) (commit : Nat) (sequencer : Nat → Bool) :
    frame (state.finishFlush commit sequencer) = frame state := by
  unfold finishFlush
  dsimp only
  split
  · split <;> exact frame_release _ _ _
  · rfl

theorem frame_segmentFlushed (state : State) (inverter : Inverter) (sequencer : Nat → Bool) :
    frame (state.segmentFlushed inverter true none sequencer) =
      (state.inverters.erase inverter, state.outstandingMerges, state.admitted) := by
  simp only [segmentFlushed, maybeMergeSegments, reduceCtorEq, if_false, if_true]
  split
  · rfl
  · exact frame_finishFlush _ _ _

theorem frame_finishMergeTail (state : State) (sequencer : Nat → Bool) :
    frame (state.finishMergeTail none sequencer) =
      (state.inverters, state.outstandingMerges - 1, state.admitted) := by
  unfold finishMergeTail maybeMergeSegments releaseMergeWaiterHolds
  dsimp only
  split <;> exact frame_releaseAll _ _ _

/-- The steps that an adopted inverter is still to take. -/
def ahead (inverter : Inverter) : Nat :=
  if inverter.commitInfo = none then 0 else if inverter.place = .busy then 2 else 1

def work (state : State) : Nat := (state.inverters.map ahead).sum + state.outstandingMerges

theorem work_erase (mem : inverter ∈ state.inverters) : work state =
    ahead inverter + ((state.inverters.erase inverter).map ahead).sum + state.outstandingMerges :=
  congrArg (· + _) ((perm_cons_erase mem).map ahead).sum_nat

/-- The flushes and merges under way can come to their end, and every admitted commit is then
handed over, once. -/
def Completes (state : State) : Prop :=
  ∃ rest after, (∀ event ∈ rest, Event.Taken event) ∧ state.run rest = some after ∧
    after.admitted = state.admitted ∧ (handed after).Perm state.admitted

theorem Books.completes (books : Books (fun _ => 0) state) : Completes state := by
  induction left : work state using Nat.strong_induction_on generalizing state with
  | _ rank ih =>
  subst left
  have step : ∀ {event next}, state.act event = some next → Event.Taken event →
      next.admitted = state.admitted → work next < work state → Completes state := by
    intro event next acted taken same less
    obtain ⟨rest, after, all, ran, kept, once⟩ := ih _ less (books.act taken acted) rfl
    refine ⟨event :: rest, after, forall_mem_cons.mpr ⟨taken, all⟩, ?_, kept.trans same, same ▸ once⟩
    rw [State.run, foldlM_cons, acted]
    exact ran
  by_cases free : ∀ inverter ∈ state.inverters, inverter.commitInfo = none
  · by_cases merged : state.outstandingMerges = 0
    · exact ⟨[], state, by simp, rfl, rfl, books.settled free merged⟩
    have ended := frame_finishMergeTail state fun _ => true
    simp only [frame, Prod.mk.injEq] at ended
    have acted : state.act (.finishMergeTail none fun _ => true) =
        some (state.finishMergeTail none fun _ => true) := by
      simp [State.act, books.running, Nat.pos_of_ne_zero merged]
    refine step acted (fun _ => rfl) ended.2.2 ?_
    rw [work, work, ended.1, ended.2.1]
    omega
  push Not at free
  obtain ⟨inverter, mem, mine⟩ := free
  have before := work_erase mem
  rw [ahead, if_neg mine] at before
  cases place : inverter.place with
  | idle => exact absurd ((books.works inverter mem).2 place) mine
  | busy =>
    have acted : state.act (.releaseInverter inverter false true) =
        some (state.move inverter { inverter with place := .flushing, queued := true }) := by
      simp [State.act, State.releaseInverter, books.running, mem, place, mine]
    refine step acted (fun _ => rfl) rfl ?_
    rw [place, if_pos rfl] at before
    rw [before, work, State.move, map_cons, sum_cons, ahead, if_neg mine, if_neg nofun]
    dsimp only
    omega
  | flushing =>
    have queued := (books.works inverter mem).1 place
    have flushed := frame_segmentFlushed state inverter fun _ => true
    simp only [frame, Prod.mk.injEq] at flushed
    have acted : state.act (.segmentFlushed inverter true none fun _ => true) =
        some (state.segmentFlushed inverter true none fun _ => true) := by
      simp [State.act, books.running, mem, place, queued]
    refine step acted ⟨nofun, fun _ => rfl⟩ flushed.2.2 ?_
    rw [place, if_neg nofun] at before
    rw [before, work, flushed.1, flushed.2.1]
    omega

/-- Commits are accounted for in every run in which the nodes take what they are given, and in the
end all of them are handed over. -/
theorem commits_accounted (events : List Event) (state : State)
    (taken : ∀ event ∈ events, Event.Taken event)
    (ran : initial.run events = some state) : Accounted state ∧ Completes state := by
  have books : Books (fun _ => 0) state :=
    Lib.Runs.invariant (fun books taken acted => Books.act books taken acted) initial_books taken ran
  exact ⟨books.accounted, books.completes⟩

/-- A commit waits for a busy inverter, and for a merge that starts while it waits. -/
def waitedMerge : List Event :=
  let inverter : Inverter := ⟨1, 1, .busy, some 0, false⟩
  let always : Nat → Bool := fun _ => true
  [.obtainInverter none 1, .initiateCommit ⟨2, false, true⟩ true (fun _ => true) true,
    .releaseInverter inverter false true,
    .segmentFlushed { inverter with place := .flushing, queued := true } true (some .accepted)
      always,
    .finishMergeTail none always]

theorem commits_accounted_waiting : ∃ state, initial.run waitedMerge = some state ∧
    handed state = [0] ∧ Accounted state ∧ Completes state := by
  refine ⟨_, rfl, by decide, commits_accounted waitedMerge _ ?_ rfl⟩
  simp [waitedMerge, Event.Taken]

/-- The flush node takes the first idle inverter of a commit and refuses the second one. -/
def refusedFlush : List Event :=
  let first : Inverter := ⟨1, 1, .busy, none, false⟩
  let second : Inverter := ⟨2, 2, .busy, none, false⟩
  let third : Inverter := ⟨3, 4, .busy, some 1, false⟩
  let always : Nat → Bool := fun _ => true
  [.obtainInverter none 1, .obtainInverter none 2,
    .releaseInverter first false true, .releaseInverter second false true,
    .initiateCommit ⟨3, false, false⟩ true (fun inverter => inverter.segId = 2) true,
    .segmentFlushed { second with place := .flushing, commitInfo := some 0, queued := true }
      true none always,
    .startIdleFlush { first with place := .idle, commitInfo := some 0 } true,
    .segmentFlushed { first with place := .flushing, commitInfo := some 0, queued := true }
      true none always,
    .obtainInverter none 4,
    .initiateCommit ⟨5, false, false⟩ true (fun _ => true) true,
    .releaseInverter third false true,
    .segmentFlushed { third with place := .flushing, queued := true } true none always]

/-- The commit that was refused goes to the sequencer, under a number that is not its own, and the
commit that has this number is not taken. -/
theorem commits_unaccounted : ∃ state, initial.run refusedFlush = some state ∧
    state.admitted = [1] ∧ (state.commits 1).leftToFlush = 0 ∧
    handed state = [0] ∧ ¬ Accounted state := by
  refine ⟨_, rfl, by decide, by decide, by decide, ?_⟩
  intro accounted
  have had := (accounted.handedOver 1).mpr (by decide)
  revert had
  decide

end Luxir.Index.CommitAccounting
