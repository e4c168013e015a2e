import Mathlib.Logic.Function.Basic

/-!
The admission of commits by the index writer. A commit adopts the inverters that hold updates up to
its version and counts those that still have to be flushed; a commit that waits for merges counts
the merges under way as well. Whatever brings the count to zero hands the commit to the sequencer.
Every event holds the index mutex from its start to its end, so a run is a list of events. What the
nodes of the flow graph answer to a put is part of the event.
-/

namespace Luxir.Index.CommitAdmission

/-- The map of the writer that owns an inverter. -/
inductive Place where
  | idle
  | busy
  | flushing
deriving DecidableEq, Repr

structure Inverter where
  segId : Nat
  minVersion : Nat
  place : Place
  /-- The commit that adopted the inverter. -/
  commitInfo : Option Nat
  /-- The flush node has taken the inverter. -/
  queued : Bool
deriving DecidableEq, Repr

structure Request where
  updateVersion : Nat
  publishOnly : Bool
  waitForMerges : Bool
deriving DecidableEq, Repr

structure Commit extends Request where
  leftToFlush : Nat
  commitNum : Nat
deriving DecidableEq, Repr

structure Handed where
  commit : Nat
  commitNum : Nat
  leftToFlush : Nat
deriving DecidableEq, Repr

inductive Put where
  | accepted
  | refused
  | threw
deriving DecidableEq, Repr

/-- Commits are named by the order in which they were initiated. `admitted` lists those whose
initiation returned, oldest first. -/
structure State where
  inverters : List Inverter
  lastSegId : Nat
  commits : Nat → Commit
  initiated : Nat
  waitingForMerges : List Nat
  outstandingMerges : Nat
  commitNumber : Nat
  admitted : List Nat
  sequencer : List Handed
  /-- An exception left the body of a node, which cancels the graph. -/
  halted : Bool

def setLeft (commits : Nat → Commit) (commit left : Nat) : Nat → Commit :=
  Function.update commits commit { commits commit with leftToFlush := left }

namespace State

def initial : State := ⟨[], 0, fun _ => ⟨⟨0, false, false⟩, 0, 0⟩, 0, [], 0, 0, [], [], false⟩

/-- The second component is false where the function throws. The sequencer refuses a number that
it has had before. -/
def releaseToCommitSequencer (state : State) (commit : Nat) (accepts : Bool) : State × Bool :=
  let message := state.commits commit
  if accepts && !(state.sequencer.map Handed.commitNum).contains message.commitNum then
    ({ state with
        sequencer := state.sequencer ++ [⟨commit, message.commitNum, message.leftToFlush⟩]
        waitingForMerges :=
          if message.waitForMerges then state.waitingForMerges.erase commit
          else state.waitingForMerges }, true)
  else (state, false)

def releaseAll (sequencer : Nat → Bool) : List Nat → State → State × Bool
  | [], state => (state, true)
  | commit :: rest, state =>
    let released := state.releaseToCommitSequencer commit (sequencer commit)
    if released.2 then releaseAll sequencer rest released.1 else released

def addMergeWaiterHolds (state : State) : State :=
  { state with
    commits := state.waitingForMerges.foldl
      (fun commits commit => setLeft commits commit ((commits commit).leftToFlush + 1))
      state.commits }

/-- Takes one hold of a waiting commit, and notes the commit if that was the last one. -/
def dropHold (found : (Nat → Commit) × List Nat) (commit : Nat) : (Nat → Commit) × List Nat :=
  let left := (found.1 commit).leftToFlush - 1
  (setLeft found.1 commit left, if left = 0 then found.2 ++ [commit] else found.2)

def releaseMergeWaiterHolds (state : State) (sequencer : Nat → Bool) : State × Bool :=
  let found := state.waitingForMerges.foldl dropHold (state.commits, [])
  { state with commits := found.1 }.releaseAll sequencer found.2

/-- A submission that the merge node does not take is rolled back. -/
def submitMerge (state : State) (put : Put) (sequencer : Nat → Bool) : State × Put :=
  let held := { state with outstandingMerges := state.outstandingMerges + 1 }.addMergeWaiterHolds
  if put = .accepted then (held, .accepted)
  else
    let released := { held with
      outstandingMerges := held.outstandingMerges - 1 }.releaseMergeWaiterHolds sequencer
    (released.1, if released.2 then put else .threw)

/-- The merge policy. `merge` is what the merge node would answer, if some level is full and no
forced merge is pending. -/
def maybeMergeSegments (state : State) (merge : Option Put) (sequencer : Nat → Bool) :
    State × Put :=
  match merge with
  | none => (state, .refused)
  | some put =>
    if 0 < state.outstandingMerges then (state, .refused) else state.submitMerge put sequencer

def move (state : State) (before after : Inverter) : State :=
  { state with inverters := after :: state.inverters.erase before }

def finishFlush (state : State) (commit : Nat) (sequencer : Nat → Bool) : State :=
  let left := (state.commits commit).leftToFlush - 1
  let counted := { state with commits := setLeft state.commits commit left }
  if left = 0 then
    let released := counted.releaseToCommitSequencer commit (sequencer commit)
    if released.2 then released.1 else { released.1 with halted := true }
  else counted

/-- The part of `segmentFlushBody` under the mutex. A flush that failed, or that left no live
document, registers no segment and does not ask the merge policy. -/
def segmentFlushed (state : State) (inverter : Inverter) (success : Bool) (merge : Option Put)
    (sequencer : Nat → Bool) : State :=
  let erased := { state with inverters := state.inverters.erase inverter }
  let merged := erased.maybeMergeSegments (if success then merge else none) sequencer
  if merged.2 = .threw then { merged.1 with halted := true }
  else
    match inverter.commitInfo with
    | none => merged.1
    | some commit => merged.1.finishFlush commit sequencer

/-- The tail of a merge. What the policy's submission throws is caught here. -/
def finishMergeTail (state : State) (chain : Option Put) (sequencer : Nat → Bool) : State :=
  let ended := { state with outstandingMerges := state.outstandingMerges - 1 }
  let chained := (ended.maybeMergeSegments chain sequencer).1
  let released := chained.releaseMergeWaiterHolds sequencer
  if released.2 then released.1 else { released.1 with halted := true }

end State

/-- An inverter in this map that no commit has and that holds an update up to the version. -/
def adopts (place : Place) (version : Nat) (inverter : Inverter) : Bool :=
  inverter.place = place && inverter.commitInfo = none && decide (inverter.minVersion ≤ version)

def adoptIn (place : Place) (commit version : Nat) (inverters : List Inverter) : List Inverter :=
  inverters.map fun inverter =>
    if adopts place version inverter then { inverter with commitInfo := some commit } else inverter

/-- The loop over the idle inverters: those that hold an update up to the version are adopted, if no
commit has them, and put to the flush node. The number of adopted ones is returned too. The loop
throws at the first inverter that the node refuses, which is idle again. -/
def flushIdle (commit version : Nat) (flushNode : Inverter → Bool) :
    List Inverter → List Inverter × Nat × Bool
  | [] => ([], 0, true)
  | inverter :: rest =>
    if inverter.place = .idle ∧ inverter.minVersion ≤ version then
      let adopted :=
        if inverter.commitInfo = none then { inverter with commitInfo := some commit } else inverter
      let one := if inverter.commitInfo = none then 1 else 0
      if flushNode inverter then
        let others := flushIdle commit version flushNode rest
        ({ adopted with place := .flushing, queued := true } :: others.1, one + others.2.1,
          others.2.2)
      else (adopted :: rest, one, false)
    else
      let others := flushIdle commit version flushNode rest
      (inverter :: others.1, others.2)

namespace State

def enter (state : State) (request : Request) (left number : Nat) : State :=
  { state with
    commits := Function.update state.commits state.initiated ⟨request, left, number⟩
    initiated := state.initiated + 1 }

def admitCommit (state : State) (commit : Nat) : State :=
  { state with
    commitNumber := state.commitNumber + 1
    admitted := state.admitted ++ [commit] }

/-- `grown` says whether the containers could be grown, before which nothing changes. -/
def initiateCommit (state : State) (request : Request) (grown : Bool)
    (flushNode : Inverter → Bool) (accepts : Bool) : State :=
  let commit := state.initiated
  if !grown then { state with initiated := commit + 1 }
  else if request.publishOnly then
    let released :=
      (state.enter request 0 state.commitNumber).releaseToCommitSequencer commit accepts
    if released.2 then released.1.admitCommit commit else released.1
  else
    let waiting :=
      if request.waitForMerges then state.waitingForMerges ++ [commit] else state.waitingForMerges
    let holds := if request.waitForMerges then state.outstandingMerges else 0
    let flushing := state.inverters.countP (adopts .flushing request.updateVersion)
    let idle := flushIdle commit request.updateVersion flushNode
      (adoptIn .flushing commit request.updateVersion state.inverters)
    if idle.2.2 then
      let busy := idle.1.countP (adopts .busy request.updateVersion)
      let left := holds + flushing + idle.2.1 + busy
      let numbered :=
        { state.enter request left state.commitNumber with
          inverters := adoptIn .busy commit request.updateVersion idle.1
          waitingForMerges := waiting }
      if left = 0 then
        let released := numbered.releaseToCommitSequencer commit accepts
        if released.2 then released.1.admitCommit commit
        else { released.1 with waitingForMerges :=
            if request.waitForMerges then released.1.waitingForMerges.erase commit
            else released.1.waitingForMerges }
      else numbered.admitCommit commit
    else
      -- the flush node refused an inverter: nothing of what was adopted is given back
      { state.enter request (holds + flushing + idle.2.1) 0 with
        inverters := idle.1
        waitingForMerges := waiting }

end State

inductive Event where
  /-- An update takes an idle inverter, or a new one. -/
  | obtainInverter (idle : Option Inverter) (updateVersion : Nat)
  | releaseInverter (inverter : Inverter) (flush accepts : Bool)
  /-- A flush that no commit asks for: pressure, a pinned frontier or a stale schema. -/
  | startIdleFlush (inverter : Inverter) (accepts : Bool)
  | initiateCommit (request : Request) (grown : Bool) (flushNode : Inverter → Bool) (accepts : Bool)
  | segmentFlushed (inverter : Inverter) (success : Bool) (merge : Option Put)
      (sequencer : Nat → Bool)
  /-- A forced merge, or the policy's merge after one. -/
  | submitMerge (put : Put) (sequencer : Nat → Bool)
  | finishMergeTail (chain : Option Put) (sequencer : Nat → Bool)

namespace State

def obtainInverter (state : State) (idle : Option Inverter) (updateVersion : Nat) : Option State :=
  match idle with
  | none => some { state with
      inverters := ⟨state.lastSegId + 1, updateVersion, .busy, none, false⟩ :: state.inverters
      lastSegId := state.lastSegId + 1 }
  | some inverter =>
    if inverter ∈ state.inverters ∧ inverter.place = .idle then
      some (state.move inverter { inverter with
        place := .busy
        minVersion := min inverter.minVersion updateVersion })
    else none

/-- A refused inverter stays among the flushing ones, and no task has it. -/
def releaseInverter (state : State) (inverter : Inverter) (flush accepts : Bool) : Option State :=
  if inverter ∈ state.inverters ∧ inverter.place = .busy then
    if inverter.commitInfo ≠ none ∨ flush then
      some (state.move inverter { inverter with place := .flushing, queued := accepts })
    else some (state.move inverter { inverter with place := .idle })
  else none

def startIdleFlush (state : State) (inverter : Inverter) (accepts : Bool) : Option State :=
  if inverter ∈ state.inverters ∧ inverter.place = .idle then
    if accepts then some (state.move inverter { inverter with place := .flushing, queued := true })
    else some state
  else none

def act (state : State) (event : Event) : Option State :=
  if state.halted then none
  else
    match event with
    | .obtainInverter idle updateVersion => state.obtainInverter idle updateVersion
    | .releaseInverter inverter flush accepts => state.releaseInverter inverter flush accepts
    | .startIdleFlush inverter accepts => state.startIdleFlush inverter accepts
    | .initiateCommit request grown flushNode accepts =>
      some (state.initiateCommit request grown flushNode accepts)
    | .segmentFlushed inverter success merge sequencer =>
      if inverter ∈ state.inverters ∧ inverter.place = .flushing ∧ inverter.queued then
        some (state.segmentFlushed inverter success merge sequencer)
      else none
    | .submitMerge put sequencer => some (state.submitMerge put sequencer).1
    | .finishMergeTail chain sequencer =>
      if 0 < state.outstandingMerges then some (state.finishMergeTail chain sequencer) else none

def run (state : State) (events : List Event) : Option State := events.foldlM act state

end State

end Luxir.Index.CommitAdmission
