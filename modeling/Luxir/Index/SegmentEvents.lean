import Luxir.Index.SegmentWriter

/-!
Flushes, merges and reopening, and the runs of the writer. Every event is one section under the
index mutex, so the steps of a commit, a delete pass, a merge and the updates interleave freely; an
exception may end an application or a merge between any two of its steps, and the process may end
anywhere.
-/

namespace Luxir.Index.SegmentWriter

/-- What an inverter was when it was flushed. `versions` are those of the updates it took. -/
structure Flush where
  versions : List Nat
  births : List Nat
  applied : List Nat
  liveDocs : Nat
  liveGen : Nat
  parts : Nat
  deletes : Option SortedDeletes
deriving DecidableEq, Repr

def Flush.sound (flush : Flush) (updateNumber : Nat) : Bool :=
  flush.versions.all (fun version => decide (version ≤ updateNumber)) &&
    flush.births.all flush.versions.contains && flush.applied.all flush.versions.contains &&
    match flush.deletes with
    | some packet => flush.versions.contains packet.largestVersion
    | none => true

def maxVersionOf (versions : List Nat) : Nat := versions.foldl max 0

/-- The files of a segment with its live documents, if it has any generation of them. -/
def segmentFiles (segId liveGen parts : Nat) : List File :=
  (List.range parts).map (File.data segId) ++ if 0 < liveGen then [.live segId liveGen] else []

def Flush.segment (flush : Flush) (segId : Nat) : SegInfo :=
  { segId := segId
    maxVersion := maxVersionOf flush.versions
    births := flush.births
    applied := flush.applied
    liveDocs := flush.liveDocs
    liveGen := flush.liveGen
    files := segmentFiles segId flush.liveGen flush.parts
    overlays := []
    nextOverlayGen := 0
    condemned := flush.liveDocs = 0
    publishedLiveGen := 0
    mergedLiveGen := none
    mergeDiffLiveGen := none
    obsoleteLiveGens := []
    preparationPins := 0
    merging := false
    mergedIntoSegId := 0
    personalDeletes := [] }

structure Output where
  births : List Nat
  liveDocs : Nat
  liveGen : Nat
  parts : Nat
  overlays : Nat
deriving DecidableEq, Repr

namespace State

def obtainInverter (state : State) : State :=
  { state with
    lastSegId := state.lastSegId + 1
    inverting := (state.lastSegId + 1) :: state.inverting }

/-- A segment without live documents is condemned at once, and its deletes are registered all the
same. -/
def flush (state : State) (segId : Nat) (flushed : Flush) : Option State :=
  if segId ∈ state.inverting ∧ flushed.sound state.updateNumber then
    some { state with
      inverting := state.inverting.erase segId
      segments := state.segments ++ [flushed.segment segId]
      pendingDeletes := state.pendingDeletes ++ flushed.deletes.toList }
  else none

def abortFlush (state : State) (segId : Nat) : Option State :=
  if segId ∈ state.inverting then some { state with inverting := state.inverting.erase segId }
  else none

def startMerge (state : State) (chosen : List Nat) : Option State :=
  let sources := state.registered.filter fun seg => decide (seg.segId ∈ chosen)
  if state.merge.isSome || sources.any (fun seg => seg.liveDocs = 0) then none
  else
    some { state.modify (fun seg => !seg.condemned && decide (seg.segId ∈ chosen)) (fun seg =>
        { seg with merging := true, mergedLiveGen := some seg.liveGen }) with
      lastSegId := state.lastSegId + 1
      merge := some
        { sources := sources.map fun seg => ⟨seg.segId, seg.liveGen, seg.liveGen⟩
          outputSegId := state.lastSegId + 1 } }

def merges (merge : Merge) (segId : Nat) : Bool :=
  (merge.sources.map MergeSource.segId).contains segId

def genOf (state : State) (source : MergeSource) : Nat :=
  match state.find source.segId with
  | some seg => seg.liveGen
  | none => source.currentGen

/-- Pins the current generations of the sources until they are loaded. -/
def pinDiff (state : State) : Option State :=
  match state.merge with
  | some merge =>
    some { state.modify (fun seg => merges merge seg.segId) (fun seg =>
        { seg with mergeDiffLiveGen := some seg.liveGen }) with
      merge := some { merge with
        sources := merge.sources.map fun source =>
          { source with currentGen := state.genOf source } } }
  | none => none

/-- The differences to the pinned generations have been carried to the output. -/
def coverDiff (state : State) : Option State :=
  match state.merge with
  | some merge =>
    some { state with
      merge := some { merge with
        sources := merge.sources.map fun source =>
          { source with coveredGen := source.currentGen } } }
  | none => none

def mergedSources (state : State) (merge : Merge) : List SegInfo :=
  state.segments.filter fun seg => merges merge seg.segId

def coveredOf (merge : Merge) (segId : Nat) : Option Nat :=
  (merge.sources.find? fun source => source.segId = segId).map MergeSource.coveredGen

def outputSegment (output : Output) (merge : Merge) (sources : List SegInfo) : SegInfo :=
  { segId := merge.outputSegId
    maxVersion := sources.foldl (fun highest seg => max highest seg.maxVersion) 0
    births := output.births
    applied := sources.flatMap fun seg => seg.applied
    liveDocs := output.liveDocs
    liveGen := output.liveGen
    files := segmentFiles merge.outputSegId output.liveGen output.parts
    overlays := List.range output.overlays
    nextOverlayGen := output.overlays
    condemned := false
    publishedLiveGen := 0
    mergedLiveGen := none
    mergeDiffLiveGen := none
    obsoleteLiveGens := []
    preparationPins := 0
    merging := false
    mergedIntoSegId := 0
    personalDeletes := sources.flatMap SegInfo.personalDeletes }

/-- The swap at a segment: a source is condemned, and what was merged into a source before points to
the output now. -/
def swapOut (merge : Merge) (seg : SegInfo) : SegInfo :=
  if merges merge seg.segId then
    { seg with
      condemned := true
      mergedLiveGen := coveredOf merge seg.segId
      mergeDiffLiveGen := none
      merging := false
      mergedIntoSegId := merge.outputSegId }
  else if seg.condemned && merges merge seg.mergedIntoSegId then
    { seg with mergedIntoSegId := merge.outputSegId }
  else seg

/-- The merge covers the current generations of all its sources. The output is registered if it has
documents. -/
def swap (state : State) (output : Output) : Option State :=
  match state.merge with
  | some merge =>
    let sources := state.mergedSources merge
    if sources.all (fun seg => coveredOf merge seg.segId = some seg.liveGen) ∧
        output.births.all (fun birth => sources.any fun seg => seg.births.contains birth) then
      some { state with
        segments := state.segments.map (swapOut merge) ++
          if 0 < output.liveDocs then [outputSegment output merge sources] else []
        merge := none }
    else none
  | none => none

/-- A merge that failed before its swap gives its sources back. A source that is condemned and still
has documents would be registered again. -/
def failMerge (state : State) : Option State :=
  match state.merge with
  | some merge =>
    some { state.modify (fun seg => merges merge seg.segId) (fun seg =>
        { seg with
          merging := false
          mergedLiveGen := none
          mergeDiffLiveGen := none
          mergedIntoSegId := 0
          condemned := seg.condemned && decide (seg.liveDocs = 0) }) with
      merge := none }
  | none => none

def opened (snapshot : Snapshot) (durable : List Snapshot) (manifestNames : List Nat)
    (highestGeneration : Nat) : State where
  segments := snapshot.segments.map SegmentInfo.opened
  inverting := []
  lastSegId := snapshot.segments.foldl (fun last info => max last info.segId) snapshot.lastSegId
  updateNumber := snapshot.updateVersion
  durableUpdateVersion := snapshot.updateVersion
  preparedDeleteVersion := 0
  pendingDeletes := []
  retired := []
  lastSnapshot := snapshot
  durable := durable
  manifestNames := manifestNames
  nextManifestGen := highestGeneration
  nextSchemaVersion := snapshot.schema
  pendingRetirement := []
  handed := []
  application := none
  merge := none
  failed := false

/-- Opening after a crash or a close. The manifests that are found include the newest commit's. -/
def reopen (state : State) (manifestNames : List Nat) (highestGeneration : Nat) : Option State :=
  match state.durable with
  | snapshot :: _ =>
    if snapshot.indexGen ≤ highestGeneration ∧
        manifestNames.all (fun gen => decide (gen ≤ highestGeneration)) then
      some (opened snapshot state.durable manifestNames highestGeneration)
    else none
  | [] => none

def initial : State :=
  let snapshot : Snapshot := ⟨1, 0, 0, 1, [], []⟩
  opened snapshot [snapshot] [1] 1

end State

inductive Event where
  /-- An update is given the next version. -/
  | startUpdate
  | obtainInverter
  | flush (segId : Nat) (flushed : Flush)
  | abortFlush (segId : Nat)
  | beginCommit (updateVersion : Nat) (publishOnly : Bool)
  | beginDeletePass (frontier : Nat) (unclaimed : SortedDeletes → Bool)
  | applyDeletes (segId deleted : Nat)
  | reconcileDeletes
  | buildOverlay (segId : Nat) (built : Bool)
  | publishCommit (outcome : State.Outcome)
  | retirePending
  | moveEmptied
  | unpin
  | updateSchema (outcome : State.Outcome)
  | tryDeleteSegments
  | startMerge (chosen : List Nat)
  | pinDiff
  | coverDiff
  | swap (output : Output)
  | failMerge
  | reopen (manifestNames : List Nat) (highestGeneration : Nat)

namespace State

def act (state : State) : Event → Option State
  | .startUpdate => if state.failed then none
    else some { state with updateNumber := state.updateNumber + 1 }
  | .obtainInverter => some state.obtainInverter
  | .flush segId flushed => state.flush segId flushed
  | .abortFlush segId => state.abortFlush segId
  | .beginCommit updateVersion publishOnly => state.beginCommit updateVersion publishOnly
  | .beginDeletePass frontier unclaimed => state.beginDeletePass frontier unclaimed
  | .applyDeletes segId deleted => state.applyDeletes segId deleted
  | .reconcileDeletes => state.reconcileDeletes
  | .buildOverlay segId built => state.buildOverlay segId built
  | .publishCommit outcome => state.publishCommit outcome
  | .retirePending => state.retirePending
  | .moveEmptied => state.moveEmptied
  | .unpin => state.unpin
  | .updateSchema outcome => state.updateSchema outcome
  | .tryDeleteSegments => state.tryDeleteSegments
  | .startMerge chosen => state.startMerge chosen
  | .pinDiff => state.pinDiff
  | .coverDiff => state.coverDiff
  | .swap output => state.swap output
  | .failMerge => state.failMerge
  | .reopen manifestNames highestGeneration => state.reopen manifestNames highestGeneration

def run (state : State) (events : List Event) : Option State := events.foldlM act state

end State

end Luxir.Index.SegmentWriter
