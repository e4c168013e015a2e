import Mathlib.Data.List.Basic

/-!
The segments of the index writer: flushes register them, commits and delete passes apply deletes to
them, merges replace them, commits publish them and sweeps retire what nothing holds any more. One
application of deletes and one merge run at a time, and an application holds pins on the segments it
captured. Within one opening of an index a file name is determined by the segment and the
generation, so the epochs in the names are left out.
-/

namespace Luxir.Index.SegmentWriter

inductive File where
  | data (segId part : Nat)
  | live (segId gen : Nat)
  | overlay (segId gen : Nat)
  | schema (version : Nat)
  | manifest (gen : Nat)
deriving DecidableEq, Repr

/-- A batch of deletes that one inverter collected, by the largest version in it. -/
structure SortedDeletes where
  id : Nat
  largestVersion : Nat
deriving DecidableEq, Repr

/-- A segment as a manifest describes it. `births` has the versions of its documents, and `applied`
the largest versions of the deletes that its live documents reflect. -/
structure SegmentInfo where
  segId : Nat
  maxVersion : Nat
  births : List Nat
  applied : List Nat
  liveDocs : Nat
  liveGen : Nat
  files : List File
  overlays : List Nat
  nextOverlayGen : Nat
deriving DecidableEq, Repr

structure SegInfo extends SegmentInfo where
  condemned : Bool
  publishedLiveGen : Nat
  mergedLiveGen : Option Nat
  mergeDiffLiveGen : Option Nat
  obsoleteLiveGens : List Nat
  preparationPins : Nat
  merging : Bool
  mergedIntoSegId : Nat
  personalDeletes : List SortedDeletes
deriving DecidableEq, Repr

def SegmentInfo.opened (info : SegmentInfo) : SegInfo :=
  { info with
    condemned := false
    publishedLiveGen := info.liveGen
    mergedLiveGen := none
    mergeDiffLiveGen := none
    obsoleteLiveGens := []
    preparationPins := 0
    merging := false
    mergedIntoSegId := 0
    personalDeletes := [] }

def SegmentInfo.overlayFiles (info : SegmentInfo) : List File :=
  info.overlays.map (File.overlay info.segId)

/-- A commit as its manifest records it. `prepared` has the versions of the deletes that were
retired before it or selected for it. -/
structure Snapshot where
  indexGen : Nat
  updateVersion : Nat
  lastSegId : Nat
  schema : Nat
  segments : List SegmentInfo
  prepared : List Nat
deriving DecidableEq, Repr

def filesOf (snapshot : Snapshot) : List File :=
  snapshot.segments.flatMap (fun info => info.files ++ info.overlayFiles) ++
    [.schema snapshot.schema]

inductive Phase where
  | applying
  | reconciled
  /-- The commit is published, and the publication mutex is still held. -/
  | published
  | retired
  | moved
deriving DecidableEq, Repr

/-- A commit or a delete pass between its capture and its end. -/
structure DeleteApplication where
  commits : Bool
  segs : List Nat
  selected : List SortedDeletes
  pending : List SortedDeletes
  retireThrough : Nat
  highestUpdateVersion : Nat
  phase : Phase
deriving DecidableEq, Repr

/-- A segment that is being merged, with the generation that the merge covers and the one it has
pinned to be loaded. -/
structure MergeSource where
  segId : Nat
  coveredGen : Nat
  currentGen : Nat
deriving DecidableEq, Repr

structure Merge where
  sources : List MergeSource
  outputSegId : Nat
deriving DecidableEq, Repr

/-- `durable` lists the commits whose publication reached the disk, newest first, and `retired` the
versions of the deletes that have left the pending ones. `handed` collects what the sweeps have
taken to be handed to retirement. -/
structure State where
  segments : List SegInfo
  inverting : List Nat
  lastSegId : Nat
  updateNumber : Nat
  durableUpdateVersion : Nat
  preparedDeleteVersion : Nat
  pendingDeletes : List SortedDeletes
  retired : List Nat
  lastSnapshot : Snapshot
  durable : List Snapshot
  manifestNames : List Nat
  nextManifestGen : Nat
  nextSchemaVersion : Nat
  pendingRetirement : List File
  handed : List File
  application : Option DeleteApplication
  merge : Option Merge
  failed : Bool
deriving DecidableEq, Repr

def getLargestVersion (packets : List SortedDeletes) : Nat :=
  packets.foldl (fun largest packet => max largest packet.largestVersion) 0

namespace State

def find (state : State) (segId : Nat) : Option SegInfo :=
  state.segments.find? fun seg => seg.segId = segId

def registered (state : State) : List SegInfo := state.segments.filter fun seg => !seg.condemned

def modify (state : State) (which : SegInfo → Bool) (change : SegInfo → SegInfo) : State :=
  { state with segments := state.segments.map fun seg => if which seg then change seg else seg }

/-- What happens to a publication: it succeeds, its manifest cannot be written, or the writer fails
once the STATE record was to be advanced, and the commit may be durable all the same. -/
inductive Outcome where
  | published
  | unwritten
  | failed (durable : Bool)
deriving DecidableEq, Repr

/-- The data and live files of segments that the writer still owns are retained: their retirement is
that of the segment. -/
def obsoleteFiles (state : State) (snapshot : Snapshot) : List File :=
  let owned := state.segments.map fun seg => seg.segId
  let retained :=
    (state.lastSnapshot.segments.filter fun info => info.segId ∈ owned).flatMap SegmentInfo.files
  (filesOf state.lastSnapshot).filter fun file =>
    !retained.contains file && !(filesOf snapshot).contains file

def publishSegment (infos : List SegmentInfo) (seg : SegInfo) : SegInfo :=
  match infos.find? fun info => info.segId = seg.segId with
  | some info => { seg with publishedLiveGen := info.liveGen }
  | none => seg

def publish (state : State) (infos : List SegmentInfo) (updateVersion schema : Nat)
    (prepared : List Nat) (outcome : Outcome) : State :=
  let gen := state.nextManifestGen + 1
  let snapshot : Snapshot := ⟨gen, updateVersion, state.lastSegId, schema, infos, prepared⟩
  match outcome with
  | .unwritten =>
    { state with
      nextManifestGen := gen
      manifestNames := state.manifestNames ++ [gen] }
  | .failed durable =>
    { state with
      nextManifestGen := gen
      manifestNames := state.manifestNames ++ [gen]
      durable := if durable then snapshot :: state.durable else state.durable
      failed := true }
  | .published =>
    { state with
      nextManifestGen := gen
      manifestNames := [gen]
      segments := state.segments.map (publishSegment infos)
      lastSnapshot := snapshot
      durable := snapshot :: state.durable
      durableUpdateVersion := updateVersion
      pendingRetirement := state.pendingRetirement ++ obsoleteFiles state snapshot ++
        state.manifestNames.map File.manifest }

def unlocked (state : State) : Bool :=
  match state.application with
  | some app => app.phase ≠ .published
  | none => true

def updateSchema (state : State) (outcome : Outcome) : Option State :=
  if state.failed || !state.unlocked then none
  else
    let schema := state.nextSchemaVersion + 1
    some ({ state with nextSchemaVersion := schema }.publish state.lastSnapshot.segments
      state.lastSnapshot.updateVersion schema state.lastSnapshot.prepared outcome)

def pinSnapshot (state : State) (app : DeleteApplication) : State :=
  { state.modify (fun seg => !seg.condemned)
      (fun seg => { seg with preparationPins := seg.preparationPins + 1 }) with
    application := some app }

/-- A commit takes all pending batches and all carried ones. -/
def beginCommit (state : State) (updateVersion : Nat) (publishOnly : Bool) : Option State :=
  if state.failed || state.application.isSome || decide (state.updateNumber < updateVersion) then
    none
  else some (state.pinSnapshot
    { commits := true
      segs := state.registered.map fun seg => seg.segId
      selected := state.pendingDeletes ++ state.registered.flatMap SegInfo.personalDeletes
      pending := state.pendingDeletes
      retireThrough := if publishOnly then 0 else updateVersion
      highestUpdateVersion := max (max state.durableUpdateVersion state.preparedDeleteVersion)
        (max updateVersion (getLargestVersion state.pendingDeletes))
      phase := .applying })

/-- A delete pass takes the batches up to its frontier that no commit has claimed. -/
def beginDeletePass (state : State) (frontier : Nat) (unclaimed : SortedDeletes → Bool) :
    Option State :=
  let mayRetire := fun packet : SortedDeletes =>
    decide (packet.largestVersion ≤ frontier) && unclaimed packet
  let pending := state.pendingDeletes.filter mayRetire
  let carried := (state.registered.flatMap SegInfo.personalDeletes).filter mayRetire
  if state.failed || state.application.isSome || (pending ++ carried).isEmpty then none
  else some (state.pinSnapshot
    { commits := false
      segs := state.registered.map fun seg => seg.segId
      selected := pending ++ carried
      pending := pending
      retireThrough := frontier
      highestUpdateVersion := 0
      phase := .applying })

/-- The deletes found documents in a segment: its live documents get a new generation. -/
def deleteFrom (app : DeleteApplication) (deleted : Nat) (seg : SegInfo) : SegInfo :=
  { seg with
    liveDocs := seg.liveDocs - deleted
    liveGen := seg.liveGen + 1
    applied := seg.applied ++ (app.pending ++ seg.personalDeletes.filter fun packet =>
      app.selected.contains packet).map SortedDeletes.largestVersion
    files := (seg.files.filter fun file => file ≠ .live seg.segId seg.liveGen) ++
      [.live seg.segId (seg.liveGen + 1)]
    obsoleteLiveGens := if 0 < seg.liveGen then seg.obsoleteLiveGens ++ [seg.liveGen]
      else seg.obsoleteLiveGens }

def applyDeletes (state : State) (segId deleted : Nat) : Option State :=
  match state.application with
  | some app =>
    if app.phase = .applying ∧ segId ∈ app.segs ∧ 0 < deleted then
      some (state.modify (fun seg => seg.segId = segId) (deleteFrom app deleted))
    else none
  | none => none

def outrun (seg : SegInfo) : Bool :=
  !seg.merging && match seg.mergedLiveGen with
    | some gen => gen ≠ seg.liveGen
    | none => false

/-- The packets go on to the merge's output, if that is registered. -/
def reconcileOne (app : DeleteApplication) (state : State) (segId : Nat) : State :=
  match state.find segId with
  | none => state
  | some seg =>
    let packets := (seg.personalDeletes.filter fun packet => app.selected.contains packet) ++
      app.pending.filter fun packet => packet.largestVersion ≤ app.retireThrough
    let carried :=
      if outrun seg then
        state.modify (fun target => target.segId = seg.mergedIntoSegId && !target.condemned)
          fun target => { target with personalDeletes := target.personalDeletes ++ packets }
      else state
    carried.modify (fun owner => owner.segId = segId) fun owner => { owner with
      personalDeletes := owner.personalDeletes.filter fun packet =>
        !app.selected.contains packet }

def reconcileDeletes (state : State) : Option State :=
  match state.application with
  | some app =>
    if app.phase = .applying then
      some { app.segs.foldl (reconcileOne app) state with
        application := some { app with phase := .reconciled } }
    else none
  | none => none

/-- An overlay that could not be built uses up its generation. -/
def buildOverlay (state : State) (segId : Nat) (built : Bool) : Option State :=
  match state.application with
  | some app =>
    if app.commits ∧ app.phase = .reconciled ∧ segId ∈ app.segs then
      some (state.modify (fun seg => seg.segId = segId && decide (0 < seg.liveDocs)) fun seg =>
        { seg with
          overlays := if built then seg.overlays ++ [seg.nextOverlayGen] else seg.overlays
          nextOverlayGen := seg.nextOverlayGen + 1 })
    else none
  | none => none

def segsToKeep (state : State) (app : DeleteApplication) : List SegInfo :=
  state.segments.filter fun seg => decide (seg.segId ∈ app.segs) && decide (0 < seg.liveDocs)

def publishCommit (state : State) (outcome : Outcome) : Option State :=
  match state.application with
  | some app =>
    if !state.failed ∧ app.commits ∧ app.phase = .reconciled then
      let kept := state.segsToKeep app
      let version := kept.foldl (fun highest seg => max highest seg.maxVersion)
        app.highestUpdateVersion
      let next := state.publish (kept.map SegInfo.toSegmentInfo) version state.lastSnapshot.schema
        (state.retired ++ app.selected.map SortedDeletes.largestVersion) outcome
      some { next with
        application := if outcome = .published then some { app with phase := .published }
          else next.application }
    else none
  | none => none

def retires (app : DeleteApplication) (packet : SortedDeletes) : Bool :=
  app.pending.contains packet && decide (packet.largestVersion ≤ app.retireThrough)

/-- A commit retires its batches once it is published, and a pass as soon as they are applied. -/
def retiresFrom (app : DeleteApplication) : Phase :=
  if app.commits then .published else .reconciled

def retirePending (state : State) : Option State :=
  match state.application with
  | some app =>
    if app.phase = retiresFrom app then
      let leaving := state.pendingDeletes.filter (retires app)
      some { state with
        pendingDeletes := state.pendingDeletes.filter fun packet => !retires app packet
        preparedDeleteVersion := max state.preparedDeleteVersion (getLargestVersion leaving)
        retired := state.retired ++ leaving.map SortedDeletes.largestVersion
        application := some { app with phase := .retired } }
    else none
  | none => none

/-- The segments without documents are condemned; a pass leaves those that are being merged. -/
def moveEmptied (state : State) : Option State :=
  match state.application with
  | some app =>
    if app.phase = .retired then
      some { state.modify (fun seg => decide (seg.segId ∈ app.segs) && decide (seg.liveDocs = 0) &&
          (app.commits || !seg.merging)) (fun seg => { seg with condemned := true }) with
        application := some { app with phase := .moved } }
    else none
  | none => none

/-- The end of an application, or an exception anywhere in it. -/
def unpin (state : State) : Option State :=
  match state.application with
  | some app =>
    some { state.modify (fun seg => seg.segId ∈ app.segs) (fun seg =>
        { seg with preparationPins := seg.preparationPins - 1 }) with
      application := none }
  | none => none

/-- The generations that stay: the current one, the published one and those a merge holds. -/
def keepsGen (seg : SegInfo) (gen : Nat) : Bool :=
  gen = seg.liveGen || gen = seg.publishedLiveGen ||
    (seg.mergedLiveGen = some gen && decide (0 < gen)) ||
    (seg.mergeDiffLiveGen = some gen && decide (0 < gen))

def obsoleteLiveDocs (seg : SegInfo) : List File :=
  (seg.obsoleteLiveGens.filter fun gen => !keepsGen seg gen).map (File.live seg.segId)

def collectObsoleteLiveDocs (seg : SegInfo) : SegInfo :=
  { seg with obsoleteLiveGens := seg.obsoleteLiveGens.filter (keepsGen seg) }

def deletable (state : State) (seg : SegInfo) : Bool :=
  seg.condemned && !seg.merging && seg.preparationPins = 0 &&
    !(state.lastSnapshot.segments.map SegmentInfo.segId).contains seg.segId

def retireSegment (seg : SegInfo) : List File :=
  seg.files ++ seg.overlayFiles ++ seg.obsoleteLiveGens.map (File.live seg.segId)

def tryDeleteSegments (state : State) : Option State :=
  if state.unlocked then
    let taken := state.segments.filter state.deletable
    let rest := state.segments.filter fun seg => !state.deletable seg
    some { state with
      segments := rest.map collectObsoleteLiveDocs
      pendingRetirement := []
      handed := state.handed ++ (state.pendingRetirement ++ rest.flatMap obsoleteLiveDocs ++
        taken.flatMap retireSegment) }
  else none

end State

end Luxir.Index.SegmentWriter
