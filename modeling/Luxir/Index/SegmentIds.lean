import Luxir.Index.SegmentEffects
import Luxir.Lib.Folds
import Luxir.Lib.Runs
import Mathlib.Data.List.Nodup
import Mathlib.Data.List.Perm.Subperm

/-!
The identities of segments. An id belongs to one segment, to one inverter or to the output of the
running merge, and the segments that an application captured are owned by the writer as long as the
application holds its pins.
-/

namespace Luxir.Index.SegmentWriter
open List SegmentInfo

variable {state next : State} {change : SegInfo → SegInfo} {seg : SegInfo} {merge : Merge}

namespace State

def ids (state : State) : List Nat := state.segments.map fun seg => seg.segId

def used (state : State) : List Nat :=
  state.ids ++ (state.inverting ++ (state.merge.map Merge.outputSegId).toList)

def pinsOf (state : State) (segId : Nat) : Nat :=
  match state.application with
  | some app => if segId ∈ app.segs then 1 else 0
  | none => 0

def SameIdentity (before after : SegInfo) : Prop :=
  after.segId = before.segId ∧ after.preparationPins = before.preparationPins

end State

open State

section

def Names (used : List Nat) (last : Nat) : Prop := used.Nodup ∧ ∀ id ∈ used, id ≤ last

variable {used fewer : List Nat} {last : Nat}

theorem Names.subperm (names : Names used last) (sub : fewer.Subperm used) : Names fewer last := by
  obtain ⟨mid, perm, sublist⟩ := sub
  exact ⟨perm.nodup_iff.mp (names.1.sublist sublist),
    fun id mem => names.2 id (sublist.subset (perm.symm.subset mem))⟩

theorem Names.issue (names : Names used last) (perm : fewer.Perm ((last + 1) :: used)) :
    Names fewer (last + 1) := by
  refine ⟨perm.nodup_iff.mpr (nodup_cons.mpr ⟨?_, names.1⟩), ?_⟩
  · exact fun mem => absurd (names.2 _ mem) (Nat.not_succ_le_self _)
  · intro id mem
    rcases mem_cons.mp (perm.subset mem) with rfl | old
    · exact le_rfl
    · exact Nat.le_succ_of_le (names.2 id old)

end

structure Ids (state : State) : Prop where
  names : Names state.used state.lastSegId
  captured : ∀ app, state.application = some app → ∀ segId ∈ app.segs, segId ∈ state.ids
  pins : ∀ seg ∈ state.segments, seg.preparationPins = state.pinsOf seg.segId
  snapshots : ∀ snapshot ∈ state.durable, (snapshot.segments.map segId).Nodup
  last : state.lastSnapshot ∈ state.durable

section
variable (ids : Ids state)
include ids

theorem Ids.nodup : state.ids.Nodup := ids.names.1.of_append_left

theorem Ids.unique {one other : SegInfo} (first : one ∈ state.segments)
    (second : other ∈ state.segments) (same : one.segId = other.segId) : one = other :=
  inj_on_of_nodup_map ids.nodup first second same

theorem Ids.inverting {segId : Nat} (waits : segId ∈ state.inverting) : segId ∉ state.ids :=
  fun owned => disjoint_of_nodup_append ids.names.1 owned (mem_append_left _ waits)

theorem Ids.output (run : state.merge = some merge) : merge.outputSegId ∉ state.ids := by
  refine fun owned => disjoint_of_nodup_append ids.names.1 owned (mem_append_right _ ?_)
  rw [run]
  exact mem_singleton_self _

theorem Ids.registered (mem : seg ∈ state.segments) :
    seg.segId ∈ (state.registered.map fun seg => seg.segId) ↔ seg.condemned = false := by
  constructor
  · intro listed
    obtain ⟨other, registered, same⟩ := mem_map.mp listed
    obtain ⟨here, free⟩ := mem_filter.mp registered
    rw [ids.unique mem here same.symm]
    simpa using free
  · intro free
    exact mem_map.mpr ⟨seg, mem_filter.mpr ⟨mem, by rw [free]; rfl⟩, rfl⟩

end

theorem ids_map (same : ∀ seg ∈ state.segments, (change seg).segId = seg.segId) :
    (state.segments.map change).map (fun seg => seg.segId) = state.ids := by
  rw [map_map]
  exact map_congr_left same

theorem Ids.map (ids : Ids state) (change : SegInfo → SegInfo)
    (same : ∀ seg ∈ state.segments, SameIdentity seg (change seg)) :
    Ids { state with segments := state.segments.map change } := by
  have sameIds : ({ state with segments := state.segments.map change } : State).ids = state.ids :=
    ids_map fun seg mem => (same seg mem).1
  exact { ids with
    names := by
      rw [used, sameIds]
      exact ids.names
    captured := by
      rw [sameIds]
      exact ids.captured
    pins := by
      refine forall_mem_map.mpr fun seg mem => ?_
      rw [(same seg mem).1, (same seg mem).2]
      exact ids.pins seg mem }

theorem Ids.modify (ids : Ids state) (which : SegInfo → Bool) (change : SegInfo → SegInfo)
    (same : ∀ seg, SameIdentity seg (change seg)) : Ids (state.modify which change) := by
  apply ids.map fun seg => if which seg then change seg else seg
  intro seg _
  split
  · exact same seg
  · exact ⟨rfl, rfl⟩

theorem Ids.reapply (ids : Ids state) {app after : DeleteApplication}
    (run : state.application = some app) (same : after.segs = app.segs) :
    Ids { state with application := some after } :=
  { ids with
    captured := by
      intro other found
      cases found
      rw [same]
      exact ids.captured app run
    pins := by
      intro seg mem
      have before := ids.pins seg mem
      rw [pinsOf, run] at before
      simpa [pinsOf, same] using before }

section
variable (ids : Ids state)
include ids

theorem Ids.pinSnapshot (idle : state.application = none) {app : DeleteApplication}
    (captures : app.segs = state.registered.map fun seg => seg.segId) :
    Ids (state.pinSnapshot app) := by
  have sameIds : (state.pinSnapshot app).ids = state.ids := by
    refine ids_map fun seg _ => ?_
    split <;> rfl
  exact { ids with
    names := by
      rw [State.used, sameIds]
      exact ids.names
    captured := by
      intro other run segId mem
      cases run
      rw [captures] at mem
      obtain ⟨seg, here, rfl⟩ := mem_map.mp mem
      rw [sameIds]
      exact mem_map_of_mem (mem_of_mem_filter here)
    pins := by
      refine forall_mem_map.mpr fun seg here => ?_
      have pins := ids.pins seg here
      have which := ids.registered here
      rw [← captures] at which
      rw [State.pinsOf, idle] at pins
      cases free : seg.condemned with
      | false => simp [State.pinsOf, State.pinSnapshot, free, which.mpr free, pins]
      | true =>
        have other : seg.segId ∉ app.segs := fun captured => by
          rw [which.mp captured] at free
          cases free
        simp [State.pinsOf, State.pinSnapshot, free, other, pins] }

theorem Ids.unpin (acted : state.unpin = some next) : Ids next := by
  obtain ⟨app, run, rfl⟩ := unpin_some acted
  have sameIds : (state.modify (fun seg => seg.segId ∈ app.segs) fun seg =>
      { seg with preparationPins := seg.preparationPins - 1 }).ids = state.ids := by
    refine ids_map fun seg _ => ?_
    split <;> rfl
  exact { ids with
    names := by
      have names := ids.names
      rwa [used, ← sameIds] at names
    captured := by rintro other ⟨⟩
    pins := by
      refine forall_mem_map.mpr fun seg here => ?_
      have pins := ids.pins seg here
      by_cases captured : seg.segId ∈ app.segs <;> simp_all [pinsOf] }

theorem Ids.register (seg : SegInfo) (inverting : List Nat) (merge : Option Merge)
    (fresh : seg.segId ∉ state.ids) (unpinned : seg.preparationPins = 0)
    (taken : (seg.segId :: (inverting ++ (merge.map Merge.outputSegId).toList)).Subperm
      (state.inverting ++ (state.merge.map Merge.outputSegId).toList)) : Ids { state with
      segments := state.segments ++ [seg]
      inverting := inverting
      merge := merge } :=
  { ids with
    names := by
      apply ids.names.subperm
      rw [State.used, State.ids, map_append, map_singleton, append_assoc, singleton_append]
      exact (subperm_append_left _).mpr taken
    captured := by
      intro app found segId mem
      rw [State.ids, map_append]
      exact mem_append_left _ (ids.captured app found segId mem)
    pins := by
      intro other mem
      rcases mem_append.mp mem with old | new
      · exact ids.pins other old
      rw [mem_singleton.mp new, unpinned]
      cases found : state.application with
      | none => simp [State.pinsOf]
      | some app =>
        have free : seg.segId ∉ app.segs := fun captured =>
          fresh (ids.captured app found _ captured)
        simp [State.pinsOf, free] }

theorem Ids.flush {segId : Nat} {flushed : Flush} (acted : state.flush segId flushed = some next) :
    Ids next := by
  obtain ⟨waited, -, rfl⟩ := flush_some acted
  have registered := ids.register (flushed.segment segId) (state.inverting.erase segId)
    state.merge (ids.inverting waited) rfl
    (((perm_cons_erase waited).symm.append_right _).subperm)
  exact { registered with }

theorem Ids.publish {infos : List SegmentInfo} (nodup : (infos.map segId).Nodup)
    (updateVersion schema : Nat) (prepared : List Nat) (outcome : Outcome) :
    Ids (state.publish infos updateVersion schema prepared outcome) := by
  have snapshots : ∀ snap ∈ (⟨state.nextManifestGen + 1, updateVersion, state.lastSegId, schema,
      infos, prepared⟩ : Snapshot) :: state.durable, (snap.segments.map segId).Nodup :=
    forall_mem_cons.mpr ⟨nodup, ids.snapshots⟩
  cases outcome with
  | unwritten => exact { ids with }
  | failed durable =>
    cases durable with
    | false => exact { ids with }
    | true =>
      exact { ids with
        snapshots := snapshots
        last := mem_cons_of_mem _ ids.last }
  | published =>
    have mapped := ids.map (publishSegment infos) (by
      intro seg _
      rw [publishSegment]
      split <;> exact ⟨rfl, rfl⟩)
    exact { mapped with
      snapshots := snapshots
      last := mem_cons_self }

theorem Ids.tryDeleteSegments (acted : state.tryDeleteSegments = some next) : Ids next := by
  obtain rfl := tryDeleteSegments_some acted
  exact { ids with
    names := by
      apply ids.names.subperm
      refine (List.Sublist.append ?_ (List.Sublist.refl _)).subperm
      simp only [State.ids, State.swept, map_map]
      exact filter_sublist.map _
    captured := by
      intro app run segId mem
      obtain ⟨seg, here, rfl⟩ := mem_map.mp (ids.captured app run segId mem)
      -- the pin keeps the segment from being taken
      have pinned : seg.preparationPins = 1 := by
        rw [ids.pins seg here, State.pinsOf, show state.application = some app from run]
        exact if_pos mem
      refine mem_map.mpr ⟨collectObsoleteLiveDocs seg, ?_, rfl⟩
      refine mem_map_of_mem (mem_filter.mpr ⟨here, ?_⟩)
      simp [State.deletable, pinned]
    pins := forall_mem_map.mpr fun seg here =>
      ids.pins seg (mem_of_mem_filter here) }

end

theorem swapOut_identity (merge : Merge) (seg : SegInfo) :
    SameIdentity seg (swapOut merge seg) := by
  rw [swapOut]
  split
  · exact ⟨rfl, rfl⟩
  · split <;> exact ⟨rfl, rfl⟩

theorem Ids.unmerge (ids : Ids state) : Ids { state with merge := none } :=
  { ids with
    names := by
      apply ids.names.subperm
      refine (subperm_append_left _).mpr ((subperm_append_left _).mpr ?_)
      exact (nil_sublist _).subperm }

theorem Ids.swap (ids : Ids state) {output : Output} (acted : state.swap output = some next) :
    Ids next := by
  obtain ⟨merge, run, -, -, rfl⟩ := swap_some acted
  have condemned := ids.map (swapOut merge) fun seg _ => swapOut_identity merge seg
  split
  · refine condemned.register (outputSegment output merge _) state.inverting none
      (condemned.output run) rfl ?_
    have last := (perm_append_singleton merge.outputSegId state.inverting).symm.subperm
    simpa [run, outputSegment] using last
  · rw [append_nil]
    exact condemned.unmerge

theorem Ids.startMerge (ids : Ids state) {chosen : List Nat}
    (acted : state.startMerge chosen = some next) : Ids next := by
  obtain ⟨idle, -, rfl⟩ := startMerge_some acted
  have marked := ids.modify (fun seg => !seg.condemned && decide (seg.segId ∈ chosen))
    (fun seg => { seg with merging := true, mergedLiveGen := some seg.liveGen })
    fun _ => ⟨rfl, rfl⟩
  exact { marked with
    names := by
      refine marked.names.issue ?_
      simp only [State.used, idle, State.modify, Option.map_none, Option.toList_none,
        append_nil, Option.map_some, Option.toList_some]
      rw [← append_assoc]
      exact perm_append_singleton _ _ }

theorem Ids.remerge (ids : Ids state) (run : state.merge = some merge)
    (sources : List MergeSource) :
    Ids { state with merge := some { merge with sources := sources } } :=
  { ids with
    names := by
      have names := ids.names
      rw [used, run] at names
      exact names }

theorem Ids.opened {snap : Snapshot} {durable : List Snapshot}
    (snapshots : ∀ known ∈ durable, (known.segments.map segId).Nodup)
    (mem : snap ∈ durable) (manifestNames : List Nat) (highestGeneration : Nat) :
    Ids (State.opened snap durable manifestNames highestGeneration) where
  names := by
    have same : (State.opened snap durable manifestNames highestGeneration).used =
        snap.segments.map segId := by
      simp only [State.used, State.ids, State.opened, map_map, Option.map_none,
        Option.toList_none, append_nil]
      rfl
    rw [same]
    refine ⟨snapshots snap mem, forall_mem_map.mpr fun info listed => ?_⟩
    exact (Lib.Folds.le_foldl_max segId snap.segments snap.lastSegId).2 info listed
  captured := by rintro app ⟨⟩
  pins := forall_mem_map.mpr fun _ _ => rfl
  snapshots := snapshots
  last := mem

theorem Ids.publishCommit (ids : Ids state) {outcome : Outcome}
    (acted : state.publishCommit outcome = some next) : Ids next := by
  obtain ⟨app, run, -, -, -, effect⟩ := publishCommit_some acted
  have nodup : (((state.segsToKeep app).map SegInfo.toSegmentInfo).map segId).Nodup := by
    rw [map_map]
    exact ids.nodup.sublist (filter_sublist.map _)
  rcases effect with ⟨-, rfl⟩ | ⟨-, rfl⟩
  · exact (ids.publish nodup _ _ _ _).reapply run rfl
  · exact ids.publish nodup _ _ _ _

theorem Ids.act (ids : Ids state) {event : Event} (acted : state.act event = some next) :
    Ids next := by
  cases event with
  | startUpdate =>
    simp only [State.act] at acted
    split at acted <;> cases acted
    exact { ids with }
  | obtainInverter =>
    cases acted
    exact { ids with names := ids.names.issue perm_middle }
  | flush => exact ids.flush acted
  | abortFlush =>
    obtain rfl := abortFlush_some acted
    exact { ids with
      names := ids.names.subperm ((List.Sublist.refl _).append
        (erase_sublist.append (List.Sublist.refl _))).subperm }
  | beginCommit =>
    obtain ⟨-, idle, -, rfl⟩ := beginCommit_some acted
    exact ids.pinSnapshot idle rfl
  | beginDeletePass =>
    obtain ⟨idle, app, -, captures, -, -, -, rfl⟩ := beginDeletePass_some acted
    exact ids.pinSnapshot idle captures
  | applyDeletes segId deleted =>
    obtain ⟨app, -, -, -, rfl⟩ := applyDeletes_some acted
    exact ids.modify _ (deleteFrom app deleted) fun _ => ⟨rfl, rfl⟩
  | reconcileDeletes =>
    obtain ⟨app, run, -, rfl⟩ := reconcileDeletes_some acted
    obtain ⟨change, carries, effect⟩ := reconcile_carries state app
    have kept := ids.map change (by
      intro seg mem
      obtain ⟨deletes, same, -⟩ := carries seg mem
      rw [same]
      exact ⟨rfl, rfl⟩)
    rw [effect]
    exact kept.reapply run rfl
  | buildOverlay segId built =>
    obtain ⟨app, -, -, rfl⟩ := buildOverlay_some acted
    exact ids.modify _ (overlaid built) fun _ => ⟨rfl, rfl⟩
  | publishCommit => exact ids.publishCommit acted
  | retirePending =>
    obtain ⟨app, run, -, rfl⟩ := retirePending_some acted
    have moved : Ids { state with application := some { app with phase := .retired } } :=
      ids.reapply run rfl
    exact { moved with }
  | moveEmptied =>
    obtain ⟨app, run, -, rfl⟩ := moveEmptied_some acted
    have condemned := ids.modify (emptied app) (fun seg => { seg with condemned := true })
      fun _ => ⟨rfl, rfl⟩
    exact condemned.reapply run rfl
  | unpin => exact ids.unpin acted
  | updateSchema =>
    obtain ⟨-, -, rfl⟩ := updateSchema_some acted
    have numbered : Ids { state with nextSchemaVersion := state.nextSchemaVersion + 1 } :=
      { ids with }
    exact numbered.publish (ids.snapshots _ ids.last) _ _ _ _
  | tryDeleteSegments => exact ids.tryDeleteSegments acted
  | startMerge => exact ids.startMerge acted
  | pinDiff =>
    obtain ⟨merge, run, rfl⟩ := pinDiff_some acted
    have pinned := ids.modify (fun seg => merges merge seg.segId)
      (fun seg => { seg with mergeDiffLiveGen := some seg.liveGen }) fun _ => ⟨rfl, rfl⟩
    exact pinned.remerge run _
  | coverDiff =>
    obtain ⟨merge, run, rfl⟩ := coverDiff_some acted
    exact ids.remerge run _
  | swap => exact ids.swap acted
  | failMerge =>
    obtain ⟨merge, run, rfl⟩ := failMerge_some acted
    exact (ids.modify (fun seg => merges merge seg.segId) givenBack fun _ => ⟨rfl, rfl⟩).unmerge
  | reopen =>
    obtain ⟨snap, older, newest, -, -, rfl⟩ := reopen_some acted
    exact Ids.opened ids.snapshots (newest ▸ mem_cons_self) _ _

theorem initial_ids : Ids initial := by
  apply Ids.opened
  · simp
  · exact mem_cons_self

/-- In every run, with crashes, an id names one segment and pins are the application's. -/
theorem run_ids (events : List Event) (ran : initial.run events = some state) : Ids state :=
  Lib.Runs.always (fun ids => ids.act) initial_ids ran

/-- A segment is committed, another one flushed, and both are merged while an inverter waits and
the next commit has pinned them. -/
def merging : List Event :=
  [.startUpdate, .obtainInverter, .flush 1 ⟨[1], [1], [], 1, 0, 1, none⟩, .beginCommit 1 false,
    .reconcileDeletes, .publishCommit .published, .retirePending, .moveEmptied, .unpin,
    .startUpdate, .obtainInverter, .flush 2 ⟨[2], [2], [], 1, 0, 1, none⟩, .startMerge [1, 2],
    .obtainInverter, .beginCommit 2 false]

theorem run_ids_merge : ∃ state, initial.run merging = some state ∧ Ids state ∧
    state.inverting = [4] ∧ state.segments.map SegInfo.preparationPins = [1, 1] ∧
    state.durable.map (fun commit => commit.segments.map SegmentInfo.segId) = [[1], []] :=
  ⟨_, rfl, run_ids merging rfl, rfl, rfl, rfl⟩

end Luxir.Index.SegmentWriter
