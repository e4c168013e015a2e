import Luxir.Index.RetiredFiles

/-!
The invariant behind the retention of files: what waits for retirement or was handed over is gone,
and what the published commit lists is owned. Kept here by the steps that publish nothing and sweep
nothing: those of an application, of a flush and of a merge.
-/

namespace Luxir.Index.SegmentWriter
open State List

variable {state next : State} {app : DeleteApplication} {lastSegId segId : Nat}

structure Owned (merge : Option Merge) (seg : SegInfo) : Prop where
  listed : Listed seg.toSegmentInfo
  obsolete : ∀ gen ∈ seg.obsoleteLiveGens, gen < seg.liveGen
  merging : seg.merging = merge.any fun merge => merges merge seg.segId
  emptied : seg.merging = true → seg.condemned = true → seg.liveDocs = 0

structure Publishes (seg : SegInfo) (info : SegmentInfo) : Prop where
  segId : seg.segId = info.segId
  gen : seg.publishedLiveGen = info.liveGen
  overlays : ∀ gen ∈ info.overlays, gen ∈ seg.overlays

structure Retention (state : State) : Prop where
  owned : ∀ seg ∈ state.segments, Owned state.merge seg
  sources : ∀ merge, state.merge = some merge → ∀ source ∈ merge.sources, source.segId ∈ state.ids
  published : ∀ info ∈ state.lastSnapshot.segments, ∃ seg ∈ state.segments, Publishes seg info
  listed : ∀ snapshot ∈ state.durable, ∀ info ∈ snapshot.segments, Listed info
  captured : ∀ app, state.application = some app → app.commits = true →
    ∀ info ∈ state.lastSnapshot.segments, ∀ seg ∈ state.segments, seg.segId = info.segId →
      seg.condemned = true ∨ seg.segId ∈ app.segs
  manifest : state.lastSnapshot.indexGen ≤ state.nextManifestGen
  manifests : ∀ gen ∈ state.manifestNames, gen ≤ state.nextManifestGen
  schema : state.lastSnapshot.schema ≤ state.nextSchemaVersion
  gone : ∀ file ∈ state.pendingRetirement ++ state.handed, Gone state file

variable {application : Option DeleteApplication} {seg : SegInfo} {inverting : List Nat}
  {merge : Merge}

def Moves (state : State) (application : Option DeleteApplication) : Prop :=
  ∀ app, application = some app → ∃ before, state.application = some before ∧
    before.segs = app.segs ∧ before.commits = app.commits

theorem moves_same (state : State) : Moves state state.application :=
  fun app run => ⟨app, run, rfl, rfl⟩

theorem moves_phase (run : state.application = some app)
    (phase : Phase) : Moves state (some { app with phase := phase }) := by
  intro other found
  cases found
  exact ⟨app, run, rfl, rfl⟩

theorem Retention.still (kept : Retention state)
    {updateNumber preparedDeleteVersion nextManifestGen nextSchemaVersion : Nat}
    {pendingDeletes : List SortedDeletes} {retired manifestNames : List Nat}
    {durable : List Snapshot} {failed : Bool} (moves : Moves state application)
    (listed : ∀ snap ∈ durable, ∀ info ∈ snap.segments, Listed info)
    (gens : state.nextManifestGen ≤ nextManifestGen)
    (manifests : ∀ gen ∈ manifestNames, gen ≤ nextManifestGen)
    (schemas : state.nextSchemaVersion ≤ nextSchemaVersion) :
    Retention { state with
      updateNumber := updateNumber
      preparedDeleteVersion := preparedDeleteVersion
      pendingDeletes := pendingDeletes
      retired := retired
      durable := durable
      manifestNames := manifestNames
      nextManifestGen := nextManifestGen
      nextSchemaVersion := nextSchemaVersion
      application := application
      failed := failed } :=
  { kept with
    listed := listed
    captured := by
      intro app run commits
      obtain ⟨before, found, segs, same⟩ := moves app run
      rw [← segs]
      exact kept.captured before found (same.trans commits)
    manifest := kept.manifest.trans gens
    manifests := manifests
    schema := kept.schema.trans schemas
    gone := fun file doomed => (kept.gone file doomed).later {
      dead := fun _ dead => { dead with }
      segments := fun seg mem => .inr ⟨seg, mem, Evolves.refl seg⟩
      captured := by
        intro seg _ _ pinned
        obtain ⟨app, run, held⟩ := mem_captured.mp pinned
        obtain ⟨before, found, segs, -⟩ := moves app run
        exact mem_captured.mpr ⟨before, found, segs ▸ held⟩
      overlays := fun _ _ gone => gone.1
      schemas := schemas
      schema := .inl rfl
      manifests := gens
      manifest := .inl rfl } }

/-- A change of a segment that its publication does not notice, while merges go on or end. -/
structure Keeps (merge later : Option Merge) (before after : SegInfo) : Prop extends
    Evolves before after where
  owned : Owned merge before → Owned later after
  published : after.publishedLiveGen = before.publishedLiveGen
  overlays : ∀ gen ∈ before.overlays, gen ∈ after.overlays

theorem Keeps.refl (merge : Option Merge) (seg : SegInfo) : Keeps merge merge seg seg :=
  { Evolves.refl seg with
    owned := fun owned => owned
    published := rfl
    overlays := fun _ mem => mem }

/-- A step that changes each segment for itself, moves the application on or begins one, and moves
the merge on, begins one or ends it. The output of a merge may go on as the id of an inverter. -/
theorem Retention.segmentwise (kept : Retention state) (ids : Ids state)
    {change : SegInfo → SegInfo} {merge : Option Merge}
    (keeps : ∀ seg ∈ state.segments, Keeps state.merge merge seg (change seg))
    (applies : Moves state application ∨ ∃ app, application = some app ∧
      app.segs = state.registered.map fun seg => seg.segId)
    (sources : ∀ run, merge = some run → ∀ source ∈ run.sources,
      source.segId ∈ state.ids) (issued : state.lastSegId ≤ lastSegId)
    (used : ∀ id ∈ inverting ++ (merge.map Merge.outputSegId).toList,
      id ∈ state.inverting ++ (state.merge.map Merge.outputSegId).toList ∨ state.lastSegId < id) :
    Retention { state with
      segments := state.segments.map change
      application := application
      merge := merge
      lastSegId := lastSegId
      inverting := inverting } := by
  have sameIds := ids_map fun seg mem => (keeps seg mem).segId
  exact { kept with
    owned := forall_mem_map.mpr fun seg mem =>
      (keeps seg mem).owned (kept.owned seg mem)
    sources := by
      rw [State.ids, sameIds]
      exact sources
    published := by
      intro info mem
      obtain ⟨seg, here, publishes⟩ := kept.published info mem
      have same := keeps seg here
      exact ⟨change seg, mem_map_of_mem here, {
        segId := same.segId.trans publishes.segId
        gen := same.published.trans publishes.gen
        overlays := fun gen listed => same.overlays gen (publishes.overlays gen listed) }⟩
    captured := by
      intro app run commits info listed
      refine forall_mem_map.mpr fun seg here same => ?_
      rw [(keeps seg here).segId] at same ⊢
      rcases applies with moves | ⟨other, found, fresh⟩
      · obtain ⟨before, found, segs, commit⟩ := moves app run
        rw [← segs]
        exact (kept.captured before found (commit.trans commits) info listed seg here
          same).imp_left (keeps seg here).condemned
      · cases found.symm.trans run
        rw [fresh, ids.registered here]
        cases condemned : seg.condemned with
        | true => exact .inl ((keeps seg here).condemned condemned)
        | false => exact .inr rfl
    gone := by
      refine fun file doomed => (kept.gone file doomed).later
        (Later.unpublished ?_ ?_ ?_ rfl rfl rfl)
      · refine fun segId dead => Dead.later dead issued fun id mem => ?_
        rcases mem_append.mp mem with owned | other
        · exact .inl (mem_append_left _ (sameIds ▸ owned))
        · exact (used id other).imp_left (mem_append_right _)
      · exact fun seg mem =>
          .inr ⟨change seg, mem_map_of_mem mem, (keeps seg mem).toEvolves⟩
      · intro seg mem condemned pinned
        obtain ⟨app, run, held⟩ := State.mem_captured.mp pinned
        rcases applies with moves | ⟨other, found, fresh⟩
        · obtain ⟨before, found, same, -⟩ := moves app run
          exact State.mem_captured.mpr ⟨before, found, same ▸ held⟩
        · -- a new application captures registered segments only
          cases found.symm.trans run
          rw [fresh, ids.registered mem, condemned] at held
          cases held }

theorem Retention.modify (kept : Retention state) (ids : Ids state) (which : SegInfo → Bool)
    (change : SegInfo → SegInfo)
    (keeps : ∀ seg, which seg = true → Keeps state.merge state.merge seg (change seg))
    (applies : Moves state application ∨ ∃ app, application = some app ∧
      app.segs = state.registered.map fun seg => seg.segId) :
    Retention { state.modify which change with application := application } := by
  refine kept.segmentwise ids ?_ applies kept.sources le_rfl fun id mem => .inl mem
  intro seg _
  split
  · rename_i chosen
    exact keeps seg chosen
  · exact Keeps.refl _ seg

theorem keepsGen_eq_false {gen : Nat} : keepsGen seg gen = false ↔
    gen ≠ seg.liveGen ∧ gen ≠ seg.publishedLiveGen ∧
      (seg.mergedLiveGen = some gen → gen = 0) ∧ (seg.mergeDiffLiveGen = some gen → gen = 0) := by
  simp [keepsGen, and_assoc]

theorem keeps_deleteFrom (merge : Option Merge) (app : DeleteApplication) (deleted : Nat)
    (seg : SegInfo) : Keeps merge merge seg (deleteFrom app deleted seg) :=
  { Keeps.refl merge seg with
    liveGen := Nat.le_succ _
    released := by
      intro gen old free
      rw [keepsGen_eq_false] at free ⊢
      exact ⟨(old.trans (Nat.lt_succ_self _)).ne, free.2⟩
    liveDocs := by
      intro empty
      simp only [deleteFrom, empty, Nat.zero_sub]
    owned := by
      intro owned
      refine ⟨⟨?_, owned.listed.overlays⟩, ?_, owned.merging, ?_⟩
      · intro file mem
        rcases mem_append.mp mem with old | new
        · obtain ⟨here, other⟩ := mem_filter.mp old
          refine (owned.listed.files file here).imp_right fun live => ?_
          simp [live] at other
        · exact .inr (mem_singleton.mp new)
      · intro gen mem
        have below : gen ∈ seg.obsoleteLiveGens ++ [seg.liveGen] := by
          simp only [deleteFrom] at mem
          split at mem
          · exact mem
          · exact mem_append_left _ mem
        rcases mem_append.mp below with old | new
        · exact (owned.obsolete gen old).trans (Nat.lt_succ_self _)
        · exact (mem_singleton.mp new).le.trans_lt (Nat.lt_succ_self _)
      · intro merging condemned
        simp only [deleteFrom, owned.emptied merging condemned, Nat.zero_sub] }

theorem keeps_overlaid (merge : Option Merge) (built : Bool) (seg : SegInfo) :
    Keeps merge merge seg (overlaid built seg) :=
  { Keeps.refl merge seg with
    nextOverlayGen := Nat.le_succ _
    owned := fun owned => { owned with
      listed := {
        files := owned.listed.files
        overlays := by
          intro gen mem
          have below : gen ∈ seg.overlays ++ [seg.nextOverlayGen] := by
            simp only [overlaid] at mem
            split at mem
            · exact mem
            · exact mem_append_left _ mem
          rcases mem_append.mp below with old | new
          · exact (owned.listed.overlays gen old).trans (Nat.lt_succ_self _)
          · exact (mem_singleton.mp new).le.trans_lt (Nat.lt_succ_self _) } }
    overlays := by
      intro gen mem
      simp only [overlaid]
      split
      · exact mem_append_left _ mem
      · exact mem }

section
variable (kept : Retention state)
include kept

theorem Retention.pinSnapshot (ids : Ids state)
    (captures : app.segs = state.registered.map fun seg => seg.segId) :
    Retention (state.pinSnapshot app) :=
  kept.modify ids _ _
    (fun seg _ => { Keeps.refl state.merge seg with owned := fun owned => { owned with } })
    (.inr ⟨app, rfl, captures⟩)

theorem Retention.reconcileDeletes (ids : Ids state) (acted : state.reconcileDeletes = some next) :
    Retention next := by
  obtain ⟨app, run, -, rfl⟩ := reconcileDeletes_some acted
  obtain ⟨change, carries, effect⟩ := reconcile_carries state app
  rw [effect]
  refine kept.segmentwise ids ?_ (.inl (moves_phase run _)) kept.sources le_rfl
    fun id mem => .inl mem
  intro seg mem
  obtain ⟨deletes, same, -⟩ := carries seg mem
  rw [same]
  exact { Keeps.refl state.merge seg with owned := fun owned => { owned with } }

theorem Retention.retirePending (acted : state.retirePending = some next) : Retention next := by
  obtain ⟨app, run, -, rfl⟩ := retirePending_some acted
  exact kept.still (moves_phase run _) kept.listed le_rfl kept.manifests le_rfl

theorem Retention.moveEmptied (ids : Ids state) (acted : state.moveEmptied = some next) :
    Retention next := by
  obtain ⟨app, run, -, rfl⟩ := moveEmptied_some acted
  refine kept.modify ids _ _ ?_ (.inl (moves_phase run _))
  intro seg chosen
  simp only [emptied, Bool.and_eq_true, decide_eq_true_eq] at chosen
  exact { Keeps.refl state.merge seg with
    condemned := fun _ => rfl
    owned := fun owned => { owned with emptied := fun _ _ => chosen.1.2 } }

theorem Retention.unpin (ids : Ids state) (acted : state.unpin = some next) : Retention next := by
  obtain ⟨app, -, rfl⟩ := unpin_some acted
  exact kept.modify ids _ _
    (fun seg _ => { Keeps.refl state.merge seg with owned := fun owned => { owned with } })
    (.inl (by rintro _ ⟨⟩))

end

theorem Retention.register (kept : Retention state) (listed : Listed seg.toSegmentInfo)
    (idle : seg.merging = false) (now : seg.obsoleteLiveGens = [])
    (fresh : seg.segId ∉ state.ids) (waits : seg.segId ∈ state.inverting)
    (others : ∀ id ∈ inverting, id ∈ state.inverting) :
    Retention { state with segments := state.segments ++ [seg], inverting := inverting } := by
  have sameIds : (state.segments ++ [seg]).map (fun seg => seg.segId) = state.ids ++ [seg.segId] :=
    by rw [map_append, map_singleton, ids]
  -- the sources of a merge are segments already
  have owned : Owned state.merge seg := {
    listed := listed
    obsolete := fun gen mem => absurd (now ▸ mem) not_mem_nil
    merging := by
      rw [idle]
      cases run : state.merge with
      | none => rfl
      | some merge =>
        symm
        rw [Option.any_some, merges, contains_eq_mem, decide_eq_false_iff_not]
        intro mem
        obtain ⟨source, here, same⟩ := mem_map.mp mem
        exact fresh (same ▸ kept.sources merge run source here)
    emptied := fun merging => absurd (idle.symm.trans merging) Bool.false_ne_true }
  exact { kept with
    owned := forall_mem_append.mpr ⟨kept.owned, forall_mem_singleton.mpr owned⟩
    sources := by
      rw [ids, sameIds]
      exact fun merge run source mem =>
        mem_append_left _ (kept.sources merge run source mem)
    published := by
      intro info mem
      obtain ⟨owner, here, publishes⟩ := kept.published info mem
      exact ⟨owner, mem_append_left _ here, publishes⟩
    captured := by
      intro app run commits info included other mem same
      rcases mem_append.mp mem with old | new
      · exact kept.captured app run commits info included other old same
      · obtain ⟨owner, here, publishes⟩ := kept.published info included
        rw [mem_singleton.mp new] at same
        exact absurd (mem_map.mpr ⟨owner, here, publishes.segId.trans same.symm⟩) fresh
    gone := by
      refine fun file doomed => (kept.gone file doomed).later (Later.unpublished ?_
        (fun old mem => .inr ⟨old, mem_append_left _ mem, Evolves.refl old⟩)
        (fun _ _ _ pinned => pinned) rfl rfl rfl)
      refine fun segId dead => Dead.later dead le_rfl fun id mem => .inl ?_
      rw [used, ids, sameIds] at mem
      simp only [used, mem_append, mem_singleton] at mem ⊢
      rcases mem with (owned | rfl) | inverter | output
      · exact .inl owned
      · exact .inr (.inl waits)
      · exact .inr (.inl (others id inverter))
      · exact .inr (.inr output) }

theorem Retention.flush (kept : Retention state) (ids : Ids state) {flushed : Flush}
    (acted : state.flush segId flushed = some next) : Retention next := by
  obtain ⟨waits, -, rfl⟩ := flush_some acted
  have registered : Retention { state with
      segments := state.segments ++ [flushed.segment segId]
      inverting := state.inverting.erase segId } :=
    kept.register ⟨segmentFiles_listed _ _ _, fun _ mem => absurd mem not_mem_nil⟩
      rfl rfl (ids.inverting waits) waits fun _ mem => mem_of_mem_erase mem
  exact registered.still (moves_same _) kept.listed le_rfl kept.manifests le_rfl

theorem Retention.invert (kept : Retention state) (issued : state.lastSegId ≤ lastSegId)
    (inverts : ∀ id ∈ inverting, id ∈ state.inverting ∨ state.lastSegId < id) :
    Retention { state with inverting := inverting, lastSegId := lastSegId } :=
  { kept with
    gone := by
      refine fun file doomed => (kept.gone file doomed).later (Later.unpublished ?_
        (fun seg mem => .inr ⟨seg, mem, Evolves.refl seg⟩) (fun _ _ _ pinned => pinned)
        rfl rfl rfl)
      refine fun segId dead => Dead.later dead issued fun id mem => ?_
      simp only [used, mem_append] at mem ⊢
      rcases mem with owned | inverter | output
      · exact .inl (.inl owned)
      · exact (inverts id inverter).imp_left fun old => .inr (.inl old)
      · exact .inl (.inr (.inr output)) }

theorem merges_eq_true : merges merge segId = true ↔
    ∃ source ∈ merge.sources, source.segId = segId := by
  simp only [merges, contains_eq_mem, mem_map, decide_eq_true_eq]

theorem merges_chosen (ids : Ids state) (chosen : List Nat) (output : Nat)
    (mem : seg ∈ state.segments) :
    merges ⟨(state.chosenSources chosen).map fun seg => ⟨seg.segId, seg.liveGen, seg.liveGen⟩,
      output⟩ seg.segId = (!seg.condemned && decide (seg.segId ∈ chosen)) := by
  rw [Bool.eq_iff_iff, merges_eq_true]
  simp only [mem_map, exists_exists_and_eq_and, chosenSources, registered, mem_filter]
  constructor
  · rintro ⟨other, ⟨⟨here, free⟩, listed⟩, same⟩
    rw [ids.unique mem here same.symm, free, listed]
    rfl
  · intro taken
    rw [Bool.and_eq_true] at taken
    exact ⟨seg, ⟨⟨mem, taken.1⟩, taken.2⟩, rfl⟩

section
variable (kept : Retention state)
include kept

variable (ids : Ids state)
include ids

theorem Retention.startMerge {chosen : List Nat} (acted : state.startMerge chosen = some next) :
    Retention next := by
  obtain ⟨idle, -, rfl⟩ := startMerge_some acted
  refine kept.segmentwise ids ?_ (.inl (moves_same state)) ?_ (Nat.le_succ _) ?_
  · intro seg mem
    have unmerged := (kept.owned seg mem).merging
    have source := merges_chosen ids chosen (state.lastSegId + 1) mem
    rw [idle, Option.any_none] at unmerged
    split
    · rename_i taken
      exact { Keeps.refl state.merge seg with
        released := by
          intro gen old free
          rw [keepsGen_eq_false] at free ⊢
          exact ⟨free.1, free.2.1, fun held => absurd (Option.some.inj held) old.ne', free.2.2.2⟩
        owned := fun owned => { owned with
          merging := (source.trans taken).symm
          emptied := by
            intro _ condemned
            simp [show seg.condemned = true from condemned] at taken } }
    · rename_i passed
      exact { Keeps.refl state.merge seg with
        owned := fun owned => { owned with
          merging := by
            rw [unmerged, Option.any_some, source]
            simpa using passed } }
  · intro run found source mem
    cases found
    obtain ⟨seg, listed, rfl⟩ := mem_map.mp mem
    have here := mem_of_mem_filter (mem_of_mem_filter listed)
    exact mem_map.mpr ⟨seg, here, rfl⟩
  · exact forall_mem_append.mpr ⟨fun id inverter => .inl (mem_append_left _ inverter),
      forall_mem_singleton.mpr (.inr (Nat.lt_succ_self _))⟩

theorem Retention.remerge (run : state.merge = some merge) (change : MergeSource → MergeSource)
    (same : ∀ source, (change source).segId = source.segId) {hold : SegInfo → SegInfo}
    (holds : ∀ seg ∈ state.segments, Keeps state.merge state.merge seg (hold seg)) :
    Retention { state with
      segments := state.segments.map hold
      merge := some { merge with sources := merge.sources.map change } } := by
  have sameMerges : ∀ segId, merges { merge with sources := merge.sources.map change } segId =
      merges merge segId := by
    intro segId
    simp only [merges, map_map]
    rw [map_congr_left (g := MergeSource.segId)]
    exact fun source _ => same source
  refine kept.segmentwise ids ?_ (.inl (moves_same state)) ?_ le_rfl ?_
  · intro seg mem
    have keeps := holds seg mem
    exact { keeps with
      owned := fun owned => { keeps.owned owned with
        merging := by
          rw [(keeps.owned owned).merging, run, Option.any_some, Option.any_some, sameMerges] } }
  · intro other found source mem
    cases found
    obtain ⟨before, listed, rfl⟩ := mem_map.mp mem
    rw [same]
    exact kept.sources merge run before listed
  · rw [run]
    exact fun id mem => .inl mem

theorem Retention.pinDiff (acted : state.pinDiff = some next) : Retention next := by
  obtain ⟨merge, run, rfl⟩ := pinDiff_some acted
  refine kept.remerge ids run (fun source =>
    { source with currentGen := state.genOf source }) (fun _ => rfl) ?_
  intro seg _
  split
  · exact { Keeps.refl state.merge seg with
      released := by
        intro gen old free
        rw [keepsGen_eq_false] at free ⊢
        exact ⟨free.1, free.2.1, free.2.2.1, fun held => absurd (Option.some.inj held) old.ne'⟩
      owned := fun owned => { owned with } }
  · exact Keeps.refl _ seg

theorem Retention.coverDiff (acted : state.coverDiff = some next) : Retention next := by
  obtain ⟨merge, run, rfl⟩ := coverDiff_some acted
  have covered := kept.remerge ids run (fun source =>
    { source with coveredGen := source.currentGen }) (fun _ => rfl)
    fun seg _ => Keeps.refl state.merge (id seg)
  rwa [map_id] at covered

/-- A condemned source has no documents, so a failed merge does not register it again. -/
theorem Retention.failMerge (acted : state.failMerge = some next) : Retention next := by
  obtain ⟨merge, run, rfl⟩ := failMerge_some acted
  refine kept.segmentwise ids ?_ (.inl (moves_same state)) (fun _ found => by cases found) le_rfl
    fun id mem => .inl (mem_append_left _ (by simpa [State.modify] using mem))
  intro seg mem
  have merging := (kept.owned seg mem).merging
  rw [run, Option.any_some] at merging
  split
  · rename_i source
    have empty := (kept.owned seg mem).emptied (merging.trans source)
    exact { Keeps.refl state.merge seg with
      released := by
        intro gen _ free
        rw [keepsGen_eq_false] at free ⊢
        exact ⟨free.1, free.2.1, (by rintro ⟨⟩), by rintro ⟨⟩⟩
      condemned := by
        intro condemned
        simp only [State.givenBack, condemned, empty condemned, decide_true, Bool.and_self]
      owned := fun owned => { owned with
        merging := rfl
        emptied := by rintro ⟨⟩ } }
  · rename_i other
    rw [Bool.not_eq_true] at other
    exact { Keeps.refl state.merge seg with
      owned := fun owned => { owned with merging := merging.trans other } }

end

/-- A merge that covers the current generation of a source lets the older ones go. -/
theorem keeps_swapOut
    (covers : merges merge seg.segId = true → coveredOf merge seg.segId = some seg.liveGen) :
    Keeps (some merge) none seg (swapOut merge seg) := by
  unfold swapOut
  split
  · rename_i source
    exact { Keeps.refl none seg with
      released := by
        intro gen old free
        rw [keepsGen_eq_false] at free ⊢
        refine ⟨free.1, free.2.1, ?_, by rintro ⟨⟩⟩
        intro held
        rw [covers source] at held
        exact absurd (Option.some.inj held) old.ne'
      condemned := fun _ => rfl
      owned := fun owned => { owned with
        merging := rfl
        emptied := by rintro ⟨⟩ } }
  · rename_i other
    rw [Bool.not_eq_true] at other
    split
    all_goals exact { Keeps.refl none seg with
      owned := fun owned => { owned with merging := owned.merging.trans other } }

theorem Retention.swap (kept : Retention state) (ids : Ids state) {output : Output}
    (acted : state.swap output = some next) : Retention next := by
  obtain ⟨merge, run, covers, -, rfl⟩ := swap_some acted
  -- between the two halves of the swap the output's id counts as one that is still written
  have swapped : ∀ inverting : List Nat, (∀ id ∈ inverting, id ∈ state.inverting ∨
      id = merge.outputSegId) → Retention { state with
        segments := state.segments.map (swapOut merge)
        merge := none
        inverting := inverting } := by
    intro inverting inverts
    refine kept.segmentwise ids ?_ (.inl (moves_same state)) (by rintro _ ⟨⟩) le_rfl ?_
    · intro seg mem
      rw [run]
      exact keeps_swapOut fun source => covers seg (mem_filter.mpr ⟨mem, source⟩)
    intro id mem
    rw [run]
    rcases inverts id (by simpa using mem) with old | rfl
    · exact .inl (mem_append_left _ old)
    · exact .inl (mem_append_right _ (mem_singleton_self _))
  split
  · have wrote := swapped (merge.outputSegId :: state.inverting)
      fun id mem => (mem_cons.mp mem).symm
    apply wrote.register ⟨segmentFiles_listed _ _ _, fun _ mem => mem_range.mp mem⟩ rfl rfl
    · intro owned
      rw [State.ids, ids_map fun seg _ => (swapOut_identity merge seg).1] at owned
      exact ids.output run owned
    · exact mem_cons_self
    · exact fun id mem => mem_cons_of_mem _ mem
  · rw [append_nil]
    exact swapped state.inverting fun id mem => .inl mem

end Luxir.Index.SegmentWriter
