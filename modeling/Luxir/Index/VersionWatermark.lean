import Luxir.Index.SegmentIds

/-!
Versions over restarts. A version is dated by what the writer has published, prepared or still has
pending: no delete that a segment reflects, and none that is carried to it, is newer than this
bound or than the segment's own updates. A commit takes the bound when it captures its segments, so
its recorded version covers all that it makes durable.
-/

namespace Luxir.Index.SegmentWriter
open List Lib.Folds

variable {state next : State} {app : DeleteApplication} {outcome : Outcome}
  {packets : List SortedDeletes} {limit segId : Nat} {output : Output} {seg : SegInfo}

theorem le_getLargestVersion {packet : SortedDeletes} (mem : packet ∈ packets) :
    packet.largestVersion ≤ getLargestVersion packets :=
  (le_foldl_max SortedDeletes.largestVersion packets 0).2 packet mem

theorem getLargestVersion_le (each : ∀ packet ∈ packets, packet.largestVersion ≤ limit) :
    getLargestVersion packets ≤ limit :=
  foldl_max_le SortedDeletes.largestVersion packets 0 (Nat.zero_le _) each

theorem le_maxVersionOf {versions : List Nat} {version : Nat} (mem : version ∈ versions) :
    version ≤ maxVersionOf versions :=
  (le_foldl_max (fun version => version) versions 0).2 version mem

def State.bound (state : State) : Nat :=
  max (max state.durableUpdateVersion state.preparedDeleteVersion)
    (getLargestVersion state.pendingDeletes)

theorem State.pending_le_bound {packet : SortedDeletes} (mem : packet ∈ state.pendingDeletes) :
    packet.largestVersion ≤ state.bound :=
  (le_getLargestVersion mem).trans (le_max_right _ _)

/-- The documents and deletes of a segment under a limit on versions and a bound on deletes. -/
structure Dated (limit bound : Nat) (seg : SegInfo) : Prop where
  births : ∀ birth ∈ seg.births, birth ≤ seg.maxVersion
  limited : seg.maxVersion ≤ limit
  applied : ∀ version ∈ seg.applied, version ≤ max seg.maxVersion bound
  carried : ∀ packet ∈ seg.personalDeletes, packet.largestVersion ≤ bound

theorem Dated.mono {bound higher wider : Nat} (dated : Dated limit bound seg)
    (more : limit ≤ higher) (reaches : bound ≤ wider) : Dated higher wider seg where
  births := dated.births
  limited := dated.limited.trans more
  applied := fun version mem =>
    (dated.applied version mem).trans (max_le_max le_rfl reaches)
  carried := fun packet mem => (dated.carried packet mem).trans reaches

/-- A commit records a version that is not below those of its documents and of its deletes. -/
structure Recorded (snapshot : Snapshot) : Prop where
  births : ∀ info ∈ snapshot.segments, ∀ birth ∈ info.births, birth ≤ info.maxVersion
  versions : ∀ info ∈ snapshot.segments, info.maxVersion ≤ snapshot.updateVersion
  applied : ∀ info ∈ snapshot.segments, ∀ version ∈ info.applied, version ≤ snapshot.updateVersion
  prepared : ∀ version ∈ snapshot.prepared, version ≤ snapshot.updateVersion

structure Covers (state : State) (app : DeleteApplication) : Prop where
  selected : ∀ packet ∈ app.selected, packet.largestVersion ≤ app.highestUpdateVersion
  applied : ∀ seg ∈ state.segments, seg.segId ∈ app.segs → ∀ version ∈ seg.applied,
    version ≤ max seg.maxVersion app.highestUpdateVersion
  prepared : state.preparedDeleteVersion ≤ app.highestUpdateVersion
  durable : state.durableUpdateVersion ≤ app.highestUpdateVersion
  limited : app.highestUpdateVersion ≤ state.updateNumber

structure Applies (state : State) (app : DeleteApplication) : Prop where
  pending : app.phase ≠ .retired → app.phase ≠ .moved →
    ∀ packet ∈ app.pending, packet ∈ state.pendingDeletes
  among : ∀ packet ∈ app.pending, packet ∈ app.selected
  commit : app.commits = true → app.phase = .applying ∨ app.phase = .reconciled → Covers state app

theorem Applies.of (applies : Applies state app)
    (stays : ∀ packet ∈ state.pendingDeletes, packet ∈ next.pendingDeletes)
    (covers : Covers state app → Covers next app) : Applies next app where
  pending := fun unretired unmoved packet mem =>
    stays packet (applies.pending unretired unmoved packet mem)
  among := applies.among
  commit := fun commits hidden => covers (applies.commit commits hidden)

structure Versions (state : State) : Prop where
  segments : ∀ seg ∈ state.segments, Dated state.updateNumber state.bound seg
  bounded : state.bound ≤ state.updateNumber
  retired : ∀ version ∈ state.retired, version ≤ state.preparedDeleteVersion
  application : ∀ app, state.application = some app → Applies state app
  recorded : ∀ snapshot ∈ state.durable, Recorded snapshot ∧
    snapshot.updateVersion ≤ state.updateNumber
  sorted : state.durable.Pairwise fun newer older => older.updateVersion ≤ newer.updateVersion
  last : state.lastSnapshot ∈ state.durable
  current : state.lastSnapshot.updateVersion = state.durableUpdateVersion
  newest : state.failed = false → ∀ snapshot ∈ state.durable,
    snapshot.updateVersion ≤ state.durableUpdateVersion

theorem Versions.bounds (versions : Versions state) :
    (state.durableUpdateVersion ≤ state.updateNumber ∧
      state.preparedDeleteVersion ≤ state.updateNumber) ∧
    getLargestVersion state.pendingDeletes ≤ state.updateNumber := by
  rw [← max_le_iff, ← max_le_iff]
  exact versions.bounded

structure SameDates (before after : SegInfo) : Prop where
  segId : after.segId = before.segId
  maxVersion : after.maxVersion = before.maxVersion
  births : after.births = before.births
  applied : after.applied = before.applied

theorem Versions.resegment (versions : Versions state) (segments : List SegInfo)
    (each : ∀ after ∈ segments, ∃ before ∈ state.segments, SameDates before after ∧
      ∀ packet ∈ after.personalDeletes, packet.largestVersion ≤ state.bound) :
    Versions { state with segments := segments } :=
  { versions with
    segments := by
      intro after mem
      obtain ⟨before, here, same, carried⟩ := each after mem
      have dated := versions.segments before here
      exact {
        births := by
          rw [same.births, same.maxVersion]
          exact dated.births
        limited := by
          rw [same.maxVersion]
          exact dated.limited
        applied := by
          rw [same.applied, same.maxVersion]
          exact dated.applied
        carried := carried }
    application := by
      intro app run
      refine (versions.application app run).of (fun _ => id) fun covers => { covers with
        applied := ?_ }
      intro after mem captured
      obtain ⟨before, here, same, -⟩ := each after mem
      rw [same.applied, same.maxVersion]
      exact covers.applied before here (same.segId ▸ captured) }

theorem Versions.remap (versions : Versions state) (change : SegInfo → SegInfo)
    (same : ∀ seg, SameDates seg (change seg) ∧
      (change seg).personalDeletes = seg.personalDeletes) :
    Versions { state with segments := state.segments.map change } := by
  apply versions.resegment
  refine forall_mem_map.mpr fun before here => ?_
  refine ⟨before, here, (same before).1, ?_⟩
  rw [(same before).2]
  exact (versions.segments before here).carried

theorem Versions.modify (versions : Versions state) (which : SegInfo → Bool)
    (change : SegInfo → SegInfo)
    (same : ∀ seg, SameDates seg (change seg) := by exact fun _ => ⟨rfl, rfl, rfl, rfl⟩)
    (carries : ∀ seg, (change seg).personalDeletes = seg.personalDeletes := by exact fun _ => rfl) :
    Versions (state.modify which change) := by
  apply versions.remap
  intro seg
  split
  · exact ⟨same seg, carries seg⟩
  · exact ⟨⟨rfl, rfl, rfl, rfl⟩, rfl⟩

section
open State

section
variable (versions : Versions state)
include versions

theorem Versions.aside {inverting manifestNames : List Nat}
    {lastSegId nextManifestGen nextSchemaVersion : Nat} {pendingRetirement handed : List File}
    {merge : Option Merge} :
    Versions { state with
      inverting := inverting
      lastSegId := lastSegId
      manifestNames := manifestNames
      nextManifestGen := nextManifestGen
      nextSchemaVersion := nextSchemaVersion
      pendingRetirement := pendingRetirement
      handed := handed
      merge := merge } :=
  { versions with
    application := fun app run =>
      (versions.application app run).of (fun _ => id) fun covers => { covers with } }

/-- The writer fails, and what it last tried to publish may be durable. -/
theorem Versions.fail (durable : List Snapshot)
    (recorded : ∀ snap ∈ durable, Recorded snap ∧ snap.updateVersion ≤ state.updateNumber)
    (sorted : durable.Pairwise fun newer older => older.updateVersion ≤ newer.updateVersion)
    (last : state.lastSnapshot ∈ durable) :
    Versions { state with durable := durable, failed := true } :=
  { versions with
    application := fun app run =>
      (versions.application app run).of (fun _ => id) fun covers => { covers with }
    recorded := recorded
    sorted := sorted
    last := last
    newest := by rintro ⟨⟩ }

theorem Versions.startUpdate : Versions { state with updateNumber := state.updateNumber + 1 } :=
  { versions with
    segments := fun seg mem =>
      (versions.segments seg mem).mono (Nat.le_succ _) le_rfl
    bounded := versions.bounded.trans (Nat.le_succ _)
    application := fun app run =>
      (versions.application app run).of (fun _ => id) fun covers =>
        { covers with limited := covers.limited.trans (Nat.le_succ _) }
    recorded := fun snap mem =>
      (versions.recorded snap mem).imp_right fun below => below.trans (Nat.le_succ _) }

theorem Versions.register (dated : Dated state.updateNumber state.bound seg)
    (covered : ∀ app, state.application = some app → seg.segId ∈ app.segs →
      ∀ version ∈ seg.applied, version ≤ seg.maxVersion) :
    Versions { state with segments := state.segments ++ [seg] } :=
  { versions with
    segments := forall_mem_append.mpr ⟨versions.segments, forall_mem_singleton.mpr dated⟩
    application := by
      intro app run
      refine (versions.application app run).of (fun _ => id) fun covers => { covers with
        applied := ?_ }
      intro other mem captured version reflected
      rcases mem_append.mp mem with old | new
      · exact covers.applied other old captured version reflected
      · rw [mem_singleton.mp new] at captured reflected ⊢
        exact (covered app run captured version reflected).trans (le_max_left _ _) }

theorem Versions.repend {application : Option DeleteApplication}
    {pendingDeletes : List SortedDeletes} {preparedDeleteVersion : Nat} {retired : List Nat}
    (grows : state.bound ≤ max (max state.durableUpdateVersion preparedDeleteVersion)
      (getLargestVersion pendingDeletes)) (bounded : preparedDeleteVersion ≤ state.updateNumber ∧
      getLargestVersion pendingDeletes ≤ state.updateNumber)
    (prepared : ∀ version ∈ retired, version ≤ preparedDeleteVersion)
    (applies : ∀ app, application = some app → Applies { state with
      pendingDeletes := pendingDeletes
      preparedDeleteVersion := preparedDeleteVersion } app) :
    Versions { state with
      pendingDeletes := pendingDeletes
      preparedDeleteVersion := preparedDeleteVersion
      retired := retired
      application := application } :=
  { versions with
    segments := fun seg mem => (versions.segments seg mem).mono le_rfl grows
    bounded := max_le (max_le versions.bounds.1.1 bounded.1) bounded.2
    retired := prepared
    application := fun app run =>
      (applies app run).of (fun _ => id) fun covers => { covers with } }

theorem Versions.flush {flushed : Flush} (acted : state.flush segId flushed = some next) :
    Versions next := by
  obtain ⟨-, sound, rfl⟩ := flush_some acted
  simp only [Flush.sound, Bool.and_eq_true, all_eq_true, decide_eq_true_eq,
    contains_eq_mem] at sound
  obtain ⟨⟨⟨taken, births⟩, applied⟩, deletes⟩ := sound
  have bounded := versions.bounds
  have pended : Versions { state with
      pendingDeletes := state.pendingDeletes ++ flushed.deletes.toList } := by
    refine versions.repend ?_ ⟨bounded.1.2, ?_⟩ versions.retired ?_
    · apply max_le_max le_rfl
      apply getLargestVersion_le
      exact fun packet mem => le_getLargestVersion (mem_append_left _ mem)
    · apply getLargestVersion_le
      intro packet mem
      rcases mem_append.mp mem with old | new
      · exact (le_getLargestVersion old).trans bounded.2
      · rw [Option.mem_toList] at new
        rw [new] at deletes
        exact taken _ (by simpa using deletes)
    · intro app run
      apply (versions.application app run).of (fun _ => mem_append_left _)
      exact fun covers => { covers with }
  have own : ∀ version ∈ flushed.applied, version ≤ maxVersionOf flushed.versions :=
    fun version mem => le_maxVersionOf (applied version mem)
  have dated : Dated state.updateNumber (bound { state with
      pendingDeletes := state.pendingDeletes ++ flushed.deletes.toList })
      (flushed.segment segId) := {
    births := fun birth mem => le_maxVersionOf (births birth mem)
    limited := foldl_max_le (fun version => version) _ 0 (Nat.zero_le _) taken
    applied := fun version mem => (own version mem).trans (le_max_left _ _)
    carried := fun packet mem => absurd mem not_mem_nil }
  exact (pended.register dated fun _ _ _ => own).aside

theorem Versions.reapply (applies : Applies state app) :
    Versions { state with application := some app } :=
  { versions with
    application := by
      intro other run
      cases run
      exact applies.of (fun _ => id) fun covers => { covers with } }

theorem Versions.pinSnapshot (applies : Applies state app) : Versions (state.pinSnapshot app) :=
  (versions.reapply applies).modify (fun seg => !seg.condemned)
    (fun seg => { seg with preparationPins := seg.preparationPins + 1 })

theorem Versions.beginCommit {updateVersion : Nat} {publishOnly : Bool}
    (acted : state.beginCommit updateVersion publishOnly = some next) : Versions next := by
  obtain ⟨-, -, below, rfl⟩ := beginCommit_some acted
  have reaches : state.bound ≤ max (max state.durableUpdateVersion state.preparedDeleteVersion)
      (max updateVersion (getLargestVersion state.pendingDeletes)) :=
    max_le_max le_rfl (le_max_right _ _)
  apply versions.pinSnapshot
  exact {
    pending := fun _ _ packet mem => mem
    among := fun packet mem => mem_append_left _ mem
    commit := fun _ _ => {
      selected := by
        intro packet mem
        rcases mem_append.mp mem with pending | carried
        · exact (pending_le_bound pending).trans reaches
        · obtain ⟨seg, registered, carries⟩ := mem_flatMap.mp carried
          have here := mem_of_mem_filter registered
          exact ((versions.segments seg here).carried packet carries).trans reaches
      applied := fun seg mem _ version reflected =>
        ((versions.segments seg mem).applied version reflected).trans (max_le_max le_rfl reaches)
      prepared := (le_max_right _ _).trans (le_max_left _ _)
      durable := (le_max_left _ _).trans (le_max_left _ _)
      limited := by
        obtain ⟨settled, pending⟩ := versions.bounds
        exact max_le (max_le_iff.mpr settled) (max_le below pending) } }

/-- The deletes of the application are in the bound, and those of a commit in its version. -/
theorem Versions.applyDeletes {deleted : Nat}
    (acted : state.applyDeletes segId deleted = some next) : Versions next := by
  obtain ⟨app, run, applying, -, rfl⟩ := applyDeletes_some acted
  have applies := versions.application app run
  have left := applies.pending (by rw [applying]; decide) (by rw [applying]; decide)
  -- what the segment reflects after the step was reflected before or is one of the deletes
  have reflects : ∀ (seg : SegInfo), ∀ version ∈ (deleteFrom app deleted seg).applied,
      version ∈ seg.applied ∨ ∃ packet ∈ app.selected, packet.largestVersion = version ∧
        (packet ∈ state.pendingDeletes ∨ packet ∈ seg.personalDeletes) := by
    intro seg version mem
    rcases mem_append.mp mem with old | new
    · exact .inl old
    obtain ⟨packet, listed, rfl⟩ := mem_map.mp new
    refine .inr ⟨packet, ?_, rfl, ?_⟩
    all_goals rcases mem_append.mp listed with batch | personal
    · exact applies.among packet batch
    · simpa using (mem_filter.mp personal).2
    · exact .inl (left packet batch)
    · exact .inr (mem_of_mem_filter personal)
  exact { versions with
    segments := by
      intro after mem
      obtain ⟨before, here, rfl⟩ := List.mem_map.mp mem
      have dated := versions.segments before here
      split
      · exact {
          births := dated.births
          limited := dated.limited
          applied := by
            intro version mem
            rcases reflects before version mem with old | ⟨packet, -, rfl, batch | personal⟩
            · exact dated.applied version old
            · exact (pending_le_bound batch).trans (le_max_right _ _)
            · exact (dated.carried packet personal).trans (le_max_right _ _)
          carried := dated.carried }
      · exact dated
    application := by
      intro other found
      have same : other = app := Option.some.inj (found.symm.trans run)
      subst same
      refine applies.of (fun _ => id) fun covers => { covers with applied := ?_ }
      intro after mem captured version
      obtain ⟨before, here, rfl⟩ := List.mem_map.mp mem
      have early := covers.applied before here
      split at captured
      · rename_i chosen
        rw [if_pos chosen]
        intro reflected
        rcases reflects before version reflected with old | ⟨packet, selected, rfl, -⟩
        · exact early captured version old
        · exact (covers.selected packet selected).trans (le_max_right _ _)
      · rename_i other
        rw [if_neg other]
        exact early captured version }

theorem Versions.reconcileDeletes (acted : state.reconcileDeletes = some next) : Versions next := by
  obtain ⟨app, run, applying, rfl⟩ := reconcileDeletes_some acted
  have applies := versions.application app run
  have pending := applies.pending (by rw [applying]; decide) (by rw [applying]; decide)
  obtain ⟨change, carries, effect⟩ := reconcileAll_carries
    (fun seg mem => (versions.segments seg mem).carried)
    (fun packet mem => pending_le_bound (pending packet mem)) app.segs
  have kept := versions.resegment (state.segments.map change) (forall_mem_map.mpr (by
    intro seg mem
    obtain ⟨deletes, same, allowed⟩ := carries seg mem
    rw [same]
    exact ⟨seg, mem, ⟨rfl, rfl, rfl, rfl⟩, allowed⟩))
  have stays := kept.application app run
  rw [effect]
  apply kept.reapply
  exact {
    pending := fun _ _ => pending
    among := applies.among
    commit := fun commits _ => { stays.commit commits (.inl applying) with } }

end

section
variable (versions : Versions state)
include versions

theorem Versions.publish (usable : state.failed = false) {infos : List SegmentInfo}
    {version schema : Nat} {prepared : List Nat}
    (records : Recorded ⟨state.nextManifestGen + 1, version, state.lastSegId, schema, infos,
      prepared⟩) (newer : state.durableUpdateVersion ≤ version)
    (limited : version ≤ state.updateNumber)
    (settled : outcome = .published → ∀ app, state.application = some app →
      app.phase = .published ∨ version = state.durableUpdateVersion) :
    Versions (state.publish infos version schema prepared outcome) := by
  have recorded : ∀ snap ∈ (⟨state.nextManifestGen + 1, version, state.lastSegId, schema,
      infos, prepared⟩ : Snapshot) :: state.durable,
      Recorded snap ∧ snap.updateVersion ≤ state.updateNumber :=
    forall_mem_cons.mpr ⟨⟨records, limited⟩, versions.recorded⟩
  have older : ∀ snap ∈ state.durable, snap.updateVersion ≤ version :=
    fun snap mem => (versions.newest usable snap mem).trans newer
  cases outcome with
  | unwritten => exact versions.aside
  | failed durable =>
    cases durable with
    | false =>
      exact (versions.fail state.durable versions.recorded versions.sorted versions.last).aside
    | true =>
      exact (versions.fail _ recorded (pairwise_cons.mpr ⟨older, versions.sorted⟩)
        (mem_cons_of_mem _ versions.last)).aside
  | published =>
    have mapped := versions.remap (publishSegment infos) fun seg => by
      unfold publishSegment
      split <;> exact ⟨⟨rfl, rfl, rfl, rfl⟩, rfl⟩
    have bounded := versions.bounds
    exact {
      segments := fun seg mem => (mapped.segments seg mem).mono le_rfl
        (max_le_max (max_le_max newer le_rfl) le_rfl)
      bounded := max_le (max_le limited bounded.1.2) bounded.2
      retired := versions.retired
      application := by
        intro app run
        have applies := mapped.application app run
        exact { applies with
          commit := by
            intro commits hidden
            have covers := applies.commit commits hidden
            rcases settled rfl app run with done | same
            · rw [done] at hidden
              simp at hidden
            · exact { covers with durable := same.le.trans covers.durable } }
      recorded := recorded
      sorted := pairwise_cons.mpr ⟨older, versions.sorted⟩
      last := mem_cons_self
      current := rfl
      newest := fun _ => forall_mem_cons.mpr ⟨le_rfl, older⟩ }

theorem Versions.commit_recorded (covers : Covers state app) (gen lastSegId schema : Nat) :
    Recorded ⟨gen, state.commitVersion app, lastSegId, schema, (state.segsToKeep app).map
      SegInfo.toSegmentInfo, state.retired ++ app.selected.map SortedDeletes.largestVersion⟩ := by
  obtain ⟨above, reaches⟩ := le_foldl_max (fun seg : SegInfo => seg.maxVersion)
    (state.segsToKeep app) app.highestUpdateVersion
  have kept : ∀ seg ∈ state.segsToKeep app, seg ∈ state.segments ∧ seg.segId ∈ app.segs := by
    intro seg mem
    obtain ⟨here, chosen⟩ := mem_filter.mp mem
    simp only [Bool.and_eq_true, decide_eq_true_eq] at chosen
    exact ⟨here, chosen.1⟩
  constructor
  · refine forall_mem_map.mpr fun seg keeps => ?_
    exact (versions.segments seg (kept seg keeps).1).births
  · refine forall_mem_map.mpr fun seg keeps => ?_
    exact reaches seg keeps
  · intro info mem version reflected
    obtain ⟨seg, keeps, rfl⟩ := mem_map.mp mem
    calc version ≤ max seg.maxVersion app.highestUpdateVersion :=
          covers.applied seg (kept seg keeps).1 (kept seg keeps).2 version reflected
      _ ≤ state.commitVersion app := max_le (reaches seg keeps) above
  · intro version mem
    rcases mem_append.mp mem with gone | chosen
    · calc version ≤ state.preparedDeleteVersion := versions.retired version gone
        _ ≤ app.highestUpdateVersion := covers.prepared
        _ ≤ state.commitVersion app := above
    · obtain ⟨packet, selected, rfl⟩ := mem_map.mp chosen
      exact (covers.selected packet selected).trans above

theorem Versions.publishCommit (acted : state.publishCommit outcome = some next) :
    Versions next := by
  obtain ⟨app, run, usable, commits, reconciled, effect⟩ := publishCommit_some acted
  have applies := versions.application app run
  have covers := applies.commit commits (.inr reconciled)
  have records := versions.commit_recorded covers
  have newer : state.durableUpdateVersion ≤ state.commitVersion app :=
    covers.durable.trans (le_foldl_max _ _ _).1
  have limited : state.commitVersion app ≤ state.updateNumber :=
    foldl_max_le _ _ _ covers.limited fun seg mem =>
      (versions.segments seg (mem_of_mem_filter mem)).limited
  rcases effect with ⟨-, rfl⟩ | ⟨stopped, rfl⟩
  · have closed : Versions { state with application := some { app with phase := .published } } :=
      versions.reapply {
        pending := fun _ _ => applies.pending (by rw [reconciled]; decide)
          (by rw [reconciled]; decide)
        among := applies.among
        commit := fun _ hidden => by simp at hidden }
    change Versions (State.publish { state with
      application := some { app with phase := .published } } _ _ _ _ .published)
    apply closed.publish usable (records _ _ _) newer limited
    intro _ other found
    cases found
    exact .inl rfl
  · exact versions.publish usable (records _ _ _) newer limited fun done => absurd done stopped

theorem Versions.retirePending (acted : state.retirePending = some next) : Versions next := by
  obtain ⟨app, run, -, rfl⟩ := retirePending_some acted
  have bounded := versions.bounds
  have below : ∀ chosen : SortedDeletes → Bool,
      getLargestVersion (state.pendingDeletes.filter chosen) ≤ state.updateNumber :=
    fun chosen => getLargestVersion_le fun packet mem =>
      (le_getLargestVersion (mem_of_mem_filter mem)).trans bounded.2
  have leaves : ∀ packet ∈ state.pendingDeletes.filter (retires app), packet.largestVersion ≤
      max state.preparedDeleteVersion
        (getLargestVersion (state.pendingDeletes.filter (retires app))) :=
    fun packet mem => (le_getLargestVersion mem).trans (le_max_right _ _)
  refine versions.repend ?_ ⟨max_le bounded.1.2 (below _), below _⟩ ?_ ?_
  · apply max_le
    · exact (max_le_max le_rfl (le_max_left _ _)).trans (le_max_left _ _)
    apply getLargestVersion_le
    intro packet mem
    by_cases leaving : retires app packet = true
    · exact (leaves packet (mem_filter.mpr ⟨mem, leaving⟩)).trans
        ((le_max_right _ _).trans (le_max_left _ _))
    · have stays : packet ∈ state.pendingDeletes.filter fun packet => !retires app packet :=
        mem_filter.mpr ⟨mem, by simpa using leaving⟩
      exact (le_getLargestVersion stays).trans (le_max_right _ _)
  · intro version mem
    rcases mem_append.mp mem with old | new
    · exact (versions.retired version old).trans (le_max_left _ _)
    · obtain ⟨packet, leaving, rfl⟩ := mem_map.mp new
      exact leaves packet leaving
  · intro other found
    cases found
    exact {
      pending := fun unretired => absurd rfl unretired
      among := (versions.application app run).among
      commit := fun _ hidden => by simp at hidden }

end

theorem swapOut_dates (merge : Merge) (seg : SegInfo) : SameDates seg (swapOut merge seg) ∧
      (swapOut merge seg).personalDeletes = seg.personalDeletes := by
  unfold swapOut
  split
  · exact ⟨⟨rfl, rfl, rfl, rfl⟩, rfl⟩
  · split <;> exact ⟨⟨rfl, rfl, rfl, rfl⟩, rfl⟩

theorem Versions.output_dated (versions : Versions state) {merge : Merge}
    (births : ∀ birth ∈ output.births, ∃ seg ∈ state.mergedSources merge, birth ∈ seg.births) :
    Dated state.updateNumber state.bound
      (outputSegment output merge (state.mergedSources merge)) := by
  have dated : ∀ seg ∈ state.mergedSources merge, Dated state.updateNumber state.bound seg :=
    fun seg mem => versions.segments seg (mem_of_mem_filter mem)
  have reaches := (le_foldl_max (fun seg : SegInfo => seg.maxVersion)
    (state.mergedSources merge) 0).2
  constructor
  · intro birth mem
    obtain ⟨seg, source, born⟩ := births birth mem
    exact ((dated seg source).births birth born).trans (reaches seg source)
  · exact foldl_max_le _ _ _ (Nat.zero_le _) fun seg mem => (dated seg mem).limited
  · intro version mem
    obtain ⟨seg, source, reflected⟩ := mem_flatMap.mp mem
    exact ((dated seg source).applied version reflected).trans
      (max_le_max (reaches seg source) le_rfl)
  · intro packet mem
    obtain ⟨seg, source, carried⟩ := mem_flatMap.mp mem
    exact (dated seg source).carried packet carried

theorem Versions.swap (versions : Versions state) (ids : Ids state)
    (acted : state.swap output = some next) : Versions next := by
  obtain ⟨merge, run, -, births, rfl⟩ := swap_some acted
  have swapped := versions.remap (swapOut merge) (swapOut_dates merge)
  split
  · -- an id that was captured is one of a segment, and the output's is fresh
    have registered := swapped.register (versions.output_dated births) fun app applying captured =>
      absurd (ids.captured app applying _ captured) (ids.output run)
    exact registered.aside
  · rw [append_nil]
    exact swapped.aside

theorem Versions.opened {snap : Snapshot} {durable : List Snapshot} (names : List Nat)
    (gen : Nat) (recorded : ∀ snap ∈ durable, Recorded snap)
    (sorted : durable.Pairwise fun newer older => older.updateVersion ≤ newer.updateVersion)
    (mem : snap ∈ durable) (newest : ∀ older ∈ durable, older.updateVersion ≤ snap.updateVersion) :
    Versions (opened snap durable names gen) where
  segments := by
    refine forall_mem_map.mpr fun info listed => ?_
    have records := recorded snap mem
    exact {
      births := records.births info listed
      limited := records.versions info listed
      applied := fun version reflected => (records.applied info listed version reflected).trans
        (((le_max_left _ _).trans (le_max_left _ _)).trans (le_max_right _ _))
      carried := fun packet carried => absurd carried not_mem_nil }
  bounded := max_le (max_le le_rfl (Nat.zero_le _)) (Nat.zero_le _)
  retired := fun version gone => absurd gone not_mem_nil
  application := by rintro app ⟨⟩
  recorded := fun older listed => ⟨recorded older listed, newest older listed⟩
  sorted := sorted
  last := mem
  current := rfl
  newest := fun _ => newest

theorem Versions.reopen (versions : Versions state) {manifestNames : List Nat}
    {highestGeneration : Nat}
    (acted : state.reopen manifestNames highestGeneration = some next) : Versions next := by
  obtain ⟨snap, older, newest, -, -, rfl⟩ := reopen_some acted
  have mem := newest ▸ mem_cons_self
  apply Versions.opened _ _ (fun older listed => (versions.recorded older listed).1)
    versions.sorted mem
  intro other listed
  have sorted := versions.sorted
  rw [newest] at sorted listed
  rcases mem_cons.mp listed with rfl | old
  · exact le_rfl
  · exact (pairwise_cons.mp sorted).1 other old

theorem Versions.act (versions : Versions state) (ids : Ids state) {event : Event}
    (acted : state.act event = some next) : Versions next := by
  unfold State.act at acted
  cases event with
  | startUpdate =>
    dsimp only at acted
    split at acted <;> cases acted
    exact versions.startUpdate
  | obtainInverter =>
    cases acted
    exact versions.aside
  | flush => exact versions.flush acted
  | abortFlush =>
    obtain rfl := abortFlush_some acted
    exact versions.aside
  | beginCommit => exact versions.beginCommit acted
  | beginDeletePass =>
    obtain ⟨-, app, passes, -, pending, among, -, rfl⟩ := beginDeletePass_some acted
    exact versions.pinSnapshot {
      pending := fun _ _ => pending
      among := among
      commit := fun commits => absurd (passes.symm.trans commits) Bool.false_ne_true }
  | applyDeletes => exact versions.applyDeletes acted
  | reconcileDeletes => exact versions.reconcileDeletes acted
  | buildOverlay segId built =>
    obtain ⟨app, -, -, rfl⟩ := buildOverlay_some acted
    exact versions.modify _ (overlaid built)
  | publishCommit => exact versions.publishCommit acted
  | retirePending => exact versions.retirePending acted
  | moveEmptied =>
    obtain ⟨app, run, -, rfl⟩ := moveEmptied_some acted
    have moved : Versions { state with application := some { app with phase := .moved } } :=
      versions.reapply {
        pending := fun _ unmoved => absurd rfl unmoved
        among := (versions.application app run).among
        commit := fun _ hidden => by simp at hidden }
    exact moved.modify (emptied app) (fun seg => { seg with condemned := true })
  | unpin =>
    obtain ⟨app, -, rfl⟩ := unpin_some acted
    have ended : Versions { state with application := none } :=
      { versions with application := by rintro _ ⟨⟩ }
    exact ended.modify (fun seg => seg.segId ∈ app.segs)
      (fun seg => { seg with preparationPins := seg.preparationPins - 1 })
  | updateSchema =>
    obtain ⟨usable, -, rfl⟩ := updateSchema_some acted
    obtain ⟨records, limited⟩ := versions.recorded _ versions.last
    have raised : Versions { state with nextSchemaVersion := state.nextSchemaVersion + 1 } :=
      versions.aside
    exact raised.publish usable { records with } versions.current.ge limited
      fun _ _ _ => .inr versions.current
  | tryDeleteSegments =>
    obtain rfl := tryDeleteSegments_some acted
    have rest := versions.resegment ((state.segments.filter fun seg => !state.deletable seg).map
      collectObsoleteLiveDocs) (by
        refine forall_mem_map.mpr fun before stays => ?_
        have here := mem_of_mem_filter stays
        exact ⟨before, here, ⟨rfl, rfl, rfl, rfl⟩, (versions.segments before here).carried⟩)
    exact rest.aside
  | startMerge chosen =>
    obtain ⟨-, -, rfl⟩ := startMerge_some acted
    exact (versions.modify (fun seg => !seg.condemned && decide (seg.segId ∈ chosen))
      (fun seg => { seg with merging := true, mergedLiveGen := some seg.liveGen })).aside
  | pinDiff =>
    obtain ⟨merge, -, rfl⟩ := pinDiff_some acted
    exact (versions.modify (fun seg => merges merge seg.segId)
      (fun seg => { seg with mergeDiffLiveGen := some seg.liveGen })).aside
  | coverDiff =>
    obtain ⟨merge, -, rfl⟩ := coverDiff_some acted
    exact versions.aside
  | swap => exact versions.swap ids acted
  | failMerge =>
    obtain ⟨merge, -, rfl⟩ := failMerge_some acted
    exact (versions.modify (fun seg => merges merge seg.segId) givenBack).aside
  | reopen => exact versions.reopen acted

end

theorem initial_versions : Versions State.initial := by
  have records : Recorded ⟨1, 0, 0, 1, [], []⟩ := by
    constructor <;> exact fun _ mem => absurd mem not_mem_nil
  apply Versions.opened
  · intro snap mem
    rw [mem_singleton] at mem
    exact mem ▸ records
  · exact pairwise_singleton _ _
  · exact mem_singleton_self _
  · intro older mem
    rw [mem_singleton] at mem
    exact mem ▸ le_rfl

/-- Every durable commit records a version that covers the births in its segments and the deletes
that were applied or prepared for it, and is not below an earlier one, so an update gets a version
above them all, before and after a restart. -/
theorem commit_versions_cover {events : List Event} (ran : State.initial.run events = some state) :
    (∀ snapshot ∈ state.durable, (∀ info ∈ snapshot.segments, (∀ birth ∈ info.births, birth ≤
        snapshot.updateVersion) ∧ ∀ version ∈ info.applied, version ≤ snapshot.updateVersion) ∧
      ∀ version ∈ snapshot.prepared, version ≤ snapshot.updateVersion) ∧
    state.durable.Pairwise (fun newer older => older.updateVersion ≤ newer.updateVersion) ∧
    ∀ next, state.act .startUpdate = some next → ∀ snapshot ∈ state.durable,
      snapshot.updateVersion < next.updateNumber := by
  have both :=
    Lib.Runs.always (fun kept acted => And.intro (kept.1.act acted) (kept.2.act kept.1 acted))
      (And.intro initial_ids initial_versions) ran
  have versions := both.2
  refine ⟨?_, versions.sorted, ?_⟩
  · intro snapshot member
    obtain ⟨records, -⟩ := versions.recorded snapshot member
    refine ⟨?_, records.prepared⟩
    intro info listed
    refine ⟨?_, records.applied info listed⟩
    intro birth born
    calc birth ≤ info.maxVersion := records.births info listed birth born
      _ ≤ snapshot.updateVersion := records.versions info listed
  · intro next acted snapshot member
    simp only [State.act, Option.ite_none_left_eq_some, Option.some.injEq] at acted
    obtain ⟨-, rfl⟩ := acted
    exact Nat.lt_succ_of_le (versions.recorded snapshot member).2

/-- Two documents, a delete of one of them in a later flush, a commit and a restart. -/
def restart : List Event :=
  [.startUpdate, .startUpdate, .obtainInverter, .flush 1 ⟨[1, 2], [1, 2], [], 2, 0, 1, none⟩,
    .startUpdate, .obtainInverter, .flush 2 ⟨[3], [3], [], 1, 0, 1, some ⟨0, 3⟩⟩,
    .beginCommit 2 false, .applyDeletes 1 1, .reconcileDeletes, .publishCommit .published,
    .retirePending, .moveEmptied, .unpin, .startUpdate, .reopen [2] 2]

theorem commit_versions_cover_restart : ∃ state, State.initial.run restart = some state ∧
    state.durable.map Snapshot.updateVersion = [3, 0] ∧
    ∀ next, state.act .startUpdate = some next → ∀ snapshot ∈ state.durable,
      snapshot.updateVersion < next.updateNumber := by
  have versions : (State.initial.run restart).map (fun state =>
      state.durable.map Snapshot.updateVersion) = some [3, 0] := by decide
  obtain ⟨state, ran, same⟩ := Option.map_eq_some_iff.mp versions
  exact ⟨state, ran, same, (commit_versions_cover ran).2.2⟩

end Luxir.Index.SegmentWriter
