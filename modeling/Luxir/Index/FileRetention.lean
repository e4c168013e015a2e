import Luxir.Index.RetentionSteps

/-!
Retention of files over the runs of the writer. A publication lets go of what the last commit had
and the new one has not, unless the writer still owns it; a sweep hands over what is let go of, the
generations that nothing holds and the segments that nothing uses. Neither reaches a file that the
published commit, a merge or a commit under way refers to.
-/

namespace Luxir.Index.SegmentWriter
open State List Nat

variable {state next : State} {seg : SegInfo} {snap : Snapshot} {file : File}
  {outcome : Outcome} {gen : Nat}

section

theorem overlay_mem_filesOf (listed : ∀ info ∈ snap.segments, Listed info) {segId : Nat} :
    File.overlay segId gen ∈ filesOf snap ↔
      ∃ info ∈ snap.segments, info.segId = segId ∧ gen ∈ info.overlays := by
  simp only [filesOf, mem_append, mem_flatMap, mem_singleton, reduceCtorEq,
    or_false, SegmentInfo.overlayFiles, mem_map, File.overlay.injEq]
  constructor
  · rintro ⟨info, mem, file | ⟨other, here, same, rfl⟩⟩
    · rcases (listed info mem).files _ file with ⟨part, data⟩ | live
      · cases data
      · cases live
    · exact ⟨info, mem, same, here⟩
  · rintro ⟨info, mem, same, here⟩
    exact ⟨info, mem, .inr ⟨gen, here, same, rfl⟩⟩

variable {infos : List SegmentInfo}

theorem publishSegment_mem (nodup : (infos.map SegmentInfo.segId).Nodup) {info : SegmentInfo}
    (mem : info ∈ infos) (same : seg.segId = info.segId) :
    publishSegment infos seg = { seg with publishedLiveGen := info.liveGen } := by
  unfold publishSegment
  split
  · rename_i other found
    have here := mem_of_find?_eq_some found
    have eq : other.segId = seg.segId := by simpa using find?_some found
    rw [inj_on_of_nodup_map nodup here mem (eq.trans same)]
  · rename_i gone
    have differs := find?_eq_none.mp gone info mem
    simp [same] at differs

theorem publishSegment_absent (gone : ∀ info ∈ infos, info.segId ≠ seg.segId) :
    publishSegment infos seg = seg := by
  unfold publishSegment
  split
  · rename_i other found
    have eq : other.segId = seg.segId := by simpa using find?_some found
    exact absurd eq (gone other (mem_of_find?_eq_some found))
  · rfl

/-- Segments as a publication may list them: owned ones with a generation that is held, together
with every overlay that is still in use. -/
structure Publishable (state : State) (infos : List SegmentInfo) : Prop where
  nodup : (infos.map SegmentInfo.segId).Nodup
  owned : ∀ info ∈ infos, ∃ seg ∈ state.segments, seg.segId = info.segId ∧
    (info.liveGen = seg.liveGen ∨ info.liveGen = seg.publishedLiveGen) ∧
    ∀ gen ∈ info.overlays, gen ∈ seg.overlays
  listed : ∀ info ∈ infos, Listed info
  present : ∀ info ∈ infos, ∀ gen ∈ info.overlays, ¬ Gone state (.overlay info.segId gen)
  dropped : ∀ info ∈ state.lastSnapshot.segments, ∀ gen ∈ info.overlays,
    (∀ other ∈ infos, other.segId = info.segId → gen ∉ other.overlays) →
    ∀ seg ∈ state.segments, seg.segId = info.segId →
      seg.liveDocs = 0 ∨ seg.condemned = true ∧ seg.segId ∉ state.captured
  captured : ∀ app, state.application = some app → app.commits = true →
    ∀ info ∈ infos, ∀ seg ∈ state.segments, seg.segId = info.segId →
      seg.condemned = true ∨ seg.segId ∈ app.segs

/-- What a publication does to a segment: it holds the generation that is published. -/
theorem Publishable.segment (publishable : Publishable state infos) (ids : Ids state)
    (mem : seg ∈ state.segments) :
    ∃ gen, publishSegment infos seg = { seg with publishedLiveGen := gen } ∧
      (gen = seg.liveGen ∨ gen = seg.publishedLiveGen) := by
  by_cases listed : ∃ info ∈ infos, info.segId = seg.segId
  · obtain ⟨info, here, same⟩ := listed
    refine ⟨info.liveGen, publishSegment_mem publishable.nodup here same.symm, ?_⟩
    obtain ⟨owner, owned, eq, held, -⟩ := publishable.owned info here
    rwa [ids.unique owned mem (eq.trans same)] at held
  · refine ⟨seg.publishedLiveGen, publishSegment_absent ?_, .inr rfl⟩
    exact fun info here same => listed ⟨info, here, same⟩

theorem evolves_published (held : gen = seg.liveGen ∨ gen = seg.publishedLiveGen) :
    Evolves seg { seg with publishedLiveGen := gen } :=
  { Evolves.refl seg with
    released := by
      intro other old free
      rw [keepsGen_eq_false] at free ⊢
      refine ⟨free.1, ?_, free.2.2⟩
      rcases held with rfl | rfl
      · exact free.1
      · exact free.2.1 }

variable (kept : Retention state)
include kept

theorem Retention.obsolete_gone (publishable : Publishable state infos)
    (lists : snap.segments = infos) (obsolete : file ∈ obsoleteFiles state snap) :
    (∃ segId gen, file = .overlay segId gen ∧ .overlay segId gen ∉ filesOf snap ∧
      ∃ seg ∈ state.segments, seg.segId = segId ∧ gen < seg.nextOverlayGen ∧
        (seg.liveDocs = 0 ∨ seg.condemned = true ∧ segId ∉ state.captured)) ∨
    file = .schema state.lastSnapshot.schema ∧ snap.schema ≠ state.lastSnapshot.schema := by
  simp only [obsoleteFiles, mem_filter, Bool.and_eq_true, Bool.not_eq_true',
    contains_eq_mem, decide_eq_false_iff_not, mem_flatMap, not_exists, not_and,
    decide_eq_true_eq, mem_map] at obsolete
  obtain ⟨listed, unretained, dropped⟩ := obsolete
  rw [filesOf, mem_append, mem_flatMap, mem_singleton] at listed
  rcases listed with ⟨info, mem, file⟩ | rfl
  · obtain ⟨seg, owned, publishes⟩ := kept.published info mem
    rcases mem_append.mp file with data | overlay
    · exact absurd data (unretained info ⟨mem, seg, owned, publishes.segId⟩)
    obtain ⟨gen, here, rfl⟩ := mem_map.mp overlay
    refine .inl ⟨info.segId, gen, rfl, dropped, seg, owned, publishes.segId, ?_, ?_⟩
    · exact (kept.owned seg owned).listed.overlays gen (publishes.overlays gen here)
    rw [← publishes.segId]
    apply publishable.dropped info mem gen here _ seg owned publishes.segId
    intro other included same carries
    apply dropped
    rw [overlay_mem_filesOf (by rw [lists]; exact publishable.listed), lists]
    exact ⟨other, included, same, carries⟩
  · refine .inr ⟨rfl, ?_⟩
    intro same
    apply dropped
    rw [filesOf, mem_append, mem_singleton, same]
    exact .inr rfl

theorem Retention.publish (ids : Ids state) {version schema nextSchema : Nat} {prepared : List Nat}
    (publishable : Publishable state infos) (schemas : state.nextSchemaVersion ≤ nextSchema)
    (chosen : schema = state.lastSnapshot.schema ∨ state.nextSchemaVersion < schema)
    (bounded : schema ≤ nextSchema) :
    Retention (State.publish { state with nextSchemaVersion := nextSchema } infos version schema
      prepared outcome) := by
  have listed : ∀ snap ∈ (⟨state.nextManifestGen + 1, version, state.lastSegId, schema, infos,
      prepared⟩ : Snapshot) :: state.durable, ∀ info ∈ snap.segments, Listed info :=
    forall_mem_cons.mpr ⟨publishable.listed, kept.listed⟩
  have names : ∀ gen ∈ state.manifestNames ++ [state.nextManifestGen + 1],
      gen ≤ state.nextManifestGen + 1 :=
    forall_mem_append.mpr ⟨fun gen old => (kept.manifests gen old).trans (le_succ _),
      forall_mem_singleton.mpr le_rfl⟩
  cases outcome with
  | unwritten => exact kept.still (moves_same state) kept.listed (le_succ _) names schemas
  | failed durable =>
    refine kept.still (moves_same state) ?_ (le_succ _) names schemas
    cases durable with
    | false => exact kept.listed
    | true => exact listed
  | published =>
    have sameIds : (state.segments.map (publishSegment infos)).map (fun seg => seg.segId) =
        state.ids := by
      refine ids_map fun seg mem => ?_
      obtain ⟨gen, effect, -⟩ := publishable.segment ids mem
      rw [effect]
    have later : Later state (State.publish { state with nextSchemaVersion := nextSchema } infos
        version schema prepared .published) := {
      dead := by
        refine fun segId dead => Dead.later dead le_rfl fun id mem => .inl ?_
        rw [State.used, ← sameIds]
        exact mem
      segments := by
        intro seg mem
        obtain ⟨gen, effect, held⟩ := publishable.segment ids mem
        refine .inr ⟨publishSegment infos seg, mem_map_of_mem mem, ?_⟩
        rw [effect]
        exact evolves_published held
      captured := fun _ _ _ pinned => pinned
      overlays := by
        intro segId gen gone mem
        obtain ⟨info, included, rfl, carries⟩ := (overlay_mem_filesOf publishable.listed).mp mem
        exact publishable.present info included gen carries gone
      schemas := schemas
      schema := chosen
      manifests := le_succ _
      manifest := .inr (lt_succ_self _) }
    exact {
      owned := by
        refine forall_mem_map.mpr fun seg here => ?_
        obtain ⟨gen, effect, -⟩ := publishable.segment ids here
        rw [effect]
        exact { kept.owned seg here with }
      sources := by
        rw [State.ids]
        exact sameIds.symm ▸ kept.sources
      published := by
        intro info mem
        obtain ⟨seg, owned, same, -, overlays⟩ := publishable.owned info mem
        refine ⟨publishSegment infos seg, mem_map_of_mem owned, ?_⟩
        rw [publishSegment_mem publishable.nodup mem same]
        exact ⟨same, rfl, overlays⟩
      listed := listed
      captured := by
        intro app run commits info mem
        refine forall_mem_map.mpr fun seg owned => ?_
        obtain ⟨gen, effect, -⟩ := publishable.segment ids owned
        rw [effect]
        exact publishable.captured app run commits info mem seg owned
      manifest := le_rfl
      manifests := fun gen mem => (mem_singleton.mp mem).le
      schema := bounded
      gone := by
        intro file doomed
        rcases mem_append.mp doomed with waiting | handed
        · rcases mem_append.mp waiting with early | manifest
          · rcases mem_append.mp early with old | obsolete
            · exact (kept.gone file (mem_append_left _ old)).later later
            have lets := kept.obsolete_gone publishable rfl obsolete
            rcases lets with ⟨segId, gen, rfl, absent, seg, owned, same, old, unused⟩ |
              ⟨rfl, differs⟩
            · refine ⟨absent, .inr ⟨publishSegment infos seg, mem_map_of_mem owned, ?_⟩⟩
              obtain ⟨published, effect, -⟩ := publishable.segment ids owned
              rw [effect]
              exact ⟨same, old, unused⟩
            · exact ⟨kept.schema.trans schemas, differs.symm⟩
          · obtain ⟨gen, named, rfl⟩ := mem_map.mp manifest
            have below := kept.manifests gen named
            exact ⟨below.trans (le_succ _), (lt_succ_of_le below).ne⟩
        · exact (kept.gone file (mem_append_right _ handed)).later later }

theorem Retention.commit_publishable (ids : Ids state) (app : DeleteApplication)
    (run : state.application = some app) (commits : app.commits = true) :
    Publishable state ((state.segsToKeep app).map SegInfo.toSegmentInfo) := by
  have keeps : ∀ seg ∈ state.segsToKeep app, seg ∈ state.segments ∧ seg.segId ∈ app.segs ∧
      0 < seg.liveDocs := by
    intro seg mem
    obtain ⟨here, chosen⟩ := mem_filter.mp mem
    simp only [Bool.and_eq_true, decide_eq_true_eq] at chosen
    exact ⟨here, chosen⟩
  constructor
  · rw [map_map]
    exact (filter_sublist.map _).nodup ids.nodup
  · refine forall_mem_map.mpr fun seg included => ?_
    exact ⟨seg, (keeps seg included).1, rfl, .inl rfl, fun _ carries => carries⟩
  · refine forall_mem_map.mpr fun seg included => ?_
    exact (kept.owned seg (keeps seg included).1).listed
  · intro info mem gen _ gone
    obtain ⟨seg, included, rfl⟩ := mem_map.mp mem
    obtain ⟨owned, captured, populated⟩ := keeps seg included
    rcases gone.2 with dead | ⟨other, here, same, -, empty | ⟨-, free⟩⟩
    · exact dead.not_owned (mem_map.mpr ⟨seg, owned, rfl⟩)
    · rw [ids.unique here owned same] at empty
      exact populated.ne' empty
    · exact free (mem_captured.mpr ⟨app, run, captured⟩)
  · intro info mem gen carries absent seg owned same
    by_cases empty : seg.liveDocs = 0
    · exact .inl empty
    have populated : 0 < seg.liveDocs := Nat.pos_of_ne_zero empty
    have uncaptured : seg.segId ∉ app.segs := by
      intro captured
      have included : seg ∈ state.segsToKeep app :=
        mem_filter.mpr ⟨owned, by simp [captured, populated]⟩
      obtain ⟨owner, here, publishes⟩ := kept.published info mem
      have eq := ids.unique here owned (publishes.segId.trans same.symm)
      exact absent _ (mem_map_of_mem included) same (eq ▸ publishes.overlays gen carries)
    have condemned := (kept.captured app run commits info mem seg owned same).resolve_right
      uncaptured
    refine .inr ⟨condemned, ?_⟩
    intro pinned
    obtain ⟨other, found, held⟩ := mem_captured.mp pinned
    cases found.symm.trans run
    exact uncaptured held
  · intro other found _ info mem seg _ same
    cases found.symm.trans run
    obtain ⟨owner, included, rfl⟩ := mem_map.mp mem
    exact .inr (same ▸ (keeps owner included).2.1)

theorem Retention.publishCommit (ids : Ids state)
    (acted : state.publishCommit outcome = some next) : Retention next := by
  obtain ⟨app, run, -, commits, -, effect⟩ := publishCommit_some acted
  rcases effect with ⟨-, rfl⟩ | ⟨-, rfl⟩
  · have moved : Retention { state with application := some { app with phase := .published } } :=
      kept.still (moves_phase run _) kept.listed le_rfl kept.manifests le_rfl
    have sameIds : Ids { state with application := some { app with phase := .published } } :=
      ids.reapply run rfl
    change Retention (State.publish { state with
      application := some { app with phase := .published } } _ _ _ _ .published)
    exact moved.publish sameIds (moved.commit_publishable sameIds { app with phase := .published }
      rfl commits) le_rfl (.inl rfl) kept.schema
  · exact kept.publish ids (kept.commit_publishable ids app run commits) le_rfl (.inl rfl)
      kept.schema

theorem Retention.updateSchema (ids : Ids state) (acted : state.updateSchema outcome = some next) :
    Retention next := by
  obtain ⟨-, -, rfl⟩ := updateSchema_some acted
  have listed := kept.listed _ ids.last
  have publishable : Publishable state state.lastSnapshot.segments := {
    nodup := ids.snapshots _ ids.last
    owned := by
      intro info mem
      obtain ⟨seg, owned, publishes⟩ := kept.published info mem
      exact ⟨seg, owned, publishes.segId, .inr publishes.gen.symm, publishes.overlays⟩
    listed := listed
    present := by
      intro info mem gen carries gone
      exact gone.1 ((overlay_mem_filesOf listed).mpr ⟨info, mem, rfl, carries⟩)
    dropped := fun info mem gen carries absent => absurd carries (absent info mem rfl)
    captured := kept.captured }
  exact kept.publish ids publishable (le_succ _) (.inr (lt_succ_self _)) le_rfl

end

theorem deletable_some (taken : state.deletable seg = true) :
    seg.merging = false ∧ ∀ info ∈ state.lastSnapshot.segments, info.segId ≠ seg.segId := by
  simp only [deletable, Bool.and_eq_true, Bool.not_eq_true', contains_eq_mem,
    decide_eq_false_iff_not, mem_map, not_exists, not_and] at taken
  exact ⟨taken.1.1.2, taken.2⟩

theorem swept_dead (ids : Ids state) (mem : seg ∈ state.segments)
    (taken : state.deletable seg = true) : Dead state.swept seg.segId := by
  have owned : seg.segId ∈ state.ids := mem_map.mpr ⟨seg, mem, rfl⟩
  refine ⟨ids.names.2 _ (mem_append_left _ owned), fun stays => ?_⟩
  rcases mem_append.mp stays with listed | other
  · obtain ⟨after, listed, same⟩ := mem_map.mp listed
    obtain ⟨kept, rest, rfl⟩ := mem_map.mp listed
    obtain ⟨here, stayed⟩ := mem_filter.mp rest
    rw [ids.unique here mem same, taken] at stayed
    cases stayed
  · exact disjoint_of_nodup_append ids.names.1 owned other

theorem Retention.tryDeleteSegments (kept : Retention state) (ids : Ids state)
    (acted : state.tryDeleteSegments = some next) : Retention next := by
  obtain rfl := tryDeleteSegments_some acted
  have stays : ∀ seg ∈ state.segments, state.deletable seg = false →
      collectObsoleteLiveDocs seg ∈ state.swept.segments := by
    intro seg mem needed
    exact mem_map_of_mem (mem_filter.mpr ⟨mem, by rw [needed]; rfl⟩)
  have later : Later state state.swept := by
    refine Later.unpublished ?_ ?_ (fun _ _ _ pinned => pinned) rfl rfl rfl
    · refine fun segId dead => Dead.later dead le_rfl fun id mem => .inl ?_
      rcases mem_append.mp mem with owned | other
      · obtain ⟨after, listed, rfl⟩ := mem_map.mp owned
        obtain ⟨seg, rest, rfl⟩ := mem_map.mp listed
        exact mem_append_left _ (mem_map.mpr ⟨seg, mem_of_mem_filter rest, rfl⟩)
      · exact mem_append_right _ other
    · intro seg mem
      cases taken : state.deletable seg with
      | true => exact .inl (swept_dead ids mem taken)
      | false => exact .inr ⟨_, stays seg mem taken, { Evolves.refl seg with }⟩
  exact { kept with
    owned := by
      refine forall_mem_map.mpr fun seg listed => ?_
      have owned := kept.owned seg (mem_of_mem_filter listed)
      exact { owned with
        obsolete := fun gen here => owned.obsolete gen (mem_of_mem_filter here) }
    sources := by
      -- a source is marked as merging, and such a segment is not taken
      intro merge run source mem
      obtain ⟨seg, here, same⟩ := mem_map.mp (kept.sources merge run source mem)
      have merging : seg.merging = true := by
        rw [(kept.owned seg here).merging, show state.merge = some merge from run,
          Option.any_some, merges_eq_true]
        exact ⟨source, mem, same.symm⟩
      have needed : state.deletable seg = false := by
        by_contra taken
        rw [(deletable_some (Bool.not_eq_false _ ▸ taken)).1] at merging
        cases merging
      exact mem_map.mpr ⟨_, stays seg here needed, same⟩
    published := by
      intro info mem
      obtain ⟨seg, here, publishes⟩ := kept.published info mem
      have needed : state.deletable seg = false := by
        by_contra taken
        exact (deletable_some (Bool.not_eq_false _ ▸ taken)).2 info mem publishes.segId.symm
      exact ⟨_, stays seg here needed, { publishes with }⟩
    captured := by
      intro app run commits info listed
      exact forall_mem_map.mpr fun seg here =>
        kept.captured app run commits info listed seg (mem_of_mem_filter here)
    gone := by
      intro file doomed
      have old : file ∈ state.pendingRetirement ++ state.handed → Gone _ file :=
        fun doomed => (kept.gone file doomed).later later
      rcases mem_append.mp (nil_append _ ▸ doomed) with handed | new
      · exact old (mem_append_right _ handed)
      rcases mem_append.mp new with early | segment
      · rcases mem_append.mp early with waiting | generation
        · exact old (mem_append_left _ waiting)
        obtain ⟨seg, listed, obsolete⟩ := mem_flatMap.mp generation
        obtain ⟨gen, chosen, rfl⟩ := mem_map.mp obsolete
        obtain ⟨here, free⟩ := mem_filter.mp chosen
        have mem := mem_of_mem_filter listed
        exact .inr ⟨_, mem_map_of_mem listed, rfl,
          (kept.owned seg mem).obsolete gen here, Bool.not_eq_true' _ ▸ free⟩
      · obtain ⟨seg, listed, names⟩ := mem_flatMap.mp segment
        obtain ⟨mem, taken⟩ := mem_filter.mp listed
        have dead := swept_dead ids mem taken
        have owned := kept.owned seg mem
        rcases mem_append.mp names with files | obsolete
        · rcases mem_append.mp files with file | overlay
          · rcases owned.listed.files _ file with ⟨part, rfl⟩ | rfl
            · exact dead
            · exact .inl dead
          obtain ⟨gen, -, rfl⟩ := mem_map.mp overlay
          refine ⟨fun listed => ?_, .inl dead⟩
          obtain ⟨info, published, same, -⟩ :=
            (overlay_mem_filesOf (kept.listed _ ids.last)).mp listed
          exact (deletable_some taken).2 info published same
        · obtain ⟨gen, -, rfl⟩ := mem_map.mp obsolete
          exact .inl dead }

theorem Retention.opened {durable : List Snapshot} {names : List Nat}
    (listed : ∀ snap ∈ durable, ∀ info ∈ snap.segments, Listed info)
    (mem : snap ∈ durable) (manifest : snap.indexGen ≤ gen)
    (manifests : ∀ name ∈ names, name ≤ gen) : Retention (opened snap durable names gen) where
  owned := forall_mem_map.mpr fun info included => {
    listed := listed snap mem info included
    obsolete := fun _ obsolete => absurd obsolete not_mem_nil
    merging := rfl
    emptied := by rintro ⟨⟩ }
  sources := by rintro _ ⟨⟩
  published := by
    intro info included
    exact ⟨info.opened, mem_map_of_mem included, rfl, rfl, fun _ carries => carries⟩
  listed := listed
  captured := by rintro _ ⟨⟩
  manifest := manifest
  manifests := manifests
  schema := le_rfl
  gone := fun _ doomed => absurd doomed not_mem_nil

theorem Retention.reopen (kept : Retention state) {manifestNames : List Nat}
    {highestGeneration : Nat}
    (acted : state.reopen manifestNames highestGeneration = some next) : Retention next := by
  obtain ⟨snap, older, newest, manifest, manifests, rfl⟩ := reopen_some acted
  exact Retention.opened kept.listed (newest ▸ mem_cons_self) manifest manifests

theorem initial_retention : Retention initial := by
  apply Retention.opened
  · intro snap mem info included
    rw [mem_singleton] at mem
    subst mem
    exact absurd included not_mem_nil
  · exact mem_singleton_self _
  · exact le_rfl
  · exact fun name mem => (mem_singleton.mp mem).le

theorem Retention.act (kept : Retention state) (ids : Ids state) {event : Event}
    (acted : state.act event = some next) : Retention next := by
  unfold State.act at acted
  cases event with
  | startUpdate =>
    dsimp only at acted
    split at acted <;> cases acted
    exact kept.still (moves_same state) kept.listed le_rfl kept.manifests le_rfl
  | obtainInverter =>
    cases acted
    exact kept.invert (le_succ _)
      (forall_mem_cons.mpr ⟨.inr (lt_succ_self _), fun id old => .inl old⟩)
  | flush => exact kept.flush ids acted
  | abortFlush =>
    obtain rfl := abortFlush_some acted
    exact kept.invert le_rfl fun id mem => .inl (mem_of_mem_erase mem)
  | beginCommit =>
    obtain ⟨-, -, -, rfl⟩ := beginCommit_some acted
    exact kept.pinSnapshot ids rfl
  | beginDeletePass =>
    obtain ⟨-, app, -, captures, -, -, -, rfl⟩ := beginDeletePass_some acted
    exact kept.pinSnapshot ids captures
  | applyDeletes segId deleted =>
    obtain ⟨app, -, -, -, rfl⟩ := applyDeletes_some acted
    exact kept.modify ids _ _ (fun seg _ => keeps_deleteFrom _ app deleted seg)
      (.inl (moves_same state))
  | reconcileDeletes => exact kept.reconcileDeletes ids acted
  | buildOverlay segId built =>
    obtain ⟨app, -, -, rfl⟩ := buildOverlay_some acted
    exact kept.modify ids _ _ (fun seg _ => keeps_overlaid _ built seg) (.inl (moves_same state))
  | publishCommit => exact kept.publishCommit ids acted
  | retirePending => exact kept.retirePending acted
  | moveEmptied => exact kept.moveEmptied ids acted
  | unpin => exact kept.unpin ids acted
  | updateSchema => exact kept.updateSchema ids acted
  | tryDeleteSegments => exact kept.tryDeleteSegments ids acted
  | startMerge => exact kept.startMerge ids acted
  | pinDiff => exact kept.pinDiff ids acted
  | coverDiff => exact kept.coverDiff ids acted
  | swap => exact kept.swap ids acted
  | failMerge => exact kept.failMerge ids acted
  | reopen => exact kept.reopen acted

/-- The files that something still refers to: the published commit, the generations that a segment
holds, the data and live documents of a segment that is being merged, with its overlays as long as
it has documents, the data of every segment that an application has pinned and all files of those
with documents. -/
inductive Protected (state : State) : File → Prop where
  | published {file : File} : file ∈ filesOf state.lastSnapshot → Protected state file
  | manifest : Protected state (.manifest state.lastSnapshot.indexGen)
  | generation {seg : SegInfo} {gen : Nat} : seg ∈ state.segments → keepsGen seg gen = true →
      Protected state (.live seg.segId gen)
  | source {merge : Merge} {source : MergeSource} {part : Nat} : state.merge = some merge →
      source ∈ merge.sources → Protected state (.data source.segId part)
  | merging {seg : SegInfo} {file : File} : seg ∈ state.segments → seg.merging = true →
      file ∈ seg.files → Protected state file
  | mergingOverlay {seg : SegInfo} {file : File} : seg ∈ state.segments → seg.merging = true →
      0 < seg.liveDocs → file ∈ seg.overlayFiles → Protected state file
  | captured {app : DeleteApplication} {segId part : Nat} : state.application = some app →
      segId ∈ app.segs → Protected state (.data segId part)
  | pinned {app : DeleteApplication} {seg : SegInfo} {file : File} :
      state.application = some app → seg ∈ state.segments → seg.segId ∈ app.segs →
      0 < seg.liveDocs → file ∈ seg.files ++ seg.overlayFiles → Protected state file

theorem live_not_gone (ids : Ids state) (mem : seg ∈ state.segments)
    (holds : keepsGen seg gen = true) : ¬ Gone state (.live seg.segId gen) := by
  rintro (dead | ⟨other, here, same, -, free⟩)
  · exact dead.not_owned (mem_map.mpr ⟨seg, mem, rfl⟩)
  · rw [ids.unique here mem same, holds] at free
    cases free

theorem files_not_gone (ids : Ids state) (mem : seg ∈ state.segments)
    (owned : Owned state.merge seg) (listed : file ∈ seg.files) : ¬ Gone state file := by
  rcases owned.listed.files file listed with ⟨part, rfl⟩ | rfl
  · exact fun dead => Dead.not_owned dead (mem_map.mpr ⟨seg, mem, rfl⟩)
  · exact live_not_gone ids mem (by simp [keepsGen])

theorem overlays_not_gone (ids : Ids state) (mem : seg ∈ state.segments)
    (populated : 0 < seg.liveDocs) (used : seg.condemned = true → seg.segId ∈ state.captured)
    (listed : file ∈ seg.overlayFiles) : ¬ Gone state file := by
  obtain ⟨gen, -, rfl⟩ := mem_map.mp listed
  rintro ⟨-, dead | ⟨other, here, same, -, unused⟩⟩
  · exact dead.not_owned (mem_map.mpr ⟨seg, mem, rfl⟩)
  · rw [ids.unique here mem same] at unused
    rcases unused with empty | ⟨condemned, free⟩
    · exact populated.ne' empty
    · exact free (used condemned)

theorem published_not_gone (kept : Retention state) (ids : Ids state)
    (listed : file ∈ filesOf state.lastSnapshot) : ¬ Gone state file := by
  have lists := listed
  rw [filesOf, mem_append, mem_flatMap, mem_singleton] at listed
  rcases listed with ⟨info, mem, file⟩ | rfl
  · obtain ⟨seg, owned, publishes⟩ := kept.published info mem
    rcases mem_append.mp file with data | overlay
    · rcases (kept.listed _ ids.last info mem).files _ data with ⟨part, rfl⟩ | rfl
      · exact fun dead => Dead.not_owned dead (mem_map.mpr ⟨seg, owned, publishes.segId⟩)
      · rw [← publishes.segId, ← publishes.gen]
        exact live_not_gone ids owned (by simp [keepsGen])
    · obtain ⟨gen, -, rfl⟩ := mem_map.mp overlay
      exact fun gone => gone.1 lists
  · exact fun gone => gone.2 rfl

/-- In every reachable state, no file that was handed to retirement is one that the published
commit, a generation in use, a running merge or a pinned commit refers to. -/
theorem retired_unprotected {events : List Event} (ran : initial.run events = some state)
    {file : File} (handed : file ∈ state.handed) : ¬ Protected state file := by
  have both :=
    Lib.Runs.always (fun kept acted => And.intro (kept.1.act acted) (kept.2.act kept.1 acted))
      (And.intro initial_ids initial_retention) ran
  obtain ⟨ids, kept⟩ := both
  have gone := kept.gone file (mem_append_right _ handed)
  intro guarded
  cases guarded with
  | published listed => exact published_not_gone kept ids listed gone
  | manifest => exact gone.2 rfl
  | generation member holds => exact live_not_gone ids member holds gone
  | source running listed => exact Dead.not_owned gone (kept.sources _ running _ listed)
  | merging member _ listed => exact files_not_gone ids member (kept.owned _ member) listed gone
  | mergingOverlay member merging populated listed =>
    refine overlays_not_gone ids member populated ?_ listed gone
    exact fun condemned => absurd ((kept.owned _ member).emptied merging condemned) populated.ne'
  | captured running held => exact Dead.not_owned gone (ids.captured _ running _ held)
  | pinned running member captured populated listed =>
    rcases mem_append.mp listed with file | overlay
    · exact files_not_gone ids member (kept.owned _ member) file gone
    · exact overlays_not_gone ids member populated
        (fun _ => mem_captured.mpr ⟨_, running, captured⟩) overlay gone

/-- Two segments, one with an overlay, are published and begin to merge; then a commit deletes the
document of the first, and its sweep follows while the merge is still running. -/
def emptiedSource : List Event :=
  [.startUpdate, .obtainInverter, .flush 1 ⟨[1], [1], [], 1, 0, 1, none⟩, .startUpdate,
    .obtainInverter, .flush 2 ⟨[2], [2], [], 1, 0, 1, none⟩, .beginCommit 2 false,
    .reconcileDeletes, .buildOverlay 1 true, .publishCommit .published, .retirePending,
    .moveEmptied, .unpin, .startMerge [1, 2], .startUpdate, .obtainInverter, .flush 4 ⟨[3], [3], [],
    1, 0, 1, some ⟨0, 3⟩⟩, .beginCommit 3 false, .applyDeletes 1 1, .reconcileDeletes,
    .publishCommit .published, .retirePending, .moveEmptied, .unpin, .tryDeleteSegments]

theorem retired_unprotected_source : ∃ state, initial.run emptiedSource = some state ∧
    File.overlay 1 0 ∈ state.handed ∧ ¬ Protected state (.overlay 1 0) := by
  have handed : (initial.run emptiedSource).map (fun state =>
      state.handed.contains (.overlay 1 0)) = some true := by decide
  obtain ⟨state, ran, member⟩ := Option.map_eq_some_iff.mp handed
  have present : File.overlay 1 0 ∈ state.handed := by simpa using member
  exact ⟨state, ran, present, retired_unprotected ran present⟩

/-- The overlay of a source without documents is handed over while the source is being merged. -/
theorem merging_overlay_retired : ∃ events state, initial.run events = some state ∧
    ∃ seg ∈ state.segments, seg.merging = true ∧ ∃ file ∈ seg.overlayFiles,
      file ∈ state.handed := by
  have found : (initial.run emptiedSource).map (fun state => state.segments.any fun seg =>
      seg.merging && seg.overlayFiles.any fun file => state.handed.contains file) =
      some true := by decide
  obtain ⟨state, ran, merging⟩ := Option.map_eq_some_iff.mp found
  simp only [any_eq_true, Bool.and_eq_true, contains_eq_mem, decide_eq_true_eq] at merging
  exact ⟨emptiedSource, state, ran, merging⟩

end Luxir.Index.SegmentWriter
