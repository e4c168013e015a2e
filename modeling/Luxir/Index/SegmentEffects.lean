import Luxir.Index.SegmentEvents

/-!
What the events of the writer do. An event that is possible has one effect, which these lemmas say
once: the condition under which it is possible, and the state after it.
-/

namespace Luxir.Index.SegmentWriter
open List

variable {state next : State} {segId : Nat} {app : DeleteApplication} {outcome : Outcome}

namespace State

theorem flush_some {flushed : Flush} (acted : state.flush segId flushed = some next) :
    segId ∈ state.inverting ∧ flushed.sound state.updateNumber = true ∧ next = { state with
        inverting := state.inverting.erase segId
        segments := state.segments ++ [flushed.segment segId]
        pendingDeletes := state.pendingDeletes ++ flushed.deletes.toList } := by
  rw [flush] at acted
  split at acted <;> cases acted
  rename_i found
  exact ⟨found.1, found.2, rfl⟩

theorem abortFlush_some (acted : state.abortFlush segId = some next) :
    next = { state with inverting := state.inverting.erase segId } := by
  rw [abortFlush] at acted
  split at acted <;> cases acted
  rfl

theorem beginCommit_some {updateVersion : Nat} {publishOnly : Bool}
    (acted : state.beginCommit updateVersion publishOnly = some next) :
    state.failed = false ∧ state.application = none ∧ updateVersion ≤ state.updateNumber ∧
      next = state.pinSnapshot
        { commits := true
          segs := state.registered.map fun seg => seg.segId
          selected := state.pendingDeletes ++ state.registered.flatMap SegInfo.personalDeletes
          pending := state.pendingDeletes
          retireThrough := if publishOnly then 0 else updateVersion
          highestUpdateVersion := max (max state.durableUpdateVersion state.preparedDeleteVersion)
            (max updateVersion (getLargestVersion state.pendingDeletes))
          phase := .applying } := by
  rw [beginCommit] at acted
  split at acted
  · cases acted
  rename_i free
  cases acted
  simp only [Bool.or_eq_true, not_or, Bool.not_eq_true, decide_eq_true_eq, Nat.not_lt,
    Option.isSome_eq_false_iff, Option.isNone_iff_eq_none] at free
  exact ⟨free.1.1, free.1.2, free.2, rfl⟩

theorem beginDeletePass_some {frontier : Nat} {unclaimed : SortedDeletes → Bool}
    (acted : state.beginDeletePass frontier unclaimed = some next) :
    state.application = none ∧ ∃ app : DeleteApplication, app.commits = false ∧
      app.segs = (state.registered.map fun seg => seg.segId) ∧
      (∀ packet ∈ app.pending, packet ∈ state.pendingDeletes) ∧
      (∀ packet ∈ app.pending, packet ∈ app.selected) ∧
      app.phase = .applying ∧ next = state.pinSnapshot app := by
  rw [beginDeletePass] at acted
  split at acted
  · cases acted
  rename_i free
  cases acted
  simp only [Bool.or_eq_true, not_or, Bool.not_eq_true, Option.isSome_eq_false_iff,
    Option.isNone_iff_eq_none] at free
  refine ⟨free.1.2, _, rfl, rfl, ?_, ?_, rfl, rfl⟩
  · exact fun packet mem => mem_of_mem_filter mem
  · exact fun packet mem => mem_append_left _ mem

theorem applyDeletes_some {deleted : Nat} (acted : state.applyDeletes segId deleted = some next) :
    ∃ app, state.application = some app ∧ app.phase = .applying ∧ segId ∈ app.segs ∧
      next = state.modify (fun seg => seg.segId = segId) (deleteFrom app deleted) := by
  rw [applyDeletes] at acted
  split at acted
  · rename_i app run
    split at acted <;> cases acted
    rename_i found
    exact ⟨app, run, found.1, found.2.1, rfl⟩
  · cases acted

theorem reconcileDeletes_some (acted : state.reconcileDeletes = some next) :
    ∃ app, state.application = some app ∧ app.phase = .applying ∧
      next = { app.segs.foldl (reconcileOne app) state with
        application := some { app with phase := .reconciled } } := by
  rw [reconcileDeletes] at acted
  split at acted
  · rename_i app run
    split at acted <;> cases acted
    rename_i applying
    exact ⟨app, run, applying, rfl⟩
  · cases acted

def overlaid (built : Bool) (seg : SegInfo) : SegInfo :=
  { seg with
    overlays := if built then seg.overlays ++ [seg.nextOverlayGen] else seg.overlays
    nextOverlayGen := seg.nextOverlayGen + 1 }

theorem buildOverlay_some {built : Bool} (acted : state.buildOverlay segId built = some next) :
    ∃ app, state.application = some app ∧ segId ∈ app.segs ∧
      next = state.modify (fun seg => seg.segId = segId && decide (0 < seg.liveDocs))
        (overlaid built) := by
  rw [buildOverlay] at acted
  split at acted
  · rename_i app run
    split at acted <;> cases acted
    rename_i found
    exact ⟨app, run, found.2.2, rfl⟩
  · cases acted

def commitVersion (state : State) (app : DeleteApplication) : Nat :=
  (state.segsToKeep app).foldl (fun highest seg => max highest seg.maxVersion)
    app.highestUpdateVersion

def publication (state : State) (app : DeleteApplication) (outcome : Outcome) : State :=
  state.publish ((state.segsToKeep app).map SegInfo.toSegmentInfo) (state.commitVersion app)
    state.lastSnapshot.schema (state.retired ++ app.selected.map SortedDeletes.largestVersion)
    outcome

theorem publishCommit_some (acted : state.publishCommit outcome = some next) :
    ∃ app, state.application = some app ∧ state.failed = false ∧ app.commits = true ∧
      app.phase = .reconciled ∧
      (outcome = .published ∧ next = { state.publication app .published with
          application := some { app with phase := .published } } ∨
        outcome ≠ .published ∧ next = state.publication app outcome) := by
  rw [publishCommit] at acted
  split at acted
  · rename_i app run
    split at acted <;> cases acted
    rename_i found
    refine ⟨app, run, by simpa using found.1, found.2.1, found.2.2, ?_⟩
    by_cases done : outcome = .published
    · subst done
      exact .inl ⟨rfl, rfl⟩
    · refine .inr ⟨done, ?_⟩
      rw [if_neg done]
      rfl
  · cases acted

theorem retirePending_some (acted : state.retirePending = some next) :
    ∃ app, state.application = some app ∧ app.phase = retiresFrom app ∧ next = { state with
        pendingDeletes := state.pendingDeletes.filter fun packet => !retires app packet
        preparedDeleteVersion := max state.preparedDeleteVersion
          (getLargestVersion (state.pendingDeletes.filter (retires app)))
        retired := state.retired ++
          (state.pendingDeletes.filter (retires app)).map SortedDeletes.largestVersion
        application := some { app with phase := .retired } } := by
  rw [retirePending] at acted
  split at acted
  · rename_i app run
    split at acted <;> cases acted
    rename_i due
    exact ⟨app, run, due, rfl⟩
  · cases acted

def emptied (app : DeleteApplication) (seg : SegInfo) : Bool :=
  decide (seg.segId ∈ app.segs) && decide (seg.liveDocs = 0) && (app.commits || !seg.merging)

theorem moveEmptied_some (acted : state.moveEmptied = some next) :
    ∃ app, state.application = some app ∧ app.phase = .retired ∧
      next = { state.modify (emptied app) (fun seg => { seg with condemned := true }) with
        application := some { app with phase := .moved } } := by
  rw [moveEmptied] at acted
  split at acted
  · rename_i app run
    split at acted <;> cases acted
    rename_i due
    exact ⟨app, run, due, rfl⟩
  · cases acted

theorem unpin_some (acted : state.unpin = some next) : ∃ app, state.application = some app ∧
      next = { state.modify (fun seg => seg.segId ∈ app.segs) (fun seg =>
          { seg with preparationPins := seg.preparationPins - 1 }) with
        application := none } := by
  rw [unpin] at acted
  split at acted <;> cases acted
  rename_i app run
  exact ⟨app, run, rfl⟩

theorem updateSchema_some (acted : state.updateSchema outcome = some next) :
    state.failed = false ∧ state.unlocked = true ∧
      next = { state with nextSchemaVersion := state.nextSchemaVersion + 1 }.publish
        state.lastSnapshot.segments state.lastSnapshot.updateVersion (state.nextSchemaVersion + 1)
        state.lastSnapshot.prepared outcome := by
  rw [updateSchema] at acted
  split at acted <;> cases acted
  rename_i free
  simp only [Bool.or_eq_true, not_or, Bool.not_eq_true, Bool.not_eq_false'] at free
  exact ⟨free.1, free.2, rfl⟩

def swept (state : State) : State :=
  { state with
    segments := (state.segments.filter fun seg => !state.deletable seg).map collectObsoleteLiveDocs
    pendingRetirement := []
    handed := state.handed ++ (state.pendingRetirement ++
      (state.segments.filter fun seg => !state.deletable seg).flatMap obsoleteLiveDocs ++
      (state.segments.filter state.deletable).flatMap retireSegment) }

theorem tryDeleteSegments_some (acted : state.tryDeleteSegments = some next) :
    next = state.swept := by
  rw [tryDeleteSegments] at acted
  split at acted <;> cases acted
  rfl

def chosenSources (state : State) (chosen : List Nat) : List SegInfo :=
  state.registered.filter fun seg => decide (seg.segId ∈ chosen)

theorem startMerge_some {chosen : List Nat} (acted : state.startMerge chosen = some next) :
    state.merge = none ∧ (∀ seg ∈ state.chosenSources chosen, seg.liveDocs ≠ 0) ∧
      next = { state.modify (fun seg => !seg.condemned && decide (seg.segId ∈ chosen)) (fun seg =>
          { seg with merging := true, mergedLiveGen := some seg.liveGen }) with
        lastSegId := state.lastSegId + 1
        merge := some
          { sources := (state.chosenSources chosen).map fun seg =>
              ⟨seg.segId, seg.liveGen, seg.liveGen⟩
            outputSegId := state.lastSegId + 1 } } := by
  rw [startMerge] at acted
  split at acted
  · cases acted
  rename_i free
  cases acted
  simp only [Bool.or_eq_true, not_or, Option.not_isSome_iff_eq_none, any_eq_true,
    decide_eq_true_eq, not_exists, not_and] at free
  exact ⟨free.1, free.2, rfl⟩

theorem pinDiff_some (acted : state.pinDiff = some next) : ∃ merge, state.merge = some merge ∧
      next = { state.modify (fun seg => merges merge seg.segId) (fun seg =>
          { seg with mergeDiffLiveGen := some seg.liveGen }) with
        merge := some { merge with
          sources := merge.sources.map fun source =>
            { source with currentGen := state.genOf source } } } := by
  rw [pinDiff] at acted
  split at acted <;> cases acted
  rename_i merge run
  exact ⟨merge, run, rfl⟩

theorem coverDiff_some (acted : state.coverDiff = some next) : ∃ merge, state.merge = some merge ∧
      next = { state with
        merge := some { merge with
          sources := merge.sources.map fun source =>
            { source with coveredGen := source.currentGen } } } := by
  rw [coverDiff] at acted
  split at acted <;> cases acted
  rename_i merge run
  exact ⟨merge, run, rfl⟩

theorem swap_some {output : Output} (acted : state.swap output = some next) :
    ∃ merge, state.merge = some merge ∧
      (∀ seg ∈ state.mergedSources merge, coveredOf merge seg.segId = some seg.liveGen) ∧
      (∀ birth ∈ output.births, ∃ seg ∈ state.mergedSources merge, birth ∈ seg.births) ∧
      next = { state with
        segments := state.segments.map (swapOut merge) ++
          if 0 < output.liveDocs then [outputSegment output merge (state.mergedSources merge)]
          else []
        merge := none } := by
  rw [swap] at acted
  split at acted
  · rename_i merge run
    dsimp only at acted
    split at acted <;> cases acted
    rename_i covers
    refine ⟨merge, run, ?_, ?_, rfl⟩
    · simpa using covers.1
    · simpa using covers.2
  · cases acted

def givenBack (seg : SegInfo) : SegInfo :=
  { seg with
    merging := false
    mergedLiveGen := none
    mergeDiffLiveGen := none
    mergedIntoSegId := 0
    condemned := seg.condemned && decide (seg.liveDocs = 0) }

theorem failMerge_some (acted : state.failMerge = some next) : ∃ merge, state.merge = some merge ∧
      next = { state.modify (fun seg => merges merge seg.segId) givenBack with merge := none } := by
  rw [failMerge] at acted
  split at acted <;> cases acted
  rename_i merge run
  exact ⟨merge, run, rfl⟩

theorem reopen_some {manifestNames : List Nat} {highestGeneration : Nat}
    (acted : state.reopen manifestNames highestGeneration = some next) :
    ∃ snap older, state.durable = snap :: older ∧ snap.indexGen ≤ highestGeneration ∧
      (∀ gen ∈ manifestNames, gen ≤ highestGeneration) ∧
      next = opened snap state.durable manifestNames highestGeneration := by
  rw [reopen] at acted
  split at acted
  · rename_i snap older newest
    split at acted <;> cases acted
    rename_i found
    exact ⟨snap, older, newest, found.1, by simpa using found.2, rfl⟩
  · cases acted

/-- The deletes that segments carry change, and nothing else; what is carried then is allowed. -/
def Carries (allowed : SortedDeletes → Prop) (state next : State) : Prop :=
  ∃ change : SegInfo → SegInfo,
    (∀ seg ∈ state.segments, ∃ deletes, change seg = { seg with personalDeletes := deletes } ∧
      ∀ packet ∈ deletes, allowed packet) ∧
    next = { state with segments := state.segments.map change }

variable {allowed : SortedDeletes → Prop}

def Carried (allowed : SortedDeletes → Prop) (state : State) : Prop :=
  ∀ seg ∈ state.segments, ∀ packet ∈ seg.personalDeletes, allowed packet

theorem Carries.refl (own : Carried allowed state) : Carries allowed state state :=
  ⟨id, fun seg mem => ⟨seg.personalDeletes, rfl, own seg mem⟩, by rw [map_id]⟩

theorem Carries.carried (carries : Carries allowed state next) : Carried allowed next := by
  obtain ⟨change, each, rfl⟩ := carries
  refine forall_mem_map.mpr fun seg mem => ?_
  obtain ⟨deletes, same, given⟩ := each seg mem
  rw [same]
  exact given

theorem Carries.trans {last : State} (first : Carries allowed state next)
    (rest : Carries allowed next last) : Carries allowed state last := by
  obtain ⟨change, carries, rfl⟩ := first
  obtain ⟨change', carries', rfl⟩ := rest
  refine ⟨change' ∘ change, ?_, by rw [map_map]⟩
  intro seg mem
  obtain ⟨before, given, -⟩ := carries seg mem
  obtain ⟨after, taken, allows⟩ := carries' (change seg) (mem_map_of_mem mem)
  exact ⟨after, by rw [Function.comp_apply, taken, given], allows⟩

theorem carries_modify (own : Carried allowed state) (which : SegInfo → Bool)
    (deletes : SegInfo → List SortedDeletes)
    (allows : ∀ seg ∈ state.segments, ∀ packet ∈ deletes seg, allowed packet) :
    Carries allowed state
      (state.modify which fun seg => { seg with personalDeletes := deletes seg }) := by
  refine ⟨_, ?_, rfl⟩
  intro seg mem
  split
  · exact ⟨_, rfl, allows seg mem⟩
  · exact ⟨seg.personalDeletes, rfl, own seg mem⟩

/-- The packets of a segment and of the batch go on to a merge's output; the others stay or go. -/
theorem reconcileOne_carries (own : Carried allowed state)
    (batch : ∀ packet ∈ app.pending, allowed packet) (segId : Nat) :
    Carries allowed state (reconcileOne app state segId) := by
  have drop : ∀ {mid : State}, Carried allowed mid → Carries allowed mid
      (mid.modify (fun owner => owner.segId = segId) fun owner => { owner with
        personalDeletes := owner.personalDeletes.filter fun packet =>
          !app.selected.contains packet }) :=
    fun own => carries_modify own _ _ fun seg mem packet listed =>
      own seg mem packet (mem_of_mem_filter listed)
  rw [reconcileOne]
  split
  · exact Carries.refl own
  rename_i seg found
  split
  · have forwarded := carries_modify own
      (fun target => target.segId = seg.mergedIntoSegId && !target.condemned)
      (fun target => target.personalDeletes ++
        (seg.personalDeletes.filter (fun packet => app.selected.contains packet) ++
          app.pending.filter fun packet => packet.largestVersion ≤ app.retireThrough))
      (by
        intro target mem packet listed
        rcases mem_append.mp listed with old | new
        · exact own target mem packet old
        · rcases mem_append.mp new with personal | left
          · exact own seg (mem_of_find?_eq_some found) packet (mem_of_mem_filter personal)
          · exact batch packet (mem_of_mem_filter left))
    exact forwarded.trans (drop forwarded.carried)
  · exact drop own

theorem reconcileAll_carries (own : Carried allowed state)
    (batch : ∀ packet ∈ app.pending, allowed packet) (segs : List Nat) :
    Carries allowed state (segs.foldl (reconcileOne app) state) := by
  induction segs generalizing state with
  | nil => exact Carries.refl own
  | cons segId rest ih =>
    have first := reconcileOne_carries own batch segId
    exact first.trans (ih first.carried)

theorem reconcile_carries (state : State) (app : DeleteApplication) :
    Carries (fun _ => True) state (app.segs.foldl (reconcileOne app) state) :=
  reconcileAll_carries (fun _ _ _ _ => trivial) (fun _ _ => trivial) _

end State

end Luxir.Index.SegmentWriter
