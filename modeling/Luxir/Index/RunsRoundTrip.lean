import Luxir.Index.RunsFile
import Mathlib.Data.List.Induction

/-!
Whole histories of a builder, and the versions that its readers give back. A history adds runs
and probes documents in between, through lookups that live as long as the builder. A lookup keeps
the answer of its last probe up to the next start known then, so it stays right as long as nothing
is added at or before a document that was probed through it.
-/

namespace Luxir.Index.RunsRoundTrip
open Reader.RunList Reader.RunReader Reader.RunCursors RunBuilder RunBuilding RunsFile List

inductive Call where
  | add (start : Nat) (version : UInt64)
  | probe (slot doc : Nat)
deriving DecidableEq, Repr

structure State where
  builder : VersionRunBuilder
  lookups : Nat → Lookup

def State.start : State := ⟨VersionRunBuilder.start, fun _ => Lookup.start⟩

def State.step (state : State) : Call → Option State
  | .add start version =>
      (state.builder.add start version).map fun builder => { state with builder := builder }
  | .probe slot doc =>
      let probed := state.builder.birth doc (state.lookups slot)
      some { state with lookups := Function.update state.lookups slot probed.2 }

def execute (calls : List Call) : Option State := calls.foldlM State.step State.start

def Call.run? : Call → Option VersionRun
  | .add start version => some ⟨start, version⟩
  | .probe _ _ => none

def adds (calls : List Call) : List VersionRun := calls.filterMap Call.run?

structure Ordered (calls : List Call) : Prop where
  increasing : (adds calls).Pairwise fun earlier later => earlier.firstDocId ≤ later.firstDocId
  small : ∀ run ∈ adds calls, run.firstDocId < 2 ^ 32

/-- Nothing is added at or before a document that was probed through the slot. -/
def Kept (slot : Nat) (calls : List Call) : Prop :=
  calls.Pairwise fun earlier later => ∀ doc start version,
    earlier = .probe slot doc → later = .add start version → doc < start

/-- `PostingsWriter::writeVersionRuns`: the bytes, the place of the header and the count. -/
def writeVersionRuns (builder : VersionRunBuilder) (out : Bytes) (maxDoc : Nat) :
    Bytes × Nat × Nat :=
  if maxDoc = 0 then (out, 0, 0)
  else
    let finished := builder.finish (VersionRunsOutput.begin out) maxDoc
    let written := finished.1.finish finished.2
    (written.1, written.2, finished.2)

def births (avx2 : Bool) (source : VersionRuns) : Cursor → List Nat → Option (List UInt64)
  | _, [] => some []
  | cursor, doc :: docs => do
      let probed ← cursor.birth avx2 source doc
      let rest ← births avx2 source probed.2 docs
      some (probed.1 :: rest)

section
variable {calls : List Call} {done : List VersionRun} {state : State}

/-- The state of a history: the builder holds runs that say what the adds say, and a slot that is
kept answers for documents that no later add can reach. -/
structure Served (calls : List Call) (latest : Nat) (done : List VersionRun) (state : State) :
    Prop where
  built : Built latest done state.builder
  same : ∀ doc, versionAt (done ++ state.builder.tail) doc = versionAt (adds calls) doc
  least : ∀ start, (∀ run ∈ adds calls, run.firstDocId ≤ start) → latest ≤ start
  answers : ∀ slot, Kept slot calls → Answers (done ++ state.builder.tail) (state.lookups slot)
  stops : ∀ slot, Kept slot calls → ∀ start, (∀ run ∈ adds calls, run.firstDocId ≤ start) →
    (∀ doc, .probe slot doc ∈ calls → doc < start) → (state.lookups slot).stop ≤ start

theorem served_start : Served [] 0 [] State.start := by
  refine ⟨start_built, fun doc => ?_, fun start _ => Nat.zero_le _, ?_, fun slot _ start _ _ => ?_⟩
  · simp [State.start, VersionRunBuilder.start, versionAt, adds]
  · intro slot _ doc _ ended
    exact absurd ended (Nat.not_lt_zero _)
  · exact Nat.zero_le _

theorem adds_add (calls : List Call) (start : Nat) (version : UInt64) :
    adds (calls ++ [.add start version]) = adds calls ++ [⟨start, version⟩] := by
  simp [adds, Call.run?]

theorem adds_probe (calls : List Call) (slot doc : Nat) :
    adds (calls ++ [.probe slot doc]) = adds calls := by
  simp [adds, Call.run?]

theorem served_add {latest start : Nat} (version : UInt64) (served : Served calls latest done state)
    (later : ∀ run ∈ adds calls, run.firstDocId ≤ start) (fits : start < 2 ^ 32) :
    ∃ front next, state.step (.add start version) = some next ∧
      Served (calls ++ [.add start version]) start front next := by
  have met := served.least start later
  have ordered : ∀ run ∈ done ++ state.builder.tail, run.firstDocId ≤ start :=
    fun run mem => (served.built.ordered run mem).trans met
  obtain ⟨front, builder, added, built, runs⟩ := served.built.add met fits version
  have versions : ∀ doc, versionAt (front ++ builder.tail) doc =
      if start ≤ doc then version else versionAt (done ++ state.builder.tail) doc := by
    intro doc
    rw [runs]
    exact versionAt_addRun served.built.covering version ordered doc
  refine ⟨front, { state with builder := builder }, ?_, built, fun doc => ?_, fun bound most => ?_,
    fun slot kept doc started ended => ?_, fun slot kept bound most probed => ?_⟩
  · simp only [State.step, added, Option.map_some]
  · rw [versions, adds_add, versionAt_concat, served.same]
  · rw [adds_add] at most
    exact most ⟨start, version⟩ (by simp)
  · obtain ⟨before, _, after⟩ := pairwise_append.mp kept
    have stop := served.stops slot before start later fun probe mem =>
      after _ mem _ (mem_singleton_self _) probe start version rfl rfl
    rw [versions, if_neg (by dsimp only at ended; omega)]
    exact served.answers slot before doc started ended
  · rw [adds_add] at most
    exact served.stops slot (pairwise_append.mp kept).1 bound
      (fun run mem => most run (mem_append_left _ mem))
      fun doc mem => probed doc (mem_append_left _ mem)

theorem served_probe {latest : Nat} (slot doc : Nat)
    (served : Served calls latest done state) : ∃ next, state.step (.probe slot doc) = some next ∧
      Served (calls ++ [.probe slot doc]) latest done next := by
  refine ⟨_, rfl, served.built, fun other => ?_, fun bound most => ?_, fun place kept => ?_,
    fun place kept bound most probed => ?_⟩
  · rw [adds_probe]
    exact served.same other
  · rw [adds_probe] at most
    exact served.least bound most
  · have before := (pairwise_append.mp kept).1
    have answers := served.answers place before
    by_cases same : place = slot
    · subst same
      simp only [Function.update_self]
      rcases (served.built.birth answers doc).lookup with unchanged | found
      · rw [unchanged]
        exact answers
      · exact found.1
    · simp only [Function.update_of_ne same]
      exact answers
  · rw [adds_probe] at most
    have before := (pairwise_append.mp kept).1
    have stop := served.stops place before bound most
      fun other mem => probed other (mem_append_left _ mem)
    by_cases same : place = slot
    · subst same
      have met := served.least bound most
      have last := probed doc (by simp)
      simp only [Function.update_self]
      rcases (served.built.birth (served.answers place before) doc).lookup with unchanged | found
      · rw [unchanged]
        exact stop
      · omega
    · simp only [Function.update_of_ne same]
      exact stop

theorem served_calls (calls : List Call) (ordered : Ordered calls) :
    ∃ latest done state, execute calls = some state ∧ Served calls latest done state := by
  induction calls using reverseRecOn with
  | nil => exact ⟨0, [], State.start, rfl, served_start⟩
  | append_singleton calls call ih =>
    obtain ⟨rising, small⟩ := ordered
    cases call with
    | add start version =>
      rw [adds_add] at rising small
      obtain ⟨before, _, after⟩ := pairwise_append.mp rising
      obtain ⟨latest, done, state, ran, served⟩ :=
        ih ⟨before, fun run mem => small run (mem_append_left _ mem)⟩
      obtain ⟨front, next, stepped, served⟩ := served_add version served
        (fun run mem => after run mem _ (mem_singleton_self _))
        (small ⟨start, version⟩ (by simp))
      refine ⟨start, front, next, ?_, served⟩
      rw [execute, foldlM_append, ← execute, ran]
      simp [stepped]
    | probe slot doc =>
      rw [adds_probe] at rising small
      obtain ⟨latest, done, state, ran, served⟩ := ih ⟨rising, small⟩
      obtain ⟨next, stepped, served⟩ := served_probe slot doc served
      refine ⟨latest, done, next, ?_, served⟩
      rw [execute, foldlM_append, ← execute, ran]
      simp [stepped]

theorem births_eq (avx2 : Bool) {runs : List VersionRun} {source : VersionRuns}
    (opened : Opened runs source) {cursor : Cursor} (reads : CursorReads runs cursor)
    (docs : List Nat) (lt : ∀ doc ∈ docs, doc < source.maxDoc) :
    births avx2 source cursor docs = some (docs.map (versionAt runs)) := by
  induction docs generalizing cursor with
  | nil => rfl
  | cons doc rest ih =>
    obtain ⟨next, probed, kept⟩ := opened.birth avx2 reads (lt doc mem_cons_self)
    have later := ih kept fun other mem => lt other (mem_cons_of_mem _ mem)
    simp [births, probed, later]

theorem Served.versions {latest maxDoc doc : Nat} (served : Served calls latest done state)
    (lt : doc < maxDoc) : versionAt (kept (done ++ state.builder.tail) maxDoc) doc =
      versionAt (adds calls) doc := by
  rw [kept_versionAt lt, served.same]

theorem Served.opens {latest maxDoc : Nat} (served : Served calls latest done state) (avx2 : Bool)
    (out past : Bytes) (pos : 0 < maxDoc) (few : maxDoc < 2 ^ 31)
    (within : ∀ run ∈ adds calls, run.firstDocId ≤ maxDoc) :
    ∃ source, VersionRuns.openRuns avx2 ((writeVersionRuns state.builder out maxDoc).1 ++ past)
        (writeVersionRuns state.builder out maxDoc).2.1
        (writeVersionRuns state.builder out maxDoc).2.2 maxDoc = some source ∧
      Opened (kept (done ++ state.builder.tail) maxDoc) source ∧
      (kept (done ++ state.builder.tail) maxDoc).length =
        (writeVersionRuns state.builder out maxDoc).2.2 ∧
      ∀ docs : List Nat, (∀ doc ∈ docs, doc < maxDoc) →
        births avx2 source Cursor.start docs = some (docs.map (versionAt (adds calls))) := by
  have ends := served.least maxDoc within
  have storable := storable_kept served.built ends pos few
  obtain ⟨output, finished, laid⟩ := finish_laid served.built ends out
  obtain ⟨source, opened, reads, limit⟩ := storable.opens avx2 laid (align_mod out) past
  unfold writeVersionRuns
  rw [if_neg (by omega), finished]
  refine ⟨source, opened, reads, rfl, fun docs lt => ?_⟩
  rw [births_eq avx2 reads (cursorReads_start _) docs (by rw [limit]; exact lt)]
  congr 1
  apply map_congr_left
  intro doc mem
  exact served.versions (lt doc mem)

end

/-- The builder answers from the adds alone through every lookup that is kept, and so do the
cursors and iterators over what it writes. -/
theorem runs_round_trip (calls : List Call) (ordered : Ordered calls) :
    ∃ state, execute calls = some state ∧ (∀ slot, Kept slot calls → ∀ doc,
        (state.builder.birth doc (state.lookups slot)).1 = versionAt (adds calls) doc) ∧
      ∀ (avx2 : Bool) (out behind : Bytes) (maxDoc : Nat), 0 < maxDoc → maxDoc < 2 ^ 31 →
        (∀ run ∈ adds calls, run.firstDocId ≤ maxDoc) →
        let written := writeVersionRuns state.builder out maxDoc
        ∃ source runs, VersionRuns.openRuns avx2 (written.1 ++ behind) written.2.1 written.2.2
            maxDoc = some source ∧ (∀ docs : List Nat, (∀ doc ∈ docs, doc < maxDoc) →
            births avx2 source Cursor.start docs = some (docs.map (versionAt (adds calls)))) ∧
          (∀ count, Iterator.runs avx2 source count Iterator.start = runs.take count) ∧
          Covering runs ∧ runs.length = written.2.2 ∧
          ∀ doc < maxDoc, versionAt runs doc = versionAt (adds calls) doc := by
  obtain ⟨latest, done, state, ran, served⟩ := served_calls calls ordered
  refine ⟨state, ran, ?_, ?_⟩
  · intro slot kept doc
    rw [(served.built.birth (served.answers slot kept) doc).version, served.same]
  intro avx2 out behind maxDoc positive few within
  obtain ⟨source, opened, reads, count, answers⟩ := served.opens avx2 out behind positive few within
  refine ⟨source, kept (done ++ state.builder.tail) maxDoc, opened, answers, fun count => ?_,
    (storable_kept served.built (served.least maxDoc within) positive few).covering, count,
    fun doc inside => served.versions inside⟩
  rw [reads.iterates avx2 count ⟨Nat.zero_le _, absurd rfl, absurd rfl⟩]
  rfl

/-- Two runs, one of them replaced before it has a document. -/
theorem runs_round_trip_replaced : ∃ state,
    execute [.add 0 7, .probe 1 0, .add 2 9, .add 2 8] = some state ∧
      (state.builder.birth 5 (state.lookups 1)).1 = 8 ∧
      ∃ source, VersionRuns.openRuns true (writeVersionRuns state.builder [] 4).1
          (writeVersionRuns state.builder [] 4).2.1 (writeVersionRuns state.builder [] 4).2.2 4 =
            some source ∧ births true source Cursor.start [3, 0, 2, 1] = some [8, 7, 8, 7] := by
  have ordered : Ordered [.add 0 7, .probe 1 0, .add 2 9, .add 2 8] := ⟨by decide, by decide⟩
  obtain ⟨state, ran, answers, written⟩ := runs_round_trip _ ordered
  have kept : Kept 1 [.add 0 7, .probe 1 0, .add 2 9, .add 2 8] := by
    simp [Kept]
  obtain ⟨source, runs, opened, probed, _⟩ :=
    written true [] [] 4 (by decide) (by decide) (by decide)
  rw [append_nil] at opened
  refine ⟨state, ran, ?_, source, opened, ?_⟩
  · rw [answers 1 kept]
    decide
  · rw [probed _ (by decide)]
    decide

/-- A lookup that was probed beyond the last start does not notice an add before that document. -/
theorem stale_lookup : ∃ calls slot doc state, Ordered calls ∧ execute calls = some state ∧
    (state.builder.birth doc (state.lookups slot)).1 ≠ versionAt (adds calls) doc := by
  refine ⟨[.add 0 1, .add 5 2, .probe 0 20, .add 10 3], 0, 15, _, ⟨by decide, by decide⟩, rfl, ?_⟩
  decide

end Luxir.Index.RunsRoundTrip
