import Luxir.Lib.Runs
import Luxir.Search.ReaderManager
import Mathlib.Order.Nat

/-!
The reader that searches see never goes back. Under the lock, the installed reader is no newer than
the published snapshot; what the writer has still to publish is newer than all that is shared. So a
call that finds the hints satisfied has a reader for every snapshot that was published before it,
and one that does not opens such a reader.
-/

namespace Luxir.Search.ReaderPublication
open ReaderManager CallPhase Function

/-- Neither the commit time nor the schema goes back. -/
instance : Preorder CommitSnapshot :=
  Preorder.lift fun snapshot => (snapshot.commitTime, snapshot.schemaGen)

structure Below (shared : Shared) (ceiling : CommitSnapshot) : Prop where
  time : shared.lastAdvertisedCommitTime ≤ ceiling.commitTime
  schema : shared.publishedSchemaGen ≤ ceiling.schemaGen
  published : ∀ snapshot ∈ shared.published, snapshot ≤ ceiling
  installed : ∀ reader ∈ shared.indexReader, reader.snapshot ≤ ceiling

structure Seen (floor : CommitSnapshot) (shared : Shared) : Prop where
  time : floor.commitTime ≤ shared.lastAdvertisedCommitTime
  schema : floor.schemaGen ≤ shared.publishedSchemaGen
  published : ∃ snapshot ∈ shared.published, floor ≤ snapshot

structure Grows (before after : Shared) : Prop where
  time : before.lastAdvertisedCommitTime ≤ after.lastAdvertisedCommitTime
  schema : before.publishedSchemaGen ≤ after.publishedSchemaGen
  published : ∀ snapshot ∈ before.published, ∃ newer ∈ after.published, snapshot ≤ newer
  installed : ∀ reader ∈ before.indexReader,
    ∃ newer ∈ after.indexReader, reader.snapshot ≤ newer.snapshot

variable {opens : Bool} {shared after : Shared}

section
variable {before between after : Shared} {floor : CommitSnapshot}

theorem Grows.refl (shared : Shared) : Grows shared shared where
  time := le_rfl
  schema := le_rfl
  published snap found := ⟨snap, found, le_rfl⟩
  installed reader found := ⟨reader, found, le_rfl⟩

theorem Grows.trans (first : Grows before between) (second : Grows between after) :
    Grows before after where
  time := first.time.trans second.time
  schema := first.schema.trans second.schema
  published snap found := by
    obtain ⟨newer, found, le⟩ := first.published snap found
    obtain ⟨newest, found, more⟩ := second.published newer found
    exact ⟨newest, found, le.trans more⟩
  installed reader found := by
    obtain ⟨newer, found, le⟩ := first.installed reader found
    obtain ⟨newest, found, more⟩ := second.installed newer found
    exact ⟨newest, found, le.trans more⟩

theorem Seen.grows (seen : Seen floor before) (grows : Grows before after) : Seen floor after where
  time := seen.time.trans grows.time
  schema := seen.schema.trans grows.schema
  published := by
    obtain ⟨snap, found, le⟩ := seen.published
    obtain ⟨newer, found, more⟩ := grows.published snap found
    exact ⟨newer, found, le.trans more⟩

end

/-! What the threads hold. -/

def holds : CallPhase → Bool
  | .idle => false
  | .loading locked => locked
  | .timing locked _ => locked
  | .comparing locked _ => locked
  | .locking => false
  | .checking => true
  | .reading => true
  | .opening _ => true
  | .rechecking _ => true
  | .following _ => true
  | .installing _ => true
  | .unlocking _ => true
  | .returned _ => false
  | .throwing => true
  | .threw => false

/-- The snapshot for which a call opens the reader that it will install. -/
def opened : CallPhase → Option CommitSnapshot
  | .opening snapshot => some snapshot
  | .following reader => some reader.snapshot
  | .installing reader => some reader.snapshot
  | _ => none

def writerHolds : WriterPhase → Bool
  | .idle => false
  | .preparing _ => false
  | .opening _ => true
  | .prepared _ => false
  | .checking _ => true
  | .installing _ => true
  | .advertisingTime _ locked => locked
  | .advertisingSchema _ locked => locked
  | .storing _ locked => locked
  | .unlocking _ => true

/-- The reader of a snapshot is installed, and the snapshot is not yet published. -/
def ahead : WriterPhase → Bool
  | .advertisingTime _ locked => locked
  | .advertisingSchema _ locked => locked
  | .storing _ locked => locked
  | _ => false

def current : WriterPhase → Option CommitSnapshot
  | .idle => none
  | .preparing snapshot => some snapshot
  | .opening snapshot => some snapshot
  | .prepared snapshot => some snapshot
  | .checking snapshot => some snapshot
  | .installing snapshot => some snapshot
  | .advertisingTime snapshot _ => some snapshot
  | .advertisingSchema snapshot _ => some snapshot
  | .storing snapshot _ => some snapshot
  | .unlocking _ => none

def pending (writer : Writer) : List CommitSnapshot :=
  (current writer.phase).toList ++ writer.script.map Publication.snapshot

/-- The stores of a publication that the writer has made. -/
def Stored (shared : Shared) : WriterPhase → Prop
  | .advertisingSchema snapshot _ => snapshot.commitTime ≤ shared.lastAdvertisedCommitTime
  | .storing snapshot _ =>
      snapshot.commitTime ≤ shared.lastAdvertisedCommitTime ∧
      snapshot.schemaGen ≤ shared.publishedSchemaGen
  | .unlocking snapshot => Seen snapshot shared
  | _ => True

theorem Stored.grows {before after : Shared} (kept : Stored before phase)
    (grows : Grows before after) : Stored after phase := by
  cases phase with
  | advertisingSchema => exact kept.trans grows.time
  | storing => exact ⟨kept.1.trans grows.time, kept.2.trans grows.schema⟩
  | unlocking => exact Seen.grows kept grows
  | _ => trivial

structure Locks (state : State) : Prop where
  calls : ∀ number, holds (state.calls number) = true ↔
    state.shared.indexReaderMutex = some (.call number)
  writer : writerHolds state.writer.phase = true ↔ state.shared.indexReaderMutex = some .writer

structure Sound (state : State) : Prop where
  locks : Locks state
  ordered : (pending state.writer).Pairwise (· ≤ ·)
  below : ∀ snapshot ∈ pending state.writer, Below state.shared snapshot
  visible : ahead state.writer.phase = false → ∀ reader ∈ state.shared.indexReader,
      ∃ snapshot ∈ state.shared.published, reader.snapshot ≤ snapshot
  follows : ∀ number, ∀ snapshot ∈ opened (state.calls number),
    (∀ reader ∈ state.shared.indexReader, reader.snapshot ≤ snapshot) ∧
    ∃ newer ∈ state.shared.published, snapshot ≤ newer
  stored : Stored state.shared state.writer.phase
  finished : ∀ snapshot ∈ state.writer.finished, Seen snapshot state.shared

section
variable {num freshness now : Nat} {phase next : CallPhase}

/-- What a step of a call does to what is shared. -/
inductive CallEffect (number : Nat) (shared : Shared) (phase : CallPhase) :
    Shared → CallPhase → Prop where
  | read (next : CallPhase) (same : holds next = holds phase) (found : ∀ snapshot ∈ opened next,
        snapshot ∈ opened phase ∨ snapshot ∈ shared.published ∧ holds phase = true) :
      CallEffect number shared phase shared next
  | locked (free : shared.indexReaderMutex = none) (outside : holds phase = false) :
      CallEffect number shared phase { shared with indexReaderMutex := some (.call number) }
        (.loading true)
  | installed (reader : IndexReader) (here : phase = .installing reader) :
      CallEffect number shared phase { shared with indexReader := some reader } (.unlocking reader)
  | unlocked (next : CallPhase) (inside : holds phase = true) (outside : holds next = false)
      (nothing : opened next = none) :
      CallEffect number shared phase { shared with indexReaderMutex := none } next

theorem act_effect (step : act num freshness now opens shared phase = some (after, next)) :
    CallEffect num shared phase after next := by
  unfold act at step
  cases phase with
  | idle | checking =>
    cases step
    apply CallEffect.read
    · cases shared.closed <;> rfl
    · cases shared.closed <;> simp [opened]
  | loading locked =>
    dsimp only at step
    split at step <;> cases step
    · exact .read _ (by cases locked <;> rfl) (by cases locked <;> simp [refresh, opened])
    · exact .read _ rfl (by simp [opened])
  | timing locked =>
    cases step
    apply CallEffect.read
    · split
      · cases locked <;> rfl
      · rfl
    · split
      · cases locked <;> simp [refresh, opened]
      · simp [opened]
  | comparing locked reader =>
    cases step
    apply CallEffect.read
    · split
      · cases locked <;> rfl
      · cases locked <;> rfl
    · split
      · cases locked <;> simp [refresh, opened]
      · cases locked <;> simp [accept, opened]
  | locking =>
    dsimp only at step
    split at step <;> cases step
    case h_1 free => exact .locked free rfl
  | reading =>
    dsimp only at step
    split at step <;> cases step
    case h_1 => exact .read _ rfl (by simp [opened])
    case h_2 snap found => exact .read _ rfl (by simp [opened, found, holds])
  | opening =>
    cases step
    apply CallEffect.read
    · cases opens <;> rfl
    · cases opens <;> simp [opened]
  | rechecking =>
    cases step
    apply CallEffect.read
    · split <;> rfl
    · split <;> simp [opened]
  | following =>
    dsimp only at step
    split at step <;> cases step
    case h_2 snap found =>
      apply CallEffect.read
      · split <;> rfl
      · split <;> simp [opened]
  | installing reader =>
    cases step
    exact .installed reader rfl
  | unlocking | throwing =>
    cases step
    exact .unlocked _ rfl rfl rfl
  | returned | threw => cases step

variable (effect : CallEffect num shared phase after next)
include effect

theorem CallEffect.same :
    after.published = shared.published ∧ after.publishedSchemaGen = shared.publishedSchemaGen ∧
    after.lastAdvertisedCommitTime = shared.lastAdvertisedCommitTime ∧
    after.closed = shared.closed := by
  cases effect <;> exact ⟨rfl, rfl, rfl, rfl⟩

theorem CallEffect.grows (follows : ∀ snap ∈ opened phase, ∀ reader ∈ shared.indexReader,
      reader.snapshot ≤ snap) : Grows shared after := by
  cases effect with
  | read => exact .refl shared
  | locked | unlocked => exact { Grows.refl shared with }
  | installed reader here =>
    have newer := follows reader.snapshot (by rw [here]; rfl)
    exact ⟨le_rfl, le_rfl, fun snap found => ⟨snap, found, le_rfl⟩,
      fun older found => ⟨reader, rfl, newer older found⟩⟩

theorem CallEffect.locks (own : holds phase = true ↔ shared.indexReaderMutex = some (.call num)) :
    (holds next = true ↔ after.indexReaderMutex = some (.call num)) ∧ ∀ thread ≠ Thread.call num,
      (shared.indexReaderMutex = some thread ↔ after.indexReaderMutex = some thread) := by
  cases effect with
  | read next same => exact ⟨by rw [same, own], fun _ _ => Iff.rfl⟩
  | locked free =>
    constructor
    · simp [holds]
    · intro thread other
      simp [free, Ne.symm other]
  | installed reader here =>
    rw [here] at own
    exact ⟨own, fun _ _ => Iff.rfl⟩
  | unlocked next lt outside =>
    have mine := own.mp lt
    constructor
    · simp [outside]
    · intro thread other
      simp [mine, Ne.symm other]

end

variable {snap : CommitSnapshot}

section
variable {writer next : Writer}

/-- What a step of the writer does to what is shared. -/
inductive WriterEffect (shared : Shared) (writer : Writer) : Shared → Writer → Prop where
  | went (next : Writer) (same : writerHolds next.phase = writerHolds writer.phase)
      (behind : ahead writer.phase = false) (early : Stored shared next.phase)
      (left : pending next = pending writer) (finished : next.finished = writer.finished) :
      WriterEffect shared writer shared next
  | locked (next : Writer) (free : shared.indexReaderMutex = none)
      (inside : writerHolds next.phase = true)
      (behind : ahead writer.phase = false) (early : Stored shared next.phase)
      (left : pending next = pending writer) (finished : next.finished = writer.finished) :
      WriterEffect shared writer { shared with indexReaderMutex := some .writer } next
  | unlocked (next : Writer) (inside : writerHolds writer.phase = true)
      (outside : writerHolds next.phase = false)
      (behind : ahead writer.phase = false) (early : Stored shared next.phase)
      (left : (pending next).Sublist (pending writer))
      (finished : ∀ snapshot ∈ next.finished,
        snapshot ∈ writer.finished ∨ writer.phase = .unlocking snapshot) :
      WriterEffect shared writer { shared with indexReaderMutex := none } next
  | installed (snapshot : CommitSnapshot) (here : writer.phase = .installing snapshot) :
      WriterEffect shared writer { shared with indexReader := some ⟨snapshot⟩ }
        { writer with phase := .advertisingTime snapshot true }
  | timed (snapshot : CommitSnapshot) (locked : Bool)
      (here : writer.phase = .advertisingTime snapshot locked) :
      WriterEffect shared writer { shared with lastAdvertisedCommitTime := snapshot.commitTime }
        { writer with phase := .advertisingSchema snapshot locked }
  | compared (snapshot : CommitSnapshot) (locked : Bool)
      (here : writer.phase = .advertisingSchema snapshot locked) :
      WriterEffect shared writer { shared with publishedSchemaGen := snapshot.schemaGen }
        { writer with phase := .storing snapshot locked }
  | stored (snapshot : CommitSnapshot) (locked : Bool)
      (here : writer.phase = .storing snapshot locked) :
      WriterEffect shared writer { shared with published := some snapshot }
        (if locked then { writer with phase := .unlocking snapshot } else writer.finish snapshot)

theorem writer_effect (step : Writer.act opens shared writer = some (after, next)) :
    WriterEffect shared writer after next := by
  rcases writer with ⟨phase, script, finished⟩
  unfold Writer.act at step
  cases phase with
  | idle =>
    dsimp only at step
    split at step <;> cases step
    case h_2 publication rest =>
      apply WriterEffect.went
      · cases publication with
        | mk snap opened => cases opened <;> simp [Writer.start, writerHolds]
      · simp [ahead]
      · cases publication with
        | mk snap opened => cases opened <;> simp [Writer.start, Stored]
      · cases publication with
        | mk snap opened => cases opened <;> simp [Writer.start, pending, current]
      · rfl
  | preparing | prepared =>
    dsimp only at step
    split at step <;> cases step
    case h_1 free => exact .locked _ free rfl rfl trivial (by simp [pending, current]) rfl
  | opening =>
    cases step
    apply WriterEffect.unlocked
    · rfl
    · split <;> rfl
    · rfl
    · split <;> trivial
    · dsimp only [pending]
      split <;> simp [current]
    · exact fun _ found => .inl found
  | checking =>
    dsimp only at step
    split at step <;> cases step
    · exact .unlocked _ rfl rfl rfl trivial (by simp [pending, current]) fun _ found => .inl found
    · exact .went _ rfl rfl trivial (by simp [pending, current]) rfl
  | installing snap =>
    cases step
    exact .installed snap rfl
  | advertisingTime snap locked =>
    cases step
    exact .timed snap locked rfl
  | advertisingSchema snap locked =>
    cases step
    exact .compared snap locked rfl
  | storing snap locked =>
    cases step
    exact .stored snap locked rfl
  | unlocking =>
    cases step
    apply WriterEffect.unlocked
    · rfl
    · rfl
    · rfl
    · trivial
    · simp [Writer.finish, pending, current]
    · intro other found
      rcases List.mem_cons.mp found with rfl | found
      · exact .inr rfl
      · exact .inl found

theorem current_pending (taken : current writer.phase = some snap) : snap ∈ pending writer := by
  simp [pending, taken]

theorem current_le (ordered : (pending writer).Pairwise (· ≤ ·))
    (taken : current writer.phase = some snap) (waits : later ∈ pending writer) : snap ≤ later := by
  unfold pending at ordered waits
  rw [taken] at ordered waits
  rcases List.mem_cons.mp waits with rfl | waits
  · exact le_rfl
  · exact List.rel_of_pairwise_cons ordered waits

variable (effect : WriterEffect shared writer after next)
include effect

theorem WriterEffect.locks
    (own : writerHolds writer.phase = true ↔ shared.indexReaderMutex = some .writer) :
    (writerHolds next.phase = true ↔ after.indexReaderMutex = some .writer) ∧
    ∀ thread ≠ Thread.writer,
      (shared.indexReaderMutex = some thread ↔ after.indexReaderMutex = some thread) := by
  cases effect with
  | went next same => exact ⟨by rw [same, own], fun _ _ => Iff.rfl⟩
  | locked next free lt =>
    constructor
    · simp [lt]
    · intro thread other
      simp [free, Ne.symm other]
  | unlocked next lt outside =>
    have mine := own.mp lt
    constructor
    · simp [outside]
    · intro thread other
      simp [mine, Ne.symm other]
  | installed snap here | timed snap locked here | compared snap locked here =>
    rw [here] at own
    exact ⟨own, fun _ _ => Iff.rfl⟩
  | stored snap locked here =>
    rw [here] at own
    constructor
    · cases locked <;> exact own
    · exact fun _ _ => Iff.rfl

theorem WriterEffect.grows (below : ∀ snap ∈ pending writer, Below shared snap) :
    Grows shared after := by
  cases effect with
  | went => exact .refl shared
  | locked | unlocked => exact { Grows.refl shared with }
  | installed snap here =>
    have under := below snap (current_pending (by rw [here]; rfl))
    exact { Grows.refl shared with
      installed := fun older found => ⟨_, rfl, under.installed older found⟩ }
  | timed snap locked here =>
    have under := below snap (current_pending (by rw [here]; rfl))
    exact { Grows.refl shared with time := under.time }
  | compared snap locked here =>
    have under := below snap (current_pending (by rw [here]; rfl))
    exact { Grows.refl shared with schema := under.schema }
  | stored snap locked here =>
    have under := below snap (current_pending (by rw [here]; rfl))
    exact { Grows.refl shared with
      published := fun older found => ⟨snap, rfl, under.published older found⟩ }

theorem WriterEffect.left : (pending next).Sublist (pending writer) := by
  cases effect with
  | went next same behind early left | locked next free lt behind early left =>
    simp [left]
  | unlocked next lt outside behind early left => exact left
  | installed snap here | timed snap locked here | compared snap locked here =>
    simp [pending, current, here]
  | stored snap locked here => cases locked <;> simp [pending, current, here, Writer.finish]

theorem WriterEffect.below (ordered : (pending writer).Pairwise (· ≤ ·))
    (below : ∀ snap ∈ pending writer, Below shared snap)
    (waits : later ∈ pending next) : Below after later := by
  have waited := effect.left.subset waits
  have under := below later waited
  cases effect with
  | went => exact under
  | locked | unlocked => exact { under with }
  | installed snap here =>
    have newer := current_le ordered (by rw [here]; rfl) waited
    exact { under with installed := by simpa using newer }
  | timed snap locked here =>
    have newer := current_le ordered (by rw [here]; rfl) waited
    exact { under with time := newer.1 }
  | compared snap locked here =>
    have newer := current_le ordered (by rw [here]; rfl) waited
    exact { under with schema := newer.2 }
  | stored snap locked here =>
    have newer := current_le ordered (by rw [here]; rfl) waited
    exact { under with published := by simpa using newer }

theorem WriterEffect.stored_next (stored : Stored shared writer.phase) :
    Stored after next.phase := by
  cases effect with
  | went next same behind early => exact early
  | locked next free lt behind early | unlocked next lt outside behind early =>
    exact early.grows { Grows.refl shared with }
  | installed => trivial
  | timed snap => exact le_refl snap.commitTime
  | compared snap locked here =>
    rw [here] at stored
    exact ⟨stored, le_rfl⟩
  | stored snap locked here =>
    rw [here] at stored
    cases locked with
    | false => trivial
    | true => exact ⟨stored.1, stored.2, snap, rfl, le_rfl⟩

theorem WriterEffect.finished_next (stored : Stored shared writer.phase)
    (below : ∀ snap ∈ pending writer, Below shared snap)
    (finished : ∀ snap ∈ writer.finished, Seen snap shared) {older : CommitSnapshot}
    (returned : older ∈ next.finished) : Seen older after := by
  have grows := effect.grows below
  cases effect with
  | went next same past early left kept | locked next free lt past early left kept =>
    exact (finished older (kept ▸ returned)).grows grows
  | unlocked next lt outside past early left kept =>
    rcases kept older returned with before | here
    · exact (finished older before).grows grows
    · rw [here] at stored
      exact Seen.grows stored grows
  | installed | timed | compared =>
    exact (finished older returned).grows grows
  | stored snap locked here =>
    rw [here] at stored
    cases locked with
    | true => exact (finished older returned).grows grows
    | false =>
      rcases List.mem_cons.mp returned with rfl | before
      · exact ⟨stored.1, stored.2, older, rfl, le_rfl⟩
      · exact (finished older before).grows grows

theorem WriterEffect.visible_next (below : ∀ snap ∈ pending writer, Below shared snap)
    (visible : ahead writer.phase = false →
      ∀ reader ∈ shared.indexReader, ∃ snap ∈ shared.published, reader.snapshot ≤ snap)
    (behind : ahead next.phase = false) :
    ∀ reader ∈ after.indexReader, ∃ snap ∈ after.published, reader.snapshot ≤ snap := by
  cases effect with
  | went next same before | locked next free lt before | unlocked next lt outside before =>
    exact visible before
  | installed => cases behind
  | timed snap locked here | compared snap locked here =>
    exact visible (by rw [here]; exact behind)
  | stored snap locked here =>
    have under := below snap (current_pending (by rw [here]; rfl))
    exact fun reader found => ⟨snap, rfl, under.installed reader found⟩

theorem WriterEffect.installed_next (outside : writerHolds writer.phase = false) :
    after.indexReader = shared.indexReader := by
  cases effect with
  | installed snap here =>
    rw [here] at outside
    cases outside
  | _ => rfl

end

variable {freshness : Nat → Nat} {state after : State} {event : Event}

theorem opened_holds {phase : CallPhase} (found : snap ∈ opened phase) : holds phase = true := by
  cases phase <;> first | rfl | cases found

theorem Locks.writer_outside (locks : Locks state)
    (lt : holds (state.calls num) = true) : writerHolds state.writer.phase = false := by
  by_contra other
  have mine := (locks.calls num).mp lt
  have theirs := locks.writer.mp (by simpa using other)
  rw [mine] at theirs
  cases theirs

theorem Locks.alone {num other : Nat} (locks : Locks state)
    (mine : holds (state.calls num) = true) (theirs : holds (state.calls other) = true) :
    other = num := by
  have first := (locks.calls num).mp mine
  rw [(locks.calls other).mp theirs] at first
  cases first
  rfl

theorem ahead_holds (outside : writerHolds phase = false) : ahead phase = false := by
  cases phase <;> first | rfl | exact outside

section
variable (sound : Sound state)
include sound

theorem writer_sound {next : Writer}
    (step : Writer.act opens state.shared state.writer = some (shared, next)) :
    Sound ⟨shared, next, state.calls⟩ ∧ Grows state.shared shared := by
  have effect := writer_effect step
  have grows := effect.grows sound.below
  obtain ⟨own, others⟩ := effect.locks sound.locks.writer
  refine ⟨?_, grows⟩
  exact {
    locks := ⟨fun num => (sound.locks.calls num).trans (others _ (by simp)), own⟩
    ordered := sound.ordered.sublist effect.left
    below := fun later waits => effect.below sound.ordered sound.below waits
    visible := effect.visible_next sound.below sound.visible
    follows := by
      intro num snap found
      obtain ⟨newest, newer, seen, le⟩ := sound.follows num snap found
      have outside := sound.locks.writer_outside (opened_holds found)
      obtain ⟨latest, seen, more⟩ := grows.published newer seen
      rw [effect.installed_next outside]
      exact ⟨newest, latest, seen, le.trans more⟩
    stored := effect.stored_next sound.stored
    finished := fun older returned =>
      effect.finished_next sound.stored sound.below sound.finished returned }

theorem follows_next (effect : CallEffect num state.shared (state.calls num) shared next)
    (found : snap ∈ opened next) : (∀ reader ∈ shared.indexReader, reader.snapshot ≤ snap) ∧
    ∃ newer ∈ shared.published, snap ≤ newer := by
  cases effect with
  | read next same source =>
    rcases source snap found with before | ⟨published, lt⟩
    · exact sound.follows num snap before
    refine ⟨fun reader installed => ?_, snap, published, le_rfl⟩
    have past := ahead_holds (sound.locks.writer_outside lt)
    obtain ⟨newer, same, le⟩ := sound.visible past reader installed
    rw [Option.mem_unique published same]
    exact le
  | locked | installed => cases found
  | unlocked next lt outside nothing =>
    rw [nothing] at found
    cases found

/-- What is installed is either as before, or no newer than what is published. -/
theorem installed_next (effect : CallEffect num state.shared (state.calls num) shared next)
    {reader : IndexReader} (found : reader ∈ shared.indexReader) :
    reader ∈ state.shared.indexReader ∨
    ∃ newer ∈ state.shared.published, reader.snapshot ≤ newer := by
  cases effect with
  | read | locked | unlocked =>
    exact .inl found
  | installed opened here =>
    cases found
    exact .inr (sound.follows num reader.snapshot (by rw [here]; rfl)).2

theorem call_sound (step : act num (freshness num) now opens state.shared (state.calls num) =
      some (shared, next)) : Sound ⟨shared, state.writer, update state.calls num next⟩ ∧
    Grows state.shared shared := by
  have effect := act_effect step
  have grows := effect.grows fun snap found => (sound.follows num snap found).1
  obtain ⟨published, schema, time, -⟩ := effect.same
  obtain ⟨own, others⟩ := effect.locks (sound.locks.calls num)
  refine ⟨?_, grows⟩
  exact {
    locks := by
      constructor
      · intro other
        by_cases same : other = num
        · rw [same]
          dsimp only
          rw [update_self]
          exact own
        · dsimp only
          rw [update_of_ne same]
          exact (sound.locks.calls other).trans (others _ (by simpa using same))
      · exact sound.locks.writer.trans (others _ (by simp))
    ordered := sound.ordered
    below := by
      intro later waits
      have under := sound.below later waits
      refine ⟨time ▸ under.time, schema ▸ under.schema, published ▸ under.published, ?_⟩
      intro reader found
      rcases installed_next sound effect found with before | ⟨newer, seen, le⟩
      · exact under.installed reader before
      · exact le.trans (under.published newer seen)
    visible := by
      intro past reader found
      rw [published]
      rcases installed_next sound effect found with before | seen
      · exact sound.visible past reader before
      · exact seen
    follows := by
      intro other snap found
      by_cases same : other = num
      · rw [same] at found
        dsimp only at found
        rw [update_self] at found
        exact follows_next sound effect found
      · dsimp only at found
        rw [update_of_ne same] at found
        have lt := opened_holds found
        have kept : shared.indexReader = state.shared.indexReader := by
          cases effect with
          | installed reader here =>
            exact absurd (sound.locks.alone (by rw [here]; rfl) lt) same
          | _ => rfl
        rw [kept, published]
        exact sound.follows other snap found
    stored := sound.stored.grows grows
    finished := fun older returned => (sound.finished older returned).grows grows }

theorem close_sound : Sound { state with shared := { state.shared with closed := true } } where
  locks := ⟨sound.locks.calls, sound.locks.writer⟩
  ordered := sound.ordered
  below later waits := { sound.below later waits with }
  visible := sound.visible
  follows := sound.follows
  stored := sound.stored.grows { Grows.refl state.shared with }
  finished older returned := (sound.finished older returned).grows { Grows.refl state.shared with }

omit sound in
theorem call_some (step : state.act freshness (.call num now opens) = some after) :
    ∃ shared next, act num (freshness num) now opens state.shared (state.calls num) =
        some (shared, next) ∧
      after = ⟨shared, state.writer, update state.calls num next⟩ := by
  unfold State.act at step
  dsimp only at step
  split at step <;> cases step
  next shared next moved => exact ⟨shared, next, moved, rfl⟩

omit sound in
theorem writer_some (step : state.act freshness (.writer opens) = some after) :
    ∃ shared next, Writer.act opens state.shared state.writer = some (shared, next) ∧
      after = ⟨shared, next, state.calls⟩ := by
  unfold State.act at step
  dsimp only at step
  split at step <;> cases step
  next shared next moved => exact ⟨shared, next, moved, rfl⟩

theorem act_sound (step : state.act freshness event = some after) :
    Sound after ∧ Grows state.shared after.shared := by
  cases event with
  | call =>
    obtain ⟨shared, next, moved, rfl⟩ := call_some step
    exact call_sound sound moved
  | writer =>
    obtain ⟨shared, next, moved, rfl⟩ := writer_some step
    exact writer_sound sound moved
  | close =>
    cases step
    exact ⟨close_sound sound, { Grows.refl state.shared with }⟩

theorem run_sound {events : List Event} (ran : state.run freshness events = some after) :
    Sound after ∧ Grows state.shared after.shared := by
  induction events generalizing state with
  | nil =>
    cases ran
    exact ⟨sound, .refl _⟩
  | cons event rest ih =>
    obtain ⟨next, step, ran⟩ := Lib.Runs.foldlM_cons_some ran
    obtain ⟨later, grows⟩ := act_sound sound step
    obtain ⟨last, more⟩ := ih later ran
    exact ⟨last, grows.trans more⟩

end

/-- Commit times increase and schemas do not go back. -/
def Increasing (script : List Publication) : Prop :=
  script.Pairwise fun first second =>
    first.snapshot.commitTime < second.snapshot.commitTime ∧
    first.snapshot.schemaGen ≤ second.snapshot.schemaGen

theorem initial_sound {script : List Publication} (rising : Increasing script) :
    Sound (State.initial script) where
  locks := ⟨fun _ => by simp [State.initial, holds, Shared.initial],
    by simp [State.initial, writerHolds, Shared.initial]⟩
  ordered := List.Pairwise.map _ (fun _ _ newer => ⟨newer.1.le, newer.2⟩) rising
  below _ _ := ⟨Nat.zero_le _, Nat.zero_le _, by simp [State.initial, Shared.initial],
    by simp [State.initial, Shared.initial]⟩
  visible _ := by simp [State.initial, Shared.initial]
  follows _ := by simp [State.initial, opened]
  stored := trivial
  finished := by simp [State.initial]

end Luxir.Search.ReaderPublication
