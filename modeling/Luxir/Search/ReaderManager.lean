import Mathlib.Algebra.Order.Ring.Nat

/-!
The publication of snapshots to searches. One writer publishes snapshots, with or without a reader
that was opened for them, while any number of calls ask for a reader. Every load and store of the
manager's atomics, and every change of its lock, is a step.
-/

namespace Luxir.Search.ReaderManager

structure CommitSnapshot where
  commitTime : Nat
  schemaGen : Nat
deriving DecidableEq, Repr

/-- A reader has the commit time and the schema of the snapshot it was opened for. -/
structure IndexReader where
  snapshot : CommitSnapshot
deriving DecidableEq, Repr

def IndexReader.commitTime (reader : IndexReader) : Nat := reader.snapshot.commitTime

def IndexReader.schemaGen (reader : IndexReader) : Nat := reader.snapshot.schemaGen

inductive Thread where
  | writer
  | call (number : Nat)
deriving DecidableEq, Repr

structure Shared where
  published : Option CommitSnapshot
  publishedSchemaGen : Nat
  lastAdvertisedCommitTime : Nat
  indexReader : Option IndexReader
  indexReaderMutex : Option Thread
  closed : Bool
deriving DecidableEq, Repr

namespace Shared

def initial : Shared := ⟨none, 0, 0, none, none, false⟩

def stale (shared : Shared) (freshness now : Nat) (reader : IndexReader) : Bool :=
  if shared.lastAdvertisedCommitTime ≤ reader.commitTime then false
  else if freshness = 0 then true
  else decide (freshness < (now + 2 ^ 64 - reader.commitTime) % 2 ^ 64)

def schemaChanged (shared : Shared) (reader : IndexReader) : Bool :=
  decide (reader.schemaGen < shared.publishedSchemaGen)

end Shared

/-- What a call of `getReader` does next. -/
inductive CallPhase where
  | idle
  | loading (locked : Bool)
  | timing (locked : Bool) (reader : IndexReader)
  | comparing (locked : Bool) (reader : IndexReader)
  | locking
  | checking
  | reading
  | opening (snapshot : CommitSnapshot)
  /-- The snapshot could not be opened. -/
  | rechecking (snapshot : CommitSnapshot)
  | following (reader : IndexReader)
  | installing (reader : IndexReader)
  | unlocking (reader : IndexReader)
  | returned (reader : IndexReader)
  | throwing
  | threw
deriving DecidableEq, Repr

namespace CallPhase

/-- The reader will not do: the lock is taken, or a reader is opened under it. -/
def refresh (locked : Bool) : CallPhase := if locked then .checking else .locking

def accept (locked : Bool) (reader : IndexReader) : CallPhase :=
  if locked then .unlocking reader else .returned reader

/-- A step of `getReader`. The clock is at `now`, and a snapshot can be opened if `opens`. -/
def act (number freshness now : Nat) (opens : Bool) (shared : Shared) :
    CallPhase → Option (Shared × CallPhase)
  | .idle => some (shared, if shared.closed then .threw else .loading false)
  | .loading locked =>
      match shared.indexReader with
      | none => some (shared, refresh locked)
      | some reader => some (shared, .timing locked reader)
  | .timing locked reader =>
      some (shared, if shared.stale freshness now reader then refresh locked
        else .comparing locked reader)
  | .comparing locked reader =>
      some (shared, if shared.schemaChanged reader then refresh locked else accept locked reader)
  | .locking =>
      match shared.indexReaderMutex with
      | none => some ({ shared with indexReaderMutex := some (.call number) }, .loading true)
      | some _ => none
  | .checking => some (shared, if shared.closed then .throwing else .reading)
  | .reading =>
      match shared.published with
      | none => some (shared, .throwing)
      | some snapshot => some (shared, .opening snapshot)
  | .opening snapshot =>
      some (shared, if opens then .following ⟨snapshot⟩ else .rechecking snapshot)
  | .rechecking snapshot =>
      some (shared, if shared.published = some snapshot then .throwing else .checking)
  | .following reader =>
      match shared.published with
      | none => none
      | some snapshot =>
          some (shared, if reader.schemaGen < snapshot.schemaGen then .checking
            else .installing reader)
  | .installing reader => some ({ shared with indexReader := some reader }, .unlocking reader)
  | .unlocking reader => some ({ shared with indexReaderMutex := none }, .returned reader)
  | .throwing => some ({ shared with indexReaderMutex := none }, .threw)
  | .returned _ => none
  | .threw => none

end CallPhase

/-- What the writer does next: to open a reader with `prepare`, and to `publish`. -/
inductive WriterPhase where
  | idle
  | preparing (snapshot : CommitSnapshot)
  | opening (snapshot : CommitSnapshot)
  | prepared (snapshot : CommitSnapshot)
  | checking (snapshot : CommitSnapshot)
  | installing (snapshot : CommitSnapshot)
  | advertisingTime (snapshot : CommitSnapshot) (locked : Bool)
  | advertisingSchema (snapshot : CommitSnapshot) (locked : Bool)
  | storing (snapshot : CommitSnapshot) (locked : Bool)
  | unlocking (snapshot : CommitSnapshot)
deriving DecidableEq, Repr

structure Publication where
  snapshot : CommitSnapshot
  opened : Bool
deriving DecidableEq, Repr

structure Writer where
  phase : WriterPhase
  script : List Publication
  /-- The snapshots whose `publish` has returned. -/
  finished : List CommitSnapshot
deriving DecidableEq, Repr

namespace Writer

def start (writer : Writer) (publication : Publication) (rest : List Publication) : Writer :=
  { writer with
    phase := if publication.opened then .preparing publication.snapshot
      else .advertisingTime publication.snapshot false
    script := rest }

def finish (writer : Writer) (snapshot : CommitSnapshot) : Writer :=
  { writer with phase := .idle, finished := snapshot :: writer.finished }

/-- A step of the writer. A publication whose reader cannot be opened is not made. -/
def act (opens : Bool) (shared : Shared) (writer : Writer) : Option (Shared × Writer) :=
  match writer.phase with
  | .idle =>
      match writer.script with
      | [] => none
      | publication :: rest => some (shared, writer.start publication rest)
  | .preparing snapshot =>
      match shared.indexReaderMutex with
      | none =>
          some ({ shared with indexReaderMutex := some .writer },
            { writer with phase := .opening snapshot })
      | some _ => none
  | .opening snapshot =>
      some ({ shared with indexReaderMutex := none },
        { writer with phase := if shared.closed || !opens then .idle else .prepared snapshot })
  | .prepared snapshot =>
      match shared.indexReaderMutex with
      | none =>
          some ({ shared with indexReaderMutex := some .writer },
            { writer with phase := .checking snapshot })
      | some _ => none
  | .checking snapshot =>
      if shared.closed then
        some ({ shared with indexReaderMutex := none }, { writer with phase := .idle })
      else some (shared, { writer with phase := .installing snapshot })
  | .installing snapshot =>
      some ({ shared with indexReader := some ⟨snapshot⟩ },
        { writer with phase := .advertisingTime snapshot true })
  | .advertisingTime snapshot locked =>
      some ({ shared with lastAdvertisedCommitTime := snapshot.commitTime },
        { writer with phase := .advertisingSchema snapshot locked })
  | .advertisingSchema snapshot locked =>
      some ({ shared with publishedSchemaGen := snapshot.schemaGen },
        { writer with phase := .storing snapshot locked })
  | .storing snapshot locked =>
      some ({ shared with published := some snapshot },
        if locked then { writer with phase := .unlocking snapshot } else writer.finish snapshot)
  | .unlocking snapshot =>
      some ({ shared with indexReaderMutex := none }, writer.finish snapshot)

end Writer

structure State where
  shared : Shared
  writer : Writer
  calls : Nat → CallPhase

inductive Event where
  | call (number now : Nat) (opens : Bool)
  | writer (opens : Bool)
  | close
deriving DecidableEq, Repr

namespace State

def initial (script : List Publication) : State := ⟨.initial, ⟨.idle, script, []⟩, fun _ => .idle⟩

/-- One thread steps. The calls' arguments are given by `freshness`. -/
def act (freshness : Nat → Nat) (state : State) : Event → Option State
  | .call number now opens =>
      match CallPhase.act number (freshness number) now opens state.shared (state.calls number) with
      | none => none
      | some (shared, phase) =>
          some ⟨shared, state.writer, Function.update state.calls number phase⟩
  | .writer opens =>
      match Writer.act opens state.shared state.writer with
      | none => none
      | some (shared, writer) => some ⟨shared, writer, state.calls⟩
  | .close => some { state with shared := { state.shared with closed := true } }

def run (freshness : Nat → Nat) (state : State) (events : List Event) : Option State :=
  events.foldlM (act freshness) state

end State

end Luxir.Search.ReaderManager
