import Luxir.Search.ReaderPublication

/-!
A call that starts when a snapshot is published. What it reads, and the reader that it returns, are
no older; it ends after a number of steps that the writer's publications bound.
-/

namespace Luxir.Search.ReaderFreshness
open ReaderManager ReaderPublication CallPhase

variable {num freshness now : Nat} {opens : Bool} {shared after : Shared} {phase next : CallPhase}
  {floor : CommitSnapshot}

section
variable {reader : IndexReader}

def Fresh (floor : CommitSnapshot) : CallPhase → Prop
  | .comparing _ reader => floor.commitTime ≤ reader.commitTime
  | .opening snapshot => floor ≤ snapshot
  | .following reader => floor ≤ reader.snapshot
  | .installing reader => floor ≤ reader.snapshot
  | .unlocking reader => floor ≤ reader.snapshot
  | .returned reader => floor ≤ reader.snapshot
  | _ => True

theorem fresh_accept {locked : Bool} (newer : floor ≤ reader.snapshot) :
    Fresh floor (accept locked reader) := by
  cases locked <;> exact newer

theorem fresh_of_current (seen : Seen floor shared)
    (current : shared.stale 0 now reader = false) : floor.commitTime ≤ reader.commitTime := by
  unfold Shared.stale at current
  split at current
  case isTrue advertised => exact seen.time.trans advertised
  case isFalse => cases current

theorem act_fresh (seen : Seen floor shared) (fresh : Fresh floor phase)
    (step : act num 0 now opens shared phase = some (after, next)) : Fresh floor next := by
  cases phase with
  | idle | checking | rechecking =>
    cases step
    split <;> trivial
  | loading locked =>
    unfold act at step
    dsimp only at step
    split at step <;> cases step
    · cases locked <;> trivial
    · trivial
  | timing locked =>
    cases step
    split
    case isTrue => cases locked <;> trivial
    case isFalse current => exact fresh_of_current seen (by simpa using current)
  | comparing locked reader =>
    cases step
    split
    case isTrue => cases locked <;> trivial
    case isFalse same =>
      apply fresh_accept
      have schema : shared.publishedSchemaGen ≤ reader.schemaGen := by
        simpa [Shared.schemaChanged] using same
      exact ⟨fresh, seen.schema.trans schema⟩
  | locking =>
    unfold act at step
    dsimp only at step
    split at step <;> cases step
    trivial
  | reading =>
    obtain ⟨snap, published, newer⟩ := seen.published
    unfold act at step
    rw [Option.mem_def.mp published] at step
    cases step
    exact newer
  | opening =>
    cases step
    cases opens with
    | false => trivial
    | true => exact fresh
  | following =>
    unfold act at step
    dsimp only at step
    split at step <;> cases step
    split
    · trivial
    · exact fresh
  | installing | unlocking =>
    cases step
    exact fresh
  | throwing =>
    cases step
    trivial
  | returned | threw => cases step

def failing : CallPhase → Bool
  | .rechecking _ => true
  | .throwing => true
  | .threw => true
  | _ => false

theorem act_failing (seen : Seen floor shared) (run : shared.closed = false)
    (well : failing phase = false)
    (step : act num freshness now true shared phase = some (after, next)) :
    failing next = false := by
  cases phase with
  | idle | checking =>
    cases step
    rw [run]
    rfl
  | loading locked =>
    unfold act at step
    dsimp only at step
    split at step <;> cases step
    · cases locked <;> rfl
    · rfl
  | timing locked =>
    cases step
    split
    · cases locked <;> rfl
    · rfl
  | comparing locked reader =>
    cases step
    split
    · cases locked <;> rfl
    · cases locked <;> rfl
  | locking =>
    unfold act at step
    dsimp only at step
    split at step <;> cases step
    rfl
  | reading =>
    obtain ⟨snap, published, -⟩ := seen.published
    unfold act at step
    rw [Option.mem_def.mp published] at step
    cases step
    rfl
  | following =>
    unfold act at step
    dsimp only at step
    split at step <;> cases step
    split <;> rfl
  | opening | installing | unlocking =>
    cases step
    rfl
  | rechecking | throwing => cases well
  | returned | threw => cases step

end

/-- The steps that a call has before it if no snapshot is published meanwhile. -/
def stages : CallPhase → Nat
  | .idle => 15
  | .loading locked => if locked then 10 else 14
  | .timing locked _ => if locked then 9 else 13
  | .comparing locked _ => if locked then 8 else 12
  | .locking => 11
  | .checking => 7
  | .reading => 6
  | .opening _ => 5
  | .rechecking _ => 4
  | .following _ => 4
  | .installing _ => 3
  | .unlocking _ => 2
  | .throwing => 2
  | .returned _ => 0
  | .threw => 0

def behind (shared : Shared) : CallPhase → Nat
  | .opening snapshot => if shared.published = some snapshot then 0 else 1
  | .rechecking snapshot => if shared.published = some snapshot then 0 else 1
  | .following reader => if shared.published = some reader.snapshot then 0 else 1
  | _ => 0

/-- A call goes back to open another snapshot only if one was published since. -/
def effort (shared : Shared) (phase : CallPhase) : Nat := 8 * behind shared phase + stages phase

theorem behind_le (shared : Shared) (phase : CallPhase) : behind shared phase ≤ 1 := by
  cases phase <;> simp only [behind] <;> first | omega | split <;> omega

theorem act_effort (step : act num freshness now opens shared phase = some (after, next)) :
    effort after next < effort shared phase := by
  unfold act at step
  cases phase with
  | idle | checking | opening =>
    cases step
    split <;> simp [effort, behind, stages]
  | loading locked =>
    dsimp only at step
    split at step <;> cases step
    · cases locked <;> simp [refresh, effort, behind, stages]
    · cases locked <;> simp [effort, behind, stages]
  | timing locked =>
    cases step
    split <;> cases locked <;> simp [refresh, effort, behind, stages]
  | comparing locked =>
    cases step
    split <;> cases locked <;> simp [refresh, accept, effort, behind, stages]
  | locking =>
    dsimp only at step
    split at step <;> cases step
    simp [effort, behind, stages]
  | reading =>
    dsimp only at step
    split at step <;> cases step
    case h_1 => simp [effort, behind, stages]
    case h_2 snap published => simp [effort, behind, stages, published]
  | rechecking =>
    cases step
    split
    case isTrue published => simp [effort, behind, stages, published]
    case isFalse changed => simp [effort, behind, stages, changed]
  | following reader =>
    dsimp only at step
    split at step <;> cases step
    case h_2 snap published =>
      split
      case isTrue newer =>
        have changed : snap ≠ reader.snapshot := by
          rintro rfl
          exact absurd newer (lt_irrefl _)
        simp [effort, behind, stages, published, changed]
      case isFalse => simp [effort, behind, stages]
  | installing | unlocking | throwing =>
    cases step
    simp [effort, behind, stages]
  | returned | threw => cases step

theorem effort_same (published : after.published = shared.published) (phase : CallPhase) :
    effort after phase = effort shared phase := by
  cases phase <;> simp [effort, behind, published]

theorem writer_effort {writer moved : Writer} (effect : WriterEffect shared writer after moved)
    (phase : CallPhase) : 16 * (pending moved).length + effort after phase ≤
      16 * (pending writer).length + effort shared phase := by
  have left := effect.left.length_le
  have same : after.published = shared.published ∨
      (pending moved).length + 1 = (pending writer).length := by
    cases effect with
    | stored snap locked here =>
      right
      cases locked <;> simp [pending, current, here, Writer.finish]
    | _ => exact .inl rfl
  rcases same with published | stored
  · rw [effort_same published]
    omega
  · have later := behind_le after phase
    unfold effort
    omega

theorem holder_acts (lt : holds phase = true)
    (follows : ∀ snap ∈ opened phase, ∃ newer ∈ shared.published, snap ≤ newer) :
    act num freshness now opens shared phase ≠ none := by
  cases phase with
  | loading =>
    unfold act
    cases shared.indexReader <;> simp
  | locking | returned | threw => cases lt
  | reading =>
    unfold act
    cases shared.published <;> simp
  | following reader =>
    obtain ⟨newer, published, -⟩ := follows reader.snapshot rfl
    unfold act
    rw [Option.mem_def.mp published]
    simp
  | _ => simp [act]

theorem writer_acts {writer : Writer} (lt : writerHolds writer.phase = true) :
    Writer.act opens shared writer ≠ none := by
  rcases writer with ⟨phase⟩
  unfold Writer.act
  cases phase with
  | idle | preparing | prepared => cases lt
  | checking =>
    dsimp only
    split <;> simp
  | _ => simp

def ended : CallPhase → Bool
  | .returned _ => true
  | .threw => true
  | _ => false

theorem outside_acts (outside : holds phase = false) (free : phase ≠ .locking)
    (more : ended phase = false) : act num freshness now opens shared phase ≠ none := by
  cases phase with
  | loading =>
    unfold act
    cases shared.indexReader <;> simp
  | locking => exact absurd rfl free
  | returned | threw => cases more
  | reading | following => cases outside
  | _ => simp [act]

section
variable {freshness : Nat → Nat} {state after : State} {num : Nat} {event : Event}
  {events : List Event}

def mine (number : Nat) : Event → Bool
  | .call other _ _ => other == number
  | _ => false

def rank (state : State) (number : Nat) : Nat :=
  16 * (pending state.writer).length + effort state.shared (state.calls number)

theorem act_rank (step : state.act freshness event = some after) :
    (if mine num event then 1 else 0) + rank after num ≤ rank state num := by
  cases event with
  | call other =>
    obtain ⟨shared, next, moved, rfl⟩ := call_some step
    unfold rank
    by_cases same : other = num
    · rw [same] at moved ⊢
      have less := act_effort moved
      simp only [mine, beq_self_eq_true, if_true, Function.update_self]
      omega
    · have published := (act_effect moved).same.1
      dsimp only
      rw [Function.update_of_ne (Ne.symm same), effort_same published]
      simp [mine, same]
  | writer =>
    obtain ⟨shared, next, moved, rfl⟩ := writer_some step
    have less := writer_effort (writer_effect moved) (state.calls num)
    simpa [mine, rank] using less
  | close =>
    cases step
    have same : effort { state.shared with closed := true } (state.calls num) =
        effort state.shared (state.calls num) := effort_same rfl _
    simpa [mine, rank] using same.le

theorem run_rank (ran : state.run freshness events = some after) :
    events.countP (mine num) + rank after num ≤ rank state num :=
  Lib.Runs.countP_le (rank · num) (mine num) act_rank ran

/-- A call's own steps keep its promise, and no other thread touches it. -/
theorem act_call (kept : CallPhase → Prop) (moves : Event → Prop)
    (own : ∀ {now opens shared next}, moves (.call num now opens) →
      act num (freshness num) now opens state.shared (state.calls num) =
        some (shared, next) → kept (state.calls num) → kept next)
    (holding : kept (state.calls num)) (moving : moves event)
    (step : state.act freshness event = some after) : kept (after.calls num) := by
  cases event with
  | call other =>
    obtain ⟨shared, next, moved, rfl⟩ := call_some step
    by_cases same : num = other
    · subst same
      dsimp only
      rw [Function.update_self]
      exact own moving moved holding
    · dsimp only
      rw [Function.update_of_ne same]
      exact holding
  | writer =>
    obtain ⟨shared, next, moved, rfl⟩ := writer_some step
    exact holding
  | close =>
    cases step
    exact holding

theorem run_fresh (zero : freshness num = 0) (sound : Sound state)
    (seen : Seen floor state.shared) (fresh : Fresh floor (state.calls num))
    (ran : state.run freshness events = some after) : Fresh floor (after.calls num) := by
  induction events generalizing state with
  | nil =>
    cases ran
    exact fresh
  | cons event rest ih =>
    obtain ⟨next, step, ran⟩ := Lib.Runs.foldlM_cons_some ran
    obtain ⟨later, grows⟩ := act_sound sound step
    have kept : Fresh floor (next.calls num) := by
      apply act_call (Fresh floor) (fun _ => True) _ fresh trivial step
      intro now opens shared phase _ moved holding
      rw [zero] at moved
      exact act_fresh seen holding moved
    exact ih later (seen.grows grows) kept ran

/-- The manager stays open, and the call can open the snapshots that it reads. -/
def smooth (number : Nat) : Event → Bool
  | .call other _ opens => opens || other != number
  | .writer _ => true
  | .close => false

theorem act_open (run : state.shared.closed = false) (moving : smooth num event = true)
    (step : state.act freshness event = some after) : after.shared.closed = false := by
  cases event with
  | call =>
    obtain ⟨shared, next, moved, rfl⟩ := call_some step
    rw [(act_effect moved).same.2.2.2, run]
  | writer =>
    obtain ⟨shared, next, moved, rfl⟩ := writer_some step
    have same : shared.closed = state.shared.closed := by
      cases writer_effect moved <;> rfl
    rw [same, run]
  | close => cases moving

theorem run_well (sound : Sound state) (seen : Seen floor state.shared)
    (run : state.shared.closed = false) (well : failing (state.calls num) = false)
    (moving : ∀ event ∈ events, smooth num event = true)
    (ran : state.run freshness events = some after) : failing (after.calls num) = false := by
  induction events generalizing state with
  | nil =>
    cases ran
    exact well
  | cons event rest ih =>
    obtain ⟨next, step, ran⟩ := Lib.Runs.foldlM_cons_some ran
    have first := moving event List.mem_cons_self
    obtain ⟨later, grows⟩ := act_sound sound step
    have kept : failing (next.calls num) = false := by
      apply act_call (failing · = false) (smooth num · = true) _ well first step
      intro now opens shared phase allowed moved holding
      have opens : opens = true := by simpa [smooth] using allowed
      rw [opens] at moved
      exact act_failing seen run holding moved
    exact ih later (seen.grows grows) (act_open run first step) kept
      (fun event found => moving event (List.mem_cons_of_mem _ found)) ran

/-- A call that has not ended can step, or waits for the lock, whose holder can step. -/
inductive Proceeds (freshness : Nat → Nat) (state : State) (number : Nat) : Prop where
  | returned (reader : IndexReader) (here : state.calls number = .returned reader)
  | threw (here : state.calls number = .threw)
  | steps (can : ∀ now opens, state.act freshness (.call number now opens) ≠ none)
  | waits (other : Nat) (can : ∀ now opens, state.act freshness (.call other now opens) ≠ none)
  | waitsForWriter (can : ∀ opens, state.act freshness (.writer opens) ≠ none)

theorem call_steps {now : Nat} {opens : Bool}
    (can : act num (freshness num) now opens state.shared (state.calls num) ≠
      none) : state.act freshness (.call num now opens) ≠ none := by
  unfold State.act
  dsimp only
  split
  case h_1 stuck => exact absurd stuck can
  case h_2 => simp

theorem holder_steps (sound : Sound state) (lt : holds (state.calls num) = true)
    (now : Nat) (opens : Bool) : state.act freshness (.call num now opens) ≠ none :=
  call_steps (holder_acts lt fun snap found => (sound.follows num snap found).2)

theorem writer_steps (lt : writerHolds state.writer.phase = true) (opens : Bool) :
    state.act freshness (.writer opens) ≠ none := by
  unfold State.act
  dsimp only
  split
  case h_1 stuck => exact absurd stuck (writer_acts lt)
  case h_2 => simp

theorem sound_proceeds (sound : Sound state) (num : Nat) : Proceeds freshness state num := by
  by_cases lt : holds (state.calls num) = true
  · exact .steps (holder_steps sound lt)
  have outside : holds (state.calls num) = false := by simpa using lt
  cases here : state.calls num with
  | locking =>
    cases mutex : state.shared.indexReaderMutex with
    | none =>
      apply Proceeds.steps
      intro now opens
      apply call_steps
      rw [here, act, mutex]
      simp
    | some thread =>
      cases thread with
      | writer => exact .waitsForWriter (writer_steps (sound.locks.writer.mpr mutex))
      | call other =>
        exact .waits other (holder_steps sound ((sound.locks.calls other).mpr mutex))
  | returned reader => exact .returned reader here
  | threw => exact .threw here
  | _ =>
    apply Proceeds.steps
    intro now opens
    exact call_steps (outside_acts outside (by simp [here]) (by rw [here]; rfl))

end

/-- The readers that searches get never go back: the installed one, and the one a call for the
newest returns that starts when `publish` of a snapshot has returned. Such a call ends, and it
throws only if the manager is closed or a snapshot cannot be opened. -/
theorem readers_never_go_back (freshness : Nat → Nat) (script : List Publication)
    (increasing : Increasing script) (events later : List Event) (between after : State)
    (ran : (State.initial script).run freshness events = some between)
    (more : between.run freshness later = some after) :
    (∀ reader ∈ between.shared.indexReader, ∃ newer ∈ after.shared.indexReader,
      reader.commitTime ≤ newer.commitTime ∧ reader.schemaGen ≤ newer.schemaGen) ∧
    ∀ number, freshness number = 0 → between.calls number = .idle →
      ∀ snapshot ∈ between.writer.finished, (∀ reader, after.calls number = .returned reader →
          snapshot.commitTime ≤ reader.commitTime ∧ snapshot.schemaGen ≤ reader.schemaGen) ∧
        later.countP (mine number) ≤ 16 * script.length + 15 ∧ Proceeds freshness after number ∧
        (between.shared.closed = false → (∀ event ∈ later, smooth number event = true) →
          after.calls number ≠ .threw) := by
  obtain ⟨sound, -⟩ := run_sound (initial_sound increasing) ran
  obtain ⟨last, grows⟩ := run_sound sound more
  refine ⟨grows.installed, fun number zero idle snapshot returned => ?_⟩
  have seen := sound.finished snapshot returned
  refine ⟨fun reader here => ?_, ?_, sound_proceeds last number, fun running moving threw => ?_⟩
  · have fresh := run_fresh zero sound seen (by rw [idle]; trivial) more
    rwa [here] at fresh
  · have before : events.countP (mine number) + rank between number ≤
        rank (State.initial script) number := run_rank ran
    have rest : later.countP (mine number) + rank after number ≤ rank between number :=
      run_rank more
    have start : rank (State.initial script) number = 16 * script.length + 15 := by
      simp [rank, State.initial, pending, current, effort, behind, stages]
    omega
  · have well := run_well sound seen running (by rw [idle]; rfl) moving more
    rw [threw] at well
    cases well

/-- A snapshot is published, then a newer one with its reader. -/
def twoPublications : List Publication := [⟨⟨10, 1⟩, false⟩, ⟨⟨20, 2⟩, true⟩]

/-- A call reads that there is no reader, and waits for the lock while the writer installs one. -/
def overtaken : List Event :=
  List.replicate 2 (.call 0 0 true) ++ List.replicate 10 (.writer true) ++
    List.replicate 5 (.call 0 0 true)

theorem readers_never_go_back_overtaken : ∃ between after,
    (State.initial twoPublications).run (fun _ => 0) (List.replicate 4 (.writer true)) =
      some between ∧ between.run (fun _ => 0) overtaken = some after ∧
    after.calls 0 = .returned ⟨⟨20, 2⟩⟩ ∧
    Proceeds (fun _ => 0) after 0 ∧ 10 ≤ (⟨⟨20, 2⟩⟩ : IndexReader).commitTime := by
  have runs : ∃ between after,
      (State.initial twoPublications).run (fun _ => 0) (List.replicate 4 (.writer true)) =
        some between ∧
      between.run (fun _ => 0) overtaken = some after ∧ between.calls 0 = .idle ∧
      between.writer.finished = [⟨10, 1⟩] ∧ after.calls 0 = .returned ⟨⟨20, 2⟩⟩ :=
    ⟨_, _, rfl, rfl, rfl, rfl, rfl⟩
  obtain ⟨between, after, ran, more, idle, finished, returned⟩ := runs
  have result := (readers_never_go_back (fun _ => 0) twoPublications (by simp [Increasing,
    twoPublications]) _ _ between after ran more).2 0 rfl idle ⟨10, 1⟩ (by simp [finished])
  exact ⟨between, after, ran, more, returned, result.2.2.1, (result.1 _ returned).1⟩

end Luxir.Search.ReaderFreshness
