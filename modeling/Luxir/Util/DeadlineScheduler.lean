import Mathlib.Data.Nat.Cast.WithTop
import Mathlib.Order.Lattice.Nat

/-! One worker thread fires the callbacks of slots at their deadlines. -/

namespace Luxir.Util.DeadlineScheduler
open Function List

structure Slot where
  -- no deadline is the latest time point: the slot is not armed
  due : WithTop Nat := ⊤
  registered : Bool := false
  running : Bool := false
  detached : Bool := false

/-- The worker has the lock for its step from `ready` and the one from `called`. -/
inductive Worker where
  | absent
  | ready
  | waiting
  | chosen (slot : Nat)
  | calling (slot : Nat)
  | called (slot : Nat)
  | done

/-- What a run shows: the worker reads the slots that it scans, disarms the one that it fires and
writes to it once more when it has finished. -/
inductive Entry where
  | armed (slot : Nat) (due : WithTop Nat)
  | scanned (slots : List Nat) (fired : Option Nat)
  | started (slot time : Nat)
  | ended (slot : Nat)
  | finished (slot : Nat)
  | returned (slot : Nat)

structure State where
  now : Nat := 0
  slot : Nat → Slot := fun _ => {}
  slots : List Nat := []
  worker : Worker := .absent
  stopping : Bool := false
  -- the slots whose detach waits for their callback
  detaching : List Nat := []
  log : List Entry := []

namespace State
variable (state : State) (slot : Nat)

def arm (due : WithTop Nat) : State :=
  if state.stopping || (state.slot slot).detached then state
  else { state with
    slots := if (state.slot slot).registered then state.slots else state.slots ++ [slot]
    slot := update state.slot slot { state.slot slot with
      registered := true
      due := if due < (state.slot slot).due then due else (state.slot slot).due }
    worker := match state.worker with
      | .absent => .ready
      | worker => worker
    log := state.log ++ [.armed slot due] }

def disarm : State :=
  { state with
    slots := if (state.slot slot).registered then state.slots.filter (· ≠ slot) else state.slots
    slot := update state.slot slot
      { state.slot slot with detached := true, registered := false, due := ⊤ } }

/-- Detaching, up to the wait for a callback that runs. -/
def detach : State :=
  if (state.slot slot).running then
    { state.disarm slot with detaching := slot :: state.detaching }
  else { state.disarm slot with log := state.log ++ [.returned slot] }

def wakeDetach : State :=
  if slot ∈ state.detaching ∧ (state.slot slot).running = false then
    { state with
      detaching := state.detaching.erase slot
      log := state.log ++ [.returned slot] }
  else state

def earlier (next : Option Nat) (slot : Nat) : Option Nat :=
  if (state.slot slot).due ≠ ⊤ ∧
      next.all fun next => (state.slot slot).due < (state.slot next).due then some slot
  else next

def wait : State :=
  { state with
    worker := .waiting
    log := state.log ++ [.scanned state.slots none] }

def scan : State :=
  match state.slots.foldl state.earlier none with
  | none => state.wait
  | some next =>
    if state.now < (state.slot next).due then state.wait
    else { state with
      slot := update state.slot next { state.slot next with due := ⊤, running := true }
      worker := .chosen next
      log := state.log ++ [.scanned state.slots (some next)] }

/-- The next step of the worker; it may wake at any time. -/
def run : State :=
  match state.worker with
  | .absent | .done => state
  | .ready => if state.stopping then { state with worker := .done } else state.scan
  | .waiting => { state with worker := .ready }
  | .chosen slot => { state with
      worker := .calling slot
      log := state.log ++ [.started slot state.now] }
  | .calling slot => { state with worker := .called slot, log := state.log ++ [.ended slot] }
  | .called slot => { state with
      slot := update state.slot slot { state.slot slot with running := false }
      worker := .ready
      log := state.log ++ [.finished slot] }

end State

/-- Calls of owners and of callbacks, steps of the worker, and time that passes. -/
inductive Event where
  | arm (slot : Nat) (due : WithTop Nat)
  | detach (slot : Nat)
  | wakeDetach (slot : Nat)
  | run
  | stop
  | pass (time : Nat)

def State.act (state : State) : Event → State
  | .arm slot due => state.arm slot due
  | .detach slot => state.detach slot
  | .wakeDetach slot => state.wakeDetach slot
  | .run => state.run
  | .stop => { state with stopping := true }
  | .pass time => { state with now := state.now + time }

@[grind =]
def note (slot : Nat) (known : WithTop Nat × WithTop Nat) : Entry → WithTop Nat × WithTop Nat
  | .armed other due => if other = slot then (min known.1 due, known.2) else known
  | .scanned _ fired => if fired = some slot then (⊤, known.1) else known
  | .started other _ => if other = slot then (known.1, ⊤) else known
  | _ => known

/-- The earliest deadline of a slot since it last fired, and the one of a firing not yet started. -/
def deadlines (slot : Nat) (log : List Entry) : WithTop Nat × WithTop Nat :=
  log.foldl (note slot) (⊤, ⊤)

@[grind =]
def track (slot : Nat) (running : Bool) : Entry → Bool
  | .started other _ => running || other = slot
  | .ended other => running && other ≠ slot
  | _ => running

/-- The callback of a slot has started and not ended. -/
def inFlight (slot : Nat) (log : List Entry) : Bool := log.foldl (track slot) false

def Allowed (before : List Entry) : Entry → Prop
  | .started slot time =>
    (deadlines slot before).2 ≤ time ∧ inFlight slot before = false ∧ .returned slot ∉ before
  | .scanned slots _ => ∀ slot ∈ slots, .returned slot ∉ before
  | .ended slot | .finished slot => .returned slot ∉ before
  | _ => True

/-- Every entry is allowed after those before it. -/
def Orderly (log : List Entry) : Prop :=
  ∀ before entry, before ++ [entry] <+: log → Allowed before entry

variable {state : State} {log : List Entry} {slot : Nat}

theorem Orderly.concat {entry : Entry} (orderly : Orderly log) (allowed : Allowed log entry) :
    Orderly (log ++ [entry]) := by
  intro before last known
  rcases prefix_concat_iff.mp known with same | early
  · obtain ⟨rfl, one⟩ := append_inj' same rfl
    rw [singleton_inj.mp one]
    exact allowed
  · exact orderly before last early

@[grind =]
theorem deadlines_concat (slot : Nat) (log : List Entry) (entry : Entry) :
    deadlines slot (log ++ [entry]) = note slot (deadlines slot log) entry := foldl_append

@[grind =]
theorem inFlight_concat (slot : Nat) (log : List Entry) (entry : Entry) :
    inFlight slot (log ++ [entry]) = track slot (inFlight slot log) entry := foldl_append

@[grind cases]
structure Sound (state : State) : Prop where
  listed : ∀ slot ∈ state.slots, (state.slot slot).registered = true ∧
    (state.slot slot).detached = false
  gone : ∀ slot, .returned slot ∈ state.log → (state.slot slot).detached = true ∧
    (state.slot slot).running = false
  waits : ∀ slot ∈ state.detaching, (state.slot slot).detached = true
  holds : ∀ slot, state.worker = .chosen slot ∨ state.worker = .calling slot ∨
    state.worker = .called slot → (state.slot slot).running = true
  due : ∀ slot, (state.slot slot).detached = false →
    (deadlines slot state.log).1 = (state.slot slot).due
  chosen : ∀ slot, state.worker = .chosen slot → (deadlines slot state.log).2 ≤ state.now
  flies : ∀ slot, inFlight slot state.log = true → state.worker = .calling slot
  orderly : Orderly state.log

/-- A registered slot is scanned once; one that is not registered is not armed. -/
@[grind =]
def Listed (state : State) : Prop :=
  state.slots.Nodup ∧ ∀ slot, if (state.slot slot).registered then slot ∈ state.slots
    else slot ∉ state.slots ∧ (state.slot slot).due = ⊤

theorem act_listed (listed : Listed state) (event : Event) : Listed (state.act event) := by
  cases event with
  | stop | pass => exact listed
  | _ =>
    dsimp only [State.act, State.arm, State.detach, State.disarm, State.wakeDetach, State.run,
      State.scan, State.wait]
    repeat' split
    all_goals grind

/-- No armed deadline is lost: the arm of a slot in use takes effect, the slot keeps the earliest
deadline until it fires, and the worker's scans read it. -/
structure Kept (state : State) : Prop where
  listed : Listed state
  due : ∀ slot, (state.slot slot).detached = false →
    (deadlines slot state.log).1 = (state.slot slot).due
  armed : ∀ slot due, state.stopping = false → (state.slot slot).detached = false →
    slot ∈ (state.arm slot due).slots ∧ ((state.arm slot due).slot slot).due ≤ due

variable (sound : Sound state)
include sound

theorem arm_sound (slot : Nat) (due : WithTop Nat) : Sound (state.arm slot due) := by
  unfold State.arm
  split
  · exact sound
  refine ⟨?_, ?_, ?_, ?_, ?_, ?_, ?_, sound.orderly.concat trivial⟩
  all_goals grind

theorem disarm_sound (slot : Nat) : Sound (state.disarm slot) := by
  unfold State.disarm
  refine ⟨?_, ?_, ?_, ?_, ?_, sound.chosen, sound.flies, sound.orderly⟩
  all_goals grind

theorem returns_sound (detached : (state.slot slot).detached = true)
    (idle : (state.slot slot).running = false) :
    Sound { state with log := state.log ++ [.returned slot] } := by
  refine ⟨sound.listed, ?_, sound.waits, sound.holds, ?_, ?_, ?_, sound.orderly.concat trivial⟩
  all_goals grind

theorem detach_sound (slot : Nat) : Sound (state.detach slot) := by
  have disarmed := disarm_sound sound slot
  have detached : ((state.disarm slot).slot slot).detached = true := by simp [State.disarm]
  unfold State.detach
  split_ifs with runs
  · exact { disarmed with
      waits := forall_mem_cons.mpr ⟨detached, disarmed.waits⟩ }
  · exact returns_sound disarmed detached (by simpa [State.disarm] using runs)

theorem wakeDetach_sound (slot : Nat) : Sound (state.wakeDetach slot) := by
  unfold State.wakeDetach
  split_ifs with waits
  · exact { returns_sound sound (sound.waits slot waits.1) waits.2 with
      waits := fun other mem => sound.waits other (mem_of_mem_erase mem) }
  · exact sound

theorem returned_unlisted : ∀ slot ∈ state.slots, .returned slot ∉ state.log := by
  intro slot mem back
  have listed := (sound.listed slot mem).2
  rw [(sound.gone slot back).1] at listed
  cases listed

theorem wait_sound (ready : state.worker = .ready) : Sound state.wait := by
  unfold State.wait
  refine ⟨sound.listed, ?_, sound.waits, ?_, ?_, ?_, ?_,
    sound.orderly.concat (returned_unlisted sound)⟩
  all_goals grind

theorem scan_sound (ready : state.worker = .ready) : Sound state.scan := by
  unfold State.scan
  split
  · exact wait_sound sound ready
  rename_i next found
  split
  · exact wait_sound sound ready
  have mem : next ∈ state.slots := by
    refine foldlRecOn (motive := fun out => ∀ next ∈ out, next ∈ state.slots) state.slots
      state.earlier (by simp) (fun out inside slot mem => ?_) next found
    unfold State.earlier
    split
    · simpa using mem
    · exact inside
  refine ⟨?_, ?_, ?_, ?_, ?_, ?_, ?_, sound.orderly.concat (returned_unlisted sound)⟩
  all_goals grind

theorem run_sound : Sound state.run := by
  have held : ∀ slot, state.worker = .chosen slot ∨ state.worker = .calling slot ∨
      state.worker = .called slot → .returned slot ∉ state.log := by
    intro slot here back
    have idle := (sound.gone slot back).2
    rw [sound.holds slot here] at idle
    cases idle
  unfold State.run
  split
  case h_1 | h_2 => exact sound
  case h_3 ready =>
    split
    · exact { sound with
        holds := by grind
        chosen := by grind
        flies := by grind }
    · exact scan_sound sound ready
  case h_4 =>
    exact { sound with
      holds := by grind
      chosen := by grind
      flies := by grind }
  case h_5 slot here =>
    refine ⟨sound.listed, ?_, sound.waits, ?_, ?_, ?_, ?_,
      sound.orderly.concat ⟨sound.chosen slot here, by grind, held slot (.inl here)⟩⟩
    all_goals grind
  case h_6 slot here =>
    refine ⟨sound.listed, ?_, sound.waits, ?_, ?_, ?_, ?_,
      sound.orderly.concat (held slot (.inr (.inl here)))⟩
    all_goals grind
  case h_7 slot here =>
    refine ⟨?_, ?_, ?_, ?_, ?_, ?_, ?_, sound.orderly.concat (held slot (.inr (.inr here)))⟩
    all_goals grind

theorem act_sound (event : Event) : Sound (state.act event) := by
  cases event with
  | arm slot due => exact arm_sound sound slot due
  | detach slot => exact detach_sound sound slot
  | wakeDetach slot => exact wakeDetach_sound sound slot
  | run => exact run_sound sound
  | stop => exact { sound with }
  | pass =>
    exact { sound with
      chosen := fun slot here => (sound.chosen slot here).trans
        (WithTop.coe_le_coe.mpr (Nat.le_add_right _ _)) }

omit sound in
theorem reached_sound (events : List Event) : Sound (events.foldl State.act {}) := by
  have start : Sound {} := by
    constructor <;> simp [deadlines, inFlight, Orderly]
  exact foldlRecOn events State.act start fun state sound event _ => act_sound sound event

omit sound in
/-- In every run, callbacks start on time and one at a time, and no slot is touched that has been
detached. -/
theorem run_orderly (events : List Event) : Orderly (events.foldl State.act {}).log :=
  (reached_sound events).orderly

omit sound in
theorem run_listed (events : List Event) : Kept (events.foldl State.act {}) := by
  have listed : Listed (events.foldl State.act {}) :=
    foldlRecOn events State.act (by simp [Listed]) fun _ listed event _ => act_listed listed event
  refine ⟨listed, (reached_sound events).due, fun slot due running live => ?_⟩
  have after := act_listed listed (.arm slot due)
  have taken : ((events.foldl State.act {}).arm slot due).slot slot =
      { (events.foldl State.act {}).slot slot with
        registered := true
        due := if due < ((events.foldl State.act {}).slot slot).due then due
          else ((events.foldl State.act {}).slot slot).due } := by
    simp [State.arm, running, live]
  constructor
  · simpa [State.act, taken] using after.2 slot
  · rw [taken]
    grind

end Luxir.Util.DeadlineScheduler
