import Mathlib.Data.List.Infix

/-!
One file that is only ever replaced whole, under a version check, and any number of
processes whose programs read and replace it. A publication may throw before or after
it took effect, so a process cannot tell the two apart from the exception alone.
Processes interleave at every access to the file. The proof rule at the end reduces an
invariant of all interleavings to one symbolic run of each program.
-/

namespace Luxir.Lib.CasFile

structure Publication (β : Type) where
  bytes : β
  version : Nat
deriving DecidableEq, Repr

inductive Condition where
  | createOnly
  | matching (version : Nat)
deriving DecidableEq, Repr

def Condition.holds {β : Type} : Condition → Option (Publication β) → Bool
  | .createOnly, current => current.isNone
  | .matching version, current => current.map Publication.version == some version

structure File (β : Type) where
  current : Option (Publication β)
  nextVersion : Nat

/-- An installed publication carries a version no earlier one had. -/
def File.publish {β : Type} (file : File β) (bytes : β) (condition : Condition) : Option (File β) :=
  if condition.holds file.current then
    some ⟨some ⟨bytes, file.nextVersion + 1⟩, file.nextVersion + 1⟩
  else none

theorem publish_applied {β : Type} {file after : File β} {bytes : β} {condition : Condition}
    (applied : file.publish bytes condition = some after) : condition.holds file.current = true ∧
      after = ⟨some ⟨bytes, file.nextVersion + 1⟩, file.nextVersion + 1⟩ := by
  unfold File.publish at applied
  split_ifs at applied with held
  cases applied
  exact ⟨held, rfl⟩

/-- A program is the tree of its accesses to the file. Every access may throw. -/
inductive Prog (β ε α : Type) where
  | done (value : α)
  | fail (error : ε)
  | again
  | readPublished (next : Except ε (Option (Publication β)) → Prog β ε α)
  | publishFile (bytes : β) (condition : Condition) (next : Except ε (Option Nat) → Prog β ε α)
  | sync (next : Except ε Unit → Prog β ε α)

namespace Prog
variable {β ε α γ : Type} {prog : Prog β ε α}

def bind : Prog β ε α → (α → Prog β ε γ) → Prog β ε γ
  | .done value, rest => rest value
  | .fail error, _ => .fail error
  | .again, _ => .again
  | .readPublished next, rest => .readPublished fun result => (next result).bind rest
  | .publishFile bytes condition next, rest =>
      .publishFile bytes condition fun result => (next result).bind rest
  | .sync next, rest => .sync fun result => (next result).bind rest

/-- The body of a `try` block: what it throws becomes a value. -/
def attempt : Prog β ε α → Prog β ε (Except ε α)
  | .done value => .done (.ok value)
  | .fail error => .done (.error error)
  | .again => .again
  | .readPublished next => .readPublished fun result => (next result).attempt
  | .publishFile bytes condition next =>
      .publishFile bytes condition fun result => (next result).attempt
  | .sync next => .sync fun result => (next result).attempt

instance : Monad (Prog β ε) where
  pure := .done
  bind := Prog.bind

theorem bind_done (prog : Prog β ε α) : prog.bind .done = prog := by
  induction prog with
  | done | fail | again => rfl
  | readPublished next ih | publishFile bytes condition next ih | sync next ih =>
    simp only [Prog.bind, ih]

theorem bind_bind {δ : Type} (prog : Prog β ε α) (rest : α → Prog β ε γ) (more : γ → Prog β ε δ) :
    (prog.bind rest).bind more = prog.bind fun value => (rest value).bind more := by
  induction prog with
  | done | fail | again => rfl
  | readPublished next ih | publishFile bytes condition next ih | sync next ih =>
    simp only [Prog.bind, ih]

theorem bind_attempt (prog : Prog β ε α) (rest : α → Prog β ε γ) :
    prog.bind rest = prog.attempt.bind (Except.casesOn · .fail rest) := by
  induction prog with
  | done | fail | again => rfl
  | readPublished next ih | publishFile bytes condition next ih | sync next ih =>
    simp only [Prog.bind, attempt, ih]

instance : LawfulMonad (Prog β ε) := LawfulMonad.mk' (Prog β ε) bind_done (fun _ _ => rfl) bind_bind

/-- A program that never starts over: it is a finite tree, so it ends. -/
def Ends : Prog β ε α → Prop
  | .done _ => True
  | .fail _ => True
  | .again => False
  | .readPublished next => ∀ result, (next result).Ends
  | .publishFile _ _ next => ∀ result, (next result).Ends
  | .sync next => ∀ result, (next result).Ends

theorem ends_bind {rest : α → Prog β ε γ} (ends : prog.Ends)
    (later : ∀ value, (rest value).Ends) : (prog.bind rest).Ends := by
  induction prog with
  | done value => exact later value
  | fail => trivial
  | again => exact ends.elim
  | readPublished next ih | publishFile bytes condition next ih | sync next ih =>
    exact fun out => ih out (ends out)

theorem ends_attempt (ends : prog.Ends) : prog.attempt.Ends := by
  induction prog with
  | done | fail => trivial
  | again => exact ends.elim
  | readPublished next ih | publishFile bytes condition next ih | sync next ih =>
    exact fun out => ih out (ends out)

def rethrow : Except ε α → Prog β ε α
  | .ok value => .done value
  | .error error => .fail error

end Prog

inductive Fault (ε : Type) where
  | none
  | before (error : ε)
  | after (error : ε)

section
variable {β ε κ σ : Type}

/-- What happened at the file and at the callers, kept in a log with the newest event first. -/
inductive Event (β ε κ σ : Type) where
  | started (process : Nat) (call : κ)
  | wrote (process : Nat) (call : κ) (own : σ) (old : Option (Publication β)) (new : Publication β)
  | removed
  | returned (process : Nat) (call : κ) (own result : σ)
  | threw (process : Nat) (call : κ) (own : σ) (error : ε)

abbrev Log (β ε κ σ : Type) := List (Event β ε κ σ)

def Event.process? : Event β ε κ σ → Option Nat
  | .started process _ => some process
  | .wrote process _ _ _ _ => some process
  | .removed => none
  | .returned process _ _ _ => some process
  | .threw process _ _ _ => some process

/-- A process keeps its own state across calls, and a call may replace it when it returns. -/
structure Process (β ε κ σ : Type) where
  own : σ
  running : Option (κ × Prog β ε σ)

structure World (β ε κ σ : Type) where
  file : File β
  processes : Nat → Process β ε κ σ
  log : Log β ε κ σ

/-- `admits` is what the caller, or the source of a call's arguments, promises about them. -/
structure System (β ε κ σ : Type) where
  program : σ → κ → Prog β ε σ
  admits : Log β ε κ σ → σ → κ → Bool
  initial : σ

def World.proceed (world : World β ε κ σ) (process : Nat) (call : κ) (prog : Prog β ε σ) :
    World β ε κ σ :=
  { world with
    processes := Function.update world.processes process
      ⟨(world.processes process).own, some (call, prog)⟩ }

def World.finish (world : World β ε κ σ) (process : Nat) (own : σ) (event : Event β ε κ σ) :
    World β ε κ σ :=
  { world with
    processes := Function.update world.processes process ⟨own, none⟩
    log := event :: world.log }

def World.install (world : World β ε κ σ) (process : Nat) (call : κ) (bytes : β) (file : File β) :
    World β ε κ σ :=
  { world with
    file := file
    log := .wrote process call (world.processes process).own world.file.current
      ⟨bytes, file.nextVersion⟩ :: world.log }

def step (system : System β ε κ σ) (world : World β ε κ σ) (process : Nat) (fault : Fault ε) :
    World β ε κ σ :=
  let own := (world.processes process).own
  match (world.processes process).running with
  | none => world
  | some (call, .done result) => world.finish process result (.returned process call own result)
  | some (call, .fail error) => world.finish process own (.threw process call own error)
  | some (call, .again) => world.proceed process call (system.program own call)
  | some (call, .readPublished next) =>
      match fault with
      | .none => world.proceed process call (next (.ok world.file.current))
      | .before error | .after error => world.proceed process call (next (.error error))
  | some (call, .publishFile bytes condition next) =>
      match fault, world.file.publish bytes condition with
      | .before error, _ => world.proceed process call (next (.error error))
      | .none, none => world.proceed process call (next (.ok none))
      | .none, some file =>
          (world.install process call bytes file).proceed process call
            (next (.ok (some file.nextVersion)))
      | .after error, none => world.proceed process call (next (.error error))
      | .after error, some file =>
          (world.install process call bytes file).proceed process call (next (.error error))
  | some (call, .sync next) =>
      match fault with
      | .none => world.proceed process call (next (.ok ()))
      | .before error | .after error => world.proceed process call (next (.error error))

inductive Choice (ε κ : Type) where
  | start (process : Nat) (call : κ)
  | step (process : Nat) (fault : Fault ε)
  | remove

def act (system : System β ε κ σ) (world : World β ε κ σ) : Choice ε κ → World β ε κ σ
  | .start process call =>
      match (world.processes process).running with
      | some _ => world
      | none =>
          if system.admits world.log (world.processes process).own call then
            ({ world with log := .started process call :: world.log } : World β ε κ σ).proceed
              process call (system.program (world.processes process).own call)
          else world
  | .step process fault => step system world process fault
  | .remove =>
      { world with file := { world.file with current := none }, log := .removed :: world.log }

def run (system : System β ε κ σ) (world : World β ε κ σ) (choices : List (Choice ε κ)) :
    World β ε κ σ :=
  choices.foldl (act system) world

def start (system : System β ε κ σ) : World β ε κ σ :=
  ⟨⟨none, 0⟩, fun _ => ⟨system.initial, none⟩, []⟩

end

variable {β ε κ σ : Type}

/-- The log grew by events of others only, as it does while a process waits for its next access. -/
def Others (process : Nat) (log later : Log β ε κ σ) : Prop :=
  ∃ fresh, later = fresh ++ log ∧ ∀ event ∈ fresh, event.process? ≠ some process

theorem others_refl (process : Nat) (log : Log β ε κ σ) : Others process log log :=
  ⟨[], rfl, by simp⟩

variable {world : World β ε κ σ} {process : Nat}

theorem others_trans {first second third : Log β ε κ σ} (left : Others process first second)
    (right : Others process second third) : Others process first third := by
  obtain ⟨fresh, rfl, foreign⟩ := left
  obtain ⟨more, rfl, foreignMore⟩ := right
  refine ⟨more ++ fresh, by simp, ?_⟩
  intro event mem
  rcases List.mem_append.mp mem with inMore | inFresh
  · exact foreignMore event inMore
  · exact foreign event inFresh

theorem others_cons {event : Event β ε κ σ} (log : Log β ε κ σ)
    (foreign : event.process? ≠ some process) : Others process log (event :: log) :=
  ⟨[event], rfl, by simpa using foreign⟩

theorem others_own {other : Nat} {event : Event β ε κ σ} (log : Log β ε κ σ)
    (actor : event.process? = some process) (different : other ≠ process) :
    Others other log (event :: log) := by
  apply others_cons
  rw [actor]
  exact fun same => different (Option.some.inj same).symm

theorem Others.suffix {log later : Log β ε κ σ} (grown : Others process log later) :
    log <:+ later := by
  obtain ⟨fresh, rfl, _⟩ := grown
  exact List.suffix_append fresh log

/-- The obligations of a proof about one system. `Inv` is the invariant of file and log, `Own`
what a process knows about its own state, `Entry` what it knows whenever a call's program starts
over. -/
structure Spec (β ε κ σ : Type) where
  Inv : File β → Log β ε κ σ → Prop
  Own : σ → Log β ε κ σ → Prop
  Entry : Nat → κ → σ → Log β ε κ σ → Prop

/-- Every access of the program keeps the invariant, whatever other processes did since `log`. -/
def Sound (spec : Spec β ε κ σ) (process : Nat) (call : κ) (own : σ) :
    Prog β ε σ → Log β ε κ σ → Prop
  | .done result, log => ∀ file later, Others process log later → spec.Inv file later →
      spec.Inv file (.returned process call own result :: later) ∧ spec.Own result later
  | .fail error, log => ∀ file later, Others process log later → spec.Inv file later →
      spec.Inv file (.threw process call own error :: later)
  | .again, log => ∀ file later, Others process log later → spec.Inv file later →
      spec.Entry process call own later
  | .readPublished next, log => ∀ file later, Others process log later → spec.Inv file later →
      (∀ error, Sound spec process call own (next (.error error)) later) ∧
      Sound spec process call own (next (.ok file.current)) later
  | .publishFile bytes condition next, log => ∀ file later, Others process log later →
      spec.Inv file later →
      (∀ error, Sound spec process call own (next (.error error)) later) ∧
      (file.publish bytes condition = none → Sound spec process call own (next (.ok none)) later) ∧
      ∀ after, file.publish bytes condition = some after →
        spec.Inv after (.wrote process call own file.current ⟨bytes, after.nextVersion⟩ :: later) ∧
        Sound spec process call own (next (.ok (some after.nextVersion)))
          (.wrote process call own file.current ⟨bytes, after.nextVersion⟩ :: later) ∧
        ∀ error, Sound spec process call own (next (.error error))
          (.wrote process call own file.current ⟨bytes, after.nextVersion⟩ :: later)
  | .sync next, log => ∀ file later, Others process log later → spec.Inv file later →
      ∀ result, Sound spec process call own (next result) later

theorem sound_mono {spec : Spec β ε κ σ} {call : κ} {own : σ} {prog : Prog β ε σ}
    {log later : Log β ε κ σ} (grown : Others process log later)
    (sound : Sound spec process call own prog log) : Sound spec process call own prog later := by
  cases prog <;> exact fun file latest more => sound file latest (others_trans grown more)

structure Contract (system : System β ε κ σ) extends Spec β ε κ σ where
  own_mono : ∀ {own log later}, log <:+ later → Own own log → Own own later
  inv_start : Inv ⟨none, 0⟩ []
  own_start : Own system.initial []
  inv_started : ∀ {file log own} process call, Inv file log →
    system.admits log own call = true → Inv file (.started process call :: log)
  inv_removed : ∀ {file log}, Inv file log → Inv { file with current := none } (.removed :: log)
  entry_started : ∀ {file log own} process call, Inv file log → Own own log →
    system.admits log own call = true → Entry process call own (.started process call :: log)
  sound : ∀ {log} process call own, Entry process call own log →
    Sound toSpec process call own (system.program own call) log

variable {system : System β ε κ σ}

structure Contract.Holds (contract : Contract system) (world : World β ε κ σ) : Prop where
  inv : contract.Inv world.file world.log
  own : ∀ process, contract.Own (world.processes process).own world.log
  running : ∀ process call prog, (world.processes process).running = some (call, prog) →
    Sound contract.toSpec process call (world.processes process).own prog world.log

variable (contract : Contract system)
include contract

theorem Contract.holds_start : contract.Holds (start system) where
  inv := contract.inv_start
  own := fun _ => contract.own_start
  running := by intro process call prog running; simp [start] at running

section
variable (holds : contract.Holds world)
include holds

/-- One process took a step that grew the log: the others keep what they know, and the process
itself goes on with its new own state and program. -/
theorem Contract.holds_update (process : Nat) (updated : Process β ε κ σ) (file : File β)
    (log : Log β ε κ σ) (inv : contract.Inv file log) (own : contract.Own updated.own log)
    (grown : ∀ other, other ≠ process → Others other world.log log)
    (running : ∀ call prog, updated.running = some (call, prog) →
      Sound contract.toSpec process call updated.own prog log) (suffix : world.log <:+ log) :
    contract.Holds ⟨file, Function.update world.processes process updated, log⟩ where
  inv := inv
  own := by
    intro other
    by_cases same : other = process
    · subst same
      simpa using own
    · simpa [Function.update_of_ne same] using contract.own_mono suffix (holds.own other)
  running := by
    intro other call prog active
    by_cases same : other = process
    · subst same
      simp only [Function.update_self] at active ⊢
      exact running call prog active
    · simp only [Function.update_of_ne same] at active ⊢
      exact sound_mono (grown other same) (holds.running other call prog active)

theorem Contract.holds_proceed (process : Nat) (call : κ) (prog : Prog β ε σ)
    (sound : Sound contract.toSpec process call (world.processes process).own prog world.log) :
    contract.Holds (world.proceed process call prog) := by
  apply contract.holds_update holds process ⟨_, some (call, prog)⟩ world.file world.log holds.inv
    (holds.own process) (fun other _ => others_refl other world.log) _ List.suffix_rfl
  rintro _ _ ⟨⟩
  exact sound

theorem Contract.holds_finish (process : Nat) (own : σ) (event : Event β ε κ σ)
    (actor : event.process? = some process) (inv : contract.Inv world.file (event :: world.log))
    (known : contract.Own own world.log) : contract.Holds (world.finish process own event) := by
  have suffix : world.log <:+ event :: world.log := List.suffix_cons _ _
  apply contract.holds_update holds process _ world.file _ inv (contract.own_mono suffix known)
    _ _ suffix
  · exact fun _ => others_own _ actor
  · intro call prog active
    simp at active

theorem Contract.holds_install (process : Nat) (call : κ) (bytes : β) (file : File β)
    (prog : Prog β ε σ)
    (inv : contract.Inv file (.wrote process call (world.processes process).own world.file.current
      ⟨bytes, file.nextVersion⟩ :: world.log))
    (sound : Sound contract.toSpec process call (world.processes process).own prog
      (.wrote process call (world.processes process).own world.file.current
        ⟨bytes, file.nextVersion⟩ :: world.log)) :
    contract.Holds ((world.install process call bytes file).proceed process call prog) := by
  have suffix := List.suffix_cons (Event.wrote process call (world.processes process).own
    world.file.current ⟨bytes, file.nextVersion⟩) world.log
  apply contract.holds_update holds process ⟨_, some (call, prog)⟩ file _ inv
    (contract.own_mono suffix (holds.own process)) _ _ suffix
  · exact fun _ => others_own _ rfl
  · rintro _ _ ⟨⟩
    exact sound

theorem Contract.holds_step (process : Nat) (fault : Fault ε) :
    contract.Holds (step system world process fault) := by
  have here := others_refl process world.log
  unfold step
  cases run : (world.processes process).running with
  | none => exact holds
  | some now =>
    obtain ⟨call, prog⟩ := now
    have sound := holds.running process call prog run
    have proceed := contract.holds_proceed holds process call
    cases prog with
    | done out =>
      have ended := sound world.file world.log here holds.inv
      exact contract.holds_finish holds process out _ rfl ended.1 ended.2
    | fail =>
      exact contract.holds_finish holds process _ _ rfl (sound world.file world.log here holds.inv)
        (holds.own process)
    | again =>
      exact proceed _ (contract.sound process call _ (sound world.file world.log here holds.inv))
    | readPublished =>
      have access := sound world.file world.log here holds.inv
      cases fault with
      | none => exact proceed _ access.2
      | before error | after error =>
        exact proceed _ (access.1 error)
    | sync =>
      have access := sound world.file world.log here holds.inv
      cases fault with
      | none | before | after =>
        exact proceed _ (access _)
    | publishFile bytes condition =>
      obtain ⟨threw, refused, applied⟩ := sound world.file world.log here holds.inv
      dsimp only
      cases outcome : world.file.publish bytes condition with
      | none =>
        cases fault with
        | none => exact proceed _ (refused outcome)
        | before error | after error =>
          exact proceed _ (threw error)
      | some file =>
        obtain ⟨inv, continued, lost⟩ := applied file outcome
        cases fault with
        | none => exact contract.holds_install holds process call bytes file _ inv continued
        | before error => exact proceed _ (threw error)
        | after error => exact contract.holds_install holds process call bytes file _ inv (lost error)

theorem Contract.holds_act (choice : Choice ε κ) : contract.Holds (act system world choice) := by
  cases choice with
  | step process fault => exact contract.holds_step holds process fault
  | remove =>
    have grown : world.log <:+ Event.removed :: world.log := List.suffix_cons _ _
    exact {
      inv := contract.inv_removed holds.inv
      own := fun process => contract.own_mono grown (holds.own process)
      running := fun process call prog active =>
        sound_mono (others_cons _ (by simp [Event.process?]))
          (holds.running process call prog active) }
  | start process call =>
    dsimp only [act]
    cases running : (world.processes process).running with
    | some => exact holds
    | none =>
      split_ifs with admitted
      · have entry := contract.entry_started process call holds.inv (holds.own process) admitted
        have suffix := List.suffix_cons (Event.started process call : Event β ε κ σ) world.log
        apply contract.holds_update holds process ⟨_, some (call, system.program _ call)⟩
          world.file _ (contract.inv_started process call holds.inv admitted)
          (contract.own_mono suffix (holds.own process)) _ _ suffix
        · exact fun _ => others_own _ rfl
        · rintro _ _ ⟨⟩
          exact contract.sound process call _ entry
      · exact holds

end

theorem Contract.holds_run (choices : List (Choice ε κ)) :
    contract.Holds (run system (start system) choices) := by
  unfold run
  induction choices using List.reverseRecOn with
  | nil => exact contract.holds_start
  | append_singleton choices choice ih =>
    rw [List.foldl_append]
    exact contract.holds_act ih choice

end Luxir.Lib.CasFile
