import Luxir.Store.StateLog

/-!
One symbolic run of each call on STATE, under any interference by others. The invariant says
that the file is what the log left there, and that the log is a chain.
-/

namespace Luxir.Store.StateCalls
open Lib.CasFile IncarnationState StateLog

variable {β : Type} {event : StateEvent β} {tip : String} {call : Call}

structure Inv (json : Json β) (file : File β) (log : StateLog β) : Prop where
  current : file.current = latest log
  bound : ∀ write ∈ writes json log, write.version ≤ file.nextVersion
  chain : Chain json log

def Own (json : Json β) (own : Option IncarnationState) (log : StateLog β) : Prop :=
  ∀ state, own = some state → Knows json log state

/-- A call that draws an owner has neither written nor returned yet when its program starts over. -/
structure Entry (json : Json β) (process : Nat) (call : Call) (own : Option IncarnationState)
    (log : StateLog β) : Prop where
  own : Own json own log
  started : .started process call ∈ log
  unwritten : ∀ owner, call.owner? = some owner →
    ∀ before old new, .wrote process call before old new ∉ log
  unreturned : ∀ owner, call.owner? = some owner →
    ∀ before after, .returned process call before after ∉ log

def spec (json : Json β) : Spec β Error Call (Option IncarnationState) where
  Inv := Inv json
  Own := Own json
  Entry := Entry json

variable {log later : StateLog β} {value : Value} {own : Option IncarnationState} {json : Json β}
  {owner : String} {process : Nat}

theorem own_mono (suffix : log <:+ later) (known : Own json own log) : Own json own later :=
  fun state held => knows_mono suffix (known state held)

theorem others_mem (grown : Others process log later)
    (actor : event.process? = some process) (mem : event ∈ later) : event ∈ log := by
  obtain ⟨fresh, rfl, foreign⟩ := grown
  rcases List.mem_append.mp mem with new | old
  · exact absurd actor (foreign event new)
  · exact old

theorem entry_mono (grown : Others process log later)
    (entry : Entry json process call own log) : Entry json process call own later where
  own := own_mono grown.suffix entry.own
  started := grown.suffix.subset entry.started
  unwritten := fun owner draws before old new mem =>
    entry.unwritten owner draws before old new (others_mem grown rfl mem)
  unreturned := fun owner draws before after mem =>
    entry.unreturned owner draws before after (others_mem grown rfl mem)

theorem inv_event {file : File β} (inv : Inv json file log)
    (justified : Justified json log event) (same : latest (event :: log) = latest log)
    (quiet : writes json (event :: log) = writes json log) : Inv json file (event :: log) where
  current := by rw [same]; exact inv.current
  bound := by rw [quiet]; exact inv.bound
  chain := ⟨justified, inv.chain⟩

theorem inv_wrote {file after : File β} (inv : Inv json file log)
    (started : .started process call ∈ log) (change : Writes json own file.current call value)
    (applied : after = ⟨some ⟨json.writeJson value, file.nextVersion + 1⟩, file.nextVersion + 1⟩) :
    Inv json after (.wrote process call own file.current
      ⟨json.writeJson value, after.nextVersion⟩ :: log) := by
  subst applied
  have fresh : ∀ write ∈ writes json log, write.version < file.nextVersion + 1 :=
    fun write mem => Nat.lt_succ_of_le (inv.bound write mem)
  refine ⟨rfl, ?_, ⟨started, inv.current, fresh, value, rfl, change⟩, inv.chain⟩
  rw [writes_wrote rfl]
  intro write mem
  rcases List.mem_cons.mp mem with rfl | older
  · exact le_rfl
  · exact (fresh write older).le

variable {call : Call}

theorem sound_fail (error : Error) (log : StateLog β) :
    Sound (spec json) process call own (.fail error) log :=
  fun _ _ _ inv => inv_event inv trivial rfl rfl

/-- Where a process may stand after its publication: it took no effect, or it is one event of
its own in the log. -/
def Reached (json : Json β) (process : Nat) (call : Call) (own : Option IncarnationState)
    (value : Value) (log later : StateLog β) : Prop :=
  Others process log later ∨ ∃ middle old version, Others process log middle ∧
    Others process (.wrote process call own old ⟨json.writeJson value, version⟩ :: middle) later

theorem reached_others {mid : StateLog β}
    (met : Reached json process call own value log mid) (grown : Others process mid later) :
    Reached json process call own value log later := by
  rcases met with quiet | ⟨before, old, version, first, second⟩
  · exact .inl (others_trans quiet grown)
  · exact .inr ⟨before, old, version, first, others_trans second grown⟩

theorem reached_suffix (met : Reached json process call own value log later) : log <:+ later := by
  rcases met with quiet | ⟨mid, old, version, first, second⟩
  · exact quiet.suffix
  · exact first.suffix.trans ((List.suffix_cons _ _).trans second.suffix)

theorem reached_unreturned (met : Reached json process call own value log later)
    {before after : Option IncarnationState} (never : .returned process call before after ∉ log) :
    .returned process call before after ∉ later := by
  intro mem
  rcases met with quiet | ⟨mid, old, version, first, second⟩
  · exact never (others_mem quiet rfl mem)
  · rcases List.mem_cons.mp (others_mem second rfl mem) with same | older
    · cases same
    · exact never (others_mem first rfl older)

theorem sound_increment (count : Nat) {rest : Nat → Prog β Error (Option IncarnationState)}
    (next : Sound (spec json) process call own (rest (count + 1)) log) :
    Sound (spec json) process call own (increment count >>= rest) log := by
  unfold increment
  split_ifs with full
  · exact sound_fail _ _
  · exact next

theorem sound_durable {rest : Unit → Prog β Error (Option IncarnationState)}
    (next : ∀ later, Others process log later →
      Sound (spec json) process call own (rest ()) later) :
    Sound (spec json) process call own (durable >>= rest) log := by
  intro file later grown _ out
  cases out with
  | error => exact sound_fail _ _
  | ok => exact next later grown

/-- A read either throws or tells what STATE held at one moment since `log`. -/
theorem sound_read {rest : Option IncarnationState → Prog β Error (Option IncarnationState)}
    (gone : ∀ later, Others process log later →
      Sound (spec json) process call own (rest none) later)
    (here : ∀ later state, Others process log later → Chain json later →
      latest later = some (publication json state) → Knows json later state →
      Sound (spec json) process call own (rest (some state)) later) :
    Sound (spec json) process call own (read json >>= rest) log := by
  intro file later grown inv
  refine ⟨fun error => sound_fail _ _, ?_⟩
  cases found : file.current with
  | none => exact gone later grown
  | some publication =>
    have now : latest later = some publication := by rw [← inv.current, found]
    obtain ⟨state, rfl, knows⟩ := latest_knows inv.chain now
    simp only [StateLog.publication, json.read_write]
    split_ifs with invalid
    · exact sound_fail _ _
    · exact here later state grown inv.chain now knows

theorem change_matching {before : IncarnationState} (knows : Knows json log before)
    (change : ∀ old, old = some (publication json before) → Writes json own old call value)
    (file : File β) (later : StateLog β) (after : File β) (grown : Others process log later)
    (inv : Inv json file later)
    (published : file.publish (json.writeJson value) (.matching before.version) = some after) :
    Writes json own file.current call value ∧
      after = ⟨some ⟨json.writeJson value, file.nextVersion + 1⟩, file.nextVersion + 1⟩ := by
  obtain ⟨held, out⟩ := publish_applied published
  simp only [Condition.holds, beq_iff_eq, Option.map_eq_some_iff] at held
  obtain ⟨found, here, version⟩ := held
  have now : latest later = some found := by rw [← inv.current, here]
  have same := latest_of_version inv.chain now (knows_mono grown.suffix knows) version
  exact ⟨change _ (by rw [here, same]), out⟩

/-- A claim that read its own value back did write it: nobody else can have put its owner there. -/
theorem claim_wrote (entry : Entry json process (.claim owner) own log)
    (drawn : value.owner = owner)
    (met : Reached json process (.claim owner) own value log later) (chain : Chain json later)
    {state : IncarnationState} (same : state.value = value) (knows : Knows json later state) :
    ∃ write ∈ writes json later,
      write.process = process ∧ write.call = .claim owner ∧ write.value = value := by
  rcases met with quiet | ⟨mid, old, version, first, second⟩
  · obtain ⟨write, mem, written, _⟩ := knows
    obtain ⟨other, call, before, old, new, wrote, draws⟩ := owner_source chain write mem
    rw [written, same, drawn] at draws
    obtain ⟨early, suffix, justified⟩ := chain_mem chain wrote
    have started : .started other call ∈ later := suffix.subset (List.mem_cons_of_mem _ justified.1)
    obtain ⟨rfl, rfl⟩ := owner_unique chain started (quiet.suffix.subset entry.started) draws rfl
    exact absurd (others_mem quiet rfl wrote) (entry.unwritten owner rfl _ _ _)
  · have lt : writes json _ <:+ writes json later := writes_suffix second.suffix
    rw [writes_wrote rfl] at lt
    exact ⟨_, lt.subset List.mem_cons_self, rfl, rfl, rfl⟩

variable [DecidableEq β]

/-- What `write` does about an exception, in front of any continuation. -/
def readBack (json : Json β) (value : Value)
    (onDone : Option IncarnationState → Prog β Error (Option IncarnationState))
    (onFail : Error → Prog β Error (Option IncarnationState)) (failure : Error) :
    Prog β Error (Option IncarnationState) :=
  .readPublished fun
    | .error error => onFail error
    | .ok none => onFail failure
    | .ok (some observed) =>
        if observed.bytes = json.writeJson value then
          .sync fun
            | .ok _ => onDone (some ⟨value, observed.version⟩)
            | .error error => onFail error
        else onFail failure

def writeThen (json : Json β) (value : Value) (condition : Condition)
    (onDone : Option IncarnationState → Prog β Error (Option IncarnationState))
    (onFail : Error → Prog β Error (Option IncarnationState)) :
    Prog β Error (Option IncarnationState) :=
  .publishFile (json.writeJson value) condition fun
    | .ok (some version) => onDone (some ⟨value, version⟩)
    | .ok none => onDone none
    | .error failure => readBack json value onDone onFail failure

theorem write_attempt_bind (value : Value) (condition : Condition)
    (rest : Except Error (Option IncarnationState) → Prog β Error (Option IncarnationState)) :
    ((write json value condition).attempt >>= rest) = writeThen json value condition
      (fun applied => rest (.ok applied)) (fun error => rest (.error error)) := by
  change Prog.bind _ _ = _
  simp only [write, writeThen, Prog.attempt, Prog.bind, Prog.publishFile.injEq, true_and]
  funext out
  rcases out with failure | _ | version
  · simp only [readBack, Prog.attempt, Prog.bind, Prog.readPublished.injEq]
    funext observed
    rcases observed with error | _ | publication
    · rfl
    · rfl
    · dsimp only
      split_ifs
      · simp only [bind, Prog.bind, durable, pure, Prog.attempt, Prog.sync.injEq]
        funext synced
        cases synced <;> rfl
      · rfl
  all_goals rfl

theorem write_bind (value : Value) (condition : Condition)
    (rest : Option IncarnationState → Prog β Error (Option IncarnationState)) :
    (write json value condition >>= rest) = writeThen json value condition rest .fail :=
  (Prog.bind_attempt _ rest).trans (write_attempt_bind value condition _)

/-- A publication under any continuation. Reading the file back after an exception counts as
success only when the file holds exactly the intended bytes. -/
theorem sound_writeThen {condition : Condition}
    {onDone : Option IncarnationState → Prog β Error (Option IncarnationState)}
    {onFail : Error → Prog β Error (Option IncarnationState)}
    (started : .started process call ∈ log)
    (change : ∀ file later after, Others process log later → Inv json file later →
      file.publish (json.writeJson value) condition = some after →
      Writes json own file.current call value ∧
        after = ⟨some ⟨json.writeJson value, file.nextVersion + 1⟩, file.nextVersion + 1⟩)
    (refused : ∀ later, Others process log later →
      Sound (spec json) process call own (onDone none) later)
    (applied : ∀ later moment state, Reached json process call own value log later →
      Chain json later → moment <:+ later → log <:+ moment → state.value = value →
      latest moment = some (publication json state) → Knows json later state →
      Sound (spec json) process call own (onDone (some state)) later)
    (failed : ∀ later error, Reached json process call own value log later →
      Sound (spec json) process call own (onFail error) later) :
    Sound (spec json) process call own (writeThen json value condition onDone onFail) log := by
  -- What the handler of the exception does does not depend on whether the write took effect.
  have lost : ∀ later failure, Reached json process call own value log later →
      Sound (spec json) process call own (readBack json value onDone onFail failure) later := by
    intro later failure met file moment grown inv
    have here := reached_others met grown
    refine ⟨fun error => failed moment error here, ?_⟩
    cases found : file.current with
    | none => exact failed moment failure here
    | some observed =>
      dsimp only
      split_ifs with same
      · intro file latest more _ out
        have there := reached_others here more
        cases out with
        | error error => exact failed latest error there
        | ok done =>
          have now : StateLog.latest moment = some observed := by rw [← inv.current, found]
          obtain ⟨state, rfl, knows⟩ := latest_knows inv.chain now
          have values : state.value = value := by
            have decoded := congrArg json.readJson same
            simpa [publication, json.read_write] using decoded
          have states : state = ⟨value, state.version⟩ := by rw [← values]
          rw [states] at now knows
          rename_i synced
          exact applied latest moment ⟨value, state.version⟩ there synced.chain more.suffix
            (reached_suffix here) rfl now (knows_mono more.suffix knows)
      · exact failed moment failure here
  intro file later grown inv
  refine ⟨fun error => lost later error (.inl grown), fun _ => refused later grown, ?_⟩
  intro after published
  obtain ⟨change, out⟩ := change file later after grown inv published
  have lt := grown.suffix.subset started
  have wrote := inv_wrote inv lt change out
  have met : Reached json process call own value log (.wrote process call own file.current
      ⟨json.writeJson value, after.nextVersion⟩ :: later) :=
    .inr ⟨later, file.current, after.nextVersion, grown, others_refl _ _⟩
  refine ⟨wrote, ?_, fun error => lost _ error met⟩
  apply applied _ _ ⟨value, after.nextVersion⟩ met wrote.chain List.suffix_rfl
    (reached_suffix met) rfl rfl
  exact ⟨_, by rw [writes_wrote rfl]; exact List.mem_cons_self, rfl, rfl⟩

theorem sound_create (entry : Entry json process (.create owner) own log) :
    Sound (spec json) process (.create owner) own (program json own (.create owner)) log := by
  have ends : ∀ later, log <:+ later →
      (∀ before after, .returned process (.create owner) before after ∉ later) →
      Sound (spec json) process (.create owner) own (.done own) later := by
    intro later suffix never file latest more inv
    have whole := suffix.trans more.suffix
    refine ⟨inv_event inv ⟨whole.subset entry.started, trivial, ?_⟩ rfl rfl,
      own_mono whole entry.own⟩
    intro _ _ before after mem
    exact never before after (others_mem more rfl mem)
  simp only [program, create, bind_assoc, write_bind]
  apply sound_writeThen entry.started
  · intro file later after _ inv published
    obtain ⟨held, out⟩ := publish_applied published
    exact ⟨⟨Option.isNone_iff_eq_none.mp held, rfl⟩, out⟩
  · intro later grown
    simp only [bind_assoc]
    apply sound_read
    · intro _ _
      exact sound_fail _ _
    intro moment state more _ _ _
    apply sound_durable
    intro final rest
    have whole := others_trans grown (others_trans more rest)
    exact ends final whole.suffix ((entry_mono whole entry).unreturned owner rfl)
  · intro later _ _ met _ _ _ _ _ _
    exact ends later (reached_suffix met) fun before after =>
      reached_unreturned met (entry.unreturned owner rfl before after)
  · intro later error _
    exact sound_fail _ _

theorem sound_claim (entry : Entry json process (.claim owner) own log) :
    Sound (spec json) process (.claim owner) own (program json own (.claim owner)) log := by
  simp only [program, claim, bind_assoc]
  apply sound_read
  · intro _ _
    exact sound_fail _ _
  intro later before grown _ _ knows
  have here := entry_mono grown entry
  simp only [bind_assoc]
  apply sound_increment
  apply sound_increment
  rw [write_bind]
  apply sound_writeThen here.started
  · exact change_matching knows fun old present => ⟨before, present, rfl⟩
  · intro final more file latest rest _
    exact entry_mono (others_trans more rest) here
  · intro final moment granted met chain _ _ same _ granted_knows file latest rest inv
    have wrote := claim_wrote here rfl met chain same granted_knows
    obtain ⟨write, mem, by_process, by_call, value⟩ := wrote
    have whole := (reached_suffix met).trans rest.suffix
    refine ⟨inv_event inv ⟨whole.subset here.started, ⟨granted, rfl, by rw [same],
      write, (writes_suffix rest.suffix).subset mem, by_process, by_call,
      by rw [value, same]⟩, ?_⟩ rfl rfl, ?_⟩
    · intro _ _ first second returned
      exact reached_unreturned met (here.unreturned owner rfl first second)
        (others_mem rest rfl returned)
    · intro state held
      cases held
      exact knows_mono rest.suffix granted_knows
  · intro final error _
    exact sound_fail _ _

theorem sound_install (entry : Entry json process (.install tip) own log) :
    Sound (spec json) process (.install tip) own (program json own (.install tip)) log := by
  have ends : ∀ later, log <:+ later →
      Sound (spec json) process (.install tip) own (.done own) later := by
    intro later suffix file latest more inv
    have whole := suffix.trans more.suffix
    refine ⟨inv_event inv ⟨whole.subset entry.started, trivial, ?_⟩ rfl rfl,
      own_mono whole entry.own⟩
    intro owner draws
    simp [Call.owner?] at draws
  simp only [program, install, bind_assoc]
  apply sound_read
  · intro _ _
    exact sound_fail _ _
  intro later before grown _ _ knows
  have here := entry_mono grown entry
  dsimp only
  split_ifs with retained
  · apply sound_durable
    intro final more
    exact ends final (grown.suffix.trans more.suffix)
  simp only [bind_assoc]
  apply sound_increment
  rw [write_bind]
  apply sound_writeThen here.started
  · exact change_matching knows fun old present => ⟨before, present, rfl⟩
  · intro final more file latest rest _
    exact entry_mono (others_trans more rest) here
  · intro final _ _ met _ _ _ _ _ _
    exact ends final (grown.suffix.trans (reached_suffix met))
  · intro final error _
    exact sound_fail _ _

theorem sound_advance {this : IncarnationState}
    (entry : Entry json process (.advance tip) (some this) log) :
    Sound (spec json) process (.advance tip) (some this)
      (program json (some this) (.advance tip)) log := by
  have known : Knows json log this := entry.own this rfl
  -- Every way to return has seen the tip in STATE after this writer's own publication.
  have ends : ∀ later moment state out, moment <:+ later → log <:+ moment →
      latest moment = some (publication json state) → state.value.tip = tip →
      Knows json later out →
      Sound (spec json) process (.advance tip) (some this) (.done (some out)) later := by
    intro later moment state out newer older seen same knows file final more inv
    have whole := (older.trans newer).trans more.suffix
    refine ⟨inv_event inv ⟨whole.subset entry.started, ⟨this, rfl, moment,
      newer.trans more.suffix, knows_mono older known, state, seen, same⟩, ?_⟩ rfl rfl, ?_⟩
    · intro owner draws
      simp [Call.owner?] at draws
    · intro held holds
      cases holds
      exact knows_mono more.suffix knows
  have reread : ∀ failure later, log <:+ later →
      Sound (spec json) process (.advance tip) (some this)
        (confirm json this tip failure >>= fun this => pure (some this)) later := by
    intro failure later older
    simp only [confirm, bind_assoc]
    apply sound_read
    · intro _ _
      exact sound_fail _ _
    intro moment observed more _ seen knows
    dsimp only
    have since := older.trans more.suffix
    split_ifs with same owned foreign
    · simp only [bind_assoc]
      apply sound_durable
      intro final rest
      exact ends final moment observed observed rest.suffix since seen same
        (knows_mono rest.suffix knows)
    · simp only [bind_assoc]
      apply sound_durable
      intro final rest
      exact ends final moment observed this rest.suffix since seen same
        (knows_mono (since.trans rest.suffix) known)
    · exact sound_fail _ _
    · cases failure with
      | none => exact sound_fail _ _
      | some => exact sound_fail _ _
  simp only [program, advance, bind_assoc]
  apply sound_increment
  rw [write_attempt_bind]
  apply sound_writeThen entry.started
  · exact change_matching known fun old here => ⟨this, rfl, here, rfl⟩
  · intro later grown
    exact reread none later grown.suffix
  · intro later moment applied met _ newer older same seen knows
    exact ends later moment applied applied newer older seen (by rw [same]) knows
  · intro later error met
    exact reread (some error) later (reached_suffix met)

end Luxir.Store.StateCalls
