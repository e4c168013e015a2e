import Luxir.Store.IncarnationState
import Mathlib.Data.List.Nodup

/-!
The log of what happened to STATE. A lifetime of STATE runs from its creation to its removal.
A log is a chain when each event is justified by the events before it, and the facts about
whole runs follow from that alone: versions identify writes, revision and epoch grow within a
lifetime, an owner belongs to one call, and a tip is retained by claims.
-/

namespace Luxir.Store.StateLog
open Lib.CasFile IncarnationState List Option

variable {β : Type} {later : StateLog β} {process : Nat}

structure Write where
  lifetime : Nat
  process : Nat
  call : Call
  own : Option IncarnationState
  value : Value
  version : Nat
deriving DecidableEq, Repr

def removals : StateLog β → Nat
  | [] => 0
  | .removed :: earlier => removals earlier + 1
  | _ :: earlier => removals earlier

def latest : StateLog β → Option (Publication β)
  | [] => none
  | .removed :: _ => none
  | .wrote _ _ _ _ new :: _ => some new
  | _ :: earlier => latest earlier

def writes (json : Json β) : StateLog β → List Write
  | [] => []
  | .wrote process call own _ new :: earlier =>
      match json.readJson new.bytes with
      | some value =>
          ⟨removals earlier, process, call, own, value, new.version⟩ :: writes json earlier
      | none => writes json earlier
  | _ :: earlier => writes json earlier

def isClaim (write : Write) : Bool :=
  match write.call with
  | .claim _ => true
  | _ => false

def grants : StateLog β → List IncarnationState
  | [] => []
  | .returned _ (.claim _) _ (some granted) :: earlier => granted :: grants earlier
  | _ :: earlier => grants earlier

def publication (json : Json β) (state : IncarnationState) : Publication β :=
  ⟨json.writeJson state.value, state.version⟩

def Knows (json : Json β) (log : StateLog β) (state : IncarnationState) : Prop :=
  ∃ write ∈ writes json log, write.value = state.value ∧ write.version = state.version

/-- What a call may put into STATE, given what was there. -/
def Writes (json : Json β) (own : Option IncarnationState) (old : Option (Publication β)) :
    Call → Value → Prop
  | .create owner, value => old = none ∧ value = ⟨1, 0, owner, ""⟩
  | .claim owner, value => ∃ before, old = some (publication json before) ∧
      value = ⟨before.value.rev + 1, before.value.epoch + 1, owner, before.value.tip⟩
  | .advance tip, value => ∃ before, own = some before ∧ old = some (publication json before) ∧
      value = ⟨before.value.rev + 1, before.value.epoch, before.value.owner, tip⟩
  | .install tip, value => ∃ before, old = some (publication json before) ∧
      value = ⟨before.value.rev + 1, before.value.epoch, before.value.owner, tip⟩

/-- What a returned call promises its caller. -/
def Returns (json : Json β) (process : Nat) (own result : Option IncarnationState)
    (earlier : StateLog β) : Call → Prop
  | .create _ => True
  | .claim owner => ∃ granted, result = some granted ∧ granted.value.owner = owner ∧
      ∃ write ∈ writes json earlier,
        write.process = process ∧ write.call = .claim owner ∧ write.value = granted.value
  | .advance tip => ∃ before, own = some before ∧ ∃ moment, moment <:+ earlier ∧
      Knows json moment before ∧
      ∃ state, latest moment = some (publication json state) ∧ state.value.tip = tip
  | .install _ => True

/-- Why an event could follow the log before it. -/
def Justified (json : Json β) (earlier : StateLog β) : StateEvent β → Prop
  | .started _ call => ∀ owner, call.owner? = some owner → earlier.any (drew owner) = false
  | .wrote process call own old new =>
      .started process call ∈ earlier ∧ old = latest earlier ∧
      (∀ write ∈ writes json earlier, write.version < new.version) ∧
      ∃ value, new.bytes = json.writeJson value ∧ Writes json own old call value
  | .removed => True
  | .returned process call own result =>
      .started process call ∈ earlier ∧ Returns json process own result earlier call ∧
      ∀ owner, call.owner? = some owner →
        ∀ before after, .returned process call before after ∉ earlier
  | .threw _ _ _ _ => True

def Chain (json : Json β) : StateLog β → Prop
  | [] => True
  | event :: earlier => Justified json earlier event ∧ Chain json earlier

variable {log : StateLog β} {json : Json β} {state : IncarnationState} {new : Publication β}
  {own : Option IncarnationState}

theorem chain_suffix {moment : StateLog β} (suffix : moment <:+ log) (chain : Chain json log) :
    Chain json moment := by
  obtain ⟨newer, rfl⟩ := suffix
  induction newer with
  | nil => exact chain
  | cons event newer ih => exact ih chain.2

theorem chain_mem {event : StateEvent β} (chain : Chain json log) (mem : event ∈ log) :
    ∃ early, event :: early <:+ log ∧ Justified json early event := by
  obtain ⟨newer, early, rfl⟩ := append_of_mem mem
  have suffix : event :: early <:+ newer ++ event :: early := suffix_append _ _
  exact ⟨early, suffix, (chain_suffix suffix chain).1⟩

variable {call : Call} {owner : String} {value : Value}

theorem writes_wrote {old : Option (Publication β)}
    (bytes : new.bytes = json.writeJson value) (early : StateLog β) :
    writes json (.wrote process call own old new :: early) =
      ⟨removals early, process, call, own, value, new.version⟩ :: writes json early := by
  simp only [writes, bytes, json.read_write]

theorem writes_suffix (suffix : log <:+ later) : writes json log <:+ writes json later := by
  obtain ⟨newer, rfl⟩ := suffix
  induction newer with
  | nil => exact suffix_rfl
  | cons event newer ih =>
    cases event with
    | wrote =>
      simp only [cons_append, writes]
      split
      · exact ih.trans (suffix_cons _ _)
      · exact ih
    | started | removed | returned | threw => exact ih

theorem knows_mono (suffix : log <:+ later) (knows : Knows json log state) :
    Knows json later state := by
  obtain ⟨write, mem, same⟩ := knows
  exact ⟨write, (writes_suffix suffix).subset mem, same⟩

theorem writes_pairwise {related : Write → Write → Prop} (chain : Chain json log)
    (relate : ∀ early process call own new value, Chain json early → (∀ write ∈ writes json early,
      write.version < new) → Writes json own (latest early) call value → ∀ write ∈ writes json
      early, related ⟨removals early, process, call, own, value, new⟩ write) :
    (writes json log).Pairwise related := by
  induction log with
  | nil => exact List.Pairwise.nil
  | cons event early ih =>
    cases event with
    | wrote process call own old new =>
      obtain ⟨⟨_, rfl, fresh, value, bytes, change⟩, rest⟩ := chain
      rw [writes_wrote bytes]
      exact List.Pairwise.cons
        (relate early process call own new.version value rest fresh change) (ih rest)
    | started | removed | returned | threw => exact ih chain.2

theorem write_of_version (chain : Chain json log) {first second : Write}
    (left : first ∈ writes json log) (right : second ∈ writes json log)
    (same : first.version = second.version) : first = second := by
  have nodup := pairwise_map.mpr
    (writes_pairwise chain fun _ _ _ _ _ _ _ fresh _ write mem => Nat.ne_of_gt (fresh write mem))
  exact inj_on_of_nodup_map nodup left right same

theorem event_of_write {write : Write} (mem : write ∈ writes json log) :
    ∃ old new early, .wrote write.process write.call write.own old new :: early <:+ log ∧
      json.readJson new.bytes = some write.value ∧ new.version = write.version ∧
      removals early = write.lifetime := by
  fun_induction writes json log with
  | case1 => cases mem
  | case2 process call own old new early value decoded ih =>
    rcases mem_cons.mp mem with rfl | older
    · exact ⟨old, new, early, suffix_rfl, decoded, rfl, rfl⟩
    · obtain ⟨old, new, tail, suffix, facts⟩ := ih older
      exact ⟨old, new, tail, suffix.trans (suffix_cons _ _), facts⟩
  | case3 _ _ _ _ _ _ _ ih | case4 _ _ _ ih =>
    obtain ⟨old, new, tail, suffix, facts⟩ := ih mem
    exact ⟨old, new, tail, suffix.trans (suffix_cons _ _), facts⟩

theorem publication_injective (json : Json β) : Function.Injective (publication json) := by
  intro first second same
  have bytes := congrArg (fun p => json.readJson p.bytes) same
  have version := congrArg Publication.version same
  simp only [publication, json.read_write, some.injEq] at bytes version
  cases first
  cases second
  simp_all

/-- Every effective write over an existing STATE raises the revision and keeps or raises the
epoch, and a claim raises it. -/
theorem writes_raise (wrote : Writes json own (some (publication json state)) call value) :
    state.value.rev < value.rev ∧ state.value.epoch ≤ value.epoch ∧
      ((∃ owner, call = .claim owner) → state.value.epoch < value.epoch) := by
  cases call with
  | create => exact absurd wrote.1 (by simp)
  | claim =>
    obtain ⟨before, old, rfl⟩ := wrote
    obtain rfl := publication_injective json (some.inj old)
    exact ⟨Nat.lt_succ_self _, Nat.le_succ _, fun _ => Nat.lt_succ_self _⟩
  | advance =>
    obtain ⟨before, _, old, rfl⟩ := wrote
    obtain rfl := publication_injective json (some.inj old)
    exact ⟨Nat.lt_succ_self _, le_rfl, fun claimed => by simp at claimed⟩
  | install =>
    obtain ⟨before, old, rfl⟩ := wrote
    obtain rfl := publication_injective json (some.inj old)
    exact ⟨Nat.lt_succ_self _, le_rfl, fun claimed => by simp at claimed⟩

/-- A write of an earlier lifetime, or one whose value the present STATE has passed. -/
def Dominated (json : Json β) (log : StateLog β) (write : Write) : Prop :=
  write.lifetime < removals log ∨ write.lifetime = removals log ∧
    ∃ state, latest log = some (publication json state) ∧
      write.value.rev ≤ state.value.rev ∧ write.value.epoch ≤ state.value.epoch

section
variable (chain : Chain json log)
include chain

theorem writes_dominated : ∀ write ∈ writes json log, Dominated json log write := by
  induction log with
  | nil => simp [writes]
  | cons event early ih =>
    cases event with
    | wrote process call own old new =>
      obtain ⟨⟨_, rfl, _, value, bytes, written⟩, rest⟩ := chain
      have now : latest (.wrote process call own (latest early) new :: early) =
          some (publication json ⟨value, new.version⟩) := by
        simp [latest, publication, ← bytes]
      rw [writes_wrote bytes]
      intro write mem
      rcases mem_cons.mp mem with rfl | lt
      · exact .inr ⟨rfl, ⟨value, new.version⟩, now, le_rfl, le_rfl⟩
      rcases ih rest write lt with past | ⟨here, state, old, rev, epoch⟩
      · exact .inl past
      · rw [old] at written
        obtain ⟨above, kept, _⟩ := writes_raise written
        exact .inr ⟨here, ⟨value, new.version⟩, now, by dsimp only; omega, by dsimp only; omega⟩
    | removed =>
      intro write mem
      rcases ih chain.2 write mem with past | ⟨here, _⟩
      · exact .inl (Nat.lt_succ_of_lt past)
      · exact .inl (by simp only [removals]; omega)
    | started | returned | threw =>
      exact ih chain.2

theorem latest_recorded (here : latest log = some new) :
    ∃ state, new = publication json state ∧ ∃ write ∈ writes json log,
      write.value = state.value ∧ write.version = state.version ∧
        write.lifetime = removals log := by
  induction log with
  | nil => simp [latest] at here
  | cons event early ih =>
    cases event with
    | wrote =>
      obtain ⟨⟨_, _, _, value, bytes, _⟩, _⟩ := chain
      cases here
      refine ⟨⟨value, new.version⟩, by simp [publication, ← bytes], ?_⟩
      rw [writes_wrote bytes]
      exact ⟨_, mem_cons_self, rfl, rfl, rfl⟩
    | removed => simp [latest] at here
    | started | returned | threw =>
      exact ih chain.2 here

theorem latest_knows (here : latest log = some new) :
    ∃ state, new = publication json state ∧ Knows json log state := by
  obtain ⟨state, rfl, write, mem, value, version, _⟩ := latest_recorded chain here
  exact ⟨state, rfl, write, mem, value, version⟩

/-- The file is at the version a process knows, so it holds what the process knows. -/
theorem latest_of_version (here : latest log = some new) (knows : Knows json log state)
    (same : new.version = state.version) : new = publication json state := by
  obtain ⟨found, rfl, write, mem, value, version⟩ := latest_knows chain here
  obtain ⟨other, otherMember, otherValue, otherVersion⟩ := knows
  have eq : write = other := write_of_version chain mem otherMember (by
    rw [version, otherVersion]
    exact same)
  subst eq
  cases found
  cases state
  simp_all

end

theorem origin_of_claim_retained {old : IncarnationState}
    (change : Writes json own (some (publication json old)) (.claim owner) value) :
    value.tip = old.value.tip := by
  obtain ⟨before, same, rfl⟩ := change
  rw [publication_injective json (some.inj same)]

/-- Where the tip of STATE comes from: claims retain it, so it is the creation's, or an advance
or an install put it there. Any other write of the lifetime had the tip too, or came before. -/
theorem tip_origin (chain : Chain json log) (present : latest log = some (publication json state)) :
    ∃ origin ∈ writes json log, origin.lifetime = removals log ∧
      origin.value.tip = state.value.tip ∧
      (origin.call = .advance state.value.tip ∨ origin.call = .install state.value.tip ∨
        ∃ owner, origin.call = .create owner) ∧
      ∀ write ∈ writes json log, write.lifetime = removals log →
        write.value.tip = state.value.tip ∨ write.value.epoch ≤ origin.value.epoch := by
  induction log generalizing state with
  | nil => simp [latest] at present
  | cons event early ih =>
    cases event with
    | wrote process call own old new =>
      obtain ⟨⟨_, rfl, _, value, bytes, change⟩, rest⟩ := chain
      have same : value = state.value := by
        have decoded := congrArg (fun p => p.map fun q => json.readJson q.bytes) present
        simpa only [latest, map_some, publication, bytes, json.read_write, some.injEq] using decoded
      subst same
      rw [writes_wrote bytes]
      have kind : (call = .advance state.value.tip ∨ call = .install state.value.tip ∨
          ∃ owner, call = .create owner) ∨ ∃ owner, call = .claim owner := by
        cases call with
        | create owner => exact .inl (.inr (.inr ⟨owner, rfl⟩))
        | claim owner => exact .inr ⟨owner, rfl⟩
        | advance =>
          obtain ⟨_, _, _, next⟩ := change
          exact .inl (.inl (by rw [next]))
        | install =>
          obtain ⟨_, _, next⟩ := change
          exact .inl (.inr (.inl (by rw [next])))
      rcases kind with sets | ⟨owner, rfl⟩
      · -- A write that sets the tip is the origin itself: no earlier write has a later epoch.
        refine ⟨_, mem_cons_self, rfl, rfl, sets, ?_⟩
        intro write mem alive
        rcases mem_cons.mp mem with rfl | lt
        · exact .inl rfl
        · rcases writes_dominated rest write lt with past | ⟨_, before, found, _, epoch⟩
          · exact absurd alive past.ne
          · rw [found] at change
            exact .inr (epoch.trans (writes_raise change).2.1)
      · obtain ⟨before, found, _⟩ := id change
        rw [found] at change
        rw [origin_of_claim_retained change]
        obtain ⟨origin, mem, alive, tip, sets, others⟩ := ih rest found
        refine ⟨origin, mem_cons_of_mem _ mem, alive, tip, sets, ?_⟩
        intro write place now
        rcases mem_cons.mp place with rfl | lt
        · exact .inl (origin_of_claim_retained change)
        · exact others write lt now
    | removed => simp [latest] at present
    | started | returned | threw =>
      exact ih chain.2 present

theorem any_drew (draws : call.owner? = some owner)
    (mem : .started process call ∈ log) : log.any (drew owner) = true :=
  any_eq_true.mpr ⟨_, mem, by simpa [drew] using draws⟩

theorem owner_unique (chain : Chain json log) {first second : Nat} {other : Call}
    (left : .started first call ∈ log) (right : .started second other ∈ log)
    (draws : call.owner? = some owner) (drawsToo : other.owner? = some owner) :
    first = second ∧ call = other := by
  induction log with
  | nil => simp at left
  | cons event early ih =>
    rcases mem_cons.mp left with rfl | older
    · rcases mem_cons.mp right with same | olderToo
      · cases same
        exact ⟨rfl, rfl⟩
      · have never := chain.1 owner draws
        rw [any_drew drawsToo olderToo] at never
        cases never
    · rcases mem_cons.mp right with rfl | olderToo
      · have never := chain.1 owner drawsToo
        rw [any_drew draws older] at never
        cases never
      · exact ih chain.2 older olderToo

theorem owner_source (chain : Chain json log) :
    ∀ write ∈ writes json log, ∃ process call own old new,
      .wrote process call own old new ∈ log ∧ call.owner? = some write.value.owner := by
  induction log with
  | nil => simp [writes]
  | cons event early ih =>
    have older : ∀ write ∈ writes json early, Chain json early →
        ∃ process call own old new, .wrote process call own old new ∈ event :: early ∧
          call.owner? = some write.value.owner := by
      intro write mem rest
      obtain ⟨process, call, own, old, new, place, draws⟩ := ih rest write mem
      exact ⟨process, call, own, old, new, mem_cons_of_mem _ place, draws⟩
    cases event with
    | wrote process call own old new =>
      obtain ⟨⟨_, rfl, _, value, bytes, change⟩, rest⟩ := chain
      have kind : call.owner? = some value.owner ∨ ∃ before : IncarnationState,
          latest early = some (publication json before) ∧ value.owner = before.value.owner := by
        cases call with
        | create => exact .inl (by rw [change.2]; rfl)
        | claim =>
          obtain ⟨before, _, next⟩ := change
          exact .inl (by rw [next]; rfl)
        | advance =>
          obtain ⟨before, _, found, next⟩ := change
          exact .inr ⟨before, found, by rw [next]⟩
        | install =>
          obtain ⟨before, found, next⟩ := change
          exact .inr ⟨before, found, by rw [next]⟩
      rw [writes_wrote bytes]
      intro write mem
      rcases mem_cons.mp mem with rfl | lt
      · rcases kind with draws | ⟨before, found, same⟩
        · exact ⟨process, call, own, _, new, mem_cons_self, draws⟩
        · obtain ⟨state, eq, write, place, written, _⟩ := latest_recorded rest found
          obtain rfl := publication_injective json eq
          rw [same, ← written]
          exact older write place rest
      · exact older write lt rest
    | removed | started | returned | threw => exact fun write mem => older write mem chain.2

end Luxir.Store.StateLog
