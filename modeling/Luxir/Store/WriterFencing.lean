import Luxir.Store.StateCalls
import Mathlib.Data.List.Pairwise

/-!
Writers fence each other through STATE. A claim takes the next epoch, and from then on no
writer of an older epoch changes the file, whatever the processes, the exceptions and the
removals in between.
-/

namespace Luxir.Store.WriterFencing
open Lib.CasFile IncarnationState StateLog StateCalls List

variable {β : Type} {grant : IncarnationState} {tip : String}

/-- The claims that took effect, whether or not their callers learned of it. -/
def claims (json : Json β) (log : StateLog β) : List Write := (writes json log).filter isClaim

/-- An advance confirmed its tip without the caller's own epoch: after the caller had lost STATE,
somebody else recorded that very tip. -/
def RecordedElsewhere (json : Json β) (log : StateLog β) (grant : Write) (tip : String) : Prop :=
  ∃ write ∈ writes json log, write.value.tip = tip ∧ (grant.lifetime < write.lifetime ∨
      grant.lifetime = write.lifetime ∧ grant.value.epoch < write.value.epoch) ∧
    (write.call = .advance tip ∨ write.call = .install tip ∨ ∃ owner, write.call = .create owner)

structure Fenced (json : Json β) (log : StateLog β) : Prop where
  /-- Within a lifetime of STATE every effective write raises the revision. -/
  revisions : (writes json log).Pairwise fun later earlier =>
    later.lifetime = earlier.lifetime → earlier.value.rev < later.value.rev
  epochs : (claims json log).Pairwise fun later earlier =>
    later.lifetime = earlier.lifetime → earlier.value.epoch < later.value.epoch
  /-- A claim returns what it wrote. -/
  granted : ∀ grant ∈ grants log, ∃ write ∈ claims json log, write.value = grant.value
  distinct : (grants log).Pairwise fun later earlier =>
    ∀ first ∈ claims json log, ∀ second ∈ claims json log, first.value = later.value →
      second.value = earlier.value → first.lifetime = second.lifetime →
      later.value.epoch ≠ earlier.value.epoch
  /-- No advance writes over a later claim. -/
  fenced : (writes json log).Pairwise fun later earlier => ∀ tip this,
    later.call = .advance tip → later.own = some this → isClaim earlier = true →
    later.lifetime = earlier.lifetime → earlier.value.epoch ≤ this.value.epoch
  /-- No advance writes in another lifetime than its writer's. -/
  buried : ∀ write ∈ writes json log, ∀ tip this, write.call = .advance tip →
    write.own = some this → ∃ grant ∈ writes json log, grant.value = this.value ∧
      grant.version = this.version ∧ grant.lifetime = write.lifetime
  advanced : ∀ process tip own result, .returned process (.advance tip) own result ∈ log →
    ∃ this, own = some this ∧ ∃ grant ∈ writes json log, grant.value = this.value ∧
      grant.version = this.version ∧
      ((∃ write ∈ writes json log, write.lifetime = grant.lifetime ∧
          write.value.epoch = this.value.epoch ∧ write.value.tip = tip) ∨
        RecordedElsewhere json log grant tip)

variable {log : StateLog β} {json : Json β} {own : Option IncarnationState}

section
variable (chain : Chain json log)
include chain

theorem revisions_increase : (writes json log).Pairwise fun later early =>
      later.lifetime = early.lifetime → early.value.rev < later.value.rev := by
  apply writes_pairwise chain
  intro early process call own new value rest _ change write mem alive
  dsimp only at alive ⊢
  rcases writes_dominated rest write mem with past | ⟨_, state, found, rev, _⟩
  · omega
  · rw [found] at change
    exact rev.trans_lt (writes_raise change).1

theorem epochs_increase : (claims json log).Pairwise fun later early =>
      later.lifetime = early.lifetime → early.value.epoch < later.value.epoch := by
  have ordered : (writes json log).Pairwise fun later early => isClaim later = true →
      later.lifetime = early.lifetime → early.value.epoch < later.value.epoch := by
    apply writes_pairwise chain
    intro early process call own new value rest _ change write mem claimed alive
    dsimp only at alive ⊢
    have owner : ∃ owner, call = .claim owner := by
      cases call with
      | claim owner => exact ⟨owner, rfl⟩
      | create | advance | install => simp [isClaim] at claimed
    rcases writes_dominated rest write mem with past | ⟨_, state, found, _, epoch⟩
    · omega
    · rw [found] at change
      exact epoch.trans_lt ((writes_raise change).2.2 owner)
  exact pairwise_filter.mpr (ordered.imp fun relate claimed _ => relate claimed)

theorem advances_fenced : (writes json log).Pairwise fun later early => ∀ tip this,
      later.call = .advance tip → later.own = some this → isClaim early = true →
      later.lifetime = early.lifetime → early.value.epoch ≤ this.value.epoch := by
  apply writes_pairwise chain
  intro early process call own new value rest _ change write mem tip this by_advance held _ alive
  dsimp only at by_advance held alive
  subst by_advance held
  obtain ⟨before, same, found, _⟩ := change
  cases same
  rcases writes_dominated rest write mem with past | ⟨_, state, here, _, epoch⟩
  · omega
  · rw [found] at here
    rw [publication_injective json (Option.some.inj here)]
    exact epoch

theorem advances_in_lifetime {write : Write} (mem : write ∈ writes json log)
    {this : IncarnationState} (by_advance : write.call = .advance tip)
    (held : write.own = some this) :
    ∃ grant ∈ writes json log, grant.value = this.value ∧ grant.version = this.version ∧
      grant.lifetime = write.lifetime := by
  obtain ⟨old, new, early, suffix, _, _, lifetime⟩ := event_of_write mem
  obtain ⟨⟨_, rfl, _, value, _, change⟩, rest⟩ := chain_suffix suffix chain
  rw [by_advance, held] at change
  obtain ⟨before, same, found, _⟩ := change
  cases same
  obtain ⟨state, eq, grant, lt, facts⟩ := latest_recorded rest found
  rw [publication_injective json eq]
  rw [lifetime] at facts
  exact ⟨grant, (writes_suffix ((suffix_cons _ _).trans suffix)).subset lt, facts⟩

theorem grant_event (mem : grant ∈ grants log) :
    ∃ process own, .returned process (.claim grant.value.owner) own (some grant) ∈ log := by
  fun_induction grants log with
  | case1 => cases mem
  | case2 process owner own granted early ih =>
    rcases mem_cons.mp mem with rfl | older
    · obtain ⟨_, ⟨_, same, drawn, _⟩, _⟩ := chain.1
      cases same
      exact ⟨process, own, by rw [drawn]; exact mem_cons_self⟩
    · obtain ⟨process, own, place⟩ := ih chain.2 older
      exact ⟨process, own, mem_cons_of_mem _ place⟩
  | case3 event early _ ih =>
    obtain ⟨process, own, place⟩ := ih chain.2 mem
    exact ⟨process, own, mem_cons_of_mem _ place⟩

theorem grant_written (mem : grant ∈ grants log) :
    ∃ write ∈ claims json log, write.value = grant.value := by
  obtain ⟨process, own, returned⟩ := grant_event chain mem
  obtain ⟨early, suffix, _, ⟨_, same, _, write, lt, _, by_claim, value⟩, _⟩ :=
    chain_mem chain returned
  cases same
  refine ⟨write, mem_filter.mpr ⟨?_, by simp [isClaim, by_claim]⟩, value⟩
  exact (writes_suffix ((suffix_cons _ _).trans suffix)).subset lt

theorem grant_owners_distinct :
    (grants log).Pairwise fun later early => later.value.owner ≠ early.value.owner := by
  fun_induction grants log with
  | case1 => exact List.Pairwise.nil
  | case2 process owner own granted early ih =>
    refine List.Pairwise.cons ?_ (ih chain.2)
    intro grant mem eq
    obtain ⟨started, ⟨_, same, drawn, _⟩, once⟩ := chain.1
    cases same
    obtain ⟨other, before, returned⟩ := grant_event chain.2 mem
    rw [← eq, drawn] at returned
    obtain ⟨past, suffix, startedToo, _⟩ := chain_mem chain.2 returned
    have place := suffix.subset (mem_cons_of_mem _ startedToo)
    obtain ⟨rfl, _⟩ := owner_unique chain.2 place started rfl rfl
    exact once owner rfl _ _ returned
  | case3 event early _ ih => exact ih chain.2

theorem grants_distinct : (grants log).Pairwise fun later early =>
      ∀ first ∈ claims json log, ∀ second ∈ claims json log, first.value = later.value →
        second.value = early.value → first.lifetime = second.lifetime →
        later.value.epoch ≠ early.value.epoch := by
  apply (grant_owners_distinct chain).imp
  intro later early owners first firstMember second secondMember ours theirs alive eq
  have ne : first ≠ second := by
    rintro rfl
    exact owners (congrArg Value.owner (ours.symm.trans theirs))
  have epochs := (epochs_increase chain).imp (S := fun a b => a.lifetime = b.lifetime →
    a.value.epoch ≠ b.value.epoch) fun relate same => Nat.ne_of_gt (relate same)
  have symmetric : Std.Symm fun a b : Write => a.lifetime = b.lifetime →
      a.value.epoch ≠ b.value.epoch := ⟨fun a b relate same eq => relate same.symm eq.symm⟩
  exact epochs.forall firstMember secondMember ne alive (by rw [ours, theirs, eq])

theorem advance_recorded {process : Nat} {out : Option IncarnationState}
    (returned : .returned process (.advance tip) own out ∈ log) :
    ∃ this, own = some this ∧ ∃ grant ∈ writes json log, grant.value = this.value ∧
      grant.version = this.version ∧ ((∃ write ∈ writes json log, write.lifetime = grant.lifetime ∧
          write.value.epoch = this.value.epoch ∧ write.value.tip = tip) ∨
        RecordedElsewhere json log grant tip) := by
  obtain ⟨early, suffix, _, ⟨this, held, moment, older, ⟨grant, mem, value, version⟩,
    state, here, rfl⟩, _⟩ := chain_mem chain returned
  have before : moment <:+ log := older.trans ((suffix_cons _ _).trans suffix)
  have lt : writes json moment ⊆ writes json log := (writes_suffix before).subset
  have then_chain := chain_suffix before chain
  obtain ⟨origin, place, alive, same, sets, others⟩ := tip_origin then_chain here
  refine ⟨this, held, grant, lt mem, value, version, ?_⟩
  rcases writes_dominated then_chain grant mem with past | ⟨now, _⟩
  · exact .inr ⟨origin, lt place, same, .inl (by omega), sets⟩
  rcases others grant mem now with had | earlierEpoch
  · exact .inl ⟨grant, lt mem, rfl, by rw [value], had⟩
  · rcases Nat.lt_or_eq_of_le earlierEpoch with passed | eq
    · exact .inr ⟨origin, lt place, same, .inr ⟨by omega, passed⟩, sets⟩
    · exact .inl ⟨origin, lt place, by omega, by rw [← eq, value], same⟩

theorem fenced_of_chain : Fenced json log where
  revisions := revisions_increase chain
  epochs := epochs_increase chain
  granted := fun _ => grant_written chain
  distinct := grants_distinct chain
  fenced := advances_fenced chain
  buried := fun _ mem _ _ => advances_in_lifetime chain mem
  advanced := fun _ _ _ _ => advance_recorded chain

end

theorem admits_fresh {call : Call} (admitted : admits log own call = true) (owner : String)
    (draws : call.owner? = some owner) : log.any (drew owner) = false := by
  cases call with
  | create | claim =>
    cases draws
    simp only [admits, Bool.not_eq_true, Bool.decide_and, Bool.and_eq_true,
      decide_eq_true_eq] at admitted
    exact admitted.2
  | advance | install => cases draws

theorem entry_started {file : File β} (process : Nat) (call : Call) (inv : Inv json file log)
    (known : Own json own log) (admitted : admits log own call = true) :
    Entry json process call own (.started process call :: log) := by
  -- An event of this call would have needed its owner to be drawn before.
  have unseen : ∀ owner, call.owner? = some owner → .started process call ∉ log := by
    intro owner draws mem
    have never := admits_fresh admitted owner draws
    rw [any_drew draws mem] at never
    cases never
  refine ⟨own_mono (suffix_cons _ _) known, mem_cons_self, ?_, ?_⟩
  · rintro owner draws _ _ _ (_ | ⟨_, older⟩)
    obtain ⟨early, suffix, started, _⟩ := chain_mem inv.chain older
    exact unseen owner draws (suffix.subset (mem_cons_of_mem _ started))
  · rintro owner draws _ _ (_ | ⟨_, older⟩)
    obtain ⟨early, suffix, started, _⟩ := chain_mem inv.chain older
    exact unseen owner draws (suffix.subset (mem_cons_of_mem _ started))

section
variable [DecidableEq β]

theorem sound_program (process : Nat) (call : Call) (own : Option IncarnationState)
    (entry : Entry json process call own log) :
    Sound (spec json) process call own (program json own call) log := by
  cases call with
  | create => exact sound_create entry
  | claim => exact sound_claim entry
  | install => exact sound_install entry
  | advance =>
    cases own with
    | none => exact sound_fail _ _
    | some => exact sound_advance entry

def contract (json : Json β) : Contract (system json) where
  toSpec := spec json
  own_mono := own_mono
  inv_start := ⟨rfl, by simp [writes], trivial⟩
  own_start := by intro state held; simp [system] at held
  inv_started := fun process call inv admitted =>
    inv_event inv (admits_fresh admitted) rfl rfl
  inv_removed := fun inv => ⟨rfl, inv.bound, trivial, inv.chain⟩
  entry_started := entry_started
  sound := sound_program

/-- In every interleaving each write replaces what the newest one left in STATE. -/
theorem interleaving_justified (json : Json β) (choices : List (Choice Error Call)) :
    Inv json (run (system json) (start (system json)) choices).file
      (run (system json) (start (system json)) choices).log :=
  ((contract json).holds_run choices).inv

/-- A writer that advances gets an answer: its program never starts over. -/
theorem advance_ends (json : Json β) (this : IncarnationState) (tip : String) :
    (advance json this tip).Ends := by
  have readEnds : (read json).Ends := by
    intro out
    rcases out with error | _ | publication
    · trivial
    · trivial
    · dsimp only
      split
      · trivial
      · split_ifs <;> trivial
  have durableEnds : (durable : Prog β Error Unit).Ends := by
    intro out
    cases out <;> trivial
  have confirmEnds : ∀ failure, (confirm json this tip failure).Ends := by
    intro failure
    apply Prog.ends_bind readEnds
    intro observed
    cases observed with
    | none => trivial
    | some =>
      dsimp only
      split_ifs
      · exact Prog.ends_bind durableEnds fun _ => trivial
      · exact Prog.ends_bind durableEnds fun _ => trivial
      · trivial
      · cases failure <;> trivial
  have writeEnds : ∀ value condition, (write json value condition).Ends := by
    intro value condition out
    rcases out with failure | _ | version
    · intro observed
      rcases observed with error | _ | publication
      · trivial
      · trivial
      · dsimp only
        split_ifs
        · exact Prog.ends_bind durableEnds fun _ => trivial
        · trivial
    all_goals trivial
  unfold advance increment
  split_ifs
  · trivial
  apply Prog.ends_bind (Prog.ends_attempt (writeEnds _ _))
  intro outcome
  rcases outcome with failure | _ | applied
  · exact confirmEnds _
  · exact confirmEnds _
  · trivial

/-- Writer fencing, in every interleaving of creates, claims, advances, installs and removals,
with publications that may throw before or after they took effect. -/
theorem writer_fencing (json : Json β) (choices : List (Choice Error Call)) :
    Fenced json (run (system json) (start (system json)) choices).log ∧
      ∀ this tip, (advance json this tip).Ends :=
  ⟨fenced_of_chain ((contract json).holds_run choices).inv.chain, advance_ends json⟩

end

def plainJson : Json Value := ⟨id, some, fun _ => rfl⟩

def steps (process count : Nat) : List (Choice Error Call) := replicate count (.step process .none)

/-- STATE is created, claimed, removed, created again and claimed again. -/
def recreation : List (Choice Error Call) :=
  .start 0 (.create "a") :: steps 0 2 ++ .start 0 (.claim "b") :: steps 0 3 ++
    .remove :: .start 1 (.create "c") :: steps 1 2 ++ .start 1 (.claim "d") :: steps 1 3

/-- A second writer takes over, a tip is installed under it, and the first writer confirms that
tip as its own. -/
def takeover : List (Choice Error Call) :=
  .start 0 (.create "a") :: steps 0 2 ++ .start 1 (.claim "b") :: steps 1 3 ++
    .start 2 (.claim "c") :: steps 2 3 ++ .start 3 (.install "t") :: steps 3 3 ++
    .start 1 (.advance "t") :: steps 1 4

def outcome (choices : List (Choice Error Call)) : StateLog Value :=
  (run (system plainJson) (start (system plainJson)) choices).log

/-- Across a removal epochs and revisions start over, and an advance after a takeover can be
confirmed by a tip that STATE never held under the caller's epoch. -/
theorem fencing_restarts : ¬((claims plainJson (outcome recreation)).Pairwise fun later earlier =>
        earlier.value.epoch < later.value.epoch) ∧
      ¬((writes plainJson (outcome recreation)).Pairwise fun later earlier =>
        earlier.value.rev < later.value.rev) ∧ ∃ this : IncarnationState,
        .returned 1 (.advance "t") (some this) (some this) ∈ outcome takeover ∧
        ∀ write ∈ writes plainJson (outcome takeover),
          ¬(write.value.epoch = this.value.epoch ∧ write.value.tip = "t") := by
  refine ⟨by decide, by decide, ⟨⟨2, 1, "b", ""⟩, 2⟩, ?_, by decide⟩
  exact mem_of_mem_head? rfl

end Luxir.Store.WriterFencing
