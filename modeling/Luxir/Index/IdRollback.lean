import Luxir.Index.IdHandler
import Mathlib.Algebra.Order.BigOperators.Group.Finset

/-!
A rollback puts back the entries, the count of watermarks and the deleted documents. What it leaves
are ids with neutral entries, which no operation and no flush can tell from no entry.
-/

namespace Luxir.Index.IdHandler
open State List Handler

variable {ι : Type} {state after : State ι} {ids : Finset ι} {id : ι}

structure Touched (id : ι) (before after : State ι) : Prop where
  entry : ∀ key, key ≠ id → after.entry key = before.entry key
  counted : after.nonzeroWatermarks - watermarked (after.entry id) =
    before.nonzeroWatermarks - watermarked (before.entry id)
  undoLog : after.undoLog = before.undoLog
  deleted : before.deleted <+: after.deleted

namespace Touched

theorem refl : Touched id state state := ⟨fun _ _ => rfl, rfl, rfl, prefix_rfl⟩

theorem trans {before mid after : State ι} (first : Touched id before mid)
    (second : Touched id mid after) : Touched id before after where
  entry key ne := (second.entry key ne).trans (first.entry key ne)
  counted := second.counted.trans first.counted
  undoLog := second.undoLog.trans first.undoLog
  deleted := first.deleted.trans second.deleted

theorem deleteDoc (docId : Nat) : Touched id state (state.deleteDoc docId) :=
  { refl with deleted := prefix_append _ _ }

variable [LinearOrder ι]

theorem setEntry (docId : Option Nat) :
    Touched id state (state.setEntry id ⟨docId, (state.entry id).deleteWatermark⟩) where
  entry key ne := by simp [State.setEntry, ne]
  counted := by simp [State.setEntry, watermarked]
  undoLog := rfl
  deleted := prefix_rfl

theorem resolveOccupant : Touched id state (state.resolveOccupant id) := by
  unfold State.resolveOccupant
  split
  · exact refl
  · split
    · exact (deleteDoc _).trans (setEntry none)
    · exact refl

theorem raiseWatermark (version : Nat) : Touched id state (state.raiseWatermark id version) := by
  unfold State.raiseWatermark
  split
  · exact refl
  case isFalse above =>
    apply trans _ resolveOccupant
    refine ⟨fun key ne => ?_, ?_, rfl, prefix_rfl⟩
    · simp [setWatermark, State.setEntry, ne]
    · simp only [setWatermark, State.setEntry, Function.update_self, watermarked]
      split_ifs <;> omega

theorem occupy (version : Nat) : Touched id state (state.occupy id version) := by
  unfold State.occupy
  split
  · exact deleteDoc _
  split
  · exact setEntry _
  · split_ifs
    · exact refl
    · exact deleteDoc _
    · exact (deleteDoc _).trans (setEntry _)

theorem indexId (overwrite : Bool) (version : Nat) :
    Touched id (state.entryFor id) (state.indexId id overwrite version) := by
  cases overwrite with
  | false => exact occupy version
  | true => exact (raiseWatermark version).trans (occupy version)

end Touched

variable [LinearOrder ι]

structure Sound (ids : Finset ι) (state : State ι) : Prop where
  held : ∀ id, id ∉ ids → state.entry id = .neutral
  logged : ∀ noted ∈ state.undoLog, noted.1 ∈ ids
  counted : state.nonzeroWatermarks = ∑ id ∈ ids, watermarked (state.entry id)

namespace Sound
variable (sound : Sound ids state)
include sound

theorem union (more : Finset ι) : Sound (ids ∪ more) state where
  held id gone := sound.held id fun mem => gone (Finset.mem_union_left _ mem)
  logged noted mem := Finset.mem_union_left _ (sound.logged noted mem)
  counted := by
    rw [sound.counted]
    refine Finset.sum_subset Finset.subset_union_left fun id _ gone => ?_
    rw [sound.held id gone]
    rfl

theorem change (mem : id ∈ ids) (entry : ∀ key, key ≠ id → after.entry key = state.entry key)
    (counted : after.nonzeroWatermarks - watermarked (after.entry id) =
      state.nonzeroWatermarks - watermarked (state.entry id))
    (undoLog : after.undoLog ⊆ state.undoLog) : Sound ids after where
  held key gone := by
    rw [entry key fun same => gone (same ▸ mem), sound.held key gone]
  logged noted mem := sound.logged noted (undoLog mem)
  counted := by
    have others : ∑ key ∈ ids.erase id, watermarked (after.entry key) =
        ∑ key ∈ ids.erase id, watermarked (state.entry key) :=
      Finset.sum_congr rfl fun key other => by rw [entry key (Finset.ne_of_mem_erase other)]
    rw [sound.counted] at counted
    rw [← Finset.sum_erase_add _ _ mem] at counted ⊢
    omega

theorem touched (id : ι) (mem : id ∈ ids) (touched : Touched id (state.entryFor id) after) :
    Sound ids after := by
  have found : Sound ids (state.entryFor id) :=
    { sound with logged := forall_mem_cons.mpr ⟨mem, sound.logged⟩ }
  exact found.change mem touched.entry touched.counted fun _ mem => touched.undoLog ▸ mem

theorem undo {noted : ι × IdEntry} (mem : noted.1 ∈ ids) : Sound ids (state.undo noted) := by
  apply sound.change mem
  · intro key ne
    simp [State.undo, State.setEntry, ne]
  · simp [State.undo, State.setEntry]
  · exact tail_subset _

theorem act (op : Op ι) : Sound (ids ∪ op.ids) (state.act op) := by
  have grown := sound.union op.ids
  cases op with
  | startDoc => exact { grown with }
  | index id overwrite version =>
      exact grown.touched id (by simp [Op.ids]) (.indexId overwrite version)
  | addDelete id version =>
      exact grown.touched id (by simp [Op.ids]) (.raiseWatermark version)
  | deleteDoc => exact { grown with }
  | rollbackTo mark =>
      have undone := foldlRecOn
        (state.undoLog.take (state.undoLog.length - mark.idUndoSize)) State.undo grown
        fun _ sound noted mem => sound.undo (grown.logged noted (mem_of_mem_take mem))
      exact { undone with }
  | clearUndoLog => exact { grown with logged := nofun }

end Sound

theorem Sound.run (ops : List (Op ι)) : ∀ handler : Handler ι, Sound handler.ids handler.toState →
    Sound (handler.run ops).ids (handler.run ops).toState := by
  induction ops with
  | nil => exact fun _ => id
  | cons op ops continued => exact fun handler sound => continued _ (sound.act op)

omit [LinearOrder ι] in
theorem Sound.initial : Sound ∅ (initial : Handler ι).toState := ⟨fun _ _ => rfl, nofun, rfl⟩

theorem Sound.facts (sound : Sound ids state) : (((ids.sort (· ≤ ·)).filterMap fun id =>
    if (state.entry id).deleteWatermark = 0 then none
    else some (id, (state.entry id).deleteWatermark)).length : Int) = state.nonzeroWatermarks := by
  have summed : ∑ id ∈ ids, watermarked (state.entry id) =
      ((ids.sort (· ≤ ·)).map fun id => watermarked (state.entry id)).sum := by
    rw [Finset.sum, ← Finset.sort_eq ids (· ≤ ·), Multiset.map_coe, Multiset.sum_coe]
  rw [sound.counted, summed]
  induction ids.sort (· ≤ ·) with
  | nil => rfl
  | cons id rest ih =>
    rw [map_cons, sum_cons, ← ih, filterMap_cons, watermarked]
    split_ifs <;> simp_all [add_comm]

namespace State

def view (state : State ι) : (ι → IdEntry) × Int := (state.entry, state.nonzeroWatermarks)

def revert (view : (ι → IdEntry) × Int) (noted : ι × IdEntry) : (ι → IdEntry) × Int :=
  (Function.update view.1 noted.1 noted.2,
    view.2 - watermarked (view.1 noted.1) + watermarked noted.2)

theorem view_undone (log : List (ι × IdEntry)) (state : State ι) :
    (log.foldl undo state).view = log.foldl revert state.view :=
  (foldl_hom view fun _ _ => rfl).symm

theorem undone_rest (log : List (ι × IdEntry)) : ∀ state : State ι,
    (log.foldl undo state).undoLog = state.undoLog.drop log.length ∧
      (log.foldl undo state).deleted = state.deleted ∧
      (log.foldl undo state).births = state.births := by
  induction log with
  | nil => simp
  | cons noted log continued =>
      intro state
      have rest := continued (state.undo noted)
      rwa [show (state.undo noted).undoLog = state.undoLog.tail from rfl, drop_tail] at rest

end State

def UndoMark.Within (outer mark : UndoMark) : Prop :=
  outer.idUndoSize ≤ mark.idUndoSize ∧ outer.numDeleted ≤ mark.numDeleted

structure Since (start now : State ι) : Prop where
  log : ∃ recent, now.undoLog = recent ++ start.undoLog ∧ recent.foldl revert now.view = start.view
  deleted : start.deleted <+: now.deleted

namespace Since
variable {start now : State ι}

section
variable (since : Since start now)
include since

theorem touched (id : ι) (touched : Touched id (now.entryFor id) after) : Since start after where
  log := by
    obtain ⟨recent, log, back⟩ := since.log
    have undone : revert after.view (id, now.entry id) = now.view := by
      apply Prod.ext
      · funext key
        by_cases same : key = id
        · simp [revert, view, same]
        · exact (Function.update_of_ne same _ _).trans (touched.entry key same)
      · exact eq_add_of_sub_eq touched.counted.symm |>.symm
    refine ⟨(id, now.entry id) :: recent, ?_, ?_⟩
    · rw [touched.undoLog, cons_append, ← log]
      rfl
    · rw [foldl_cons, undone, back]
  deleted := since.deleted.trans touched.deleted

theorem rollbackTo {mark : UndoMark} (within : start.undoMark.Within mark) :
    Since start (now.rollbackTo mark) where
  log := by
    obtain ⟨recent, log, back⟩ := since.log
    have size : now.undoLog.length - mark.idUndoSize ≤ recent.length := by
      have shorter : start.undoLog.length ≤ mark.idUndoSize := within.1
      rw [log, length_append]
      omega
    refine ⟨recent.drop (now.undoLog.length - mark.idUndoSize), ?_, ?_⟩
    · refine (undone_rest _ _).1.trans ?_
      rw [length_take_of_le (Nat.sub_le _ _), ← drop_append_of_le_length size, ← log]
    refine (congrArg (foldl revert · _) (view_undone _ _)).trans ?_
    have taken : (recent ++ start.undoLog).take (now.undoLog.length - mark.idUndoSize) = _ :=
      take_append_of_le_length size
    rw [← log] at taken
    rw [taken, ← foldl_append, take_append_drop, back]
  deleted := by
    rw [show (now.rollbackTo mark).deleted = take _ _ from rfl, (undone_rest _ _).2.1]
    exact prefix_take_iff.mpr ⟨since.deleted, within.2⟩

theorem act (op : Op ι) (kept : op ≠ .clearUndoLog)
    (nested : ∀ mark, op = .rollbackTo mark → start.undoMark.Within mark) :
    Since start (now.act op) := by
  cases op with
  | startDoc => exact { since with }
  | index id overwrite version => exact since.touched id (.indexId overwrite version)
  | addDelete id version => exact since.touched id (.raiseWatermark version)
  | deleteDoc =>
      exact { since with deleted := since.deleted.trans (prefix_append _ _) }
  | rollbackTo mark => exact since.rollbackTo (nested mark rfl)
  | clearUndoLog => exact absurd rfl kept

theorem restored : now.rollbackTo start.undoMark = { start with births := now.births } := by
  have within : start.undoMark.Within start.undoMark := ⟨le_rfl, le_rfl⟩
  obtain ⟨⟨recent, log, back⟩, extended⟩ := since.rollbackTo within
  obtain ⟨older, added, -⟩ := since.log
  have rest := undone_rest (now.undoLog.take (now.undoLog.length - start.undoLog.length)) now
  have nothing : recent = [] := by
    have same := congrArg length (rest.1.symm.trans log)
    have longer := congrArg length added
    simp only [length_drop, length_take, length_append] at same longer
    exact eq_nil_of_length_eq_zero (by omega)
  subst nothing
  have deleted := extended.eq_of_length_le (length_take_le _ _)
  exact State.ext (congrArg Prod.fst back) (congrArg Prod.snd back) log deleted.symm rest.2.2

end

theorem run (ops : List (Op ι)) (kept : .clearUndoLog ∉ ops)
    (nested : ∀ mark, .rollbackTo mark ∈ ops → start.undoMark.Within mark) :
    Since start (start.run ops) :=
  foldlRecOn ops _ ⟨⟨[], rfl, rfl⟩, prefix_rfl⟩ fun _ since op mem =>
    since.act op (fun same => kept (same ▸ mem)) fun mark same => nested mark (same ▸ mem)

end Since

/-- What is written of the ids in order depends on the entries alone. -/
theorem Sound.terms {α : Type} {others : Finset ι} (sound : Sound ids state)
    (sound' : Sound others state) (write : ι → Option α)
    (silent : ∀ id, state.entry id = .neutral → write id = none) :
    (ids.sort (· ≤ ·)).filterMap write = (others.sort (· ≤ ·)).filterMap write := by
  have wrote : ∀ ids : Finset ι, (ids.sort (· ≤ ·)).filterMap write =
      ((ids.sort (· ≤ ·)).filter fun id => (write id).isSome).filterMap write := by
    intro ids
    rw [filterMap_filter]
    congr 1
    funext id
    cases write id <;> rfl
  have sorted : ∀ ids : Finset ι, ((ids.sort (· ≤ ·)).filter
      fun id => (write id).isSome).Pairwise (· < ·) :=
    fun ids => (Finset.sortedLT_sort _).pairwise.filter _
  rw [wrote, wrote others]
  congr 1
  apply (sorted ids).eq_of_mem_iff (sorted others)
  intro id
  have held := sound.held id
  have held' := sound'.held id
  grind [Finset.mem_sort]

theorem Sound.packet (sound : Sound ids state) :
    ids.sort (· ≤ ·) ≠ [] ∧ 0 < state.nonzeroWatermarks ↔ 0 < state.nonzeroWatermarks := by
  refine and_iff_right_of_imp fun pos empty => ?_
  have noIds : ids = ∅ := Finset.card_eq_zero.mp (by rw [← Finset.length_sort (· ≤ ·), empty]; rfl)
  rw [sound.counted, noIds] at pos
  exact pos.false

theorem Sound.pending (sound : Sound ids state) :
    0 < state.nonzeroWatermarks ↔ ∃ id, (state.entry id).deleteWatermark ≠ 0 := by
  rw [← sound.facts, Int.natCast_pos, length_pos_iff_exists_mem]
  constructor
  · rintro ⟨fact, mem⟩
    obtain ⟨id, -, noted⟩ := mem_filterMap.mp mem
    exact ⟨id, fun zero => by simp [zero] at noted⟩
  · rintro ⟨id, above⟩
    have held : id ∈ ids := by
      by_contra gone
      exact above (congrArg IdEntry.deleteWatermark (sound.held id gone))
    exact ⟨_, mem_filterMap.mpr ⟨id, (Finset.mem_sort _).mpr held, if_neg above⟩⟩

/-- After every run, with messages that end and rollbacks, nested or not, the watermarks are
counted. So the assertion of a flush holds, and it makes a packet just when there is something to
delete. -/
theorem run_counted (ops : List (Op ι)) : (initial.run ops).nonzeroWatermarks =
      ∑ id ∈ (initial.run ops).ids, watermarked ((initial.run ops).entry id) ∧
    (∀ packet, (initial.run ops).flush.2 = some packet →
      (packet.facts.length : Int) = (initial.run ops).nonzeroWatermarks) ∧
    ((initial.run ops).flush.2 ≠ none ↔
      ∃ id, ((initial.run ops).entry id).deleteWatermark ≠ 0) := by
  have sound := Sound.run ops initial .initial
  have made : (initial.run ops).flush.2 = if 0 < (initial.run ops).nonzeroWatermarks then _ else _ :=
    if_congr sound.packet rfl rfl
  rw [made, ite_ne_right_iff, and_iff_left (Option.some_ne_none _)]
  refine ⟨sound.counted, fun packet found => ?_, sound.pending⟩
  split_ifs at found
  cases found
  exact sound.facts

theorem Sound.flush {one other : Handler ι} (sound : Sound one.ids one.toState)
    (sound' : Sound other.ids other.toState) (same : one.toState = other.toState) :
    one.flush = other.flush := by
  unfold Handler.flush
  simp only [sound.packet, sound'.packet]
  rw [← same] at sound' ⊢
  rw [sound.terms sound' _ fun id neutral => by simp [neutral, IdEntry.neutral],
    sound.terms sound' _ fun id neutral => by simp [neutral, IdEntry.neutral]]

theorem Handler.run_state (ops : List (Op ι)) (handler : Handler ι) :
    (handler.run ops).toState = handler.toState.run ops :=
  (foldl_hom toState fun _ _ => rfl).symm

/-- A rollback restores what was there at its mark, whatever was done and rolled back since. The ids
it leaves behind are as if they were not there, for whatever comes later. -/
theorem rollbackTo_exact (before ops later : List (Op ι)) (handler : Handler ι)
    (reached : handler = initial.run before) (kept : .clearUndoLog ∉ ops)
    (nested : ∀ mark, .rollbackTo mark ∈ ops → handler.undoMark.Within mark) :
    handler.undoMark.Within (handler.run ops).undoMark ∧
      ((handler.run ops).act (.rollbackTo handler.undoMark)).toState =
        { handler.toState with births := (handler.run ops).births } ∧
      (∀ id, id ∉ handler.ids → handler.entry id = .neutral) ∧
      (((handler.run ops).act (.rollbackTo handler.undoMark)).run later).toState =
        ({ handler with births := (handler.run ops).births }.run later).toState ∧
      (((handler.run ops).act (.rollbackTo handler.undoMark)).run later).flush =
        ({ handler with births := (handler.run ops).births }.run later).flush := by
  have since := Since.run ops kept nested
  have sound : Sound handler.ids handler.toState := reached ▸ Sound.run before _ .initial
  rw [← run_state] at since
  have restored := since.restored
  have further : (((handler.run ops).act (.rollbackTo handler.undoMark)).run later).toState =
      ({ handler with births := (handler.run ops).births }.run later).toState := by
    rw [run_state, run_state]
    exact congrArg (State.run · later) restored
  obtain ⟨recent, log, -⟩ := since.log
  refine ⟨⟨?_, since.deleted.length_le⟩, restored, sound.held, further, ?_⟩
  · simp [undoMark, log]
  · exact (Sound.run later _ ((Sound.run ops _ sound).act _)).flush
      (Sound.run later _ { sound with }) further

/-- In a later message a newer delete takes a document, another delete is undone alone, and then
all is. -/
theorem rollbackTo_exact_twice :
    ((initial.run [.startDoc 3, .index 0 true 3, .clearUndoLog, .addDelete 0 5, .addDelete 1 7,
      .rollbackTo ⟨1, 1⟩]).act (.rollbackTo ⟨0, 0⟩)).entry 0 = ⟨some 0, 3⟩ := by
  have restored := (rollbackTo_exact [.startDoc 3, .index 0 true 3, .clearUndoLog]
    [.addDelete 0 5, .addDelete 1 7, .rollbackTo ⟨1, 1⟩] [] _ rfl (by decide) fun mark taken => by
      simp only [mem_cons, reduceCtorEq, Op.rollbackTo.injEq, not_mem_nil, or_false,
        false_or] at taken
      subst taken
      exact ⟨by decide, by decide⟩).2.1
  exact (congrFun (congrArg State.entry restored) (0 : Nat)).trans (by decide)

end Luxir.Index.IdHandler
