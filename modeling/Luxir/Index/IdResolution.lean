import Luxir.Index.IdRollback

/-!
Which documents of an inverter live. Of the documents of an id, the one of the greatest version
lives, the last of them if there are several, unless a delete or a document that overwrites is
newer.
-/

namespace Luxir.Index.IdHandler
open State Handler

inductive Update (ι : Type) where
  | add (id : ι) (overwrite : Bool) (version : Nat)
  | delete (id : ι) (version : Nat)
deriving DecidableEq

namespace Update
variable {ι : Type} {version : Nat}

def ops : Update ι → List (Op ι)
  | add id overwrite version => [.startDoc version, .index id overwrite version]
  | delete id version => [.addDelete id version]

def document : Update ι → Option (ι × Nat)
  | add id _ version => some (id, version)
  | delete _ _ => none

def deletes : Update ι → Option (ι × Nat)
  | add id overwrite version => if overwrite then some (id, version) else none
  | delete id version => some (id, version)

end Update

variable {ι : Type} [LinearOrder ι] {state : State ι} {docs : List (ι × Nat)} {marks : ι → Nat}

def documents (updates : List (Update ι)) : List (ι × Nat) := updates.filterMap Update.document

def raise (marks : ι → Nat) (fact : ι × Nat) : ι → Nat :=
  Function.update marks fact.1 (max (marks fact.1) fact.2)

def watermarks (updates : List (Update ι)) : ι → Nat :=
  (updates.filterMap Update.deletes).foldl raise fun _ => 0

/-- No delete is newer than the document, and no other document of its id wins over it. -/
structure Survives (docs : List (ι × Nat)) (mark : Nat) (id : ι) (docId version : Nat) : Prop where
  document : docs[docId]? = some (id, version)
  undeleted : mark ≤ version
  greatest : ∀ rival born : Nat, docs[rival]? = some (id, born) →
    born < version ∨ born = version ∧ rival ≤ docId

structure Settled (docs : List (ι × Nat)) (mark : Nat) (id : ι) (state : State ι) : Prop where
  watermark : (state.entry id).deleteWatermark = mark
  occupied : ∀ docId, (state.entry id).docId = some docId →
    Survives docs mark id docId (state.birth docId)
  vacant : (state.entry id).docId = none → ∀ docId version : Nat,
    docs[docId]? = some (id, version) → version < mark
  deleted : ∀ docId version : Nat, docs[docId]? = some (id, version) →
    (docId ∈ state.deleted ↔ (state.entry id).docId ≠ some docId)

structure Resolved (docs : List (ι × Nat)) (marks : ι → Nat) (state : State ι) : Prop where
  settled : ∀ id, Settled docs (marks id) id state
  births : ∀ (docId : Nat) id version, docs[docId]? = some (id, version) →
    state.birth docId = version
  deleted : ∀ docId ∈ state.deleted, docId < docs.length

structure Handled (docs : List (ι × Nat)) (mark : Nat) (id : ι) (state after : State ι) : Prop where
  settled : Settled docs mark id after
  births : after.births = state.births
  deleted : ∀ docId ∈ after.deleted, docId ∈ state.deleted ∨
    ∃ version, docs[docId]? = some (id, version)

namespace Resolved
variable (resolved : Resolved docs marks state)
include resolved

theorem raiseWatermark (id : ι) (version : Nat) :
    Handled docs (max (marks id) version) id state (state.raiseWatermark id version) := by
  obtain ⟨watermark, occupied, vacant, deleted⟩ := resolved.settled id
  unfold State.raiseWatermark
  split
  case isTrue below =>
    rw [max_eq_left (watermark ▸ below)]
    exact ⟨resolved.settled id, rfl, fun _ => .inl⟩
  case isFalse above =>
    rw [max_eq_right (by omega)]
    simp only [resolveOccupant, setWatermark, setEntry, deleteDoc, birth, Function.update_self]
    split
    case h_1 empty => exact ⟨by constructor <;> grind, rfl, fun _ => .inl⟩
    case h_2 docId occupant =>
      split
      · exact ⟨by constructor <;> grind [Survives, birth], rfl, by grind [Survives]⟩
      · exact ⟨by constructor <;> grind [Survives, birth], rfl, fun _ => .inl⟩

theorem occupy (id : ι) (now : state.getDoc = docs.length)
    (born : state.birth docs.length = version) :
    Handled (docs ++ [(id, version)]) (marks id) id state (state.occupy id version) := by
  obtain ⟨watermark, occupied, vacant, deleted⟩ := resolved.settled id
  have fresh : docs.length ∉ state.deleted := fun mem => (resolved.deleted _ mem).false
  have placed := List.getElem?_concat_length (l := docs) (a := (id, version))
  unfold State.occupy setEntry deleteDoc
  rw [now]
  split
  · exact ⟨by constructor <;> grind [Survives, birth], rfl, by grind⟩
  split
  case h_1 empty => exact ⟨by constructor <;> grind [Survives, birth], rfl, fun _ => .inl⟩
  case h_2 other occupant =>
    split_ifs
    · grind [Survives]
    · exact ⟨by constructor <;> grind [Survives, birth], rfl, by grind⟩
    · exact ⟨by constructor <;> grind [Survives, birth], rfl, by grind [Survives]⟩

theorem handled {docs' : List (ι × Nat)} {marks' : ι → Nat} (id : ι)
    (handled : Handled docs' (marks' id) id state after) (touched : Touched id state after)
    (others : ∀ key, key ≠ id → marks' key = marks key ∧ ∀ docId version : Nat,
      docs'[docId]? = some (key, version) ↔ docs[docId]? = some (key, version))
    (births : ∀ (docId : Nat) key version, docs'[docId]? = some (key, version) →
      state.birth docId = version) (longer : docs.length ≤ docs'.length) :
    Resolved docs' marks' after := by
  obtain ⟨settled, same, gone⟩ := handled
  have birth : ∀ docId, after.birth docId = state.birth docId := fun docId => by
    rw [State.birth, same, State.birth]
  refine ⟨fun key => ?_, fun docId => birth docId ▸ births docId, ?_⟩
  · by_cases this : key = id
    · exact this ▸ settled
    obtain ⟨watermark, occupied, vacant, deleted⟩ := resolved.settled key
    obtain ⟨mark, document⟩ := others key this
    have kept := touched.deleted.subset
    rw [mark]
    constructor <;> rw [touched.entry key this] <;> grind [Survives]
  · have deleted := resolved.deleted
    grind

omit [LinearOrder ι] in
theorem aside (entry : after.entry = state.entry) (deleted : after.deleted = state.deleted)
    (births : ∀ docId < docs.length, after.birth docId = state.birth docId) :
    Resolved docs marks after where
  settled id := by
    obtain ⟨watermark, occupied, vacant, dead⟩ := resolved.settled id
    constructor <;> simp only [entry, deleted] <;> grind [Survives]
  births := by
    have born := resolved.births
    grind
  deleted := deleted ▸ resolved.deleted

theorem raised (id : ι) (version : Nat) :
    Resolved docs (raise marks (id, version)) (state.raiseWatermark id version) :=
  resolved.handled id
    (by simpa [raise] using resolved.raiseWatermark id version) (.raiseWatermark version)
    (fun key ne => ⟨by simp [raise, ne], fun _ _ => Iff.rfl⟩) resolved.births le_rfl

theorem placed (id : ι) (births : state.births = docs.map (·.2) ++ [version]) :
    Resolved (docs ++ [(id, version)]) marks (state.occupy id version) ∧
      (state.occupy id version).births = (docs ++ [(id, version)]).map (·.2) := by
  have born : ∀ (docId : Nat) key version', (docs ++ [(id, version)])[docId]? = some (key, version') →
      state.birth docId = version' := by
    simp only [State.birth, births]
    grind
  have handled := resolved.occupy id (by simp [State.getDoc, births]) (born _ id version (by simp))
  exact ⟨resolved.handled id handled (.occupy version) (fun key ne => ⟨rfl, by grind⟩)
    born (by simp), handled.births.trans (by simp [births])⟩

omit [LinearOrder ι] in
theorem found (id : ι) : Resolved docs marks (state.entryFor id) :=
  resolved.aside rfl rfl fun _ _ => rfl

omit [LinearOrder ι] in
theorem started (version : Nat) (births : state.births = docs.map (·.2)) :
    Resolved docs marks (state.startDoc version) :=
  resolved.aside rfl rfl fun docId below => by
    simp only [State.birth, State.startDoc, births]
    grind

end Resolved

theorem Resolved.run (updates : List (Update ι)) : Resolved (documents updates) (watermarks updates)
      (initial.run (updates.flatMap Update.ops)).toState ∧
    (initial.run (updates.flatMap Update.ops)).births = (documents updates).map (·.2) := by
  induction updates using List.reverseRecOn with
  | nil =>
      have settled : ∀ id : ι, Settled [] 0 id initial.toState :=
        fun id => ⟨rfl, nofun, by simp, by simp⟩
      exact ⟨⟨settled, by simp [documents], nofun⟩, rfl⟩
  | append_singleton updates update continued =>
      obtain ⟨resolved, births⟩ := continued
      unfold Handler.run documents watermarks at *
      simp only [List.flatMap_append, List.foldl_append, List.filterMap_append,
        List.flatMap_singleton]
      cases update with
      | delete id version =>
          rw [show [Update.delete id version].filterMap Update.document = [] from rfl,
            List.append_nil]
          have found := resolved.found id
          exact ⟨found.raised id version, (found.raiseWatermark id version).births.trans births⟩
      | add id overwrite version =>
          have found := (resolved.started version births).found id
          have now := congrArg (· ++ [version]) births
          cases overwrite with
          | false => exact found.placed id now
          | true =>
              have raised := found.raiseWatermark id version
              exact (found.raised id version).placed id (raised.births.trans now)

omit [LinearOrder ι] in
theorem Settled.docId_iff {mark : Nat} {id : ι} (settled : Settled docs mark id state)
    (docId : Nat) : (state.entry id).docId = some docId ↔
      ∃ version, Survives docs mark id docId version := by
  obtain ⟨watermark, occupied, vacant, deleted⟩ := settled
  cases occupant : (state.entry id).docId with
  | none => grind [Survives]
  | some other => 
      have survives := occupied other occupant
      refine ⟨fun same => ⟨_, occupied docId (occupant.trans same)⟩, fun ⟨version, wins⟩ => ?_⟩
      have one := wins.greatest _ _ survives.document
      have two := survives.greatest _ _ wins.document
      exact congrArg some (by omega)

/-- The documents that live, and the packet of the deletes for other segments. -/
theorem updates_resolved (updates : List (Update ι)) :
    (∀ docId id version, (documents updates)[docId]? = some (id, version) →
      (docId ∉ (initial.run (updates.flatMap Update.ops)).deleted ↔
        Survives (documents updates) (watermarks updates id) id docId version)) ∧
    (∀ id docId, (id, docId) ∈ (initial.run (updates.flatMap Update.ops)).flush.1 ↔
      ∃ version, Survives (documents updates) (watermarks updates id) id docId version) ∧
    ((initial.run (updates.flatMap Update.ops)).flush.2 = none ↔ ∀ id, watermarks updates id = 0) ∧
    ∀ packet, (initial.run (updates.flatMap Update.ops)).flush.2 = some packet →
      packet.facts.Pairwise (·.1 < ·.1) ∧ ∀ id version, (id, version) ∈ packet.facts ↔
        version ≠ 0 ∧ version = watermarks updates id := by
  obtain ⟨⟨settled, births, -⟩, -⟩ := Resolved.run updates
  have sound := Sound.run (updates.flatMap Update.ops) initial .initial
  generalize initial.run (updates.flatMap Update.ops) = handler at *
  have positive : 0 < handler.nonzeroWatermarks ↔ ∃ id, watermarks updates id ≠ 0 := by
    have held := sound.held
    have watermark := fun id => (settled id).watermark
    rw [sound.counted, Finset.sum_pos_iff_of_nonneg (by grind [watermarked])]
    grind [watermarked, IdEntry.neutral]
  refine ⟨fun docId id version document => ?_, fun id docId => ?_, ?_, ?_⟩
  · rw [(settled id).deleted _ _ document, not_not, (settled id).docId_iff]
    grind [Survives]
  · rw [← (settled id).docId_iff]
    have held := sound.held id
    simp only [flush, List.mem_filterMap, Finset.mem_sort, Option.map_eq_some_iff]
    grind [IdEntry.neutral]
  all_goals simp only [flush, sound.packet]
  · simp [positive]
  rintro packet flushed
  split at flushed <;> cases flushed
  refine ⟨?_, fun id version => ?_⟩
  · apply List.Pairwise.filterMap _ _ (Finset.sortedLT_sort _).pairwise
    grind
  · have held := sound.held id
    have watermark := (settled id).watermark
    simp only [List.mem_filterMap, Finset.mem_sort]
    grind [IdEntry.neutral]

end Luxir.Index.IdHandler
