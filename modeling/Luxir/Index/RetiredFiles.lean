import Luxir.Index.SegmentIds

/-!
Files that may be retired. A name that waits for its retirement or was handed over is one that no
part of the writer refers to any more and that no later step brings back: ids, generations and
versions are given out once.
-/

namespace Luxir.Index.SegmentWriter
open State

variable {state next : State}

def State.captured (state : State) : List Nat :=
  match state.application with
  | some app => app.segs
  | none => []

variable {segId : Nat}

theorem State.mem_captured : segId ∈ state.captured ↔
    ∃ app, state.application = some app ∧ segId ∈ app.segs := by
  unfold State.captured
  cases state.application <;> simp

/-- An id that was given out, and that nothing has or will have again. -/
structure Dead (state : State) (segId : Nat) : Prop where
  issued : segId ≤ state.lastSegId
  unused : segId ∉ state.used

/-- A file that nothing refers to. The overlays of a segment go with the first commit that leaves it
out: it has no documents, or a merge has replaced it. -/
def Gone (state : State) : File → Prop
  | .data segId _ => Dead state segId
  | .live segId gen => Dead state segId ∨ ∃ seg ∈ state.segments, seg.segId = segId ∧
      gen < seg.liveGen ∧ keepsGen seg gen = false
  | .overlay segId gen => .overlay segId gen ∉ filesOf state.lastSnapshot ∧
      (Dead state segId ∨ ∃ seg ∈ state.segments, seg.segId = segId ∧ gen < seg.nextOverlayGen ∧
        (seg.liveDocs = 0 ∨ seg.condemned = true ∧ segId ∉ state.captured))
  | .schema version => version ≤ state.nextSchemaVersion ∧ version ≠ state.lastSnapshot.schema
  | .manifest gen => gen ≤ state.nextManifestGen ∧ gen ≠ state.lastSnapshot.indexGen

/-- What every change of a segment respects. -/
structure Evolves (before after : SegInfo) : Prop where
  segId : after.segId = before.segId
  liveGen : before.liveGen ≤ after.liveGen
  released : ∀ gen, gen < before.liveGen → keepsGen before gen = false → keepsGen after gen = false
  nextOverlayGen : before.nextOverlayGen ≤ after.nextOverlayGen
  liveDocs : before.liveDocs = 0 → after.liveDocs = 0
  condemned : before.condemned = true → after.condemned = true

theorem Evolves.refl (seg : SegInfo) : Evolves seg seg :=
  ⟨rfl, le_rfl, fun _ _ free => free, le_rfl, fun empty => empty, fun gone => gone⟩

/-- A step that brings no name back. -/
structure Later (state next : State) : Prop where
  dead : ∀ segId, Dead state segId → Dead next segId
  segments : ∀ seg ∈ state.segments, Dead next seg.segId ∨ ∃ after ∈ next.segments,
    Evolves seg after
  captured : ∀ seg ∈ state.segments, seg.condemned = true → seg.segId ∈ next.captured →
    seg.segId ∈ state.captured
  overlays : ∀ segId gen, Gone state (.overlay segId gen) →
    .overlay segId gen ∉ filesOf next.lastSnapshot
  schemas : state.nextSchemaVersion ≤ next.nextSchemaVersion
  schema : next.lastSnapshot.schema = state.lastSnapshot.schema ∨
    state.nextSchemaVersion < next.lastSnapshot.schema
  manifests : state.nextManifestGen ≤ next.nextManifestGen
  manifest : next.lastSnapshot.indexGen = state.lastSnapshot.indexGen ∨
    state.nextManifestGen < next.lastSnapshot.indexGen

theorem Gone.later {file : File} (gone : Gone state file) (later : Later state next) :
    Gone next file := by
  cases file with
  | data segId => exact later.dead segId gone
  | live segId gen =>
    rcases gone with dead | ⟨seg, mem, rfl, old, free⟩
    · exact .inl (later.dead segId dead)
    · rcases later.segments seg mem with dead | ⟨after, here, evolves⟩
      · exact .inl dead
      · exact .inr ⟨after, here, evolves.segId, old.trans_le evolves.liveGen,
          evolves.released gen old free⟩
  | overlay segId gen =>
    refine ⟨later.overlays segId gen gone, ?_⟩
    rcases gone.2 with dead | ⟨seg, mem, rfl, old, unused⟩
    · exact .inl (later.dead segId dead)
    rcases later.segments seg mem with dead | ⟨after, here, evolves⟩
    · exact .inl dead
    refine .inr ⟨after, here, evolves.segId, old.trans_le evolves.nextOverlayGen, ?_⟩
    rcases unused with empty | ⟨condemned, free⟩
    · exact .inl (evolves.liveDocs empty)
    · exact .inr ⟨evolves.condemned condemned,
        fun pinned => free (later.captured seg mem condemned pinned)⟩
  | schema =>
    obtain ⟨known, old⟩ := gone
    refine ⟨known.trans later.schemas, ?_⟩
    rcases later.schema with same | new
    · rw [same]
      exact old
    · exact (known.trans_lt new).ne
  | manifest =>
    obtain ⟨known, old⟩ := gone
    refine ⟨known.trans later.manifests, ?_⟩
    rcases later.manifest with same | new
    · rw [same]
      exact old
    · exact (known.trans_lt new).ne

/-- Ids move from inverters and merges to segments, and new ones are above the old. -/
theorem Dead.later (dead : Dead state segId) (issued : state.lastSegId ≤ next.lastSegId)
    (used : ∀ id ∈ next.used, id ∈ state.used ∨ state.lastSegId < id) : Dead next segId where
  issued := dead.issued.trans issued
  unused := by
    intro mem
    rcases used segId mem with old | new
    · exact dead.unused old
    · exact absurd dead.issued (Nat.not_le.mpr new)

theorem Dead.not_owned (dead : Dead state segId) : segId ∉ state.ids :=
  fun owned => dead.unused (List.mem_append_left _ owned)

theorem Later.unpublished (dead : ∀ segId, Dead state segId → Dead next segId)
    (segments : ∀ seg ∈ state.segments, Dead next seg.segId ∨ ∃ after ∈ next.segments,
      Evolves seg after)
    (captured : ∀ seg ∈ state.segments, seg.condemned = true → seg.segId ∈ next.captured →
      seg.segId ∈ state.captured) (snap : next.lastSnapshot = state.lastSnapshot)
    (schemas : next.nextSchemaVersion = state.nextSchemaVersion)
    (manifests : next.nextManifestGen = state.nextManifestGen) : Later state next where
  dead := dead
  segments := segments
  captured := captured
  overlays := by
    intro segId gen gone
    rw [snap]
    exact gone.1
  schemas := schemas.ge
  schema := .inl (congrArg Snapshot.schema snap)
  manifests := manifests.ge
  manifest := .inl (congrArg Snapshot.indexGen snap)

structure Listed (info : SegmentInfo) : Prop where
  files : ∀ file ∈ info.files, (∃ part, file = .data info.segId part) ∨
    file = .live info.segId info.liveGen
  overlays : ∀ gen ∈ info.overlays, gen < info.nextOverlayGen

theorem segmentFiles_listed (segId liveGen parts : Nat) :
    ∀ file ∈ segmentFiles segId liveGen parts, (∃ part, file = .data segId part) ∨
      file = .live segId liveGen := by
  intro file mem
  rcases List.mem_append.mp mem with data | live
  · obtain ⟨part, -, rfl⟩ := List.mem_map.mp data
    exact .inl ⟨part, rfl⟩
  · split at live
    · exact .inr (List.mem_singleton.mp live)
    · exact absurd live List.not_mem_nil

end Luxir.Index.SegmentWriter
