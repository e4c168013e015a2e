import Mathlib.Data.Finset.Sort

/-!
The ids of the documents in an inverter. An id has at most one local document, and a watermark:
the version below which its documents are deleted, here and, by the packet of a flush, elsewhere.
Requests come in any order of versions. Every change of an entry can be undone from a log.
-/

namespace Luxir.Index.IdHandler

structure IdEntry where
  docId : Option Nat
  deleteWatermark : Nat
deriving DecidableEq, Repr

def IdEntry.neutral : IdEntry := ⟨none, 0⟩

structure UndoMark where
  idUndoSize : Nat
  numDeleted : Nat
deriving DecidableEq, Repr

structure SortedDeletes (ι : Type) where
  facts : List (ι × Nat)
  minVersion : Nat
  maxVersion : Nat

@[ext] structure State (ι : Type) where
  /-- What the map has for an id; a new id gets a neutral entry. -/
  entry : ι → IdEntry
  nonzeroWatermarks : Int
  /-- The entries before each access, the last one first. -/
  undoLog : List (ι × IdEntry)
  deleted : List Nat
  /-- The versions of the documents' requests. -/
  births : List Nat

namespace State
variable {ι : Type} [LinearOrder ι]

def setEntry (state : State ι) (id : ι) (value : IdEntry) : State ι :=
  { state with entry := Function.update state.entry id value }

def birth (state : State ι) (docId : Nat) : Nat := state.births.getD docId 0

def deleteDoc (state : State ι) (docId : Nat) : State ι :=
  { state with deleted := state.deleted ++ [docId] }

def entryFor (state : State ι) (id : ι) : State ι :=
  { state with undoLog := (id, state.entry id) :: state.undoLog }

def resolveOccupant (state : State ι) (id : ι) : State ι :=
  match (state.entry id).docId with
  | none => state
  | some docId =>
      if state.birth docId < (state.entry id).deleteWatermark then
        (state.deleteDoc docId).setEntry id ⟨none, (state.entry id).deleteWatermark⟩
      else state

def setWatermark (state : State ι) (id : ι) (version : Nat) : State ι :=
  { state.setEntry id ⟨(state.entry id).docId, version⟩ with
    nonzeroWatermarks := if (state.entry id).deleteWatermark = 0
      then state.nonzeroWatermarks + 1 else state.nonzeroWatermarks }

/-- A version above the watermark raises it, and deletes an older local document. -/
def raiseWatermark (state : State ι) (id : ι) (version : Nat) : State ι :=
  if version ≤ (state.entry id).deleteWatermark then state
  else (state.setWatermark id version).resolveOccupant id

def addDelete (state : State ι) (id : ι) (version : Nat) : State ι :=
  (state.entryFor id).raiseWatermark id version

def startDoc (state : State ι) (version : Nat) : State ι :=
  { state with births := state.births ++ [version] }

def getDoc (state : State ι) : Nat := state.births.length - 1

/-- The current document takes its id, unless a newer document or delete has it. -/
def occupy (state : State ι) (id : ι) (version : Nat) : State ι :=
  if version < (state.entry id).deleteWatermark then state.deleteDoc state.getDoc
  else
    match (state.entry id).docId with
    | none => state.setEntry id ⟨some state.getDoc, (state.entry id).deleteWatermark⟩
    | some other =>
        if other = state.getDoc then state
        else if version < state.birth other then state.deleteDoc state.getDoc
        else (state.deleteDoc other).setEntry id
          ⟨some state.getDoc, (state.entry id).deleteWatermark⟩

def indexId (state : State ι) (id : ι) (overwrite : Bool) (version : Nat) : State ι :=
  let found := state.entryFor id
  (if overwrite then found.raiseWatermark id version else found).occupy id version

/-- Done when the update message that held the inverter releases it: no mark outlives it. -/
def clearUndoLog (state : State ι) : State ι := { state with undoLog := [] }

def undoMark (state : State ι) : UndoMark := ⟨state.undoLog.length, state.deleted.length⟩

def watermarked (entry : IdEntry) : Int := if entry.deleteWatermark ≠ 0 then 1 else 0

def undo (state : State ι) (noted : ι × IdEntry) : State ι :=
  { state.setEntry noted.1 noted.2 with
    nonzeroWatermarks := state.nonzeroWatermarks - watermarked (state.entry noted.1) +
      watermarked noted.2
    undoLog := state.undoLog.tail }

def rollbackTo (state : State ι) (mark : UndoMark) : State ι :=
  let undone := (state.undoLog.take (state.undoLog.length - mark.idUndoSize)).foldl undo state
  { undone with deleted := undone.deleted.take mark.numDeleted }

end State

inductive Op (ι : Type) where
  | startDoc (version : Nat)
  | index (id : ι) (overwrite : Bool) (version : Nat)
  | addDelete (id : ι) (version : Nat)
  | deleteDoc (docId : Nat)
  | rollbackTo (mark : UndoMark)
  | clearUndoLog
deriving DecidableEq

variable {ι : Type} [LinearOrder ι]

def State.act (state : State ι) : Op ι → State ι
  | .startDoc version => state.startDoc version
  | .index id overwrite version => state.indexId id overwrite version
  | .addDelete id version => state.addDelete id version
  | .deleteDoc docId => state.deleteDoc docId
  | .rollbackTo mark => state.rollbackTo mark
  | .clearUndoLog => state.clearUndoLog

def State.run (state : State ι) (ops : List (Op ι)) : State ι := ops.foldl State.act state

def Op.ids : Op ι → Finset ι
  | index id _ _ => {id}
  | addDelete id _ => {id}
  | _ => ∅

/-- The handler with the ids of its map. None is taken out, by a rollback neither. -/
structure Handler (ι : Type) extends State ι where
  ids : Finset ι

namespace Handler

def initial : Handler ι := ⟨⟨fun _ => .neutral, 0, [], [], []⟩, ∅⟩

def act (handler : Handler ι) (op : Op ι) : Handler ι :=
  { toState := handler.toState.act op, ids := handler.ids ∪ op.ids }

def run (handler : Handler ι) (ops : List (Op ι)) : Handler ι := ops.foldl act handler

/-- The ids in order, with the local documents for the dictionary, and the packet if there is a
watermark. -/
def flush (handler : Handler ι) : List (ι × Nat) × Option (SortedDeletes ι) :=
  let terms := handler.ids.sort (· ≤ ·)
  let facts := terms.filterMap fun id =>
    if (handler.entry id).deleteWatermark = 0 then none
    else some (id, (handler.entry id).deleteWatermark)
  (terms.filterMap fun id => (handler.entry id).docId.map fun docId => (id, docId),
    if terms ≠ [] ∧ 0 < handler.nonzeroWatermarks then
      some ⟨facts, facts.foldl (fun least fact => min least fact.2) (2 ^ 64 - 1),
        facts.foldl (fun greatest fact => max greatest fact.2) 0⟩
    else none)

end Handler

end Luxir.Index.IdHandler
