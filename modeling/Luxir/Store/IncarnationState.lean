import Luxir.Lib.CasFile
import Mathlib.Algebra.Order.Ring.Nat

/-!
The STATE file of an index incarnation. It holds a revision, the epoch and owner of the
writer that last claimed it, and the name of the published tip. A writer claims an epoch
once and then advances the tip; a follower installs tips under whatever epoch is there.
Every program below follows its source function access by access.
-/

namespace Luxir.Store

structure IncarnationState.Value where
  rev : Nat
  epoch : Nat
  owner : String
  tip : String
deriving DecidableEq, Repr

structure IncarnationState where
  value : IncarnationState.Value
  version : Nat
deriving DecidableEq, Repr

namespace IncarnationState
open Lib.CasFile

inductive Error where
  | writerSuperseded
  | invalidState
  | counterExhausted
  | publicationConflict
  | directory (message : String)
deriving DecidableEq, Repr

/-- The JSON library, which is not part of the repository. -/
structure Json (β : Type) where
  writeJson : Value → β
  readJson : β → Option Value
  read_write : ∀ value, readJson (writeJson value) = some value

section
variable {β : Type} [DecidableEq β] (json : Json β)

def durable : Prog β Error Unit := .sync Prog.rethrow

/-- After an exception the file is read back, since the publication may have taken place. -/
def write (value : Value) (condition : Condition) : Prog β Error (Option IncarnationState) :=
  .publishFile (json.writeJson value) condition fun
    | .ok (some version) => .done (some ⟨value, version⟩)
    | .ok none => .done none
    | .error failure => .readPublished fun
        | .error error => .fail error
        | .ok none => .fail failure
        | .ok (some observed) =>
            if observed.bytes = json.writeJson value then do
              durable
              return some ⟨value, observed.version⟩
            else .fail failure

def increment (value : Nat) : Prog β Error Nat :=
  if value = 2 ^ 64 - 1 then .fail .counterExhausted else .done (value + 1)

def read : Prog β Error (Option IncarnationState) :=
  .readPublished fun
    | .error error => .fail error
    | .ok none => .done none
    | .ok (some publication) =>
        match json.readJson publication.bytes with
        | none => .fail .invalidState
        | some value =>
            if value.rev = 0 ∨ value.owner = "" then .fail .invalidState
            else .done (some ⟨value, publication.version⟩)

def claim (owner : String) : Prog β Error IncarnationState := do
  match ← read json with
  | none => .fail .writerSuperseded
  | some before =>
      let rev ← increment before.value.rev
      let epoch ← increment before.value.epoch
      match ← write json { before.value with rev, epoch, owner } (.matching before.version) with
      | some applied => return applied
      | none => .again

/-- The second half of `advance`: the publication was refused, or threw `failure`. A takeover may
retain the tip, which proves the commit, but the writer then keeps its old ownership. -/
def confirm (this : IncarnationState) (tip : String) (failure : Option Error) :
    Prog β Error IncarnationState := do
  match ← read json with
  | none => .fail .writerSuperseded
  | some observed =>
      if observed.value.tip = tip then do
        durable
        if observed.value.epoch = this.value.epoch ∧ observed.value.owner = this.value.owner then
          return observed
        else return this
      else if observed.value.epoch ≠ this.value.epoch ∨ observed.value.owner ≠ this.value.owner then
        .fail .writerSuperseded
      else match failure with
        | some failure => .fail failure
        | none => .fail .publicationConflict

/-- Returns the writer's state afterwards. -/
def advance (this : IncarnationState) (tip : String) : Prog β Error IncarnationState := do
  let rev ← increment this.value.rev
  match ← (write json { this.value with rev, tip } (.matching this.version)).attempt with
  | .ok (some applied) => return applied
  | .ok none => confirm json this tip none
  | .error failure => confirm json this tip (some failure)

def create (owner : String) : Prog β Error Unit := do
  match ← write json ⟨1, 0, owner, ""⟩ .createOnly with
  | some _ => return
  | none =>
      match ← read json with
      | none => .fail .writerSuperseded
      | some _ => durable

def install (tip : String) : Prog β Error Unit := do
  match ← read json with
  | none => .fail .writerSuperseded
  | some before =>
      if before.value.tip = tip then durable
      else
        let rev ← increment before.value.rev
        match ← write json { before.value with rev, tip } (.matching before.version) with
        | some _ => return
        | none => .again

end

/-- A create or a claim draws a fresh owner before it touches the file. -/
inductive Call where
  | create (owner : String)
  | claim (owner : String)
  | advance (tip : String)
  | install (tip : String)
deriving DecidableEq, Repr

def Call.owner? : Call → Option String
  | .create owner => some owner
  | .claim owner => some owner
  | .advance _ => none
  | .install _ => none

variable {β : Type} [DecidableEq β] (json : Json β)

abbrev StateEvent (β : Type) := Event β Error Call (Option IncarnationState)
abbrev StateLog (β : Type) := Log β Error Call (Option IncarnationState)

def program (own : Option IncarnationState) : Call → Prog β Error (Option IncarnationState)
  | .create owner => do create json owner; return own
  | .claim owner => do let claimed ← claim json owner; return some claimed
  | .advance tip =>
      match own with
      | none => .fail .writerSuperseded
      | some this => do let this ← advance json this tip; return some this
  | .install tip => do install json tip; return own

def drew (owner : String) : StateEvent β → Bool
  | .started _ call => call.owner? = some owner
  | _ => false

/-- An owner is a UUID, never drawn twice, and only a writer that claimed can advance. -/
def admits (log : StateLog β) (own : Option IncarnationState) : Call → Bool
  | .create owner => owner ≠ "" ∧ ¬log.any (drew owner)
  | .claim owner => owner ≠ "" ∧ ¬log.any (drew owner)
  | .advance _ => own.isSome
  | .install _ => true

def system : System β Error Call (Option IncarnationState) where
  program := program json
  admits := admits
  initial := none

end IncarnationState

end Luxir.Store
