import Mathlib.Data.Fintype.Basic

/-!
The merge of the segments' data. Any number of calls accumulate into data that they obtain from one
slot and release to it again; a call steps at every exchange of the slot. In ordered mode every call
has data of its own, and the data is merged under a lock in the order of the segments.
-/

namespace Luxir.Util.SegmentMergeDriver

/-- Data with the number of times it was released. -/
structure Mergeable (α : Type) where
  value : α
  releaseCount : Nat
deriving DecidableEq, Repr

structure Driver (α : Type) where
  numSegs : Nat
  creator : α
  merge : α → α → α
  accumulate : Fin numSegs → α → α

variable {α : Type}

def Driver.fresh (driver : Driver α) : Mergeable α := ⟨driver.creator, 0⟩

def Driver.contribution (driver : Driver α) (call : Fin driver.numSegs) : α :=
  driver.accumulate call driver.creator

def Driver.mergeData (driver : Driver α) (first second : Mergeable α) : Mergeable α :=
  ⟨driver.merge first.value second.value, first.releaseCount + second.releaseCount⟩

inductive Phase (α : Type) where
  | waiting
  | accumulating (data : Mergeable α)
  /-- Before the data is put into the slot. -/
  | releasing (data : Mergeable α)
  /-- Before the slot is emptied, to merge what is there with the data that was there before. -/
  | taking (data : Mergeable α)
  | completing
  | finished

structure State (driver : Driver α) where
  slot : Option (Mergeable α)
  phase : Fin driver.numSegs → Phase α
  /-- What `onComplete` was given. -/
  completed : List α

namespace State
variable {driver : Driver α}

def initial (driver : Driver α) : State driver := ⟨none, fun _ => .waiting, []⟩

def moved (state : State driver) (call : Fin driver.numSegs) (slot : Option (Mergeable α))
    (phase : Phase α) : State driver :=
  { state with slot := slot, phase := Function.update state.phase call phase }

/-- One step of a call, up to its next exchange. -/
def act (state : State driver) (call : Fin driver.numSegs) : Option (State driver) :=
  match state.phase call with
  | .waiting => some (state.moved call none (.accumulating (state.slot.getD driver.fresh)))
  | .accumulating data =>
      some (state.moved call state.slot
        (.releasing ⟨driver.accumulate call data.value, data.releaseCount + 1⟩))
  | .releasing data =>
      match state.slot with
      | none =>
          some (state.moved call (some data)
            (if data.releaseCount = driver.numSegs then .completing else .finished))
      | some other => some (state.moved call (some data) (.taking other))
  | .taking data =>
      match state.slot with
      | none => some (state.moved call none (.releasing data))
      | some other => some (state.moved call none (.releasing (driver.mergeData data other)))
  | .completing =>
      some { state.moved call none .finished with
        completed := state.completed ++ [(state.slot.getD driver.fresh).value] }
  | .finished => none

def run (state : State driver) (schedule : List (Fin driver.numSegs)) : Option (State driver) :=
  schedule.foldlM act state

end State

inductive OrderedPhase (α : Type) where
  | waiting
  | accumulating (data : Mergeable α)
  /-- Before the lock. -/
  | accumulated (data : Mergeable α)
  | completing (data : Mergeable α)
  | finished

structure OrderedState (driver : Driver α) where
  /-- Data of later segments, by their numbers. -/
  pending : List (Nat × Mergeable α)
  running : Option (Mergeable α)
  next : Nat
  phase : Fin driver.numSegs → OrderedPhase α
  completed : List α

namespace OrderedState
variable {driver : Driver α}

def initial (driver : Driver α) : OrderedState driver := ⟨[], none, 0, fun _ => .waiting, []⟩

def emplace (segnum : Nat) (data : Mergeable α) :
    List (Nat × Mergeable α) → List (Nat × Mergeable α)
  | [] => [(segnum, data)]
  | first :: rest =>
      if segnum < first.1 then (segnum, data) :: first :: rest
      else first :: emplace segnum data rest

def absorb (driver : Driver α) (running : Option (Mergeable α)) (data : Mergeable α) :
    Mergeable α :=
  match running with
  | none => data
  | some running => driver.mergeData running data

/-- Merges the data of the next segment, and of the ones behind it that have arrived. -/
def drain (driver : Driver α) (running : Option (Mergeable α)) (next : Nat) (data : Mergeable α) :
    List (Nat × Mergeable α) → Mergeable α × Nat × List (Nat × Mergeable α)
  | [] => (absorb driver running data, next + 1, [])
  | (segnum, later) :: rest =>
      if segnum = next + 1 then drain driver (some (absorb driver running data)) (next + 1) later rest
      else (absorb driver running data, next + 1, (segnum, later) :: rest)

def moved (state : OrderedState driver) (call : Fin driver.numSegs) (phase : OrderedPhase α) :
    OrderedState driver :=
  { state with phase := Function.update state.phase call phase }

def locked (state : OrderedState driver) (call : Fin driver.numSegs) (data : Mergeable α) :
    OrderedState driver :=
  if call.val ≠ state.next then
    { state.moved call .finished with pending := emplace call.val data state.pending }
  else
    let (running, next, pending) := drain driver state.running state.next data state.pending
    if next = driver.numSegs then
      ⟨pending, none, next, Function.update state.phase call (.completing running), state.completed⟩
    else ⟨pending, some running, next, Function.update state.phase call .finished, state.completed⟩

def act (state : OrderedState driver) (call : Fin driver.numSegs) : Option (OrderedState driver) :=
  match state.phase call with
  | .waiting => some (state.moved call (.accumulating driver.fresh))
  | .accumulating data =>
      some (state.moved call (.accumulated ⟨driver.accumulate call data.value, 1⟩))
  | .accumulated data => some (state.locked call data)
  | .completing data =>
      some { state.moved call .finished with completed := state.completed ++ [data.value] }
  | .finished => none

def run (state : OrderedState driver) (schedule : List (Fin driver.numSegs)) :
    Option (OrderedState driver) :=
  schedule.foldlM act state

end OrderedState

end Luxir.Util.SegmentMergeDriver
