import Mathlib.Data.Finmap
import Mathlib.Data.Finset.Sort
import Mathlib.Data.List.MinMax
import Mathlib.Data.String.Basic

/-!
The per-collection owner of commit snapshots. Transfers pin the current snapshot, publishers
retire the names it no longer owns, and a retired file is unlinked once no pin holds it.
The functions ending in `Locked` run under the registry's mutex and add the names they free
to the caller's list, which the caller unlinks after it released the mutex.
-/

namespace Luxir.Index.CommitSnapshotRegistry

structure CommitId where
  incarnation : String
  indexGen : Nat
deriving DecidableEq, Repr

structure FileDescriptor where
  name : String
  size : Nat
deriving DecidableEq, Repr

/-- A file name occurs once in a snapshot. -/
structure CommitSnapshot where
  id : CommitId
  files : List FileDescriptor
  distinct : (files.map FileDescriptor.name).Nodup

def CommitSnapshot.names (snapshot : CommitSnapshot) : List String :=
  snapshot.files.map FileDescriptor.name

structure Policy where
  idleTimeout : Nat
  retainedBytes : Nat
deriving DecidableEq, Repr

/-- `openFiles` counts the file handles that share the pin's lease. -/
structure Pin where
  snapshot : CommitSnapshot
  created : Nat
  lastRead : Nat
  openFiles : Nat

structure FileRef where
  size : Nat
  pins : Nat
  retired : Bool
deriving DecidableEq, Repr

abbrev Files := Finmap fun _ : String => FileRef

/-- `pins` is in the order of the snapshot ids. -/
structure Registry where
  policy : Policy
  retainedBytes : Nat
  idleDrops : Nat
  budgetDrops : Nat
  time : Nat
  closed : Bool
  published : Option CommitSnapshot
  pins : List Pin
  files : Files

def CommitId.before (left right : CommitId) : Bool :=
  left.incarnation < right.incarnation ∨
    left.incarnation = right.incarnation ∧ left.indexGen ≤ right.indexGen

def releaseFile (state : Registry × List String) (file : FileDescriptor) : Registry × List String :=
  match state.1.files.lookup file.name with
  | none => state
  | some ref =>
      if ref.pins - 1 = 0 then
        if ref.retired then
          ({ state.1 with
              retainedBytes := state.1.retainedBytes - ref.size
              files := state.1.files.erase file.name }, state.2 ++ [file.name])
        else ({ state.1 with files := state.1.files.erase file.name }, state.2)
      else
        ({ state.1 with
            files := state.1.files.insert file.name { ref with pins := ref.pins - 1 } }, state.2)

def releaseLocked (state : Registry × List String) (id : CommitId) : Registry × List String :=
  match state.1.pins.find? (fun pin => pin.snapshot.id = id) with
  | none => state
  | some pin =>
      let released := pin.snapshot.files.foldl releaseFile state
      ({ released.1 with pins := released.1.pins.filter fun other => other.snapshot.id ≠ id },
        released.2)

/-- The body of the budget loop. The loop ends since every round drops a pin. -/
def enforceBudgetLoop : Nat → Registry × List String → Registry × List String
  | 0, state => state
  | rounds + 1, state =>
      if state.1.retainedBytes > state.1.policy.retainedBytes then
        match state.1.pins.argmin Pin.created with
        | none => state
        | some oldest =>
            let dropped := releaseLocked state oldest.snapshot.id
            enforceBudgetLoop rounds
              ({ dropped.1 with budgetDrops := dropped.1.budgetDrops + 1 }, dropped.2)
      else state

def enforceBudgetLocked (state : Registry × List String) : Registry × List String :=
  enforceBudgetLoop state.1.pins.length state

def expirePin (time idleTimeout : Nat) (state : Registry × List String) (pin : Pin) :
    Registry × List String :=
  if time - pin.lastRead ≥ idleTimeout then
    let dropped := releaseLocked state pin.snapshot.id
    ({ dropped.1 with idleDrops := dropped.1.idleDrops + 1 }, dropped.2)
  else state

def expireLocked (state : Registry × List String) : Registry × List String :=
  if state.1.closed then state
  else state.1.pins.foldl (expirePin state.1.time state.1.policy.idleTimeout) state

def holdsRetired (files : Files) (pin : Pin) : Bool :=
  pin.snapshot.files.any fun file =>
    match files.lookup file.name with
    | none => false
    | some ref => ref.retired && ref.size != 0

def oldestReclaimableLocked (registry : Registry) : Option Pin :=
  if registry.closed ∨ registry.retainedBytes = 0 then none
  else
    registry.pins.foldl (fun oldest pin =>
      if registry.published.map CommitSnapshot.id = some pin.snapshot.id ∨ pin.openFiles ≠ 0 then
        oldest
      else
        match oldest with
        | none => if holdsRetired registry.files pin then some pin else none
        | some best =>
            if pin.created ≥ best.created then some best
            else if holdsRetired registry.files pin then some pin else some best) none

def retireName (state : Registry × List String) (name : String) : Registry × List String :=
  match state.1.files.lookup name with
  | none => (state.1, state.2 ++ [name])
  | some ref =>
      if ref.retired then state
      else
        ({ state.1 with
            retainedBytes := state.1.retainedBytes + ref.size
            files := state.1.files.insert name { ref with retired := true } }, state.2)

def retire (registry : Registry) (names : List String) : Registry × List String :=
  if registry.closed then (registry, [])
  else enforceBudgetLocked (names.foldl retireName (expireLocked (registry, [])))

def addFile (files : Files) (file : FileDescriptor) : Files :=
  match files.lookup file.name with
  | none => files.insert file.name ⟨file.size, 1, false⟩
  | some ref => files.insert file.name { ref with pins := ref.pins + 1 }

def undoFile (files : Files) (file : FileDescriptor) : Files :=
  match files.lookup file.name with
  | none => files
  | some ref =>
      if ref.pins - 1 = 0 then files.erase file.name
      else files.insert file.name { ref with pins := ref.pins - 1 }

inductive AcquireResult where
  | pinned
  | snapshotExpired
  | failed
deriving DecidableEq, Repr

/-- The pins of a commit are shared by all clients. `failure` is the number of files counted
before an allocation threw, if one does. -/
def acquire (registry : Registry) (failure : Option Nat) :
    (Registry × List String) × AcquireResult :=
  let state := expireLocked (registry, [])
  match state.1.published with
  | none => (state, .snapshotExpired)
  | some commit =>
      if state.1.closed then (state, .snapshotExpired)
      else if state.1.pins.any (fun pin => pin.snapshot.id = commit.id) then
        (({ state.1 with
            pins := state.1.pins.map fun pin =>
              if pin.snapshot.id = commit.id then { pin with lastRead := state.1.time } else pin },
          state.2), .pinned)
      else
        match failure with
        | some added =>
            let counted := (commit.files.take added).foldl addFile state.1.files
            (({ state.1 with files := (commit.files.take added).foldl undoFile counted },
              state.2), .failed)
        | none =>
            (({ state.1 with
                files := commit.files.foldl addFile state.1.files
                pins := state.1.pins.orderedInsert
                  (fun left right => left.snapshot.id.before right.snapshot.id)
                  ⟨commit, state.1.time, state.1.time, 0⟩ }, state.2), .pinned)

/-- Bytes read renew the pin's lease on life; a touch without any only asks whether it lives. -/
def touch (registry : Registry) (id : CommitId) (bytes : Nat) : Registry × Bool :=
  match registry.pins.find? (fun pin => pin.snapshot.id = id) with
  | none => (registry, false)
  | some pin =>
      if registry.closed then (registry, false)
      else if registry.time - pin.lastRead ≥ registry.policy.idleTimeout then (registry, false)
      else if bytes = 0 then (registry, true)
      else
        ({ registry with
            pins := registry.pins.map fun pin =>
              if pin.snapshot.id = id then { pin with lastRead := registry.time } else pin }, true)

def setPolicy (registry : Registry) (policy : Policy) : Registry × List String :=
  if policy.idleTimeout = 0 then (registry, [])
  else enforceBudgetLocked (expireLocked ({ registry with policy := policy }, []))

def reclaimOldestPin (registry : Registry) : Registry × List String :=
  match oldestReclaimableLocked registry with
  | none => (registry, [])
  | some oldest =>
      let dropped := releaseLocked (registry, []) oldest.snapshot.id
      ({ dropped.1 with budgetDrops := dropped.1.budgetDrops + 1 }, dropped.2)

def openFile (registry : Registry) (id : CommitId) (name : String) :
    (Registry × List String) × Bool :=
  let state := expireLocked (registry, [])
  match state.1.pins.find? (fun pin => pin.snapshot.id = id) with
  | none => (state, false)
  | some pin =>
      if state.1.closed ∨ name ∉ pin.snapshot.names then (state, false)
      else
        (({ state.1 with
            pins := state.1.pins.map fun pin =>
              if pin.snapshot.id = id then { pin with openFiles := pin.openFiles + 1 } else pin },
          state.2), true)

def closeFile (registry : Registry) (id : CommitId) : Registry :=
  { registry with
    pins := registry.pins.map fun pin =>
      if pin.snapshot.id = id then { pin with openFiles := pin.openFiles - 1 } else pin }

/-- The names whose retirement a call of `retire` takes on: those neither pinned nor known to be
retired, and those pinned that were not retired before. -/
def acceptedNames : Registry × List String → List String → List String
  | _, [] => []
  | state, name :: rest =>
      let later := acceptedNames (retireName state name) rest
      match state.1.files.lookup name with
      | none => name :: later
      | some ref => if ref.retired then later else name :: later

def isRetired (files : Files) (name : String) : Bool :=
  match files.lookup name with
  | none => false
  | some ref => ref.retired

/-- The table has no order of its own; the names are taken in theirs. -/
def retiredNames (files : Files) : List String :=
  (files.keys.filter fun name => isRetired files name).sort (· ≤ ·)

/-- The registry between any two critical sections. `collected` holds the lists of callers that
freed names and have not begun to unlink them, `unlinking` what the holder of the retirement
mutex still has to unlink. The last three lists are history: the names handed to the directory,
the retirements taken on, and the names given up because the registry closed. -/
structure State where
  registry : Registry
  collected : List (List String)
  unlinking : Option (List String)
  unlinked : List String
  accepted : List String
  dropped : List String

inductive Action where
  | tick
  | publish (snapshot : CommitSnapshot)
  | retire (names : List String)
  | acquire (failure : Option Nat)
  | touch (id : CommitId) (bytes : Nat)
  | expire
  | setPolicy (policy : Policy)
  | reclaimOldestPin
  | openFile (id : CommitId) (name : String)
  | closeFile (id : CommitId)
  | unlink (caller : Nat)
  | unlinkNext
  | close
  | detach

/-- A caller leaves the critical section with the names it freed, if there are any. -/
def State.leave (state : State) (result : Registry × List String) : State :=
  { state with
    registry := result.1
    collected := if result.2.isEmpty then state.collected else result.2 :: state.collected }

def act (state : State) : Action → State
  | .tick =>
      { state with registry := { state.registry with time := state.registry.time + 1 } }
  | .publish snapshot =>
      { state with registry := { state.registry with published := some snapshot } }
  | .retire names =>
      let accepted :=
        if state.registry.closed then []
        else acceptedNames (expireLocked (state.registry, [])) names
      { state.leave (retire state.registry names) with
        accepted := accepted ++ state.accepted }
  | .acquire failure => state.leave (acquire state.registry failure).1
  | .touch id bytes => { state with registry := (touch state.registry id bytes).1 }
  | .expire => state.leave (expireLocked (state.registry, []))
  | .setPolicy policy => state.leave (setPolicy state.registry policy)
  | .reclaimOldestPin => state.leave (reclaimOldestPin state.registry)
  | .openFile id name =>
      -- Opening joins retirement: the caller holds the retirement mutex until it has unlinked
      -- what expired, also when the registry closes meanwhile.
      match state.unlinking with
      | some _ => state
      | none =>
          let result := (openFile state.registry id name).1
          { state with registry := result.1, unlinking := some result.2 }
  | .closeFile id => { state with registry := closeFile state.registry id }
  | .unlink caller =>
      -- Any of the callers that wait for the retirement mutex may be the next to get it.
      match state.unlinking, state.collected[caller]? with
      | none, some names =>
          let rest := state.collected.eraseIdx caller
          if state.registry.closed then
            { state with collected := rest, dropped := names ++ state.dropped }
          else { state with collected := rest, unlinking := some names }
      | _, _ => state
  | .unlinkNext =>
      match state.unlinking with
      | none => state
      | some [] => { state with unlinking := none }
      | some (name :: rest) =>
          { state with unlinking := some rest, unlinked := name :: state.unlinked }
  | .close => { state with registry := { state.registry with closed := true } }
  | .detach =>
      match state.unlinking with
      | some _ => state
      | none =>
          if state.registry.closed then
            { state with
              registry := { state.registry with pins := [], files := ∅, retainedBytes := 0 }
              unlinking := some (retiredNames state.registry.files) }
          else state

end Luxir.Index.CommitSnapshotRegistry
