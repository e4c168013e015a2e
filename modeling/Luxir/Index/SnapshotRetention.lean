import Luxir.Index.SnapshotPinCounts

/-!
The snapshot registry over whole runs. Publishers keep their contract: they retire only names the
current snapshot does not own, and publish no file that is still to be unlinked. Then no file of the
current snapshot or of a live pin is ever unlinked, and every retirement the registry took on is at
any moment in exactly one place: pinned, waiting to be unlinked, unlinked, or given up because the
registry closed first.
-/

namespace Luxir.Index.SnapshotRetention
open CommitSnapshotRegistry SnapshotPinCounts Lib.WeightedMap List State Option

def waiting (state : State) : List String := state.unlinking.getD [] ++ state.collected.flatten

def owed (state : State) (name : String) : Nat :=
  (waiting state).count name + (isRetired state.registry.files name).toNat

def Legal (state : State) : Action → Prop
  | .publish snapshot => ∀ name ∈ snapshot.names, owed state name = 0
  | .retire names => ∀ snapshot, state.registry.published = some snapshot →
      ∀ name ∈ names, name ∉ snapshot.names
  | _ => True

def initial : State where
  registry := ⟨⟨60000, 1024 * 1024 * 1024⟩, 0, 0, 0, 0, false, none, [], ∅⟩
  collected := []
  unlinking := none
  unlinked := []
  accepted := []
  dropped := []

inductive Reachable : State → Prop where
  | initial : Reachable initial
  | step {state : State} (before : Reachable state) (action : Action)
      (legal : Legal state action) : Reachable (act state action)

structure Inv (state : State) : Prop where
  ids : (state.registry.pins.map fun pin => pin.snapshot.id).Nodup
  tracked : Tracked state.registry (pinCount state.registry.pins)
  freed : ∀ name ∈ waiting state, state.registry.files.lookup name = none
  apart : ∀ snapshot, state.registry.published = some snapshot →
    ∀ name ∈ snapshot.names, owed state name = 0
  unpublished : state.registry.published = none → state.registry.pins = []
  balance : ∀ name, state.accepted.count name =
    state.unlinked.count name + owed state name + state.dropped.count name
  dropped : state.registry.closed = false → state.dropped = []

theorem inv_initial : Inv initial where
  ids := nodup_nil
  tracked := ⟨fun found => by simp [initial] at found, fun _ => rfl, rfl⟩
  freed := by simp [waiting, initial]
  apart := by simp [initial]
  unpublished := fun _ => rfl
  balance := by simp [owed, waiting, isRetired, initial]
  dropped := fun _ => rfl

theorem lookup_none_iff {registry : Registry} {count : String → Nat}
    (tracked : Tracked registry count) (name : String) :
    registry.files.lookup name = none ↔ count name = 0 := by
  constructor
  · exact tracked.free
  intro zero
  cases found : registry.files.lookup name with
  | none => rfl
  | some =>
    have held := tracked.held found
    omega

variable {state : State} {now : Registry × List String}

theorem inv_waiting (inv : Inv state) {collected : List (List String)}
    {unlinking : Option (List String)} {unlinked dropped : List String} (gone : List String)
    (still : (waiting state).Perm (gone ++ (unlinking.getD [] ++ collected.flatten)))
    (left : (unlinked ++ dropped).Perm (gone ++ (state.unlinked ++ state.dropped)))
    (opened : state.registry.closed = false → dropped = []) :
    Inv { state with
      collected := collected
      unlinking := unlinking
      unlinked := unlinked
      dropped := dropped } := by
  refine ⟨inv.ids, inv.tracked, fun name mem => inv.freed name
    (still.symm.subset (mem_append_right _ mem)), ?_, inv.unpublished, ?_, opened⟩
  · intro snap now name mem
    have nothing := inv.apart snap now name mem
    have count := still.count_eq name
    simp only [owed, waiting, count_append] at nothing count ⊢
    omega
  · intro name
    have total := inv.balance name
    have count := still.count_eq name
    have more := left.count_eq name
    simp only [owed, waiting, count_append] at total count more ⊢
    omega

theorem inv_enter (inv : Inv state) : Inv (state.leave (state.registry, [])) := inv

theorem waiting_leave (state : State) (now : Registry × List String) :
    (waiting (state.leave now)).Perm (now.2 ++ waiting state) := by
  have collected : (state.leave now).collected.flatten = now.2 ++ state.collected.flatten := by
    unfold leave
    cases now.2 <;> rfl
  unfold waiting
  rw [collected]
  exact perm_append_comm_assoc _ _ _

theorem good_of_inv (inv : Inv (state.leave now)) : Good now where
  ids := inv.ids
  tracked := inv.tracked
  freed := fun name mem => inv.freed name ((waiting_leave state now).mem_iff.mpr
    (mem_append_left _ mem))

theorem owed_leave (state : State) (now : Registry × List String) (name : String) :
    owed (state.leave now) name = (waiting state).count name + burden now name := by
  rw [owed, (waiting_leave state now).count_eq, count_append, burden, Nat.add_comm (now.2.count _),
    Nat.add_assoc]
  rfl

variable {before : Registry × List String} {name : String}

theorem mem_waiting_leave :
    name ∈ waiting (state.leave now) ↔ name ∈ waiting state ∨ name ∈ now.2 := by
  rw [(waiting_leave state now).mem_iff, mem_append, or_comm]

theorem freed_leave {after : Registry × List String} (inv : Inv (state.leave before))
    (good : Good after)
    (fewer : ∀ name, pinCount after.1.pins name ≤ pinCount before.1.pins name) :
    ∀ name ∈ waiting (state.leave after), after.1.files.lookup name = none := by
  intro name mem
  rcases mem_waiting_leave.mp mem with old | new
  · have gone := inv.freed name (mem_waiting_leave.mpr (.inl old))
    have zero := (lookup_none_iff inv.tracked name).mp gone
    apply (lookup_none_iff good.tracked name).mpr
    exact Nat.eq_zero_of_le_zero ((fewer name).trans zero.le)
  · exact good.freed name new

theorem inv_drops {after : Registry × List String} (inv : Inv (state.leave before))
    (drops : Drops before after) : Inv (state.leave after) := by
  have debts : ∀ name, owed (state.leave after) name = owed (state.leave before) name := by
    intro name
    rw [owed_leave, owed_leave, drops.burden]
  refine ⟨drops.good.ids, drops.good.tracked,
    freed_leave inv drops.good fun _ => drops.pins.countP_le, ?_, ?_, ?_, ?_⟩
  · intro snap now name mem
    rw [debts]
    exact inv.apart snap (drops.published.symm.trans now) name mem
  · intro fresh
    have empty : before.1.pins = [] := inv.unpublished (drops.published.symm.trans fresh)
    have fewer := drops.pins
    rw [empty] at fewer
    exact sublist_nil.mp fewer
  · intro name
    rw [debts]
    exact inv.balance name
  · intro opened
    exact inv.dropped (drops.closed.symm.trans opened)

theorem mem_of_accepted {names : List String} (mem : name ∈ acceptedNames now names) :
    name ∈ names := by
  induction names generalizing now with
  | nil => simp [acceptedNames] at mem
  | cons head rest ih =>
    rw [acceptedNames] at mem
    have listed : name ∈ head :: acceptedNames (retireName now head) rest →
        name ∈ head :: rest := by
      intro lt
      rcases mem_cons.mp lt with same | later
      · exact same ▸ mem_cons_self
      · exact mem_cons_of_mem _ (ih later)
    split at mem
    · exact listed mem
    · split_ifs at mem
      · exact mem_cons_of_mem _ (ih mem)
      · exact listed mem

theorem inv_retire (names : List String) (inv : Inv (state.leave before))
    (legal : ∀ snap, before.1.published = some snap → ∀ name ∈ names, name ∉ snap.names) :
    Inv (leave { state with accepted := acceptedNames before names ++ state.accepted }
      (names.foldl retireName before)) := by
  obtain ⟨good, pins, published, closed⟩ := retireNames_good names (good_of_inv inv)
  have debts : ∀ name, owed (leave { state with accepted := acceptedNames before names ++
      state.accepted } (names.foldl retireName before)) name = owed (state.leave before) name +
      (acceptedNames before names).count name := by
    intro name
    rw [owed_leave, owed_leave, retireNames_burden, Nat.add_assoc]
    rfl
  have freed := freed_leave inv good fun _ => by rw [pins]
  refine ⟨good.ids, good.tracked, freed, ?_, ?_, ?_, ?_⟩
  · intro snap now name mem
    have sameSnapshot := published.symm.trans now
    have refused : name ∉ acceptedNames before names := fun lt =>
      legal snap sameSnapshot name (mem_of_accepted lt) mem
    rw [debts, count_eq_zero.mpr refused]
    exact inv.apart snap sameSnapshot name mem
  · intro fresh
    exact pins.trans (inv.unpublished (published.symm.trans fresh))
  · intro name
    have total := inv.balance name
    rw [debts]
    simp only [leave, count_append] at total ⊢
    omega
  · intro opened
    exact inv.dropped (closed.symm.trans opened)

theorem inv_pins (inv : Inv state) (update : Pin → Pin)
    (same : ∀ pin, (update pin).snapshot = pin.snapshot) :
    Inv { state with
      registry := { state.registry with pins := state.registry.pins.map update } } := by
  have counts : pinCount (state.registry.pins.map update) = pinCount state.registry.pins := by
    funext name
    simp only [pinCount, countP_map]
    congr 1
    funext pin
    simp [same]
  have ids : ((state.registry.pins.map update).map fun pin => pin.snapshot.id) =
      state.registry.pins.map fun pin => pin.snapshot.id := by
    simp [same, Function.comp_def]
  refine ⟨?_, ⟨?_, ?_, inv.tracked.retained⟩, inv.freed, inv.apart, ?_, inv.balance, inv.dropped⟩
  · rw [ids]
    exact inv.ids
  · intro name ref found
    rw [counts]
    exact inv.tracked.held found
  · intro name gone
    rw [counts]
    exact inv.tracked.free gone
  · intro fresh
    simp [inv.unpublished fresh]

theorem inv_pin (inv : Inv (state.leave now)) {commit : CommitSnapshot}
    (published : now.1.published = some commit)
    (fresh : ∀ pin ∈ now.1.pins, pin.snapshot.id ≠ commit.id) (created lastRead leases : Nat) :
    Inv (state.leave ({ now.1 with
      files := commit.files.foldl addFile now.1.files
      pins := now.1.pins.orderedInsert (fun left right => left.snapshot.id.before right.snapshot.id)
        ⟨commit, created, lastRead, leases⟩ }, now.2)) := by
  have permuted := perm_orderedInsert
    (fun left right : Pin => left.snapshot.id.before right.snapshot.id = true)
    ⟨commit, created, lastRead, leases⟩ now.1.pins
  have counts : ∀ name, pinCount now.1.pins name + commit.names.count name =
      pinCount (now.1.pins.orderedInsert (fun left right => left.snapshot.id.before
        right.snapshot.id) ⟨commit, created, lastRead, leases⟩) name := by
    intro name
    have moved := permuted.countP_eq (fun pin => decide (name ∈ pin.snapshot.names))
    have once : commit.names.count name = if name ∈ commit.names then 1 else 0 := by
      split_ifs with mem
      · exact count_eq_one_of_mem commit.distinct mem
      · exact count_eq_zero.mpr mem
    unfold pinCount
    rw [moved, countP_cons, once]
    simp
  have added : Tracked _ _ := addFiles_tracked commit.files (good_of_inv inv).tracked
  have unmarked := isRetired_addFiles commit.files now.1.files
  refine ⟨?_, ⟨?_, ?_, added.retained⟩, ?_, ?_, ?_, ?_, inv.dropped⟩
  · apply ((permuted.map fun pin => pin.snapshot.id).nodup_iff).mpr
    refine nodup_cons.mpr ⟨?_, inv.ids⟩
    intro mem
    obtain ⟨pin, lt, same⟩ := mem_map.mp mem
    exact fresh pin lt same
  · intro name ref found
    simp only [leave]
    rw [← counts name]
    exact added.held found
  · intro name gone
    simp only [leave]
    rw [← counts name]
    exact added.free gone
  · intro name mem
    have apart : name ∉ commit.names := by
      intro lt
      have nothing := inv.apart commit published name lt
      have pos := count_pos_iff.mpr mem
      unfold owed at nothing
      simp only [waiting, leave] at nothing pos
      omega
    simp only [leave]
    rw [lookup_addFiles_none commit.files _ apart]
    exact inv.freed name mem
  · intro snap now name mem
    have nothing := inv.apart snap now name mem
    rw [owed_leave] at nothing ⊢
    simpa only [burden, unmarked] using nothing
  · intro fresh
    simp [leave, published] at fresh
  · intro name
    have total := inv.balance name
    rw [owed_leave] at total ⊢
    simpa only [leave, burden, unmarked] using total

theorem inv_expire (inv : Inv state) : Inv (state.leave (expireLocked (state.registry, []))) := by
  have entered := inv_enter inv
  exact inv_drops entered (expireLocked_drops (good_of_inv entered))

/-- A failed acquire leaves the registry as the expiry it begins with left it, and one that finds
no snapshot or a closed registry changes nothing at all. -/
theorem acquire_failed (inv : Inv state) (failure : Option Nat) :
    ((acquire state.registry failure).2 ≠ .pinned →
        (acquire state.registry failure).1 = expireLocked (state.registry, [])) ∧
      ((acquire state.registry failure).2 = .snapshotExpired →
        (acquire state.registry failure).1 = (state.registry, [])) := by
  have expired := inv_expire inv
  have drops := expireLocked_drops (good_of_inv (inv_enter inv))
  have pos : ∀ name ref, (expireLocked (state.registry, [])).1.files.lookup name = some ref →
      0 < ref.pins := by
    intro name ref found
    have held := (good_of_inv expired).tracked.held found
    omega
  have nothing : state.registry.closed = true ∨ state.registry.pins = [] →
      expireLocked (state.registry, []) = (state.registry, []) := by
    intro idle
    unfold expireLocked
    rcases idle with closed | empty
    · simp [closed]
    · simp [empty]
  unfold acquire
  dsimp only
  split
  · next fresh =>
    refine ⟨fun _ => rfl, fun _ => nothing (.inr ?_)⟩
    exact inv.unpublished (drops.published.symm.trans fresh)
  next commit now =>
  split_ifs with closed known
  · exact ⟨fun _ => rfl, fun _ => nothing (.inl (drops.closed.symm.trans closed))⟩
  · simp
  · cases failure with
    | none => simp
    | some added =>
      have nodup : ((commit.files.take added).map FileDescriptor.name).Nodup := by
        rw [map_take]
        exact (take_sublist _ _).nodup commit.distinct
      refine ⟨fun _ => ?_, fun wrong => by simp at wrong⟩
      dsimp only
      rw [undoFiles_addFiles _ _ nodup pos]

theorem inv_acquire (inv : Inv state) (failure : Option Nat) :
    Inv (state.leave (acquire state.registry failure).1) := by
  have expired := inv_expire inv
  by_cases pinned : (acquire state.registry failure).2 = .pinned
  · revert pinned
    unfold acquire
    dsimp only
    split
    · exact fun _ => expired
    next commit now =>
    split_ifs with closed known
    · exact fun _ => expired
    · intro _
      apply inv_pins expired (fun pin => if pin.snapshot.id = commit.id then
        { pin with lastRead := (expireLocked (state.registry, [])).1.time } else pin)
      intro pin
      split_ifs <;> rfl
    · cases failure with
      | none =>
        intro _
        apply inv_pin expired now
        intro pin mem same
        exact known (any_eq_true.mpr ⟨pin, mem, by simpa using same⟩)
      | some => exact fun wrong => by simp at wrong
  · rw [(acquire_failed inv failure).1 pinned]
    exact expired

theorem count_retiredNames (files : Files) (name : String) :
    (retiredNames files).count name = (isRetired files name).toNat := by
  have nodup : (retiredNames files).Nodup := Finset.sort_nodup _ _
  have listed : name ∈ retiredNames files ↔ isRetired files name = true := by
    unfold retiredNames
    rw [Finset.mem_sort, Finset.mem_filter, Finmap.mem_keys]
    constructor
    · exact fun both => both.2
    · intro marked
      refine ⟨?_, marked⟩
      by_contra missing
      simp [isRetired, Finmap.lookup_eq_none.mpr missing] at marked
  by_cases marked : isRetired files name = true
  · rw [marked, Bool.toNat_true]
    exact count_eq_one_of_mem nodup (listed.mpr marked)
  · rw [Bool.eq_false_iff.mpr marked, Bool.toNat_false]
    exact count_eq_zero.mpr fun mem => marked (listed.mp mem)

theorem inv_detach (inv : Inv state) (free : state.unlinking = none) : Inv { state with
      registry := { state.registry with pins := [], files := ∅, retainedBytes := 0 }
      unlinking := some (retiredNames state.registry.files) } := by
  have debts : ∀ name, owed { state with
      registry := { state.registry with pins := [], files := ∅, retainedBytes := 0 }
      unlinking := some (retiredNames state.registry.files) } name = owed state name := by
    intro name
    simp only [owed, waiting, free, getD_none, nil_append, getD_some,
      count_append, count_retiredNames]
    simp only [isRetired, Finmap.lookup_empty, Bool.toNat_false]
    omega
  refine ⟨nodup_nil, ⟨fun found => by simp at found, fun _ => rfl, rfl⟩, by simp, ?_,
    fun _ => rfl, ?_, inv.dropped⟩
  · intro snap now name mem
    rw [debts]
    exact inv.apart snap now name mem
  · intro name
    rw [debts]
    exact inv.balance name

theorem inv_act (inv : Inv state) (action : Action) (legal : Legal state action) :
    Inv (act state action) := by
  cases action with
  | tick => exact { inv with tracked := { inv.tracked with } }
  | publish =>
    exact { inv with
      tracked := { inv.tracked with }
      apart := by
        rintro _ ⟨⟩
        exact legal
      unpublished := fun fresh => by simp [act] at fresh }
  | retire names =>
    unfold act retire
    have entered := inv_enter inv
    by_cases closed : state.registry.closed = true
    · simp only [closed, if_true, nil_append]
      exact entered
    simp only [closed, if_false, Bool.false_eq_true]
    have expired := inv_expire inv
    have drops := expireLocked_drops (good_of_inv entered)
    have retired := inv_retire names expired fun snap now =>
      legal snap (drops.published.symm.trans now)
    exact inv_drops retired (enforceBudgetLoop_drops _ (good_of_inv retired))
  | acquire failure => exact inv_acquire inv failure
  | touch =>
    unfold act touch
    dsimp only
    split
    · exact inv
    split_ifs
    · exact inv
    · exact inv
    · exact inv
    · apply inv_pins inv
      intro pin
      split_ifs <;> rfl
  | expire => exact inv_expire inv
  | setPolicy policy =>
    unfold act setPolicy
    dsimp only
    split_ifs
    · exact inv_enter inv
    have entered : Inv (state.leave ({ state.registry with policy := policy }, [])) := by
      have same := inv_enter inv
      exact { same with tracked := { same.tracked with } }
    have expired := inv_drops entered (expireLocked_drops (good_of_inv entered))
    exact inv_drops expired (enforceBudgetLoop_drops _ (good_of_inv expired))
  | reclaimOldestPin =>
    unfold act reclaimOldestPin
    dsimp only
    have entered := inv_enter inv
    split
    · exact entered
    · exact inv_drops entered (drops_counters (releaseLocked_drops (good_of_inv entered) _) _ _)
  | openFile =>
    unfold act openFile
    dsimp only
    split
    · exact inv
    next free =>
    have expired := inv_expire inv
    have held : Inv { state with
        registry := (expireLocked (state.registry, [])).1
        unlinking := some (expireLocked (state.registry, [])).2 } := by
      refine inv_waiting expired [] ?_ (Perm.refl _) expired.dropped
      simpa [waiting, free] using waiting_leave state (expireLocked (state.registry, []))
    split
    · exact held
    split_ifs
    · exact held
    · apply inv_pins held
      intro pin
      split_ifs <;> rfl
  | closeFile =>
    apply inv_pins inv
    intro pin
    split_ifs <;> rfl
  | unlink caller =>
    unfold act
    dsimp only
    split
    · next names free found =>
      have taken : state.collected.flatten.Perm
          (names ++ (state.collected.eraseIdx caller).flatten) := by
        obtain ⟨bound, rfl⟩ := List.getElem?_eq_some_iff.mp found
        exact (getElem_cons_eraseIdx_perm bound).symm.flatten
      split_ifs with closed
      · refine inv_waiting inv names ?_ ?_ (by simp [closed])
        · simpa [waiting, free] using taken
        · exact perm_append_comm_assoc _ _ _
      · refine inv_waiting inv [] ?_ (Perm.refl _) inv.dropped
        simpa [waiting, free] using taken
    · exact inv
  | unlinkNext =>
    unfold act
    dsimp only
    split
    · exact inv
    · next empty =>
      refine inv_waiting inv [] ?_ (Perm.refl _) inv.dropped
      simp [waiting, empty]
    · next name rest busy =>
      refine inv_waiting inv [name] ?_ (Perm.refl _) inv.dropped
      simp [waiting, busy]
  | close =>
    exact { inv with
      tracked := { inv.tracked with }
      dropped := fun opened => by simp [act] at opened }
  | detach =>
    unfold act
    dsimp only
    split
    · exact inv
    · next free =>
      split_ifs
      · exact inv_detach inv free
      · exact inv

theorem inv_reachable (reachable : Reachable state) : Inv state := by
  induction reachable with
  | initial => exact inv_initial
  | step _ action legal ih => exact inv_act ih action legal

/-- Only the loop of `unlink` reaches the directory, with the next name of its batch. -/
theorem unlinked_act (state : State) (action : Action) :
    (act state action).unlinked = state.unlinked ∨
      ∃ name rest, state.unlinking = some (name :: rest) ∧
        (act state action).unlinked = name :: state.unlinked := by
  cases action with
  | unlinkNext =>
    dsimp only [act]
    split
    · exact .inl rfl
    · exact .inl rfl
    · next name rest busy => exact .inr ⟨name, rest, busy, rfl⟩
  | openFile =>
    dsimp only [act]
    split <;> exact .inl rfl
  | unlink =>
    dsimp only [act]
    split
    · split_ifs <;> exact .inl rfl
    · exact .inl rfl
  | detach =>
    dsimp only [act]
    split
    · exact .inl rfl
    · split_ifs <;> exact .inl rfl
  | _ => exact .inl rfl

theorem unlink_safe (inv : Inv state) {action : Action}
    (unlinks : (act state action).unlinked = name :: state.unlinked) :
    (∀ snap, state.registry.published = some snap → name ∉ snap.names) ∧
      pinCount state.registry.pins name = 0 := by
  have mem : name ∈ waiting state := by
    rcases unlinked_act state action with same | ⟨head, rest, busy, grown⟩
    · exact absurd (unlinks.symm.trans same) (cons_ne_self _ _)
    · rw [grown] at unlinks
      cases unlinks
      simp [waiting, busy]
  constructor
  · intro snap now lt
    have nothing := inv.apart snap now name lt
    have pos := count_pos_iff.mpr mem
    unfold owed at nothing
    omega
  · exact (lookup_none_iff inv.tracked name).mp (inv.freed name mem)

def drain : Nat → State → State
  | 0, state => state
  | rounds + 1, state =>
      drain rounds (act state (if state.unlinking.isSome then .unlinkNext else .unlink 0))

theorem drain_busy (names : List String) (state : State) (busy : state.unlinking = some names) :
    drain (names.length + 1) state =
      { state with unlinking := none, unlinked := names.reverse ++ state.unlinked } := by
  induction names generalizing state with
  | nil => simp [drain, act, busy]
  | cons name rest ih =>
    rw [length_cons, drain]
    simp only [busy, isSome_some, if_true, act]
    rw [ih _ rfl]
    simp

theorem drain_add (first second : Nat) (state : State) :
    drain (first + second) state = drain second (drain first state) := by
  induction first generalizing state with
  | zero => simp [drain]
  | succ rounds ih =>
    rw [Nat.succ_add, drain, drain, ih]

theorem drain_collected (collected : List (List String)) (state : State)
    (free : state.unlinking = none) (opened : state.registry.closed = false)
    (holds : state.collected = collected) :
    ∃ rounds, ∀ name, (drain rounds state).unlinked.count name =
      state.unlinked.count name + collected.flatten.count name := by
  induction collected generalizing state with
  | nil => exact ⟨0, fun name => by simp [drain]⟩
  | cons names rest ih =>
    obtain ⟨rounds, drained⟩ := ih
      { state with unlinking := none, collected := rest, unlinked := names.reverse ++ state.unlinked }
      rfl opened rfl
    refine ⟨1 + (names.length + 1) + rounds, fun name => ?_⟩
    have first : drain 1 state = { state with collected := rest, unlinking := some names } := by
      simp [drain, act, free, holds, opened]
    rw [drain_add, drain_add, first, drain_busy names _ rfl, drained]
    simp only [count_append, count_reverse, flatten_cons]
    omega

theorem drain_waiting (state : State) (opened : state.registry.closed = false) :
    ∃ rounds, ∀ name, (drain rounds state).unlinked.count name =
      state.unlinked.count name + (waiting state).count name := by
  cases busy : state.unlinking with
  | none =>
    obtain ⟨rounds, drained⟩ := drain_collected state.collected state busy opened rfl
    refine ⟨rounds, fun name => ?_⟩
    rw [drained]
    simp [waiting, busy]
  | some names =>
    obtain ⟨rounds, drained⟩ := drain_collected state.collected
      { state with unlinking := none, unlinked := names.reverse ++ state.unlinked } rfl opened rfl
    refine ⟨names.length + 1 + rounds, fun name => ?_⟩
    rw [drain_add, drain_busy names state busy, drained]
    simp only [waiting, busy, getD_some, count_append, count_reverse]
    omega

/-- What the registry guarantees in a state and for the next action from it. -/
structure Retains (state : State) : Prop where
  /-- The table has an entry for exactly the pinned names, with the number of pins. -/
  counted : ∀ name, (state.registry.files.lookup name = none ↔
      pinCount state.registry.pins name = 0) ∧
    ∀ ref, state.registry.files.lookup name = some ref →
      ref.pins = pinCount state.registry.pins name
  retained : state.registry.retainedBytes = weight retiredSize state.registry.files
  /-- A name that is handed to the directory is in no current or pinned snapshot. -/
  safe : ∀ action name, (act state action).unlinked = name :: state.unlinked →
    (∀ snapshot, state.registry.published = some snapshot → name ∉ snapshot.names) ∧
      ∀ pin ∈ state.registry.pins, name ∉ pin.snapshot.names
  /-- Each retirement taken on is honoured once, or still pinned, or waiting, or given up. -/
  once : ∀ name, state.accepted.count name =
    state.unlinked.count name + (waiting state).count name +
      (isRetired state.registry.files name).toNat + state.dropped.count name
  givenUp : state.registry.closed = false → state.dropped = []
  /-- While the registry is open its callers unlink all that waits. -/
  drains : state.registry.closed = false → ∃ rounds, ∀ name,
    (drain rounds state).unlinked.count name =
      state.unlinked.count name + (waiting state).count name
  acquireFailed : ∀ failure, (acquire state.registry failure).2 ≠ .pinned →
    (acquire state.registry failure).1 = expireLocked (state.registry, []) ∧
      ((acquire state.registry failure).2 = .snapshotExpired →
        (acquire state.registry failure).1 = (state.registry, []))
  budget : ∀ action, (∃ names, action = .retire names ∧ state.registry.closed = false) ∨
      (∃ policy, action = .setPolicy policy ∧ policy.idleTimeout ≠ 0) →
    (act state action).registry.retainedBytes ≤ (act state action).registry.policy.retainedBytes ∨
      (act state action).registry.pins = []

/-- The snapshot pin registry, over every interleaving of its operations. -/
theorem snapshot_pins (state : State) (reachable : Reachable state) : Retains state := by
  have inv := inv_reachable reachable
  refine ⟨?_, inv.tracked.retained, ?_, ?_, inv.dropped, drain_waiting state, ?_, ?_⟩
  · intro name
    exact ⟨lookup_none_iff inv.tracked name, fun ref found => (inv.tracked.held found).1⟩
  · intro action name unlinks
    obtain ⟨current, unpinned⟩ := unlink_safe inv unlinks
    refine ⟨current, fun pin member inside => ?_⟩
    have positive := pinCount_pos member inside
    omega
  · intro name
    have total := inv.balance name
    unfold owed at total
    omega
  · intro failure refused
    obtain ⟨expired, nothing⟩ := acquire_failed inv failure
    exact ⟨expired refused, nothing⟩
  · rintro action (⟨names, rfl, opened⟩ | ⟨policy, rfl, positive⟩)
    · simp only [act, retire, leave, opened, Bool.false_eq_true, if_false]
      exact enforceBudgetLoop_within _ le_rfl
    · simp only [act, setPolicy, leave, positive, if_false]
      exact enforceBudgetLoop_within _ le_rfl

def older : CommitSnapshot := ⟨⟨"c", 1⟩, [⟨"a", 1⟩], by decide⟩
def newer : CommitSnapshot := ⟨⟨"c", 2⟩, [⟨"b", 1⟩], by decide⟩

/-- The older snapshot is pinned when the newer one replaces it and its file is retired; then
the pin's idle time runs out. -/
def expiring : State :=
  [Action.publish older, .acquire none, .publish newer, .retire ["a"], .setPolicy ⟨1, 10⟩,
    .tick].foldl act initial

theorem reachable_expiring : Reachable expiring := by
  have pinned := (Reachable.initial.step (.publish older)
    (by simp [Legal, owed, waiting, isRetired, initial])).step (.acquire none) trivial
  have replaced := pinned.step (.publish newer)
    (show ∀ name ∈ newer.names, owed _ name = 0 by decide)
  have retired := replaced.step (.retire ["a"]) (by
    rintro _ ⟨⟩
    decide)
  exact (retired.step (.setPolicy ⟨1, 10⟩) trivial).step .tick trivial

theorem snapshot_pins_expiring : Reachable expiring ∧ Retains expiring :=
  ⟨reachable_expiring, snapshot_pins expiring reachable_expiring⟩

theorem snapshot_pins_exceptions :
    -- The registry closes between a release and its unlinking: nobody unlinks the file.
    (∃ state, Reachable state ∧ state.accepted = ["a"] ∧ state.unlinked = [] ∧ waiting state = [] ∧
      pinCount state.registry.pins "a" = 0 ∧ isRetired state.registry.files "a" = false) ∧
    -- A name that is retired again after its file went is handed to the directory again.
    (∃ state, Reachable state ∧ state.unlinked = ["a", "a"]) ∧
    -- An acquire that fails has dropped the expired pins.
    (∃ state, Reachable state ∧ (acquire state.registry (some 0)).2 = .failed ∧
      (acquire state.registry (some 0)).1.1.pins.length < state.registry.pins.length) := by
  have expired := reachable_expiring.step .expire trivial
  refine ⟨⟨_, (expired.step .close trivial).step (.unlink 0) trivial, ?_⟩,
    ⟨_, ((((expired.step (.unlink 0) trivial).step .unlinkNext trivial).step .unlinkNext
      trivial).step (.retire ["a"]) ?_).step (.unlink 0) trivial |>.step .unlinkNext trivial, ?_⟩,
    ⟨_, reachable_expiring, ?_⟩⟩
  · decide
  · rintro _ ⟨⟩
    decide
  all_goals decide

end Luxir.Index.SnapshotRetention
