import Luxir.Index.CommitSnapshotRegistry
import Luxir.Lib.WeightedMap

/-!
Every function under the registry's mutex keeps the pin counts and the retained bytes exact,
and neither loses nor duplicates a retirement: a retired name is either still pinned or on the
list the caller unlinks.
-/

namespace Luxir.Index.SnapshotPinCounts
open CommitSnapshotRegistry Lib.WeightedMap List Finmap

def pinCount (pins : List Pin) (name : String) : Nat :=
  pins.countP fun pin => name ∈ pin.snapshot.names

def retiredSize (ref : FileRef) : Nat := if ref.retired then ref.size else 0

/-- The table counts exactly what `count` says, and holds no entry that nothing counts. -/
structure Tracked (registry : Registry) (count : String → Nat) : Prop where
  held : ∀ {name ref}, registry.files.lookup name = some ref →
    ref.pins = count name ∧ 0 < count name
  free : ∀ {name}, registry.files.lookup name = none → count name = 0
  retained : registry.retainedBytes = weight retiredSize registry.files

/-- How often a retirement of `name` is still to be honoured by the list or by the table. -/
def burden (state : Registry × List String) (name : String) : Nat :=
  state.2.count name + (isRetired state.1.files name).toNat

def Counts : Option FileRef → Nat → Prop
  | none, count => count = 0
  | some ref, count => ref.pins = count ∧ 0 < count

variable {state : Registry × List String} {count : String → Nat} {name : String} {pin : Pin}
  {pins : List Pin}

theorem tracked_iff {registry : Registry} : Tracked registry count ↔
    (∀ name, Counts (registry.files.lookup name) (count name)) ∧
      registry.retainedBytes = weight retiredSize registry.files := by
  constructor
  · intro tracked
    refine ⟨fun name => ?_, tracked.retained⟩
    cases found : registry.files.lookup name with
    | none => exact tracked.free found
    | some => exact tracked.held found
  · rintro ⟨counts, retained⟩
    refine ⟨fun {name ref} found => ?_, fun {name} gone => ?_, retained⟩
    · have held := counts name
      rwa [found] at held
    · have free := counts name
      rwa [gone] at free

theorem isRetired_of_lookup {files : Files} {ref : FileRef} (found : files.lookup name = some ref) :
    isRetired files name = ref.retired := by
  simp [isRetired, found]

variable (files : Files)

theorem isRetired_insert (name other : String) (ref : FileRef) :
    isRetired (files.insert name ref) other =
      if other = name then ref.retired else isRetired files other := by
  rw [isRetired, lookup_insert_ite]
  split_ifs <;> rfl

theorem isRetired_erase (name other : String) :
    isRetired (files.erase name) other = (decide (other ≠ name) && isRetired files other) := by
  rw [isRetired, lookup_erase_ite]
  split_ifs with same <;> simp [same, isRetired]

section
variable {file : FileDescriptor}

theorem releaseFile_frame : (releaseFile state file).1.pins = state.1.pins ∧
    (releaseFile state file).1.published = state.1.published ∧
    (releaseFile state file).1.closed = state.1.closed ∧
    (releaseFile state file).1.policy = state.1.policy := by
  unfold releaseFile
  split
  · exact ⟨rfl, rfl, rfl, rfl⟩
  · split_ifs <;> exact ⟨rfl, rfl, rfl, rfl⟩

theorem releaseFile_burden (name : String) :
    burden (releaseFile state file) name = burden state name := by
  unfold releaseFile
  split
  · rfl
  next ref found =>
  have flag := isRetired_of_lookup found
  by_cases same : name = file.name
  · subst same
    split_ifs with last retired
    · simp [burden, isRetired_erase, flag, retired]
    · simp [burden, isRetired_erase, flag, retired]
    · simp [burden, isRetired_insert, flag]
  · split_ifs with last retired
    · simp [burden, isRetired_erase, same, count_append, Ne.symm same]
    · simp [burden, isRetired_erase, same]
    · simp [burden, isRetired_insert, same]

theorem releaseFile_freed (freed : ∀ name ∈ state.2, state.1.files.lookup name = none) :
    ∀ name ∈ (releaseFile state file).2, (releaseFile state file).1.files.lookup name = none := by
  have erased : ∀ name ∈ state.2, (state.1.files.erase file.name).lookup name = none := by
    intro name mem
    rw [lookup_erase_ite, freed name mem, ite_self]
  intro name
  unfold releaseFile
  split
  · exact freed name
  next ref found =>
  split_ifs with last retired
  · intro mem
    rcases mem_append.mp mem with old | new
    · exact erased name old
    · rw [mem_singleton.mp new, lookup_erase]
  · exact erased name
  · intro mem
    have ne : name ≠ file.name := by
      intro same
      rw [← same, freed name mem] at found
      cases found
    rw [lookup_insert_of_ne _ ne]
    exact freed name mem

theorem releaseFile_tracked (tracked : Tracked state.1 count) (pos : 0 < count file.name) :
    Tracked (releaseFile state file).1
      (fun name => if name = file.name then count name - 1 else count name) := by
  rw [tracked_iff] at tracked ⊢
  obtain ⟨counts, total⟩ := tracked
  have own := counts file.name
  unfold releaseFile
  split
  next gone =>
    rw [gone] at own
    exact absurd own pos.ne'
  next ref found =>
    rw [found] at own
    obtain ⟨pins, _⟩ := own
    have lighter := weight_erase retiredSize found
    -- Both branches that erase the entry leave the other entries as they were.
    have erased : ref.pins - 1 = 0 → ∀ name, Counts ((state.1.files.erase file.name).lookup name)
        (if name = file.name then count name - 1 else count name) := by
      intro last name
      rw [lookup_erase_ite]
      split_ifs with same
      · rw [same, ← pins]
        exact last
      · exact counts name
    split_ifs with last retired
    · refine ⟨erased last, ?_⟩
      simp only [retiredSize, retired, if_true] at lighter
      dsimp only
      omega
    · refine ⟨erased last, ?_⟩
      simp only [retiredSize, retired, Bool.false_eq_true, if_false, Nat.zero_add] at lighter
      dsimp only
      omega
    · refine ⟨fun name => ?_, ?_⟩
      · rw [lookup_insert_ite]
        split_ifs with same
        · rw [same, ← pins]
          exact ⟨rfl, Nat.pos_of_ne_zero last⟩
        · exact counts name
      · have replaced := weight_insert retiredSize { ref with pins := ref.pins - 1 } found
        simp only [retiredSize] at replaced
        dsimp only
        omega

end

structure Good (state : Registry × List String) : Prop where
  ids : (state.1.pins.map fun pin => pin.snapshot.id).Nodup
  tracked : Tracked state.1 (pinCount state.1.pins)
  freed : ∀ name ∈ state.2, state.1.files.lookup name = none

/-- A critical section that only drops pins, and passes every retirement it frees to its caller. -/
structure Drops (before after : Registry × List String) : Prop where
  good : Good after
  pins : after.1.pins.Sublist before.1.pins
  burden : ∀ name, burden after name = burden before name
  published : after.1.published = before.1.published
  closed : after.1.closed = before.1.closed
  policy : after.1.policy = before.1.policy

theorem drops_refl (good : Good state) : Drops state state :=
  ⟨good, List.Sublist.refl _, fun _ => rfl, rfl, rfl, rfl⟩

theorem drops_trans {first second third : Registry × List String} (left : Drops first second)
    (right : Drops second third) : Drops first third :=
  ⟨right.good, right.pins.trans left.pins, fun name => (right.burden name).trans (left.burden name),
    right.published.trans left.published, right.closed.trans left.closed,
    right.policy.trans left.policy⟩

theorem releaseFiles_frame (files : List FileDescriptor) (state : Registry × List String) :
    (files.foldl releaseFile state).1.pins = state.1.pins ∧
      (files.foldl releaseFile state).1.published = state.1.published ∧
      (files.foldl releaseFile state).1.closed = state.1.closed ∧
      (files.foldl releaseFile state).1.policy = state.1.policy ∧
      ∀ name, burden (files.foldl releaseFile state) name = burden state name := by
  induction files generalizing state with
  | nil => simp
  | cons file rest ih =>
    obtain ⟨pins, published, closed, policy⟩ := @releaseFile_frame state file
    obtain ⟨pins', published', closed', policy', total⟩ := ih (releaseFile state file)
    exact ⟨pins'.trans pins, published'.trans published, closed'.trans closed,
      policy'.trans policy, fun name => (total name).trans (releaseFile_burden name)⟩

theorem releaseFiles_freed (files : List FileDescriptor)
    (freed : ∀ name ∈ state.2, state.1.files.lookup name = none) :
    ∀ name ∈ (files.foldl releaseFile state).2,
      (files.foldl releaseFile state).1.files.lookup name = none := by
  induction files generalizing state with
  | nil => exact freed
  | cons file rest ih => exact ih (releaseFile_freed freed)

theorem releaseFiles_tracked (files : List FileDescriptor) (tracked : Tracked state.1 count)
    (nodup : (files.map FileDescriptor.name).Nodup)
    (pos : ∀ file ∈ files, 0 < count file.name) : Tracked (files.foldl releaseFile state).1
      (fun name => if name ∈ files.map FileDescriptor.name then count name - 1 else count name) := by
  induction files generalizing state count with
  | nil => simpa using tracked
  | cons file rest ih =>
    obtain ⟨fresh, nodup⟩ := nodup_cons.mp nodup
    have first := releaseFile_tracked tracked (pos file mem_cons_self)
    have others : ∀ other ∈ rest, 0 < if other.name = file.name then count other.name - 1
        else count other.name := by
      intro other mem
      have ne : other.name ≠ file.name := by
        intro same
        exact fresh (mem_map.mpr ⟨other, mem, same⟩)
      rw [if_neg ne]
      exact pos other (mem_cons_of_mem _ mem)
    have all := ih first nodup others
    simp only [foldl_cons]
    convert all using 2 with name
    by_cases same : name = file.name
    · subst same
      simp [fresh]
    · simp [same]

theorem pinCount_filter
    (ids : (pins.map fun pin => pin.snapshot.id).Nodup) (mem : pin ∈ pins) (name : String) :
    pinCount pins name =
      pinCount (pins.filter fun other => other.snapshot.id ≠ pin.snapshot.id) name +
        if name ∈ pin.snapshot.names then 1 else 0 := by
  induction pins with
  | nil => simp at mem
  | cons head rest ih =>
    obtain ⟨fresh, ids⟩ := nodup_cons.mp ids
    have elsewhere : ∀ other ∈ rest, other.snapshot.id ≠ head.snapshot.id := by
      intro other lt same
      exact fresh (mem_map.mpr ⟨other, lt, same⟩)
    rcases mem_cons.mp mem with rfl | lt
    · have kept : rest.filter (fun other => other.snapshot.id ≠ pin.snapshot.id) = rest :=
        filter_eq_self.mpr fun other lt => by simpa using elsewhere other lt
      rw [filter_cons_of_neg (by simp), kept]
      simp [pinCount, countP_cons]
    · have ne : head.snapshot.id ≠ pin.snapshot.id := (elsewhere pin lt).symm
      have tail := ih ids lt
      simp only [pinCount, countP_cons, filter_cons, ne, ne_eq, not_false_eq_true,
        decide_true, if_true] at tail ⊢
      omega

theorem pinCount_pos (mem : pin ∈ pins)
    (holds : name ∈ pin.snapshot.names) : 0 < pinCount pins name :=
  countP_pos_iff.mpr ⟨pin, mem, by simpa using holds⟩

theorem releaseLocked_drops (good : Good state) (id : CommitId) :
    Drops state (releaseLocked state id) := by
  unfold releaseLocked
  split
  · exact drops_refl good
  next pin found =>
  have mem : pin ∈ state.1.pins := mem_of_find?_eq_some found
  have same : pin.snapshot.id = id := by simpa using find?_some found
  subst same
  obtain ⟨pins, published, closed, policy, total⟩ := releaseFiles_frame pin.snapshot.files state
  have pos : ∀ file ∈ pin.snapshot.files, 0 < pinCount state.1.pins file.name :=
    fun file lt => pinCount_pos mem (mem_map.mpr ⟨file, lt, rfl⟩)
  have counts := releaseFiles_tracked pin.snapshot.files good.tracked pin.snapshot.distinct pos
  have exact : (fun name => if name ∈ pin.snapshot.names then
      pinCount state.1.pins name - 1 else pinCount state.1.pins name) =
      pinCount (state.1.pins.filter fun other => other.snapshot.id ≠ pin.snapshot.id) := by
    funext name
    have split := pinCount_filter good.ids mem name
    split_ifs at split ⊢ with holds
    all_goals omega
  refine ⟨⟨?_, ?_, ?_⟩, ?_, total, published, closed, policy⟩
  · dsimp only
    rw [pins]
    exact (filter_sublist.map _).nodup good.ids
  · dsimp only
    rw [pins, ← exact]
    exact { counts with }
  · exact releaseFiles_freed pin.snapshot.files good.freed
  · dsimp only
    rw [pins]
    exact filter_sublist

theorem releaseLocked_pins (mem : pin ∈ state.1.pins) :
    (releaseLocked state pin.snapshot.id).1.pins.length < state.1.pins.length := by
  unfold releaseLocked
  split
  · next missing =>
    have never := find?_eq_none.mp missing pin mem
    simp at never
  · next found =>
    dsimp only
    rw [(releaseFiles_frame _ state).1]
    exact length_filter_lt_length_iff_exists.mpr ⟨pin, mem, by simp⟩

theorem drops_counters {before after : Registry × List String} (drops : Drops before after)
    (idle budget : Nat) :
    Drops before ({ after.1 with idleDrops := idle, budgetDrops := budget }, after.2) :=
  { drops with good := { drops.good with tracked := { drops.good.tracked with } } }

theorem expireLocked_drops (good : Good state) : Drops state (expireLocked state) := by
  have all : ∀ (pins : List Pin) (time idle : Nat) (now : Registry × List String),
      Good now → Drops now (pins.foldl (expirePin time idle) now) := by
    intro pins time idle
    induction pins with
    | nil => exact fun now good => drops_refl good
    | cons pin rest ih =>
      intro now good
      have first : Drops now (expirePin time idle now pin) := by
        unfold expirePin
        split_ifs
        · exact drops_counters (releaseLocked_drops good pin.snapshot.id) _ _
        · exact drops_refl good
      exact drops_trans first (ih _ first.good)
  unfold expireLocked
  split_ifs
  · exact drops_refl good
  · exact all _ _ _ state good

theorem enforceBudgetLoop_drops (rounds : Nat) (good : Good state) :
    Drops state (enforceBudgetLoop rounds state) := by
  fun_induction enforceBudgetLoop rounds state with
  | case3 rounds state exceeds oldest found dropped ih =>
    have first := drops_counters (releaseLocked_drops good oldest.snapshot.id)
      dropped.1.idleDrops (dropped.1.budgetDrops + 1)
    exact drops_trans first (ih first.good)
  | case1 | case2 | case4 => exact drops_refl good

/-- Every round drops a pin, so as many rounds as there are pins are enough. -/
theorem enforceBudgetLoop_within (rounds : Nat) (enough : state.1.pins.length ≤ rounds) :
    (enforceBudgetLoop rounds state).1.retainedBytes ≤
        (enforceBudgetLoop rounds state).1.policy.retainedBytes ∨
      (enforceBudgetLoop rounds state).1.pins = [] := by
  fun_induction enforceBudgetLoop rounds state with
  | case1 => exact .inr (eq_nil_of_length_eq_zero (Nat.le_zero.mp enough))
  | case2 rounds state exceeds unpinned => exact .inr (argmin_eq_none.mp unpinned)
  | case3 rounds state exceeds oldest found dropped ih =>
    have mem : oldest ∈ state.1.pins := argmin_mem found
    exact ih (Nat.le_of_lt_succ ((releaseLocked_pins mem).trans_le enough))
  | case4 => exact .inl (by omega)

theorem retireName_frame (state : Registry × List String) (name : String) :
    (retireName state name).1.pins = state.1.pins ∧
      (retireName state name).1.published = state.1.published ∧
      (retireName state name).1.closed = state.1.closed := by
  unfold retireName
  split
  · exact ⟨rfl, rfl, rfl⟩
  · split_ifs <;> exact ⟨rfl, rfl, rfl⟩

theorem retireName_good (good : Good state) (name : String) : Good (retireName state name) := by
  unfold retireName
  split
  · next gone =>
    refine ⟨good.ids, good.tracked, ?_⟩
    exact forall_mem_append.mpr ⟨good.freed, forall_mem_singleton.mpr gone⟩
  next ref found =>
  split_ifs with retired
  · exact good
  have heavier := weight_insert retiredSize { ref with retired := true } found
  simp only [retiredSize, retired, Bool.false_eq_true, if_false, if_true] at heavier
  obtain ⟨counts, total⟩ := tracked_iff.mp good.tracked
  refine ⟨good.ids, tracked_iff.mpr ⟨fun other => ?_, ?_⟩, ?_⟩
  · rw [lookup_insert_ite]
    split_ifs with same
    · have own := counts name
      rw [found] at own
      exact same ▸ own
    · exact counts other
  · dsimp only
    omega
  · intro other mem
    have ne : other ≠ name := by
      intro same
      rw [← same, good.freed other mem] at found
      cases found
    rw [lookup_insert_of_ne _ ne]
    exact good.freed other mem

/-- A retirement is taken on unless the name is pinned and was retired before. -/
theorem retireNames_burden (names : List String) (state : Registry × List String) (name : String) :
    burden (names.foldl retireName state) name =
      burden state name + (acceptedNames state names).count name := by
  induction names generalizing state with
  | nil => simp [acceptedNames]
  | cons head rest ih =>
    rw [foldl_cons, ih, acceptedNames]
    cases found : state.1.files.lookup head with
    | none =>
      have step : burden (retireName state head) name =
          burden state name + if head = name then 1 else 0 := by
        simp only [retireName, found, burden, count_append, count_singleton, beq_iff_eq]
        omega
      simp only [count_cons, beq_iff_eq, step]
      omega
    | some =>
      have flag := isRetired_of_lookup found
      dsimp only
      split_ifs with retired
      · have same : retireName state head = state := by simp [retireName, found, retired]
        rw [same]
      have step : burden (retireName state head) name =
          burden state name + if head = name then 1 else 0 := by
        simp only [retireName, found, retired, burden, isRetired_insert, Bool.false_eq_true,
          if_false]
        by_cases same : name = head
        · subst same
          simp [flag, retired]
        · simp [same, Ne.symm same]
      simp only [count_cons, beq_iff_eq, step]
      omega

theorem retireNames_good (names : List String) (good : Good state) :
    Good (names.foldl retireName state) ∧ (names.foldl retireName state).1.pins = state.1.pins ∧
      (names.foldl retireName state).1.published = state.1.published ∧
      (names.foldl retireName state).1.closed = state.1.closed := by
  induction names generalizing state with
  | nil => exact ⟨good, rfl, rfl, rfl⟩
  | cons head rest ih =>
    obtain ⟨pins, published, closed⟩ := retireName_frame state head
    obtain ⟨kept, laterPins, laterPublished, laterClosed⟩ := ih (retireName_good good head)
    exact ⟨kept, laterPins.trans pins, laterPublished.trans published, laterClosed.trans closed⟩

variable (file : FileDescriptor) (added : List FileDescriptor)

theorem lookup_addFile (name : String) : (addFile files file).lookup name = if name = file.name then
        some (match files.lookup name with
          | none => ⟨file.size, 1, false⟩
          | some ref => { ref with pins := ref.pins + 1 }) else files.lookup name := by
  unfold addFile
  cases found : files.lookup file.name <;> dsimp only <;> rw [lookup_insert_ite] <;>
    split_ifs with same
  · rw [same, found]
  · rfl
  · rw [same, found]
  · rfl

theorem lookup_undoFile (name : String) : (undoFile files file).lookup name =
      if name = file.name then match files.lookup name with
        | none => none
        | some ref => if ref.pins - 1 = 0 then none else some { ref with pins := ref.pins - 1 }
      else files.lookup name := by
  unfold undoFile
  cases found : files.lookup file.name with
  | none =>
    split_ifs with same
    · rw [same, found]
    · rfl
  | some =>
    dsimp only
    split_ifs with last same same
    · rw [lookup_erase_ite, if_pos same, same, found]
      exact (if_pos last).symm
    · rw [lookup_erase_ite, if_neg same]
    · rw [lookup_insert_ite, if_pos same, same, found]
      exact (if_neg last).symm
    · rw [lookup_insert_ite, if_neg same]

theorem undoFile_addFile {files : Files}
    (pos : ∀ ref, files.lookup file.name = some ref → 0 < ref.pins) :
    undoFile (addFile files file) file = files := by
  apply ext_lookup
  intro name
  rw [lookup_undoFile, lookup_addFile]
  by_cases same : name = file.name
  · subst same
    cases found : files.lookup file.name with
    | none => simp
    | some ref =>
      have pinned := pos ref found
      simp [Nat.ne_of_gt pinned]
  · simp [same]

theorem undoFile_addFile_comm {added undone : FileDescriptor} (ne : added.name ≠ undone.name) :
    undoFile (addFile files added) undone = addFile (undoFile files undone) added := by
  apply ext_lookup
  intro name
  simp only [lookup_undoFile, lookup_addFile]
  by_cases same : name = added.name
  · subst same
    simp [ne]
  · simp [same]

theorem undoFile_addFiles_comm (rest : List FileDescriptor) (files : Files)
    {undone : FileDescriptor} (ne : ∀ file ∈ rest, file.name ≠ undone.name) :
    undoFile (rest.foldl addFile files) undone = rest.foldl addFile (undoFile files undone) := by
  induction rest generalizing files with
  | nil => rfl
  | cons file rest ih =>
    simp only [foldl_cons]
    rw [ih _ (fun other mem => ne other (mem_cons_of_mem _ mem)),
      undoFile_addFile_comm files (ne file mem_cons_self)]

/-- An acquire that throws on the way takes back exactly what it counted. -/
theorem undoFiles_addFiles (files : Files) (nodup : (added.map FileDescriptor.name).Nodup)
    (pos : ∀ name ref, files.lookup name = some ref → 0 < ref.pins) :
    added.foldl undoFile (added.foldl addFile files) = files := by
  induction added with
  | nil => rfl
  | cons file rest ih =>
    obtain ⟨fresh, nodup⟩ := nodup_cons.mp nodup
    have ne : ∀ other ∈ rest, other.name ≠ file.name := by
      intro other mem same
      exact fresh (mem_map.mpr ⟨other, mem, same⟩)
    simp only [foldl_cons]
    rw [undoFile_addFiles_comm rest _ ne, undoFile_addFile file (pos file.name)]
    exact ih nodup

theorem isRetired_addFiles (files : Files) (name : String) :
    isRetired (added.foldl addFile files) name = isRetired files name := by
  induction added generalizing files with
  | nil => rfl
  | cons file rest ih =>
    rw [foldl_cons, ih]
    unfold isRetired
    rw [lookup_addFile]
    split_ifs
    · cases files.lookup name <;> rfl
    · rfl

theorem lookup_addFiles_none (files : Files) (apart : name ∉ added.map FileDescriptor.name) :
    (added.foldl addFile files).lookup name = files.lookup name := by
  induction added generalizing files with
  | nil => rfl
  | cons file rest ih =>
    rw [map_cons, mem_cons, not_or] at apart
    rw [foldl_cons, ih _ apart.2, lookup_addFile, if_neg apart.1]

theorem weight_addFile : weight retiredSize (addFile files file) = weight retiredSize files := by
  unfold addFile
  split
  · next gone =>
    rw [weight_insert_new retiredSize _ gone]
    simp [retiredSize]
  · next ref found =>
    have same := weight_insert retiredSize { ref with pins := ref.pins + 1 } found
    simp only [retiredSize] at same
    omega

theorem addFiles_tracked (added : List FileDescriptor) {registry : Registry}
    (tracked : Tracked registry count) :
    Tracked { registry with files := added.foldl addFile registry.files }
      (fun name => count name + (added.map FileDescriptor.name).count name) := by
  induction added generalizing registry count with
  | nil => simpa using tracked
  | cons file rest ih =>
    have first : Tracked { registry with files := addFile registry.files file }
        (fun name => count name + if name = file.name then 1 else 0) := by
      obtain ⟨counts, total⟩ := tracked_iff.mp tracked
      refine tracked_iff.mpr ⟨fun name => ?_, total.trans (weight_addFile _ _).symm⟩
      have own := counts name
      rw [lookup_addFile]
      split_ifs
      · cases found : registry.files.lookup name with
        | none =>
          rw [found] at own
          exact ⟨congrArg (· + 1) own.symm, Nat.succ_pos _⟩
        | some =>
          rw [found] at own
          exact ⟨congrArg (· + 1) own.1, Nat.succ_pos _⟩
      · exact own
    have all := ih first
    simp only [foldl_cons, map_cons, count_cons, beq_iff_eq] at all ⊢
    convert all using 2 with name
    simp only [eq_comm]
    omega

end Luxir.Index.SnapshotPinCounts
