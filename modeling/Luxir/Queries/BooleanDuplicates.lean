import Luxir.Queries.BooleanRules
import Mathlib.Data.List.GetD
import Mathlib.Order.Nat

/-!
Duplicate clauses. A clause is dropped if it compares equal to the first one with its hash, which is
kept; so what all of the clauses accept, and what one of them does, stays the same.
-/

namespace Luxir.Queries.BooleanDuplicates
open BooleanQuery BooleanMatching BooleanInlining BooleanRules List Nat

variable {Leaf Boost : Type} {plan : Planning Leaf Boost} {doc : Leaf → Bool}
  {clause : Query Leaf Boost} {entries : List (Query Leaf Boost × Nat)} {i : Nat} {sumBoosts : Bool}
  {slots : List (DuplicateSlot Boost)} {boost : Boost} {added found : DuplicateSlot Boost}

section
variable {clauses : List (Query Leaf Boost)} {groups next : DuplicateGroups Boost}

/-- How a clause changes the groups: it opens a slot, it is left alone, or it joins a slot whose
first clause it equals. -/
inductive Joins (planning : Planning Leaf Boost) (clauses : List (Query Leaf Boost))
    (groups : DuplicateGroups Boost) (clause : Query Leaf Boost) (i : Nat) :
    DuplicateGroups Boost → Prop where
  | opens (hash : UInt64) (boost : Boost) :
      Joins planning clauses groups clause i
        { groups with slots := groups.slots ++ [⟨hash, i, boost, 1⟩] }
  | alone : Joins planning clauses groups clause i groups
  | joins (slot : Nat) (duplicate : DuplicateSlot Boost) (total : Boost)
      (here : groups.slots[slot]? = some duplicate)
      (equal : Duplicates planning (clauses.getD duplicate.representative .all) clause) :
      Joins planning clauses groups clause i
        { byClause :=
            (if duplicate.count = 1 then
              groups.byClause.set duplicate.representative (some slot)
            else groups.byClause).set i (some slot)
          slots := groups.slots.set slot
            { duplicate with count := duplicate.count + 1, boost := total }
          duplicateSlots := groups.duplicateSlots + (if duplicate.count = 1 then 1 else 0) }

theorem joinSlot_joins (ran : joinSlot plan clauses sumBoosts groups (clause, i) = .ok next) :
    Joins plan clauses groups clause i next := by
  obtain ⟨⟨core, boost⟩, peeled, ran⟩ := bind_ok ran
  dsimp only at ran
  split at ran
  case h_1 =>
    cases ran
    exact .opens _ boost
  case h_2 slot found =>
    split at ran
    case h_1 =>
      cases ran
      exact .alone
    case h_2 duplicate here =>
      obtain ⟨⟨representative, other⟩, first, ran⟩ := bind_ok ran
      obtain ⟨eq, compared, ran⟩ := bind_ok ran
      cases eq with
      | false =>
        cases ran
        exact .alone
      | true =>
        have same : Duplicates plan (clauses.getD duplicate.representative .all) clause := by
          rw [Duplicates, ← peeled_core plan first, ← peeled_core plan peeled]
          exact compared
        simp only [Bool.not_true, Bool.false_eq_true, if_false] at ran
        split at ran <;> cases ran
        exact .joins slot duplicate _ here same

/-- The groups after the first `i` clauses. A slot's first clause belongs to no other slot, and to
its own once another clause has joined; all its clauses accept the same. -/
structure Grouped (doc : Leaf → Bool) (clauses : List (Query Leaf Boost))
    (groups : DuplicateGroups Boost) (i : Nat) : Prop where
  size : groups.byClause.length = clauses.length
  before : ∀ {slot : Nat} {found : DuplicateSlot Boost},
    groups.slots[slot]? = some found → found.representative < i
  counted : ∀ {slot : Nat} {found : DuplicateSlot Boost},
    groups.slots[slot]? = some found → 1 ≤ found.count
  apart : ∀ {slot other : Nat} {found second : DuplicateSlot Boost},
    groups.slots[slot]? = some found → groups.slots[other]? = some second →
    found.representative = second.representative → slot = other
  leads : ∀ {slot : Nat} {found : DuplicateSlot Boost}, groups.slots[slot]? = some found →
    1 < found.count →
    groups.byClause[found.representative]? = some (some slot)
  members : ∀ {j slot : Nat}, groups.byClause[j]? = some (some slot) → j < i ∧
    ∃ found, groups.slots[slot]? = some found ∧ 1 < found.count ∧
      accepts doc (clauses.getD j .all) = accepts doc (clauses.getD found.representative .all)

theorem Grouped.later (grouped : Grouped doc clauses groups i) :
    Grouped doc clauses groups (i + 1) where
  size := grouped.size
  before here := lt_succ_of_lt (grouped.before here)
  counted := grouped.counted
  apart := grouped.apart
  leads := grouped.leads
  members found := ⟨lt_succ_of_lt (grouped.members found).1, (grouped.members found).2⟩

variable {duplicate : DuplicateSlot Boost} {slot : Nat}

theorem slot_append (here : (slots ++ [added])[slot]? = some found) :
    slots[slot]? = some found ∨ slot = slots.length ∧ found = added := by
  rcases lt_trichotomy slot slots.length with less | eq | more
  · rw [getElem?_append_left less] at here
    exact .inl here
  · rw [eq, getElem?_append_right le_rfl] at here
    simp at here
    exact .inr ⟨eq, here.symm⟩
  · rw [getElem?_append_right more.le, getElem?_eq_none (by simp; omega)] at here
    cases here

theorem opens_grouped {hash : UInt64} (grouped : Grouped doc clauses groups i) :
    Grouped doc clauses { groups with slots := groups.slots ++ [⟨hash, i, boost, 1⟩] } (i + 1) where
  size := grouped.size
  before here := by
    rcases slot_append here with old | ⟨-, rfl⟩
    · exact lt_succ_of_lt (grouped.before old)
    · exact lt_succ_self i
  counted here := by
    rcases slot_append here with old | ⟨-, rfl⟩
    · exact grouped.counted old
    · exact le_rfl
  apart first second same := by
    rcases slot_append first with old | ⟨slot, rfl⟩
    · rcases slot_append second with other | ⟨-, rfl⟩
      · exact grouped.apart old other same
      · exact absurd same (grouped.before old).ne
    · rcases slot_append second with other | ⟨last, rfl⟩
      · exact absurd same (grouped.before other).ne'
      · exact slot.trans last.symm
  leads here many := by
    rcases slot_append here with old | ⟨-, rfl⟩
    · exact grouped.leads old many
    · exact absurd many (lt_irrefl 1)
  members found := by
    obtain ⟨less, first, here, many, same⟩ := grouped.members found
    exact ⟨lt_succ_of_lt less, first,
      (getElem?_append_left (List.getElem?_eq_some_iff.mp here).1).trans here,
    many, same⟩

def joined (groups : DuplicateGroups Boost) (duplicate : DuplicateSlot Boost) (slot i : Nat) :
    List (Option Nat) :=
  (if duplicate.count = 1 then groups.byClause.set duplicate.representative (some slot)
    else groups.byClause).set i (some slot)

theorem set_cases {α : Type} {list : List α} {changed j : Nat} {value found : α}
    (here : (list.set changed value)[j]? = some found) :
    j = changed ∧ found = value ∨ j ≠ changed ∧ list[j]? = some found := by
  by_cases same : j = changed
  · have lt := (List.getElem?_eq_some_iff.mp here).1
    rw [length_set] at lt
    rw [same, getElem?_set_self (same ▸ lt)] at here
    exact .inl ⟨same, (Option.some.inj here).symm⟩
  · rw [getElem?_set_ne (Ne.symm same)] at here
    exact .inr ⟨same, here⟩

theorem joined_cases {j other : Nat}
    (found : (joined groups duplicate slot i)[j]? = some (some other)) :
    j = i ∧ other = slot ∨ j = duplicate.representative ∧ other = slot ∨
      groups.byClause[j]? = some (some other) := by
  rcases set_cases found with ⟨last, same⟩ | ⟨-, before⟩
  · exact .inl ⟨last, Option.some.inj same⟩
  split at before
  · rcases set_cases before with ⟨first, same⟩ | ⟨-, before⟩
    · exact .inr (.inl ⟨first, Option.some.inj same⟩)
    · exact .inr (.inr before)
  · exact .inr (.inr before)

theorem joined_leader (grouped : Grouped doc clauses groups i) (less : i < clauses.length)
    (here : groups.slots[slot]? = some duplicate) :
    (joined groups duplicate slot i)[duplicate.representative]? = some (some slot) := by
  have before := grouped.before here
  have counted := grouped.counted here
  unfold joined
  rw [getElem?_set_ne (by omega)]
  split
  case isTrue =>
    rw [getElem?_set_self]
    rw [grouped.size]
    omega
  case isFalse more => exact grouped.leads here (by omega)

theorem joined_other {j : Nat} (later : j ≠ i) (other : j ≠ duplicate.representative) :
    (joined groups duplicate slot i)[j]? = groups.byClause[j]? := by
  unfold joined
  rw [getElem?_set_ne (Ne.symm later)]
  split
  · rw [getElem?_set_ne (Ne.symm other)]
  · rfl

theorem joins_grouped {total : Boost} {num : Nat} (grouped : Grouped doc clauses groups i)
    (less : i < clauses.length) (here : groups.slots[slot]? = some duplicate)
    (same : accepts doc (clauses.getD i .all) =
      accepts doc (clauses.getD duplicate.representative .all)) : Grouped doc clauses
      ⟨joined groups duplicate slot i,
        groups.slots.set slot { duplicate with count := duplicate.count + 1, boost := total },
        num⟩ (i + 1) where
  size := by
    unfold joined
    split <;> simp [grouped.size]
  before found := by
    have first := grouped.before here
    rcases set_cases found with ⟨-, rfl⟩ | ⟨-, old⟩
    · exact lt_succ_of_lt first
    · exact lt_succ_of_lt (grouped.before old)
  counted found := by
    rcases set_cases found with ⟨-, rfl⟩ | ⟨-, old⟩
    · exact succ_le_succ (zero_le _)
    · exact grouped.counted old
  apart first second eq := by
    rcases set_cases first with ⟨one, rfl⟩ | ⟨-, old⟩
    · rcases set_cases second with ⟨other, rfl⟩ | ⟨-, new⟩
      · exact one.trans other.symm
      · exact one.trans (grouped.apart here new eq)
    · rcases set_cases second with ⟨other, rfl⟩ | ⟨-, new⟩
      · exact (grouped.apart old here eq).trans other.symm
      · exact grouped.apart old new eq
  leads found many := by
    rcases set_cases found with ⟨rfl, rfl⟩ | ⟨other, old⟩
    · exact joined_leader grouped less here
    · have before := grouped.before old
      rw [joined_other (by omega) fun eq => other (grouped.apart old here eq)]
      exact grouped.leads old many
  members found := by
    have counted := grouped.counted here
    have slots : (groups.slots.set slot
        { duplicate with count := duplicate.count + 1, boost := total })[slot]? =
        some { duplicate with count := duplicate.count + 1, boost := total } := by
      rw [getElem?_set_self (List.getElem?_eq_some_iff.mp here).1]
    rcases joined_cases found with ⟨rfl, rfl⟩ | ⟨rfl, rfl⟩ | old
    · exact ⟨lt_succ_self _, _, slots, lt_succ_of_le counted, same⟩
    · exact ⟨lt_succ_of_lt (grouped.before here), _, slots, lt_succ_of_le counted, rfl⟩
    · obtain ⟨before, first, there, many, eq⟩ := grouped.members old
      refine ⟨lt_succ_of_lt before, ?_⟩
      rename_i other
      by_cases moved : other = slot
      · rw [moved] at there ⊢
        cases here.symm.trans there
        exact ⟨_, slots, lt_succ_of_le counted, eq⟩
      · exact ⟨first, by rw [getElem?_set_ne (Ne.symm moved), there], many, eq⟩

theorem start_grouped :
    Grouped doc clauses (⟨replicate clauses.length none, [], 0⟩ : DuplicateGroups Boost) 0 where
  size := length_replicate
  before here := by simp at here
  counted here := by simp at here
  apart here := by simp at here
  leads here := by simp at here
  members found := by
    rw [getElem?_replicate] at found
    split at found <;> cases found

variable (sound : Agrees plan doc)
include sound

theorem duplicates_accept {first second : Query Leaf Boost}
    (duplicates : Duplicates plan first second) : accepts doc first = accepts doc second := by
  rw [← accepts_core first, ← accepts_core second]
  exact equals_accepts plan sound _ _ duplicates

theorem joins_next (grouped : Grouped doc clauses groups i) (less : i < clauses.length)
    (here : clauses.getD i .all = clause) (joins : Joins plan clauses groups clause i next) :
    Grouped doc clauses next (i + 1) := by
  cases joins with
  | opens => exact opens_grouped grouped
  | alone => exact grouped.later
  | joins slot duplicate total found eq =>
    apply joins_grouped grouped less found
    rw [here]
    exact (duplicates_accept sound eq).symm

omit sound in
theorem distinct_next (grouped : Grouped doc clauses groups i) (less : i < clauses.length)
    (here : clauses.getD i .all = clause)
    (nodup : clauses.Pairwise fun first second => ¬ Duplicates plan first second)
    (joins : Joins plan clauses groups clause i next) :
    next.duplicateSlots = groups.duplicateSlots := by
  cases joins with
  | opens | alone => rfl
  | joins slot duplicate total found eq =>
    have before := grouped.before found
    rw [getD_eq_getElem _ _ (by omega)] at eq
    rw [getD_eq_getElem _ _ less] at here
    rw [← here] at eq
    exact absurd eq (pairwise_iff_getElem.mp nodup _ _ _ _ before)

theorem fold_grouped {rest : List (Query Leaf Boost)} (left : clauses.drop i = rest)
    (grouped : Grouped doc clauses groups i)
    (ran : (rest.zipIdx i).foldlM (joinSlot plan clauses sumBoosts) groups = .ok next) :
    (∃ last, Grouped doc clauses next last) ∧
    ((clauses.Pairwise fun first second => ¬ Duplicates plan first second) →
      next.duplicateSlots = groups.duplicateSlots) := by
  induction rest generalizing i groups with
  | nil =>
    cases ran
    exact ⟨⟨i, grouped⟩, fun _ => rfl⟩
  | cons clause rest ih =>
    obtain ⟨mid, step, ran⟩ := bind_ok ran
    have joins := joinSlot_joins step
    have less : i < clauses.length := by
      by_contra beyond
      rw [drop_eq_nil_of_le (by omega)] at left
      cases left
    rw [drop_eq_getElem_cons less] at left
    have here : clauses.getD i .all = clause := by
      rw [getD_eq_getElem _ _ less]
      exact (cons.inj left).1
    obtain ⟨done, same⟩ := ih (cons.inj left).2 (joins_next sound grouped less here joins) ran
    refine ⟨done, fun nodup => ?_⟩
    rw [same nodup]
    exact distinct_next grouped less here nodup joins

theorem groups_spec (ran : findDuplicateGroups plan clauses sumBoosts = .ok groups) :
    (∃ last, Grouped doc clauses groups last) ∧
    ((clauses.Pairwise fun first second => ¬ Duplicates plan first second) →
      groups.duplicateSlots = 0) := by
  unfold findDuplicateGroups at ran
  split at ran
  · cases ran
    exact ⟨⟨0, start_grouped⟩, fun _ => rfl⟩
  · exact fold_grouped sound (drop_zero) start_grouped ran

end

variable {clauses out : List (Query Leaf Boost)} {groups : DuplicateGroups Boost}

/-- A clause that differs from another one in boosts. -/
structure Restates (doc : Leaf → Bool) (merged clause : Query Leaf Boost) : Prop where
  same : accepts doc merged = accepts doc clause
  keep : ∀ {keep : Query Leaf Boost → Prop}, Hereditary keep → keep clause → keep merged

theorem Restates.refl (clause : Query Leaf Boost) : Restates doc clause clause := ⟨rfl, fun _ => id⟩

/-- Every clause of each list accepts what some clause of the other does. -/
structure Covers (doc : Leaf → Bool) (out clauses : List (Query Leaf Boost)) : Prop where
  kept : ∀ clause ∈ out, ∃ first ∈ clauses, Restates doc clause first
  covered : ∀ clause ∈ clauses, ∃ first ∈ out, accepts doc first = accepts doc clause

theorem Covers.refl (clauses : List (Query Leaf Boost)) : Covers doc clauses clauses :=
  ⟨fun clause mem => ⟨clause, mem, .refl clause⟩, fun clause mem => ⟨clause, mem, rfl⟩⟩

theorem Covers.keeps {keep : Query Leaf Boost → Prop} (covers : Covers doc out clauses)
    (hereditary : Hereditary keep) (kept : ∀ clause ∈ clauses, keep clause) :
    ∀ clause ∈ out, keep clause := by
  intro clause mem
  obtain ⟨first, found, restates⟩ := covers.kept clause mem
  exact restates.keep hereditary (kept first found)

theorem Covers.all (covers : Covers doc out clauses) (wanted : Bool) :
    (∀ clause ∈ out, accepts doc clause = wanted) ↔
      ∀ clause ∈ clauses, accepts doc clause = wanted := by
  constructor
  all_goals intro all clause mem
  · obtain ⟨first, found, same⟩ := covers.covered clause mem
    rw [← same, all first found]
  · obtain ⟨first, found, restates⟩ := covers.kept clause mem
    rw [restates.same, all first found]

theorem Covers.empty_iff (covers : Covers doc out clauses) : out = [] ↔ clauses = [] := by
  constructor
  all_goals
    rintro rfl
    apply eq_nil_iff_forall_not_mem.mpr
    intro clause mem
  · obtain ⟨first, found, -⟩ := covers.covered clause mem
    cases found
  · obtain ⟨first, found, -⟩ := covers.kept clause mem
    cases found

theorem Covers.union (covers : Covers doc out clauses) : SameUnion doc out clauses := by
  refine ⟨⟨?_, ?_⟩, covers.empty_iff⟩
  all_goals rintro ⟨clause, mem, matched⟩
  · obtain ⟨first, found, restates⟩ := covers.kept clause mem
    exact ⟨first, found, restates.same ▸ matched⟩
  · obtain ⟨first, found, same⟩ := covers.covered clause mem
    exact ⟨first, found, same.trans matched⟩

def slotOf (groups : DuplicateGroups Boost) (i : Nat) : Option (DuplicateSlot Boost) :=
  (groups.byClause.getD i none).bind (groups.slots[·]?)

def survives (groups : DuplicateGroups Boost) (i : Nat) : Bool :=
  match slotOf groups i with
  | none => true
  | some duplicate => decide (i = duplicate.representative)

theorem slotOf_some {duplicate : DuplicateSlot Boost} : slotOf groups i = some duplicate ↔
      ∃ slot, groups.byClause[i]? = some (some slot) ∧ groups.slots[slot]? = some duplicate := by
  unfold slotOf
  rw [getD_eq_getElem?_getD]
  cases groups.byClause[i]? with
  | none => simp
  | some => simp [Option.bind_eq_some_iff]

theorem Grouped.leader {last : Nat} (grouped : Grouped doc clauses groups last)
    (lt : i < clauses.length) : ∃ j < clauses.length, survives groups j = true ∧
      accepts doc (clauses.getD j .all) = accepts doc (clauses.getD i .all) := by
  cases here : slotOf groups i with
  | none => exact ⟨i, lt, by rw [survives, here], rfl⟩
  | some duplicate =>
    obtain ⟨slot, group, found⟩ := slotOf_some.mp here
    obtain ⟨-, first, there, many, same⟩ := grouped.members group
    cases found.symm.trans there
    have leader := grouped.leads found many
    have first := slotOf_some.mpr ⟨slot, leader, found⟩
    refine ⟨duplicate.representative, ?_, ?_, same.symm⟩
    · rw [← grouped.size]
      exact (List.getElem?_eq_some_iff.mp leader).1
    · simp [survives, first]

theorem merged_restates {core : Query Leaf Boost} {total : Boost}
    (peeled : peelScoringClause plan clause = .ok (core, total)) : Restates doc (match core with
      | .term leaf _ => .term leaf boost
      | core => scoringClause plan core boost) clause := by
  constructor
  · rw [← accepts_peeled plan peeled]
    cases core with
    | term => rfl
    | _ => exact accepts_scoring plan _ boost
  · intro keep hereditary kept
    have kept := hereditary.core clause kept
    rw [← peeled_core plan peeled] at kept
    cases core with
    | term => exact hereditary.term boost kept
    | _ => exact hereditary.scored kept boost

/-- What becomes of one clause: it is dropped, or a clause that restates it stands for it. -/
theorem merge_cons (ran : mergeEntries plan groups ((clause, i) :: entries) = .ok out) :
    survives groups i = false ∧ mergeEntries plan groups entries = .ok out ∨
    ∃ merged rest, out = merged :: rest ∧ Restates doc merged clause ∧
      mergeEntries plan groups entries = .ok rest := by
  change (match slotOf groups i with | none => _ | some duplicate => _) = _ at ran
  cases here : slotOf groups i with
  | none =>
    rw [here] at ran
    obtain ⟨rest, later, ran⟩ := bind_ok ran
    cases ran
    exact .inr ⟨clause, rest, rfl, .refl clause, later⟩
  | some =>
    rw [here] at ran
    dsimp only at ran
    split at ran
    case isTrue other => exact .inl ⟨by simp [survives, here, other], ran⟩
    case isFalse =>
      obtain ⟨⟨core, boost⟩, peeled, ran⟩ := bind_ok ran
      obtain ⟨rest, later, ran⟩ := bind_ok ran
      cases ran
      exact .inr ⟨_, rest, rfl, merged_restates peeled, later⟩

theorem merge_kept (ran : mergeEntries plan groups entries = .ok out) :
    (∀ clause ∈ out, ∃ entry ∈ entries, Restates doc clause entry.1) ∧
    ∀ entry ∈ entries, survives groups entry.2 = true →
      ∃ clause ∈ out, accepts doc clause = accepts doc entry.1 := by
  induction entries generalizing out with
  | nil =>
    cases ran
    simp
  | cons entry entries ih =>
    obtain ⟨clause, i⟩ := entry
    have step : _ ∨ ∃ merged rest, out = merged :: rest ∧ Restates doc merged clause ∧
        mergeEntries plan groups entries = .ok rest := merge_cons ran
    rcases step with ⟨dropped, later⟩ | ⟨merged, rest, rfl, restates, later⟩
    · obtain ⟨kept, covered⟩ := ih later
      constructor
      · intro found mem
        obtain ⟨entry, lt, eq⟩ := kept found mem
        exact ⟨entry, mem_cons_of_mem _ lt, eq⟩
      · intro entry mem lives
        rcases mem_cons.mp mem with rfl | mem
        · cases dropped.symm.trans lives
        · exact covered entry mem lives
    · obtain ⟨kept, covered⟩ := ih later
      constructor
      · intro found mem
        rcases mem_cons.mp mem with rfl | mem
        · exact ⟨(clause, i), mem_cons_self, restates⟩
        · obtain ⟨entry, lt, eq⟩ := kept found mem
          exact ⟨entry, mem_cons_of_mem _ lt, eq⟩
      · intro entry mem lives
        rcases mem_cons.mp mem with rfl | mem
        · exact ⟨merged, mem_cons_self, restates.same⟩
        · obtain ⟨found, lt, eq⟩ := covered entry mem lives
          exact ⟨found, mem_cons_of_mem _ lt, eq⟩

theorem zipIdx_getD :
    (clause, i) ∈ clauses.zipIdx ↔ i < clauses.length ∧ clauses.getD i .all = clause := by
  rw [mem_zipIdx_iff_getElem?, getD_eq_getElem?_getD]
  constructor
  · intro found
    exact ⟨(List.getElem?_eq_some_iff.mp found).1, by simp [found]⟩
  · rintro ⟨lt, rfl⟩
    simp [getElem?_eq_getElem lt]

theorem covers_of_survivors {last : Nat} (grouped : Grouped doc clauses groups last)
    (kept : ∀ clause ∈ out, ∃ entry ∈ clauses.zipIdx, Restates doc clause entry.1)
    (survivors : ∀ entry ∈ clauses.zipIdx, survives groups entry.2 = true →
      ∃ clause ∈ out, accepts doc clause = accepts doc entry.1) : Covers doc out clauses := by
  constructor
  · intro clause mem
    obtain ⟨⟨first, i⟩, lt, restates⟩ := kept clause mem
    exact ⟨first, fst_mem_of_mem_zipIdx lt, restates⟩
  intro clause mem
  obtain ⟨i, lt, here⟩ := mem_iff_getElem.mp mem
  obtain ⟨j, within, lives, same⟩ := grouped.leader lt
  obtain ⟨found, mem, eq⟩ :=
    survivors (clauses.getD j .all, j) (zipIdx_getD.mpr ⟨within, rfl⟩) lives
  refine ⟨found, mem, eq.trans (same.trans ?_)⟩
  rw [getD_eq_getElem _ _ lt, here]

variable (sound : Agrees plan doc)
include sound

theorem merge_covers {removed : Nat}
    (ran : mergeDuplicateScoringClauses plan clauses = .ok (out, removed)) :
    Covers doc out clauses ∧
    ((clauses.Pairwise fun first second => ¬ Duplicates plan first second) →
      out = clauses ∧ removed = 0) := by
  obtain ⟨groups, formed, ran⟩ := bind_ok ran
  obtain ⟨⟨last, grouped⟩, nodup⟩ := groups_spec sound formed
  split at ran
  case isTrue =>
    cases ran
    exact ⟨.refl _, fun _ => ⟨rfl, rfl⟩⟩
  case isFalse some =>
    obtain ⟨merged, each, ran⟩ := bind_ok ran
    cases ran
    obtain ⟨kept, survivors⟩ := merge_kept each
    exact ⟨covers_of_survivors grouped kept survivors, fun apart => absurd (nodup apart) some⟩

theorem drop_covers (ran : dropDuplicateMembershipClauses plan clauses = .ok out) :
    Covers doc out clauses := by
  obtain ⟨groups, formed, ran⟩ := bind_ok ran
  obtain ⟨⟨last, grouped⟩, -⟩ := groups_spec sound formed
  split at ran <;> cases ran
  case isTrue => exact .refl _
  case isFalse =>
    apply covers_of_survivors grouped
    · refine forall_mem_map.mpr fun entry lt => ?_
      exact ⟨entry, (mem_filter.mp lt).1, .refl _⟩
    · intro entry mem lives
      exact ⟨entry.1, mem_map_of_mem (mem_filter.mpr ⟨mem, lives⟩), rfl⟩

end Luxir.Queries.BooleanDuplicates
