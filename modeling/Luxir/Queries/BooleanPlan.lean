import Luxir.Queries.BooleanDuplicates
import Luxir.Queries.BooleanStripping

/-!
The whole plan. It accepts what its query does, unless the query is stripped of its required
clauses.
-/

namespace Luxir.Queries.BooleanPlan
open BooleanQuery BooleanMatching BooleanInlining BooleanStripping BooleanRules BooleanDuplicates

variable {Leaf Boost : Type} {planning : Planning Leaf Boost} {doc : Leaf → Bool}

section
variable {query normalized : Clauses Leaf Boost}

theorem normalized_admits {child : Option (Query Leaf Boost)} (proper : Proper plan query.query)
    (ran : BooleanQuery.normalize plan query = .ok (normalized, child)) :
    ∃ mid inlined, Rewrites plan .mandatory query [] query.mandatory mid ∧
      Rewrites plan .filter mid [] mid.filter inlined ∧
      (∀ doc, Admits doc normalized ↔ Admits doc inlined) ∧
      (1 < normalized.minShouldMatch → normalized.optional.Pairwise fun first second =>
        ¬ Duplicates plan first second) ∧ child = singleChild plan normalized := by
  obtain ⟨mid, first, ran⟩ := bind_ok ran
  obtain ⟨inlined, second, ran⟩ := bind_ok ran
  obtain ⟨flat, third, ran⟩ := bind_ok ran
  obtain ⟨hoisted, fourth, ran⟩ := bind_ok ran
  cases ran
  have mandatory := list_rewrites first
  have filter := list_rewrites second
  have between : Tidy plan mid := list_tidy mandatory proper.tidy proper.tidy.mandatory
  have tidy := eliminated_tidy (list_tidy filter between between.filter)
  have flatTidy := flattened_tidy tidy third
  refine ⟨mid, inlined, mandatory, filter, ?_, ?_, rfl⟩
  · intro doc
    have keeps : (Admits doc hoisted ↔ Admits doc flat) ∧ Tidy plan hoisted :=
      hoist_tidy flatTidy fourth
    rw [seeded_admits keeps.2, keeps.1, flattened_admits third, eliminated_admits]
  · have keeps : (Admits (fun _ => true) hoisted ↔ _) ∧ Tidy plan hoisted :=
      hoist_tidy flatTidy fourth
    intro many
    unfold seedComplement at many ⊢
    split
    case isTrue alone =>
      simp only [Bool.and_eq_true, List.isEmpty_iff] at alone
      simp [alone.1.1.2]
    case isFalse whole =>
      rw [if_neg whole] at many
      exact keeps.2.distinct many

theorem covers_admits {plan : Clauses Leaf Boost}
    (mandatory : Covers doc plan.mandatory normalized.mandatory)
    (optional : Covers doc plan.optional normalized.optional)
    (prohibited : Covers doc plan.prohibited normalized.prohibited)
    (filter : Covers doc plan.filter normalized.filter)
    (num : plan.minShouldMatch = normalized.minShouldMatch)
    (same : 1 < normalized.minShouldMatch → plan.optional = normalized.optional) :
    Admits doc plan ↔ Admits doc normalized := by
  have required : Required doc plan ↔ Required doc normalized := by
    rw [required_iff, required_iff, mandatory.all true, filter.all true, prohibited.all false]
  have empty : ∀ {out clauses : List (Query Leaf Boost)}, Covers doc out clauses →
      out.isEmpty = clauses.isEmpty := by
    intro out clauses covers
    rw [Bool.eq_iff_iff, List.isEmpty_iff, List.isEmpty_iff]
    exact covers.empty_iff
  have count : 1 ≤ plan.optional.countP (accepts doc) ↔
      1 ≤ normalized.optional.countP (accepts doc) := by
    rw [countP_accepts, countP_accepts, optional.union.any]
  rw [Admits, Admits, required]
  apply and_congr_right
  intro _
  unfold enough hasRequired
  rw [num, empty mandatory, empty filter, empty optional, empty prohibited]
  split
  case isTrue asked =>
    by_cases many : 1 < normalized.minShouldMatch
    · rw [same many]
    · have one : normalized.minShouldMatch = 1 := by omega
      rw [one, decide_eq_true_eq, decide_eq_true_eq]
      omega
  case isFalse => simp only [Bool.or_eq_true, decide_eq_true_eq, count]

theorem compiled_admits {plan : Plan Leaf Boost} (sound : Agrees planning doc)
    (proper : Proper planning query.query) (ran : logicalPlan planning query = .ok plan) :
    ∃ mid inlined, Rewrites planning .mandatory query [] query.mandatory mid ∧
      Rewrites planning .filter mid [] mid.filter inlined ∧
      (PlanAdmits doc plan ↔ Admits doc inlined) := by
  obtain ⟨⟨normalized, child⟩, rules, ran⟩ := bind_ok ran
  obtain ⟨mid, inlined, first, second, keeps, nodup, single⟩ := normalized_admits proper rules
  refine ⟨mid, inlined, first, second, ?_⟩
  rw [← keeps doc]
  cases child with
  | some =>
    cases ran
    exact single_admits single.symm
  | none =>
    obtain ⟨⟨mandatory, _⟩, one, ran⟩ := bind_ok ran
    obtain ⟨⟨optional, removed⟩, two, ran⟩ := bind_ok ran
    obtain ⟨prohibited, three, ran⟩ := bind_ok ran
    obtain ⟨filter, four, ran⟩ := bind_ok ran
    cases ran
    obtain ⟨optionals, same⟩ := merge_covers sound two
    have num : minShouldMatchOf normalized.minShouldMatch normalized.optional.length removed
        optional.length = normalized.minShouldMatch := by
      unfold minShouldMatchOf
      by_cases many : 1 < normalized.minShouldMatch
      · rw [(same (nodup many)).2]
        simp
      · simp [many]
    exact covers_admits (merge_covers sound one).1 optionals (drop_covers sound three)
      (drop_covers sound four) num fun many => (same (nodup many)).1

end

/-! A query is refused only for a boost that is not finite. -/

section

def Returns {α : Type} (result : Except String α) : Prop := ∃ value, result = .ok value

theorem returns_ok {α : Type} (value : α) : Returns (.ok value) := ⟨value, rfl⟩

theorem returns_bind {α β : Type} {first : Except String α} {next : α → Except String β}
    (returns : Returns first) (later : ∀ value, Returns (next value)) : Returns (first >>= next) := by
  obtain ⟨value, rfl⟩ := returns
  exact later value

variable (finite : ∀ boost, planning.isFinite boost = true)
include finite

theorem product_ok (inherited here : Boost) :
    checkedBoostProduct planning inherited here = .ok (planning.product inherited here) := by
  rw [checkedBoostProduct, if_pos (finite _)]

theorem transparent_returns (allow : Bool) (query : Query Leaf Boost) (boost : Boost) :
    Returns (transparentBoolean planning allow query boost) := by
  fun_induction transparentBoolean planning allow query boost with
  | case1 child here boost message failed =>
    rw [product_ok finite] at failed
    cases failed
  | case2 child here boost product passed ih | case3 child score boost allowed ih => exact ih
  | case4 | case5 | case6 | case7 | case8 => exact returns_ok _

theorem list_returns (parents : Parents) (plan : Clauses Leaf Boost)
    (done rest : List (Query Leaf Boost)) :
    Returns (normalizeRequiredList planning parents plan done rest) := by
  fun_induction normalizeRequiredList planning parents plan done rest with
  | case1 => exact returns_ok _
  | case2 plan done clause rest message found =>
    obtain ⟨value, returned⟩ := transparent_returns finite parents.isFilter clause planning.one
    cases found.symm.trans returned
  | case3 | case4 | case5 | case6 => assumption

theorem flatten_returns (done rest : List (Query Leaf Boost)) :
    Returns (flattenList planning done rest) := by
  fun_induction flattenList planning done rest with
  | case1 => exact returns_ok _
  | case2 done clause rest message found =>
    obtain ⟨value, returned⟩ := transparent_returns finite false clause planning.one
    cases found.symm.trans returned
  | case3 | case4 | case5 => assumption

theorem disjunctions_return (plan : Clauses Leaf Boost) :
    Returns (flattenDisjunctions planning plan) := by
  unfold flattenDisjunctions
  split
  · exact returns_ok _
  · exact returns_bind (flatten_returns finite [] plan.optional) fun _ => returns_ok _

theorem hoist_returns (plan : Clauses Leaf Boost) : Returns (hoistDisjunction planning plan) := by
  unfold hoistDisjunction
  split
  case h_2 => exact returns_ok _
  case h_1 clause bare sole =>
    obtain ⟨⟨inner, boost⟩, found⟩ := transparent_returns finite false clause planning.one
    rw [found]
    cases inner with
    | none => exact returns_ok _
    | some =>
      dsimp only
      split
      · exact disjunctions_return finite _
      · exact returns_ok _

theorem normalize_returns (query : Clauses Leaf Boost) :
    Returns (BooleanQuery.normalize planning query) := by
  apply returns_bind (list_returns finite _ _ _ _)
  intro plan
  apply returns_bind (list_returns finite _ _ _ _)
  intro plan
  apply returns_bind (disjunctions_return finite _)
  intro plan
  exact returns_bind (hoist_returns finite _) fun _ => returns_ok _

theorem peel_returns (query : Query Leaf Boost) (boost : Boost) :
    Returns (peelBoost planning query boost) := by
  fun_induction peelBoost planning query boost with
  | case1 child here boost message failed | case3 leaf here boost message failed =>
    rw [product_ok finite] at failed
    cases failed
  | case2 child here boost product passed ih => exact ih
  | case4 | case5 => exact returns_ok _

theorem returns_peeled {query : Query Leaf Boost}
    (eq : ∀ core, Returns (equals planning query core)) (boost : Boost)
    (other : Query Leaf Boost) : Returns (do
      let (core, otherBoost) ← peelScoringClause planning other
      if planning.sameBits boost otherBoost then equals planning query core else .ok false) := by
  apply returns_bind (peel_returns finite other planning.one)
  intro peeled
  dsimp only
  split
  · exact eq _
  · exact returns_ok _

omit finite

mutual
theorem equals_returns (finite : ∀ boost, planning.isFinite boost = true)
    (query other : Query Leaf Boost) : Returns (equals planning query other) := by
  unfold equals
  split
  case h_4 child here other there =>
    rw [product_ok finite]
    exact same_returns finite child _ _
  case h_5 child score other otherScore =>
    split
    · exact equals_returns finite child other
    · exact returns_ok _
  case h_6 mandatory optional prohibited filter number mandatory2 optional2 prohibited2 filter2
      number2 =>
    split
    case isFalse => exact returns_ok _
    case isTrue =>
      apply returns_bind (sameList_returns finite mandatory mandatory2)
      intro same
      cases same with
      | false => exact returns_ok _
      | true =>
        apply returns_bind (sameList_returns finite optional optional2)
        intro same
        cases same with
        | false => exact returns_ok _
        | true =>
          apply returns_bind (sameList_returns finite prohibited prohibited2)
          intro same
          cases same with
          | false => exact returns_ok _
          | true => exact sameList_returns finite filter filter2
  all_goals exact returns_ok _
termination_by (sizeOf query, 0)

theorem same_returns (finite : ∀ boost, planning.isFinite boost = true) (query : Query Leaf Boost)
    (boost : Boost) (other : Query Leaf Boost) :
    Returns (sameScoringClause planning query boost other) := by
  unfold sameScoringClause
  split
  case h_1 child here =>
    rw [product_ok finite]
    exact same_returns finite child _ other
  case h_2 leaf here =>
    rw [product_ok finite]
    exact returns_peeled finite (equals_returns finite (.term leaf here)) _ other
  case h_3 => exact returns_peeled finite (equals_returns finite query) boost other
termination_by (sizeOf query, 1)
decreasing_by all_goals (subst_vars; decreasing_tactic)

theorem sameList_returns (finite : ∀ boost, planning.isFinite boost = true) :
    ∀ queries others : List (Query Leaf Boost), Returns (sameList planning queries others)
  | [], others | query :: rest, [] => by
    rw [sameList]
    · exact returns_ok _
    · simp
  | query :: rest, other :: others => by
    rw [sameList]
    apply returns_bind (same_returns finite query planning.one other)
    intro same
    cases same with
    | false => exact returns_ok _
    | true => exact sameList_returns finite rest others
termination_by queries => (sizeOf queries, 0)
end

include finite

section
variable (clauses : List (Query Leaf Boost))
include clauses

variable (sumBoosts : Bool)

theorem join_returns (groups : DuplicateGroups Boost) (entry : Query Leaf Boost × Nat) :
    Returns (joinSlot planning clauses sumBoosts groups entry) := by
  apply returns_bind (peel_returns finite entry.1 planning.one)
  intro peeled
  dsimp only
  split
  · exact returns_ok _
  split
  · exact returns_ok _
  apply returns_bind (peel_returns finite _ planning.one)
  intro representative
  apply returns_bind (equals_returns finite _ _)
  intro eq
  cases eq with
  | false => exact returns_ok _
  | true =>
    simp only [finite, Bool.not_true, Bool.and_false, Bool.false_eq_true, if_false]
    exact returns_ok _

theorem fold_returns (entries : List (Query Leaf Boost × Nat)) (groups : DuplicateGroups Boost) :
    Returns (entries.foldlM (joinSlot planning clauses sumBoosts) groups) := by
  induction entries generalizing groups with
  | nil => exact returns_ok _
  | cons entry entries ih =>
    rw [List.foldlM_cons]
    exact returns_bind (join_returns finite clauses sumBoosts groups entry) ih

theorem find_returns : Returns (findDuplicateGroups planning clauses sumBoosts) := by
  unfold findDuplicateGroups
  split
  · exact returns_ok _
  · exact fold_returns finite clauses sumBoosts _ _

end

theorem entries_return (groups : DuplicateGroups Boost) (entries : List (Query Leaf Boost × Nat)) :
    Returns (mergeEntries planning groups entries) := by
  induction entries with
  | nil => exact returns_ok _
  | cons entry entries ih =>
    obtain ⟨clause, i⟩ := entry
    rw [mergeEntries]
    split
    · exact returns_bind ih fun _ => returns_ok _
    split
    · exact ih
    · apply returns_bind (peel_returns finite clause planning.one)
      intro peeled
      exact returns_bind ih fun _ => returns_ok _

variable (clauses : List (Query Leaf Boost))

theorem merge_returns : Returns (mergeDuplicateScoringClauses planning clauses) := by
  apply returns_bind (find_returns finite clauses true)
  intro groups
  split
  · exact returns_ok _
  · exact returns_bind (entries_return finite groups _) fun _ => returns_ok _

theorem drop_returns : Returns (dropDuplicateMembershipClauses planning clauses) := by
  apply returns_bind (find_returns finite clauses false)
  intro groups
  split <;> exact returns_ok _

theorem plan_returns (query : Clauses Leaf Boost) : Returns (logicalPlan planning query) := by
  apply returns_bind (normalize_returns finite query)
  intro normalized
  dsimp only
  split
  · exact returns_ok _
  apply returns_bind (merge_returns finite _)
  intro mandatory
  apply returns_bind (merge_returns finite _)
  intro optional
  apply returns_bind (drop_returns finite _)
  intro prohibited
  exact returns_bind (drop_returns finite _) fun _ => returns_ok _

end

theorem compiled_accepts {plan : Plan Leaf Boost} {query : Clauses Leaf Boost}
    (sound : Agrees planning doc)
    (proper : Proper planning query.query) (compiled : logicalPlan planning query = .ok plan) :
    (PlanAdmits doc plan ↔ accepts doc query.query = true) ↔
      ∀ optional, Stripped query optional → accepts doc query.query = true →
        ∃ clause ∈ optional, accepts doc clause = true := by
  obtain ⟨middle, inlined, first, second, same⟩ := compiled_admits sound proper compiled
  rw [same, ← inlined_admits first second proper]
  rw [accepts_query]

/-- A plan accepts what its query does if and only if the optional clauses that are left of a
stripped query accept it as well. -/
theorem plan_accepts_iff {Doc : Type} (planning : Planning Leaf Boost) (docs : Doc → Leaf → Bool)
    (sound : ∀ leaf other, planning.equalLeaves leaf other = true →
      ∀ doc, docs doc leaf = docs doc other)
    (query : Clauses Leaf Boost) (proper : Proper planning query.query) :
    ((∀ boost, planning.isFinite boost = true) → ∃ plan, logicalPlan planning query = .ok plan) ∧
    ∀ plan, logicalPlan planning query = .ok plan →
      ((∀ doc, PlanAdmits (docs doc) plan ↔ accepts (docs doc) query.query = true) ↔
        ∀ optional, Stripped query optional → ∀ doc, accepts (docs doc) query.query = true →
          ∃ clause ∈ optional, accepts (docs doc) clause = true) := by
  refine ⟨fun finite => plan_returns finite query, fun plan compiled => ?_⟩
  have each := fun doc =>
    compiled_accepts (fun leaf other equal => sound leaf other equal doc) proper compiled
  constructor
  · exact fun all optional stripped doc => (each doc).mp (all doc) optional stripped
  · exact fun all doc => (each doc).mpr fun optional stripped => all optional stripped doc

def numbered : Planning Nat Unit where
  one := ()
  isOne _ := true
  product _ _ := ()
  sum _ _ := ()
  isFinite _ := true
  sameBits _ _ := true
  equalLeaves leaf other := leaf == other
  hash _ := 0
  autoUniform _ := false

def ranked : Clauses Nat Unit := ⟨[.other 0], [.other 1], [], [], 0⟩

theorem ranked_proper : Proper numbered ranked.query :=
  .boolean ⟨by decide, fun many => absurd many (by decide)⟩ (by simp [ranked, Everywhere.other])
    (by simp [ranked, Everywhere.other]) (by simp [ranked]) (by simp [ranked])

theorem plan_accepts_ranked : ∃ plan, logicalPlan numbered ranked = .ok plan ∧
    ∀ doc : Nat → Bool, PlanAdmits doc plan ↔ accepts doc ranked.query = true := by
  have result := plan_accepts_iff numbered id (fun leaf other equal doc => by
    rw [show leaf = other by simpa [numbered] using equal]) ranked ranked_proper
  obtain ⟨plan, compiled⟩ := result.1 fun _ => rfl
  refine ⟨plan, compiled, (result.2 plan compiled).mpr ?_⟩
  intro optional stripped
  cases stripped with
  | own few required optionals mandatory =>
    exact absurd (mandatory (.other 0) (by simp [ranked])) (not_vanishes rfl)
  | lifted unbounded bare => cases bare

/-- A complement is the only mandatory clause beside an optional one. -/
def complementing (optional excluded : Leaf) : Clauses Leaf Boost :=
  ⟨[.boolean [] [] [.other excluded] [] 0], [.other optional], [], [], 0⟩

theorem complementing_plan (planning : Planning Leaf Boost) (optional excluded : Leaf) :
    logicalPlan planning (complementing optional excluded) =
      .ok ⟨⟨[], [.other optional], [.other excluded], [], 0⟩, none⟩ := by
  have stripped : normalizeRequiredList planning .mandatory (complementing optional excluded) []
      [.boolean [] [] [.other excluded] [] 0] =
      .ok ⟨[], [.other optional], [.other excluded], [], 0⟩ := by
    simp [complementing, transparentBoolean, isPureNegative, normalizeRequiredList,
      Clauses.withParents]
  have unfiltered : normalizeRequiredList planning .filter
      ⟨[], [.other optional], [.other excluded], [], 0⟩ [] [] =
      .ok ⟨[], [.other optional], [.other excluded], [], 0⟩ := by
    rw [normalizeRequiredList]
    rfl
  have flat : flattenList planning [] [.other optional] = .ok [.other optional] := by
    simp [transparentBoolean, flattenList]
  have normal : BooleanQuery.normalize planning (complementing optional excluded) =
      .ok (⟨[], [.other optional], [.other excluded], [], 0⟩, none) := by
    change (normalizeRequiredList planning .mandatory _ [] [_] >>= _) = _
    rw [stripped]
    change (normalizeRequiredList planning .filter _ [] [] >>= _) = _
    rw [unfiltered]
    change (flattenList planning [] [.other optional] >>= _) >>= _ = _
    rw [flat]
    rfl
  rw [logicalPlan, normal]
  rfl

def complemented : Clauses Nat Unit := complementing 0 1

/-- A document that matches neither leaf is accepted by the query, but not by its plan. -/
theorem complement_lost : ∃ plan, logicalPlan numbered complemented = .ok plan ∧
    accepts (fun _ => false) complemented.query = true ∧ ¬ PlanAdmits (fun _ => false) plan := by
  refine ⟨_, complementing_plan numbered 0 1, by decide, ?_⟩
  intro admits
  cases admits.2

end Luxir.Queries.BooleanPlan
