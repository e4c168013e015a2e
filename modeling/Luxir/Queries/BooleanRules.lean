import Luxir.Queries.BooleanInlining

/-!
The rules that follow inlining keep what a plan's clauses accept: a match-all goes only beside
another required clause, a disjunction is flattened only if one match is enough, and a sole required
disjunction is hoisted with the number that it asks for.
-/

namespace Luxir.Queries.BooleanRules
open BooleanQuery BooleanMatching BooleanInlining List

variable {Leaf Boost : Type} {planning : Planning Leaf Boost} {doc : Leaf → Bool}
  {plan after : Clauses Leaf Boost} {keep : Query Leaf Boost → Prop}

section
variable {done rest : List (Query Leaf Boost)} {others : Nat}

theorem sweep_sublist : (sweep others done rest).Sublist (done ++ rest) := by
  fun_induction sweep others done rest with
  | case1 => simp
  | case2 => exact List.Sublist.refl _
  | case3 done clause rest more all ih =>
    exact ih.trans (List.Sublist.append_left (sublist_cons_self clause rest) done)
  | case4 done clause rest more proper ih => simpa using ih

theorem sweep_accepts : (∀ clause ∈ sweep others done rest, accepts doc clause = true) ↔
      ∀ clause ∈ done ++ rest, accepts doc clause = true := by
  fun_induction sweep others done rest with
  | case1 => simp
  | case2 => rfl
  | case3 done clause rest more all ih =>
    have found : accepts doc clause = true := isAll_accepts all
    rw [ih, forall_mem_append, forall_mem_append, forall_mem_cons]
    simp [found]
  | case4 done clause rest more proper ih => rw [ih, append_assoc, singleton_append]

theorem sweep_some (remains : 1 ≤ others + (done ++ rest).length) :
    1 ≤ others + (sweep others done rest).length := by
  fun_induction sweep others done rest with
  | case1 => simpa using remains
  | case2 => exact remains
  | case3 done clause rest more all ih =>
    apply ih
    simp only [length_append]
    omega
  | case4 done clause rest more proper ih => exact ih (by simpa using remains)

theorem required_length :
    hasRequired plan = true ↔ 1 ≤ plan.mandatory.length + plan.filter.length := by
  simp only [hasRequired, Bool.or_eq_true, Bool.not_eq_true', isEmpty_eq_false_iff,
    ← length_pos_iff]
  omega

theorem eliminated_required : hasRequired (eliminateMatchAll plan) = hasRequired plan := by
  rw [Bool.eq_iff_iff, required_length, required_length]
  dsimp only [eliminateMatchAll]
  have filter : ∀ others, (sweep others [] plan.filter).length ≤ plan.filter.length :=
    fun others => sweep_sublist.length_le
  have mandatory : ∀ others, (sweep others [] plan.mandatory).length ≤ plan.mandatory.length :=
    fun others => sweep_sublist.length_le
  constructor
  · intro remains
    have kept := filter plan.mandatory.length
    have left := mandatory (sweep plan.mandatory.length [] plan.filter).length
    omega
  · intro remains
    have kept : 1 ≤ plan.mandatory.length + (sweep plan.mandatory.length [] plan.filter).length :=
      sweep_some remains
    have left : 1 ≤ (sweep plan.mandatory.length [] plan.filter).length +
        (sweep (sweep plan.mandatory.length [] plan.filter).length [] plan.mandatory).length :=
      sweep_some (by rw [nil_append]; omega)
    omega

theorem eliminated_admits : Admits doc (eliminateMatchAll plan) ↔ Admits doc plan := by
  have required : Required doc (eliminateMatchAll plan) ↔ Required doc plan := by
    constructor
    · exact fun accepted => ⟨sweep_accepts.mp accepted.1, sweep_accepts.mp accepted.2, accepted.3⟩
    · exact fun accepted => ⟨sweep_accepts.mpr accepted.1, sweep_accepts.mpr accepted.2, accepted.3⟩
  have same : ∀ count, enough (eliminateMatchAll plan) count = enough plan count := by
    intro count
    unfold enough
    rw [eliminated_required]
    rfl
  rw [Admits, required, same]
  rfl

theorem eliminated_keeps (keeps : Keeps keep plan) : Keeps keep (eliminateMatchAll plan) :=
  { keeps with
    mandatory := fun clause found => keeps.mandatory clause (sweep_sublist.subset found)
    filter := fun clause found => keeps.filter clause (sweep_sublist.subset found) }

theorem eliminated_tidy (tidy : Tidy planning plan) : Tidy planning (eliminateMatchAll plan) :=
  { eliminated_keeps tidy.toKeeps with
    bound := tidy.bound
    distinct := tidy.distinct }

end

variable {inner : Clauses Leaf Boost} {boost : Boost} {clause : Query Leaf Boost}

section
variable {done rest out : List (Query Leaf Boost)}

/-- Two clauses' worth of optional clauses: the same documents match one of them, and there are none
of the one only if there are none of the other. -/
structure SameUnion (doc : Leaf → Bool) (first second : List (Query Leaf Boost)) : Prop where
  any : (∃ clause ∈ first, accepts doc clause = true) ↔ ∃ clause ∈ second, accepts doc clause = true
  empty : first = [] ↔ second = []

theorem optional_of_only (only : onlyOptional inner = true) : inner.optional ≠ [] := by
  simp only [onlyOptional, Bool.and_eq_true, Bool.not_eq_true', isEmpty_eq_false_iff] at only
  exact only.1.1.1

theorem onlyOptional_admits (only : onlyOptional inner = true) :
    Admits doc inner ↔ max 1 inner.minShouldMatch ≤ inner.optional.countP (accepts doc) := by
  simp only [onlyOptional, Bool.and_eq_true, Bool.not_eq_true', isEmpty_eq_false_iff,
    List.isEmpty_iff] at only
  obtain ⟨⟨⟨optionals, mandatory⟩, prohibited⟩, filter⟩ := only
  have required : Required doc inner := ⟨by simp [mandatory], by simp [filter], by simp [prohibited]⟩
  rw [Admits, enough]
  simp only [required, true_and, hasRequired, mandatory, filter, prohibited]
  split
  case isTrue many =>
    rw [Int.max_eq_right many]
    simp
  case isFalse few =>
    rw [Int.max_eq_left (by omega)]
    simp only [isEmpty_nil, Bool.not_true, Bool.or_self, Bool.and_false, Bool.false_or,
      decide_eq_true_eq]
    omega

theorem disjunction_accepts (only : onlyOptional inner = true) (few : inner.minShouldMatch ≤ 1) :
    accepts doc inner.query = true ↔ ∃ clause ∈ inner.optional, accepts doc clause = true := by
  rw [accepts_query, onlyOptional_admits only, Int.max_eq_left few, ← countP_accepts]
  omega

theorem SameUnion.refl (clauses : List (Query Leaf Boost)) : SameUnion doc clauses clauses :=
  ⟨Iff.rfl, Iff.rfl⟩

theorem flatten_step
    (found : transparentBoolean planning false clause planning.one = .ok (some inner, boost))
    (flat : (onlyOptional inner && decide (inner.minShouldMatch ≤ 1)) = true) :
    SameUnion doc (done ++ (inner.optional.map (scoringClause planning · boost) ++ rest))
      (done ++ clause :: rest) := by
  simp only [Bool.and_eq_true, decide_eq_true_eq] at flat
  have accepted : accepts doc clause = true ↔
      ∃ clause ∈ inner.optional, accepts doc clause = true := by
    rw [accepts_transparent planning found]
    exact disjunction_accepts flat.1 flat.2
  constructor
  · constructor
    · rintro ⟨other, mem, matched⟩
      rcases mem_append.mp mem with mem | mem
      · exact ⟨other, mem_append_left _ mem, matched⟩
      rcases mem_append.mp mem with mem | mem
      · obtain ⟨part, within, rfl⟩ := mem_map.mp mem
        rw [accepts_scoring] at matched
        exact ⟨clause, by simp, accepted.mpr ⟨part, within, matched⟩⟩
      · exact ⟨other, by simp [mem], matched⟩
    · rintro ⟨other, mem, matched⟩
      rcases mem_append.mp mem with mem | mem
      · exact ⟨other, mem_append_left _ mem, matched⟩
      rcases mem_cons.mp mem with rfl | mem
      · obtain ⟨part, mem, matched⟩ := accepted.mp matched
        refine ⟨scoringClause planning part boost, ?_, ?_⟩
        · exact mem_append_right _ (mem_append_left _ (mem_map_of_mem mem))
        · rwa [accepts_scoring]
      · exact ⟨other, by simp [mem], matched⟩
  · simp [optional_of_only flat.1]

theorem flattenList_spec (ran : flattenList planning done rest = .ok out) :
    SameUnion doc out (done ++ rest) := by
  fun_induction flattenList planning done rest with
  | case1 =>
    cases ran
    rw [append_nil]
    exact .refl _
  | case2 => cases ran
  | case4 done clause rest inner boost found flat ih =>
    have same := ih ran
    have step : SameUnion doc _ (done ++ clause :: rest) := flatten_step found flat
    exact ⟨same.any.trans step.any, same.empty.trans step.empty⟩
  | case3 done clause rest boost found ih | case5 done clause rest inner boost found deep ih =>
    simpa using ih ran

theorem flattenList_keeps (hereditary : Hereditary keep)
    (kept : ∀ clause ∈ done ++ rest, keep clause)
    (ran : flattenList planning done rest = .ok out) : ∀ clause ∈ out, keep clause := by
  fun_induction flattenList planning done rest with
  | case1 =>
    cases ran
    simpa using kept
  | case2 => cases ran
  | case4 done clause rest inner boost found flat ih =>
    rw [forall_mem_append, forall_mem_cons] at kept
    have below := hereditary.boolean (hereditary.transparent kept.2.1 found)
    refine ih ?_ ran
    rw [forall_mem_append, forall_mem_append]
    exact ⟨kept.1, hereditary.scoring below.optional boost, kept.2.2⟩
  | case3 done clause rest boost found ih | case5 done clause rest inner boost found deep ih =>
    exact ih (by simpa using kept) ran

theorem optional_admits {optional : List (Query Leaf Boost)} (few : plan.minShouldMatch ≤ 1)
    (same : SameUnion doc optional plan.optional) :
    Admits doc { plan with optional := optional } ↔ Admits doc plan := by
  have required : Required doc { plan with optional := optional } ↔ Required doc plan := by
    rw [required_iff, required_iff]
  have count : 1 ≤ optional.countP (accepts doc) ↔ 1 ≤ plan.optional.countP (accepts doc) := by
    rw [countP_accepts, countP_accepts, same.any]
  have bare : optional.isEmpty = plan.optional.isEmpty := by
    rw [Bool.eq_iff_iff, List.isEmpty_iff, List.isEmpty_iff]
    exact same.empty
  rw [Admits, Admits, required]
  apply and_congr_right
  intro _
  unfold enough hasRequired
  dsimp only
  split
  case isTrue many =>
    have one : plan.minShouldMatch = 1 := by omega
    rw [one, decide_eq_true_eq, decide_eq_true_eq]
    omega
  case isFalse =>
    rw [bare]
    simp only [Bool.or_eq_true, decide_eq_true_eq, count]

theorem flattened_cases (ran : flattenDisjunctions planning plan = .ok after) : after = plan ∨
    ∃ optional, plan.minShouldMatch ≤ 1 ∧ flattenList planning [] plan.optional = .ok optional ∧
      after = { plan with optional := optional } := by
  unfold flattenDisjunctions at ran
  split at ran
  case isTrue =>
    cases ran
    exact .inl rfl
  case isFalse few =>
    obtain ⟨optional, flat, ran⟩ := bind_ok ran
    cases ran
    exact .inr ⟨optional, by omega, flat, rfl⟩

theorem flattened_admits (ran : flattenDisjunctions planning plan = .ok after) :
    Admits doc after ↔ Admits doc plan := by
  obtain rfl | ⟨optional, few, flat, rfl⟩ := flattened_cases ran
  · rfl
  · have same : SameUnion doc optional plan.optional := flattenList_spec flat
    exact optional_admits few same

theorem flattened_keeps (hereditary : Hereditary keep)
    (keeps : Keeps keep plan) (ran : flattenDisjunctions planning plan = .ok after) :
    Keeps keep after := by
  obtain rfl | ⟨optional, few, flat, rfl⟩ := flattened_cases ran
  · exact keeps
  · exact { keeps with optional := flattenList_keeps hereditary keeps.optional flat }

theorem flattened_tidy (tidy : Tidy planning plan)
    (ran : flattenDisjunctions planning plan = .ok after) : Tidy planning after := by
  have keeps := flattened_keeps everywhere_hereditary tidy.toKeeps ran
  obtain rfl | ⟨optional, few, flat, rfl⟩ := flattened_cases ran
  · exact tidy
  have same : SameUnion (fun _ => true) optional plan.optional := flattenList_spec flat
  have bound := tidy.bound
  refine { keeps with bound := ?_, distinct := fun many => absurd many (by dsimp only; omega) }
  by_cases bare : plan.optional = []
  · rw [bare] at bound
    rw [same.empty.mpr bare]
    exact bound
  · have pos := length_pos_iff.mpr (mt same.empty.mp bare)
    dsimp only
    omega

end

/-- A plan whose positive side is the disjunction that was its sole mandatory clause. -/
def hoisted (planning : Planning Leaf Boost) (plan inner : Clauses Leaf Boost) (boost : Boost) :
    Clauses Leaf Boost :=
  { plan with
    mandatory := []
    optional := inner.optional.map (scoringClause planning · boost)
    minShouldMatch := max 1 inner.minShouldMatch }

theorem hoisted_admits (tidy : Tidy planning plan) (bare : plan.optional = [])
    (sole : plan.mandatory = [clause])
    (found : transparentBoolean planning false clause planning.one = .ok (some inner, boost))
    (only : onlyOptional inner = true) :
    Admits doc (hoisted planning plan inner boost) ↔ Admits doc plan := by
  have few : ¬ 1 ≤ plan.minShouldMatch := by
    have bound := tidy.bound
    rw [bare] at bound
    simp only [length_nil] at bound
    omega
  have accepted : accepts doc clause = true ↔
      max 1 inner.minShouldMatch ≤ inner.optional.countP (accepts doc) := by
    rw [accepts_transparent planning found, accepts_query, onlyOptional_admits only]
  have count : (hoisted planning plan inner boost).optional.countP (accepts doc) =
      inner.optional.countP (accepts doc) := by
    rw [hoisted, countP_map]
    apply countP_congr
    intro part _
    simp [accepts_scoring]
  have asked : 1 ≤ (hoisted planning plan inner boost).minShouldMatch := by
    dsimp only [hoisted]
    omega
  rw [Admits, Admits, enough, if_pos asked, count, enough, if_neg few]
  simp only [hasRequired, sole, isEmpty_cons, Bool.not_false, Bool.true_or, and_true,
    decide_eq_true_eq]
  rw [hoisted, ← accepted]
  constructor
  · rintro ⟨required, matched⟩
    exact ⟨by simpa [sole] using matched, required.2, required.3⟩
  · intro required
    exact ⟨⟨by simp, required.2, required.3⟩, required.1 clause (by simp [sole])⟩

theorem coreOf_scoring (query : Query Leaf Boost) (boost : Boost) :
    coreOf (scoringClause planning query boost) = coreOf query := by
  unfold scoringClause
  split
  · rfl
  · rw [coreOf]

theorem hoisted_counted (counted : Counted planning inner) (only : onlyOptional inner = true) :
    Counted planning (hoisted planning plan inner boost) := by
  have pos := length_pos_iff.mpr (optional_of_only only)
  have bound := counted.bound
  constructor
  · simp only [hoisted, length_map]
    omega
  · intro many
    dsimp only [hoisted] at many ⊢
    rw [pairwise_map]
    apply (counted.distinct (by omega)).imp
    intro first second nodup
    rwa [Duplicates, coreOf_scoring, coreOf_scoring]

theorem hoisted_keeps (hereditary : Hereditary keep)
    (keeps : Keeps keep plan) (below : Keeps keep inner) :
    Keeps keep (hoisted planning plan inner boost) :=
  ⟨forall_mem_nil _, hereditary.scoring below.optional boost, keeps.prohibited, keeps.filter⟩

/-- A plan is left as it is, or its sole mandatory clause is hoisted and flattened. -/
theorem hoist_cases (ran : hoistDisjunction planning plan = .ok after) : after = plan ∨
    ∃ clause inner boost, plan.optional = [] ∧ plan.mandatory = [clause] ∧
      transparentBoolean planning false clause planning.one = .ok (some inner, boost) ∧
      onlyOptional inner = true ∧
      flattenDisjunctions planning (hoisted planning plan inner boost) = .ok after := by
  unfold hoistDisjunction at ran
  split at ran
  case h_2 =>
    cases ran
    exact .inl rfl
  case h_1 clause bare sole =>
    split at ran
    case h_1 => cases ran
    case h_2 =>
      cases ran
      exact .inl rfl
    case h_3 inner boost found =>
      split at ran
      case isFalse =>
        cases ran
        exact .inl rfl
      case isTrue only => exact .inr ⟨clause, inner, boost, bare, sole, found, only, ran⟩

theorem hoist_tidy (tidy : Tidy planning plan) (ran : hoistDisjunction planning plan = .ok after) :
    (Admits doc after ↔ Admits doc plan) ∧ Tidy planning after := by
  obtain rfl | ⟨clause, inner, boost, bare, sole, found, only, flat⟩ := hoist_cases ran
  · exact ⟨Iff.rfl, tidy⟩
  have below := (tidy.mandatory clause (by simp [sole])).transparent found
  have same : Admits doc after ↔ _ := flattened_admits flat
  exact ⟨same.trans (hoisted_admits tidy bare sole found only), flattened_tidy
    { hoisted_keeps everywhere_hereditary tidy.toKeeps below.toKeeps,
      hoisted_counted below.toCounted only with } flat⟩

theorem seeded_admits (tidy : Tidy planning plan) :
    Admits doc (seedComplement plan) ↔ Admits doc plan := by
  unfold seedComplement
  split
  case isFalse => rfl
  case isTrue alone =>
    simp only [Bool.and_eq_true, List.isEmpty_iff, Bool.not_eq_true', isEmpty_eq_false_iff]
      at alone
    obtain ⟨⟨⟨mandatory, optional⟩, filter⟩, prohibits⟩ := alone
    have few : ¬ 1 ≤ plan.minShouldMatch := by
      have bound := tidy.bound
      rw [optional] at bound
      simp only [length_nil] at bound
      omega
    rw [Admits, Admits, enough, enough, if_neg few, if_neg few]
    simp only [hasRequired, optional, mandatory]
    constructor
    all_goals rintro ⟨required, -⟩
    · exact ⟨⟨by simp [mandatory], required.2, required.3⟩, by simp [prohibits]⟩
    · exact ⟨⟨by simp [accepts], required.2, required.3⟩, by simp⟩

theorem single_admits {child : Query Leaf Boost} (single : singleChild planning plan = some child) :
    accepts doc child = true ↔ Admits doc plan := by
  unfold singleChild at single
  split at single
  case isFalse => cases single
  case isTrue alone =>
    simp only [Bool.and_eq_true, List.isEmpty_iff] at alone
    split at single
    case h_1 clause mandatory optional =>
      split at single <;> cases single
      case isTrue asked =>
        simp only [Bool.and_eq_true, decide_eq_true_eq] at asked
        rw [Admits, enough, if_neg (by omega)]
        constructor
        · intro matched
          exact ⟨⟨by simp [mandatory, matched], by simp [alone.2], by simp [alone.1]⟩,
            by simp [hasRequired, mandatory]⟩
        · intro admits
          exact admits.1.1 child (by simp [mandatory])
    case h_2 clause mandatory optional =>
      split at single <;> cases single
      case isTrue asked =>
        have only : onlyOptional plan = true := by
          simp [onlyOptional, optional, mandatory, alone.1, alone.2]
        rw [← accepts_query, disjunction_accepts only asked, optional]
        simp
    case h_3 => cases single

end Luxir.Queries.BooleanRules
