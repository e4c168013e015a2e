import Luxir.Queries.BooleanInlining
import Mathlib.Data.List.Forall2

/-!
When inlining leaves no required clause. A required clause vanishes if it is a complement, or a
conjunction of clauses that vanish, below wrappers. If all of them do and there are optional
clauses, the query's own or those that a sole child gave to the plan, these are all that is left.
-/

namespace Luxir.Queries.BooleanStripping
open BooleanQuery BooleanMatching BooleanInlining List

variable {Leaf Boost : Type} {query : Query Leaf Boost}

def beneath (allowConstantScore : Bool) : Query Leaf Boost → Option (Clauses Leaf Boost)
  | .boost child _ => beneath allowConstantScore child
  | .constantScore child _ => if allowConstantScore then beneath allowConstantScore child else none
  | .boolean mandatory optional prohibited filter minShouldMatch =>
      some ⟨mandatory, optional, prohibited, filter, minShouldMatch⟩
  | .all => none
  | .term _ _ => none
  | .other _ => none

def isConjunction (inner : Clauses Leaf Boost) : Bool :=
  decide (inner.minShouldMatch = 0) && hasRequired inner

/-- A required clause of which only exclusions are left. Optional clauses keep a mandatory one
whole. -/
inductive Vanishes : Bool → Query Leaf Boost → Prop where
  | complement {isFilter : Bool} {clause : Query Leaf Boost} {inner : Clauses Leaf Boost}
      (found : beneath isFilter clause = some inner) (negative : isNegative inner = true) :
      Vanishes isFilter clause
  | conjunction {isFilter : Bool} {clause : Query Leaf Boost} {inner : Clauses Leaf Boost}
      (found : beneath isFilter clause = some inner) (conjoined : isConjunction inner = true)
      (bare : isFilter = false → inner.optional = [])
      (mandatory : ∀ required ∈ inner.mandatory, Vanishes isFilter required)
      (filter : ∀ required ∈ inner.filter, Vanishes true required) : Vanishes isFilter clause

/-- Mandatory clauses of which nothing is left but a sole child's optional clauses, which the child
gives away beside a filter (`seen`). -/
inductive Dissolves : Bool → List (Query Leaf Boost) → List (Query Leaf Boost) → Prop where
  | nil (seen : Bool) : Dissolves seen [] []
  | complement {seen : Bool} {clause : Query Leaf Boost} {rest optional : List (Query Leaf Boost)}
      {inner : Clauses Leaf Boost} (found : beneath false clause = some inner)
      (negative : isNegative inner = true) (next : Dissolves seen rest optional) :
      Dissolves seen (clause :: rest) optional
  | conjunction {seen : Bool} {clause : Query Leaf Boost} {rest optional : List (Query Leaf Boost)}
      {inner : Clauses Leaf Boost} (found : beneath false clause = some inner)
      (positive : isNegative inner = false) (conjoined : isConjunction inner = true)
      (bare : inner.optional = []) (filter : ∀ required ∈ inner.filter, Vanishes true required)
      (next : Dissolves (seen || !inner.filter.isEmpty) (inner.mandatory ++ rest) optional) :
      Dissolves seen (clause :: rest) optional
  | lift {clause : Query Leaf Boost} {inner : Clauses Leaf Boost}
      (found : beneath false clause = some inner) (positive : isNegative inner = false)
      (conjoined : isConjunction inner = true) (optionals : inner.optional ≠ [])
      (mandatory : ∀ required ∈ inner.mandatory, Vanishes false required)
      (filter : ∀ required ∈ inner.filter, Vanishes true required) :
      Dissolves true [clause] inner.optional

/-- A query whose required clauses vanish, and the optional clauses that are left. -/
inductive Stripped (query : Clauses Leaf Boost) : List (Query Leaf Boost) → Prop where
  | own (few : query.minShouldMatch < 1) (required : hasRequired query = true)
      (optionals : query.optional ≠ [])
      (mandatory : ∀ clause ∈ query.mandatory, Vanishes false clause)
      (filter : ∀ clause ∈ query.filter, Vanishes true clause) : Stripped query query.optional
  | lifted {optional : List (Query Leaf Boost)} (unbounded : query.minShouldMatch = 0)
      (bare : query.optional = [])
      (mandatory : Dissolves (!query.filter.isEmpty) query.mandatory optional)
      (filter : ∀ clause ∈ query.filter, Vanishes true clause) (optionals : optional ≠ []) :
      Stripped query optional

variable {optional : List (Query Leaf Boost)} {inner after : Clauses Leaf Boost} {boost : Boost}
  {size : Nat} {clause : Query Leaf Boost} {isFilter seen : Bool} {parents : Parents}
  {queries : List (Query Leaf Boost)}

section
variable {plan : Planning Leaf Boost}

theorem beneath_of_transparent {allow : Bool} {total : Boost} {out : Option (Clauses Leaf Boost)}
    (found : transparentBoolean plan allow query boost = .ok (out, total)) :
    beneath allow query = out := by
  fun_induction transparentBoolean plan allow query boost with
  | case1 => cases found
  | case2 child here boost product passed ih => rw [beneath, ih found]
  | case3 child score boost allowed ih => rw [beneath, if_pos allowed, ih found]
  | case4 child score boost refused =>
    cases found
    rw [beneath, if_neg refused]
  | case5 | case6 | case7 | case8 =>
    cases found
    rfl

theorem beneath_scoring (allow : Bool) (query : Query Leaf Boost) (boost : Boost) :
    beneath allow (scoringClause plan query boost) = beneath allow query := by
  unfold scoringClause
  split
  · rfl
  · rw [beneath]

theorem vanishes_congr {first second : Query Leaf Boost}
    (same : beneath isFilter first = beneath isFilter second) (vanishes : Vanishes isFilter first) :
    Vanishes isFilter second := by
  cases vanishes with
  | complement found negative => exact .complement (same ▸ found) negative
  | conjunction found conjoined bare mandatory filter =>
    exact .conjunction (same ▸ found) conjoined bare mandatory filter

theorem vanishes_scoring :
    Vanishes isFilter (scoringClause plan query boost) ↔ Vanishes isFilter query :=
  ⟨vanishes_congr (beneath_scoring isFilter query boost),
    vanishes_congr (beneath_scoring isFilter query boost).symm⟩

theorem vanishes_beneath (found : beneath isFilter clause = some inner) :
    Vanishes isFilter clause ↔ isNegative inner = true ∨
      isConjunction inner = true ∧ (isFilter = false → inner.optional = []) ∧
      (∀ required ∈ inner.mandatory, Vanishes isFilter required) ∧
      ∀ required ∈ inner.filter, Vanishes true required := by
  constructor
  · intro vanishes
    cases vanishes with
    | complement here negative =>
      cases found.symm.trans here
      exact .inl negative
    | conjunction here conjoined bare mandatory filter =>
      cases found.symm.trans here
      exact .inr ⟨conjoined, bare, mandatory, filter⟩
  · rintro (negative | ⟨conjoined, bare, mandatory, filter⟩)
    · exact .complement found negative
    · exact .conjunction found conjoined bare mandatory filter

theorem not_vanishes (found : beneath isFilter clause = none) : ¬ Vanishes isFilter clause := by
  intro vanishes
  cases vanishes with
  | complement here | conjunction here => cases found.symm.trans here

end

variable {planning : Planning Leaf Boost} {plan : Clauses Leaf Boost}
  {done rest : List (Query Leaf Boost)}

theorem inlines_filter (plan inner : Clauses Leaf Boost) (size : Nat) :
    inlines plan .filter size inner = isConjunction inner := by
  simp [inlines, isConjunction, Parents.isFilter]

theorem filter_stays (stays : Stays planning .filter plan size clause) :
    ¬ Vanishes true clause := by
  cases stays with
  | plain boost found => exact not_vanishes (beneath_of_transparent found)
  | boolean inner boost found pos whole =>
    have below : beneath true clause = some inner := beneath_of_transparent found
    rw [inlines_filter] at whole
    rw [vanishes_beneath below, pos, whole]
    simp

theorem filters_vanish (rewrites : Rewrites planning .filter plan done rest after) :
    after.mandatory = plan.mandatory ∧ after.optional = plan.optional ∧
    after.minShouldMatch = plan.minShouldMatch ∧
    (after.filter = [] ↔ done = [] ∧ ∀ clause ∈ rest, Vanishes true clause) := by
  induction rewrites with
  | nil => exact ⟨rfl, rfl, rfl, by simp [Clauses.withParents]⟩
  | keep stays next ih =>
    obtain ⟨mandatory, optional, num, empty⟩ := ih
    refine ⟨mandatory, optional, num, ?_⟩
    rw [empty]
    have whole := filter_stays stays
    simp [whole]
  | @complement plan after clause done rest inner boost found negative next ih =>
    obtain ⟨mandatory, optional, num, empty⟩ := ih
    refine ⟨mandatory, optional, num, ?_⟩
    have vanishes : Vanishes true clause := .complement (beneath_of_transparent found) negative
    rw [empty, forall_mem_cons]
    simp [vanishes]
  | @inline plan after clause done rest inner boost found pos inlined next ih =>
    obtain ⟨mandatory, optional, num, empty⟩ := ih
    refine ⟨mandatory, optional, num, ?_⟩
    have below : beneath true clause = some inner := beneath_of_transparent found
    rw [inlines_filter] at inlined
    rw [empty, forall_mem_cons, vanishes_beneath below, pos, inlined,
      replacement, forall_mem_append, forall_mem_append]
    simp

section

def Constrained (plan : Clauses Leaf Boost) : Prop := plan.optional ≠ [] ∨ plan.minShouldMatch ≠ 0

section
variable (constrained : Constrained plan)
include constrained

theorem not_lifted : liftRankOnlyOptionals plan .mandatory size inner = false := by
  rcases constrained with optionals | num
  · simp [liftRankOnlyOptionals, optionals]
  · simp [liftRankOnlyOptionals, num]

theorem inlines_constrained :
    inlines plan .mandatory size inner = (isConjunction inner && inner.optional.isEmpty) := by
  simp [inlines, not_lifted constrained, isConjunction, Parents.isFilter]

theorem absorb_constrained : absorb planning plan .mandatory size inner boost = { plan with
        filter := plan.filter ++ inner.filter
        prohibited := plan.prohibited ++ inner.prohibited } := by
  simp [absorb, not_lifted constrained]

theorem mandatory_stays (stays : Stays planning .mandatory plan size clause) :
    ¬ Vanishes false clause := by
  cases stays with
  | plain boost found => exact not_vanishes (beneath_of_transparent found)
  | boolean inner boost found pos whole =>
    have below : beneath false clause = some inner := beneath_of_transparent found
    rw [inlines_constrained constrained] at whole
    rw [vanishes_beneath below, pos]
    rintro (negative | ⟨conjoined, bare, -⟩)
    · cases negative
    · simp [conjoined, bare rfl] at whole

end

theorem mandatories_vanish (constrained : Constrained plan)
    (rewrites : Rewrites planning .mandatory plan done rest after) :
    after.optional = plan.optional ∧ after.minShouldMatch = plan.minShouldMatch ∧
    ((after.mandatory = [] ∧ ∀ clause ∈ after.filter, Vanishes true clause) ↔ done = [] ∧ (∀ clause
      ∈ rest, Vanishes false clause) ∧ ∀ clause ∈ plan.filter, Vanishes true clause) := by
  induction rewrites with
  | nil => exact ⟨rfl, rfl, by simp [Clauses.withParents]⟩
  | keep stays next ih =>
    obtain ⟨optional, num, empty⟩ := ih constrained
    refine ⟨optional, num, ?_⟩
    rw [empty]
    have whole := mandatory_stays constrained stays
    simp [whole]
  | @complement plan after clause done rest inner boost found negative next ih =>
    obtain ⟨optional, num, empty⟩ := ih constrained
    refine ⟨optional, num, ?_⟩
    have vanishes : Vanishes false clause := .complement (beneath_of_transparent found) negative
    rw [empty, forall_mem_cons]
    simp [vanishes]
  | @inline plan after clause done rest inner boost found pos inlined next ih =>
    have below : beneath false clause = some inner := beneath_of_transparent found
    rw [inlines_constrained constrained] at inlined
    rw [absorb_constrained constrained] at ih
    obtain ⟨optional, num, empty⟩ := ih constrained
    refine ⟨optional, num, ?_⟩
    simp only [Bool.and_eq_true, List.isEmpty_iff] at inlined
    rw [empty, forall_mem_cons, vanishes_beneath below, pos, inlined.1, inlined.2,
      replacement, forall_mem_append, forall_mem_append, forall_mem_map]
    simp only [vanishes_scoring]
    tauto

/-! A plan that may take optional clauses from a sole child. -/

variable {second first : List (Query Leaf Boost)}

abbrev SameBeneath (first second : List (Query Leaf Boost)) : Prop :=
  Forall₂ (fun one other => beneath false one = beneath false other) first second

theorem same_append (shared : List (Query Leaf Boost))
    (same : SameBeneath first second) : SameBeneath (shared ++ first) (shared ++ second) := by
  induction shared with
  | nil => exact same
  | cons clause rest ih => exact .cons rfl ih

theorem dissolves_congr (dissolves : Dissolves seen first optional)
    (same : SameBeneath first second) : Dissolves seen second optional := by
  induction dissolves generalizing second with
  | nil seen =>
    cases same
    exact .nil seen
  | complement found negative next ih =>
    cases same with
    | cons here others => exact .complement (here ▸ found) negative (ih others)
  | conjunction found pos conjoined bare filter next ih =>
    cases same with
    | cons here others =>
      exact .conjunction (here ▸ found) pos conjoined bare filter (ih (same_append _ others))
  | lift found pos conjoined ranked mandatory filter =>
    cases same with
    | cons here others =>
      cases others
      exact .lift (here ▸ found) pos conjoined ranked mandatory filter

theorem dissolves_scoring :
    Dissolves seen (queries.map (scoringClause planning · boost) ++ rest) optional ↔
      Dissolves seen (queries ++ rest) optional := by
  have same : SameBeneath (queries.map (scoringClause planning · boost)) queries := by
    rw [SameBeneath, forall₂_map_left_iff, forall₂_same]
    exact fun query _ => beneath_scoring false query boost
  have refl : SameBeneath rest rest := forall₂_same.mpr fun _ _ => rfl
  constructor
  · exact fun dissolves => dissolves_congr dissolves (rel_append same refl)
  · intro dissolves
    apply dissolves_congr dissolves (rel_append _ refl)
    exact same.flip.imp fun _ _ => Eq.symm

structure Free (plan : Clauses Leaf Boost) : Prop where
  bare : plan.optional = []
  unbounded : plan.minShouldMatch = 0

theorem lifts_free (free : Free plan) (unbounded : inner.minShouldMatch = 0) :
    liftRankOnlyOptionals plan .mandatory size inner = true ↔ size = 1 ∧ plan.filter ≠ [] := by
  simp [liftRankOnlyOptionals, free.bare, free.unbounded, unbounded, Parents.isFilter]

theorem inlines_free (free : Free plan) : inlines plan .mandatory size inner = true ↔
      isConjunction inner = true ∧ (inner.optional = [] ∨ size = 1 ∧ plan.filter ≠ []) := by
  simp only [inlines, isConjunction, Bool.and_eq_true, Bool.or_eq_true, decide_eq_true_eq,
    List.isEmpty_iff, Parents.isFilter, Bool.false_eq_true, false_or]
  constructor
  · rintro ⟨⟨unbounded, required⟩, bare | lifted⟩
    · exact ⟨⟨unbounded, required⟩, .inl bare⟩
    · exact ⟨⟨unbounded, required⟩, .inr ((lifts_free free unbounded).mp lifted)⟩
  · rintro ⟨⟨unbounded, required⟩, bare | lifted⟩
    · exact ⟨⟨unbounded, required⟩, .inl bare⟩
    · exact ⟨⟨unbounded, required⟩, .inr ((lifts_free free unbounded).mpr lifted)⟩

theorem absorb_bare (bare : inner.optional = []) :
    absorb planning plan .mandatory size inner boost = { plan with
        filter := plan.filter ++ inner.filter
        prohibited := plan.prohibited ++ inner.prohibited } := by
  simp [absorb, bare]

theorem seen_append (first second : List (Query Leaf Boost)) :
    (!(first ++ second).isEmpty) = (!first.isEmpty || !second.isEmpty) := by
  cases first <;> simp

/-- Once the plan has a child's optional clauses it takes no more. -/
theorem lifted_next (free : Free plan) (conjoined : isConjunction inner = true)
    (optionals : inner.optional ≠ []) (sole : size = 1) (seen : plan.filter ≠ [])
    (next : Rewrites planning .mandatory (absorb planning plan .mandatory size inner boost) done
      (replacement planning .mandatory inner boost ++ rest) after) :
    after.optional = inner.optional.map (scoringClause planning · boost) ∧
    ((after.mandatory = [] ∧ ∀ clause ∈ after.filter, Vanishes true clause) ↔
      done = [] ∧ ((∀ clause ∈ inner.mandatory, Vanishes false clause) ∧
        ∀ clause ∈ rest, Vanishes false clause) ∧ (∀ clause ∈ plan.filter, Vanishes true clause) ∧
        ∀ clause ∈ inner.filter, Vanishes true clause) := by
  simp only [isConjunction, Bool.and_eq_true, decide_eq_true_eq] at conjoined
  have lifted := (lifts_free free conjoined.1).mpr ⟨sole, seen⟩
  have taken : (absorb planning plan .mandatory size inner boost).optional =
      inner.optional.map (scoringClause planning · boost) := by
    simp [absorb, lifted, free.bare]
  have constrained : Constrained (absorb planning plan .mandatory size inner boost) := by
    left
    simpa [taken] using optionals
  obtain ⟨optional, -, empty⟩ := mandatories_vanish constrained next
  refine ⟨optional.trans taken, ?_⟩
  rw [empty, replacement, forall_mem_append, forall_mem_map, absorb, forall_mem_append]
  simp only [vanishes_scoring]

theorem dissolves_of_empty (free : Free plan)
    (rewrites : Rewrites planning .mandatory plan done rest after) (empty : after.mandatory = [])
    (filters : ∀ clause ∈ after.filter, Vanishes true clause) :
    done = [] ∧ (∀ clause ∈ plan.filter, Vanishes true clause) ∧
    ∃ optional boost, Dissolves (!plan.filter.isEmpty) rest optional ∧
      after.optional = optional.map (scoringClause planning · boost) := by
  induction rewrites with
  | nil =>
    refine ⟨empty, filters, [], planning.one, .nil _, ?_⟩
    simp [Clauses.withParents, free.bare]
  | keep stays next ih =>
    obtain ⟨cleared, -⟩ := ih free empty filters
    simp at cleared
  | @complement plan after clause done rest inner boost found negative next ih =>
    obtain ⟨cleared, vanish, optional, wrapped, dissolves, same⟩ :=
      ih ⟨free.bare, free.unbounded⟩ empty filters
    exact ⟨cleared, vanish, optional, wrapped,
      .complement (beneath_of_transparent found) negative dissolves, same⟩
  | @inline plan after clause done rest inner boost found pos inlined next ih =>
    have below := beneath_of_transparent found
    obtain ⟨conjoined, lifts⟩ := (inlines_free free).mp inlined
    by_cases bare : inner.optional = []
    · rw [absorb_bare bare] at ih
      obtain ⟨cleared, vanish, optional, wrapped, dissolves, same⟩ :=
        ih ⟨free.bare, free.unbounded⟩ empty filters
      rw [forall_mem_append] at vanish
      rw [seen_append, replacement, dissolves_scoring] at dissolves
      exact ⟨cleared, vanish.1, optional, wrapped,
        .conjunction below pos conjoined bare vanish.2 dissolves, same⟩
    · obtain ⟨sole, seen⟩ := lifts.resolve_left bare
      obtain ⟨same, left⟩ := lifted_next free conjoined bare sole seen next
      obtain ⟨cleared, ⟨mandatory, -⟩, vanish, more⟩ := left.mp ⟨empty, filters⟩
      have last : rest = [] := eq_nil_of_length_eq_zero (by omega)
      have flag : (!plan.filter.isEmpty) = true := by simpa using seen
      rw [last, flag]
      exact ⟨cleared, vanish, inner.optional, boost,
        .lift below pos conjoined bare mandatory more, same⟩

theorem dissolves_cons (dissolves : Dissolves seen (clause :: rest) optional) :
    ∃ inner, beneath false clause = some inner ∧
      (isNegative inner = true ∧ Dissolves seen rest optional ∨
      isNegative inner = false ∧ isConjunction inner = true ∧
        (∀ required ∈ inner.filter, Vanishes true required) ∧ (inner.optional = [] ∧
          Dissolves (seen || !inner.filter.isEmpty) (inner.mandatory ++ rest) optional ∨
        inner.optional ≠ [] ∧ seen = true ∧ rest = [] ∧ optional = inner.optional ∧
          ∀ required ∈ inner.mandatory, Vanishes false required)) := by
  cases dissolves with
  | complement found negative next => exact ⟨_, found, .inl ⟨negative, next⟩⟩
  | conjunction found pos conjoined bare filter next =>
    exact ⟨_, found, .inr ⟨pos, conjoined, filter, .inl ⟨bare, next⟩⟩⟩
  | lift found pos conjoined ranked mandatory filter =>
    exact ⟨_, found, .inr ⟨pos, conjoined, filter, .inr ⟨ranked, rfl, rfl, rfl, mandatory⟩⟩⟩

theorem empty_of_dissolves (free : Free plan)
    (rewrites : Rewrites planning .mandatory plan done rest after) (start : done = [])
    (dissolves : Dissolves (!plan.filter.isEmpty) rest optional)
    (filters : ∀ clause ∈ plan.filter, Vanishes true clause) :
    after.mandatory = [] ∧ (∀ clause ∈ after.filter, Vanishes true clause) ∧
    ∃ boost, after.optional = optional.map (scoringClause planning · boost) := by
  induction rewrites with
  | nil plan =>
    generalize (!plan.filter.isEmpty) = seen at dissolves
    cases dissolves
    refine ⟨start, filters, planning.one, ?_⟩
    simp [Clauses.withParents, free.bare]
  | @keep plan after clause done rest stays next ih =>
    exfalso
    obtain ⟨inner, below, shape⟩ := dissolves_cons dissolves
    cases stays with
    | plain boost found => cases below.symm.trans (beneath_of_transparent found)
    | boolean same boost found pos whole =>
      cases below.symm.trans (beneath_of_transparent found)
      rcases shape with ⟨negative, -⟩ | ⟨-, conjoined, -, ⟨bare, -⟩ | ⟨-, seen, last, -⟩⟩
      · cases negative.symm.trans pos
      · cases ((inlines_free free).mpr ⟨conjoined, .inl bare⟩).symm.trans whole
      · have sole : done.length + (rest.length + 1) = 1 := by simp [start, last]
        have filtered : plan.filter ≠ [] := by simpa using seen
        cases ((inlines_free free).mpr ⟨conjoined, .inr ⟨sole, filtered⟩⟩).symm.trans whole
  | @complement plan after clause done rest inner boost found negative next ih =>
    obtain ⟨same, below, shape⟩ := dissolves_cons dissolves
    cases below.symm.trans (beneath_of_transparent found)
    rcases shape with ⟨-, rest⟩ | ⟨pos, -⟩
    · exact ih ⟨free.bare, free.unbounded⟩ start rest filters
    · cases pos.symm.trans negative
  | @inline plan after clause done rest inner boost found pos inlined next ih =>
    obtain ⟨same, below, shape⟩ := dissolves_cons dissolves
    cases below.symm.trans (beneath_of_transparent found)
    rcases shape with ⟨negative, -⟩ |
      ⟨-, conjoined, more, ⟨bare, rest⟩ | ⟨ranked, seen, last, taken, mandatory⟩⟩
    · cases negative.symm.trans pos
    · rw [absorb_bare bare] at ih
      rw [← seen_append, ← dissolves_scoring] at rest
      exact ih ⟨free.bare, free.unbounded⟩ start rest (forall_mem_append.mpr ⟨filters, more⟩)
    · have filtered : plan.filter ≠ [] := by simpa using seen
      obtain ⟨same, left⟩ := lifted_next free conjoined ranked (by simp [start, last]) filtered next
      obtain ⟨empty, vanish⟩ := left.mpr ⟨start, ⟨mandatory, by simp [last]⟩, filters, more⟩
      exact ⟨empty, vanish, boost, taken ▸ same⟩

end

variable {doc : Leaf → Bool} {query mid : Clauses Leaf Boost}

def Occupied (plan : Clauses Leaf Boost) : Prop := hasRequired plan = true ∨ plan.prohibited ≠ []

theorem rewrites_occupied (rewrites : Rewrites planning parents plan done rest after)
    (occupied : Occupied (plan.withParents parents (done ++ rest))) : Occupied after := by
  induction rewrites with
  | nil => simpa using occupied
  | keep stays next ih => exact ih (by simpa using occupied)
  | complement found negative next ih =>
    have prohibits := (complement_shape negative).1
    cases parents <;> exact ih (.inr (by simp [Clauses.withParents, prohibits]))
  | inline found pos inlined next ih =>
    simp only [inlines, Bool.and_eq_true] at inlined
    have required := inlined.1.2
    apply ih
    left
    cases parents with
    | mandatory =>
      simp only [hasRequired, Bool.or_eq_true, Bool.not_eq_true', isEmpty_eq_false_iff]
        at required ⊢
      simp only [Clauses.withParents, replacement, absorb]
      rcases required with present | present
      · exact .inl (by simp [present])
      · exact .inr (by simp [present])
    | filter =>
      simp only [hasRequired, Bool.or_eq_true, Bool.not_eq_true', isEmpty_eq_false_iff]
        at required ⊢
      simp only [Clauses.withParents, replacement]
      rcases required with present | present
      all_goals exact .inr (by simp [present])

theorem rewrites_number (rewrites : Rewrites planning parents plan done rest after) :
    after.minShouldMatch = plan.minShouldMatch := by
  induction rewrites with
  | nil => cases parents <;> rfl
  | keep stays next ih | complement found negative next ih => exact ih
  | inline found pos inlined next ih =>
    rw [ih]
    cases parents <;> rfl

theorem dissolved_required (dissolves : Dissolves seen query.mandatory optional)
    (optionals : optional ≠ []) : hasRequired query = true := by
  cases here : query.mandatory with
  | cons => simp [hasRequired, here]
  | nil =>
    rw [here] at dissolves
    cases dissolves
    exact absurd rfl optionals

theorem admits_required (few : query.minShouldMatch < 1) (required : hasRequired query = true) :
    Admits doc query ↔ Required doc query := by
  simp [Admits, enough, Int.not_le.mpr few, required]

theorem admits_optional (few : plan.minShouldMatch < 1) (gone : hasRequired plan = false)
    (optionals : plan.optional ≠ []) :
    Admits doc plan ↔ Required doc plan ∧ ∃ clause ∈ plan.optional, accepts doc clause = true := by
  simp [Admits, enough, Int.not_le.mpr few, gone, optionals]

theorem rewrites_nothing (rewrites : Rewrites planning parents plan [] [] after)
    (same : plan.withParents parents [] = plan) : after = plan := by
  cases rewrites
  exact same

variable (first : Rewrites planning .mandatory query [] query.mandatory mid)
  (second : Rewrites planning .filter mid [] mid.filter plan)
include first second

theorem inlined_required (proper : Proper planning query.query) :
    Required doc plan ↔ Required doc query := by
  have tidy : Tidy planning mid := list_tidy first proper.tidy proper.tidy.mandatory
  have mandatory : Required doc mid ↔ Required doc query :=
    list_required proper.tidy.mandatory first
  have filter : Required doc plan ↔ Required doc mid := list_required tidy.filter second
  exact filter.trans mandatory

theorem stripped_plan (stripped : Stripped query optional) :
    plan.minShouldMatch < 1 ∧ hasRequired query = true ∧ hasRequired plan = false ∧
    plan.optional ≠ [] ∧ ((∃ clause ∈ plan.optional, accepts doc clause = true) ↔
      ∃ clause ∈ optional, accepts doc clause = true) := by
  obtain ⟨mandatories, optionals, num, filters⟩ := filters_vanish second
  cases stripped with
  | own few required ranked mandatory filter =>
    obtain ⟨same, numbers, left⟩ := mandatories_vanish (.inl ranked) first
    obtain ⟨cleared, vanish⟩ := left.mpr ⟨rfl, mandatory, filter⟩
    have bare : plan.filter = [] := filters.mpr ⟨rfl, vanish⟩
    refine ⟨by omega, required, ?_, ?_, ?_⟩
    · simp [hasRequired, mandatories, cleared, bare]
    · rwa [optionals, same]
    · rw [optionals, same]
  | lifted unbounded bare mandatory filter ranked =>
    obtain ⟨empty, vanish, boost, same⟩ :=
      empty_of_dissolves ⟨bare, unbounded⟩ first rfl mandatory filter
    have gone : plan.filter = [] := filters.mpr ⟨rfl, vanish⟩
    have numbers := rewrites_number first
    refine ⟨by omega, dissolved_required mandatory ranked, ?_, ?_, ?_⟩
    · simp [hasRequired, mandatories, empty, gone]
    · rw [optionals, same]
      simpa using ranked
    · rw [optionals, same]
      simp [accepts_scoring]

theorem plan_stripped (few : query.minShouldMatch < 1) (required : hasRequired query = true)
    (gone : hasRequired plan = false) (ranked : plan.optional ≠ []) :
    ∃ optional, Stripped query optional := by
  obtain ⟨mandatories, optionals, num, filters⟩ := filters_vanish second
  simp only [hasRequired, Bool.or_eq_false_iff, Bool.not_eq_false', List.isEmpty_iff] at gone
  have empty : mid.mandatory = [] := mandatories ▸ gone.1
  have vanish := (filters.mp gone.2).2
  rw [optionals] at ranked
  by_cases bare : query.optional = []
  · by_cases unbounded : query.minShouldMatch = 0
    · obtain ⟨-, filter, optional, boost, dissolves, same⟩ :=
        dissolves_of_empty ⟨bare, unbounded⟩ first empty vanish
      refine ⟨optional, .lifted unbounded bare dissolves filter ?_⟩
      rw [same] at ranked
      simpa using ranked
    · obtain ⟨same, -⟩ := mandatories_vanish (.inr unbounded) first
      exact absurd (same.trans bare) ranked
  · obtain ⟨-, -, left⟩ := mandatories_vanish (.inl bare) first
    obtain ⟨-, mandatory, filter⟩ := left.mp ⟨empty, vanish⟩
    exact ⟨query.optional, .own few required bare mandatory filter⟩

theorem inlined_nothing (gone : hasRequired query = false) : plan = query := by
  simp only [hasRequired, Bool.or_eq_false_iff, Bool.not_eq_false', List.isEmpty_iff] at gone
  rw [gone.1] at first
  have kept : mid = query := rewrites_nothing first (by rw [Clauses.withParents, ← gone.1])
  rw [kept, gone.2] at second
  exact rewrites_nothing second (by rw [Clauses.withParents, ← gone.2])

theorem whole_admits (proper : Proper planning query.query)
    (whole : ¬ ∃ optional, Stripped query optional) : Admits doc plan ↔ Admits doc query := by
  have same : Required doc plan ↔ Required doc query := inlined_required first second proper
  have num : plan.minShouldMatch = query.minShouldMatch :=
    (rewrites_number second).trans (rewrites_number first)
  by_cases few : query.minShouldMatch < 1
  · cases required : hasRequired query with
    | false => rw [inlined_nothing first second required]
    | true =>
      rw [admits_required few required, ← same]
      constructor
      · exact fun admits => admits.1
      intro accepted
      refine ⟨accepted, ?_⟩
      cases left : hasRequired plan with
      | true => simp [enough, num, Int.not_le.mpr few, left]
      | false =>
        have bare : plan.optional = [] := by
          by_contra ranked
          exact whole (plan_stripped first second few required left ranked)
        rcases rewrites_occupied second (rewrites_occupied first (.inl required)) with found | found
        · cases left.symm.trans found
        · simp [enough, num, Int.not_le.mpr few, bare, found]
  · have constrained : Constrained query := .inr (by omega)
    have optionals := (mandatories_vanish constrained first).1
    have kept : plan.optional = query.optional := (filters_vanish second).2.1.trans optionals
    simp [Admits, same, enough, num, Int.not_lt.mp few, kept]

/-- Inlining keeps what the clauses accept if and only if the optional clauses that are left of a
stripped query accept it too. -/
theorem inlined_admits (proper : Proper planning query.query) :
    (Admits doc plan ↔ Admits doc query) ↔
      ∀ optional, Stripped query optional → accepts doc query.query = true →
        ∃ clause ∈ optional, accepts doc clause = true := by
  have same : Required doc plan ↔ Required doc query := inlined_required first second proper
  rw [accepts_query]
  constructor
  · intro kept optional stripped admits
    obtain ⟨few, -, gone, optionals, any⟩ := stripped_plan first second stripped
    exact any.mp ((admits_optional few gone optionals).mp (kept.mpr admits)).2
  intro enough
  by_cases stripped : ∃ optional, Stripped query optional
  · obtain ⟨optional, stripped⟩ := stripped
    obtain ⟨few, required, gone, optionals, any⟩ := stripped_plan first second stripped
    have num : plan.minShouldMatch = query.minShouldMatch :=
      (rewrites_number second).trans (rewrites_number first)
    have admits : Admits doc query ↔ Required doc query := admits_required (num ▸ few) required
    rw [admits_optional few gone optionals, any, same]
    constructor
    · exact fun found => admits.mpr found.1
    · exact fun found => ⟨admits.mp found, enough optional stripped found⟩
  · exact whole_admits first second proper stripped

end Luxir.Queries.BooleanStripping
