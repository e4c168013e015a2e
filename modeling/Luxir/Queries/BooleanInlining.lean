import Luxir.Queries.BooleanMatching

/-!
Required children are inlined. What the required and the prohibited clauses accept together does not
change. The optional clauses are another matter: if all required clauses turn into exclusions, the
optional ones, which only ranked before, are left to constrain.
-/

namespace Luxir.Queries.BooleanInlining
open BooleanQuery BooleanMatching List Clauses

variable {Leaf Boost : Type} (planning : Planning Leaf Boost) {size : Nat}

def Duplicates (first second : Query Leaf Boost) : Prop :=
  equals planning (coreOf first) (coreOf second) = .ok true

structure Counted (plan : Clauses Leaf Boost) : Prop where
  bound : plan.minShouldMatch ≤ plan.optional.length
  distinct : 1 < plan.minShouldMatch → plan.optional.Pairwise fun first second =>
    ¬ Duplicates planning first second

inductive Everywhere (holds : Clauses Leaf Boost → Prop) : Query Leaf Boost → Prop where
  | all : Everywhere holds .all
  | term (leaf : Leaf) (boost : Boost) : Everywhere holds (.term leaf boost)
  | other (leaf : Leaf) : Everywhere holds (.other leaf)
  | boost {child : Query Leaf Boost} (boost : Boost) (below : Everywhere holds child) :
      Everywhere holds (.boost child boost)
  | constantScore {child : Query Leaf Boost} (score : Boost) (below : Everywhere holds child) :
      Everywhere holds (.constantScore child score)
  | boolean {mandatory optional prohibited filter : List (Query Leaf Boost)} {minShouldMatch : Int}
      (here : holds ⟨mandatory, optional, prohibited, filter, minShouldMatch⟩)
      (mandatories : ∀ clause ∈ mandatory, Everywhere holds clause)
      (optionals : ∀ clause ∈ optional, Everywhere holds clause)
      (prohibiteds : ∀ clause ∈ prohibited, Everywhere holds clause)
      (filters : ∀ clause ∈ filter, Everywhere holds clause) :
      Everywhere holds (.boolean mandatory optional prohibited filter minShouldMatch)

/-- No more optional clauses are asked for than there are, and there are no duplicates if more than
one is. -/
abbrev Proper : Query Leaf Boost → Prop := Everywhere (Counted planning)

variable {boost : Boost} {inner plan : Clauses Leaf Boost} {clause query : Query Leaf Boost}
  {parents : Parents} {clauses done rest : List (Query Leaf Boost)}

structure Keeps (keep : Query Leaf Boost → Prop) (plan : Clauses Leaf Boost) : Prop where
  mandatory : ∀ clause ∈ plan.mandatory, keep clause
  optional : ∀ clause ∈ plan.optional, keep clause
  prohibited : ∀ clause ∈ plan.prohibited, keep clause
  filter : ∀ clause ∈ plan.filter, keep clause

/-- A property that goes down to clauses and does not depend on boosts. -/
structure Hereditary (keep : Query Leaf Boost → Prop) : Prop where
  all : ∀ {query}, keep query → keep .all
  term : ∀ {leaf here} boost, keep (.term leaf here) → keep (.term leaf boost)
  boost : ∀ {child} boost, keep (.boost child boost) ↔ keep child
  constantScore : ∀ {child score}, keep (.constantScore child score) → keep child
  boolean : ∀ {clauses : Clauses Leaf Boost}, keep clauses.query → Keeps keep clauses

section
variable {planning} {doc : Leaf → Bool}

section
variable {keep : Query Leaf Boost → Prop} (hereditary : Hereditary keep)
include hereditary

theorem Hereditary.transparent {allow : Bool} {total : Boost} (kept : keep query)
    (found : transparentBoolean planning allow query boost = .ok (some inner, total)) :
    keep inner.query := by
  revert kept
  apply transparent_rule (motive := fun query => keep query → keep inner.query) planning found id
  · exact fun child here below kept => below ((hereditary.boost here).mp kept)
  · exact fun child score below kept => below (hereditary.constantScore kept)

theorem Hereditary.scored (kept : keep query) (boost : Boost) :
    keep (scoringClause planning query boost) := by
  unfold scoringClause
  split
  · exact kept
  · exact (hereditary.boost boost).mpr kept

theorem Hereditary.scoring (kept : ∀ clause ∈ clauses, keep clause) (boost : Boost) :
    ∀ clause ∈ clauses.map (scoringClause planning · boost), keep clause :=
  forall_mem_map.mpr fun clause found => hereditary.scored (kept clause found) boost

theorem Hereditary.core (query : Query Leaf Boost) (kept : keep query) : keep (coreOf query) := by
  cases query with
  | boost child here => exact Hereditary.core child ((hereditary.boost here).mp kept)
  | _ => exact kept

theorem Hereditary.replacement (kept : Keeps keep inner) :
    ∀ clause ∈ replacement planning parents inner boost, keep clause := by
  cases parents with
  | mandatory => exact hereditary.scoring kept.mandatory boost
  | filter => exact forall_mem_append.mpr ⟨kept.mandatory, kept.filter⟩

theorem Hereditary.absorb (planned : Keeps keep plan) (kept : Keeps keep inner) :
    Keeps keep (absorb planning plan parents size inner boost) := by
  have prohibited := forall_mem_append.mpr ⟨planned.prohibited, kept.prohibited⟩
  cases parents with
  | filter => exact ⟨planned.mandatory, planned.optional, prohibited, planned.filter⟩
  | mandatory =>
    refine ⟨planned.mandatory, forall_mem_append.mpr ⟨planned.optional, ?_⟩, prohibited,
      forall_mem_append.mpr ⟨planned.filter, kept.filter⟩⟩
    split
    · exact hereditary.scoring kept.optional boost
    · simp

end

theorem everywhere_hereditary {holds : Clauses Leaf Boost → Prop} :
    Hereditary (Everywhere holds) where
  all _ := .all
  term {leaf} _ boost _ := .term leaf boost
  boost boost := by
    constructor
    · intro everywhere
      cases everywhere with
      | boost _ below => exact below
    · exact .boost boost
  constantScore everywhere := by
    cases everywhere with
    | constantScore _ below => exact below
  boolean everywhere := by
    cases everywhere with
    | boolean _ mandatory optional prohibited filter =>
      exact ⟨mandatory, optional, prohibited, filter⟩

structure Tidy (planning : Planning Leaf Boost) (plan : Clauses Leaf Boost) : Prop extends
  Keeps (Proper planning) plan, Counted planning plan

theorem Proper.tidy (proper : Proper planning inner.query) : Tidy planning inner := by
  have keeps := everywhere_hereditary.boolean proper
  cases proper with
  | boolean counted => exact { keeps, counted with }

theorem Proper.transparent {allow : Bool} {total : Boost} (proper : Proper planning query)
    (found : transparentBoolean planning allow query boost = .ok (some inner, total)) :
    Tidy planning inner :=
  Proper.tidy (everywhere_hereditary.transparent proper found)

theorem isAll_accepts (all : query.isAll = true) : accepts doc query = true := by
  cases query with
  | all => rw [accepts]
  | _ => cases all

def isNegative (inner : Clauses Leaf Boost) : Bool := isPureNegative inner || isComplementForm inner

inductive Complement (inner : Clauses Leaf Boost) : Prop where
  | bare (mandatory : inner.mandatory = []) (optional : inner.optional = [])
  | optional (clause : Query Leaf Boost) (all : clause.isAll = true)
      (mandatory : inner.mandatory = []) (optional : inner.optional = [clause])
  | mandatory (clause : Query Leaf Boost) (all : clause.isAll = true)
      (mandatory : inner.mandatory = [clause]) (optional : inner.optional = [])

theorem sole_all (all : (match clauses with | [clause] => clause.isAll | _ => false) = true) :
    ∃ clause, clauses = [clause] ∧ clause.isAll = true := by
  split at all
  case h_1 clause => exact ⟨clause, rfl, all⟩
  case h_2 => cases all

theorem complement_shape (complement : isNegative inner = true) :
    inner.prohibited ≠ [] ∧ inner.filter = [] ∧ Complement inner := by
  simp only [isNegative, isPureNegative, isComplementForm, Bool.or_eq_true, Bool.and_eq_true,
    Bool.not_eq_true', List.isEmpty_iff, List.isEmpty_eq_false_iff, decide_eq_true_eq] at complement
  rcases complement with ⟨⟨⟨⟨mandatory, optional⟩, prohibits⟩, filter⟩, -⟩ |
    ⟨⟨⟨⟨mandatory, carrier⟩ | ⟨optional, carrier⟩, prohibits⟩, filter⟩, -⟩
  · exact ⟨prohibits, filter, .bare mandatory optional⟩
  · obtain ⟨clause, optional, all⟩ := sole_all carrier
    exact ⟨prohibits, filter, .optional clause all mandatory optional⟩
  · obtain ⟨clause, mandatory, all⟩ := sole_all carrier
    exact ⟨prohibits, filter, .mandatory clause all mandatory optional⟩

theorem complement_accepts (tidy : Tidy planning inner) (complement : isNegative inner = true) :
    accepts doc inner.query = true ↔ ∀ clause ∈ inner.prohibited, accepts doc clause = false := by
  have bound := tidy.bound
  have few : inner.optional = [] → ¬ 1 ≤ inner.minShouldMatch := by
    intro optional
    rw [optional, length_nil] at bound
    omega
  obtain ⟨prohibits, filter, shape⟩ := complement_shape complement
  rw [accepts_query]
  constructor
  · exact fun admits => admits.1.prohibited
  intro excluded
  cases shape with
  | bare mandatory optional =>
    exact ⟨⟨by simp [mandatory], by simp [filter], excluded⟩,
      by simp [enough, few optional, optional, prohibits]⟩
  | optional clause all mandatory optional =>
    have found : accepts doc clause = true := isAll_accepts all
    refine ⟨⟨by simp [mandatory], by simp [filter], excluded⟩, ?_⟩
    simpa [enough, optional, found] using Or.inr bound
  | mandatory clause all mandatory optional =>
    have found : accepts doc clause = true := isAll_accepts all
    exact ⟨⟨by simp [mandatory, found], by simp [filter], excluded⟩,
      by simp [enough, few optional, hasRequired, mandatory]⟩

theorem conjunction_accepts (unbounded : inner.minShouldMatch = 0)
    (conjoins : hasRequired inner = true) :
    accepts doc inner.query = true ↔ Required doc inner := by
  rw [accepts_query]
  constructor
  · exact fun admits => admits.1
  · intro required
    refine ⟨required, ?_⟩
    simp [enough, unbounded, conjoins]

/-! One step of the list keeps what the clauses accept. -/

theorem required_parents : Required doc (plan.withParents parents clauses) ↔
      (∀ clause ∈ clauses, accepts doc clause = true) ∧ (match parents with
        | .mandatory => ∀ clause ∈ plan.filter, accepts doc clause = true
        | .filter => ∀ clause ∈ plan.mandatory, accepts doc clause = true) ∧
      ∀ clause ∈ plan.prohibited, accepts doc clause = false := by
  rw [required_iff]
  cases parents with
  | mandatory => rfl
  | filter => exact and_left_comm

theorem complement_step (proper : Proper planning clause)
    (found : transparentBoolean planning parents.isFilter clause planning.one =
      .ok (some inner, boost))
    (complement : isNegative inner = true) :
    Required doc ({ plan with prohibited := plan.prohibited ++ inner.prohibited }.withParents parents
        (done ++ rest)) ↔ Required doc (plan.withParents parents (done ++ clause :: rest)) := by
  have accepted : accepts doc inner.query = true ↔ _ :=
    complement_accepts (proper.transparent found) complement
  rw [← accepts_transparent planning found] at accepted
  simp only [required_parents, forall_mem_append, forall_mem_cons, accepted]
  cases parents <;> dsimp only <;> tauto

theorem inline_step (found : transparentBoolean planning parents.isFilter clause planning.one =
      .ok (some inner, boost)) (inlined : inlines plan parents size inner = true) :
    Required doc ((absorb planning plan parents size inner boost).withParents parents
        (done ++ (replacement planning parents inner boost ++ rest))) ↔
      Required doc (plan.withParents parents (done ++ clause :: rest)) := by
  simp only [inlines, Bool.and_eq_true, decide_eq_true_eq] at inlined
  have accepted : accepts doc inner.query = true ↔ _ := conjunction_accepts inlined.1.1 inlined.1.2
  rw [← accepts_transparent planning found, required_iff] at accepted
  simp only [required_parents, forall_mem_append, forall_mem_cons, accepted]
  cases parents with
  | mandatory =>
    simp only [replacement, absorb, forall_mem_map, accepts_scoring, forall_mem_append]
    tauto
  | filter =>
    simp only [replacement, absorb, forall_mem_append]
    tauto

end

variable {planning} {doc : Leaf → Bool} {after : Clauses Leaf Boost}

inductive Stays (planning : Planning Leaf Boost) (parents : Parents) (plan : Clauses Leaf Boost)
    (size : Nat) (clause : Query Leaf Boost) : Prop where
  | plain (boost : Boost)
      (found : transparentBoolean planning parents.isFilter clause planning.one = .ok (none, boost))
  | boolean (inner : Clauses Leaf Boost) (boost : Boost)
      (found : transparentBoolean planning parents.isFilter clause planning.one =
        .ok (some inner, boost)) (positive : isNegative inner = false)
      (whole : inlines plan parents size inner = false)

inductive Rewrites (planning : Planning Leaf Boost) (parents : Parents) :
    Clauses Leaf Boost → List (Query Leaf Boost) → List (Query Leaf Boost) → Clauses Leaf Boost →
    Prop where
  | nil (plan : Clauses Leaf Boost) (done : List (Query Leaf Boost)) :
      Rewrites planning parents plan done [] (plan.withParents parents done)
  | keep {plan after : Clauses Leaf Boost} {clause : Query Leaf Boost}
      {done rest : List (Query Leaf Boost)}
      (stays : Stays planning parents plan (done.length + (rest.length + 1)) clause)
      (next : Rewrites planning parents plan (done ++ [clause]) rest after) :
      Rewrites planning parents plan done (clause :: rest) after
  | complement {plan after : Clauses Leaf Boost} {clause : Query Leaf Boost}
      {done rest : List (Query Leaf Boost)} {inner : Clauses Leaf Boost} {boost : Boost}
      (found : transparentBoolean planning parents.isFilter clause planning.one =
        .ok (some inner, boost)) (negative : isNegative inner = true)
      (next : Rewrites planning parents
        { plan with prohibited := plan.prohibited ++ inner.prohibited } done rest after) :
      Rewrites planning parents plan done (clause :: rest) after
  | inline {plan after : Clauses Leaf Boost} {clause : Query Leaf Boost}
      {done rest : List (Query Leaf Boost)} {inner : Clauses Leaf Boost} {boost : Boost}
      (found : transparentBoolean planning parents.isFilter clause planning.one =
        .ok (some inner, boost)) (positive : isNegative inner = false)
      (inlined : inlines plan parents (done.length + (rest.length + 1)) inner = true)
      (next : Rewrites planning parents (absorb planning plan parents (done.length + (rest.length +
        1)) inner boost) done (replacement planning parents inner boost ++ rest) after) :
      Rewrites planning parents plan done (clause :: rest) after

theorem list_rewrites (ran : normalizeRequiredList planning parents plan done rest = .ok after) :
    Rewrites planning parents plan done rest after := by
  fun_induction normalizeRequiredList planning parents plan done rest with
  | case1 plan done =>
    cases ran
    exact .nil plan done
  | case2 => cases ran
  | case3 plan done clause rest boost found ih =>
    exact .keep (.plain boost found) (ih ran)
  | case4 plan done clause rest inner boost found negative ih =>
    exact .complement found negative (ih ran)
  | case5 plan done clause rest inner boost found pos inlined ih =>
    exact .inline found (by simpa [isNegative] using pos) inlined (ih ran)
  | case6 plan done clause rest inner boost found pos whole ih =>
    exact .keep (.boolean inner boost found (by simpa [isNegative] using pos)
      (by simpa using whole)) (ih ran)

theorem list_required (proper : ∀ clause ∈ rest, Proper planning clause)
    (rewrites : Rewrites planning parents plan done rest after) :
    Required doc after ↔ Required doc (plan.withParents parents (done ++ rest)) := by
  induction rewrites with
  | nil => rw [append_nil]
  | keep stays next ih =>
    rw [ih (forall_mem_of_forall_mem_cons proper), append_assoc, singleton_append]
  | complement found negative next ih =>
    rw [ih (forall_mem_of_forall_mem_cons proper)]
    exact complement_step (forall_mem_cons.mp proper).1 found negative
  | inline found pos inlined next ih =>
    obtain ⟨first, others⟩ := forall_mem_cons.mp proper
    rw [ih (forall_mem_append.mpr ⟨everywhere_hereditary.replacement
      (first.transparent found).toKeeps, others⟩)]
    exact inline_step found inlined

theorem absorbed_counted (counted : Counted planning plan) :
    Counted planning (absorb planning plan parents size inner boost) := by
  cases parents with
  | filter => exact ⟨counted.bound, counted.distinct⟩
  | mandatory =>
    obtain ⟨bound, distinct⟩ := counted
    constructor
    · simp only [absorb, length_append]
      omega
    · intro many
      simp only [absorb] at many ⊢
      split
      case isTrue lifted =>
        simp only [liftRankOnlyOptionals, Bool.and_eq_true, decide_eq_true_eq] at lifted
        omega
      case isFalse =>
        rw [append_nil]
        exact distinct many

theorem rewrites_counted (rewrites : Rewrites planning parents plan done rest after)
    (counted : Counted planning plan) : Counted planning after := by
  induction rewrites with
  | nil => cases parents <;> exact ⟨counted.bound, counted.distinct⟩
  | keep stays next ih => exact ih counted
  | complement found negative next ih => exact ih ⟨counted.bound, counted.distinct⟩
  | inline found pos inlined next ih => exact ih (absorbed_counted counted)

theorem Hereditary.rewrites {keep : Query Leaf Boost → Prop} (hereditary : Hereditary keep)
    (rewrites : Rewrites planning parents plan done rest after) (planned : Keeps keep plan)
    (before : ∀ clause ∈ done, keep clause) (kept : ∀ clause ∈ rest, keep clause) :
    Keeps keep after := by
  induction rewrites with
  | nil =>
    cases parents with
    | mandatory => exact { planned with mandatory := before }
    | filter => exact { planned with filter := before }
  | keep stays next ih =>
    obtain ⟨here, others⟩ := forall_mem_cons.mp kept
    exact ih planned (forall_mem_append.mpr ⟨before, by simpa using here⟩) others
  | complement found negative next ih =>
    obtain ⟨here, others⟩ := forall_mem_cons.mp kept
    have inner := hereditary.boolean (hereditary.transparent here found)
    have prohibited := forall_mem_append.mpr ⟨planned.prohibited, inner.prohibited⟩
    exact ih { planned with prohibited := prohibited } before others
  | inline found pos inlined next ih =>
    obtain ⟨here, others⟩ := forall_mem_cons.mp kept
    have inner := hereditary.boolean (hereditary.transparent here found)
    exact ih (hereditary.absorb planned inner) before
      (forall_mem_append.mpr ⟨hereditary.replacement inner, others⟩)

theorem list_tidy (rewrites : Rewrites planning parents plan [] rest after)
    (tidy : Tidy planning plan) (proper : ∀ clause ∈ rest, Proper planning clause) :
    Tidy planning after :=
  { everywhere_hereditary.rewrites rewrites tidy.toKeeps (by simp) proper,
    rewrites_counted rewrites tidy.toCounted with }

end Luxir.Queries.BooleanInlining
