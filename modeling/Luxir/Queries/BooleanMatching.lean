import Luxir.Queries.BooleanQuery

/-!
The documents that a query accepts. A document is given by the leaves that it matches. Wrappers do
not change what is accepted, and queries that compare equal accept the same documents.
-/

namespace Luxir.Queries.BooleanMatching
open BooleanQuery

variable {Leaf Boost : Type} {total : Boost}

/-- The optional clauses are enough when `count` of them match. They constrain if a number is asked
for, or if no clause is required; exclusions alone need none. -/
def enough (clauses : Clauses Leaf Boost) (count : Nat) : Bool :=
  if 1 ≤ clauses.minShouldMatch then decide (clauses.minShouldMatch ≤ count)
  else hasRequired clauses || (clauses.optional.isEmpty && !clauses.prohibited.isEmpty) ||
    decide (1 ≤ count)

mutual
def accepts (doc : Leaf → Bool) : Query Leaf Boost → Bool
  | .all => true
  | .term leaf _ => doc leaf
  | .other leaf => doc leaf
  | .boost child _ => accepts doc child
  | .constantScore child _ => accepts doc child
  | .boolean mandatory optional prohibited filter minShouldMatch =>
      decide (matching doc mandatory = mandatory.length) &&
      decide (matching doc filter = filter.length) && decide (matching doc prohibited = 0) &&
      enough ⟨mandatory, optional, prohibited, filter, minShouldMatch⟩ (matching doc optional)

def matching (doc : Leaf → Bool) : List (Query Leaf Boost) → Nat
  | [] => 0
  | clause :: rest => (if accepts doc clause then 1 else 0) + matching doc rest
end

@[mk_iff]
structure Required (doc : Leaf → Bool) (clauses : Clauses Leaf Boost) : Prop where
  mandatory : ∀ clause ∈ clauses.mandatory, accepts doc clause = true
  filter : ∀ clause ∈ clauses.filter, accepts doc clause = true
  prohibited : ∀ clause ∈ clauses.prohibited, accepts doc clause = false

def Admits (doc : Leaf → Bool) (clauses : Clauses Leaf Boost) : Prop :=
  Required doc clauses ∧ enough clauses (clauses.optional.countP (accepts doc)) = true

def PlanAdmits (doc : Leaf → Bool) (plan : Plan Leaf Boost) : Prop :=
  match plan.singleChild with
  | some child => accepts doc child = true
  | none => Admits doc plan.clauses

variable {query : Query Leaf Boost} {boost : Boost} {doc : Leaf → Bool}

theorem matching_eq (clauses : List (Query Leaf Boost)) :
    matching doc clauses = clauses.countP (accepts doc) := by
  induction clauses with
  | nil => rw [matching, List.countP_nil]
  | cons clause rest ih => rw [matching, ih, List.countP_cons, Nat.add_comm]

theorem accepts_query (clauses : Clauses Leaf Boost) :
    accepts doc clauses.query = true ↔ Admits doc clauses := by
  rw [Clauses.query, accepts, Admits]
  simp only [matching_eq, Bool.and_eq_true, decide_eq_true_eq, List.countP_eq_length,
    List.countP_eq_zero]
  constructor
  · rintro ⟨⟨⟨mandatory, filter⟩, prohibited⟩, rest⟩
    exact ⟨⟨mandatory, filter, fun clause found => by simpa using prohibited clause found⟩, rest⟩
  · rintro ⟨required, rest⟩
    exact ⟨⟨⟨required.mandatory, required.filter⟩,
      fun clause found => by simp [required.prohibited clause found]⟩, rest⟩

theorem countP_accepts {clauses : List (Query Leaf Boost)} :
    1 ≤ clauses.countP (accepts doc) ↔ ∃ clause ∈ clauses, accepts doc clause = true := by
  simp [List.one_le_countP_iff]

variable (plan : Planning Leaf Boost)

theorem accepts_scoring (query : Query Leaf Boost) (boost : Boost) :
    accepts doc (scoringClause plan query boost) = accepts doc query := by
  unfold scoringClause
  split
  · rfl
  · rw [accepts]

theorem accepts_transparent {allow : Bool} {inner : Clauses Leaf Boost}
    (found : transparentBoolean plan allow query boost = .ok (some inner, total)) :
    accepts doc query = accepts doc inner.query := by
  apply transparent_rule (motive := (accepts doc · = accepts doc inner.query)) plan found rfl
  · intro child here same
    rw [accepts, same]
  · intro child score same
    rw [accepts, same]

def coreOf : Query Leaf Boost → Query Leaf Boost
  | .boost child _ => coreOf child
  | query => query

theorem peeled_core {query core : Query Leaf Boost}
    (peeled : peelBoost plan query boost = .ok (core, total)) : core = coreOf query := by
  fun_induction peelBoost plan query boost with
  | case1 | case3 => cases peeled
  | case2 child here boost product passed ih => rw [ih peeled, coreOf]
  | case4 =>
    cases peeled
    rfl
  | case5 query boost notBoost =>
    cases peeled
    cases core with
    | boost child here => exact (notBoost child here rfl).elim
    | _ => rfl

theorem accepts_core (query : Query Leaf Boost) : accepts doc (coreOf query) = accepts doc query := by
  cases query with
  | boost child =>
    rw [coreOf, accepts]
    exact accepts_core child
  | _ => rfl

theorem accepts_peeled {core : Query Leaf Boost}
    (peeled : peelBoost plan query boost = .ok (core, total)) :
    accepts doc core = accepts doc query := by
  rw [peeled_core plan peeled, accepts_core]

theorem isEmpty_of_length {α : Type} {first second : List α} (same : first.length = second.length) :
    first.isEmpty = second.isEmpty := by
  cases first <;> cases second <;> first | rfl | cases same

theorem bind_ok {α β : Type} {first : Except String α} {next : α → Except String β} {out : β}
    (done : (first >>= next) = .ok out) : ∃ value, first = .ok value ∧ next value = .ok out := by
  cases first with
  | error => cases done
  | ok value => exact ⟨value, rfl, done⟩

theorem same_core {other : Query Leaf Boost} (eq : (do
      let (core, otherBoost) ← peelScoringClause plan other
      if plan.sameBits boost otherBoost then equals plan query core else .ok false) =
        .ok true) : ∃ core total, peelScoringClause plan other = .ok (core, total) ∧
      equals plan query core = .ok true := by
  obtain ⟨⟨core, total⟩, peeled, eq⟩ := bind_ok eq
  dsimp only at eq
  split at eq
  · exact ⟨core, total, peeled, eq⟩
  · cases eq

/-- Leaves that compare equal match the same documents. -/
def Agrees (doc : Leaf → Bool) : Prop :=
  ∀ leaf other, plan.equalLeaves leaf other = true → doc leaf = doc other

mutual
theorem equals_accepts (same : Agrees plan doc) (query other : Query Leaf Boost)
    (eq : equals plan query other = .ok true) : accepts doc query = accepts doc other := by
  unfold equals at eq
  split at eq
  case h_1 => rfl
  case h_2 leaf boost other there =>
    rw [accepts, accepts]
    exact same leaf other (Except.ok.inj eq)
  case h_3 leaf other =>
    rw [accepts, accepts]
    exact same leaf other (Except.ok.inj eq)
  case h_4 child here other there =>
    split at eq
    case h_1 => cases eq
    case h_2 product passed =>
      rw [accepts]
      exact sameScoring_accepts same child product (.boost other there) eq
  case h_5 child score other otherScore =>
    split at eq
    case isTrue =>
      rw [accepts, accepts]
      exact equals_accepts same child other eq
    case isFalse => cases eq
  case h_6 mandatory optional prohibited filter num mandatory2 optional2 prohibited2 filter2
      number2 =>
    split at eq
    case isFalse => cases eq
    case isTrue sizes =>
      simp only [Bool.and_eq_true, decide_eq_true_eq] at sizes
      obtain ⟨⟨⟨⟨numbers, mandatories⟩, optionals⟩, prohibiteds⟩, filters⟩ := sizes
      obtain ⟨sameMandatory, firstList, eq⟩ := bind_ok eq
      cases sameMandatory with
      | false => cases eq
      | true =>
        obtain ⟨sameOptional, secondList, eq⟩ := bind_ok eq
        cases sameOptional with
        | false => cases eq
        | true =>
          obtain ⟨sameProhibited, thirdList, eq⟩ := bind_ok eq
          cases sameProhibited with
          | false => cases eq
          | true =>
            rw [accepts, accepts, sameList_matching same mandatory mandatory2 mandatories firstList,
              sameList_matching same optional optional2 optionals secondList,
              sameList_matching same prohibited prohibited2 prohibiteds thirdList,
              sameList_matching same filter filter2 filters eq, mandatories, filters]
            unfold enough hasRequired
            rw [numbers, isEmpty_of_length mandatories, isEmpty_of_length filters,
              isEmpty_of_length optionals, isEmpty_of_length prohibiteds]
  case h_7 => cases eq
termination_by (sizeOf query, 0)

theorem sameScoring_accepts (same : Agrees plan doc) (query : Query Leaf Boost) (boost : Boost)
    (other : Query Leaf Boost) (eq : sameScoringClause plan query boost other = .ok true) :
    accepts doc query = accepts doc other := by
  unfold sameScoringClause at eq
  split at eq
  case h_1 child here =>
    split at eq
    case h_1 => cases eq
    case h_2 product passed =>
      rw [accepts]
      exact sameScoring_accepts same child product other eq
  case h_2 leaf here =>
    split at eq
    case h_1 => cases eq
    case h_2 product passed =>
      obtain ⟨core, total, peeled, eq⟩ := same_core plan eq
      rw [equals_accepts same (.term leaf here) core eq, accepts_peeled plan peeled]
  case h_3 =>
    obtain ⟨core, total, peeled, eq⟩ := same_core plan eq
    rw [equals_accepts same query core eq, accepts_peeled plan peeled]
termination_by (sizeOf query, 1)
decreasing_by all_goals (subst_vars; decreasing_tactic)

theorem sameList_matching (same : Agrees plan doc) (queries others : List (Query Leaf Boost))
    (length : queries.length = others.length) (eq : sameList plan queries others = .ok true) :
    matching doc queries = matching doc others := by
  cases queries with
  | nil =>
    cases others with
    | nil => rfl
    | cons => cases length
  | cons query rest =>
    cases others with
    | nil => cases length
    | cons other others =>
      rw [sameList] at eq
      obtain ⟨sameFirst, first, eq⟩ := bind_ok eq
      cases sameFirst with
      | false => cases eq
      | true =>
        rw [matching, matching, sameScoring_accepts same query plan.one other first,
          sameList_matching same rest others (Nat.succ.inj length) eq]
termination_by (sizeOf queries, 0)
end

end Luxir.Queries.BooleanMatching
