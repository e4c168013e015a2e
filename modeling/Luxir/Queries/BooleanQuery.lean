import Mathlib.Data.List.Basic

/-!
Boolean queries and the plan they are compiled to. A plan has the query's clause lists, rewritten:
required children are inlined, match-alls beside other required clauses dropped, disjunctions
flattened and hoisted, a single clause unwrapped and duplicates removed. The arithmetic of boosts,
the leaves' comparison, the hashes and the score profiles are parameters.
-/

namespace Luxir.Queries.BooleanQuery

/-- A leaf that is not a match-all is an inverted term, which has a boost of its own, or another
query. -/
inductive Query (Leaf Boost : Type) where
  | all
  | term (leaf : Leaf) (boost : Boost)
  | other (leaf : Leaf)
  | boost (child : Query Leaf Boost) (boost : Boost)
  | constantScore (child : Query Leaf Boost) (score : Boost)
  | boolean (mandatory optional prohibited filter : List (Query Leaf Boost)) (minShouldMatch : Int)

structure Clauses (Leaf Boost : Type) where
  mandatory : List (Query Leaf Boost)
  optional : List (Query Leaf Boost)
  prohibited : List (Query Leaf Boost)
  filter : List (Query Leaf Boost)
  minShouldMatch : Int

structure Planning (Leaf Boost : Type) where
  one : Boost
  isOne : Boost → Bool
  product : Boost → Boost → Boost
  sum : Boost → Boost → Boost
  isFinite : Boost → Bool
  sameBits : Boost → Boost → Bool
  equalLeaves : Leaf → Leaf → Bool
  hash : Query Leaf Boost → UInt64
  autoUniform : Query Leaf Boost → Bool

variable {Leaf Boost : Type} {inner : Clauses Leaf Boost} {boost total : Boost} {allow : Bool}

def Clauses.query (clauses : Clauses Leaf Boost) : Query Leaf Boost :=
  .boolean clauses.mandatory clauses.optional clauses.prohibited clauses.filter
    clauses.minShouldMatch

namespace Query

def isAll : Query Leaf Boost → Bool
  | .all => true
  | _ => false

mutual
def weight : Query Leaf Boost → Nat
  | .all => 1
  | .term _ _ => 1
  | .other _ => 1
  | .boost child _ => weight child
  | .constantScore child _ => weight child
  | .boolean mandatory optional prohibited filter _ =>
      1 + weights mandatory + weights optional + weights prohibited + weights filter

def weights : List (Query Leaf Boost) → Nat
  | [] => 0
  | clause :: rest => weight clause + weights rest
end

end Query

variable (planning : Planning Leaf Boost)

def checkedBoostProduct (inherited here : Boost) : Except String Boost :=
  if planning.isFinite (planning.product inherited here) then
    .ok (planning.product inherited here)
  else .error "query boost product must be finite"

def transparentBoolean (allowConstantScore : Bool) :
    Query Leaf Boost → Boost → Except String (Option (Clauses Leaf Boost) × Boost)
  | .boost child here, boost =>
      match checkedBoostProduct planning boost here with
      | .error message => .error message
      | .ok boost => transparentBoolean allowConstantScore child boost
  | .constantScore child _, boost =>
      if allowConstantScore then transparentBoolean allowConstantScore child boost
      else .ok (none, boost)
  | .boolean mandatory optional prohibited filter minShouldMatch, boost =>
      .ok (some ⟨mandatory, optional, prohibited, filter, minShouldMatch⟩, boost)
  | .all, boost => .ok (none, boost)
  | .term _ _, boost => .ok (none, boost)
  | .other _, boost => .ok (none, boost)

/-- A product of boosts of queries is a boost that a query can have. -/
def scoringClause (query : Query Leaf Boost) (boost : Boost) : Query Leaf Boost :=
  if planning.isOne boost then query else .boost query boost

def isPureNegative (query : Clauses Leaf Boost) : Bool :=
  query.mandatory.isEmpty && query.optional.isEmpty && !query.prohibited.isEmpty &&
    query.filter.isEmpty && decide (query.minShouldMatch ≤ 1)

def isComplementForm (query : Clauses Leaf Boost) : Bool :=
  (query.mandatory.isEmpty && (match query.optional with | [clause] => clause.isAll | _ => false) ||
    query.optional.isEmpty && (match query.mandatory with | [clause] => clause.isAll | _ => false)) &&
  !query.prohibited.isEmpty && query.filter.isEmpty && decide (query.minShouldMatch ≤ 1)

def hasRequired (query : Clauses Leaf Boost) : Bool :=
  !query.mandatory.isEmpty || !query.filter.isEmpty

theorem weight_pos : ∀ query : Query Leaf Boost, 0 < query.weight
  | .all => Nat.one_pos
  | .term _ _ => Nat.one_pos
  | .other _ => Nat.one_pos
  | .boost child _ => weight_pos child
  | .constantScore child _ => weight_pos child
  | .boolean _ _ _ _ _ => by
    rw [Query.weight]
    omega

theorem weights_append (first second : List (Query Leaf Boost)) :
    Query.weights (first ++ second) = Query.weights first + Query.weights second := by
  induction first with
  | nil => simp [Query.weights]
  | cons clause rest ih =>
    rw [List.cons_append, Query.weights, ih, Query.weights, Nat.add_assoc]

theorem weights_scoring (queries : List (Query Leaf Boost)) (boost : Boost) :
    Query.weights (queries.map (scoringClause plan · boost)) = Query.weights queries := by
  induction queries with
  | nil => rfl
  | cons query rest ih =>
    rw [List.map_cons, Query.weights, ih, Query.weights]
    unfold scoringClause
    split <;> simp [Query.weight]

/-- What holds of a Boolean query holds of a query that is transparent to it, if wrappers keep it.
-/
theorem transparent_rule {motive : Query Leaf Boost → Prop} {query : Query Leaf Boost}
    (found : transparentBoolean planning allow query boost = .ok (some inner, total))
    (boolean : motive inner.query) (boosted : ∀ child here, motive child → motive (.boost child here))
    (constant : ∀ child score, motive child → motive (.constantScore child score)) :
    motive query := by
  fun_induction transparentBoolean planning allow query boost with
  | case2 child here boost product passed ih => exact boosted child here (ih found)
  | case3 child score boost allowed ih => exact constant child score (ih found)
  | case5 =>
    cases found
    exact boolean
  | case1 | case4 | case6 | case7 | case8 => cases found

theorem transparent_weight {query : Query Leaf Boost}
    (found : transparentBoolean planning allow query boost = .ok (some inner, total)) :
    query.weight = inner.query.weight := by
  apply transparent_rule (motive := fun query => query.weight = inner.query.weight) planning found rfl
  all_goals exact fun _ _ same => same

inductive Parents where
  | mandatory
  | filter
deriving DecidableEq

def Parents.isFilter : Parents → Bool
  | .mandatory => false
  | .filter => true

def Clauses.withParents (plan : Clauses Leaf Boost) (parents : Parents)
    (clauses : List (Query Leaf Boost)) : Clauses Leaf Boost :=
  match parents with
  | .mandatory => { plan with mandatory := clauses }
  | .filter => { plan with filter := clauses }

/-- A sole required child may give its rank-only optionals to the plan. -/
def liftRankOnlyOptionals (plan : Clauses Leaf Boost) (parents : Parents) (size : Nat)
    (inner : Clauses Leaf Boost) : Bool :=
  !parents.isFilter && decide (inner.minShouldMatch = 0) && decide (size = 1) &&
    !plan.filter.isEmpty && plan.optional.isEmpty && decide (plan.minShouldMatch = 0)

def inlines (plan : Clauses Leaf Boost) (parents : Parents) (size : Nat)
    (inner : Clauses Leaf Boost) : Bool :=
  decide (inner.minShouldMatch = 0) && hasRequired inner &&
    (parents.isFilter || (inner.optional.isEmpty || liftRankOnlyOptionals plan parents size inner))

def replacement (parents : Parents) (inner : Clauses Leaf Boost) (boost : Boost) :
    List (Query Leaf Boost) :=
  match parents with
  | .mandatory => inner.mandatory.map (scoringClause planning · boost)
  | .filter => inner.mandatory ++ inner.filter

def absorb (plan : Clauses Leaf Boost) (parents : Parents) (size : Nat)
    (inner : Clauses Leaf Boost) (boost : Boost) : Clauses Leaf Boost :=
  match parents with
  | .mandatory =>
      { plan with
        optional := plan.optional ++ (if liftRankOnlyOptionals plan parents size inner then
            inner.optional.map (scoringClause planning · boost) else [])
        filter := plan.filter ++ inner.filter
        prohibited := plan.prohibited ++ inner.prohibited }
  | .filter => { plan with prohibited := plan.prohibited ++ inner.prohibited }

theorem replacement_weight (parents : Parents) (inner : Clauses Leaf Boost) (boost : Boost) :
    Query.weights (replacement planning parents inner boost) < inner.query.weight := by
  cases parents with
  | mandatory =>
    rw [replacement, weights_scoring, Clauses.query, Query.weight]
    omega
  | filter =>
    rw [replacement, weights_append, Clauses.query, Query.weight]
    omega

/-- Goes through required clauses: `done` are those before the current one. -/
def normalizeRequiredList (parents : Parents) (plan : Clauses Leaf Boost)
    (done rest : List (Query Leaf Boost)) : Except String (Clauses Leaf Boost) :=
  match rest with
  | [] => .ok (plan.withParents parents done)
  | clause :: rest =>
      match _found : transparentBoolean planning parents.isFilter clause planning.one with
      | .error message => .error message
      | .ok (none, _) => normalizeRequiredList parents plan (done ++ [clause]) rest
      | .ok (some inner, boost) =>
          if isPureNegative inner || isComplementForm inner then
            normalizeRequiredList parents
              { plan with prohibited := plan.prohibited ++ inner.prohibited } done rest
          else if inlines plan parents (done.length + (rest.length + 1)) inner then
            normalizeRequiredList parents
              (absorb planning plan parents (done.length + (rest.length + 1)) inner boost) done
              (replacement planning parents inner boost ++ rest)
          else normalizeRequiredList parents plan (done ++ [clause]) rest
termination_by Query.weights rest
decreasing_by
  all_goals rw [Query.weights]
  · exact Nat.lt_add_of_pos_left (weight_pos clause)
  · exact Nat.lt_add_of_pos_left (weight_pos clause)
  · rw [weights_append, transparent_weight planning _found]
    exact Nat.add_lt_add_right (replacement_weight planning parents inner boost) _
  · exact Nat.lt_add_of_pos_left (weight_pos clause)

/-- Drops match-alls while there is another required clause; `others` are in the other list. -/
def sweep (others : Nat) (done : List (Query Leaf Boost)) :
    List (Query Leaf Boost) → List (Query Leaf Boost)
  | [] => done
  | clause :: rest =>
      if others + (done.length + (rest.length + 1)) ≤ 1 then done ++ clause :: rest
      else if clause.isAll then sweep others done rest
      else sweep others (done ++ [clause]) rest

def eliminateMatchAll (plan : Clauses Leaf Boost) : Clauses Leaf Boost :=
  let filter := sweep plan.mandatory.length [] plan.filter
  { plan with filter := filter, mandatory := sweep filter.length [] plan.mandatory }

def onlyOptional (query : Clauses Leaf Boost) : Bool :=
  !query.optional.isEmpty && query.mandatory.isEmpty && query.prohibited.isEmpty &&
    query.filter.isEmpty

/-- Goes through optional clauses: `done` are those before the current one. -/
def flattenList (done rest : List (Query Leaf Boost)) : Except String (List (Query Leaf Boost)) :=
  match rest with
  | [] => .ok done
  | clause :: rest =>
      match _found : transparentBoolean planning false clause planning.one with
      | .error message => .error message
      | .ok (none, _) => flattenList (done ++ [clause]) rest
      | .ok (some inner, boost) =>
          if onlyOptional inner && decide (inner.minShouldMatch ≤ 1) then
            flattenList done (inner.optional.map (scoringClause planning · boost) ++ rest)
          else flattenList (done ++ [clause]) rest
termination_by Query.weights rest
decreasing_by
  all_goals rw [Query.weights]
  · exact Nat.lt_add_of_pos_left (weight_pos clause)
  · rw [weights_append, weights_scoring, transparent_weight planning _found, Clauses.query,
      Query.weight]
    omega
  · exact Nat.lt_add_of_pos_left (weight_pos clause)

def flattenDisjunctions (plan : Clauses Leaf Boost) : Except String (Clauses Leaf Boost) :=
  if 1 < plan.minShouldMatch then .ok plan
  else do
    let optional ← flattenList planning [] plan.optional
    return { plan with optional := optional }

/-- A sole required disjunction becomes the positive side. -/
def hoistDisjunction (plan : Clauses Leaf Boost) : Except String (Clauses Leaf Boost) :=
  match plan.optional, plan.mandatory with
  | [], [clause] =>
      match transparentBoolean planning false clause planning.one with
      | .error message => .error message
      | .ok (none, _) => .ok plan
      | .ok (some inner, boost) =>
          if onlyOptional inner then
            flattenDisjunctions planning { plan with
                mandatory := []
                optional := inner.optional.map (scoringClause planning · boost)
                minShouldMatch := max 1 inner.minShouldMatch }
          else .ok plan
  | _, _ => .ok plan

def seedComplement (plan : Clauses Leaf Boost) : Clauses Leaf Boost :=
  if plan.mandatory.isEmpty && plan.optional.isEmpty && plan.filter.isEmpty &&
      !plan.prohibited.isEmpty then
    { plan with mandatory := [.all] }
  else plan

def singleChild (plan : Clauses Leaf Boost) : Option (Query Leaf Boost) :=
  if plan.prohibited.isEmpty && plan.filter.isEmpty then
    match plan.mandatory, plan.optional with
    | [clause], [] =>
        if plan.minShouldMatch = 0 && !planning.autoUniform clause then some clause else none
    | [], [clause] => if plan.minShouldMatch ≤ 1 then some clause else none
    | _, _ => none
  else none

def normalize (query : Clauses Leaf Boost) :
    Except String (Clauses Leaf Boost × Option (Query Leaf Boost)) := do
  let plan ← normalizeRequiredList planning .mandatory query [] query.mandatory
  let plan ← normalizeRequiredList planning .filter plan [] plan.filter
  let plan ← flattenDisjunctions planning (eliminateMatchAll plan)
  let plan ← hoistDisjunction planning plan
  let plan := seedComplement plan
  return (plan, singleChild planning plan)

/-! Duplicates. -/

/-- The query below boosts, and the product of the boosts with its own. -/
def peelBoost : Query Leaf Boost → Boost → Except String (Query Leaf Boost × Boost)
  | .boost child here, boost =>
      match checkedBoostProduct planning boost here with
      | .error message => .error message
      | .ok boost => peelBoost child boost
  | .term leaf here, boost =>
      match checkedBoostProduct planning boost here with
      | .error message => .error message
      | .ok boost => .ok (.term leaf here, boost)
  | query, boost => .ok (query, boost)

def peelScoringClause (query : Query Leaf Boost) : Except String (Query Leaf Boost × Boost) :=
  peelBoost planning query planning.one

mutual
/-- Two queries are equal if they score alike. -/
def equals : Query Leaf Boost → Query Leaf Boost → Except String Bool
  | .all, .all => .ok true
  | .term leaf _, .term other _ => .ok (planning.equalLeaves leaf other)
  | .other leaf, .other other => .ok (planning.equalLeaves leaf other)
  | .boost child here, .boost other there =>
      match checkedBoostProduct planning planning.one here with
      | .error message => .error message
      | .ok boost => sameScoringClause child boost (.boost other there)
  | .constantScore child score, .constantScore other otherScore =>
      if planning.sameBits score otherScore then equals child other else .ok false
  | .boolean mandatory optional prohibited filter minShouldMatch,
      .boolean mandatory2 optional2 prohibited2 filter2 minShouldMatch2 =>
      if minShouldMatch = minShouldMatch2 && mandatory.length = mandatory2.length &&
          optional.length = optional2.length && prohibited.length = prohibited2.length &&
          filter.length = filter2.length then do
        if !(← sameList mandatory mandatory2) then return false
        if !(← sameList optional optional2) then return false
        if !(← sameList prohibited prohibited2) then return false
        sameList filter filter2
      else .ok false
  | _, _ => .ok false
termination_by query => (sizeOf query, 0)

/-- Compares a query, below boosts of which `boost` is the product, with another one. -/
def sameScoringClause (query : Query Leaf Boost) (boost : Boost) (other : Query Leaf Boost) :
    Except String Bool :=
  match query with
  | .boost child here =>
      match checkedBoostProduct planning boost here with
      | .error message => .error message
      | .ok boost => sameScoringClause child boost other
  | .term leaf here =>
      match checkedBoostProduct planning boost here with
      | .error message => .error message
      | .ok boost => do
        let (core, otherBoost) ← peelScoringClause planning other
        if planning.sameBits boost otherBoost then equals (.term leaf here) core else .ok false
  | query => do
      let (core, otherBoost) ← peelScoringClause planning other
      if planning.sameBits boost otherBoost then equals query core else .ok false
termination_by (sizeOf query, 1)

def sameList : List (Query Leaf Boost) → List (Query Leaf Boost) → Except String Bool
  | query :: rest, other :: others => do
      if !(← sameScoringClause query planning.one other) then return false
      sameList rest others
  | _, _ => .ok true
termination_by queries => (sizeOf queries, 0)
end

structure DuplicateSlot (Boost : Type) where
  hash : UInt64
  representative : Nat
  boost : Boost
  count : Nat

structure DuplicateGroups (Boost : Type) where
  byClause : List (Option Nat)
  slots : List (DuplicateSlot Boost)
  duplicateSlots : Nat

/-- A clause joins the slot of the first clause with its hash, if the two are equal. -/
def joinSlot (clauses : List (Query Leaf Boost)) (sumBoosts : Bool)
    (groups : DuplicateGroups Boost) (entry : Query Leaf Boost × Nat) :
    Except String (DuplicateGroups Boost) := do
  let (core, boost) ← peelScoringClause planning entry.1
  match groups.slots.findIdx? (·.hash == planning.hash core) with
  | none =>
      return { groups with slots := groups.slots ++ [⟨planning.hash core, entry.2, boost, 1⟩] }
  | some slot =>
      match groups.slots[slot]? with
      | none => return groups
      | some duplicate =>
          let (representative, _) ←
            peelScoringClause planning (clauses.getD duplicate.representative .all)
          if !(← equals planning representative core) then return groups
          let total := planning.sum duplicate.boost boost
          if sumBoosts && !planning.isFinite total then
            throw "summed duplicate-clause boost must be finite"
          return {
            byClause :=
              (if duplicate.count = 1 then
                groups.byClause.set duplicate.representative (some slot)
              else groups.byClause).set entry.2 (some slot)
            slots := groups.slots.set slot
              { duplicate with
                count := duplicate.count + 1
                boost := if sumBoosts then total else duplicate.boost }
            duplicateSlots := groups.duplicateSlots + (if duplicate.count = 1 then 1 else 0) }

def findDuplicateGroups (clauses : List (Query Leaf Boost)) (sumBoosts : Bool) :
    Except String (DuplicateGroups Boost) :=
  let groups := ⟨List.replicate clauses.length none, [], 0⟩
  if clauses.length < 2 then .ok groups
  else clauses.zipIdx.foldlM (joinSlot planning clauses sumBoosts) groups

/-- The clause of a group is its first one, with the sum of the boosts. -/
def mergeEntries (groups : DuplicateGroups Boost) :
    List (Query Leaf Boost × Nat) → Except String (List (Query Leaf Boost))
  | [] => .ok []
  | (clause, i) :: rest =>
      match (groups.byClause.getD i none).bind (groups.slots[·]?) with
      | none => do return clause :: (← mergeEntries groups rest)
      | some duplicate =>
          if i ≠ duplicate.representative then mergeEntries groups rest
          else do
            let (core, _) ← peelScoringClause planning clause
            let merged := match core with
              | .term leaf _ => .term leaf duplicate.boost
              | core => scoringClause planning core duplicate.boost
            return merged :: (← mergeEntries groups rest)

/-- The clauses without duplicates, and the number of those removed. -/
def mergeDuplicateScoringClauses (clauses : List (Query Leaf Boost)) :
    Except String (List (Query Leaf Boost) × Nat) := do
  let duplicates ← findDuplicateGroups planning clauses true
  if duplicates.duplicateSlots = 0 then return (clauses, 0)
  let out ← mergeEntries planning duplicates clauses.zipIdx
  return (out, clauses.length - out.length)

def dropDuplicateMembershipClauses (clauses : List (Query Leaf Boost)) :
    Except String (List (Query Leaf Boost)) := do
  let duplicates ← findDuplicateGroups planning clauses false
  if duplicates.duplicateSlots = 0 then return clauses
  return (clauses.zipIdx.filter fun entry =>
    match (duplicates.byClause.getD entry.2 none).bind (duplicates.slots[·]?) with
    | none => true
    | some duplicate => decide (entry.2 = duplicate.representative)).map Prod.fst

structure Plan (Leaf Boost : Type) where
  clauses : Clauses Leaf Boost
  singleChild : Option (Query Leaf Boost)

/-- Above half the clauses, the number of clauses that may miss is kept; below, the number that must
match. -/
def minShouldMatchOf (minShouldMatch : Int) (size removed kept : Nat) : Int :=
  if 1 < minShouldMatch && 0 < removed then
    if (size : Int) < minShouldMatch * 2 then max 1 (minShouldMatch - removed)
    else min minShouldMatch kept
  else minShouldMatch

def logicalPlan (query : Clauses Leaf Boost) : Except String (Plan Leaf Boost) := do
  let (normalized, child) ← normalize planning query
  if child.isSome then return ⟨⟨[], [], [], [], normalized.minShouldMatch⟩, child⟩
  let (mandatory, _) ← mergeDuplicateScoringClauses planning normalized.mandatory
  let (optional, removed) ← mergeDuplicateScoringClauses planning normalized.optional
  let prohibited ← dropDuplicateMembershipClauses planning normalized.prohibited
  let filter ← dropDuplicateMembershipClauses planning normalized.filter
  return ⟨⟨mandatory, optional, prohibited, filter,
    minShouldMatchOf normalized.minShouldMatch normalized.optional.length removed
      optional.length⟩, none⟩

end Luxir.Queries.BooleanQuery
