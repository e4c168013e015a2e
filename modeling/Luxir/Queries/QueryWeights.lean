import Luxir.Queries.BooleanPlan

/-!
What the weights of queries find. The weight of a Boolean query is made from its plan, and so are
those of the plan's clauses in turn. The weight finds what the query accepts if no Boolean query in
the tree loses documents to its plan.
-/

namespace Luxir.Queries.QueryWeights
open BooleanQuery BooleanMatching BooleanInlining BooleanStripping BooleanPlan List

variable {Leaf Boost : Type} (planning : Planning Leaf Boost) (doc : Leaf → Bool)

def dropsOptional (plan : Clauses Leaf Boost) : Bool :=
  hasRequired plan && decide (plan.minShouldMatch < 1)

/-- Optional clauses that only rank get no weight. -/
def weighedOptional (plan : Clauses Leaf Boost) : List (Query Leaf Boost) :=
  if dropsOptional plan then [] else plan.optional

/-- Whether the weight of a query, without scores, finds a document. A wrapper leaves that to its
child. Plans inside each other are bounded by `depth`. -/
def finds : Nat → Query Leaf Boost → Except String Bool
  | 0, _ => .error "query is nested too deeply"
  | depth + 1, query =>
      match beneath true query with
      | none => .ok (accepts doc query)
      | some clauses => do
          let plan ← logicalPlan planning clauses
          match plan.singleChild with
          | some child => finds depth child
          | none => do
              let mandatory ← plan.clauses.mandatory.mapM (finds depth)
              let optional ← (weighedOptional plan.clauses).mapM (finds depth)
              let prohibited ← plan.clauses.prohibited.mapM (finds depth)
              let filter ← plan.clauses.filter.mapM (finds depth)
              return mandatory.all id && filter.all id && !prohibited.any id &&
                enough plan.clauses (optional.countP id)

variable {planning doc} {query : Query Leaf Boost} {clauses : Clauses Leaf Boost} {depth : Nat}

section
variable {α β : Type} {each : α → Except String β} {list : List α}

end

section
variable (sound : Agrees planning doc)
include sound

end

end Luxir.Queries.QueryWeights
