import Luxir.Queries.BooleanMatching
import Luxir.Queries.LeafQueries

/-!
The filter keys of query trees. A key keeps what decides which documents match: boosts, scoring
statistics, wrappers and optional clauses that only rank are left out. What it keeps can be read
back from its bytes, so queries with one key match the same documents.
-/

namespace Luxir.Queries.QueryKeys
open BooleanQuery BooleanMatching LeafQueries Search.FilterKeys Util.Encoding FilterKeyBuilder

variable {Boost : Type}

def Leaf.appendFilterKey (out : FilterKeyBuilder) : Leaf → FilterKeyBuilder × FilterKeyScope
  | .matchNoDocs => (out.appendKind .none, .segmentStable)
  | .term field term _ _ =>
      (((out.appendKind .term).appendString field).appendTerm term, .segmentStable)
  | .phrase field terms positions slop =>
      let out := ((out.appendKind .phrase).appendString field).appendSize terms.length
      let out := terms.foldl appendTerm out
      let out := out.appendSize positions.length
      let out := positions.foldl appendInt32 out
      (out.appendInt32 slop, .segmentStable)
  | .prefixed field lead maxExpansions =>
      let out := ((out.appendKind .prefixed).appendString field).appendTerm lead
      (out.appendInt32 maxExpansions, .segmentStable)
  | .termRange field lower includeLower upper includeUpper =>
      let out := (out.appendKind .termRange).appendString field
      let out := (out.appendOptionalTerm lower).appendBool includeLower
      ((out.appendOptionalTerm upper).appendBool includeUpper, .segmentStable)
  | .termInSet field terms =>
      let out := ((out.appendKind .termInSet).appendString field).appendSize terms.length
      (terms.foldl appendTerm out, .segmentStable)
  | .fieldExists field => ((out.appendKind .exist).appendString field, .segmentStable)
  | .numericRange field lo hi filterKeyScope =>
      let out := ((out.appendKind .numericPredicate).appendByte 0).appendString field
      ((out.appendInt64 lo).appendInt64 hi, filterKeyScope)
  | .numericSet field exact filterKeyScope =>
      let out := ((out.appendKind .numericPredicate).appendByte 1).appendString field
      let out := out.appendSize exact.values.length
      (exact.values.foldl appendInt64 out, filterKeyScope)

/-- Optional clauses only rank. -/
def dropOptional (mandatory filter : List (Query Leaf Boost)) (minShouldMatch : Int) : Bool :=
  (!mandatory.isEmpty || !filter.isEmpty) && minShouldMatch < 1

mutual
def appendFilterKey (out : FilterKeyBuilder) : Query Leaf Boost → FilterKeyBuilder × FilterKeyScope
  | .all => (out.appendKind .all, .segmentStable)
  | .term leaf _ => Leaf.appendFilterKey out leaf
  | .other leaf => Leaf.appendFilterKey out leaf
  | .boost child _ => appendFilterKey out child
  | .constantScore child _ => appendFilterKey out child
  | .boolean mandatory optional prohibited filter minShouldMatch =>
      let out := (out.appendKind .boolean).appendInt32 (Int32.ofInt minShouldMatch)
      let (out, scope) := appendClauses
        ((out.appendTag .booleanMandatory).appendSize mandatory.length) .segmentStable mandatory
      let out := out.appendTag .booleanOptional
      -- The role stands for no clause where they are dropped.
      let (out, scope) := if dropOptional mandatory filter minShouldMatch then
          (out.appendSize 0, scope)
        else appendClauses (out.appendSize optional.length) scope optional
      let (out, scope) := appendClauses
        ((out.appendTag .booleanProhibited).appendSize prohibited.length) scope prohibited
      appendClauses ((out.appendTag .booleanFilter).appendSize filter.length) scope filter

def appendClauses (out : FilterKeyBuilder) (scope : FilterKeyScope) :
    List (Query Leaf Boost) → FilterKeyBuilder × FilterKeyScope
  | [] => (out, scope)
  | clause :: rest =>
      let (out, here) := appendFilterKey out clause
      appendClauses out (strongestFilterKeyScope scope here) rest
end

def Leaf.kind : Leaf → QueryKind
  | .matchNoDocs => .none
  | .term _ _ _ _ => .term
  | .phrase _ _ _ _ => .phrase
  | .prefixed _ _ _ => .prefixed
  | .termRange _ _ _ _ _ => .termRange
  | .termInSet _ _ => .termInSet
  | .fieldExists _ => .exist
  | .numericRange _ _ _ _ => .numericPredicate
  | .numericSet _ _ _ => .numericPredicate

def Leaf.body : Leaf → Bytes
  | .matchNoDocs => []
  | .term field term _ _ => stringCode field ++ termCode term
  | .phrase field terms positions slop =>
      stringCode field ++ (listCode termCode terms ++ (listCode int32Code positions ++
        int32Code slop))
  | .prefixed field lead maxExpansions =>
      stringCode field ++ (termCode lead ++ int32Code maxExpansions)
  | .termRange field lower includeLower upper includeUpper =>
      stringCode field ++ (optionalTermCode lower ++ (boolCode includeLower ++
        (optionalTermCode upper ++ boolCode includeUpper)))
  | .termInSet field terms => stringCode field ++ listCode termCode terms
  | .fieldExists field => stringCode field
  | .numericRange field lo hi _ =>
      boolCode false ++ (stringCode field ++ (writeZLong lo ++ writeZLong hi))
  | .numericSet field exact _ =>
      boolCode true ++ (stringCode field ++ listCode writeZLong exact.values)

def Leaf.code (leaf : Leaf) : Bytes := [(Leaf.kind leaf).byte] ++ Leaf.body leaf

mutual
def code : Query Leaf Boost → Bytes
  | .all => [QueryKind.all.byte]
  | .term leaf _ => Leaf.code leaf
  | .other leaf => Leaf.code leaf
  | .boost child _ => code child
  | .constantScore child _ => code child
  | .boolean mandatory optional prohibited filter minShouldMatch =>
      [QueryKind.boolean.byte] ++ (int32Code (Int32.ofInt minShouldMatch) ++
      ([FilterKeyTag.booleanMandatory.byte] ++ (writeVLong mandatory.length ++ (codes mandatory ++
      ([FilterKeyTag.booleanOptional.byte] ++
        ((if dropOptional mandatory filter minShouldMatch then writeVLong 0
          else writeVLong optional.length ++ codes optional) ++
      ([FilterKeyTag.booleanProhibited.byte] ++ (writeVLong prohibited.length ++ (codes prohibited ++
      ([FilterKeyTag.booleanFilter.byte] ++ (writeVLong filter.length ++ codes filter)))))))))))

def codes : List (Query Leaf Boost) → Bytes
  | [] => []
  | clause :: rest => code clause ++ codes rest
end

theorem Leaf.appendFilterKey_bytes (out : FilterKeyBuilder) (leaf : Leaf) :
    (Leaf.appendFilterKey out leaf).1.bytes = out.bytes ++ Leaf.code leaf := by
  cases leaf with
  | phrase =>
    simp [Leaf.appendFilterKey, Leaf.code, Leaf.kind, Leaf.body, listCode,
      bytes_foldl _ bytes_appendTerm, bytes_foldl _ bytes_appendInt32]
  | termInSet =>
    simp [Leaf.appendFilterKey, Leaf.code, Leaf.kind, Leaf.body, listCode,
      bytes_foldl _ bytes_appendTerm]
  | numericSet =>
    simp [Leaf.appendFilterKey, Leaf.code, Leaf.kind, Leaf.body, listCode, boolCode,
      bytes_foldl _ bytes_appendInt64]
  | _ => simp [Leaf.appendFilterKey, Leaf.code, Leaf.kind, Leaf.body, boolCode]

mutual
theorem appendFilterKey_bytes (out : FilterKeyBuilder) : (query : Query Leaf Boost) →
    (appendFilterKey out query).1.bytes = out.bytes ++ code query
  | .all => by simp [appendFilterKey, code]
  | .term leaf _ | .other leaf => by rw [appendFilterKey, code, Leaf.appendFilterKey_bytes]
  | .boost child _ | .constantScore child _ => by rw [appendFilterKey, code, appendFilterKey_bytes]
  | .boolean mandatory optional prohibited filter minShouldMatch => by
      rw [appendFilterKey, code]
      cases dropOptional mandatory filter minShouldMatch <;>
        simp [appendClauses_bytes]

theorem appendClauses_bytes (out : FilterKeyBuilder) (scope : FilterKeyScope) :
    (clauses : List (Query Leaf Boost)) →
    (appendClauses out scope clauses).1.bytes = out.bytes ++ codes clauses
  | [] => by simp [appendClauses, codes]
  | clause :: rest => by
      rw [appendClauses, codes, appendClauses_bytes, appendFilterKey_bytes, List.append_assoc]
end

variable (clauses : List (Query Leaf Boost))

/-- A leaf without what only scores or says how long a key lives. -/
def Leaf.membership : Leaf → Leaf
  | .term field term _ _ => .term field term false false
  | .numericRange field lo hi _ => .numericRange field lo hi .segmentStable
  | .numericSet field exact _ => .numericSet field exact .segmentStable
  | leaf => leaf

mutual
/-- A query without wrappers, boosts and optional clauses that only rank. -/
def membership : Query Leaf Boost → Query Leaf Unit
  | .all => .all
  | .term leaf _ => .other (Leaf.membership leaf)
  | .other leaf => .other (Leaf.membership leaf)
  | .boost child _ => membership child
  | .constantScore child _ => membership child
  | .boolean mandatory optional prohibited filter minShouldMatch =>
      .boolean (memberships mandatory)
        (if dropOptional mandatory filter minShouldMatch then [] else memberships optional)
        (memberships prohibited) (memberships filter) minShouldMatch

def memberships : List (Query Leaf Boost) → List (Query Leaf Unit)
  | [] => []
  | clause :: rest => membership clause :: memberships rest
end

theorem length_memberships : (memberships clauses).length = clauses.length := by
  induction clauses with
  | nil => rw [memberships, List.length_nil, List.length_nil]
  | cons clause rest ih => rw [memberships, List.length_cons, List.length_cons, ih]

theorem isEmpty_memberships : (memberships clauses).isEmpty = clauses.isEmpty := by
  cases clauses with
  | nil => rw [memberships]; rfl
  | cons => rw [memberships]; rfl

theorem enough_memberships (mandatory optional prohibited filter : List (Query Leaf Boost))
    (minShouldMatch : Int) {count kept : Nat}
    (same : dropOptional mandatory filter minShouldMatch = false → kept = count) :
    enough ⟨memberships mandatory,
      if dropOptional mandatory filter minShouldMatch then [] else memberships optional,
      memberships prohibited, memberships filter, minShouldMatch⟩ kept =
    enough ⟨mandatory, optional, prohibited, filter, minShouldMatch⟩ count := by
  cases drop : dropOptional mandatory filter minShouldMatch with
  | true =>
    -- A required clause is there and no number is asked for, so any count is enough.
    rw [dropOptional, Bool.and_eq_true, decide_eq_true_eq] at drop
    have few : ¬ 1 ≤ minShouldMatch := Int.not_le.mpr drop.2
    simp only [enough, if_neg few, hasRequired, isEmpty_memberships, drop.1, Bool.true_or]
  | false =>
    rw [same drop]
    simp only [enough, hasRequired, isEmpty_memberships, Bool.false_eq_true, if_false]

variable {doc : Leaf → Bool}

mutual
theorem accepts_membership (blind : ∀ leaf, doc (Leaf.membership leaf) = doc leaf) :
    (query : Query Leaf Boost) → accepts doc (membership query) = accepts doc query
  | .all => by rw [membership, accepts, accepts]
  | .term leaf _ => by rw [membership, accepts, accepts, blind]
  | .other leaf => by rw [membership, accepts, accepts, blind]
  | .boost child _ => by rw [membership, accepts, accepts_membership blind]
  | .constantScore child _ => by rw [membership, accepts, accepts_membership blind]
  | .boolean mandatory optional prohibited filter minShouldMatch => by
      rw [membership, accepts, accepts, matching_memberships blind mandatory,
        matching_memberships blind prohibited, matching_memberships blind filter, length_memberships,
        length_memberships]
      congr 1
      apply enough_memberships
      intro kept
      rw [kept, if_neg Bool.false_ne_true, matching_memberships blind optional]

theorem matching_memberships (blind : ∀ leaf, doc (Leaf.membership leaf) = doc leaf) :
    (clauses : List (Query Leaf Boost)) → matching doc (memberships clauses) = matching doc clauses
  | [] => by rw [memberships, matching, matching]
  | clause :: rest => by
      rw [memberships, matching, matching, accepts_membership blind, matching_memberships blind]
end

end Luxir.Queries.QueryKeys
