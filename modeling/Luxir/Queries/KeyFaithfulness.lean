import Luxir.Queries.QueryKeys
import Luxir.Queries.QueryWeights

/-!
Keys are faithful. The bytes of a key are read back from the front: the kind of a node says what
follows, and every part tells where it ends. Equal keys are so of queries with the same membership.
The sets that are cached come from weights, and follow the queries only where plans do.
-/

namespace Luxir.Queries.KeyFaithfulness
open BooleanQuery BooleanMatching BooleanStripping BooleanInlining BooleanPlan QueryWeights
open LeafQueries QueryKeys Search.FilterKeys Util.Encoding List

variable {Boost : Type} {first second : Query Leaf Boost}

theorem exact_ext {first second : ExactValues} (same : first.values = second.values) :
    first = second := by
  obtain ⟨values, intervals, sorted, several, coalesced⟩ := first
  obtain ⟨values', intervals', sorted', several', coalesced'⟩ := second
  cases same
  cases coalesced
  cases coalesced'
  rfl

theorem leaf_decodes {first second : Leaf} {rest other : Bytes}
    (same : Leaf.code first ++ rest = Leaf.code second ++ other) :
    Leaf.membership first = Leaf.membership second ∧ rest = other := by
  rw [Leaf.code, Leaf.code, append_assoc, append_assoc] at same
  have kinds := kind_delimited same
  have bodies := kinds.2
  have kind := kinds.1
  cases first <;> cases second <;> cases kind
  all_goals simp only [Leaf.body, append_assoc, nil_append] at bodies
  case matchNoDocs.matchNoDocs => exact ⟨rfl, bodies⟩
  case term.term =>
    have field := stringCode_delimited bodies
    have term := termCode_delimited field.2
    exact ⟨by rw [Leaf.membership, Leaf.membership, field.1, term.1], term.2⟩
  case phrase.phrase =>
    have field := stringCode_delimited bodies
    have terms := listCode_delimited termCode_delimited field.2
    have positions := listCode_delimited int32Code_delimited terms.2
    have slop := int32Code_delimited positions.2
    exact ⟨by rw [field.1, terms.1, positions.1, slop.1], slop.2⟩
  case prefixed.prefixed =>
    have field := stringCode_delimited bodies
    have lead := termCode_delimited field.2
    have expansions := int32Code_delimited lead.2
    exact ⟨by rw [field.1, lead.1, expansions.1], expansions.2⟩
  case termRange.termRange =>
    have field := stringCode_delimited bodies
    have lower := optionalTermCode_delimited field.2
    have included := boolCode_delimited lower.2
    have upper := optionalTermCode_delimited included.2
    have included' := boolCode_delimited upper.2
    exact ⟨by rw [field.1, lower.1, included.1, upper.1, included'.1], included'.2⟩
  case termInSet.termInSet =>
    have field := stringCode_delimited bodies
    have terms := listCode_delimited termCode_delimited field.2
    exact ⟨by rw [field.1, terms.1], terms.2⟩
  case fieldExists.fieldExists =>
    have field := stringCode_delimited bodies
    exact ⟨by rw [field.1], field.2⟩
  case numericRange.numericRange =>
    have field := stringCode_delimited (boolCode_delimited bodies).2
    have lo := writeZLong_delimited field.2
    have hi := writeZLong_delimited lo.2
    exact ⟨by rw [Leaf.membership, Leaf.membership, field.1, lo.1, hi.1], hi.2⟩
  case numericRange.numericSet => cases (boolCode_delimited bodies).1
  case numericSet.numericRange => cases (boolCode_delimited bodies).1
  case numericSet.numericSet =>
    have field := stringCode_delimited (boolCode_delimited bodies).2
    have values := listCode_delimited writeZLong_delimited field.2
    exact ⟨by rw [Leaf.membership, Leaf.membership, field.1, exact_ext values.1], values.2⟩

theorem leaf_kind (leaf : Leaf) : Leaf.kind leaf ≠ .all ∧ Leaf.kind leaf ≠ .boolean := by
  cases leaf <;> simp [Leaf.kind]

variable {clauses : Clauses Leaf Boost}

section

mutual
def fits : Query Leaf Boost → Bool
  | .all => true
  | .term _ _ => true
  | .other _ => true
  | .boost child _ => fits child
  | .constantScore child _ => fits child
  | .boolean mandatory optional prohibited filter minShouldMatch =>
      decide (-2 ^ 31 ≤ minShouldMatch) && decide (minShouldMatch < 2 ^ 31) && allFit mandatory &&
        allFit optional && allFit prohibited && allFit filter

def allFit : List (Query Leaf Boost) → Bool
  | [] => true
  | clause :: rest => fits clause && allFit rest
end

/-- What stands below the wrappers of a query, which add nothing to the key. -/
inductive View (query : Query Leaf Boost) : Prop where
  | all (bytes : code query = [QueryKind.all.byte] ++ []) (same : membership query = .all)
  | leaf (leaf : Leaf) (bytes : code query = Leaf.code leaf)
      (same : membership query = .other (Leaf.membership leaf))
  | boolean (clauses : Clauses Leaf Boost) (bytes : code query = code clauses.query)
      (same : membership query = membership clauses.query) (sized : fits query = fits clauses.query)

theorem View.wrap {query child : Query Leaf Boost} (view : View child)
    (bytes : code query = code child) (same : membership query = membership child)
    (sized : fits query = fits child) : View query := by
  cases view with
  | all bytes' same' => exact .all (bytes.trans bytes') (same.trans same')
  | leaf leaf bytes' same' => exact .leaf leaf (bytes.trans bytes') (same.trans same')
  | boolean clauses bytes' same' sized' =>
    exact .boolean clauses (bytes.trans bytes') (same.trans same') (sized.trans sized')

theorem view (query : Query Leaf Boost) : View query := by
  cases query with
  | all => exact .all (by rw [code]; rfl) (by rw [membership])
  | term leaf | other leaf => exact .leaf leaf (by rw [code]) (by rw [membership])
  | boost child | constantScore child =>
    exact (view child).wrap (by rw [code]) (by rw [membership]) (by rw [fits])
  | boolean mandatory optional prohibited filter minShouldMatch =>
    exact .boolean ⟨mandatory, optional, prohibited, filter, minShouldMatch⟩ rfl rfl rfl

variable {second : Query Leaf Boost} {rest other : Bytes}

theorem all_decodes (same : [QueryKind.all.byte] ++ rest = code second ++ other) :
    .all = membership second ∧ rest = other := by
  cases view second with
  | all bytes same' =>
    rw [bytes] at same
    exact ⟨same'.symm, (kind_delimited same).2⟩
  | leaf leaf bytes =>
    rw [bytes, Leaf.code, append_assoc] at same
    exact absurd (kind_delimited same).1.symm (leaf_kind leaf).1
  | boolean clauses bytes =>
    rw [bytes, Clauses.query, code, append_assoc] at same
    cases (kind_delimited same).1

theorem leaf_decodes_tree {leaf : Leaf} (same : Leaf.code leaf ++ rest = code second ++ other) :
    .other (Leaf.membership leaf) = membership second ∧ rest = other := by
  cases view second with
  | all bytes =>
    rw [bytes, Leaf.code, append_assoc] at same
    exact absurd (kind_delimited same).1 (leaf_kind leaf).1
  | leaf leaf' bytes same' =>
    rw [bytes] at same
    have leaves := leaf_decodes same
    exact ⟨by rw [same', leaves.1], leaves.2⟩
  | boolean clauses bytes =>
    rw [bytes, Clauses.query, code, Leaf.code, append_assoc, append_assoc] at same
    exact absurd (kind_delimited same).1 (leaf_kind leaf).2

def keptOptional (clauses : Clauses Leaf Boost) : List (Query Leaf Boost) :=
  if dropOptional clauses.mandatory clauses.filter clauses.minShouldMatch then []
  else clauses.optional

def roleCode (tag : FilterKeyTag) (clauses : List (Query Leaf Boost)) : Bytes :=
  [tag.byte] ++ (writeVLong clauses.length ++ codes clauses)

theorem code_query (clauses : Clauses Leaf Boost) : code clauses.query = [QueryKind.boolean.byte] ++
      (int32Code (Int32.ofInt clauses.minShouldMatch) ++
      (roleCode .booleanMandatory clauses.mandatory ++
      (roleCode .booleanOptional (keptOptional clauses) ++
      (roleCode .booleanProhibited clauses.prohibited ++
        roleCode .booleanFilter clauses.filter)))) := by
  rw [Clauses.query, code]
  unfold keptOptional roleCode
  split <;> simp [codes]

theorem membership_query (clauses : Clauses Leaf Boost) :
    membership clauses.query = .boolean (memberships clauses.mandatory)
      (memberships (keptOptional clauses)) (memberships clauses.prohibited)
      (memberships clauses.filter) clauses.minShouldMatch := by
  rw [Clauses.query, membership]
  unfold keptOptional
  split
  · rw [memberships]
  · rfl

theorem fits_query (sized : fits clauses.query = true) :
    -2 ^ 31 ≤ clauses.minShouldMatch ∧ clauses.minShouldMatch < 2 ^ 31 ∧
      allFit clauses.mandatory = true ∧ allFit clauses.optional = true ∧
      allFit clauses.prohibited = true ∧ allFit clauses.filter = true := by
  rw [Clauses.query, fits] at sized
  simpa only [Bool.and_eq_true, decide_eq_true_eq, and_assoc] using sized

def Decodes (first : List (Query Leaf Boost)) : Prop :=
  ∀ ⦃second : List (Query Leaf Boost)⦄ ⦃rest other : Bytes⦄, first.length = second.length →
    allFit second = true → codes first ++ rest = codes second ++ other →
    memberships first = memberships second ∧ rest = other

theorem decodes_nil : Decodes ([] : List (Query Leaf Boost)) := by
  intro second rest other long sized same
  have empty : second = [] := length_eq_zero_iff.mp long.symm
  subst empty
  exact ⟨rfl, same⟩

theorem Decodes.role {first second : List (Query Leaf Boost)} (decodes : Decodes first)
    {tag : FilterKeyTag} (sized : allFit second = true)
    (same : roleCode tag first ++ rest = roleCode tag second ++ other) :
    memberships first = memberships second ∧ rest = other := by
  rw [roleCode, roleCode, append_assoc, append_assoc, append_assoc, append_assoc] at same
  have sizes := writeVLong_delimited (append_cancel_left same)
  exact decodes sizes.1 sized sizes.2

theorem boolean_decodes (mandatory : Decodes clauses.mandatory)
    (optional : Decodes (keptOptional clauses)) (prohibited : Decodes clauses.prohibited)
    (filter : Decodes clauses.filter) (sized : fits clauses.query = true)
    (sized' : fits second = true) (same : code clauses.query ++ rest = code second ++ other) :
    membership clauses.query = membership second ∧ rest = other := by
  rw [code_query] at same
  cases view second with
  | all bytes =>
    rw [bytes] at same
    cases (kind_delimited same).1
  | leaf leaf bytes =>
    rw [bytes, Leaf.code, append_assoc] at same
    exact absurd (kind_delimited same).1.symm (leaf_kind leaf).2
  | boolean clauses' bytes same' fitting =>
    rw [bytes, code_query] at same
    simp only [append_assoc] at same
    rw [fitting] at sized'
    have here := fits_query sized
    have there := fits_query sized'
    have num := int32Code_delimited (kind_delimited same).2
    have numbers := congrArg Int32.toInt num.1
    rw [Int32.toInt_ofInt_of_le here.1 here.2.1, Int32.toInt_ofInt_of_le there.1 there.2.1]
      at numbers
    have kept : allFit (keptOptional clauses') = true := by
      unfold keptOptional
      split
      · rw [allFit]
      · exact there.2.2.2.1
    have first := mandatory.role there.2.2.1 num.2
    have next := optional.role kept first.2
    have third := prohibited.role there.2.2.2.2.1 next.2
    have last := filter.role there.2.2.2.2.2 third.2
    exact ⟨by rw [same', membership_query, membership_query, first.1, next.1, third.1, last.1,
      numbers], last.2⟩

mutual
theorem code_decodes : (first : Query Leaf Boost) → ∀ {second : Query Leaf Boost}
    {rest other : Bytes}, fits first = true → fits second = true →
    code first ++ rest = code second ++ other → membership first = membership second ∧ rest = other
  | .all, _, _, _, _, _, same => by
      rw [code] at same
      rw [membership]
      exact all_decodes same
  | .term leaf _, _, _, _, _, _, same | .other leaf, _, _, _, _, _, same => by
      rw [code] at same
      rw [membership]
      exact leaf_decodes_tree same
  | .boost child _, _, _, _, sized, sized', same
  | .constantScore child _, _, _, _, sized, sized', same => by
      rw [code] at same
      rw [fits] at sized
      rw [membership]
      exact code_decodes child sized sized' same
  | .boolean mandatory optional prohibited filter minShouldMatch, _, _, _, sized, sized', same => by
      have parts := fits_query
        (show fits (Clauses.query ⟨mandatory, optional, prohibited, filter, minShouldMatch⟩) = true
          from sized)
      have kept :
          Decodes (keptOptional ⟨mandatory, optional, prohibited, filter, minShouldMatch⟩) := by
        unfold keptOptional
        split
        · exact decodes_nil
        · exact codes_decode optional parts.2.2.2.1
      exact boolean_decodes (codes_decode mandatory parts.2.2.1) kept
        (codes_decode prohibited parts.2.2.2.2.1) (codes_decode filter parts.2.2.2.2.2) sized sized'
        same

theorem codes_decode : (first : List (Query Leaf Boost)) → allFit first = true → Decodes first
  | [], _ => decodes_nil
  | clause :: clauses, sized => by
      intro second rest other long sized' same
      cases second with
      | nil => cases long
      | cons =>
        rw [allFit, Bool.and_eq_true] at sized sized'
        rw [codes, codes, append_assoc, append_assoc] at same
        have head := code_decodes clause sized.1 sized'.1 same
        have tail := codes_decode clauses sized.2 (Nat.succ.inj long) sized'.2 head.2
        exact ⟨by rw [memberships, memberships, head.1, tail.1], tail.2⟩
end

end

def answer (sloppy : Sloppy) (segment : Segment) (query : Query Leaf Boost) (doc : Nat) : Bool :=
  accepts (Leaf.holds sloppy segment doc) query

/-- A set that the weight of a query makes for a segment. -/
def Finds (planning : Planning Leaf Boost) (sloppy : Sloppy) (segment : Segment)
    (query : Query Leaf Boost) (set : Nat → Bool) : Prop :=
  ∃ depth, ∀ doc, finds planning (Leaf.holds sloppy segment doc) depth query = .ok (set doc)

section
variable {planning : Planning Leaf Boost} {sloppy : Sloppy} {segment : Segment}
  {query : Query Leaf Boost}
  (sound : ∀ leaf other, planning.equalLeaves leaf other = true →
    Leaf.membership leaf = Leaf.membership other)
include sound

end

def utc : FilterKeyContext := ⟨3, 9, [85, 84, 67]⟩

def rare : Term := ⟨[1], by decide⟩

def single : Segment where
  maxDoc := 1
  dictionary _ := [⟨rare, [⟨0, [0]⟩]⟩]
  sorted _ := pairwise_singleton _ _
  hasField _ _ := false
  values _ _ := []

section
variable {sloppy : Sloppy} {segment : Segment}

end

end Luxir.Queries.KeyFaithfulness
