import Luxir.Points.BKDTree

/-!
The descent of a query. All points below a node lie in its cell, so that what the query says of the
cell decides about them; the three queries differ only in what they collect.
-/

namespace Luxir.Points.BKDQuery
open Lib.Folds BKDWriter BKDReader BKDTree List

def Holds (cell : Cell) (point : Point) : Prop :=
  cell.latMin ≤ point.lat ∧ point.lat ≤ cell.latMax ∧ cell.lonMin ≤ point.lon ∧
    point.lon ≤ cell.lonMax

def Accepts (relation : Relation) (point : Point) : Bool := relation.matchesAt point.lat point.lon

/-- A query that is right about cells, as far as the given points go. -/
structure Sound (relation : Relation) (points : List Point) : Prop where
  inside : ∀ {cell point}, relation.compare cell = .inside → point ∈ points → Holds cell point →
    Accepts relation point = true
  outside : ∀ {cell point}, relation.compare cell = .outside → point ∈ points → Holds cell point →
    Accepts relation point = false

theorem longitude_compared {intervalMin intervalMax cellMin cellMax longitude : Int}
    (lower : cellMin ≤ longitude) (upper : longitude ≤ cellMax) :
    ((compareLongitudeInterval intervalMin intervalMax cellMin cellMax).inside = true →
      longitudeInRange longitude intervalMin intervalMax = true) ∧
    ((compareLongitudeInterval intervalMin intervalMax cellMin cellMax).outside = true →
      longitudeInRange longitude intervalMin intervalMax = false) := by
  unfold compareLongitudeInterval longitudeInRange
  split_ifs with straight
  all_goals
    simp only [decide_eq_true_eq, decide_eq_false_iff_not]
    omega

/-- Boxes are right about all cells, those that go around included. -/
theorem box_sound (box : BoxRelation) (points : List Point) : Sound box.relation points := by
  constructor
  all_goals rintro cell point decided _ ⟨latLow, latHigh, lonLow, lonHigh⟩
  · show box.matchesAt point.lat point.lon = true
    change box.compare cell = .inside at decided
    unfold BoxRelation.compare at decided
    dsimp only at decided
    split_ifs at decided with far lonOutside both
    have lon := (longitude_compared lonLow lonHigh).1 both.2
    unfold BoxRelation.matchesAt
    rw [decide_eq_true_eq]
    exact ⟨by omega, by omega, lon⟩
  · show box.matchesAt point.lat point.lon = false
    change box.compare cell = .outside at decided
    unfold BoxRelation.compare at decided
    dsimp only at decided
    unfold BoxRelation.matchesAt
    rw [decide_eq_false_iff_not]
    split_ifs at decided with far lonOutside both
    · omega
    · rw [(longitude_compared lonLow lonHigh).2 lonOutside]
      simp

variable {firstLeaf leaves : Nat} {cell : Cell} {points : List Point} {node : InnerNode}
  {point : Point} {first : Nat}

def span (size : Nat) (arranged : List Point) (firstLeaf leaves : Nat) : List Point :=
  (arranged.drop (firstLeaf * size)).take (leaves * size)

variable {size : Nat} {arranged left right : List Point}

theorem span_left (order : first ≤ leaves) (filled : left.length = first * size)
    (split : left ++ right = span size arranged firstLeaf leaves) :
    left = span size arranged firstLeaf first := by
  have cut := congrArg (take (first * size)) split
  rwa [take_left' filled, span, take_take, Nat.min_eq_left (Nat.mul_le_mul_right size order)] at cut

theorem span_right (filled : left.length = first * size)
    (split : left ++ right = span size arranged firstLeaf leaves) :
    right = span size arranged (firstLeaf + first) (leaves - first) := by
  have cut := congrArg (drop (first * size)) split
  rwa [drop_left' filled, span, drop_take, drop_drop, ← Nat.add_mul, ← Nat.sub_mul] at cut

theorem holds_lower (lt : Holds cell point)
    (below : point.coordinate node.splitDim ≤ node.splitValue) :
    Holds (lowerCell node cell) point := by
  obtain ⟨latLow, latHigh, lonLow, lonHigh⟩ := lt
  unfold lowerCell
  unfold Point.coordinate at below
  split_ifs at below ⊢ with dim
  · exact ⟨latLow, below, lonLow, lonHigh⟩
  · exact ⟨latLow, latHigh, lonLow, below⟩

theorem holds_upper (lt : Holds cell point)
    (above : node.splitValue ≤ point.coordinate node.splitDim) :
    Holds (upperCell node cell) point := by
  obtain ⟨latLow, latHigh, lonLow, lonHigh⟩ := lt
  unfold upperCell
  unfold Point.coordinate at above
  split_ifs at above ⊢ with dim
  · exact ⟨above, latHigh, lonLow, lonHigh⟩
  · exact ⟨latLow, latHigh, above, lonHigh⟩

/-- What a query collects, and that it stands for points in some way. -/
structure Collects {β : Type} (size : Nat) (arranged : List Point) (count : Nat) (relation : Relation)
    (empty : β) (join : β → β → β) (whole : Nat → Nat → Except String β)
    (leafAt : Nat → Except String β) (stands : β → List Point → Prop) : Prop where
  nothing : ∀ {points}, (∀ point ∈ points, Accepts relation point = false) → stands empty points
  joined : ∀ {first second points others}, stands first points → stands second others →
    stands (join first second) (points ++ others)
  wholes : ∀ {firstLeaf leaves}, firstLeaf + leaves ≤ count →
    (∀ point ∈ span size arranged firstLeaf leaves, Accepts relation point = true) →
    ∃ found, whole firstLeaf leaves = .ok found ∧ stands found (span size arranged firstLeaf leaves)
  leaf : ∀ {leaf}, leaf < count →
    ∃ found, leafAt leaf = .ok found ∧ stands found (span size arranged leaf 1)

variable {β : Type} {count : Nat} {relation : Relation} {empty : β} {join : β → β → β}
  {whole : Nat → Nat → Except String β} {leafAt : Nat → Except String β}
  {stands : β → List Point → Prop} {reader : Reader} {writes : List (Nat × InnerNode)}

theorem cell_cases (collects : Collects size arranged count relation empty join whole leafAt stands)
    (sound : Sound relation arranged)
    (here : points = span size arranged firstLeaf leaves) (inside : firstLeaf + leaves ≤ count)
    (held : ∀ point ∈ points, Holds cell point) {crossing : Except String β}
    (crossed : ∃ found, crossing = .ok found ∧ stands found points) :
    ∃ found, (match relation.compare cell with
      | .outside => Except.ok empty
      | .inside => whole firstLeaf leaves
      | .crosses => crossing) = .ok found ∧ stands found points := by
  have known : ∀ point ∈ points, point ∈ arranged := by
    rw [here]
    exact fun point member => mem_of_mem_drop (mem_of_mem_take member)
  cases decided : relation.compare cell with
  | outside =>
    exact ⟨empty, rfl, collects.nothing fun point member =>
      sound.outside decided (known point member) (held point member)⟩
  | inside =>
    rw [here] at known held ⊢
    exact collects.wholes inside fun point member =>
      sound.inside decided (known point member) (held point member)
  | crosses => exact crossed

/-- The descent goes by the tree: below each node it collects for the points there. -/
theorem visit_spec (collects : Collects size arranged count relation empty join whole leafAt stands)
    (reads : ∀ id node, (id, node) ∈ writes → reader.innerNode id = .ok node)
    (sound : Sound relation arranged) {nodeId : Nat}
    (tree : Tree size writes points leaves nodeId) {rounds : Nat}
    (here : points = span size arranged firstLeaf leaves) (lt : firstLeaf + leaves ≤ count)
    (held : ∀ point ∈ points, Holds cell point) (enough : leaves ≤ rounds) :
    ∃ found, visit reader relation empty join whole leafAt rounds nodeId leaves firstLeaf cell =
        .ok found ∧ stands found points := by
  induction tree generalizing rounds firstLeaf cell with
  | leaf =>
    obtain ⟨rounds, rfl⟩ := Nat.exists_eq_succ_of_ne_zero (show rounds ≠ 0 by omega)
    apply cell_cases collects sound here lt held
    rw [if_neg (not_not.mpr rfl), here]
    exact collects.leaf (by omega)
  | inner node many kept dims filled below above _ _ first second =>
    have least := numLeftLeaves_pos many
    have less := numLeftLeaves_lt many
    obtain ⟨rounds, rfl⟩ := Nat.exists_eq_succ_of_ne_zero (show rounds ≠ 0 by omega)
    obtain ⟨lower, lowerFound, lowerStands⟩ := first (span_left less.le filled here)
      (show firstLeaf + _ ≤ count by omega) (fun point mem =>
        holds_lower (held point (mem_append_left _ mem)) (below point mem))
      (show _ ≤ rounds by omega)
    obtain ⟨upper, upperFound, upperStands⟩ := second (span_right filled here)
      (by omega) (fun point mem =>
        holds_upper (held point (mem_append_right _ mem)) (above point mem))
      (show _ ≤ rounds by omega)
    apply cell_cases collects sound here lt held
    rw [if_pos (by omega), reads _ _ kept, ok_bind]
    dsimp only
    rw [lowerFound, ok_bind, upperFound, ok_bind]
    exact ⟨_, rfl, collects.joined lowerStands upperStands⟩

end Luxir.Points.BKDQuery
