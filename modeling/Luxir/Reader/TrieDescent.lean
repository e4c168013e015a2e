import Luxir.Reader.TrieNodes

/-!
The descent. A frozen node stands for the keys below it, and the reader counts how many of them
do not pass the target.
-/

namespace Luxir.Reader.TrieDescent
open Index.TrieFrontier TrieLookup TrieLabels TrieNodes List

abbrev Part := ChildEntry × List Key

def ownKeys (node : FrontierNode) : List Key := if node.terminal then [[]] else []

def partKeys (part : Part) : List Key := part.2.map (part.1.label :: ·)

def Placed : Nat → List Part → Prop
  | _, [] => True
  | lo, part :: more => part.1.lo = lo ∧ Placed (lo + part.2.length) more

/-- What a node on the frontier holds in its frozen children. -/
structure Holds (node : FrontierNode) (lo : Nat) (keys : List Key) (parts : List Part) :
    Prop where
  children : node.children = parts.map Prod.fst
  keys : keys = ownKeys node ++ parts.flatMap partKeys
  placed : Placed (lo + (ownKeys node).length) parts
  nonempty : ∀ part ∈ parts, part.2 ≠ []
  increasing : Increasing (node.children.map ChildEntry.label)

/-- The node at a place of the buffer, with all that lies below it. -/
inductive Stored (buf : Bytes) : Nat → List Key → Nat → Prop
  | node {fp lo : Nat} {keys : List Key} (frozen : FrontierNode) (parts : List Part)
      (rest : Bytes) (written : buf.drop fp = frozen.toBytes fp ++ rest)
      (freezable : Freezable frozen fp) (holds : Holds frozen lo keys parts)
      (earlier : ∀ part ∈ parts, part.1.fp < fp)
      (below : ∀ part ∈ parts, Stored buf part.1.fp part.2 part.1.lo) : Stored buf fp keys lo

theorem Stored.append {buf : Bytes} {fp lo : Nat} {keys : List Key}
    (kept : Stored buf fp keys lo) (more : Bytes) : Stored (buf ++ more) fp keys lo := by
  induction kept with
  | @node fp _ _ frozen parts rest wrote freezable holds early _ ih =>
    refine .node frozen parts (rest ++ more.drop (fp - buf.length)) ?_ freezable holds early ih
    rw [drop_append, wrote, append_assoc]

variable {part : Part} {parts : List Part} {frozen : FrontierNode}

section
variable {lo : Nat} {before after parts : List Part}

theorem placed_append : Placed lo (before ++ after) ↔
      Placed lo before ∧ Placed (lo + (before.flatMap partKeys).length) after := by
  induction before generalizing lo with
  | nil => simp [Placed]
  | cons part more ih =>
    simp only [cons_append, Placed, ih, flatMap_cons, length_append, partKeys,
      length_map, and_assoc, Nat.add_assoc]

theorem placed_here (placed : Placed lo (before ++ part :: after)) :
    part.1.lo = lo + (before.flatMap partKeys).length :=
  (placed_append.mp placed).2.1

theorem placed_next {next : Part} {others : List Part}
    (placed : Placed lo (before ++ part :: next :: others)) :
    next.1.lo = part.1.lo + part.2.length := by
  have here := (placed_append.mp placed).2
  rw [here.1]
  exact here.2.1

theorem placed_lt (placed : Placed lo parts) (ne : ∀ part ∈ parts, part.2 ≠ [])
    (mem : part ∈ parts) : part.1.lo < lo + (parts.flatMap partKeys).length := by
  obtain ⟨before, after, rfl⟩ := append_of_mem mem
  have here := placed_here placed
  have filled := length_pos_iff.mpr (ne part mem)
  rw [flatMap_append, flatMap_cons, length_append, length_append, partKeys, length_map]
  omega

end

def atMost (target : Key) (keys : List Key) : Nat := keys.countP fun key => key ≤ target

section
variable {target : Key} {b : UInt8}

theorem atMost_append (first second : List Key) :
    atMost target (first ++ second) = atMost target first + atMost target second :=
  countP_append

theorem atMost_own (node : FrontierNode) :
    atMost target (ownKeys node) = (ownKeys node).length := by
  unfold ownKeys
  split_ifs <;> simp [atMost]

theorem atMost_nil (parts : List Part) : atMost [] (parts.flatMap partKeys) = 0 := by
  rw [atMost, countP_eq_zero]
  intro key mem
  obtain ⟨part, _, lt⟩ := mem_flatMap.mp mem
  obtain ⟨_, _, rfl⟩ := mem_map.mp lt
  simp

theorem atMost_before (below : ∀ part ∈ parts, part.1.label < b) :
    atMost (b :: target) (parts.flatMap partKeys) = (parts.flatMap partKeys).length := by
  rw [atMost, countP_eq_length]
  intro key mem
  obtain ⟨part, found, lt⟩ := mem_flatMap.mp mem
  obtain ⟨_, _, rfl⟩ := mem_map.mp lt
  exact decide_eq_true (cons_le_cons_iff.mpr (.inl (below part found)))

theorem atMost_same (same : part.1.label = b) :
    atMost (b :: target) (partKeys part) = atMost target part.2 := by
  rw [atMost, partKeys, countP_map, same, atMost]
  congr 1
  funext key
  simp [cons_le_cons_iff]

theorem atMost_after (above : ∀ part ∈ parts, b < part.1.label) :
    atMost (b :: target) (parts.flatMap partKeys) = 0 := by
  rw [atMost, countP_eq_zero]
  intro key mem
  obtain ⟨part, found, lt⟩ := mem_flatMap.mp mem
  obtain ⟨_, _, rfl⟩ := mem_map.mp lt
  have strict := above part found
  rw [decide_eq_true_eq, cons_le_cons_iff]
  rintro (less | ⟨eq, _⟩)
  · exact UInt8.lt_irrefl _ (UInt8.lt_trans strict less)
  · exact UInt8.lt_irrefl _ (eq ▸ strict)

end

section
variable {file : Bytes} {node fp : Nat} {before after : List ChildEntry} {child : ChildEntry}

theorem child_at (found : NodeAt file node fp frozen)
    (split : frozen.children = before ++ child :: after) :
    childLo file node (byteAt file node) before.length = child.lo ∧
      childDelta file node (byteAt file node) before.length = fp - child.fp := by
  have lt : before.length < frozen.children.length := by
    rw [split, length_append, length_cons]
    omega
  rw [found.lo before.length lt, found.delta before.length lt]
  simp [split]

end

variable {reader : TrieReader} {buf tail : Bytes} {fp lo : Nat} {keys : List Key}

theorem Stored.opened (kept : Stored buf fp keys lo)
    (placed : reader.file.drop reader.base = buf ++ tail) :
    ∃ frozen parts, NodeAt reader.file (reader.base + fp) fp frozen ∧
      Holds frozen lo keys parts ∧ (∀ part ∈ parts, part.1.fp < fp) ∧
      ∀ part ∈ parts, Stored buf part.1.fp part.2 part.1.lo := by
  cases kept with
  | node frozen parts rest wrote freezable holds early below =>
    have found : reader.file.drop (reader.base + fp) =
        frozen.toBytes fp ++ (rest ++ tail.drop (fp - buf.length)) := by
      rw [← drop_drop, placed, drop_append, wrote, append_assoc]
    exact ⟨frozen, parts, toBytes_nodeAt freezable found, holds, early, below⟩

theorem Stored.terminal (kept : Stored buf fp ([] :: keys) lo)
    (placed : reader.file.drop reader.base = buf ++ tail) :
    byteAt reader.file (reader.base + fp) &&& terminalBit ≠ 0 := by
  obtain ⟨frozen, parts, found, holds, _⟩ := kept.opened placed
  rw [found.terminal]
  by_contra plain
  have empty : [] ∈ parts.flatMap partKeys := by
    have covers := holds.keys
    rw [ownKeys, if_neg plain, nil_append] at covers
    exact covers ▸ mem_cons_self
  obtain ⟨part, _, lt⟩ := mem_flatMap.mp empty
  obtain ⟨_, _, impossible⟩ := mem_map.mp lt
  exact cons_ne_nil _ _ impossible

theorem Holds.missing {b : UInt8} (holds : Holds frozen lo keys parts)
    (below : ∀ label ∈ frozen.children.map ChildEntry.label, label < b) :
    ∀ part ∈ parts, part.1.label < b := by
  intro part mem
  apply below
  rw [holds.children, map_map]
  exact mem_map.mpr ⟨part, mem, rfl⟩

theorem Holds.split {b : UInt8} {child : Child} (holds : Holds frozen lo keys parts)
    (ceil : Ceil (frozen.children.map ChildEntry.label) b child) (found : child.found = true) :
    ∃ front part back, parts = front ++ part :: back ∧ child.pos = front.length ∧
      part.1.label = child.label ∧ b ≤ child.label ∧ (∀ other ∈ front, other.1.label < b) ∧
      (∀ other ∈ back, child.label < other.1.label) ∧ (child.hasNext = true ↔ back ≠ []) := by
  obtain ⟨before, after, labels, pos, less, met, next⟩ := ceil.split found
  have rising := holds.increasing
  rw [labels, Increasing, pairwise_append, pairwise_cons] at rising
  have greater := rising.2.1.1
  rw [holds.children, map_map, map_eq_append_iff] at labels
  obtain ⟨front, others, rfl, rfl, tail⟩ := labels
  obtain ⟨part, back, rfl, same, rfl⟩ := map_eq_cons_iff.mp tail
  refine ⟨front, part, back, rfl, pos.trans (length_map _), same, met, ?_, ?_, ?_⟩
  · exact fun other mem => less _ (mem_map.mpr ⟨other, mem, rfl⟩)
  · exact fun other mem => greater _ (mem_map.mpr ⟨other, mem, rfl⟩)
  · rw [next, ne_eq, map_eq_nil_iff]

theorem floor_behind {front back : List Part} {part : Part} {node : Nat} {file : Bytes}
    {hasNext : Bool} (found : NodeAt file node fp frozen)
    (holds : Holds frozen lo keys (front ++ part :: back)) (next : hasNext = true ↔ back ≠ []) :
    (if hasNext = true then (childLo file node (byteAt file node) (front.length + 1) : Int) - 1
      else lo + keys.length - 1) = part.1.lo + part.2.length - 1 := by
  cases back with
  | nil =>
    have here := placed_here holds.placed
    have total : keys.length = (ownKeys frozen).length +
        ((front.flatMap partKeys).length + part.2.length) := by
      rw [holds.keys, length_append, flatMap_append, length_append,
        flatMap_singleton, partKeys, length_map]
    rw [if_neg (by simp [next]), total, here]
    omega
  | cons other others =>
    have children : frozen.children =
        (front ++ [part]).map Prod.fst ++ other.1 :: others.map Prod.fst := by
      rw [holds.children]
      simp
    have place : front.length + 1 = ((front ++ [part]).map Prod.fst).length := by simp
    rw [if_pos (next.mpr (cons_ne_nil _ _)), place, (child_at found children).1,
      placed_next holds.placed]
    omega

theorem descend_eq (placed : reader.file.drop reader.base = buf ++ tail) (target : Key)
    (kept : Stored buf fp keys lo) : reader.descend target fp lo
        (byteAt reader.file (reader.base + fp) &&& terminalBit ≠ 0) (lo + keys.length - 1) =
      lo + atMost target keys - 1 := by
  induction target generalizing fp lo keys with
  | nil =>
    obtain ⟨frozen, parts, found, holds, _⟩ := kept.opened placed
    rw [TrieReader.descend, holds.keys, atMost_append, atMost_nil, atMost_own]
    simp only [decide_eq_true_eq, found.terminal, ownKeys]
    split_ifs <;> simp
  | cons b target ih =>
    obtain ⟨frozen, parts, found, holds, early, below⟩ := kept.opened placed
    have ceil := found.ceil b
    unfold TrieReader.descend
    dsimp only
    generalize ceilChild reader.file (reader.base + fp)
      (byteAt reader.file (reader.base + fp)) b = child at ceil ⊢
    by_cases found_child : child.found = true
    · obtain ⟨front, part, back, rfl, pos, same, met, less, greater, next⟩ :=
        holds.split ceil found_child
      have children : frozen.children = front.map Prod.fst ++ part.1 :: back.map Prod.fst := by
        rw [holds.children, map_append, map_cons]
      have here := placed_here holds.placed
      obtain ⟨entry, delta⟩ := child_at found children
      have floor := floor_behind found holds next
      have count : atMost (b :: target) keys = (ownKeys frozen).length +
          ((front.flatMap partKeys).length +
            atMost (b :: target) ((part :: back).flatMap partKeys)) := by
        rw [holds.keys, atMost_append, atMost_own, flatMap_append, atMost_append,
          atMost_before less]
      rw [length_map] at entry delta
      rw [found_child, pos, entry, delta, floor, count, Bool.not_true, if_neg Bool.false_ne_true]
      by_cases passed : child.label > b
      · have past : ∀ other ∈ part :: back, b < other.1.label :=
          forall_mem_cons.mpr ⟨same ▸ passed, fun other later =>
            UInt8.lt_trans passed (greater other later)⟩
        rw [if_pos passed, atMost_after past, here]
        omega
      · have eq : child.label = b := UInt8.le_antisymm (UInt8.not_lt.mp passed) met
        have mem : part ∈ front ++ part :: back := by simp
        have past := eq ▸ greater
        have first := early part mem
        have back_to : fp - (fp - part.1.fp) = part.1.fp := by omega
        rw [if_neg passed, back_to, ih (below part mem), flatMap_cons, atMost_append,
          atMost_same (same.trans eq), atMost_after past, here]
        omega
    · have below := holds.missing (ceil.missing (Bool.not_eq_true _ ▸ found_child))
      rw [Bool.not_eq_true] at found_child
      rw [found_child, Bool.not_false, if_pos rfl, holds.keys, atMost_append, atMost_own,
        atMost_before below, length_append]

end Luxir.Reader.TrieDescent
