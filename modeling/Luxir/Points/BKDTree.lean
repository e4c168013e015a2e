import Mathlib.Data.List.Perm.Subperm
import Luxir.Lib.Folds
import Luxir.Points.BKDReader

/-!
The tree over points in the plane. Its inner nodes have the numbers of a heap, each one once; points
on either side of a split lie on its side of the split value, or on it.
-/

namespace Luxir.Points.BKDTree
open Lib.Folds BKDWriter
open List hiding partition
open Nat

variable {leaves nodeId id : Nat} {points : List Point} {size : Nat} {start : List InnerNode}
  {arranged : List Point} {depth offset : Nat} {node : InnerNode}

theorem numLeftLeaves_eq (many : 2 ≤ leaves) : ∃ k, 2 * 2 ^ k ≤ leaves ∧ leaves < 4 * 2 ^ k ∧
      numLeftLeaves leaves = 2 ^ k + min (leaves - 2 * 2 ^ k) (2 ^ k) := by
  have lower := log2_self_le (show leaves ≠ 0 by omega)
  have upper := lt_log2_self (n := leaves)
  have pos : log2 leaves ≠ 0 := by
    intro zero
    rw [zero] at upper
    omega
  obtain ⟨k, power⟩ := exists_eq_succ_of_ne_zero pos
  have double : 2 ^ log2 leaves = 2 * 2 ^ k := by
    rw [power, pow_succ, mul_comm]
  refine ⟨k, by omega, ?_, ?_⟩
  · rw [pow_succ] at upper
    omega
  · unfold numLeftLeaves
    rw [if_neg (by omega)]
    dsimp only
    rw [double, Nat.mul_div_cancel_left _ (by omega)]

theorem numLeftLeaves_pos (many : 2 ≤ leaves) : 0 < numLeftLeaves leaves := by
  obtain ⟨k, _, _, left⟩ := numLeftLeaves_eq many
  omega

theorem numLeftLeaves_lt (many : 2 ≤ leaves) : numLeftLeaves leaves < leaves := by
  obtain ⟨k, _, _, left⟩ := numLeftLeaves_eq many
  omega

/-- A number below a node, counted as in a heap of its own. -/
def Under (nodeId leaves id : Nat) : Prop :=
  ∃ depth offset, id = nodeId * 2 ^ depth + offset ∧ offset < 2 ^ depth ∧ 2 ^ depth + offset < leaves

theorem under_self (many : 2 ≤ leaves) : Under nodeId leaves nodeId :=
  ⟨0, 0, by simp, by simp, by simp; omega⟩

theorem not_under_one : ¬Under nodeId 1 id := by
  rintro ⟨depth, offset, _, _, small⟩
  omega

theorem pow_trichotomy (first second : Nat) :
    2 * 2 ^ first ≤ 2 ^ second ∨ 2 ^ first = 2 ^ second ∨ 2 * 2 ^ second ≤ 2 ^ first := by
  rcases lt_trichotomy first second with less | rfl | more
  · have step := Nat.pow_le_pow_right (show 0 < 2 by decide) (Nat.succ_le_of_lt less)
    omega
  · exact .inr (.inl rfl)
  · have step := Nat.pow_le_pow_right (show 0 < 2 by decide) (Nat.succ_le_of_lt more)
    omega

theorem under_children (many : 2 ≤ leaves) (small : offset < 2 ^ depth) :
    (2 ^ (depth + 1) + offset < leaves ↔ 2 ^ depth + offset < numLeftLeaves leaves) ∧
      (2 ^ (depth + 1) + (2 ^ depth + offset) < leaves ↔
        2 ^ depth + offset < leaves - numLeftLeaves leaves) := by
  obtain ⟨k, lower, upper, left⟩ := numLeftLeaves_eq many
  rw [left, pow_succ]
  rcases pow_trichotomy depth k with less | same | more <;> omega

theorem under_cases (many : 2 ≤ leaves) :
    Under nodeId leaves id ↔ id = nodeId ∨ Under (nodeId * 2) (numLeftLeaves leaves) id ∨
      Under (nodeId * 2 + 1) (leaves - numLeftLeaves leaves) id := by
  have double : ∀ depth, nodeId * 2 ^ (depth + 1) = nodeId * 2 * 2 ^ depth := fun depth => by
    rw [pow_succ, mul_assoc, mul_comm 2]
  have second : ∀ depth, (nodeId * 2 + 1) * 2 ^ depth = nodeId * 2 * 2 ^ depth + 2 ^ depth :=
    fun depth => by rw [add_mul, one_mul]
  constructor
  · rintro ⟨depth, offset, rfl, small, bound⟩
    cases depth with
    | zero =>
      left
      omega
    | succ depth =>
      right
      rw [double]
      by_cases low : offset < 2 ^ depth
      · exact .inl ⟨depth, offset, rfl, low, (under_children many low).1.mp bound⟩
      obtain ⟨rest, rfl⟩ := Nat.exists_eq_add_of_le (not_lt.mp low)
      have short : rest < 2 ^ depth := by
        omega
      refine .inr ⟨depth, rest, ?_, short, (under_children many short).2.mp bound⟩
      rw [second, add_assoc]
  · rintro (rfl | ⟨depth, offset, rfl, small, bound⟩ | ⟨depth, offset, rfl, small, bound⟩)
    · exact under_self many
    · refine ⟨depth + 1, offset, by rw [double], ?_, (under_children many small).1.mpr bound⟩
      rw [pow_succ]
      omega
    · refine ⟨depth + 1, 2 ^ depth + offset, by rw [double, second, add_assoc], ?_,
        (under_children many small).2.mpr bound⟩
      rw [pow_succ]
      omega

theorem under_root : Under 1 leaves id ↔ 1 ≤ id ∧ id < leaves := by
  constructor
  · rintro ⟨depth, offset, rfl, small, bound⟩
    omega
  · rintro ⟨pos, less⟩
    have lower := log2_self_le (show id ≠ 0 by omega)
    have upper := lt_log2_self (n := id)
    exact ⟨log2 id, id - 2 ^ log2 id, by omega, by omega, by omega⟩

structure WeakOrder (less : Point → Point → Bool) : Prop where
  asymm : ∀ {a b}, less a b = true → less b a = false
  trans : ∀ {a b c}, less a b = false → less b c = false → less a c = false

/-- The element at a place is the one that sorting would put there, between smaller and greater
ones. -/
structure Selects (nthElement : (Point → Point → Bool) → List Point → Nat → List Point) : Prop where
  perm : ∀ {less points place}, WeakOrder less → place < points.length →
    (nthElement less points place).Perm points
  split : ∀ {less points place}, WeakOrder less → place < points.length →
    (∀ point ∈ (nthElement less points place).take place,
      less ((nthElement less points place).getD place default) point = false) ∧
    ∀ point ∈ (nthElement less points place).drop place,
      less point ((nthElement less points place).getD place default) = false

theorem lessByDim_weak (dim : Nat) : WeakOrder (lessByDim dim) := by
  unfold lessByDim
  constructor
  · intro a b
    dsimp only
    split_ifs <;> simp <;> omega
  · intro a b c
    dsimp only
    split_ifs <;> simp <;> omega

theorem coordinate_le {dim : Nat} {a b : Point} (order : lessByDim dim b a = false) :
    a.coordinate dim ≤ b.coordinate dim := by
  unfold lessByDim at order
  split_ifs at order <;> simp at order <;> omega

/-- A tree whose inner nodes were stored with their numbers, over points in the order of its
leaves. -/
inductive Tree (size : Nat) (writes : List (Nat × InnerNode)) : List Point → Nat → Nat → Prop
  | leaf (points : List Point) (nodeId : Nat) : Tree size writes points 1 nodeId
  | inner {left right : List Point} {leaves nodeId : Nat} (node : InnerNode) (many : 2 ≤ leaves)
      (stored : (nodeId, node) ∈ writes) (dims : node.splitDim ≤ 1)
      (filled : left.length = numLeftLeaves leaves * size)
      (below : ∀ point ∈ left, point.coordinate node.splitDim ≤ node.splitValue)
      (above : ∀ point ∈ right, node.splitValue ≤ point.coordinate node.splitDim)
      (first : Tree size writes left (numLeftLeaves leaves) (nodeId * 2 % 2 ^ 32))
      (second : Tree size writes right (leaves - numLeftLeaves leaves)
        ((nodeId * 2 + 1) % 2 ^ 32)) :
      Tree size writes (left ++ right) leaves nodeId

theorem Tree.mono {writes more : List (Nat × InnerNode)}
    (tree : Tree size writes points leaves nodeId) (subset : ∀ write ∈ writes, write ∈ more) :
    Tree size more points leaves nodeId := by
  induction tree with
  | leaf points nodeId => exact .leaf points nodeId
  | inner node many kept dims filled below above _ _ first second =>
    exact .inner node many (subset _ kept) dims filled below above first second

structure Partitioned (size : Nat) (points : List Point) (leaves nodeId : Nat)
    (arranged : List Point) (writes : List (Nat × InnerNode)) : Prop where
  perm : arranged.Perm points
  tree : Tree size writes arranged leaves nodeId
  count : writes.length = leaves - 1
  ids : ∀ id, id ∈ writes.map Prod.fst ↔ Under nodeId leaves id
  nodes : ∀ write ∈ writes, write.2.splitDim ≤ 1 ∧
    ∃ point ∈ points, write.2.splitValue = point.coordinate write.2.splitDim

theorem child_ids {child nodes : Nat} (small : nodes < 2 ^ 32)
    (ids : ∀ id, Under child leaves id → 1 ≤ id ∧ id ≤ nodes) (filled : 1 ≤ leaves) :
    ∀ id, Under (child % 2 ^ 32) leaves id ↔ Under child leaves id := by
  intro id
  rcases filled.eq_or_lt with rfl | many
  · exact iff_of_false not_under_one not_under_one
  · have bound := ids child (under_self many)
    rw [mod_eq_of_lt (by omega)]

theorem other_dim {dim : Nat} (known : dim ≤ 1) : dim ^^^ 1 ≤ 1 := by
  obtain rfl | rfl : dim = 0 ∨ dim = 1 := by omega
  all_goals decide

section
variable {nthElement : (Point → Point → Bool) → List Point → Nat → List Point}
  (selects : Selects nthElement) {size nodes : Nat} (pos : 0 < size) (small : nodes < 2 ^ 32)
include selects pos small

theorem partition_spec {rounds lastSplitDim : Nat} (enough : leaves ≤ rounds) (filled : 1 ≤ leaves)
    (more : (leaves - 1) * size < points.length) (fits : points.length ≤ leaves * size)
    (dims : lastSplitDim ≤ 1) (ids : ∀ id, Under nodeId leaves id → 1 ≤ id ∧ id ≤ nodes) :
    ∃ arranged writes, partition nthElement size nodes rounds points leaves nodeId lastSplitDim =
        .ok (arranged, writes) ∧ Partitioned size points leaves nodeId arranged writes := by
  induction rounds generalizing leaves nodeId lastSplitDim points with
  | zero => omega
  | succ rounds ih =>
    unfold partition
    by_cases one : leaves = 1
    · rw [if_pos one]
      subst one
      exact ⟨points, [], rfl, Perm.refl _, .leaf points nodeId, rfl,
        fun id => iff_of_false not_mem_nil not_under_one, fun _ mem => nomatch mem⟩
    · have many : 2 ≤ leaves := by omega
      set half := numLeftLeaves leaves
      have leftSome := numLeftLeaves_pos many
      have leftLess := numLeftLeaves_lt many
      have leftPoints : half * size ≤ (leaves - 1) * size := Nat.mul_le_mul_right size (by omega)
      have filled : 0 < half * size := Nat.mul_pos leftSome pos
      have own := ids nodeId (under_self many)
      rw [if_neg one]
      dsimp only
      rw [if_neg (by omega)]
      generalize chosen : (if (dimSpans points).1 = (dimSpans points).2 then lastSplitDim ^^^ 1
        else if (dimSpans points).1 > (dimSpans points).2 then 0 else 1) = splitDim
      have dim : splitDim ≤ 1 := by
        rw [← chosen]
        split_ifs
        · exact other_dim dims
        · exact Nat.zero_le 1
        · exact le_rfl
      have perm := selects.perm (lessByDim_weak splitDim) (show half * size <
        points.length by omega)
      obtain ⟨before, after⟩ := selects.split (lessByDim_weak splitDim)
        (show half * size < points.length by omega)
      have length := perm.length_eq
      generalize nthElement (lessByDim splitDim) points (half * size) = arranged at *
      rw [if_neg (by omega)]
      have below := fun id under => ids id ((under_cases many).mpr (.inr (.inl under)))
      have above := fun id under => ids id ((under_cases many).mpr (.inr (.inr under)))
      have firstIds := child_ids small below leftSome
      have secondIds := child_ids small above (show 1 ≤ leaves - half by omega)
      have firstLength : (arranged.take (half * size)).length = half * size := by
        rw [length_take]
        omega
      have secondLength : (arranged.drop (half * size)).length = points.length - half * size := by
        rw [length_drop, length]
      obtain ⟨left, leftWrites, leftFound, first⟩ := ih (by omega) leftSome
        (show (half - 1) * size < (arranged.take (half * size)).length by
          rw [firstLength]
          exact (Nat.mul_lt_mul_right pos).mpr (by omega)) firstLength.le dim
        fun id under => below id ((firstIds id).mp under)
      obtain ⟨right, rightWrites, rightFound, second⟩ := ih (by omega)
        (show 1 ≤ leaves - half by omega)
        (show (leaves - half - 1) * size < (arranged.drop (half * size)).length by
          rw [secondLength, Nat.sub_right_comm, Nat.sub_mul]
          omega)
        (by rw [secondLength, Nat.sub_mul]; omega) dim fun id under =>
          above id ((secondIds id).mp under)
      rw [leftFound, ok_bind, rightFound, ok_bind]
      refine ⟨_, _, rfl, ?_, ?_, ?_, ?_, ?_⟩
      · have joined := first.perm.append second.perm
        rw [take_append_drop] at joined
        exact joined.trans perm
      · refine .inner ⟨_, splitDim⟩ many mem_cons_self dim ?_ ?_ ?_ (first.tree.mono ?_)
          (second.tree.mono ?_)
        · rw [first.perm.length_eq, firstLength]
        · intro point mem
          exact coordinate_le (before point (first.perm.mem_iff.mp mem))
        · intro point mem
          exact coordinate_le (after point (second.perm.mem_iff.mp mem))
        · exact fun write mem => mem_cons_of_mem _ (mem_append_left _ mem)
        · exact fun write mem => mem_cons_of_mem _ (mem_append_right _ mem)
      · rw [length_cons, length_append, first.count, second.count]
        omega
      · intro id
        rw [map_cons, mem_cons, map_append, mem_append, first.ids, second.ids,
          firstIds, secondIds, under_cases many]
      · intro write mem
        rcases mem_cons.mp mem with rfl | deeper
        · have here : half * size < arranged.length := by omega
          refine ⟨dim, arranged[half * size], perm.mem_iff.mp (getElem_mem here), ?_⟩
          rw [getD_eq_getElem?_getD, getElem?_eq_getElem here, Option.getD_some]
        · rcases mem_append.mp deeper with low | high
          · obtain ⟨dims, point, known, value⟩ := first.nodes write low
            exact ⟨dims, point, perm.mem_iff.mp (mem_of_mem_take known), value⟩
          · obtain ⟨dims, point, known, value⟩ := second.nodes write high
            exact ⟨dims, point, perm.mem_iff.mp (mem_of_mem_drop known), value⟩

end

variable {nodes : Nat} {writes : List (Nat × InnerNode)}

theorem store_frame {place : Nat} (other : ∀ write ∈ writes, write.1 - 1 ≠ place) :
    (writes.foldl (fun kept write => kept.set (write.1 - 1) write.2) start)[place]? =
      start[place]? := by
  induction writes generalizing start with
  | nil => rfl
  | cons write rest ih =>
    rw [foldl_cons, ih fun later mem => other later (mem_cons_of_mem _ mem),
      getElem?_set_ne (other write mem_cons_self)]

theorem store_found (nodup : (writes.map Prod.fst).Nodup) (pos : ∀ write ∈ writes, 1 ≤ write.1)
    (mem : (id, node) ∈ writes) (lt : id - 1 < start.length) :
    (writes.foldl (fun kept write => kept.set (write.1 - 1) write.2) start)[id - 1]? =
      some node := by
  induction writes generalizing start with
  | nil => cases mem
  | cons write rest ih =>
    rw [map_cons, nodup_cons] at nodup
    rw [foldl_cons]
    rcases mem_cons.mp mem with rfl | later
    · have own := pos _ mem_cons_self
      rw [store_frame, getElem?_set_self lt]
      intro other known same
      have least := pos other (mem_cons_of_mem _ known)
      have here : other.1 ∈ rest.map Prod.fst := mem_map_of_mem known
      rw [show other.1 = id by omega] at here
      exact nodup.1 here
    · exact ih nodup.2 (fun other known => pos other (mem_cons_of_mem _ known)) later
        (by rw [length_set]; exact lt)

theorem length_storeNodes : (storeNodes nodes writes).length = nodes := by
  have kept : ∀ start : List InnerNode,
      (writes.foldl (fun stored write => stored.set (write.1 - 1) write.2) start).length =
        start.length := by
    induction writes with
    | nil => exact fun _ => rfl
    | cons write rest ih =>
      intro start
      rw [foldl_cons, ih, length_set]
  rw [storeNodes, kept, length_replicate]

/-- Every number of an inner node is used, and none is used twice. -/
theorem ids_perm (done : Partitioned size points leaves 1 arranged writes) :
    (writes.map Prod.fst).Perm (range' 1 (leaves - 1)) := by
  have subset : range' 1 (leaves - 1) ⊆ writes.map Prod.fst := by
    intro id mem
    rw [mem_range'_1] at mem
    rw [done.ids, under_root]
    omega
  have within := subperm_of_subset nodup_range' subset
  refine (within.perm_of_length_le ?_).symm
  rw [length_map, done.count, length_range']

theorem storeNodes_found (done : Partitioned size points leaves 1 arranged writes)
    (mem : (id, node) ∈ writes) :
    1 ≤ id ∧ id < leaves ∧ (storeNodes (leaves - 1) writes)[id - 1]? = some node := by
  have known : ∀ write ∈ writes, 1 ≤ write.1 ∧ write.1 < leaves := fun write here =>
    under_root.mp ((done.ids write.1).mp (mem_map_of_mem here))
  obtain ⟨pos, less⟩ := known _ mem
  refine ⟨pos, less, store_found ?_ (fun write here => (known write here).1) mem ?_⟩
  · exact (ids_perm done).nodup_iff.mpr nodup_range'
  · rw [length_replicate]
    omega

end Luxir.Points.BKDTree
