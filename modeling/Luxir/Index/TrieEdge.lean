import Luxir.Reader.TrieDescent

/-!
The right edge of the trie: what the nodes of the frontier hold along the last key, and how
freezing and growing change it.
-/

namespace Luxir.Index.TrieEdge
open TrieFrontier Reader.TrieLabels Reader.TrieNodes Reader.TrieDescent List

def Open (buf : Bytes) (node : FrontierNode) (lo : Nat) (keys : List Key) : Prop :=
  node.firstOrd = lo ∧ ∃ parts, Holds node lo keys parts ∧
    ∀ part ∈ parts, part.1.fp < buf.length ∧ Stored buf part.1.fp part.2 part.1.lo

/-- The nodes of the frontier from a depth on, along the rest of the last key. -/
def Edge (buf : Bytes) (frontier : Nat → FrontierNode) : Key → Nat → Nat → List Key → Prop
  | [], depth, lo, keys => Open buf (frontier depth) lo keys
  | b :: path, depth, lo, keys => ∃ done sub, Open buf (frontier depth) lo done ∧
      keys = done ++ sub.map (b :: ·) ∧ sub ≠ [] ∧
      (∀ child ∈ (frontier depth).children, child.label < b) ∧
      Edge buf frontier path (depth + 1) (lo + done.length) sub

variable {rest : Key} {b : UInt8} {buf : Bytes} {keys : List Key}

section
variable {node : FrontierNode} {lo : Nat}

theorem Open.append (held : Open buf node lo keys) (more : Bytes) :
    Open (buf ++ more) node lo keys := by
  obtain ⟨first, parts, holds, below⟩ := held
  refine ⟨first, parts, holds, fun part mem => ?_⟩
  obtain ⟨early, kept⟩ := below part mem
  rw [length_append]
  exact ⟨Nat.lt_add_right _ early, kept.append more⟩

theorem open_fresh (buf : Bytes) (terminal : Bool) (ord : Nat) :
    Open buf ⟨[], terminal, ord⟩ ord (if terminal then [[]] else []) := by
  refine ⟨rfl, [], ⟨rfl, (append_nil _).symm, trivial, by simp, List.Pairwise.nil⟩, by simp⟩

theorem Open.freezable (held : Open buf node lo keys) (ne : keys ≠ [])
    (near : buf.length < 2 ^ 64) (few : lo + keys.length ≤ 2 ^ 24) : Freezable node buf.length := by
  obtain ⟨_, parts, holds, _⟩ := held
  refine ⟨holds.increasing, fun leaf => ?_, near, fun child mem => ?_⟩
  · have bare := holds.children
    rw [leaf, eq_comm, map_eq_nil_iff] at bare
    have own := holds.keys
    rw [bare, flatMap_nil, append_nil, ownKeys] at own
    by_contra plain
    rw [if_neg plain] at own
    exact ne own
  · rw [holds.children] at mem
    obtain ⟨part, lt, rfl⟩ := mem_map.mp mem
    have less := placed_lt holds.placed holds.nonempty lt
    rw [holds.keys, length_append] at few
    omega

theorem Open.stored (held : Open buf node lo keys) (freezable : Freezable node buf.length) :
    Stored (buf ++ node.toBytes buf.length) buf.length keys lo := by
  obtain ⟨_, parts, holds, below⟩ := held
  refine .node node parts [] ?_ freezable holds (fun part mem => (below part mem).1)
    fun part mem => (below part mem).2.append _
  rw [drop_left, append_nil]

theorem Open.appendChild (held : Open buf node lo keys) {sub : List Key} {more : Bytes}
    {fp : Nat} (less : ∀ child ∈ node.children, child.label < b) (filled : sub ≠ [])
    (lt : fp < (buf ++ more).length) (kept : Stored (buf ++ more) fp sub (lo + keys.length)) :
    Open (buf ++ more) (TrieBuilder.appendChild node b fp (lo + keys.length)) lo
      (keys ++ sub.map (b :: ·)) := by
  obtain ⟨first, parts, holds, below⟩ := held.append more
  refine ⟨first, parts ++ [(⟨b, fp, lo + keys.length⟩, sub)], ⟨?_, ?_, ?_, ?_, ?_⟩, ?_⟩
  · simp [TrieBuilder.appendChild, holds.children]
  · rw [holds.keys]
    simp [ownKeys, TrieBuilder.appendChild, partKeys]
  · refine placed_append.mpr ⟨holds.placed, ?_, trivial⟩
    rw [holds.keys, length_append, add_assoc]
    rfl
  · exact forall_mem_append.mpr ⟨holds.nonempty, forall_mem_singleton.mpr filled⟩
  · rw [TrieBuilder.appendChild, map_append, Increasing, pairwise_append]
    refine ⟨holds.increasing, pairwise_singleton _ _, ?_⟩
    intro label mem last same
    obtain ⟨child, old, rfl⟩ := mem_map.mp mem
    rw [mem_singleton.mp same]
    exact less child old
  · exact forall_mem_append.mpr ⟨below, forall_mem_singleton.mpr ⟨lt, kept⟩⟩

end

variable {frontier changed : Nat → FrontierNode} {path : Key} {depth lo : Nat}

/-- Below a path nothing changes but the end of it. -/
theorem edge_replace (others : Key) (more : Bytes) (extra : List Key)
    (agree : ∀ i < depth + path.length, changed i = frontier i)
    (tail : ∀ first sub, Edge buf frontier rest (depth + path.length) first sub →
      first + sub.length = lo + keys.length →
      Edge (buf ++ more) changed others (depth + path.length) first (sub ++ extra))
    (edge : Edge buf frontier (path ++ rest) depth lo keys) :
    Edge (buf ++ more) changed (path ++ others) depth lo (keys ++ extra.map (path ++ ·)) := by
  induction path generalizing depth lo keys with
  | nil =>
    have same : extra.map (([] : Key) ++ ·) = extra := by simp
    rw [same]
    exact tail lo keys edge rfl
  | cons b path ih =>
    obtain ⟨done, sub, held, covers, filled, less, inner⟩ := edge
    have deeper : depth + 1 + path.length = depth + (b :: path).length := by
      rw [length_cons]
      omega
    have here := agree depth (by rw [length_cons]; omega)
    refine ⟨done, sub ++ extra.map (path ++ ·), ?_, ?_, ?_, ?_, ?_⟩
    · rw [here]
      exact held.append more
    · rw [covers, map_append, map_map, append_assoc]
      rfl
    · exact append_ne_nil_of_left_ne_nil filled _
    · rw [here]
      exact less
    · refine ih (deeper ▸ agree) (deeper ▸ fun first lt given count => ?_) inner
      apply tail first lt given
      rw [count, covers, length_append, length_map, add_assoc]

theorem edge_freeze {frozen : FrontierNode} (near : buf.length < 2 ^ 64)
    (few : lo + keys.length ≤ 2 ^ 24) (here : frontier (depth + 1) = frozen)
    (parent : changed depth = TrieBuilder.appendChild (frontier depth) b buf.length frozen.firstOrd)
    (edge : Edge buf frontier [b] depth lo keys) :
    Edge (buf ++ frozen.toBytes buf.length) changed [] depth lo keys := by
  obtain ⟨done, sub, held, rfl, filled, less, last⟩ := edge
  rw [Edge, here] at last
  rw [length_append, length_map, ← add_assoc] at few
  have kept := last.stored (last.freezable filled near few)
  have grown : buf.length < (buf ++ frozen.toBytes buf.length).length := by
    have wrote : 0 < (frozen.toBytes buf.length).length := by
      unfold FrontierNode.toBytes
      split <;> simp
    rw [length_append]
    omega
  rw [Edge, parent, last.1]
  exact held.appendChild less filled grown kept

theorem edge_fresh {ord : Nat} (fresh : ∀ i ≤ path.length,
      frontier (depth + i) = ⟨[], decide (i = path.length), ord⟩) :
    Edge buf frontier path depth ord [path] := by
  induction path generalizing depth with
  | nil =>
    have here := fresh 0 (le_rfl)
    rw [add_zero] at here
    rw [Edge, here]
    exact open_fresh buf true ord
  | cons b path ih =>
    have here := fresh 0 (Nat.zero_le _)
    rw [add_zero, decide_eq_false (by simp)] at here
    refine ⟨[], [path], ?_, rfl, cons_ne_nil _ _, ?_, ?_⟩
    · rw [here]
      exact open_fresh buf false ord
    · simp [here]
    · apply ih
      intro i lt
      have next := fresh (i + 1) (Nat.succ_le_succ lt)
      rw [add_assoc, add_comm 1 i, next]
      simp

/-- A new key branches off behind all children of the last node. -/
theorem edge_extend {ord : Nat} (next : lo + keys.length = ord)
    (same : changed depth = frontier depth)
    (less : ∀ child ∈ (frontier depth).children, child.label < b) (fresh : ∀ i ≤ rest.length,
      changed (depth + 1 + i) = ⟨[], decide (i = rest.length), ord⟩)
    (edge : Edge buf frontier [] depth lo keys) :
    Edge buf changed (b :: rest) depth lo (keys ++ [b :: rest]) := by
  refine ⟨keys, [rest], ?_, rfl, cons_ne_nil _ _, ?_, ?_⟩
  · rw [same]
    exact edge
  · rw [same]
    exact less
  · rw [next]
    exact edge_fresh fresh

theorem edge_labels (edge : Edge buf frontier (path ++ b :: rest) depth lo keys) :
    ∀ child ∈ (frontier (depth + path.length)).children, child.label < b := by
  induction path generalizing depth lo keys with
  | nil =>
    obtain ⟨_, _, _, _, _, less, _⟩ := edge
    exact less
  | cons c path ih =>
    obtain ⟨_, _, _, _, _, _, inner⟩ := edge
    have deeper := ih inner
    rwa [add_assoc, add_comm 1] at deeper

theorem edge_open (edge : Edge buf frontier (path ++ rest) depth lo keys) :
    ∃ first sub, Open buf (frontier (depth + path.length)) first sub := by
  induction path generalizing depth lo keys with
  | nil =>
    cases rest with
    | nil => exact ⟨lo, keys, edge⟩
    | cons =>
      obtain ⟨done, _, held, _⟩ := edge
      exact ⟨lo, done, held⟩
  | cons b path ih =>
    obtain ⟨_, _, _, _, _, _, inner⟩ := edge
    have deeper := ih inner
    rwa [add_assoc, add_comm 1] at deeper

end Luxir.Index.TrieEdge
