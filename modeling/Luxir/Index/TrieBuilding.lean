import Luxir.Index.TrieEdge

/-!
The builder at work: freezing what a new key leaves behind, growing the edge along the key, and
closing the trie. Every buffer it makes is small enough for the widths of the format.
-/

namespace Luxir.Index.TrieBuilding
open TrieFrontier TrieEdge Reader.TrieNodes Reader.TrieDescent List TrieBuilder Function Nat

/-- The path to a depth is live: deeper nodes are frozen. Every depth may still take a page. -/
structure Live (limit : Nat) (builder : TrieBuilder) (depth : Nat) (keys : List Key) : Prop where
  edge : Edge builder.buf builder.frontier (builder.prevKey.take depth) 0 0 keys
  bounded : ∀ child ∈ (builder.frontier depth).children,
    ∃ b ∈ builder.prevKey[depth]?, child.label ≤ b
  inside : depth ≤ builder.prevKey.length
  room : builder.buf.length + 4096 * depth ≤ limit

variable {builder : TrieBuilder} {keys : List Key}

section
variable {limit depth shared : Nat}

theorem freezeDepth_buf : (builder.freezeDepth depth).buf =
    builder.buf ++ (builder.frontier depth).toBytes builder.buf.length := rfl

theorem freezeDepth_parent (lt : depth < builder.prevKey.length) :
    (builder.freezeDepth (depth + 1)).frontier depth =
      appendChild (builder.frontier depth) builder.prevKey[depth]
        builder.buf.length (builder.frontier (depth + 1)).firstOrd := by
  have byte : builder.prevKey.getD depth 0 = builder.prevKey[depth] := by
    rw [getD_eq_getElem?_getD, getElem?_eq_getElem lt, Option.getD_some]
  simp only [freezeDepth, freezeNode, Nat.add_sub_cancel, byte]
  rw [update_of_ne (by omega), update_self]

theorem freezeDepth_above {i : Nat} (above : i < depth) :
    (builder.freezeDepth (depth + 1)).frontier i = builder.frontier i := by
  simp only [freezeDepth, freezeNode, Nat.add_sub_cancel]
  rw [update_of_ne (by omega), update_of_ne (by omega)]

theorem Live.path (live : Live limit builder (depth + 1) keys) :
    ∃ lt : depth < builder.prevKey.length, builder.prevKey.take (depth + 1) =
      builder.prevKey.take depth ++ [builder.prevKey[depth]] ∧
      0 + (builder.prevKey.take depth).length = depth := by
  have lt := live.inside
  refine ⟨lt, (take_append_getElem lt).symm, ?_⟩
  rw [length_take]
  omega

theorem freezeDepth_live (small : limit < 2 ^ 64) (few : keys.length ≤ 2 ^ 24)
    (live : Live limit builder (depth + 1) keys) :
    Live limit (builder.freezeDepth (depth + 1)) depth keys := by
  obtain ⟨lt, taken, long⟩ := live.path
  have room := live.room
  have near : builder.buf.length < 2 ^ 64 := by omega
  have edge := live.edge
  rw [taken] at edge
  have parent := freezeDepth_parent lt
  have less := edge_labels edge
  rw [long] at less
  refine ⟨?_, ?_, le_of_lt lt, ?_⟩
  · have replaced := edge_replace []
      ((builder.frontier (depth + 1)).toBytes builder.buf.length) []
      (fun i above => freezeDepth_above (long ▸ above))
      (fun first sub last count => ?_) edge
    · rwa [map_nil, append_nil, append_nil] at replaced
    · rw [append_nil]
      rw [long] at last ⊢
      exact edge_freeze near (by omega) rfl parent last
  · intro child mem
    rw [parent] at mem
    refine ⟨builder.prevKey[depth], getElem?_eq_getElem lt, ?_⟩
    rcases mem_append.mp mem with old | new
    · exact UInt8.le_of_lt (less child old)
    · rw [mem_singleton.mp new]
      exact UInt8.le_refl _
  · have last : Edge builder.buf builder.frontier
        (builder.prevKey.take (depth + 1) ++ []) 0 0 keys := by
      rw [append_nil]
      exact live.edge
    obtain ⟨_, _, _, _, holds, _⟩ := edge_open last
    have size := length_toBytes_le holds.increasing near
    rw [taken, length_append, ← add_assoc, long, length_singleton] at size
    rw [freezeDepth_buf, length_append]
    omega

theorem freezeDown_live (small : limit < 2 ^ 64) (few : keys.length ≤ 2 ^ 24)
    (below : shared ≤ depth) (live : Live limit builder depth keys) :
    Live limit (freezeDown shared depth builder) shared keys := by
  fun_induction freezeDown shared depth builder with
  | case2 depth builder deeper ih =>
    exact ih (le_of_lt_succ deeper) (freezeDepth_live small few live)
  | case1 =>
    rw [le_zero.mp below]
    exact live
  | case3 depth =>
    rw [show shared = depth + 1 by omega]
    exact live

theorem freezeDown_prevKey : (freezeDown shared depth builder).prevKey = builder.prevKey := by
  fun_induction freezeDown shared depth builder with
  | case1 | case3 => rfl
  | case2 depth builder deeper ih => exact ih

end

variable {key prev : Key}

theorem commonPrefix_spec (less : prev < key) : ∃ shared b rest, key = shared ++ b :: rest ∧
    commonPrefix key prev = shared.length ∧ prev.take shared.length = shared ∧
    shared.length ≤ prev.length ∧ ∀ c ∈ prev[shared.length]?, c < b := by
  induction key generalizing prev with
  | nil => exact absurd less (not_lt_nil prev)
  | cons b key ih =>
    cases prev with
    | nil => exact ⟨[], b, key, rfl, by simp [commonPrefix], rfl, le_rfl, by simp⟩
    | cons c =>
      rcases cons_lt_cons_iff.mp less with smaller | ⟨rfl, later⟩
      · have differ : b ≠ c := fun same => UInt8.lt_irrefl _ (same ▸ smaller)
        refine ⟨[], b, key, rfl, by simp [commonPrefix, differ], rfl, zero_le _, ?_⟩
        simpa using smaller
      obtain ⟨shared, d, rest, split, length, taken, lt, next⟩ := ih later
      refine ⟨c :: shared, d, rest, by rw [split]; rfl, ?_, ?_, ?_, ?_⟩
      · rw [commonPrefix, if_pos rfl, length, length_cons]
      · rw [length_cons, take_succ_cons, taken]
      · exact succ_le_succ lt
      · simpa using next

theorem foldl_update (start count : Nat) (value : FrontierNode) (frontier : Nat → FrontierNode)
    (i : Nat) : (range' start count).foldl (fun frontier depth => update frontier depth value)
      frontier i = if start ≤ i ∧ i < start + count then value else frontier i := by
  induction count generalizing start frontier with
  | zero =>
    rw [if_neg (by omega)]
    rfl
  | succ count ih =>
    rw [range'_succ, foldl_cons, ih]
    by_cases first : i = start
    · subst first
      rw [if_neg (by omega), update_self, if_pos (by omega)]
    · rw [update_of_ne first]
      congr 1
      rw [eq_iff_iff]
      omega

def settled (builder : TrieBuilder) (key : Key) : TrieBuilder :=
  if builder.hasPrev then
    freezeDown (commonPrefix key builder.prevKey) builder.prevKey.length builder
  else builder

theorem settled_prevKey : (settled builder key).prevKey = builder.prevKey := by
  unfold settled
  split_ifs
  · exact freezeDown_prevKey
  · rfl

structure Built (builder : TrieBuilder) (keys : List Key) : Prop where
  live : Live (4096 * maxLen * keys.length) builder builder.prevKey.length ([] :: keys)
  started : builder.hasPrev = false → builder.prevKey = []
  last : builder.prevKey = keys.getLastD []
  count : builder.nBlocks = keys.length + 1

theorem Built.small (few : keys.length < maxBlocks) : 4096 * maxLen * keys.length < 2 ^ 64 := by
  rw [maxBlocks] at few
  rw [maxLen]
  omega

theorem start_built : Built start [] := by
  refine ⟨⟨?_, by simp [start], le_rfl, le_rfl⟩, fun _ => rfl, rfl, rfl⟩
  exact open_fresh [] true 0

variable (built : Built builder keys)
include built

theorem Built.shared : (if builder.hasPrev then commonPrefix key builder.prevKey else 0) =
      commonPrefix key builder.prevKey := by
  split_ifs with started
  · rfl
  · rw [built.started (Bool.not_eq_true _ ▸ started)]
    cases key <;> rfl

theorem Built.settled (few : keys.length < maxBlocks)
    (lt : commonPrefix key builder.prevKey ≤ builder.prevKey.length) :
    Live (4096 * maxLen * keys.length) (settled builder key)
      (commonPrefix key builder.prevKey) ([] :: keys) := by
  unfold TrieBuilding.settled
  split_ifs with started
  · refine freezeDown_live (Built.small few) ?_ lt built.live
    rw [maxBlocks] at few
    rw [length_cons]
    omega
  · have live := built.live
    rw [built.started (Bool.not_eq_true _ ▸ started)] at lt live ⊢
    rw [le_zero.mp lt]
    exact live

theorem add_frontier (ord : Nat) (longer : commonPrefix key builder.prevKey < key.length)
    (i : Nat) : (builder.add key ord).frontier i =
      if commonPrefix key builder.prevKey < i ∧ i ≤ key.length then
        ⟨[], decide (i = key.length), ord⟩ else (settled builder key).frontier i := by
  unfold add settled
  dsimp only
  rw [built.shared]
  by_cases last : i = key.length
  · subst last
    rw [update_self, foldl_update, if_pos (by omega), if_pos (by omega)]
    simp
  · rw [update_of_ne last, foldl_update, decide_eq_false last]
    split_ifs <;> first | rfl | omega

theorem add_buf (ord : Nat) : (builder.add key ord).buf = (settled builder key).buf := by
  unfold add settled
  rw [built.shared]

theorem add_edge (less : builder.prevKey < key) (few : keys.length + 1 < maxBlocks) :
    Edge (settled builder key).buf (builder.add key (keys.length + 1)).frontier key 0 0
      ([] :: keys ++ [key]) := by
  obtain ⟨shared, b, rest, split, length, taken, lt, next⟩ := commonPrefix_spec less
  have live := built.settled (lt_of_succ_lt few) (length ▸ lt)
  have long : key.length = shared.length + 1 + rest.length := by
    rw [split, length_append, length_cons]
    omega
  have frontier := add_frontier built (keys.length + 1) (show _ < key.length by omega)
  have edge := live.edge
  rw [settled_prevKey, length, taken, ← append_nil shared] at edge
  have agree : ∀ i < 0 + shared.length,
      (builder.add key (keys.length + 1)).frontier i = (settled builder key).frontier i := by
    intro i above
    rw [frontier, if_neg (by omega)]
  have grown := edge_replace (b :: rest) [] [b :: rest] agree ?_ edge
  · rwa [append_nil, ← split, map_singleton, ← split] at grown
  intro first sub last count
  rw [append_nil]
  have next_ord : first + sub.length = keys.length + 1 := by
    rw [count, length_cons]
    omega
  refine edge_extend next_ord ?_ ?_ ?_ last
  · rw [frontier, if_neg (by omega)]
  · intro child mem
    rw [zero_add, ← length] at mem
    obtain ⟨c, here, bound⟩ := live.bounded child mem
    rw [settled_prevKey, length] at here
    exact UInt8.lt_of_le_of_lt bound (next c here)
  · intro i bound
    rw [frontier, if_pos (by omega)]
    congr 2
    rw [eq_iff_iff]
    omega

theorem add_built (less : builder.prevKey < key) (short : key.length ≤ maxLen)
    (few : keys.length + 1 < maxBlocks) :
    Built (builder.add key (keys.length + 1)) (keys ++ [key]) := by
  obtain ⟨shared, b, rest, split, length, _, lt, _⟩ := commonPrefix_spec less
  have live := built.settled (lt_of_succ_lt few) (length ▸ lt)
  have room := live.room
  have edge := add_edge built less few
  rw [← add_buf built (keys.length + 1)] at edge room
  have longer : shared.length < key.length := by
    rw [split, length_append, length_cons]
    omega
  have newest := add_frontier built (keys.length + 1) (length ▸ longer) key.length
  rw [if_pos (by omega)] at newest
  have named : (builder.add key (keys.length + 1)).prevKey = key := rfl
  refine ⟨⟨?_, ?_, le_rfl, ?_⟩, (nomatch ·), ?_, ?_⟩
  · rw [named, take_length]
    exact edge
  · rw [named, newest]
    simp
  · rw [named, length_append, length_singleton, mul_succ]
    omega
  · simp [named]
  · rw [length_append, length_singleton]
    rfl

theorem finish_stored (few : keys.length < maxBlocks) :
    ∃ buf rest, builder.finish.1 = buf ++ rest ∧ Stored buf builder.finish.2 ([] :: keys) 0 := by
  have live : Live (4096 * maxLen * keys.length) (if builder.hasPrev then
      freezeDown 0 builder.prevKey.length builder else builder) 0 ([] :: keys) :=
    built.settled few (show commonPrefix [] builder.prevKey ≤ _ from zero_le _)
  have small := Built.small few
  have room := live.room
  have edge := live.edge
  have freezable := Open.freezable edge (cons_ne_nil _ _) (by omega) (by
    rw [maxBlocks] at few
    rw [length_cons]
    omega)
  exact ⟨_, replicate 8 0, rfl, Open.stored edge freezable⟩

end Luxir.Index.TrieBuilding
