import Luxir.Index.TrieBuilding
import Mathlib.Data.List.Induction

/-!
The trie of a list of separators answers every target with the number of separators at or before
it.
-/

namespace Luxir.Index.TrieRoundTrip
open TrieFrontier TrieBuilding Reader.TrieLookup Reader.TrieDescent List

def build (keys : List Key) : TrieBuilder :=
  (keys.zipIdx 1).foldl (fun builder entry => builder.add entry.1 entry.2) TrieBuilder.start

structure Separators (keys : List Key) : Prop where
  nonempty : ∀ key ∈ keys, key ≠ []
  short : ∀ key ∈ keys, key.length ≤ maxLen
  increasing : keys.Pairwise fun low high => low < high
  few : keys.length < maxBlocks

def readerOf (keys : List Key) (front back : Bytes) : TrieReader :=
  ⟨front ++ (build keys).finish.1 ++ back, front.length, (build keys).finish.2,
    (build keys).nBlocks⟩

theorem build_concat (keys : List Key) (key : Key) :
    build (keys ++ [key]) = (build keys).add key (keys.length + 1) := by
  rw [build, zipIdx_append, foldl_append, Nat.add_comm 1]
  rfl

theorem build_built {keys : List Key} (separators : Separators keys) : Built (build keys) keys := by
  induction keys using reverseRecOn with
  | nil => exact start_built
  | append_singleton keys key ih =>
    have ordered := pairwise_append.mp separators.increasing
    have few := separators.few
    rw [length_append, length_singleton] at few
    have built := ih ⟨fun other mem => separators.nonempty other (mem_append_left _ mem), fun other
      mem => separators.short other (mem_append_left _ mem), ordered.1, Nat.lt_of_succ_lt few⟩
    have mem : key ∈ keys ++ [key] := by simp
    have less : (build keys).prevKey < key := by
      rw [built.last]
      rcases eq_nil_or_concat keys with rfl | ⟨others, last, rfl⟩
      · cases key with
        | nil => exact absurd rfl (separators.nonempty [] mem)
        | cons b rest => exact nil_lt_cons b rest
      · rw [concat_eq_append] at ordered ⊢
        rw [getLastD_concat]
        exact ordered.2.2 last (by simp) key (by simp)
    rw [build_concat]
    exact add_built built less (separators.short key mem) few

theorem floorBlock_eq {keys : List Key} (separators : Separators keys)
    (front back : Bytes) (target : Key) :
    (readerOf keys front back).floorBlock target = atMost target keys := by
  have built := build_built separators
  obtain ⟨buf, rest, bytes, kept⟩ := finish_stored built separators.few
  have placed : (readerOf keys front back).file.drop (readerOf keys front back).base =
      buf ++ (rest ++ back) := by
    simp only [readerOf, bytes, append_assoc, drop_left]
  have found := descend_eq placed target kept
  rw [decide_eq_true (kept.terminal placed)] at found
  have total : ((readerOf keys front back).nBlocks : Int) - 1 =
      ((0 : Nat) : Int) + ([] :: keys).length - 1 := by
    simp only [readerOf, built.count, length_cons]
    omega
  have implicit : atMost target ([] :: keys) = atMost target keys + 1 := by
    simp [atMost]
  rw [TrieReader.floorBlock, total]
  refine found.trans ?_
  rw [implicit]
  omega

/-- The floor of a target is the number of keys that do not pass it. -/
theorem floorBlock_counts (keys : List Key) (nonempty : ∀ key ∈ keys, key ≠ [])
    (short : ∀ key ∈ keys, key.length ≤ maxLen)
    (increasing : keys.Pairwise fun low high => low < high) (few : keys.length < maxBlocks)
    (front back : Bytes) (target : Key) : (readerOf keys front back).floorBlock target =
      (keys.countP fun key => key ≤ target : Nat) :=
  floorBlock_eq ⟨nonempty, short, increasing, few⟩ front back target

theorem floorBlock_counts_shared :
    (readerOf [[1], [1, 2], [1, 9], [3]] [7] []).floorBlock [1, 4] = 2 := by
  have counted := floorBlock_counts [[1], [1, 2], [1, 9], [3]] (by decide) (by decide)
    (by decide) (by decide) [7] [] [1, 4]
  exact counted.trans (by decide)

end Luxir.Index.TrieRoundTrip
