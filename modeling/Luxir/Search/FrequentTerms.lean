import Mathlib.Algebra.Order.Ring.Int
import Mathlib.Data.List.Sort

/-! The terms of largest document frequency of a field, kept in a bounded heap. -/

namespace Luxir.Search.FrequentTerms
open List

structure Entry where
  ord : Int
  df : Int
deriving DecidableEq

structure TopTerms where
  entries : List Entry
  unlistedBound : Int

def stronger (a b : Entry) : Bool :=
  if a.df ≠ b.df then a.df > b.df else a.ord < b.ord

/-- `a` comes no later than `b`: frequencies descend, and ords ascend within one frequency. -/
abbrev Ranks (a b : Entry) : Prop := stronger b a = false

theorem ranks_iff {a b : Entry} : Ranks a b ↔ b.df < a.df ∨ a.df = b.df ∧ a.ord ≤ b.ord := by
  unfold Ranks stronger
  split <;> simp only [decide_eq_false_iff_not] <;> omega

theorem Ranks.trans {a b c : Entry} : Ranks a b → Ranks b c → Ranks a c := by
  simp only [ranks_iff]
  omega

instance : IsTrans Entry Ranks := ⟨fun _ _ _ => Ranks.trans⟩

instance : Std.Total Ranks := ⟨fun _ _ => by simp only [ranks_iff]; omega⟩

instance : Std.Antisymm Ranks :=
  ⟨fun ⟨_, _⟩ ⟨_, _⟩ => by simp only [ranks_iff, Entry.mk.injEq]; omega⟩

structure TopTermsBuilder where
  dfThreshold : Int
  maxEntries : Nat
  nonempty : 0 < maxEntries
  added : Nat := 0
  aboveThreshold : Nat := 0
  maxDf : Int := 0
  -- the heap in the order of its entries: its front, the weakest entry, is the last one here
  entries : List Entry := []

def push (maxEntries : Nat) (entries : List Entry) (entry : Entry) : List Entry :=
  if entries.length < maxEntries then entries.orderedInsert Ranks entry
  else if entries.getLast?.any (stronger entry) then
    entries.dropLast.orderedInsert Ranks entry
  else entries

def TopTermsBuilder.add (builder : TopTermsBuilder) (entry : Entry) : TopTermsBuilder :=
  if entry.df ≤ 0 then builder
  else { builder with
    added := builder.added + 1
    maxDf := if entry.df > builder.maxDf then entry.df else builder.maxDf
    aboveThreshold :=
      if entry.df > builder.dfThreshold then builder.aboveThreshold + 1
      else builder.aboveThreshold
    entries := push builder.maxEntries builder.entries entry }

def TopTermsBuilder.keep (builder : TopTermsBuilder) : Nat :=
  min builder.entries.length
    (max builder.aboveThreshold (min builder.maxEntries (builder.added / 64)))

def TopTermsBuilder.finish (builder : TopTermsBuilder) : TopTerms where
  entries := builder.entries.take builder.keep
  unlistedBound :=
    if builder.keep = 0 then builder.maxDf
    else if builder.keep ≥ builder.added then 0
    else ((builder.entries.take builder.keep).getLast?.map Entry.df).getD 0

def topTerms (dfThreshold : Int) (maxEntries : Nat) (nonempty : 0 < maxEntries)
    (terms : List Entry) : TopTerms :=
  (terms.foldl TopTermsBuilder.add { dfThreshold, maxEntries, nonempty }).finish

/-- What a finished list promises about the terms that were added. -/
structure Certificate (dfThreshold : Int) (maxEntries : Nat) (terms : List Entry)
    (top : TopTerms) : Prop where
  sorted : top.entries.Pairwise Ranks
  leads : top.entries <+: terms.insertionSort Ranks
  frequent : ∀ term ∈ terms, 0 < term.df → dfThreshold < term.df →
    term ∈ top.entries ∨ top.entries.length = maxEntries
  bounded : ∀ term ∈ terms, term ∉ top.entries → term.df ≤ top.unlistedBound

/-- The heap holds the strongest terms; `rest` are those that are not in it. -/
structure Strongest (maxEntries : Nat) (entries rest : List Entry) : Prop where
  sorted : entries.Pairwise Ranks
  above : ∀ a ∈ entries, ∀ b ∈ rest, Ranks a b
  positive : ∀ a ∈ entries, 0 < a.df
  fits : entries.length ≤ maxEntries
  full : (∀ b ∈ rest, b.df ≤ 0) ∨ entries.length = maxEntries

theorem push_strongest {maxEntries : Nat} {entries rest : List Entry} {entry : Entry}
    (nonempty : 0 < maxEntries) (counts : 0 < entry.df) (heap : Strongest maxEntries entries rest) :
    ∃ left, push maxEntries entries entry ++ left ~ entry :: (entries ++ rest) ∧
      Strongest maxEntries (push maxEntries entries entry) left := by
  obtain ⟨sorted, above, positive, fits, full⟩ := heap
  unfold push
  split
  case isTrue room =>
    have nothing := full.resolve_right room.ne
    refine ⟨rest, (perm_orderedInsert Ranks entry entries).append_right rest,
      sorted.orderedInsert _ _, ?_, by simpa [counts], ?_, .inl nothing⟩
    · simp only [mem_orderedInsert, forall_eq_or_imp]
      exact ⟨fun b out => ranks_iff.mpr (.inl ((nothing b out).trans_lt counts)), above⟩
    · rwa [orderedInsert_length]
  case isFalse room =>
    obtain rfl | ⟨front, last, rfl⟩ := entries.eq_nil_or_concat'
    · simp [nonempty] at room
    obtain ⟨sorted_front, -, upper⟩ := pairwise_append.mp sorted
    simp only [length_append, length_singleton, mem_append, mem_singleton, forall_eq, or_imp,
      forall_and] at room fits above positive upper
    simp only [getLast?_concat, Option.any_some, dropLast_concat]
    split
    case isTrue stronger =>
      have entry_last : Ranks entry last := by
        rw [ranks_iff]
        simp only [FrequentTerms.stronger] at stronger
        split at stronger <;> simp only [decide_eq_true_eq] at stronger <;> omega
      refine ⟨last :: rest, ?_, sorted_front.orderedInsert _ _, ?_, ?_, ?_, .inr ?_⟩
      · simpa using (perm_orderedInsert Ranks entry front).append_right (last :: rest)
      · simp only [mem_orderedInsert, mem_cons, forall_eq_or_imp]
        exact ⟨⟨entry_last, fun b out => entry_last.trans (above.2 b out)⟩,
          fun a held => ⟨upper a held, above.1 a held⟩⟩
      · simpa [counts] using positive.1
      all_goals
        rw [orderedInsert_length]
        omega
    case isFalse weaker =>
      have last_entry : Ranks last entry := by simpa using weaker
      have size : (front ++ [last]).length = maxEntries := by
        rw [length_append, length_singleton]
        omega
      refine ⟨entry :: rest, perm_middle, sorted, ?_, ?_, size.le, .inr size⟩
      · simp only [mem_append, mem_cons, not_mem_nil, or_false, or_imp, forall_and, forall_eq]
        exact ⟨⟨fun a held => (upper a held).trans last_entry, last_entry⟩, above⟩
      · simpa [or_imp, forall_and]

structure Counted (dfThreshold : Int) (maxEntries : Nat) (builder : TopTermsBuilder)
    (terms : List Entry) : Prop where
  threshold : builder.dfThreshold = dfThreshold
  cap : builder.maxEntries = maxEntries
  heap : ∃ rest, builder.entries ++ rest ~ terms ∧ Strongest maxEntries builder.entries rest
  added : builder.added = terms.countP (0 < ·.df)
  above : builder.aboveThreshold = terms.countP (max 0 dfThreshold < ·.df)
  most : ∀ term ∈ terms, term.df ≤ builder.maxDf
  least : 0 ≤ builder.maxDf

section
variable {dfThreshold : Int} {maxEntries : Nat} {builder : TopTermsBuilder} {terms : List Entry}

theorem add_counted (entry : Entry) (inv : Counted dfThreshold maxEntries builder terms) :
    Counted dfThreshold maxEntries (builder.add entry) (terms ++ [entry]) := by
  obtain ⟨rfl, rfl, ⟨rest, held, heap⟩, added, above, most, least⟩ := inv
  have join := (held.cons entry).trans (perm_append_singleton entry terms).symm
  unfold TopTermsBuilder.add
  split
  case isTrue low =>
    refine ⟨rfl, rfl, ⟨entry :: rest, perm_middle.trans join, { heap with
      above := fun a inside => ?_
      full := ?_ }⟩, ?_, ?_, ?_, least⟩
    · have := heap.positive a inside
      simpa using ⟨ranks_iff.mpr (by omega), heap.above a inside⟩
    · simpa [low] using heap.full
    · simpa [low] using added
    · simpa [low] using above
    · simpa [or_imp, forall_and] using ⟨most, low.trans least⟩
  case isFalse counts =>
    obtain ⟨left, kept, pushed⟩ := push_strongest builder.nonempty (not_le.mp counts) heap
    refine ⟨rfl, rfl, ⟨left, kept.trans join, pushed⟩, ?_, ?_, ?_, ?_⟩
    · simp [added, not_le.mp counts]
    · simp only [countP_append, above, countP_singleton, decide_eq_true_eq]
      split_ifs <;> omega
    · simp only [mem_append, mem_singleton, or_imp, forall_and, forall_eq]
      refine ⟨fun term old => ?_, by split <;> omega⟩
      have := most term old
      split <;> omega
    · dsimp only
      split <;> omega

theorem foldl_counted (more : List Entry) (inv : Counted dfThreshold maxEntries builder terms) :
    Counted dfThreshold maxEntries (more.foldl .add builder) (terms ++ more) := by
  induction more generalizing builder terms with
  | nil => simpa using inv
  | cons entry more ih => simpa using ih (add_counted entry inv)

theorem lt_countP {listed others : List Entry} {term : Entry} (least : Int)
    (above : ∀ a ∈ listed, ∀ b ∈ others, Ranks a b) (outside : term ∈ others)
    (frequent : least < term.df) : listed.length < (listed ++ others).countP (least < ·.df) := by
  rw [countP_append, countP_eq_length.mpr]
  · exact Nat.lt_add_of_pos_right (countP_pos_iff.mpr ⟨term, outside, by simpa⟩)
  · intro a inside
    have := ranks_iff.mp (above a inside term outside)
    exact decide_eq_true (by omega)

theorem finish_certificate (inv : Counted dfThreshold maxEntries builder terms) :
    Certificate dfThreshold maxEntries terms builder.finish := by
  obtain ⟨-, rfl, ⟨rest, held, heap⟩, added, above, most, least⟩ := inv
  have keep_eq : builder.keep = min builder.entries.length
    (max builder.aboveThreshold (min builder.maxEntries (builder.added / 64))) := rfl
  have cut := builder.entries.take_append_drop builder.keep
  have length_listed := length_take (i := builder.keep) (l := builder.entries)
  unfold TopTermsBuilder.finish
  set listed := builder.entries.take builder.keep
  rw [← cut, append_assoc] at held
  obtain ⟨sorted, -, upper⟩ := pairwise_append.mp (cut ▸ heap.sorted)
  have ranks : ∀ a ∈ listed, ∀ b ∈ builder.entries.drop builder.keep ++ rest, Ranks a b := by
    intro a inside b outside
    obtain outside | outside := mem_append.mp outside
    · exact upper a inside b outside
    · exact heap.above a (take_subset _ _ inside) b outside
  have unlisted : ∀ term ∈ terms, term ∉ listed →
      term ∈ builder.entries.drop builder.keep ++ rest :=
    fun term mem out => (mem_append.mp (held.mem_iff.mpr mem)).resolve_left out
  refine ⟨sorted, ⟨(builder.entries.drop builder.keep ++ rest).insertionSort Ranks, ?_⟩, ?_, ?_⟩
  · refine Perm.eq_of_pairwise' (r := Ranks) ?_ (pairwise_insertionSort ..)
      (((perm_insertionSort ..).append_left _).trans (held.trans (perm_insertionSort ..).symm))
    refine pairwise_append.mpr ⟨sorted, pairwise_insertionSort .., fun a inside b outside => ?_⟩
    exact ranks a inside b ((mem_insertionSort _).mp outside)
  · intro term mem positive frequent
    refine or_iff_not_imp_left.mpr fun out => ?_
    have outside := unlisted term mem out
    have more := lt_countP (max 0 dfThreshold) ranks outside (max_lt positive frequent)
    rw [held.countP_eq, ← above] at more
    -- with more frequent terms than it lists, the list is the whole heap
    have whole : builder.keep = builder.entries.length := by omega
    rw [whole, drop_length, nil_append] at outside
    have := heap.full.resolve_left fun low => (low term outside).not_gt positive
    dsimp only
    omega
  · intro term mem out
    have outside := unlisted term mem out
    split_ifs with none_kept all_kept
    · exact most term mem
    · by_contra! positive
      have more := lt_countP 0 ranks outside positive
      rw [held.countP_eq, ← added] at more
      omega
    · cases found : listed.getLast? with
      | none =>
        rw [getLast?_eq_none_iff.mp found] at length_listed
        simp at length_listed
        omega
      | some last =>
        have := ranks_iff.mp (ranks last (mem_of_getLast? found) term outside)
        simp only [Option.map_some, Option.getD_some]
        omega
end

/-- The finished list is the head of all added terms in its order, holds the frequent ones as far as
it may, and bounds what it leaves out. -/
theorem topTerms_certificate (dfThreshold : Int) (maxEntries : Nat) (nonempty : 0 < maxEntries)
    (terms : List Entry) :
    Certificate dfThreshold maxEntries terms (topTerms dfThreshold maxEntries nonempty terms) := by
  have start : Counted dfThreshold maxEntries { dfThreshold, maxEntries, nonempty } [] :=
    ⟨rfl, rfl, ⟨[], .nil, by constructor <;> simp⟩, rfl, rfl, by simp, le_rfl⟩
  exact finish_certificate (foldl_counted terms start)

theorem topTerms_certificate_tie :
    (topTerms 2 1 one_pos [⟨4, 3⟩, ⟨1, 3⟩, ⟨0, 2⟩]).entries = [⟨1, 3⟩] ∧
      Certificate 2 1 [⟨4, 3⟩, ⟨1, 3⟩, ⟨0, 2⟩] (topTerms 2 1 one_pos [⟨4, 3⟩, ⟨1, 3⟩, ⟨0, 2⟩]) :=
  ⟨by decide, topTerms_certificate 2 1 one_pos _⟩

/-- Below a negative threshold, a term without documents is frequent and yet never listed. -/
theorem not_certificate_of_negative :
    ¬ ∀ term ∈ [(⟨0, 0⟩ : Entry)], -1 < term.df →
      term ∈ (topTerms (-1) 1 one_pos [⟨0, 0⟩]).entries ∨
        (topTerms (-1) 1 one_pos [⟨0, 0⟩]).entries.length = 1 := by
  decide

end Luxir.Search.FrequentTerms
