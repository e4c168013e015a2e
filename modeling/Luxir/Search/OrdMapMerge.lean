import Luxir.Lib.SortedUnion
import Luxir.Util.Heap
import Mathlib.Algebra.Order.Ring.Nat
import Mathlib.Data.Prod.Lex

/-!
The merge of the segments' terms. A heap holds an enumeration for each segment that has terms left;
its top is on the least term. All enumerations on one term get the same global ordinal, and each
records how far it lies above the segment's own.
-/

namespace Luxir.Search.OrdMapMerge
open Lib.SortedUnion Util.Heap List Function Option StdHeap

variable {α : Type}

structure TermsEnumIdx (α : Type) where
  idx : Nat
  numTerms : Nat
  ord : Nat
  term : α
  later : List α

def TermsEnumIdx.start (idx : Nat) : List α → Option (TermsEnumIdx α)
  | [] => none
  | term :: later => some ⟨idx, later.length + 1, 0, term, later⟩

def TermsEnumIdx.nextTerm (entry : TermsEnumIdx α) : Option (TermsEnumIdx α) :=
  match entry.later with
  | [] => none
  | term :: later => some { entry with ord := entry.ord + 1, term := term, later := later }

section
variable [LinearOrder α]

/-- The first lies behind the second: by term, then by a smaller segment, then by its number. -/
def termCmp (first second : TermsEnumIdx α) : Bool :=
  if first.term ≠ second.term then second.term < first.term
  else if first.numTerms ≠ second.numTerms then first.numTerms < second.numTerms
  else second.idx < first.idx

/-- The queue after its top went on to its next term, or was removed. -/
def advance [StdHeap (termCmp (α := α))] (queue : List (TermsEnumIdx α)) (entry : TermsEnumIdx α) :
    List (TermsEnumIdx α) :=
  match entry.nextTerm with
  | some next => updateHeapTop termCmp (next :: queue.tail)
  | none => popHeap termCmp queue

end

/-- `added` has the deltas of each segment, in the order in which they were added. -/
structure State (α : Type) where
  queue : List (TermsEnumIdx α)
  added : Nat → List Nat
  firstSegs : List Nat
  globDeltas : List Nat
  globalOrd : Nat

section
variable [LinearOrder α] [StdHeap (termCmp (α := α))]

def addTop (state : State α) (entry : TermsEnumIdx α) : State α :=
  { state with
    queue := advance state.queue entry
    added := update state.added entry.idx (state.added entry.idx ++ [state.globalOrd - entry.ord]) }

def addSame (term : α) : Nat → State α → State α
  | 0, state => state
  | fuel + 1, state =>
      match state.queue.head? with
      | none => state
      | some entry =>
          let state := addTop state entry
          if state.queue.head?.any fun next => next.term = term then addSame term fuel state
          else state

def remaining (queue : List (TermsEnumIdx α)) : Nat :=
  (queue.map fun entry => entry.later.length + 1).sum

/-- The terms in order, one global ordinal for each. -/
def mergeTerms : Nat → State α → State α
  | 0, state => state
  | fuel + 1, state =>
      match state.queue.head? with
      | none => state
      | some first =>
          let state := { state with
            firstSegs := state.firstSegs ++ [first.idx]
            globDeltas := state.globDeltas ++ [state.globalOrd - first.ord] }
          let state := addSame first.term (remaining state.queue) state
          mergeTerms fuel { state with globalOrd := state.globalOrd + 1 }

def startQueue (segments : List (List α)) : List (TermsEnumIdx α) :=
  segments.zipIdx.filterMap fun segment => TermsEnumIdx.start segment.2 segment.1

def State.start (segments : List (List α)) : State α :=
  ⟨makeHeap termCmp (startQueue segments), fun _ => [], [], [], 0⟩

def merge (segments : List (List α)) : State α :=
  mergeTerms (remaining (State.start segments).queue) (State.start segments)

end

variable {queue : List (TermsEnumIdx α)} {term : α}

section
variable [LinearOrder α]

/-- Entries are compared by term, then by the number of terms, then by segment. -/
def rank (entry : TermsEnumIdx α) : αᵒᵈ ×ₗ ℕ ×ₗ ℕᵒᵈ :=
  toLex (.toDual entry.term, toLex (entry.numTerms, .toDual entry.idx))

theorem termCmp_iff (first second : TermsEnumIdx α) :
    termCmp first second = true ↔ rank first < rank second := by
  unfold termCmp rank
  rw [Prod.Lex.toLex_lt_toLex, Prod.Lex.toLex_lt_toLex]
  split_ifs with terms sizes <;> simp_all

instance : IsStrictWeakOrder (TermsEnumIdx α) fun first second => termCmp first second where
  irrefl entry := by simp [termCmp_iff]
  trans first second third := by
    simp only [termCmp_iff]
    exact lt_trans
  incomp_trans first second third := by
    simp only [termCmp_iff, not_lt]
    exact fun one two => ⟨two.1.trans one.1, one.2.trans two.2⟩

theorem term_le_of_not_cmp {first second : TermsEnumIdx α}
    (before : ¬ termCmp first second = true) : first.term ≤ second.term := by
  unfold termCmp at before
  split_ifs at before with differ
  · exact not_lt.mp (by simpa using before)
  all_goals exact (not_not.mp differ).le

theorem top_le {entry : TermsEnumIdx α} (ordered : Ordered termCmp queue)
    (found : queue.head? = some entry) : ∀ other ∈ queue, entry.term ≤ other.term := by
  intro other mem
  obtain ⟨place, here⟩ := mem_iff_getElem?.mp mem
  exact term_le_of_not_cmp (ordered.top place entry (head?_eq_getElem? ▸ found) other here)

end

section
variable {entry : TermsEnumIdx α}

theorem idx_nextTerm {next : TermsEnumIdx α} (moved : entry.nextTerm = some next) :
    next.idx = entry.idx := by
  unfold TermsEnumIdx.nextTerm at moved
  split at moved <;> cases moved
  rfl

section
variable [LinearOrder α] [StdHeap (termCmp (α := α))] (ordered : Ordered termCmp queue)
  (found : queue.head? = some entry)
include ordered found

theorem advance_perm : ∃ rest, queue = entry :: rest ∧
    advance queue entry ~ entry.nextTerm.toList ++ rest := by
  obtain ⟨rest, rfl⟩ := head?_eq_some_iff.mp found
  refine ⟨rest, rfl, ?_⟩
  unfold advance
  cases entry.nextTerm with
  | none => exact popHeap_perm _ rest ordered
  | some => exact (updateHeapTop_spec ordered).1

theorem advance_ordered : Ordered termCmp (advance queue entry) := by
  obtain ⟨rest, rfl⟩ := head?_eq_some_iff.mp found
  unfold advance
  cases entry.nextTerm with
  | none => exact popHeap_ordered _ rest ordered
  | some => exact (updateHeapTop_spec ordered).2

theorem mem_advance (distinct : (queue.map TermsEnumIdx.idx).Nodup) {other : TermsEnumIdx α} :
    other ∈ advance queue entry ↔
      (other ∈ queue ∧ other.idx ≠ entry.idx) ∨ entry.nextTerm = some other := by
  obtain ⟨rest, rfl, advanced⟩ := advance_perm ordered found
  rw [map_cons, nodup_cons] at distinct
  have apart : other ∈ rest → other.idx ≠ entry.idx := fun here same =>
    distinct.1 (same ▸ mem_map_of_mem here)
  rw [advanced.mem_iff, mem_append, mem_cons, mem_toList]
  constructor
  · rintro (moved | here)
    · exact .inr moved
    · exact .inl ⟨.inr here, apart here⟩
  · rintro (⟨same | here, apart⟩ | moved)
    · exact absurd (congrArg TermsEnumIdx.idx same) apart
    · exact .inr here
    · exact .inl moved

theorem distinct_advance (distinct : (queue.map TermsEnumIdx.idx).Nodup) :
    ((advance queue entry).map TermsEnumIdx.idx).Nodup := by
  obtain ⟨rest, rfl, advanced⟩ := advance_perm ordered found
  rw [(advanced.map _).nodup_iff]
  cases moved : entry.nextTerm with
  | none => exact (nodup_cons.mp distinct).2
  | some =>
    rwa [toList_some, singleton_append, map_cons, idx_nextTerm moved]

theorem remaining_advance : remaining (advance queue entry) + 1 = remaining queue := by
  obtain ⟨rest, rfl, advanced⟩ := advance_perm ordered found
  rw [remaining, (advanced.map _).sum_nat]
  simp only [remaining, map_append, map_cons, sum_append, sum_cons]
  unfold TermsEnumIdx.nextTerm
  cases entry.later with
  | nil => simp; omega
  | cons => simp; omega

end

theorem remaining_pos (mem : entry ∈ queue) : 0 < remaining queue := by
  obtain ⟨before, after, split⟩ := append_of_mem mem
  simp only [remaining, split, map_append, map_cons, sum_append, sum_cons]
  omega

end

theorem mem_startQueue {segments : List (List α)} {entry : TermsEnumIdx α} :
    entry ∈ startQueue segments ↔
    ∃ terms, segments[entry.idx]? = some terms ∧ entry.numTerms = terms.length ∧ entry.ord = 0 ∧
      terms = entry.term :: entry.later := by
  simp only [startQueue, mem_filterMap, Prod.exists, mk_mem_zipIdx_iff_getElem?]
  constructor
  · rintro ⟨terms, idx, segment, opened⟩
    cases terms with
    | nil => cases opened
    | cons =>
      cases opened
      exact ⟨_, segment, rfl, rfl, rfl⟩
  · rintro ⟨terms, segment, count, zero, rfl⟩
    refine ⟨_, entry.idx, segment, ?_⟩
    obtain ⟨idx, numTerms, ord, term, later⟩ := entry
    dsimp only at count zero
    subst count zero
    rfl

theorem distinct_startQueue (segments : List (List α)) :
    ((startQueue segments).map TermsEnumIdx.idx).Nodup := by
  have part :
      ((startQueue segments).map TermsEnumIdx.idx).Sublist (segments.zipIdx.map Prod.snd) := by
    unfold startQueue
    induction segments.zipIdx with
    | nil => exact .slnil
    | cons segment rest ih =>
      obtain ⟨terms, idx⟩ := segment
      cases terms with
      | nil => exact ih.cons _
      | cons => exact ih.cons_cons idx
  rw [zipIdx_map_snd] at part
  exact part.nodup nodup_range'

variable [LinearOrder α] {segments : List (List α)}

/-- The state of a merge that gave ordinals to the terms of `emitted`, in order. -/
structure Merging (segments : List (List α)) (emitted : List α) (state : State α) : Prop where
  heap : Ordered termCmp state.queue
  sorted : emitted.Pairwise (· < ·)
  known : ∀ term ∈ emitted, ∃ terms ∈ segments, term ∈ terms
  distinct : (state.queue.map TermsEnumIdx.idx).Nodup
  placed : ∀ entry ∈ state.queue, ∃ terms, segments[entry.idx]? = some terms ∧
    terms.drop entry.ord = entry.term :: entry.later ∧ (state.added entry.idx).length = entry.ord
  finished : ∀ (idx : Nat) terms, segments[idx]? = some terms →
    (∃ entry ∈ state.queue, entry.idx = idx) ∨ (state.added idx).length = terms.length
  mapped : ∀ (idx : Nat) terms, segments[idx]? = some terms → ∀ ord delta : Nat,
    (state.added idx)[ord]? = some delta → ∃ term, terms[ord]? = some term ∧
      emitted[ord + delta]? = some term

structure Resolves (segments : List (List α)) (emitted : List α) (firstSegs globDeltas : List Nat) :
    Prop where
  segs : firstSegs.length = emitted.length
  deltas : globDeltas.length = emitted.length
  found : ∀ ord seg delta : Nat, firstSegs[ord]? = some seg → globDeltas[ord]? = some delta →
    delta ≤ ord ∧ ∃ terms, segments[seg]? = some terms ∧ terms[ord - delta]? = emitted[ord]?

variable {emitted : List α} {state : State α} {entry : TermsEnumIdx α}

/-- A segment is never ahead of the global ordinals. -/
theorem Merging.ord_le (merging : Merging segments emitted state) (mem : entry ∈ state.queue) :
    entry.ord ≤ emitted.length := by
  obtain ⟨terms, segment, -, count⟩ := merging.placed entry mem
  by_contra ahead
  have last : entry.ord - 1 < (state.added entry.idx).length := by omega
  obtain ⟨term, -, place⟩ := merging.mapped entry.idx terms segment (entry.ord - 1) _
    (getElem?_eq_getElem last)
  have lt := (List.getElem?_eq_some_iff.mp place).1
  omega

theorem Merging.emit (merging : Merging segments emitted state)
    (greater : ∀ seen ∈ emitted, seen < term) (known : ∃ terms ∈ segments, term ∈ terms) :
    Merging segments (emitted ++ [term]) state where
  heap := merging.heap
  sorted := pairwise_append.mpr ⟨merging.sorted, pairwise_singleton _ _,
    fun seen mem => forall_mem_singleton.mpr (greater seen mem)⟩
  known := forall_mem_append.mpr ⟨merging.known, forall_mem_singleton.mpr known⟩
  distinct := merging.distinct
  placed := merging.placed
  finished := merging.finished
  mapped idx terms segment ord delta added := by
    obtain ⟨found, here, place⟩ := merging.mapped idx terms segment ord delta added
    exact ⟨found, here, by rw [getElem?_append_left (List.getElem?_eq_some_iff.mp place).1, place]⟩

variable (rising : ∀ terms ∈ segments, terms.Pairwise (· < ·))
include rising

theorem Merging.ord_le_last (merging : Merging segments (emitted ++ [term]) state)
    (mem : entry ∈ state.queue) (same : entry.term = term) : entry.ord ≤ emitted.length := by
  obtain ⟨terms, segment, here, count⟩ := merging.placed entry mem
  by_contra ahead
  have last : entry.ord - 1 < (state.added entry.idx).length := by omega
  obtain ⟨before, found, place⟩ := merging.mapped entry.idx terms segment (entry.ord - 1) _
    (getElem?_eq_getElem last)
  have now : terms[entry.ord]? = some term := by
    rw [← same, ← add_zero entry.ord, ← getElem?_drop, here]
    rfl
  obtain ⟨lt, this⟩ := List.getElem?_eq_some_iff.mp now
  obtain ⟨earlier, that⟩ := List.getElem?_eq_some_iff.mp found
  have less : before < term := by
    rw [← this, ← that]
    exact pairwise_iff_getElem.mp (rising terms (mem_of_getElem? segment)) _ _ _ _ (by omega)
  obtain ⟨bound, value⟩ := List.getElem?_eq_some_iff.mp place
  rw [length_append, length_singleton] at bound
  have final : entry.ord - 1 + (state.added entry.idx)[entry.ord - 1] = emitted.length := by omega
  rw [getElem_append_right (by omega)] at value
  simp only [final, Nat.sub_self, getElem_cons_zero] at value
  exact absurd value less.ne'

variable [StdHeap (termCmp (α := α))]

theorem Merging.addTop (merging : Merging segments (emitted ++ [term]) state)
    (count : state.globalOrd = emitted.length) (found : state.queue.head? = some entry)
    (same : entry.term = term) : Merging segments (emitted ++ [term]) (addTop state entry) where
  heap := advance_ordered merging.heap found
  sorted := merging.sorted
  known := merging.known
  distinct := distinct_advance merging.heap found merging.distinct
  placed other here := by
    obtain ⟨terms, segment, rest, length⟩ := merging.placed entry (mem_of_head? found)
    rcases (mem_advance merging.heap found merging.distinct).mp here with ⟨old, apart⟩ | moved
    · obtain ⟨terms, segment, rest, length⟩ := merging.placed other old
      refine ⟨terms, segment, rest, ?_⟩
      dsimp only [OrdMapMerge.addTop]
      rw [update_of_ne apart, length]
    · unfold TermsEnumIdx.nextTerm at moved
      split at moved
      · cases moved
      next next later more =>
      cases moved
      refine ⟨terms, segment, ?_, ?_⟩
      · rw [← drop_drop, rest, more]
        rfl
      · dsimp only [OrdMapMerge.addTop]
        rw [update_self, length_append, length, length_singleton]
  finished idx terms segment := by
    by_cases own : idx = entry.idx
    · subst own
      cases moved : entry.nextTerm with
      | some next =>
        exact .inl ⟨next, (mem_advance merging.heap found merging.distinct).mpr (.inr moved),
          idx_nextTerm moved⟩
      | none =>
        right
        obtain ⟨terms', segment', rest, length⟩ := merging.placed entry (mem_of_head? found)
        obtain rfl := some.inj (segment.symm.trans segment')
        unfold TermsEnumIdx.nextTerm at moved
        split at moved
        · next last =>
          have total := congrArg List.length rest
          rw [last, length_drop] at total
          dsimp only [OrdMapMerge.addTop]
          rw [update_self, length_append, length, length_singleton]
          simp only [length_cons, length_nil] at total
          omega
        · cases moved
    · rcases merging.finished idx terms segment with ⟨other, here, named⟩ | done
      · exact .inl ⟨other, (mem_advance merging.heap found merging.distinct).mpr
          (.inl ⟨here, named ▸ own⟩), named⟩
      · right
        dsimp only [OrdMapMerge.addTop]
        rw [update_of_ne own, done]
  mapped idx terms segment ord delta added := by
    dsimp only [OrdMapMerge.addTop] at added
    by_cases own : idx = entry.idx
    · subst own
      obtain ⟨terms', segment', rest, length⟩ := merging.placed entry (mem_of_head? found)
      obtain rfl := some.inj (segment.symm.trans segment')
      rw [update_self] at added
      rcases lt_or_ge ord (state.added entry.idx).length with old | new
      · rw [getElem?_append_left old] at added
        exact merging.mapped _ _ segment ord delta added
      have lt := (List.getElem?_eq_some_iff.mp added).1
      rw [length_append, length_singleton] at lt
      have here : ord = entry.ord := by omega
      rw [getElem?_append_right new, here, length, Nat.sub_self] at added
      have value := some.inj added
      have reach := merging.ord_le_last rising (mem_of_head? found) same
      have place : ord + delta = emitted.length := by omega
      refine ⟨term, ?_, ?_⟩
      · rw [here, ← add_zero entry.ord, ← getElem?_drop, rest, same]
        rfl
      · rw [place, getElem?_append_right le_rfl, Nat.sub_self]
        rfl
    · rw [update_of_ne own] at added
      exact merging.mapped idx terms segment ord delta added

structure During (segments : List (List α)) (emitted : List α) (term : α) (state : State α) : Prop
    where
  merging : Merging segments (emitted ++ [term]) state
  count : state.globalOrd = emitted.length
  above : ∀ entry ∈ state.queue, term ≤ entry.term

theorem During.addTop (during : During segments emitted term state)
    (found : state.queue.head? = some entry) (same : entry.term = term) :
    During segments emitted term (addTop state entry) where
  merging := during.merging.addTop rising during.count found same
  count := during.count
  above other here := by
    rcases (mem_advance during.merging.heap found during.merging.distinct).mp here with
      ⟨old, -⟩ | moved
    · exact during.above other old
    obtain ⟨terms, segment, rest, -⟩ := during.merging.placed entry (mem_of_head? found)
    have sorted := (rising terms (mem_of_getElem? segment)).drop (i := entry.ord)
    unfold TermsEnumIdx.nextTerm at moved
    split at moved
    · cases moved
    next next later more =>
    cases moved
    rw [rest, more] at sorted
    rw [← same]
    exact ((pairwise_cons.mp sorted).1 next mem_cons_self).le

/-- One round adds every entry on the term, and changes nothing else. -/
theorem addSame_spec {fuel : Nat} (during : During segments emitted term state)
    (found : state.queue.head? = some entry) (same : entry.term = term)
    (enough : remaining state.queue ≤ fuel) :
    During segments emitted term (addSame term fuel state) ∧
      (∀ other ∈ (addSame term fuel state).queue, term < other.term) ∧
      (addSame term fuel state).firstSegs = state.firstSegs ∧
      (addSame term fuel state).globDeltas = state.globDeltas ∧
      remaining (addSame term fuel state).queue < remaining state.queue := by
  induction fuel generalizing state entry with
  | zero =>
    have pos := remaining_pos (mem_of_head? found)
    omega
  | succ fuel ih =>
    have next := during.addTop rising found same
    have fewer : remaining (addTop state entry).queue + 1 = remaining state.queue :=
      remaining_advance during.merging.heap found
    rw [addSame, found]
    dsimp only
    split
    · next again =>
      cases there : (addTop state entry).queue.head? with
      | none =>
        rw [there] at again
        cases again
      | some =>
        rw [there] at again
        obtain ⟨done, past, segs, deltas, less⟩ :=
          ih next there (of_decide_eq_true again) (by omega)
        exact ⟨done, past, segs, deltas, by omega⟩
    · next ends =>
      refine ⟨next, fun other here => ?_, rfl, rfl, by omega⟩
      apply lt_of_le_of_ne (next.above other here)
      rintro rfl
      cases last : (addTop state entry).queue.head? with
      | none =>
        rw [head?_eq_none_iff.mp last] at here
        cases here
      | some best =>
        have least := top_le next.merging.heap last other here
        have best_above := next.above best (mem_of_head? last)
        rw [last] at ends
        exact ends (by simpa using le_antisymm least best_above)

structure Between (segments : List (List α)) (emitted : List α) (state : State α) : Prop where
  merging : Merging segments emitted state
  count : state.globalOrd = emitted.length
  resolves : Resolves segments emitted state.firstSegs state.globDeltas
  behind : ∀ entry ∈ state.queue, ∀ seen ∈ emitted, seen < entry.term

omit rising [StdHeap (termCmp (α := α))] in
theorem Between.resolves_emit (between : Between segments emitted state)
    (mem : entry ∈ state.queue) :
    Resolves segments (emitted ++ [entry.term]) (state.firstSegs ++ [entry.idx])
      (state.globDeltas ++ [state.globalOrd - entry.ord]) where
  segs := by rw [length_append, length_append, between.resolves.segs]; rfl
  deltas := by rw [length_append, length_append, between.resolves.deltas]; rfl
  found ord seg delta first gap := by
    have segs := between.resolves.segs
    have deltas := between.resolves.deltas
    rcases lt_or_ge ord emitted.length with old | new
    · rw [getElem?_append_left (by omega)] at first gap ⊢
      exact between.resolves.found ord seg delta first gap
    have lt := (List.getElem?_eq_some_iff.mp first).1
    rw [length_append, length_singleton] at lt
    have here : ord = emitted.length := by omega
    rw [getElem?_append_right (by omega), here, segs, Nat.sub_self] at first
    rw [getElem?_append_right (by omega), here, deltas, Nat.sub_self] at gap
    have seg_eq : entry.idx = seg := some.inj first
    have gap_eq := some.inj gap
    obtain ⟨terms, segment, rest, -⟩ := between.merging.placed entry mem
    have reach := between.merging.ord_le mem
    have count := between.count
    have place : ord - delta = entry.ord := by omega
    refine ⟨by omega, terms, seg_eq ▸ segment, ?_⟩
    rw [place, here, getElem?_append_right le_rfl, Nat.sub_self, ← add_zero entry.ord,
      ← getElem?_drop, rest]
    rfl

theorem mergeTerms_spec {fuel : Nat} (between : Between segments emitted state)
    (enough : remaining state.queue ≤ fuel) :
    ∃ emitted', Between segments emitted' (mergeTerms fuel state) ∧
      (mergeTerms fuel state).queue = [] := by
  induction fuel generalizing state emitted with
  | zero =>
    refine ⟨emitted, between, eq_nil_iff_forall_not_mem.mpr fun entry mem => ?_⟩
    have pos : 0 < remaining state.queue := remaining_pos mem
    omega
  | succ fuel ih =>
    rw [mergeTerms]
    split
    · next bare => exact ⟨emitted, between, head?_eq_none_iff.mp bare⟩
    next first found =>
    have mem := mem_of_head? found
    obtain ⟨terms, segment, rest, -⟩ := between.merging.placed first mem
    have known : ∃ terms ∈ segments, first.term ∈ terms := by
      refine ⟨terms, mem_of_getElem? segment, mem_of_mem_drop (i := first.ord) ?_⟩
      rw [rest]
      exact mem_cons_self
    have emit := between.merging.emit (between.behind first mem) known
    have during : During segments emitted first.term { state with
        firstSegs := state.firstSegs ++ [first.idx]
        globDeltas := state.globDeltas ++ [state.globalOrd - first.ord] } :=
      ⟨{ emit with }, between.count, top_le between.merging.heap found⟩
    obtain ⟨done, above, segs, deltas, fewer⟩ := addSame_spec rising during found rfl le_rfl
    dsimp only at segs deltas fewer ⊢
    refine ih (?_ : Between segments (emitted ++ [first.term]) _) (by dsimp only; omega)
    refine ⟨{ done.merging with }, ?_, ?_, ?_⟩
    · rw [length_append, length_singleton, ← done.count]
    · rw [segs, deltas]
      exact between.resolves_emit mem
    · intro other here seen old
      rcases mem_append.mp old with before | last
      · exact (between.behind first mem seen before).trans (above other here)
      · rw [mem_singleton.mp last]
        exact above other here

omit rising in
theorem between_start (segments : List (List α)) : Between segments [] (State.start segments) where
  merging :=
    have made : makeHeap termCmp (startQueue segments) ~ startQueue segments := makeHeap_perm _
    { heap := makeHeap_ordered _
      sorted := .nil
      known := fun term mem => absurd mem not_mem_nil
      distinct := ((made.map _).nodup_iff).mpr (distinct_startQueue segments)
      placed := fun entry mem => by
        obtain ⟨terms, segment, -, zero, split⟩ := mem_startQueue.mp (made.mem_iff.mp mem)
        exact ⟨terms, segment, by rw [zero, drop_zero, split], zero.symm⟩
      finished := fun idx terms segment => by
        cases terms with
        | nil => exact Or.inr rfl
        | cons term later =>
          exact Or.inl ⟨⟨idx, later.length + 1, 0, term, later⟩,
            made.mem_iff.mpr (mem_startQueue.mpr ⟨_, segment, rfl, rfl, rfl⟩), rfl⟩
      mapped := fun idx terms segment ord delta added => by cases added }
  count := rfl
  resolves := ⟨rfl, rfl, fun ord seg delta first => by cases first⟩
  behind entry mem seen old := absurd old not_mem_nil

structure Merged (segments : List (List α)) (state : State α) : Prop where
  count : state.globalOrd = (union segments).length
  lengths : ∀ (idx : Nat) terms, segments[idx]? = some terms →
    (state.added idx).length = terms.length
  mapped : ∀ (idx : Nat) terms, segments[idx]? = some terms → ∀ ord delta : Nat,
    (state.added idx)[ord]? = some delta → (union segments)[ord + delta]? = terms[ord]?
  resolves : Resolves segments (union segments) state.firstSegs state.globDeltas

theorem merge_spec : Merged segments (merge segments) := by
  obtain ⟨emitted, between, empty⟩ := mergeTerms_spec rising (between_start segments) le_rfl
  change Between segments emitted (merge segments) at between
  change (merge segments).queue = [] at empty
  have lengths : ∀ (idx : Nat) terms, segments[idx]? = some terms →
      ((merge segments).added idx).length = terms.length := by
    intro idx terms segment
    rcases between.merging.finished idx terms segment with ⟨entry, mem, -⟩ | done
    · rw [empty] at mem
      cases mem
    · exact done
  have whole : emitted = union segments := by
    apply eq_union between.merging.sorted
    intro value
    constructor
    · exact between.merging.known value
    rintro ⟨terms, mem, here⟩
    obtain ⟨idx, lt, rfl⟩ := getElem_of_mem mem
    obtain ⟨ord, within, rfl⟩ := getElem_of_mem here
    have segment := getElem?_eq_getElem lt
    obtain ⟨term, found, place⟩ := between.merging.mapped idx _ segment ord _
      (getElem?_eq_getElem (by rw [lengths idx _ segment]; exact within))
    rw [getElem?_eq_getElem within] at found
    rw [some.inj found]
    exact mem_of_getElem? place
  subst whole
  refine ⟨between.count, lengths, fun idx terms segment ord delta added => ?_, between.resolves⟩
  obtain ⟨term, found, place⟩ := between.merging.mapped idx terms segment ord delta added
  rw [found, place]

end Luxir.Search.OrdMapMerge
