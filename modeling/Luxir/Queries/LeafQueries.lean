import Luxir.Search.FilterKeys

/-!
The queries at the leaves of a query tree, and the documents that each matches in a segment. A
segment has a dictionary of terms with postings for each indexed field, the documents that have the
field, and a numeric column. How a sloppy phrase is found among positions is a parameter.
-/

namespace Luxir.Queries.LeafQueries
open Search.FilterKeys

structure Posting where
  doc : Nat
  positions : List Int

structure Entry where
  term : Term
  postings : List Posting

def Entry.docFreq (entry : Entry) : Nat := entry.postings.length

/-- Dictionaries are sorted by the bytes of the terms. -/
structure Segment where
  maxDoc : Nat
  dictionary : Bytes → List Entry
  sorted : ∀ field, (dictionary field).Pairwise fun first second =>
    first.term.val < second.term.val
  hasField : Bytes → Nat → Bool
  values : Bytes → Nat → List Int64

structure ValueRange where
  lo : Int64
  hi : Int64
  deriving DecidableEq

def coalesce (values : List Int64) : List ValueRange :=
  values.foldl (fun intervals value =>
    match intervals.getLast? with
    | some last =>
        if last.hi ≠ Int64.maxValue ∧ value = last.hi + 1 then
          intervals.dropLast ++ [⟨last.lo, value⟩]
        else intervals ++ [⟨value, value⟩]
    | none => [⟨value, value⟩]) []

structure ExactValues where
  values : List Int64
  intervals : List ValueRange
  sorted : values.Pairwise (· < ·)
  several : 1 < values.length
  coalesced : intervals = coalesce values

inductive Leaf where
  | matchNoDocs
  | term (field : Bytes) (term : Term) (useFrontierBound hasInjectedTermStats : Bool)
  | phrase (field : Bytes) (terms : List Term) (positions : List Int32) (slop : Int32)
  | prefixed (field : Bytes) (lead : Term) (maxExpansions : Int32)
  | termRange (field : Bytes) (lower : Option Term) (includeLower : Bool)
      (upper : Option Term) (includeUpper : Bool)
  | termInSet (field : Bytes) (terms : List Term)
  | fieldExists (field : Bytes)
  | numericRange (field : Bytes) (lo hi : Int64) (filterKeyScope : FilterKeyScope)
  | numericSet (field : Bytes) (exact : ExactValues) (filterKeyScope : FilterKeyScope)

/-- The terms that start with `lead`: the scan begins at its place and ends at the first other. -/
def prefixTerms (lead : Term) (dictionary : List Entry) : List Entry :=
  (dictionary.dropWhile fun entry => entry.term.val < lead.val).takeWhile
    fun entry => lead.val.isPrefixOf entry.term.val

def rangeTerms (lower : Option Term) (includeLower : Bool) (upper : Option Term)
    (includeUpper : Bool) (dictionary : List Entry) : List Entry :=
  let start : List Entry := match lower with
    | none => dictionary
    | some bound =>
        let found := dictionary.dropWhile fun entry => entry.term.val < bound.val
        match found with
        | [] => []
        | entry :: rest => if !includeLower && entry.term = bound then rest else found
  start.takeWhile fun entry =>
    match upper with
    | none => true
    | some bound => entry.term.val < bound.val || (entry.term = bound && includeUpper)

/-- The terms of a sorted set: the dictionary and the set pass over what the other lacks. -/
def explicitTerms : List Term → List Entry → List Entry
  | [], _ => []
  | _ :: _, [] => []
  | candidate :: candidates, entry :: entries =>
      if entry.term = candidate then entry :: explicitTerms candidates entries
      else if candidate.val < entry.term.val then
        explicitTerms (candidates.dropWhile fun term => term.val < entry.term.val) (entry :: entries)
      else
        explicitTerms (candidate :: candidates)
          (entries.dropWhile fun later => later.term.val < candidate.val)
termination_by candidates entries => candidates.length + entries.length
decreasing_by
  · simp
    omega
  · have short := (List.dropWhile_sublist (l := candidates)
      fun term => decide (term.val < entry.term.val)).length_le
    simp
    omega
  · have short := (List.dropWhile_sublist (l := entries)
      fun later => decide (later.term.val < candidate.val)).length_le
    simp
    omega

/-- Of two terms with their places, the one with the higher document frequency, or the earlier. -/
def strongerTerm (first second : Entry × Nat) : Bool :=
  if first.1.docFreq ≠ second.1.docFreq then second.1.docFreq < first.1.docFreq
  else first.2 < second.2

def weakestTerm : List (Entry × Nat) → Option (Entry × Nat)
  | [] => none
  | entry :: rest =>
      match weakestTerm rest with
      | none => some entry
      | some weakest => if strongerTerm entry weakest then some weakest else some entry

def selectTopTerms (limit : Nat) (accepted : List Entry) : List Entry :=
  let kept := accepted.zipIdx.foldl (fun heap candidate =>
    if heap.length < limit then heap ++ [candidate]
    else match weakestTerm heap with
      | none => heap
      | some weakest =>
          if strongerTerm candidate weakest then
            (heap.filter fun entry => entry.2 ≠ weakest.2) ++ [candidate]
          else heap) []
  (kept.mergeSort fun first second => first.2 ≤ second.2).map Prod.fst

/-- Multi-term queries unite the postings of the terms they expand to. -/
def unites (maxExpansions : Int32) (accepted : List Entry) (doc : Nat) : Bool :=
  let expanded := if 0 < maxExpansions then selectTopTerms maxExpansions.toInt.toNat accepted
    else accepted
  expanded.any fun entry => entry.postings.any fun posting => posting.doc = doc

def positionsOf (dictionary : List Entry) (term : Term) (doc : Nat) : Option (List Int) :=
  match dictionary.find? fun entry => entry.term = term with
  | none => none
  | some entry => (entry.postings.find? fun posting => posting.doc = doc).map Posting.positions

def exactPhrase : List (Term × Int32 × List Int) → Bool
  | [] => false
  | (_, offset, places) :: rest =>
      places.any fun place => offset.toInt ≤ place && rest.all fun slot =>
        slot.2.2.contains (place - offset.toInt + slot.2.1.toInt)

abbrev Sloppy := Int32 → List (Term × Int32 × List Int) → Bool

def phraseMatches (sloppy : Sloppy) (dictionary : List Entry) (terms : List Term)
    (positions : List Int32) (slop : Int32) (doc : Nat) : Bool :=
  match (terms.zip positions).mapM fun slot =>
    (positionsOf dictionary slot.1 doc).map fun places => (slot.1, slot.2, places) with
  | none => false
  | some slots => if 0 < slop then sloppy slop slots else exactPhrase slots

/-- One subtraction and one comparison, both without sign. -/
def matchesRange (lo hi value : Int64) : Bool :=
  value.toUInt64 - lo.toUInt64 ≤ hi.toUInt64 - lo.toUInt64

/-- The first interval that does not end before the value. -/
def matchesExact (intervals : List ValueRange) (value : Int64) : Bool :=
  match intervals.dropWhile fun interval => interval.hi < value with
  | [] => false
  | found :: _ => found.lo ≤ value

/-- A document of a segment matches a leaf. Empty numeric ranges are rejected first. -/
def Leaf.holds (sloppy : Sloppy) (segment : Segment) (doc : Nat) : Leaf → Bool
  | .matchNoDocs => false
  | .term field wanted _ _ => (segment.dictionary field).any fun entry =>
      entry.term = wanted && entry.postings.any fun posting => posting.doc = doc
  | .phrase field terms positions slop =>
      phraseMatches sloppy (segment.dictionary field) terms positions slop doc
  | .prefixed field lead maxExpansions =>
      unites maxExpansions (prefixTerms lead (segment.dictionary field)) doc
  | .termRange field lower includeLower upper includeUpper =>
      unites 0 (rangeTerms lower includeLower upper includeUpper (segment.dictionary field)) doc
  | .termInSet field terms => unites 0 (explicitTerms terms (segment.dictionary field)) doc
  | .fieldExists field => segment.hasField field doc
  | .numericRange field lo hi _ =>
      if hi < lo then false else (segment.values field doc).any (matchesRange lo hi)
  | .numericSet field exact _ => (segment.values field doc).any (matchesExact exact.intervals)

end Luxir.Queries.LeafQueries
