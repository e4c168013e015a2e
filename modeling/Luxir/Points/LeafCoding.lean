import Luxir.Lib.BitLists
import Luxir.Lib.Folds
import Luxir.Points.PointsReader

/-!
A leaf of points is decoded from its bytes: its header, its documents in each of the three forms
and its values.
-/

namespace Luxir.Points.LeafCoding
open Lib.BitLists Lib.Folds Lib.Words PointsWriter List Nat

/-- The integer codec gives back what it was given, from the bytes it announced. -/
structure RoundTrips (codec : NumericCodec) : Prop where
  length : ∀ {values : List Nat} {bits : Nat}, bits ≤ 32 → (∀ value ∈ values, value < 2 ^ bits) →
    (codec.encodeWithMeta values bits).length = byteSize values.length bits
  decode : ∀ {values : List Nat} {bits : Nat} (rest : Bytes), bits ≤ 32 →
    (∀ value ∈ values, value < 2 ^ bits) →
    codec.decodeWithMeta (codec.encodeWithMeta values bits ++ rest) values.length bits =
      (values, byteSize values.length bits)

@[mk_iff]
structure Fits (point : Point) : Prop where
  lower : -2 ^ 63 ≤ point.value
  upper : point.value < 2 ^ 63
  nonneg : 0 ≤ point.docid
  small : point.docid < 2 ^ 31

instance (point : Point) : Decidable (Fits point) := decidable_of_iff' _ (fits_iff point)

def Before (first second : Point) : Prop :=
  first.value < second.value ∨ (first.value = second.value ∧ first.docid ≤ second.docid)

instance (first second : Point) : Decidable (Before first second) :=
  inferInstanceAs (Decidable (_ ∨ _))

structure Sound (leaf : List Point) : Prop where
  nonempty : leaf ≠ []
  count : leaf.length < 65536
  fits : ∀ point ∈ leaf, Fits point
  sorted : leaf.Pairwise Before

variable {point : Point} {leaf : List Point}

section

theorem front_mem (ne : leaf ≠ []) : front leaf ∈ leaf := by
  cases leaf with
  | nil => exact absurd rfl ne
  | cons => exact mem_cons_self

theorem back_mem (ne : leaf ≠ []) : back leaf ∈ leaf := by
  rw [back, getLastD_eq_getLast?, getLast?_eq_getLast_of_ne_nil ne]
  exact getLast_mem ne

theorem front_le (sorted : leaf.Pairwise Before) (mem : point ∈ leaf) :
    (front leaf).value ≤ point.value := by
  cases leaf with
  | nil => cases mem
  | cons =>
    rcases mem_cons.mp mem with rfl | later
    · exact le_refl _
    · rcases (pairwise_cons.mp sorted).1 point later with less | same
      · exact le_of_lt less
      · exact le_of_eq same.1

theorem le_back (sorted : leaf.Pairwise Before) (mem : point ∈ leaf) :
    point.value ≤ (back leaf).value := by
  rcases eq_nil_or_concat leaf with rfl | ⟨rest, last, rfl⟩
  · cases mem
  rw [concat_eq_append] at mem sorted ⊢
  rw [back, getLastD_concat]
  rcases mem_append.mp mem with early | here
  · rcases (pairwise_append.mp sorted).2.2 point early last mem_cons_self with less | same
    · exact le_of_lt less
    · exact le_of_eq same.1
  · rw [mem_singleton.mp here]

theorem distance_eq {low high : Int} (order : low ≤ high) (lower : -2 ^ 63 ≤ low)
    (upper : high < 2 ^ 63) : (distance low high : Int) = high - low := by
  unfold distance wrap
  omega

def gcdStep (valueGcd distance : Nat) : Nat :=
  if valueGcd = 1 then valueGcd else valueGcd.gcd distance

theorem gcdStep_eq (valueGcd distance : Nat) : gcdStep valueGcd distance = valueGcd.gcd distance := by
  unfold gcdStep
  split_ifs with one
  · rw [one, Nat.gcd_one_left]
  · rfl

theorem gcd_fold (distances : List Nat) (start : Nat) : distances.foldl gcdStep start ∣ start ∧
    ∀ distance ∈ distances, distances.foldl gcdStep start ∣ distance := by
  induction distances generalizing start with
  | nil => exact ⟨dvd_refl _, fun distance mem => absurd mem not_mem_nil⟩
  | cons first rest ih =>
    obtain ⟨divides, all⟩ := ih (gcdStep start first)
    rw [foldl_cons]
    rw [gcdStep_eq] at divides all ⊢
    refine ⟨divides.trans (Nat.gcd_dvd_left _ _), fun distance mem => ?_⟩
    rcases mem_cons.mp mem with rfl | later
    · exact divides.trans (Nat.gcd_dvd_right _ _)
    · exact all distance later

theorem gcd_fold_lt (distances : List Nat) (small : ∀ distance ∈ distances, distance < 2 ^ 64)
    {start : Nat} (bound : start < 2 ^ 64) : distances.foldl gcdStep start < 2 ^ 64 := by
  induction distances generalizing start with
  | nil => exact bound
  | cons first rest ih =>
    rw [foldl_cons, gcdStep_eq]
    refine ih (fun distance mem => small distance (mem_cons_of_mem _ mem)) ?_
    rcases Nat.eq_zero_or_pos start with rfl | pos
    · rw [Nat.gcd_zero_left]
      exact small first mem_cons_self
    · exact (Nat.gcd_le_left first pos).trans_lt bound

section
variable (opts : Options)
include opts

theorem leafGcd_eq (leaf : List Point) : leafGcd opts leaf = 1 ∨ leafGcd opts leaf =
      (leaf.map fun point => distance (front leaf).value point.value).foldl gcdStep 0 ∧
        0 < leafGcd opts leaf := by
  unfold leafGcd
  dsimp only
  rw [foldl_map]
  split_ifs with wanted zero
  · exact .inl rfl
  · exact .inr ⟨rfl, pos_of_ne_zero zero⟩
  all_goals exact .inl rfl

theorem leafGcd_pos (leaf : List Point) : 0 < leafGcd opts leaf := by
  rcases leafGcd_eq opts leaf with one | ⟨_, pos⟩
  · rw [one]
    exact one_pos
  · exact pos

theorem leafGcd_dvd (mem : point ∈ leaf) :
    leafGcd opts leaf ∣ distance (front leaf).value point.value := by
  rcases leafGcd_eq opts leaf with one | ⟨same, _⟩
  · rw [one]
    exact one_dvd _
  · rw [same]
    exact (gcd_fold _ 0).2 _ (mem_map_of_mem mem)

theorem leafGcd_lt (leaf : List Point) : leafGcd opts leaf < 2 ^ 64 := by
  rcases leafGcd_eq opts leaf with one | ⟨same, _⟩
  · rw [one]
    decide
  · rw [same]
    refine gcd_fold_lt _ (fun distance mem => ?_) (by decide)
    obtain ⟨point, _, rfl⟩ := mem_map.mp mem
    exact wrap_lt _

theorem valueFormat_le (leaf : List Point) : valueFormat opts leaf ≤ 64 := by
  unfold valueFormat
  rw [bitWidth_le]
  exact (div_le_self _ _).trans_lt (wrap_lt _)

end

variable (sound : Sound leaf)
include sound

theorem distance_front (mem : point ∈ leaf) :
    (distance (front leaf).value point.value : Int) = point.value - (front leaf).value :=
  distance_eq (front_le sound.sorted mem) (sound.fits _ (front_mem sound.nonempty)).lower
    (sound.fits point mem).upper

theorem valueResiduals_lt (opts : Options) : ∀ residual ∈ valueResiduals opts leaf,
    residual < 2 ^ valueFormat opts leaf := by
  refine forall_mem_map.mpr fun point known => ?_
  rw [← bitWidth_le]
  have one := distance_front sound known
  have two := distance_front sound (back_mem sound.nonempty)
  have order := le_back sound.sorted known
  have monotone : distance (front leaf).value point.value ≤
      distance (front leaf).value (back leaf).value := by omega
  rw [bitWidth_le]
  exact (Nat.div_le_div_right monotone).trans_lt (lt_two_pow_bitWidth _)

theorem restore_value (opts : Options) (mem : point ∈ leaf) :
    signed 64 ((distance (front leaf).value point.value / leafGcd opts leaf *
      leafGcd opts leaf + wrap 64 (front leaf).value) % 2 ^ 64) = point.value := by
  have fits := sound.fits point mem
  have least := sound.fits _ (front_mem sound.nonempty)
  have apart := distance_front sound mem
  have upper := fits.upper
  have first := least.lower
  rw [Nat.div_mul_cancel (leafGcd_dvd opts mem)]
  unfold signed wrap
  split <;> omega

end

theorem length_docids (leaf : List Point) : (docids leaf).length = leaf.length := length_map _

theorem docBase_le {doc : Nat} (mem : doc ∈ docids leaf) : docBase leaf ≤ doc :=
  (foldl_min_le id _ _).2 doc mem

theorem le_maxDocid {doc : Nat} (mem : doc ∈ docids leaf) : doc ≤ maxDocid leaf :=
  (le_foldl_max id _ _).2 doc mem

theorem contiguous_eq (whole : contiguous leaf = true) :
    docids leaf = (range leaf.length).map fun i => docBase leaf + i := by
  unfold contiguous at whole
  rw [all_eq_true] at whole
  apply ext_getElem
  · rw [length_docids, length_map, length_range]
  intro i first second
  have lt : i < leaf.length := by
    rwa [length_docids] at first
  have same := whole i (mem_range.mpr lt)
  rw [decide_eq_true_eq, getD_eq_getElem?_getD, getElem?_eq_getElem first, Option.getD_some] at same
  rw [getElem_map, getElem_range, same]

theorem ascending_of_strict (strict : strictlyAscending leaf = true) : Ascending (docids leaf) := by
  unfold strictlyAscending at strict
  rw [all_eq_true] at strict
  unfold Ascending
  rw [← isChain_iff_pairwise, isChain_iff_getElem]
  intro i lt
  have mem : i + 1 ∈ range' 1 (leaf.length - 1) := by
    rw [length_docids] at lt
    rw [mem_range'_1]
    omega
  have less := strict (i + 1) mem
  rw [decide_eq_true_eq, Nat.add_sub_cancel, getD_eq_getElem?_getD, getD_eq_getElem?_getD,
    getElem?_eq_getElem (by omega), getElem?_eq_getElem lt] at less
  exact less

theorem docResiduals_lt (leaf : List Point) : ∀ residual ∈ docResiduals leaf,
    residual < 2 ^ residualBits leaf := by
  intro residual mem
  exact ((le_foldl_max id _ 0).2 residual mem).trans_lt (lt_two_pow_bitWidth _)

theorem docid_lt (fits : ∀ point ∈ leaf, Fits point) {doc : Nat} (mem : doc ∈ docids leaf) :
    doc < 2 ^ 31 := by
  obtain ⟨point, known, rfl⟩ := mem_map.mp mem
  have small := (fits point known).small
  omega

theorem residualBits_le (fits : ∀ point ∈ leaf, Fits point) : residualBits leaf ≤ 31 := by
  unfold residualBits
  rw [bitWidth_le]
  refine foldl_max_lt id _ 0 (by decide) fun residual mem => ?_
  obtain ⟨doc, known, rfl⟩ := mem_map.mp mem
  exact (sub_le _ _).trans_lt (docid_lt fits known)

theorem restore_docs (leaf : List Point) :
    (docResiduals leaf).map (fun doc => docBase leaf + doc) = docids leaf := by
  unfold docResiduals
  rw [map_map]
  conv_rhs => rw [← map_id (docids leaf)]
  refine map_congr_left fun doc mem => ?_
  exact Nat.add_sub_cancel' (docBase_le mem)

theorem testBit_modify (words : List Nat) (place bit w other : Nat) :
    ((words.modify place (· ||| 1 <<< bit)).getD w 0).testBit other = true ↔
      (words.getD w 0).testBit other = true ∨ (w < words.length ∧ place = w ∧ bit = other) := by
  rw [getD_eq_getElem?_getD, getD_eq_getElem?_getD, getElem?_modify]
  cases found : words[w]? with
  | none =>
    have outside := getElem?_eq_none_iff.mp found
    simp [not_lt.mpr outside]
  | some =>
    have lt := (List.getElem?_eq_some_iff.mp found).1
    by_cases here : place = w
    · simp [here, lt, testBit_or, one_shiftLeft, testBit_two_pow]
    · simp [here]

theorem testBit_fold (place : Nat → Nat) (docs words : List Nat) (w bit : Nat) :
    ((docs.foldl (fun words doc => words.modify (place doc) (· ||| 1 <<< (doc % 64))) words).getD w
        0).testBit bit = true ↔ (words.getD w 0).testBit bit = true ∨
        (w < words.length ∧ ∃ doc ∈ docs, place doc = w ∧ doc % 64 = bit) := by
  induction docs generalizing words with
  | nil => simp
  | cons first rest ih =>
    rw [foldl_cons, ih, testBit_modify, length_modify]
    constructor
    · rintro ((old | ⟨lt, here, same⟩) | ⟨lt, doc, mem, here, same⟩)
      · exact .inl old
      · exact .inr ⟨lt, first, mem_cons_self, here, same⟩
      · exact .inr ⟨lt, doc, mem_cons_of_mem _ mem, here, same⟩
    · rintro (old | ⟨lt, doc, mem, here, same⟩)
      · exact .inl (.inl old)
      · rcases mem_cons.mp mem with rfl | later
        · exact .inl (.inr ⟨lt, here, same⟩)
        · exact .inr ⟨lt, doc, later, here, same⟩

theorem length_docWords (leaf : List Point) :
    (docWords leaf).length = maxDocid leaf / 64 - docBase leaf / 64 + 1 := by
  have kept : ∀ (docs words : List Nat), (docs.foldl (fun words doc =>
      words.modify (doc / 64 - docBase leaf / 64) (· ||| 1 <<< (doc % 64))) words).length =
        words.length := by
    intro docs
    induction docs with
    | nil => exact fun words => rfl
    | cons first rest ih =>
      intro words
      rw [foldl_cons, ih, length_modify]
  unfold docWords
  rw [kept, length_replicate]

theorem testBit_docWords (leaf : List Point) (w bit : Nat) :
    ((docWords leaf).getD w 0).testBit bit = true ↔
      bit < 64 ∧ (docBase leaf / 64 + w) * 64 + bit ∈ docids leaf := by
  unfold docWords
  rw [testBit_fold]
  have clear : ((replicate (maxDocid leaf / 64 - docBase leaf / 64 + 1) 0).getD w 0).testBit bit =
      false := by
    rw [getD_eq_getElem?_getD, getElem?_replicate]
    split_ifs <;> exact Nat.zero_testBit _
  rw [clear, length_replicate]
  constructor
  · rintro (impossible | ⟨_, doc, mem, here, same⟩)
    · exact absurd impossible Bool.false_ne_true
    · have least := Nat.div_le_div_right (c := 64) (docBase_le mem)
      have exact_doc : (docBase leaf / 64 + w) * 64 + bit = doc := by omega
      rw [exact_doc]
      exact ⟨by omega, mem⟩
  · rintro ⟨short, mem⟩
    have most := Nat.div_le_div_right (c := 64) (le_maxDocid mem)
    exact .inr ⟨by omega, _, mem, by omega, by omega⟩

theorem docWords_lt (leaf : List Point) (w : Nat) : (docWords leaf).getD w 0 < 2 ^ 64 := by
  apply lt_pow_two_of_testBit
  intro bit beyond
  rw [← Bool.not_eq_true, testBit_docWords]
  omega

theorem wordsBits_docWords (rising : Ascending (docids leaf)) :
    (wordsBits (fun w => (docWords leaf).getD w 0) 0 (docWords leaf).length).map
      (fun place => docBase leaf / 64 * 64 + place) = docids leaf := by
  refine Ascending.ext ?_ rising fun doc => ?_
  · unfold Ascending
    rw [pairwise_map]
    exact (wordsBits_ascending 0 _).imp fun less => Nat.add_lt_add_left less _
  rw [mem_map]
  constructor
  · rintro ⟨place, mem, rfl⟩
    obtain ⟨_, _, set⟩ := mem_wordsBits.mp mem
    have known := ((testBit_docWords leaf _ _).mp set).2
    have same : (docBase leaf / 64 + place / 64) * 64 + place % 64 =
        docBase leaf / 64 * 64 + place := by omega
    rw [← same]
    exact known
  · intro mem
    have least := Nat.div_le_div_right (c := 64) (docBase_le mem)
    have most := Nat.div_le_div_right (c := 64) (le_maxDocid mem)
    refine ⟨doc - docBase leaf / 64 * 64, mem_wordsBits.mpr ⟨Nat.zero_le _, ?_, ?_⟩, by omega⟩
    · rw [length_docWords]
      omega
    rw [testBit_docWords]
    refine ⟨Nat.mod_lt _ (by omega), ?_⟩
    have same : (docBase leaf / 64 + (doc - docBase leaf / 64 * 64) / 64) * 64 +
        (doc - docBase leaf / 64 * 64) % 64 = doc := by omega
    rw [same]
    exact mem

end Luxir.Points.LeafCoding
