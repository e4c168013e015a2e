import Luxir.Reader.TrieLabels

/-!
A frozen node in place: its labels are found in whichever encoding was the shortest, and its
entries lead back to its children.
-/

namespace Luxir.Reader.TrieNodes
open Lib.Bytes Lib.Bits Index.TrieFrontier TrieLookup TrieLabels List FrontierNode ChildEntry Nat

variable {file rest labels others : Bytes} {low : UInt8} {high : UInt8}

theorem bit_single : ∀ place bit : Fin 8,
    ((1 : UInt8) <<< UInt8.ofNat place.val).toNat.testBit bit.val = decide (bit.val = place.val) := by
  decide

theorem testBit_setLabel (low label : UInt8) (out : Bytes)
    (lt : label.toNat - low.toNat < 8 * out.length) (bit : Nat) :
    (number (setLabel low out label)).testBit bit =
      ((number out).testBit bit || decide (bit = label.toNat - low.toNat)) := by
  unfold setLabel
  generalize label.toNat - low.toNat = idx at *
  have bound : idx / 8 < out.length := by omega
  rw [testBit_number, testBit_number, getD_eq_getElem?_getD, getElem?_set]
  by_cases same : idx / 8 = bit / 8
  · have single := bit_single ⟨idx % 8, mod_lt _ (by decide)⟩ ⟨bit % 8, mod_lt _ (by decide)⟩
    rw [if_pos same, if_pos bound, Option.getD_some, UInt8.toNat_or, testBit_or, single, same]
    congr 1
    apply decide_eq_decide.mpr
    dsimp only
    omega
  · have other : ¬bit = idx := fun eq => same (by rw [eq])
    rw [if_neg same, decide_eq_false other, Bool.or_false, ← getD_eq_getElem?_getD]

theorem length_setLabel (low label : UInt8) (out : Bytes) :
    (setLabel low out label).length = out.length := by
  simp [setLabel]

theorem length_setLabels (low : UInt8) (labels out : Bytes) :
    (labels.foldl (setLabel low) out).length = out.length := by
  induction labels generalizing out with
  | nil => rfl
  | cons label rest ih => rw [foldl_cons, ih, length_setLabel]

theorem testBit_setLabels (low : UInt8) (labels out : Bytes)
    (lt : ∀ label ∈ labels, label.toNat - low.toNat < 8 * out.length) (bit : Nat) :
    (number (labels.foldl (setLabel low) out)).testBit bit = true ↔
      (number out).testBit bit = true ∨ ∃ label ∈ labels, bit = label.toNat - low.toNat := by
  induction labels generalizing out with
  | nil => simp
  | cons label rest ih =>
    have first := lt label mem_cons_self
    rw [foldl_cons, ih, testBit_setLabel low label out first, Bool.or_eq_true, decide_eq_true_eq]
    · simp only [mem_cons, exists_eq_or_imp, or_assoc]
    · intro other mem
      rw [length_setLabel]
      exact lt other (mem_cons_of_mem _ mem)

theorem number_zeros (count : Nat) : number (replicate count 0) = 0 := by
  induction count with
  | zero => rfl
  | succ count ih =>
    rw [replicate_succ, number, ih]
    rfl

theorem marked_bits {labels : Bytes} (spanned : Spanned labels low high) :
    Marked labels low (labels.foldl (setLabel low)
      (replicate ((high.toNat - low.toNat + 1 + 7) / 8) 0)) := by
  intro bit
  rw [testBit_setLabels, number_zeros, zero_testBit]
  · constructor
    · rintro (never | ⟨label, mem, same⟩)
      · cases never
      · have above := spanned.ge label mem
        exact ⟨label, mem, by omega⟩
    · rintro ⟨label, mem, same⟩
      exact .inr ⟨label, mem, by omega⟩
  · intro label mem
    have most := spanned.le label mem
    rw [length_replicate]
    omega

theorem dropWhile_below {ahead : Bytes} (rising : Increasing ahead) (value : Nat) :
    (ahead.dropWhile fun label => label.toNat < value).head?.map UInt8.toNat = some value ↔
      ∃ label ∈ ahead, label.toNat = value := by
  induction ahead with
  | nil => simp
  | cons first rest ih =>
    obtain ⟨above, tail⟩ := pairwise_cons.mp rising
    by_cases less : first.toNat < value
    · rw [dropWhile_cons, if_pos (decide_eq_true less), ih tail]
      simp only [mem_cons, exists_eq_or_imp]
      constructor
      · exact .inr
      · rintro (same | found)
        · omega
        · exact found
    · rw [dropWhile_cons, if_neg (by simpa using less)]
      simp only [head?_cons, Option.map_some, Option.some.injEq, mem_cons, exists_eq_or_imp]
      constructor
      · exact .inl
      · rintro (same | ⟨label, mem, same⟩)
        · exact same
        · have more := UInt8.lt_iff_toNat_lt.mp (above label mem)
          omega

theorem absents_walk (rising : Increasing labels) {start count : Nat}
    {state : Bytes × Bytes}
    (ahead : ∃ passed, labels = passed ++ state.1 ∧ ∀ label ∈ passed, label.toNat < start) :
    ((range' start count).foldl absentStep state).2 = state.2 ++
      ((range' start count).filter fun value => ¬∃ label ∈ labels, label.toNat = value).map
        UInt8.ofNat := by
  induction count generalizing start state with
  | zero => simp
  | succ count ih =>
    obtain ⟨passed, split, below⟩ := ahead
    have sorted : Increasing state.1 := by
      rw [split] at rising
      exact (pairwise_append.mp rising).2.1
    have present : (state.1.dropWhile fun label => label.toNat < start).head?.map UInt8.toNat =
        some start ↔ ∃ label ∈ labels, label.toNat = start := by
      rw [dropWhile_below sorted, split]
      simp only [mem_append]
      constructor
      · rintro ⟨label, mem, same⟩
        exact ⟨label, .inr mem, same⟩
      · rintro ⟨label, before | mem, same⟩
        · have less := below label before
          omega
        · exact ⟨label, mem, same⟩
    have next : ∃ passed, labels = passed ++ (state.1.dropWhile fun label => label.toNat < start) ∧
        ∀ label ∈ passed, label.toNat < start + 1 := by
      refine ⟨passed ++ state.1.takeWhile (fun label => label.toNat < start), ?_, ?_⟩
      · rw [append_assoc, takeWhile_append_dropWhile, ← split]
      · intro label mem
        rcases mem_append.mp mem with before | here
        · exact (below label before).trans (lt_succ_self _)
        · have less := all_eq_true.mp all_takeWhile label here
          exact lt_succ_of_lt (of_decide_eq_true less)
    rw [range'_succ, foldl_cons, filter_cons, absentStep]
    by_cases found : ∃ label ∈ labels, label.toNat = start
    · rw [if_pos (present.mpr found), ih next, if_neg (by simpa using found)]
    · rw [if_neg (mt present.mp found), ih next, if_pos (by simpa using found), append_assoc,
        map_cons, singleton_append]

theorem absent_reverse (spanned : Spanned (low :: others) low high) :
    Absent (low :: others) low high ((range' (low.toNat + 1)
      (high.toNat - (low.toNat + 1))).foldl absentStep (others, [])).2 := by
  have small := high.toNat_lt
  have sorted := (pairwise_cons.mp spanned.increasing).2
  rw [absents_walk sorted ⟨[], rfl, by simp⟩, nil_append]
  have word : ∀ value ∈ range' (low.toNat + 1) (high.toNat - (low.toNat + 1)),
      low.toNat < value ∧ value < high.toNat ∧ (UInt8.ofNat value).toNat = value := by
    intro value mem
    rw [mem_range'_1] at mem
    refine ⟨by omega, by omega, ?_⟩
    rw [UInt8.toNat_ofNat', mod_eq_of_lt (by omega)]
  constructor
  · unfold Increasing
    rw [pairwise_map, pairwise_filter]
    have ordered : (range' (low.toNat + 1) (high.toNat - (low.toNat + 1))).Pairwise (· < ·) :=
      pairwise_lt_range'
    apply ordered.imp_of_mem
    intro first second firstIn secondIn less _ _
    rw [UInt8.lt_iff_toNat_lt, (word first firstIn).2.2, (word second secondIn).2.2]
    exact less
  · intro value
    simp only [mem_map, mem_filter, decide_eq_true_eq]
    constructor
    · rintro ⟨label, ⟨other, ⟨lt, gone⟩, rfl⟩, rfl⟩
      obtain ⟨above, below, same⟩ := word other lt
      rw [same]
      refine ⟨above, below, ?_⟩
      rintro ⟨label, mem, eq⟩
      rcases mem_cons.mp mem with rfl | later
      · omega
      · exact gone ⟨label, later, eq⟩
    · rintro ⟨above, below, gone⟩
      have lt : value ∈ range' (low.toNat + 1) (high.toNat - (low.toNat + 1)) := by
        rw [mem_range'_1]
        omega
      refine ⟨UInt8.ofNat value, ⟨value, ⟨lt, ?_⟩, rfl⟩, (word value lt).2.2⟩
      rintro ⟨label, mem, eq⟩
      exact gone ⟨label, mem_cons_of_mem _ mem, eq⟩

theorem widen_spec (value rounds width : Nat) :
    width ≤ widen value rounds width ∧ widen value rounds width ≤ width + rounds ∧
      (widen value rounds width < width + rounds → value < 2 ^ (widen value rounds width * 8)) := by
  induction rounds generalizing width with
  | zero => exact ⟨le_rfl, le_rfl, fun less => absurd less (lt_irrefl _)⟩
  | succ rounds ih =>
    unfold widen
    split_ifs with more
    · obtain ⟨lower, upper, fits⟩ := ih (width + 1)
      exact ⟨by omega, by omega, fun less => fits (by omega)⟩
    refine ⟨le_rfl, by omega, fun _ => ?_⟩
    rw [not_not, shiftRight_eq_div_pow, Nat.div_eq_zero_iff] at more
    rcases more with zero | fits
    · exact absurd zero (ne_of_gt (Nat.two_pow_pos _))
    · exact fits

theorem deltaWidth_spec {value : Nat} (small : value < 2 ^ 64) :
    1 ≤ deltaWidth value ∧ deltaWidth value ≤ 8 ∧ value < 2 ^ (deltaWidth value * 8) := by
  obtain ⟨lower, upper, fits⟩ := widen_spec value 7 1
  refine ⟨lower, upper, ?_⟩
  by_cases widest : deltaWidth value < 1 + 7
  · exact fits widest
  have eight : deltaWidth value = 8 := by
    have most : deltaWidth value ≤ 1 + 7 := upper
    omega
  rw [eight]
  exact small

theorem maxDelta_ge (nodeFp : Nat) (children : List ChildEntry) (start : Nat) :
    start ≤ children.foldl (fun most child => max most (nodeFp - child.fp)) start ∧
      ∀ child ∈ children, nodeFp - child.fp ≤
        children.foldl (fun most child => max most (nodeFp - child.fp)) start := by
  induction children generalizing start with
  | nil => simp
  | cons first rest ih =>
    obtain ⟨grows, covers⟩ := ih (max start (nodeFp - first.fp))
    rw [foldl_cons]
    exact ⟨by omega, forall_mem_cons.mpr ⟨by omega, covers⟩⟩

theorem maxDelta_le (nodeFp : Nat) (children : List ChildEntry) :
    maxDelta nodeFp children ≤ nodeFp := by
  have bounded : ∀ start ≤ nodeFp,
      children.foldl (fun most child => max most (nodeFp - child.fp)) start ≤ nodeFp := by
    induction children with
    | nil => exact fun start le => le
    | cons first rest ih =>
      intro start le
      exact ih _ (Nat.max_le.mpr ⟨le, sub_le _ _⟩)
  exact bounded 0 (Nat.zero_le _)

theorem header_fields : ∀ (terminal : Bool) (width : Fin 8) (strategy : Fin 3),
    ∀ sign ∈ [signSingle, signMulti],
      let header := header ⟨[], terminal, 0⟩ sign (width.val + 1) (UInt8.ofNat strategy.val)
      header &&& 3 = sign ∧ dw header = width.val + 1 ∧
        header >>> 6 = UInt8.ofNat strategy.val ∧ (header &&& terminalBit ≠ 0 ↔ terminal = true) := by
  decide +kernel

theorem readLE_eq (file : Bytes) (place : Nat) {width : Nat} (narrow : width ≤ 8) :
    readLE file place width = load width file place := by
  rw [readLE, and_maskBits _ (by omega), load_eq_field, load_eq_field, mul_comm width 8,
    field_mod _ _ (by omega)]

theorem length_entryBytes (nodeFp width : Nat) (child : ChildEntry) :
    (entryBytes nodeFp width child).length = width + ordWidth := by
  simp [entryBytes]

theorem entry_read {base nodeFp width : Nat} {children : List ChildEntry}
    (wrote : file.drop base = children.flatMap (entryBytes nodeFp width) ++ rest)
    (narrow : width ≤ 8) {pos : Nat} (lt : pos < children.length)
    (fits : nodeFp - children[pos].fp < 2 ^ (width * 8)) (small : children[pos].lo < 2 ^ 24) :
    readLE file (base + pos * (width + ordWidth)) width = nodeFp - children[pos].fp ∧
      readLE file (base + pos * (width + ordWidth) + width) ordWidth = children[pos].lo := by
  have found := drop_records (length_entryBytes nodeFp width) wrote lt
  rw [entryBytes, append_assoc] at found
  have second := drop_past found rfl
  rw [length_spell] at second
  rw [readLE_eq _ _ narrow, readLE_eq _ _ (by decide), load_spell found, load_spell second,
    pow_256, mul_comm 8 width, mod_eq_of_lt fits]
  exact ⟨rfl, mod_eq_of_lt small⟩

theorem length_le (rising : Increasing labels) : labels.length ≤ 256 := by
  by_contra many
  have last := index_le_of_rising (rising.imp UInt8.lt_iff_toNat_lt.mp)
    (show 256 < labels.length by omega)
  have small := (labels[256]).toNat_lt
  omega

theorem spanned_cons (rising : Increasing (low :: others)) :
    Spanned (low :: others) low ((low :: others).getLastD 0) := by
  have ne : low :: others ≠ [] := cons_ne_nil _ _
  have above := (pairwise_cons.mp rising).1
  have last : (low :: others).getLastD 0 = (low :: others).getLast ne := by
    rw [getLastD_eq_getLast?, getLast?_eq_some_getLast ne, Option.getD_some]
  rw [last]
  refine ⟨rising, mem_cons_self, getLast_mem ne, ?_, ?_⟩
  · refine forall_mem_cons.mpr ⟨le_rfl, fun label later => ?_⟩
    exact le_of_lt (UInt8.lt_iff_toNat_lt.mp (above label later))
  · intro label mem
    have split := dropLast_concat_getLast ne
    rw [← split] at mem rising
    rcases mem_append.mp mem with before | same
    · have less := (pairwise_append.mp rising).2.2 label before _ mem_cons_self
      exact le_of_lt (UInt8.lt_iff_toNat_lt.mp less)
    · rw [mem_singleton.mp same]

theorem strategyBytes_length {next : UInt8} (rising : Increasing (low :: next :: others))
    (strategy : UInt8) : 1 ≤ (strategyBytes (low :: next :: others) strategy).length ∧
      (strategyBytes (low :: next :: others) strategy).length ≤ 256 := by
  have most := length_le rising
  have small := ((low :: next :: others).getLastD 0).toNat_lt
  unfold strategyBytes
  dsimp only
  split_ifs
  · rw [length_setLabels, length_replicate]
    omega
  · simp only [length_cons, drop_succ_cons, drop_zero] at most ⊢
    omega
  · have sorted := (pairwise_cons.mp rising).2
    have walk : (drop 1 (low :: next :: others)) = next :: others := rfl
    rw [walk, absents_walk sorted ⟨[], rfl, by simp⟩, nil_append, length_cons, length_map]
    have few := length_filter_le
      (fun value => decide ¬∃ label ∈ next :: others, label.toNat = value)
      (range' (((low :: next :: others).headD 0).toNat + 1)
        (((low :: next :: others).getLastD 0).toNat -
          (((low :: next :: others).headD 0).toNat + 1)))
    rw [length_range'] at few
    omega

theorem chooseStrategy_cases (labels : Bytes) :
    chooseStrategy labels = strategyBits ∨ chooseStrategy labels = strategyArray ∨
      chooseStrategy labels = strategyReverseArray := by
  unfold chooseStrategy
  dsimp only
  split_ifs
  · exact .inl rfl
  · exact .inr (.inl rfl)
  · exact .inr (.inr rfl)

theorem ceil_strategy {node : Nat} {next b : UInt8} {strategy : UInt8}
    (rising : Increasing (low :: next :: others))
    (known : strategy = strategyBits ∨ strategy = strategyArray ∨ strategy = strategyReverseArray)
    (size : strategySize file node = (strategyBytes (low :: next :: others) strategy).length)
    (wrote : file.drop (node + 3) =
      strategyBytes (low :: next :: others) strategy ++ rest) (later : low < b) :
    Ceil (low :: next :: others) b (if strategy = strategyBits then ceilBits file node low b
      else if strategy = strategyArray then ceilArray file node b
      else ceilReverseArray file node low b) := by
  have spanned := spanned_cons rising
  rcases known with rfl | rfl | rfl
  · rw [if_pos rfl]
    exact ceilBits_ceil spanned (marked_bits spanned) size wrote
  · rw [if_neg (by decide), if_pos rfl]
    exact ceilArray_ceil rising size wrote later
  · rw [if_neg (by decide), if_neg (by decide)]
    exact ceilReverseArray_ceil spanned (absent_reverse spanned) size wrote later

/-- A node in place: what the reader finds there is what was frozen. -/
structure NodeAt (file : Bytes) (node fp : Nat) (frozen : FrontierNode) : Prop where
  ceil : ∀ b, Ceil (frozen.children.map label) b (ceilChild file node (byteAt file node) b)
  lo : ∀ pos (inside : pos < frozen.children.length),
    childLo file node (byteAt file node) pos = frozen.children[pos].lo
  delta : ∀ pos (inside : pos < frozen.children.length),
    childDelta file node (byteAt file node) pos = fp - frozen.children[pos].fp
  terminal : byteAt file node &&& terminalBit ≠ 0 ↔ frozen.terminal = true

structure Freezable (frozen : FrontierNode) (fp : Nat) : Prop where
  increasing : Increasing (frozen.children.map label)
  leaf : frozen.children = [] → frozen.terminal = true
  near : fp < 2 ^ 64
  small : ∀ child ∈ frozen.children, child.lo < 2 ^ 24

variable {node fp : Nat} {frozen : FrontierNode}

theorem Freezable.width (freezable : Freezable frozen fp) :
    1 ≤ deltaWidth (maxDelta fp frozen.children) ∧ deltaWidth (maxDelta fp frozen.children) ≤ 8 ∧
      ∀ child ∈ frozen.children,
        fp - child.fp < 2 ^ (deltaWidth (maxDelta fp frozen.children) * 8) := by
  have most := maxDelta_le fp frozen.children
  have near := freezable.near
  obtain ⟨lower, upper, fits⟩ :=
    deltaWidth_spec (show maxDelta fp frozen.children < 2 ^ 64 by omega)
  refine ⟨lower, upper, fun child mem => ?_⟩
  exact ((maxDelta_ge fp frozen.children 0).2 child mem).trans_lt fits

theorem Freezable.header (freezable : Freezable frozen fp) {sign strategy : UInt8}
    (signed : sign ∈ [signSingle, signMulti])
    (known : strategy = strategyBits ∨ strategy = strategyArray ∨
      strategy = strategyReverseArray) {header : UInt8}
    (same : header = frozen.header sign (deltaWidth (maxDelta fp frozen.children)) strategy) :
    header &&& 3 = sign ∧ dw header = deltaWidth (maxDelta fp frozen.children) ∧
      header >>> 6 = strategy ∧ (header &&& terminalBit ≠ 0 ↔ frozen.terminal = true) := by
  obtain ⟨lower, upper, _⟩ := freezable.width
  generalize deltaWidth (maxDelta fp frozen.children) = width at *
  have fields := header_fields frozen.terminal ⟨width - 1, by omega⟩
  rw [Nat.sub_add_cancel lower] at fields
  subst same
  rcases known with rfl | rfl | rfl
  · exact fields 0 sign signed
  · exact fields 1 sign signed
  · exact fields 2 sign signed

theorem length_toBytes_le (rising : Increasing (frozen.children.map label))
    (near : fp < 2 ^ 64) : (frozen.toBytes fp).length ≤ 4096 := by
  obtain ⟨_, narrow, _⟩ := deltaWidth_spec ((maxDelta_le fp frozen.children).trans_lt near)
  have entries : ∀ children : List ChildEntry, (children.flatMap (entryBytes fp
      (deltaWidth (maxDelta fp frozen.children)))).length ≤ children.length * 11 := by
    intro children
    rw [length_flatMap (length_entryBytes _ _)]
    exact Nat.mul_le_mul_left _ (by rw [ordWidth]; omega)
  unfold toBytes
  generalize deltaWidth (maxDelta fp frozen.children) = width at *
  match frozen.children, rising with
  | [], _ => simp
  | [child], _ =>
    simp only [length_append, length_cons, length_nil, length_entryBytes, ordWidth]
    omega
  | first :: second :: others, rising =>
    have sizes := strategyBytes_length rising (chooseStrategy
      ((first :: second :: others).map label))
    have few := length_le rising
    have all := entries (first :: second :: others)
    simp only [length_append, length_map, length_cons] at few all ⊢
    simp only [map_cons] at sizes ⊢
    simp only [length_nil]
    omega

theorem byteAt_first {byte : UInt8} {more : Bytes}
    (wrote : file.drop node = byte :: more) : byteAt file node = byte := by
  have split : file.drop node = [byte] ++ more := wrote
  exact byteAt_data split one_pos

variable (freezable : Freezable frozen fp)
include freezable

theorem nodeAt_leaf (childless : frozen.children = [])
    (wrote : file.drop node = frozen.toBytes fp ++ rest) : NodeAt file node fp frozen := by
  have terminal := freezable.leaf childless
  rw [toBytes, childless] at wrote
  have header := byteAt_first wrote
  rw [← length_eq_zero_iff] at childless
  refine ⟨fun b => ?_, fun pos lt => by omega, fun pos lt => by omega, ?_⟩
  · rw [header, eq_nil_of_length_eq_zero childless]
    exact ceil_none (by simp)
  · rw [header, terminal]
    decide

theorem Freezable.nodeAt (ceil : ∀ b, Ceil (frozen.children.map label) b
      (ceilChild file node (byteAt file node) b))
    (width : dw (byteAt file node) = deltaWidth (maxDelta fp frozen.children))
    (terminal : byteAt file node &&& terminalBit ≠ 0 ↔ frozen.terminal = true)
    (entries : file.drop (entryBase file node (byteAt file node)) = frozen.children.flatMap
      (entryBytes fp (deltaWidth (maxDelta fp frozen.children))) ++ rest) :
    NodeAt file node fp frozen := by
  obtain ⟨_, narrow, fits⟩ := freezable.width
  have read : ∀ pos (lt : pos < frozen.children.length), _ := fun pos lt =>
    entry_read entries narrow lt (fits _ (getElem_mem lt)) (freezable.small _ (getElem_mem lt))
  refine ⟨ceil, fun pos lt => ?_, fun pos lt => ?_, terminal⟩
  · rw [childLo, width]
    exact (read pos lt).2
  · rw [childDelta, width]
    exact (read pos lt).1

theorem nodeAt_single {child : ChildEntry} (single : frozen.children = [child])
    (wrote : file.drop node = frozen.toBytes fp ++ rest) : NodeAt file node fp frozen := by
  have bytes : frozen.toBytes fp = [frozen.header signSingle
      (deltaWidth (maxDelta fp frozen.children)) 0, child.label] ++
      frozen.children.flatMap (entryBytes fp (deltaWidth (maxDelta fp frozen.children))) := by
    unfold toBytes
    rw [single]
    simp
  rw [bytes, append_assoc] at wrote
  have entries := drop_past wrote rfl
  have label : byteAt file (node + 1) = child.label := byteAt_data wrote (show 1 < 2 by decide)
  obtain ⟨sign, width, _, terminal⟩ := freezable.header (by simp) (.inl rfl) (byteAt_first wrote)
  have base : entryBase file node (byteAt file node) = node + 2 := by
    rw [entryBase, if_pos sign]
  have ceil : ∀ b, Ceil (frozen.children.map ChildEntry.label) b
      (ceilChild file node (byteAt file node) b) := by
    intro b
    unfold ceilChild
    dsimp only
    rw [sign, if_neg (by decide), if_pos rfl, label, single]
    split_ifs with below
    · exact ceil_none (by simpa using below)
    · have lt : 0 < [child.label].length := one_pos
      exact ceil_at lt (UInt8.not_lt.mp below) (by simp) (by simp)
  exact freezable.nodeAt ceil width terminal (base ▸ entries)

theorem nodeAt_multi {first second : ChildEntry} {others : List ChildEntry}
    {labels : Bytes} (several : frozen.children = first :: second :: others)
    (listed : frozen.children.map ChildEntry.label = labels)
    (wrote : file.drop node = frozen.toBytes fp ++ rest) : NodeAt file node fp frozen := by
  have names : labels = first.label :: second.label :: others.map ChildEntry.label := by
    rw [← listed, several]
    rfl
  have rising := freezable.increasing
  rw [listed, names] at rising
  have known := chooseStrategy_cases labels
  have sizes := strategyBytes_length rising (chooseStrategy labels)
  have bytes : frozen.toBytes fp = [frozen.header signMulti
      (deltaWidth (maxDelta fp frozen.children)) (chooseStrategy labels), first.label,
      UInt8.ofNat ((strategyBytes labels (chooseStrategy labels)).length - 1)] ++
      (strategyBytes labels (chooseStrategy labels) ++
        frozen.children.flatMap (entryBytes fp (deltaWidth (maxDelta fp frozen.children)))) := by
    unfold toBytes
    rw [several, names]
    simp
  generalize chooseStrategy labels = strategy at *
  rw [bytes, append_assoc, append_assoc] at wrote
  have behind := drop_past wrote rfl
  have entries := drop_past behind rfl
  have label : byteAt file (node + 1) = first.label := byteAt_data wrote (show 1 < 3 by decide)
  have kept : byteAt file (node + 2) = UInt8.ofNat ((strategyBytes labels strategy).length - 1) :=
    byteAt_data wrote (show 2 < 3 by decide)
  have size : strategySize file node = (strategyBytes labels strategy).length := by
    rw [strategySize, kept, names, UInt8.toNat_ofNat', mod_eq_of_lt (by omega)]
    omega
  obtain ⟨sign, width, chosen, terminal⟩ := freezable.header (by simp) known (byteAt_first wrote)
  have base : entryBase file node (byteAt file node) = node + 3 +
      (strategyBytes labels strategy).length := by
    rw [entryBase, sign, if_neg (by decide), size]
  rw [names] at size behind
  have ceil : ∀ b, Ceil labels b (ceilChild file node (byteAt file node) b) := by
    intro b
    unfold ceilChild
    rw [sign, if_neg (by decide), if_neg (by decide), label, chosen, names]
    by_cases before : b ≤ first.label
    · rw [if_pos before]
      have lt : 0 < (first.label :: second.label ::
          others.map ChildEntry.label).length := succ_pos _
      exact ceil_at lt before (by simp) (by simp)
    · rw [if_neg before]
      exact ceil_strategy rising known size behind (UInt8.not_le.mp before)
  rw [← listed] at ceil
  exact freezable.nodeAt ceil width terminal (base ▸ entries)

theorem toBytes_nodeAt (wrote : file.drop node = frozen.toBytes fp ++ rest) :
    NodeAt file node fp frozen := by
  match shape : frozen.children with
  | [] => exact nodeAt_leaf freezable shape wrote
  | [_] => exact nodeAt_single freezable shape wrote
  | _ :: _ :: _ => exact nodeAt_multi freezable shape rfl wrote

end Luxir.Reader.TrieNodes
