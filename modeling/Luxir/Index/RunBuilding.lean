import Luxir.Index.RunEncoding

/-!
The builder keeps the runs that its adds stand for, through every seal and every replacement, and
finds the version of a document among them through lookups that remember their last answer.
-/

namespace Luxir.Index.RunBuilding
open Reader.RunList Reader.RunReader Reader.BlockReads RunBuilder RunEncoding List VersionRunBuilder
open Nat VersionRun Option

/-- The sealed blocks hold the first runs, which no longer change. -/
structure SealedRuns (done : List VersionRun) (builder : VersionRunBuilder) : Prop where
  count : builder.sealedCount = done.length
  full : done.length = builder.sealedBlocks.length * runsPerBlock
  blocks : ∀ index (inside : index < builder.sealedBlocks.length),
    BlockRuns (chunk done index) ∧ builder.sealedBlocks[index] =
      ⟨encode (chunk done index), ((chunk done index).head?.map firstDocId).getD 0⟩
  last : done ≠ [] → done.getLast? = some builder.sealedLast
  dense : builder.sealedDense = true →
    ∀ index (inside : index < done.length), done[index].firstDocId = index
  affine : Affine done builder.affine

/-- The runs of a builder: those sealed, and those in the tail. The last start added is not
before any of them, and lies behind all of them once the tail has lost its only run. -/
structure Built (latest : Nat) (done : List VersionRun) (builder : VersionRunBuilder) : Prop where
  covering : Covering (done ++ builder.tail)
  small : ∀ run ∈ done ++ builder.tail, run.firstDocId < 2 ^ 32
  ordered : ∀ run ∈ done ++ builder.tail, run.firstDocId ≤ latest
  emptied : builder.tail = [] → ∀ run ∈ done, run.firstDocId < latest
  short : builder.tail.length ≤ runsPerBlock
  front : SealedRuns done builder
  tailDense : builder.tailDense = true → ∀ index (inside : index < builder.tail.length),
    builder.tail[index].firstDocId = builder.tailFirst + index

variable {index : Nat} {done : List VersionRun} {builder : VersionRunBuilder}
  {init : List VersionRun} {last : VersionRun}

theorem SealedRuns.of_tail (front : SealedRuns done builder) (tail : List VersionRun)
    (tailDense : Bool) : SealedRuns done { builder with tail := tail, tailDense := tailDense } :=
  { front with }

theorem chunk_append (more : List VersionRun) (full : (index + 1) * runsPerBlock ≤ done.length) :
    chunk (done ++ more) index = chunk done index := by
  rw [add_mul index 1, one_mul] at full
  unfold chunk
  rw [drop_append_of_le_length (by omega), take_append_of_le_length]
  rw [length_drop]
  omega

theorem chunk_last {last : List VersionRun} (full : done.length = index * runsPerBlock)
    (short : last.length ≤ runsPerBlock) : chunk (done ++ last) index = last := by
  unfold chunk
  rw [← full, drop_left, take_of_length_le short]

theorem affine_extend {runs : List VersionRun} {affine : VersionAffinePrefix}
    (line : Affine runs affine) (more : List VersionRun) : Affine (runs ++ more) affine := by
  have within := line.within
  refine ⟨by rw [length_append]; omega, fun doc lt before => ?_⟩
  rw [getElem_append_left (by omega)]
  exact line.line doc (by omega) before

theorem Built.tail_block {latest : Nat} (built : Built latest done builder)
    (ne : builder.tail ≠ []) : BlockRuns builder.tail :=
  ⟨length_pos_of_ne_nil ne, built.short, (pairwise_append.mp built.covering.increasing).2.1,
    fun run mem => built.small run (mem_append_right _ mem)⟩

theorem Built.sealTail_front {latest : Nat} (built : Built latest done builder)
    (full : builder.tail.length = runsPerBlock) :
    SealedRuns (done ++ builder.tail) builder.sealTail := by
  have front := built.front
  have ne : builder.tail ≠ [] := by
    apply ne_nil_of_length_pos
    rw [full]
    exact runsPerBlock_pos
  have block := built.tail_block ne
  have same := chunk_last front.full built.short
  refine ⟨?_, ?_, ?_, ?_, ?_, ?_⟩
  · simp only [sealTail, front.count, length_append]
  · simp only [sealTail, length_append, length_singleton]
    rw [add_mul, one_mul, ← front.full, full]
  · intro index lt
    simp only [sealTail, length_append, length_singleton] at lt
    simp only [sealTail]
    by_cases old : index < builder.sealedBlocks.length
    · have scaled := Nat.mul_le_mul_right runsPerBlock (Nat.succ_le_of_lt old)
      rw [getElem_append_left old, chunk_append _ (by rw [front.full]; exact scaled)]
      exact front.blocks index old
    have last : index = builder.sealedBlocks.length := by omega
    subst last
    rw [getElem_append_right (le_rfl), same]
    simp only [Nat.sub_self, getElem_cons_zero]
    exact ⟨block, rfl⟩
  · intro _
    obtain ⟨init, last, split⟩ := (eq_nil_or_concat' _).resolve_left ne
    simp only [sealTail]
    rw [split, ← append_assoc, getLast?_concat, getLastD_concat]
  · intro dense index lt
    simp only [sealTail, Bool.and_eq_true, decide_eq_true_eq] at dense
    obtain ⟨sealedDense, tailDense, begun⟩ := dense
    by_cases old : index < done.length
    · rw [getElem_append_left old]
      exact front.dense sealedDense index old
    · rw [getElem_append_right (not_lt.mp old), built.tailDense tailDense, begun, front.count]
      omega
  · have reads : Reads ⟨encode builder.tail, 0, builder.tail.length⟩ builder.tail :=
      encode_reads block (append_nil _).symm
    rw [← same] at reads
    have appended := (affine_extend front.affine builder.tail).append reads
    simp only [sealTail]
    rw [front.count, front.full]
    rwa [same] at appended

section
variable {latest start : Nat} {version : UInt64}

theorem start_built : Built 0 [] VersionRunBuilder.start := by
  refine ⟨⟨pairwise_singleton _ _, [], 0, rfl⟩, ?_, ?_, ?_, ?_, ?_, ?_⟩
  · simp [VersionRunBuilder.start]
  · simp [VersionRunBuilder.start]
  · simp [VersionRunBuilder.start]
  · exact runsPerBlock_pos
  · exact ⟨rfl, (zero_mul _).symm, fun index lt => absurd lt (not_lt_zero _), fun ne =>
      absurd rfl ne, fun _ index lt => absurd lt (not_lt_zero _), zero_le _,
      fun _ _ lt => absurd lt (not_lt_zero _)⟩
  · intro _ index lt
    have zero : index = 0 := lt_one_iff.mp lt
    subst zero
    rfl

section
variable (built : Built latest done builder)
include built

theorem Built.last_eq :
    (done ++ builder.tail).getLast? = some (builder.tail.getLastD builder.sealedLast) := by
  rcases eq_nil_or_concat builder.tail with empty | ⟨init, last, split⟩
  · have ne := built.covering.ne_nil
    rw [empty, append_nil] at ne ⊢
    exact built.front.last ne
  · rw [split, concat_eq_append, ← append_assoc, getLast?_concat, getLastD_concat]

theorem Built.joined_iff (split : builder.tail = init ++ [last]) :
    (builder.size > 1 ∧ (init.getLastD builder.sealedLast).version = version) ↔
      (done ++ init).getLast?.map VersionRun.version = some version := by
  have size : builder.size = done.length + init.length + 1 := by
    simp [VersionRunBuilder.size, built.front.count, split, add_assoc]
  rcases eq_nil_or_concat init with rfl | ⟨front, before, rfl⟩
  · by_cases fresh : done = []
    · subst fresh
      simp [size]
    have found := built.front.last fresh
    have pos := length_pos_of_ne_nil fresh
    simp only [append_nil, found, getLastD_nil, map_some, some.injEq, and_iff_right_iff_imp]
    intro _
    omega
  · simp only [concat_eq_append, ← append_assoc, getLast?_concat,
      getLastD_concat, map_some, some.injEq, and_iff_right_iff_imp]
    intro _
    simp only [concat_eq_append, length_append, length_singleton] at size
    omega

theorem Built.next (later : latest ≤ start) (fits : start < 2 ^ 32) {front : List VersionRun}
    {next : VersionRunBuilder}
    (same : front ++ next.tail = addRun (done ++ builder.tail) start version)
    (emptied : next.tail = [] → ∀ run ∈ front, run.firstDocId < start)
    (short : next.tail.length ≤ runsPerBlock) (sealedRuns : SealedRuns front next)
    (tailDense : next.tailDense = true → ∀ index (lt : index < next.tail.length),
      next.tail[index].firstDocId = next.tailFirst + index) : Built start front next := by
  have before : ∀ run ∈ done ++ builder.tail, run.firstDocId ≤ start :=
    fun run mem => (built.ordered run mem).trans later
  obtain ⟨cover, ordered⟩ := covering_addRun built.covering version before
  rw [← same] at cover ordered
  exact ⟨cover, fun run mem => (ordered run mem).trans_lt fits, ordered, emptied, short,
    sealedRuns, tailDense⟩

end

theorem tailFirst_concat (builder : VersionRunBuilder) {tail : List VersionRun}
    (ne : tail ≠ []) (run : VersionRun) :
    ({ builder with tail := tail ++ [run] } : VersionRunBuilder).tailFirst =
      ({ builder with tail := tail } : VersionRunBuilder).tailFirst := by
  obtain ⟨head, rest, rfl⟩ := exists_cons_of_ne_nil ne
  rfl

/-- An add at the start of the last run replaces it, or drops it if it repeats the one before. -/
theorem Built.add_replaces (built : Built latest done builder) (later : latest ≤ start)
    (fits : start < 2 ^ 32)
    (split : builder.tail = init ++ [last]) (same : start = last.firstDocId) :
    ∃ next, builder.add start version = some next ∧ Built start done next ∧
      done ++ next.tail = addRun (done ++ builder.tail) start version := by
  have short := built.short
  have before := built.covering
  rw [split, ← append_assoc] at before
  have dense : ∀ run : VersionRun, run.firstDocId = last.firstDocId → builder.tailDense = true →
      ∀ index (lt : index < (init ++ [run]).length),
        (init ++ [run])[index].firstDocId = builder.tailFirst + index := by
    intro run starts tailDense index lt
    have kept := built.tailDense tailDense index (by rw [split]; simpa using lt)
    simp only [split] at kept
    rw [← kept]
    by_cases old : index < init.length
    · rw [getElem_append_left old, getElem_append_left old]
    · rw [getElem_append_right (not_lt.mp old), getElem_append_right (not_lt.mp old)]
      simpa using starts
  have add : builder.add start version =
      if builder.size > 1 ∧ (init.getLastD builder.sealedLast).version = version then
        some { builder with tail := init }
      else some { builder with tail := init ++ [⟨start, version⟩] } := by
    unfold add
    simp only [split, getLastD_concat, dropLast_concat]
    rw [if_neg (by omega), if_pos same, same]
  have runs : addRun (done ++ builder.tail) start version =
      if (done ++ init).getLast?.map VersionRun.version = some version then done ++ init
      else done ++ init ++ [⟨start, version⟩] := by
    rw [split, ← append_assoc, addRun_concat, if_pos same]
  split_ifs at runs with joined
  · rw [if_pos ((built.joined_iff split).mpr joined)] at add
    refine ⟨_, add, built.next later fits runs.symm ?_ ?_
      (built.front.of_tail init builder.tailDense) ?_, runs.symm⟩
    · intro _ run mem
      rw [same]
      exact before.before_last run (mem_append_left _ mem)
    · rw [split, length_append] at short
      dsimp only
      omega
    · intro tailDense index lt
      have kept := dense last rfl tailDense index (by rw [length_append]; dsimp only at lt; omega)
      rw [getElem_append_left lt] at kept
      rw [kept]
      have ne : init ≠ [] := ne_nil_of_length_pos (by dsimp only at lt; omega)
      have first := tailFirst_concat builder ne last
      rw [← split] at first
      exact congrArg (· + index) first
  · rw [append_assoc] at runs
    rw [if_neg (mt (built.joined_iff split).mp joined)] at add
    refine ⟨_, add, built.next later fits runs.symm ?_ ?_
      (built.front.of_tail _ builder.tailDense) ?_, runs.symm⟩
    · intro empty
      simp at empty
    · rw [split] at short
      simpa using short
    · intro tailDense index lt
      have kept := dense ⟨start, version⟩ same tailDense index lt
      rw [kept]
      simp only [tailFirst, split]
      cases init with
      | nil => simp [same]
      | cons => rfl

theorem dense_concat (builder : VersionRunBuilder) (run : VersionRun)
    (dense : ∀ index (lt : index < builder.tail.length),
      builder.tail[index].firstDocId = builder.tailFirst + index)
    (spaced : builder.tail ≠ [] → run.firstDocId = builder.tailFirst + builder.tail.length)
    (lt : index < (builder.tail ++ [run]).length) : (builder.tail ++ [run])[index].firstDocId =
      ({ builder with tail := builder.tail ++ [run] } : VersionRunBuilder).tailFirst + index := by
  by_cases empty : builder.tail = []
  · simp only [empty, nil_append, length_singleton, lt_one_iff] at lt
    subst lt
    simp [empty, tailFirst]
  rw [tailFirst_concat builder empty]
  by_cases old : index < builder.tail.length
  · rw [getElem_append_left old]
    exact dense index old
  have last : index = builder.tail.length := by
    rw [length_append, length_singleton] at lt
    omega
  subst last
  rw [getElem_concat_length rfl]
  exact spaced empty

theorem Built.add_pushes (built : Built latest done builder) (later : latest ≤ start)
    (fits : start < 2 ^ 32) (after : (builder.tail.getLastD builder.sealedLast).firstDocId < start)
    (changed : (builder.tail.getLastD builder.sealedLast).version ≠ version) :
    ∃ front next, builder.add start version = some next ∧ Built start front next ∧
      front ++ next.tail = addRun (done ++ builder.tail) start version := by
  have short := built.short
  have runs : addRun (done ++ builder.tail) start version =
      done ++ builder.tail ++ [⟨start, version⟩] := by
    simp only [addRun, built.last_eq]
    rw [if_neg (by omega), if_pos changed]
  by_cases full : builder.tail.length = runsPerBlock
  · have add : builder.add start version =
        some { builder.sealTail with tail := [⟨start, version⟩] } := by
      unfold add
      rw [if_neg (by omega), if_neg (by omega), if_pos changed, if_pos full]
      rfl
    refine ⟨_, _, add, built.next later fits runs.symm (by simp) runsPerBlock_pos
      ((built.sealTail_front full).of_tail _ true) ?_, runs.symm⟩
    intro _ index lt
    have zero : index = 0 := lt_one_iff.mp lt
    subst zero
    rfl
  · have room : (builder.tail ++ [(⟨start, version⟩ : VersionRun)]).length ≤ runsPerBlock := by
      rw [length_append, length_singleton]
      omega
    rw [append_assoc] at runs
    by_cases alone : builder.tail = []
    · have add : builder.add start version =
          some { builder with tail := builder.tail ++ [⟨start, version⟩] } := by
        unfold add
        rw [if_neg (by omega), if_neg (by omega), if_pos changed, if_neg full,
          if_neg (by simp [alone])]
      refine ⟨_, _, add, built.next later fits runs.symm (by simp) room
        (built.front.of_tail _ builder.tailDense) ?_, runs.symm⟩
      intro tailDense index lt
      exact dense_concat builder _ (built.tailDense tailDense) (fun other => absurd alone other) lt
    · have pos := length_pos_of_ne_nil alone
      have add : builder.add start version = some { builder with
            tail := builder.tail ++ [⟨start, version⟩]
            tailDense := builder.tailDense && start = builder.tailFirst + builder.tail.length } := by
        have first := tailFirst_concat builder alone (⟨start, version⟩ : VersionRun)
        unfold add
        rw [if_neg (by omega), if_neg (by omega), if_pos changed, if_neg full,
          if_pos (by rw [length_append, length_singleton]; omega), first,
          length_append, length_singleton]
        rfl
      refine ⟨_, _, add, built.next later fits runs.symm (by simp) room
        (built.front.of_tail _ _) ?_, runs.symm⟩
      intro dense index lt
      simp only [Bool.and_eq_true, decide_eq_true_eq] at dense
      exact dense_concat builder _ (built.tailDense dense.1) (fun _ => dense.2) lt

theorem Built.add (built : Built latest done builder) (later : latest ≤ start)
    (fits : start < 2 ^ 32) (version : UInt64) :
    ∃ front next, builder.add start version = some next ∧ Built start front next ∧
      front ++ next.tail = addRun (done ++ builder.tail) start version := by
  have found := built.last_eq
  have most := (built.ordered _ (mem_of_getLast? found)).trans later
  by_cases same : start = (builder.tail.getLastD builder.sealedLast).firstDocId
  · rcases eq_nil_or_concat builder.tail with empty | ⟨init, last, split⟩
    · have past := built.emptied empty _ (by
        simpa [empty] using mem_of_getLast? found)
      simp only [empty, getLastD_nil] at same past
      omega
    · rw [concat_eq_append] at split
      rw [split, getLastD_concat] at same
      exact ⟨done, built.add_replaces later fits split same⟩
  · by_cases changed : (builder.tail.getLastD builder.sealedLast).version ≠ version
    · exact built.add_pushes later fits (by omega) changed
    have runs : addRun (done ++ builder.tail) start version = done ++ builder.tail := by
      simp only [addRun, found]
      rw [if_neg same, if_neg changed]
    have add : builder.add start version = some builder := by
      unfold VersionRunBuilder.add
      rw [if_neg (by omega), if_neg same, if_neg changed]
    refine ⟨done, builder, add, ?_, runs.symm⟩
    exact { built with
      ordered := fun run mem => (built.ordered run mem).trans later
      emptied := fun empty run mem => (built.emptied empty run mem).trans_le later }

end

variable {latest doc : Nat} {runs : List VersionRun} {lookup : Lookup}

def Answers (runs : List VersionRun) (lookup : Lookup) : Prop :=
  ∀ doc, lookup.first ≤ doc → doc < lookup.stop → versionAt runs doc = lookup.version

/-- A probe gives the version, and leaves a lookup that answers up to the next start, or up to the
document itself. -/
structure Probed (runs : List VersionRun) (latest doc : Nat) (before : Lookup)
    (result : UInt64 × Lookup) : Prop where
  version : result.1 = versionAt runs doc
  lookup : result.2 = before ∨ (Answers runs result.2 ∧ result.2.stop ≤ max latest (doc + 1))

theorem probed_found (cover : Covering runs) (ordered : ∀ run ∈ runs, run.firstDocId ≤ latest)
    (found : RunOf runs doc index) (lt : index < runs.length) (before : Lookup) (block run : Nat) :
    Probed runs latest doc before (runs[index].version, ⟨block, run, runs[index].firstDocId,
        (runs[index + 1]?.map firstDocId).getD ((doc + 1) % 2 ^ 32), runs[index].version⟩) := by
  refine ⟨(cover.versionAt_eq lt found.started found.ended).symm, .inr ⟨?_, ?_⟩⟩
  · intro other started ended
    have same := found.until_next (fun _ => started) ended
    exact cover.versionAt_eq lt same.started same.ended
  by_cases more : index + 1 < runs.length
  · have last := ordered _ (getElem_mem more)
    simp only [getElem?_eq_getElem more, map_some, getD_some]
    omega
  · simp only [getElem?_eq_none (not_lt.mp more), map_none, getD_none]
    omega

theorem Built.blocks (built : Built latest done builder) :
    Blocks done builder.sealedBlocks.length builder.sealedView builder.sealedFirst := by
  have front := built.front
  have reads : ∀ index < builder.sealedBlocks.length,
      Reads (builder.sealedView index) (chunk done index) := by
    intro index lt
    obtain ⟨block, kept⟩ := front.blocks index lt
    have scaled := mul_le_mul_right runsPerBlock (succ_le_of_lt lt)
    rw [succ_mul, ← front.full] at scaled
    have length : (chunk done index).length = runsPerBlock := by
      rw [length_chunk]
      omega
    have view : builder.sealedView index =
        ⟨encode (chunk done index), 0, (chunk done index).length⟩ := by
      rw [sealedView, getElem?_eq_getElem lt, kept, length]
      rfl
    rw [view]
    exact encode_reads block (append_nil _).symm
  refine ⟨le_of_eq front.full, reads, fun index lt => ?_⟩
  have block := front.blocks index lt
  rw [(reads index lt).first, sealedFirst, getElem?_eq_getElem lt, block.2]
  exact head_eq block.1.nonempty

theorem runOf_dense (ne : runs ≠ [])
    (dense : ∀ index (lt : index < runs.length), runs[index].firstDocId = index) (doc : Nat) :
    RunOf runs doc (min doc (runs.length - 1)) := by
  have pos := length_pos_of_ne_nil ne
  refine ⟨by omega, ?_, fun more => ?_⟩
  · rw [dense]
    omega
  · rw [dense _ more]
    omega

theorem Built.dense_version (built : Built latest done builder)
    (sealedDense : builder.sealedDense = true) (tailDense : builder.tailDense = true)
    (joined : builder.tail = [] ∨ builder.tailFirst = builder.sealedCount)
    (lt : index < (done ++ builder.tail).length) :
    (done ++ builder.tail)[index].firstDocId = index := by
  have count := built.front.count
  by_cases old : index < done.length
  · rw [getElem_append_left old]
    exact built.front.dense sealedDense index old
  rw [getElem_append_right (not_lt.mp old), built.tailDense tailDense]
  rcases joined with empty | begun
  · rw [empty, append_nil] at lt
    omega
  · omega

theorem tailRun_eq (lt : index < builder.tail.length) :
    builder.tailRun index = builder.tail[index] := by
  rw [tailRun, getD_eq_getElem?_getD, getElem?_eq_getElem lt]
  rfl

theorem getElem_back {whole : Nat} (lt : index < builder.tail.length)
    (same : done.length + index = whole) (bound : whole < (done ++ builder.tail).length) :
    (done ++ builder.tail)[whole] = builder.tail[index] := by
  subst same
  rw [getElem_append_right (by omega)]
  simp only [Nat.add_sub_cancel_left]

theorem Built.probe_dense (built : Built latest done builder)
    (sealedDense : builder.sealedDense = true) (tailDense : builder.tailDense = true)
    (joined : builder.tail = [] ∨ builder.tailFirst = builder.sealedCount) (doc : Nat) :
    (if builder.tail ≠ [] ∧ doc ≥ builder.sealedCount then
      (builder.tailRun (min (doc - builder.sealedCount) (builder.tail.length - 1))).version
    else (builder.sealedView (min doc (builder.sealedCount - 1) / runsPerBlock)).version
      (min doc (builder.sealedCount - 1) % runsPerBlock)) =
      versionAt (done ++ builder.tail) doc := by
  have found := runOf_dense built.covering.ne_nil
    (fun index lt => built.dense_version sealedDense tailDense joined lt) doc
  have lt := found.inside
  rw [built.covering.versionAt_eq lt found.started found.ended]
  have count := built.front.count
  have size : (done ++ builder.tail).length = done.length + builder.tail.length := length_append
  split_ifs with back
  · have pos := length_pos_of_ne_nil back.1
    have within : min (doc - builder.sealedCount) (builder.tail.length - 1) <
        builder.tail.length := by omega
    rw [tailRun_eq within, getElem_back within (by omega)]
  · have sealedDoc : min doc ((done ++ builder.tail).length - 1) = min doc (done.length - 1) := by
      by_cases empty : builder.tail = []
      · simp [empty]
      · have early : doc < builder.sealedCount := by
          by_contra late
          exact back ⟨empty, not_lt.mp late⟩
        omega
    have pos : 0 < done.length := by
      by_contra empty
      apply back
      have ne := built.covering.ne_nil
      rw [eq_nil_of_length_eq_zero (Nat.eq_zero_of_not_pos empty), nil_append] at ne
      exact ⟨ne, by omega⟩
    have bound : min doc (done.length - 1) < done.length := by omega
    simp only [sealedDoc, count]
    rw [getElem_append_left bound]
    generalize min doc (done.length - 1) = doc at *
    have split := Nat.div_add_mod' doc runsPerBlock
    have full := built.front.full
    have block : doc / runsPerBlock < builder.sealedBlocks.length := by
      rw [Nat.div_lt_iff_lt_mul runsPerBlock_pos]
      omega
    have place : doc % runsPerBlock < (chunk done (doc / runsPerBlock)).length := by
      have short := Nat.mod_lt doc runsPerBlock_pos
      rw [length_chunk]
      omega
    rw [(built.blocks.reads _ block).version_eq place, getElem_chunk place split bound]

theorem Built.find_tail (built : Built latest done builder) (ne : builder.tail ≠ [])
    (begun : builder.tailFirst ≤ doc) (hint : Nat) : RunOf builder.tail doc
      (if builder.tailDense then min (doc - builder.tailFirst) (builder.tail.length - 1)
      else VersionBlock.search doc hint builder.tail.length fun i =>
        (builder.tailRun i).firstDocId) := by
  have pos := length_pos_of_ne_nil ne
  have block := built.tail_block ne
  split_ifs with tailDense
  · have dense := built.tailDense tailDense
    refine ⟨by omega, ?_, fun more => ?_⟩
    · rw [dense]
      omega
    · rw [dense _ more]
      omega
  · have rising : ∀ first second, first < second → second < builder.tail.length →
        (builder.tailRun first).firstDocId < (builder.tailRun second).firstDocId := by
      intro first second less lt
      rw [tailRun_eq lt, tailRun_eq (by omega)]
      exact pairwise_iff_getElem.mp block.increasing first second _ lt less
    have zero : (builder.tailRun 0).firstDocId ≤ doc := by
      rw [tailRun_eq pos, ← head_eq pos]
      exact begun
    obtain ⟨lt, started, ended⟩ := search_lands hint pos rising zero
    rw [tailRun_eq lt] at started
    refine ⟨lt, started, fun more => ?_⟩
    have later := ended more
    rwa [tailRun_eq more] at later

theorem runOf_back (done : List VersionRun) (found : RunOf builder.tail doc index) :
    RunOf (done ++ builder.tail) doc (done.length + index) := by
  have lt := found.inside
  have size : (done ++ builder.tail).length = done.length + builder.tail.length := length_append
  refine ⟨by omega, ?_, fun more => ?_⟩
  · rw [getElem_back lt rfl]
    exact found.started
  · have next : index + 1 < builder.tail.length := by omega
    rw [getElem_back next (by omega)]
    exact found.ended next

theorem tailFirst_eq (ne : builder.tail ≠ []) :
    (builder.tail[0]?.map firstDocId) = some builder.tailFirst := by
  obtain ⟨head, rest, split⟩ := exists_cons_of_ne_nil ne
  simp [tailFirst, split]

theorem runOf_front (found : RunOf done doc index)
    (before : builder.tail = [] ∨ doc < builder.tailFirst) :
    RunOf (done ++ builder.tail) doc index := by
  have lt := found.inside
  refine ⟨by rw [length_append]; omega, ?_, fun more => ?_⟩
  · rw [getElem_append_left lt]
    exact found.started
  by_cases old : index + 1 < done.length
  · rw [getElem_append_left old]
    exact found.ended old
  rcases before with empty | early
  · rw [empty, append_nil] at more
    omega
  have ne : builder.tail ≠ [] := by
    intro empty
    rw [empty, append_nil] at more
    omega
  have first := tailFirst_eq ne
  rw [getElem?_eq_getElem (length_pos_of_ne_nil ne), map_some, some.injEq] at first
  rw [getElem_back (length_pos_of_ne_nil ne) (by omega), first]
  exact early

theorem next_start (otherwise : Nat) (lt : index < done.length) :
    (done[index + 1]?.map firstDocId).getD
        (if builder.tail ≠ [] then builder.tailFirst else otherwise) =
      ((done ++ builder.tail)[index + 1]?.map firstDocId).getD otherwise := by
  by_cases old : index + 1 < done.length
  · rw [getElem?_append_left old, getElem?_eq_getElem old]
    rfl
  have last : index + 1 - done.length = 0 := by omega
  rw [getElem?_append_right (by omega), getElem?_eq_none (by omega), last]
  split_ifs with ne
  · rw [tailFirst_eq ne]
    rfl
  · rw [not_not.mp ne]
    rfl

variable (built : Built latest done builder)
include built

theorem Built.probe_tail (found : RunOf builder.tail doc index) (lookup : Lookup) :
    Probed (done ++ builder.tail) latest doc lookup ((builder.tailRun index).version, { lookup with
        run := index, first := (builder.tailRun index).firstDocId,
        stop :=
          if index + 1 < builder.tail.length then (builder.tailRun (index + 1)).firstDocId
          else (doc + 1) % 2 ^ 32,
        version := (builder.tailRun index).version }) := by
  have lt := found.inside
  have whole := runOf_back done found
  have probed := probed_found built.covering built.ordered whole whole.inside lookup lookup.block
    index
  have stop : ((done ++ builder.tail)[done.length + index + 1]?.map firstDocId).getD
      ((doc + 1) % 2 ^ 32) = if index + 1 < builder.tail.length then
        (builder.tailRun (index + 1)).firstDocId else (doc + 1) % 2 ^ 32 := by
    have next : done.length + index + 1 - done.length = index + 1 := by omega
    rw [getElem?_append_right (by omega), next]
    split_ifs with more
    · rw [tailRun_eq more, getElem?_eq_getElem more]
      rfl
    · rw [getElem?_eq_none (not_lt.mp more)]
      rfl
  rw [stop, getElem_back lt rfl] at probed
  rw [tailRun_eq lt]
  exact probed

theorem Built.probe_sealed {blockIndex : Nat} (lt : blockIndex < builder.sealedBlocks.length)
    (begun : builder.sealedFirst blockIndex ≤ doc)
    (ended : blockIndex + 1 < builder.sealedBlocks.length →
      doc < builder.sealedFirst (blockIndex + 1))
    (before : builder.tail = [] ∨ doc < builder.tailFirst) (lookup : Lookup) (hint : Nat) :
    let block := builder.sealedView blockIndex
    let index := block.find doc hint
    let stop :=
      if index + 1 < block.count then block.start (index + 1)
      else if blockIndex + 1 < builder.sealedBlocks.length then
        builder.sealedFirst (blockIndex + 1)
      else if builder.tail ≠ [] then builder.tailFirst
      else (doc + 1) % 2 ^ 32
    Probed (done ++ builder.tail) latest doc lookup
      (block.version index, ⟨blockIndex, index, block.start index, stop, block.version index⟩) := by
  intro block index stop
  have blocks := built.blocks
  have reads := blocks.reads blockIndex lt
  obtain ⟨place, found⟩ := blocks.find_run hint lt begun ended
  have within := found.inside
  have whole := runOf_front found before
  have bound := whole.inside
  have probed := probed_found built.covering built.ordered whole bound lookup blockIndex index
  have there : (chunk done blockIndex)[index] =
      (done ++ builder.tail)[blockIndex * runsPerBlock + index] := by
    rw [getElem_chunk place rfl within, getElem_append_left within]
  have stops : stop = _ := blocks.stop_eq lt place _
  rw [next_start _ within] at stops
  rw [stops, reads.version_eq place, reads.start_eq place, there]
  exact probed

theorem Built.sealed_covering (before : builder.tail = [] ∨ doc < builder.tailFirst) :
    done ≠ [] ∧ Covering done := by
  obtain ⟨rest, version, all⟩ := built.covering.first
  have ne : done ≠ [] := by
    rintro rfl
    rw [nil_append] at all
    rcases before with empty | early
    · rw [empty] at all
      cases all
    · simp [tailFirst, all] at early
  obtain ⟨head, others, rfl⟩ := exists_cons_of_ne_nil ne
  rw [cons_append, cons.injEq] at all
  refine ⟨ne, (pairwise_append.mp built.covering.increasing).1, others, version, ?_⟩
  rw [all.1]

theorem Built.lookupBirth (answers : Answers (done ++ builder.tail) lookup) (doc : Nat) :
    Probed (done ++ builder.tail) latest doc lookup (builder.lookupBirth doc lookup) := by
  have full := built.front.full
  unfold VersionRunBuilder.lookupBirth
  split
  next dense =>
    have probe := built.probe_dense dense.1 dense.2.1 dense.2.2 doc
    split_ifs at probe ⊢ with back
    all_goals exact ⟨probe, .inl rfl⟩
  split
  next kept => exact ⟨(answers doc kept.1 kept.2).symm, .inl rfl⟩
  split
  next back => exact built.probe_tail (built.find_tail back.1 back.2 lookup.run) lookup
  next back =>
    have before : builder.tail = [] ∨ doc < builder.tailFirst := by
      by_contra neither
      obtain ⟨ne, late⟩ := not_or.mp neither
      exact back ⟨ne, not_lt.mp late⟩
    obtain ⟨ne, cover⟩ := built.sealed_covering before
    have pos : 0 < builder.sealedBlocks.length := by
      by_contra empty
      rw [Nat.eq_zero_of_not_pos empty, zero_mul] at full
      exact ne (eq_nil_of_length_eq_zero full)
    obtain ⟨lt, begun, ended⟩ := built.blocks.find_block cover
      built.front.dense pos doc lookup.block
    exact built.probe_sealed lt begun ended before lookup lookup.run

theorem Built.birth (answers : Answers (done ++ builder.tail) lookup) (doc : Nat) :
    Probed (done ++ builder.tail) latest doc lookup (builder.birth doc lookup) := by
  unfold VersionRunBuilder.birth
  split_ifs with affine
  · exact ⟨(affine_extend built.front.affine builder.tail).birth_eq built.covering affine, .inl rfl⟩
  · exact built.lookupBirth answers doc

end Luxir.Index.RunBuilding
