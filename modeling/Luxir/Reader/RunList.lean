import Mathlib.Order.Basic
import Mathlib.Data.List.Basic

/-!
Request versions of documents as runs: every document has the version of the last run that starts
at or before it. Adding a run only ever touches the end of the list.
-/

namespace Luxir.Reader.RunList
open List

structure VersionRun where
  firstDocId : Nat
  version : UInt64
deriving DecidableEq, Repr

/-- The version of the last entry that starts at or before the document. -/
def versionAt (runs : List VersionRun) (doc : Nat) : UInt64 :=
  runs.foldl (fun version run => if run.firstDocId ≤ doc then run.version else version) 0

/-- Every document has a run, and every run a place of its own. -/
structure Covering (runs : List VersionRun) : Prop where
  increasing : runs.Pairwise fun earlier later => earlier.firstDocId < later.firstDocId
  first : ∃ rest version, runs = ⟨0, version⟩ :: rest

theorem versionAt_append (runs more : List VersionRun) (doc : Nat) : versionAt (runs ++ more) doc =
      more.foldl (fun version run => if run.firstDocId ≤ doc then run.version else version)
        (versionAt runs doc) := foldl_append

theorem versionAt_concat (runs : List VersionRun) (run : VersionRun) (doc : Nat) :
    versionAt (runs ++ [run]) doc =
      if run.firstDocId ≤ doc then run.version else versionAt runs doc := by
  rw [versionAt_append]
  rfl

theorem versionAt_append_later {runs more : List VersionRun} {doc : Nat}
    (later : ∀ run ∈ more, doc < run.firstDocId) :
    versionAt (runs ++ more) doc = versionAt runs doc := by
  rw [versionAt_append]
  generalize versionAt runs doc = version
  induction more with
  | nil => rfl
  | cons run rest ih =>
    have after := later run mem_cons_self
    rw [foldl_cons, if_neg (by omega)]
    exact ih fun other mem => later other (mem_cons_of_mem _ mem)

section
variable {runs : List VersionRun}

theorem starts_strict (increasing : runs.Pairwise fun run later => run.firstDocId < later.firstDocId)
    {first second : Nat} (before : first < second) (lt : second < runs.length) :
    runs[first].firstDocId < runs[second].firstDocId :=
  pairwise_iff_getElem.mp increasing first second _ lt before

variable (cover : Covering runs)
include cover

theorem Covering.zero (lt : 0 < runs.length) : runs[0].firstDocId = 0 := by
  obtain ⟨rest, version, rfl⟩ := cover.first
  rfl

theorem Covering.ne_nil : runs ≠ [] := by
  obtain ⟨rest, version, rfl⟩ := cover.first
  exact cons_ne_nil _ _

theorem Covering.versionAt_eq {index doc : Nat} (lt : index < runs.length)
    (started : runs[index].firstDocId ≤ doc)
    (ended : ∀ more : index + 1 < runs.length, doc < runs[index + 1].firstDocId) :
    versionAt runs doc = runs[index].version := by
  have later : ∀ run ∈ runs.drop (index + 1), doc < run.firstDocId := by
    intro run mem
    obtain ⟨place, bound, rfl⟩ := mem_iff_getElem.mp mem
    rw [length_drop] at bound
    have next := ended (by omega)
    rw [getElem_drop]
    rcases Nat.eq_zero_or_pos place with rfl | pos
    · simpa using next
    · have after : runs[index + 1].firstDocId < runs[index + 1 + place].firstDocId :=
        starts_strict cover.increasing (by omega) (by omega)
      omega
  calc versionAt runs doc = versionAt (runs.take (index + 1) ++ runs.drop (index + 1)) doc := by
        rw [take_append_drop]
    _ = versionAt (runs.take index ++ [runs[index]]) doc := by
        rw [versionAt_append_later later, ← take_concat_get lt, concat_eq_append]
    _ = runs[index].version := by rw [versionAt_concat, if_pos started]

end

/-- The effect of `add`: an empty last run is replaced, and equal neighbours are joined. -/
def addRun (runs : List VersionRun) (start : Nat) (version : UInt64) : List VersionRun :=
  match runs.getLast? with
  | none => runs
  | some last =>
      if start = last.firstDocId then
        if runs.dropLast.getLast?.map VersionRun.version = some version then runs.dropLast
        else runs.dropLast ++ [⟨start, version⟩]
      else if last.version ≠ version then runs ++ [⟨start, version⟩]
      else runs

theorem addRun_concat (init : List VersionRun) (last : VersionRun) (start : Nat)
    (version : UInt64) : addRun (init ++ [last]) start version = if start = last.firstDocId then
        if init.getLast?.map VersionRun.version = some version then init
        else init ++ [⟨start, version⟩]
      else if last.version ≠ version then init ++ [last] ++ [⟨start, version⟩]
      else init ++ [last] := by
  simp only [addRun, getLast?_concat, dropLast_concat]

variable {last : VersionRun} {start : Nat}

theorem Covering.before_last {init : List VersionRun} (cover : Covering (init ++ [last])) :
    ∀ run ∈ init, run.firstDocId < last.firstDocId := by
  intro run mem
  exact (pairwise_append.mp cover.increasing).2.2 run mem last mem_cons_self

theorem Covering.concat {runs : List VersionRun} (cover : Covering runs) {run : VersionRun}
    (after : ∀ early ∈ runs, early.firstDocId < run.firstDocId) : Covering (runs ++ [run]) := by
  obtain ⟨rest, version, rfl⟩ := cover.first
  refine ⟨pairwise_append.mpr ⟨cover.increasing, pairwise_singleton _ _, ?_⟩,
    rest ++ [run], version, rfl⟩
  exact fun early mem => forall_mem_singleton.mpr (after early mem)

theorem Covering.init {init : List VersionRun} (cover : Covering (init ++ [last]))
    (ne : init ≠ []) : Covering init := by
  obtain ⟨head, rest, rfl⟩ := exists_cons_of_ne_nil ne
  obtain ⟨others, version, same⟩ := cover.first
  refine ⟨(pairwise_append.mp cover.increasing).1, rest, version, ?_⟩
  rw [cons_append, cons.injEq] at same
  rw [same.1]

theorem ordered_concat {runs : List VersionRun} (version : UInt64)
    (ordered : ∀ run ∈ runs, run.firstDocId ≤ start) :
    ∀ run ∈ runs ++ [⟨start, version⟩], run.firstDocId ≤ start :=
  forall_mem_append.mpr ⟨ordered, forall_mem_singleton.mpr (Nat.le_refl _)⟩

variable {runs : List VersionRun} (cover : Covering runs) (version : UInt64)
  (ordered : ∀ run ∈ runs, run.firstDocId ≤ start)
include cover ordered

theorem versionAt_addRun (doc : Nat) : versionAt (addRun runs start version) doc =
    if start ≤ doc then version else versionAt runs doc := by
  obtain ⟨init, last, rfl⟩ := (eq_nil_or_concat' _).resolve_left cover.ne_nil
  have before := cover.before_last
  have most := ordered last (by simp)
  rw [addRun_concat]
  split
  · rename_i replaced
    by_cases joined : init.getLast?.map VersionRun.version = some version
    · obtain ⟨previous, found, same⟩ := Option.map_eq_some_iff.mp joined
      have early := before previous (mem_of_getLast? found)
      rw [if_pos joined, versionAt_concat]
      split_ifs
      · obtain ⟨front, rfl⟩ := getLast?_eq_some_iff.mp found
        rw [versionAt_concat, if_pos (by omega), same]
      · omega
      · rfl
    · rw [if_neg joined, versionAt_concat, versionAt_concat, ← replaced]
      split_ifs <;> rfl
  · split_ifs with changed lt lt
    · rw [versionAt_concat, if_pos lt]
    · rw [versionAt_concat, if_neg lt]
    · rw [versionAt_concat, if_pos (by omega), not_not.mp changed]
    · rfl

theorem covering_addRun : Covering (addRun runs start version) ∧
    ∀ run ∈ addRun runs start version, run.firstDocId ≤ start := by
  obtain ⟨init, last, rfl⟩ := (eq_nil_or_concat' _).resolve_left cover.ne_nil
  have before := cover.before_last
  have most := ordered last (by simp)
  rw [addRun_concat]
  split_ifs with replaced joined changed
  · obtain ⟨previous, found, _⟩ := Option.map_eq_some_iff.mp joined
    exact ⟨cover.init (ne_nil_of_mem (mem_of_getLast? found)),
      fun run mem => ordered run (mem_append_left _ mem)⟩
  · refine ⟨?_, ordered_concat version fun run mem => ordered run (mem_append_left _ mem)⟩
    rcases eq_nil_or_concat init with rfl | ⟨front, previous, rfl⟩
    · have zero : last.firstDocId = 0 := cover.zero (by simp)
      refine ⟨pairwise_singleton _ _, [], version, ?_⟩
      rw [nil_append, replaced]
      exact congrArg (fun first => [VersionRun.mk first version]) zero
    · apply (cover.init (by simp)).concat
      intro early mem
      rw [replaced]
      exact before early mem
  · refine ⟨cover.concat ?_, ordered_concat version ordered⟩
    refine forall_mem_append.mpr ⟨fun early lt => ?_, forall_mem_singleton.mpr (by dsimp only; omega)⟩
    have smaller := before early lt
    dsimp only
    omega
  · exact ⟨cover, ordered⟩

end Luxir.Reader.RunList
