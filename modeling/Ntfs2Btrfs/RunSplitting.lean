import Ntfs2Btrfs.DataBitmap

/-!
# Cutting run lists

`split_runs` gives a range of clusters an owner: the run that covers the range
is replaced by up to three runs.  A range that no run covers is left alone,
and a range that a run covers in part is an error.
-/

namespace Ntfs2Btrfs

open Extents

/-! ## The code -/

/-- The runs that take the place of a run when a range is cut out of it. -/
def cutRun (run : DataAlloc) (offset length inode fileOffset : Nat) :
    List DataAlloc :=
  (if offset > run.offset then
      [{ offset := run.offset, length := offset - run.offset }]
    else []) ++
    { offset := offset
      length := length
      inode := inode
      fileOffset := fileOffset
      relocated := run.relocated } ::
    if offset + length < run.stop then
      [{ run with
        offset := offset + length
        length := run.stop - offset - length }]
    else []

/-- The loop of `split_runs` over one run list: whether a run was cut, and the list. -/
def splitList (offset length inode fileOffset : Nat) :
    List DataAlloc → Except ConvertError (Bool × List DataAlloc)
  | [] => .ok (false, [])
  | run :: rest =>
      if run.offset > offset + length then .ok (false, run :: rest)
      else if offset + length > run.offset ∧ offset < run.stop then
        if offset ≥ run.offset ∧ offset + length ≤ run.stop then
          -- cut out middle
          .ok (true, cutRun run offset length inode fileOffset ++ rest)
        else .error .assigningSpace
      else
        (splitList offset length inode fileOffset rest).map fun outcome =>
          (outcome.1, run :: outcome.2)

/--
The loop of `split_runs` over the chunks, with a bound on the number of turns.
The offset in the file is the same for every chunk.
-/
def splitRunsLoop (clustersPerChunk inode fileOffset : Nat) :
    Nat → Bool → Nat → Nat → Runs → Except ConvertError (Bool × Runs)
  | 0, ret, _, _, runs => .ok (ret, runs)
  | turns + 1, ret, offset, length, runs => do
      let chunk := offset / clustersPerChunk
      let length2 := min length (clustersPerChunk - offset % clustersPerChunk)
      let (ret, runs) ←
        match runs.find? chunk with
        | none => .ok (ret, runs)
        | some runList =>
            (splitList offset length2 inode fileOffset runList).map fun outcome =>
              (ret || outcome.1, runs.assign chunk outcome.2)
      if length2 = length then .ok (ret, runs)
      else
        splitRunsLoop clustersPerChunk inode fileOffset turns ret
          (offset + length2) (length - length2) runs

/-- `split_runs`. -/
def splitRuns
    (clustersPerChunk : Nat) (runs : Runs) (offset length inode fileOffset : Nat) :
    Except ConvertError (Bool × Runs) :=
  splitRunsLoop clustersPerChunk inode fileOffset (length + 1) false offset length runs

/-! ## One list -/

/-- Every outcome of cutting a range out of one list. -/
theorem splitList_cases
    (offset length inode fileOffset : Nat) (runs : List DataAlloc) :
    (splitList offset length inode fileOffset runs = .ok (false, runs)) ∨
    (∃ front run back, runs = front ++ run :: back ∧
      run.offset ≤ offset ∧ offset + length ≤ run.stop ∧
        run.offset < offset + length ∧ offset < run.stop ∧
        splitList offset length inode fileOffset runs =
          .ok (true, front ++ cutRun run offset length inode fileOffset ++ back)) ∨
    (splitList offset length inode fileOffset runs = .error .assigningSpace ∧
      ∃ run ∈ runs, run.offset < offset + length ∧ offset < run.stop ∧
        ¬ (run.offset ≤ offset ∧ offset + length ≤ run.stop)) := by
  induction runs with
  | nil => exact Or.inl rfl
  | cons run rest ih =>
    rw [splitList]
    by_cases beyond : run.offset > offset + length
    · exact Or.inl (if_pos beyond)
    rw [if_neg beyond]
    by_cases overlaps : offset + length > run.offset ∧ offset < run.stop
    · rw [if_pos overlaps]
      by_cases within : offset ≥ run.offset ∧ offset + length ≤ run.stop
      · rw [if_pos within]
        exact Or.inr (Or.inl
          ⟨[], run, rest, rfl, within.1, within.2, overlaps.1, overlaps.2, rfl⟩)
      · rw [if_neg within]
        exact Or.inr (Or.inr
          ⟨rfl, run, List.mem_cons_self, overlaps.1, overlaps.2, within⟩)
    · rw [if_neg overlaps]
      rcases ih with equal | ⟨front, other, back, shape, facts⟩ |
          ⟨equal, other, member, facts⟩
      · rw [equal]
        exact Or.inl rfl
      · obtain ⟨lower, upper, before, after, equal⟩ := facts
        rw [equal]
        refine Or.inr (Or.inl
          ⟨run :: front, other, back, by rw [shape, List.cons_append], lower, upper,
            before, after, rfl⟩)
      · rw [equal]
        exact Or.inr (Or.inr
          ⟨rfl, other, List.mem_cons_of_mem run member, facts⟩)

/-- In a tidy list a range that is not found is covered by no run. -/
theorem splitList_not_found
    {offset length inode fileOffset : Nat} {runs : List DataAlloc}
    (tidy : TidyRuns runs)
    (notFound : splitList offset length inode fileOffset runs = .ok (false, runs)) :
    ∀ run ∈ runs, ¬ (run.offset < offset + length ∧ offset < run.stop) := by
  induction runs with
  | nil => exact fun run member => absurd member List.not_mem_nil
  | cons head rest ih =>
    obtain ⟨-, later, restTidy⟩ := (tidyRuns_cons_iff head rest).mp tidy
    rw [splitList] at notFound
    split_ifs at notFound with beyond overlaps within
    · intro run member
      rcases List.mem_cons.mp member with rfl | inRest
      · omega
      · have ordered := later run inRest
        have stop : head.offset ≤ head.stop := Nat.le_add_right _ _
        omega
    · exact absurd (congrArg Prod.fst (Except.ok.inj notFound)) Bool.noConfusion
    · cases found : splitList offset length inode fileOffset rest with
      | error failure =>
        rw [found] at notFound
        exact absurd notFound (by simp [Except.map])
      | ok outcome =>
        rw [found] at notFound
        obtain ⟨first, second⟩ := Prod.mk.inj (Except.ok.inj notFound)
        have equal : outcome = (false, rest) :=
          Prod.ext first (List.cons.inj second).2
        intro run member
        rcases List.mem_cons.mp member with rfl | inRest
        · omega
        · exact ih restTidy (by rw [found, equal]) run inRest

/-- The pieces of a cut run cover what the run covered. -/
theorem mem_cutRun_contains_iff
    {run : DataAlloc} {offset length : Nat} (inode fileOffset : Nat)
    (lower : run.offset ≤ offset) (upper : offset + length ≤ run.stop) (cluster : Nat) :
    (∃ piece ∈ cutRun run offset length inode fileOffset,
        piece.extent.Contains cluster) ↔
      run.extent.Contains cluster := by
  simp only [DataAlloc.stop] at upper
  rw [cutRun]
  split_ifs with front back back <;>
    simp [Extent.Contains, DataAlloc.stop] at * <;>
    omega

theorem tidyRuns_cutRun
    {run : DataAlloc} {offset length : Nat} (inode fileOffset : Nat) (positive : 0 < length)
    (lower : run.offset ≤ offset) (upper : offset + length ≤ run.stop) :
    TidyRuns (cutRun run offset length inode fileOffset) ∧
      ∀ piece ∈ cutRun run offset length inode fileOffset,
        run.offset ≤ piece.offset ∧ piece.stop ≤ run.stop := by
  simp only [DataAlloc.stop] at upper
  rw [cutRun]
  split_ifs with front back back <;>
    simp [tidyRuns_cons_iff, tidyRuns_nil, DataAlloc.stop] at * <;>
    omega

/-! ## One cluster -/

/-- Giving one cluster an owner never fails. -/
theorem splitRuns_one
    {clustersPerChunk : Nat} (chunks : 0 < clustersPerChunk)
    (runs : Runs) (cluster inode fileOffset : Nat) :
    splitRuns clustersPerChunk runs cluster 1 inode fileOffset = .ok (false, runs) ∧
        splitList cluster 1 inode fileOffset (runs.list (cluster / clustersPerChunk)) =
          .ok (false, runs.list (cluster / clustersPerChunk)) ∨
      ∃ front run back,
        runs.list (cluster / clustersPerChunk) = front ++ run :: back ∧
          run.extent.Contains cluster ∧
          splitRuns clustersPerChunk runs cluster 1 inode fileOffset =
            .ok (true, runs.assign (cluster / clustersPerChunk)
              (front ++ cutRun run cluster 1 inode fileOffset ++ back)) := by
  have small := Nat.mod_lt cluster chunks
  have whole : min 1 (clustersPerChunk - cluster % clustersPerChunk) = 1 :=
    Nat.min_eq_left (by omega)
  rw [splitRuns, splitRunsLoop, whole, Runs.list]
  cases found : runs.find? (cluster / clustersPerChunk) with
  | none => exact Or.inl ⟨rfl, rfl⟩
  | some runList =>
    simp only [Option.getD_some, bind, Except.bind]
    rcases splitList_cases cluster 1 inode fileOffset runList with
      equal | ⟨front, run, back, shape, lower, upper, -, after, equal⟩ |
        ⟨-, run, -, before, after, partial_⟩
    · rw [equal]
      refine Or.inl ⟨?_, rfl⟩
      simp only [Except.map, Bool.or_false]
      rw [SortedMap.assign_self found]
      rfl
    · rw [equal]
      exact Or.inr ⟨front, run, back, shape, ⟨lower, after⟩, rfl⟩
    · omega

/-- The number of runs that cover a cluster. -/
def Runs.coverCount (runs : Runs) (cluster : Nat) : Nat :=
  runs.all.countP fun run => run.extent.Contains cluster

theorem Runs.coverCount_pos_iff (runs : Runs) (cluster : Nat) :
    0 < runs.coverCount cluster ↔ runs.Covers cluster := by
  rw [Runs.coverCount, List.countP_pos_iff, Runs.Covers]
  simp only [decide_eq_true_eq]

theorem TidyRuns.countP_contains
    {runs : List DataAlloc} (tidy : TidyRuns runs) (cluster : Nat) :
    runs.countP (fun run => run.extent.Contains cluster) =
      if ∃ run ∈ runs, run.extent.Contains cluster then 1 else 0 := by
  rw [List.countP_eq_length_filter]
  split_ifs with covered
  · obtain ⟨run, member, inside⟩ := covered
    rw [tidy.filter_contains member inside]
    rfl
  · refine List.length_eq_zero_iff.mpr (List.filter_eq_nil_iff.mpr fun run member => ?_)
    simpa using fun inside => covered ⟨run, member, inside⟩

theorem Runs.WellFormed.coverCount_le
    {clustersPerChunk : Nat} {runs : Runs} (wellFormed : runs.WellFormed clustersPerChunk)
    (cluster : Nat) :
    runs.coverCount cluster ≤ 1 := by
  rw [Runs.coverCount, wellFormed.tidy_all.countP_contains]
  split_ifs
  · exact le_rfl
  · exact Nat.zero_le 1

theorem Runs.coverCount_assign
    (runs : Runs) (chunk : Nat) (runList : List DataAlloc) (cluster : Nat) :
    Runs.coverCount (runs.assign chunk runList) cluster +
        (runs.list chunk).countP (fun run => run.extent.Contains cluster) =
      runs.coverCount cluster +
        runList.countP fun run => run.extent.Contains cluster := by
  rw [Runs.coverCount, Runs.coverCount, (runs.all_assign_perm chunk runList).countP_eq,
    (runs.all_perm chunk).countP_eq, List.countP_append, List.countP_append]
  omega

theorem countP_cutRun
    {run : DataAlloc} {offset length : Nat} (inode fileOffset : Nat) (positive : 0 < length)
    (lower : run.offset ≤ offset) (upper : offset + length ≤ run.stop) (cluster : Nat) :
    (cutRun run offset length inode fileOffset).countP
        (fun piece => piece.extent.Contains cluster) =
      [run].countP fun piece => piece.extent.Contains cluster := by
  obtain ⟨tidy, -⟩ := tidyRuns_cutRun inode fileOffset positive lower upper
  have nonempty : 0 < run.length := by
    simp only [DataAlloc.stop] at upper
    omega
  have single : TidyRuns [run] :=
    (tidyRuns_cons_iff run []).mpr ⟨nonempty, by simp, tidyRuns_nil⟩
  rw [tidy.countP_contains, single.countP_contains]
  simp only [mem_cutRun_contains_iff inode fileOffset lower upper,
    List.mem_singleton, exists_eq_left]

/-- Cutting a run changes neither how often a cluster is covered nor the other lists. -/
theorem Runs.coverCount_cut
    {runs : Runs} {chunk : Nat} {front back : List DataAlloc} {run : DataAlloc}
    (shape : runs.list chunk = front ++ run :: back)
    {offset length : Nat} (inode fileOffset : Nat) (positive : 0 < length)
    (lower : run.offset ≤ offset) (upper : offset + length ≤ run.stop) (cluster : Nat) :
    Runs.coverCount
        (runs.assign chunk (front ++ cutRun run offset length inode fileOffset ++ back))
        cluster =
      runs.coverCount cluster := by
  have counted := runs.coverCount_assign chunk
    (front ++ cutRun run offset length inode fileOffset ++ back) cluster
  have pieces := countP_cutRun inode fileOffset positive lower upper cluster
  rw [shape, List.countP_append, List.countP_append, List.countP_append, pieces,
    ← List.singleton_append, List.countP_append] at counted
  omega

end Ntfs2Btrfs
