import Ntfs2Btrfs.Basic
import Ntfs2Btrfs.Lib.SortedMap

/-!
# Run lists

The clusters in use are kept as lists of runs, one list for every 128 MiB of
the device.  A run says which file owns its clusters; the dummy inode owns the
clusters that have been copied away.
-/

namespace Ntfs2Btrfs

open Extents

/-- A run of clusters: `data_alloc` of the source. -/
structure DataAlloc where
  offset : Nat
  length : Nat
  inode : Nat := 0
  fileOffset : Nat := 0
  relocated : Bool := false
  notInImg : Bool := false
deriving DecidableEq, Repr

namespace DataAlloc

variable (run : DataAlloc)

/-- The clusters of a run. -/
def extent : Extent :=
  ⟨run.offset, run.length⟩

/-- The first cluster after a run. -/
def stop : Nat :=
  run.offset + run.length

@[simp]
theorem extent_offset : run.extent.offset = run.offset :=
  rfl

@[simp]
theorem extent_length : run.extent.length = run.length :=
  rfl

@[simp]
theorem extent_stop : run.extent.stop = run.stop :=
  rfl

/-- The clusters of the run have been copied away. -/
def IsDummy : Prop :=
  run.inode = dummyInode

instance : Decidable run.IsDummy :=
  inferInstanceAs (Decidable (_ = _))

end DataAlloc

/-- A run list is sorted, its runs are disjoint, and none is empty. -/
def TidyRuns (runs : List DataAlloc) : Prop :=
  Tidy (runs.map DataAlloc.extent)

theorem tidyRuns_nil : TidyRuns [] :=
  tidy_nil

theorem tidyRuns_cons_iff (run : DataAlloc) (rest : List DataAlloc) :
    TidyRuns (run :: rest) ↔
      0 < run.length ∧ (∀ next ∈ rest, run.stop ≤ next.offset) ∧
        TidyRuns rest := by
  rw [TidyRuns, List.map_cons, tidy_cons_iff]
  simp only [List.forall_mem_map]
  rfl

theorem tidyRuns_append_iff (left right : List DataAlloc) :
    TidyRuns (left ++ right) ↔
      TidyRuns left ∧ TidyRuns right ∧
        ∀ first ∈ left, ∀ second ∈ right, first.stop ≤ second.offset := by
  induction left with
  | nil => simp [tidyRuns_nil]
  | cons run rest induction =>
      rw [List.cons_append, tidyRuns_cons_iff, tidyRuns_cons_iff, induction]
      simp only [List.mem_append, or_imp, forall_and, List.mem_cons,
        forall_eq]
      tauto

theorem TidyRuns.positive
    {runs : List DataAlloc} (tidy : TidyRuns runs)
    {run : DataAlloc} (member : run ∈ runs) :
    0 < run.length :=
  Tidy.positive tidy run.extent (List.mem_map_of_mem member)

/-- A cluster is covered by at most one run of a tidy list. -/
theorem TidyRuns.unique
    {runs : List DataAlloc} (tidy : TidyRuns runs)
    {run other : DataAlloc} (member : run ∈ runs) (otherMember : other ∈ runs)
    {cluster : Nat} (covers : run.extent.Contains cluster)
    (otherCovers : other.extent.Contains cluster) :
    run = other := by
  induction runs with
  | nil => exact absurd member List.not_mem_nil
  | cons head rest induction =>
      obtain ⟨-, later, restTidy⟩ := (tidyRuns_cons_iff head rest).mp tidy
      obtain ⟨lower, upper⟩ := covers
      obtain ⟨otherLower, otherUpper⟩ := otherCovers
      simp only [DataAlloc.extent_offset, DataAlloc.extent_stop] at lower upper otherLower otherUpper
      rcases List.mem_cons.mp member with rfl | inRest
      · rcases List.mem_cons.mp otherMember with rfl | otherInRest
        · rfl
        · have ordered := later other otherInRest
          omega
      · rcases List.mem_cons.mp otherMember with rfl | otherInRest
        · have ordered := later run inRest
          omega
        · exact induction restTidy inRest otherInRest

/-- A cluster that a run covers is covered by this run alone. -/
theorem TidyRuns.filter_contains
    {runs : List DataAlloc} (tidy : TidyRuns runs)
    {run : DataAlloc} (member : run ∈ runs)
    {cluster : Nat} (covers : run.extent.Contains cluster) :
    runs.filter (fun other => other.extent.Contains cluster) = [run] := by
  induction runs with
  | nil => exact absurd member List.not_mem_nil
  | cons head rest induction =>
      obtain ⟨-, later, restTidy⟩ := (tidyRuns_cons_iff head rest).mp tidy
      rcases List.mem_cons.mp member with rfl | inRest
      · have none : rest.filter (fun other => other.extent.Contains cluster) = [] := by
          refine List.filter_eq_nil_iff.mpr fun other otherInRest => ?_
          have ordered := later other otherInRest
          have upper : cluster < run.stop := covers.2
          have outside : ¬ other.extent.Contains cluster := fun inside =>
            absurd (ordered.trans inside.1) (Nat.not_le_of_lt upper)
          simpa using outside
        rw [List.filter_cons_of_pos (by simpa using covers), none]
      · have outside : ¬ head.extent.Contains cluster := fun inside => by
          have ordered := later run inRest
          have lower : run.offset ≤ cluster := covers.1
          exact absurd (ordered.trans lower) (Nat.not_le_of_lt inside.2)
        rw [List.filter_cons_of_neg (by simpa using outside)]
        exact induction restTidy inRest

/-- The run lists of a device, by chunk number. -/
abbrev Runs := SortedMap Nat (List DataAlloc)

namespace Runs

/-- The runs of a device in the order in which the source visits them. -/
def all (runs : Runs) : List DataAlloc :=
  runs.entries.flatMap Prod.snd

/-- The run list of a chunk; `runs[chunk]` of the source. -/
def list (runs : Runs) (chunk : Nat) : List DataAlloc :=
  (runs.find? chunk).getD []

/--
Every run list is tidy and its runs lie in the chunk that the list belongs to.
-/
structure WellFormed (clustersPerChunk : Nat) (runs : Runs) : Prop where
  tidy : ∀ entry ∈ runs.entries, TidyRuns entry.2
  inChunk :
    ∀ entry ∈ runs.entries, ∀ run ∈ entry.2,
      entry.1 * clustersPerChunk ≤ run.offset ∧
        run.stop ≤ (entry.1 + 1) * clustersPerChunk

/-- The runs of the whole device are sorted and disjoint. -/
theorem WellFormed.tidy_all
    {clustersPerChunk : Nat} {runs : Runs}
    (wellFormed : runs.WellFormed clustersPerChunk) :
    TidyRuns runs.all := by
  obtain ⟨entries, sorted⟩ := runs
  obtain ⟨tidy, inChunk⟩ := wellFormed
  simp only [all] at tidy inChunk ⊢
  induction entries with
  | nil => exact tidyRuns_nil
  | cons entry rest induction =>
      obtain ⟨first, later⟩ := List.pairwise_cons.mp sorted
      rw [List.flatMap_cons, tidyRuns_append_iff]
      refine ⟨tidy entry (by simp), ?_, ?_⟩
      · exact induction later (fun next member => tidy next (by simp [member]))
          (fun next member => inChunk next (by simp [member]))
      · intro left leftMember right rightMember
        obtain ⟨next, nextMember, rightMember⟩ := List.mem_flatMap.mp rightMember
        have leftStop := (inChunk entry (by simp) left leftMember).2
        have rightStart :=
          (inChunk next (by simp [nextMember]) right rightMember).1
        have ordered := Nat.mul_le_mul_right clustersPerChunk
          (Nat.succ_le_of_lt (first next nextMember))
        exact leftStop.trans (ordered.trans rightStart)

/-! ## The list of one chunk -/

theorem list_empty (chunk : Nat) : Runs.list SortedMap.empty chunk = [] :=
  rfl

theorem list_eq_of_mem
    {runs : Runs} {entry : Nat × List DataAlloc} (member : entry ∈ runs.entries) :
    runs.list entry.1 = entry.2 := by
  rw [list, SortedMap.find?_eq_some_iff.mpr member]
  rfl

theorem mem_list_iff {runs : Runs} {chunk : Nat} {run : DataAlloc} :
    run ∈ runs.list chunk ↔ ∃ entry ∈ runs.entries, entry.1 = chunk ∧ run ∈ entry.2 := by
  constructor
  · intro member
    rw [list] at member
    cases found : runs.find? chunk with
    | none =>
      rw [found] at member
      exact absurd member List.not_mem_nil
    | some runList =>
      rw [found] at member
      exact ⟨(chunk, runList), SortedMap.find?_eq_some_iff.mp found, rfl, member⟩
  · rintro ⟨entry, entryMember, rfl, member⟩
    rw [list_eq_of_mem entryMember]
    exact member

theorem mem_all_iff {runs : Runs} {run : DataAlloc} :
    run ∈ runs.all ↔ ∃ chunk, run ∈ runs.list chunk := by
  rw [all, List.mem_flatMap]
  constructor
  · rintro ⟨entry, entryMember, member⟩
    exact ⟨entry.1, mem_list_iff.mpr ⟨entry, entryMember, rfl, member⟩⟩
  · rintro ⟨chunk, member⟩
    obtain ⟨entry, entryMember, -, member⟩ := mem_list_iff.mp member
    exact ⟨entry, entryMember, member⟩

theorem list_assign (runs : Runs) (chunk other : Nat) (runList : List DataAlloc) :
    Runs.list (runs.assign chunk runList) other =
      if other = chunk then runList else runs.list other := by
  rw [list, SortedMap.find?_assign]
  split_ifs
  · rfl
  · rfl

theorem list_erase (runs : Runs) (chunk other : Nat) :
    Runs.list (runs.erase chunk) other =
      if other = chunk then [] else runs.list other := by
  rw [list, SortedMap.find?_erase]
  split_ifs
  · rfl
  · rfl

/-- The runs up to their order: one list, and the lists of the other chunks. -/
theorem all_perm (runs : Runs) (chunk : Nat) :
    runs.all.Perm (runs.list chunk ++ Runs.all (runs.erase chunk)) := by
  rw [list]
  cases found : runs.find? chunk with
  | none =>
    have absent : runs.erase chunk = runs := by
      refine SortedMap.ext ?_
      refine List.filter_eq_self.mpr fun entry member => ?_
      have keys := SortedMap.find?_eq_none_iff.mp found
      have other : entry.1 ≠ chunk := fun same =>
        keys (SortedMap.mem_keys_iff.mpr ⟨entry.2, same ▸ member⟩)
      simpa using other
    rw [absent]
    exact List.Perm.refl _
  | some runList =>
    exact (SortedMap.perm_cons_erase (SortedMap.find?_eq_some_iff.mp found)).flatMap_right
      Prod.snd

theorem all_assign_perm (runs : Runs) (chunk : Nat) (runList : List DataAlloc) :
    (Runs.all (runs.assign chunk runList)).Perm
      (runList ++ Runs.all (runs.erase chunk)) :=
  (SortedMap.perm_assign runs chunk runList).flatMap_right Prod.snd

/-- The invariant, list by list. -/
theorem wellFormed_iff {clustersPerChunk : Nat} {runs : Runs} :
    runs.WellFormed clustersPerChunk ↔
      ∀ chunk, TidyRuns (runs.list chunk) ∧
        ∀ run ∈ runs.list chunk,
          chunk * clustersPerChunk ≤ run.offset ∧
            run.stop ≤ (chunk + 1) * clustersPerChunk := by
  constructor
  · intro wellFormed chunk
    refine ⟨?_, ?_⟩
    · rw [list]
      cases found : runs.find? chunk with
      | none => exact tidyRuns_nil
      | some runList =>
        exact wellFormed.tidy (chunk, runList) (SortedMap.find?_eq_some_iff.mp found)
    · intro run member
      obtain ⟨entry, entryMember, rfl, inEntry⟩ := mem_list_iff.mp member
      exact wellFormed.inChunk entry entryMember run inEntry
  · intro lists
    refine ⟨fun entry member => ?_, fun entry member run runMember => ?_⟩
    · rw [← list_eq_of_mem member]
      exact (lists entry.1).1
    · rw [← list_eq_of_mem member] at runMember
      exact (lists entry.1).2 run runMember

theorem WellFormed.assign
    {clustersPerChunk : Nat} {runs : Runs} (wellFormed : runs.WellFormed clustersPerChunk)
    {chunk : Nat} {runList : List DataAlloc} (tidy : TidyRuns runList)
    (inChunk : ∀ run ∈ runList,
      chunk * clustersPerChunk ≤ run.offset ∧
        run.stop ≤ (chunk + 1) * clustersPerChunk) :
    Runs.WellFormed clustersPerChunk (runs.assign chunk runList) := by
  refine wellFormed_iff.mpr fun other => ?_
  rw [list_assign]
  split_ifs with same
  · subst same
    exact ⟨tidy, inChunk⟩
  · exact wellFormed_iff.mp wellFormed other

/-- The run that covers a cluster is in the list of the chunk of the cluster. -/
theorem WellFormed.chunk_eq
    {clustersPerChunk : Nat} {runs : Runs} (wellFormed : runs.WellFormed clustersPerChunk)
    {chunk cluster : Nat} {run : DataAlloc}
    (member : run ∈ runs.list chunk) (covers : run.extent.Contains cluster) :
    cluster / clustersPerChunk = chunk := by
  obtain ⟨lower, upper⟩ := (wellFormed_iff.mp wellFormed chunk).2 run member
  obtain ⟨from_, to_⟩ := covers
  exact Nat.div_eq_of_lt_le (lower.trans from_) (lt_of_lt_of_le to_ upper)

/-- Two runs do not cover the same cluster. -/
theorem WellFormed.unique
    {clustersPerChunk : Nat} {runs : Runs} (wellFormed : runs.WellFormed clustersPerChunk)
    {cluster : Nat} {run other : DataAlloc}
    (member : run ∈ runs.all) (otherMember : other ∈ runs.all)
    (covers : run.extent.Contains cluster) (otherCovers : other.extent.Contains cluster) :
    run = other :=
  wellFormed.tidy_all.unique member otherMember covers otherCovers

end Runs

end Ntfs2Btrfs
