import Ntfs2Btrfs.Protection

/-!
# Assigning clusters to a file

What `split_runs` does to a range inside one chunk: it gives the range to an
inode and leaves the owners of all other clusters as they are, or it leaves
the run lists alone.  The function may throw after it has changed the lists of
earlier chunks, so the lists are followed on every way out of it.
-/

namespace Ntfs2Btrfs

open Extents

/-! ## The code with its state -/

/-- The loop over one run list: what it returns or throws, and the list as it leaves it. -/
def splitListState (offset length inode fileOffset : Nat) :
    List DataAlloc → Except ConvertError Bool × List DataAlloc
  | [] => (.ok false, [])
  | run :: rest =>
      if run.offset > offset + length then (.ok false, run :: rest)
      else if offset + length > run.offset ∧ offset < run.stop then
        if offset ≥ run.offset ∧ offset + length ≤ run.stop then
          -- cut out middle
          (.ok true, cutRun run offset length inode fileOffset ++ rest)
        else (.error .assigningSpace, run :: rest)
      else
        let outcome := splitListState offset length inode fileOffset rest
        (outcome.1, run :: outcome.2)

/-- The loop of `split_runs` over the chunks, with the run lists as it leaves them. -/
def splitRunsStateLoop (clustersPerChunk inode fileOffset : Nat) :
    Nat → Bool → Nat → Nat → Runs → Except ConvertError Bool × Runs
  | 0, ret, _, _, runs => (.ok ret, runs)
  | turns + 1, ret, offset, length, runs =>
      let chunk := offset / clustersPerChunk
      let length2 := min length (clustersPerChunk - offset % clustersPerChunk)
      let outcome : Except ConvertError Bool × Runs :=
        match runs.find? chunk with
        | none => (.ok ret, runs)
        | some runList =>
            let outcome := splitListState offset length2 inode fileOffset runList
            (outcome.1.map (ret || ·), runs.assign chunk outcome.2)
      match outcome.1 with
      | .error error => (.error error, outcome.2)
      | .ok ret =>
          if length2 = length then (.ok ret, outcome.2)
          else
            splitRunsStateLoop clustersPerChunk inode fileOffset turns ret
              (offset + length2) (length - length2) outcome.2

/-- `split_runs`, with the run lists as it leaves them. -/
def splitRunsState
    (clustersPerChunk : Nat) (runs : Runs) (offset length inode fileOffset : Nat) :
    Except ConvertError Bool × Runs :=
  splitRunsStateLoop clustersPerChunk inode fileOffset (length + 1) false offset length runs

theorem splitList_eq_state
    (offset length inode fileOffset : Nat) (runs : List DataAlloc) :
    splitList offset length inode fileOffset runs =
      (splitListState offset length inode fileOffset runs).1.map
        (·, (splitListState offset length inode fileOffset runs).2) := by
  induction runs with
  | nil => rfl
  | cons run rest ih =>
    rw [splitList, splitListState]
    split_ifs
    · rfl
    · rfl
    · rfl
    · rw [ih]
      cases (splitListState offset length inode fileOffset rest).1 <;> rfl

theorem splitRunsLoop_eq_state
    (clustersPerChunk inode fileOffset turns : Nat) (ret : Bool) (offset length : Nat)
    (runs : Runs) :
    splitRunsLoop clustersPerChunk inode fileOffset turns ret offset length runs =
      (splitRunsStateLoop clustersPerChunk inode fileOffset turns ret offset length runs).1.map
        (·, (splitRunsStateLoop clustersPerChunk inode fileOffset turns ret offset length
          runs).2) := by
  induction turns generalizing ret offset length runs with
  | zero => rfl
  | succ turns ih =>
    rw [splitRunsLoop, splitRunsStateLoop]
    simp only [splitList_eq_state]
    cases runs.find? (offset / clustersPerChunk) with
    | none =>
      simp only [bind, Except.bind]
      split_ifs
      · rfl
      · exact ih _ _ _ _
    | some runList =>
      simp only [bind, Except.bind]
      cases (splitListState offset
        (min length (clustersPerChunk - offset % clustersPerChunk)) inode fileOffset
        runList).1 with
      | error error => rfl
      | ok found =>
        simp only [Except.map]
        split_ifs
        · rfl
        · exact ih _ _ _ _

/-- The state forgotten, this is `split_runs` as above. -/
theorem splitRuns_eq_state
    (clustersPerChunk : Nat) (runs : Runs) (offset length inode fileOffset : Nat) :
    splitRuns clustersPerChunk runs offset length inode fileOffset =
      (splitRunsState clustersPerChunk runs offset length inode fileOffset).1.map
        (·, (splitRunsState clustersPerChunk runs offset length inode fileOffset).2) :=
  splitRunsLoop_eq_state _ _ _ _ _ _ _ _

/-! ## Ranges and runs -/

/-- The run and the range have a cluster in common. -/
def DataAlloc.Meets (run : DataAlloc) (offset length : Nat) : Prop :=
  run.offset < offset + length ∧ offset < run.stop

instance (run : DataAlloc) (offset length : Nat) : Decidable (run.Meets offset length) :=
  inferInstanceAs (Decidable (_ ∧ _))

/-- The range lies within the run. -/
def DataAlloc.Within (run : DataAlloc) (offset length : Nat) : Prop :=
  run.offset ≤ offset ∧ offset + length ≤ run.stop

instance (run : DataAlloc) (offset length : Nat) : Decidable (run.Within offset length) :=
  inferInstanceAs (Decidable (_ ∧ _))

theorem DataAlloc.Within.meets
    {run : DataAlloc} {offset length : Nat} (within : run.Within offset length)
    (positive : 0 < length) : run.Meets offset length := by
  obtain ⟨lower, upper⟩ := within
  exact ⟨by omega, by omega⟩

/-- No owner, and only a single cluster if it is marked as relocated. -/
def DataAlloc.Unowned (run : DataAlloc) : Prop :=
  run.inode = 0 ∧ (run.relocated → run.length = 1)

instance (run : DataAlloc) : Decidable run.Unowned :=
  inferInstanceAs (Decidable (_ ∧ _))

/-- What a run says about each of its clusters. -/
structure ClusterAttributes where
  inode : Nat
  fileOffset : Nat
  relocated : Bool
  notInImg : Bool
deriving DecidableEq, Repr

def DataAlloc.attributes (run : DataAlloc) : ClusterAttributes :=
  ⟨run.inode, run.fileOffset, run.relocated, run.notInImg⟩

/-- The attributes of a cluster, if a run covers it. -/
def Runs.attributesAt (runs : Runs) (cluster : Nat) : Option ClusterAttributes :=
  (runs.all.find? fun run => run.extent.Contains cluster).map DataAlloc.attributes

theorem Runs.WellFormed.attributesAt_eq
    {clustersPerChunk : Nat} {runs : Runs} (wellFormed : runs.WellFormed clustersPerChunk)
    {run : DataAlloc} (member : run ∈ runs.all) {cluster : Nat}
    (covers : run.extent.Contains cluster) :
    runs.attributesAt cluster = some run.attributes := by
  rw [Runs.attributesAt]
  cases found : runs.all.find? fun run => run.extent.Contains cluster with
  | none => exact absurd covers (by simpa using List.find?_eq_none.mp found run member)
  | some other =>
    have otherCovers := List.find?_some found
    rw [wellFormed.unique member (List.mem_of_find?_eq_some found) covers (by simpa using otherCovers)]
    rfl

theorem Runs.attributesAt_eq_none
    {runs : Runs} {cluster : Nat} (free : ¬ runs.Covers cluster) :
    runs.attributesAt cluster = none := by
  rw [Runs.attributesAt, Option.map_eq_none_iff, List.find?_eq_none]
  intro run member
  have outside : ¬ run.extent.Contains cluster := fun covers => free ⟨run, member, covers⟩
  simpa using outside

/-! ## One list -/

/-- Runs before the first one that meets the range are passed over. -/
theorem splitListState_append
    {offset length inode fileOffset : Nat} {front rest : List DataAlloc}
    (apart : ∀ run ∈ front, ¬ run.Meets offset length ∧ run.offset ≤ offset + length) :
    splitListState offset length inode fileOffset (front ++ rest) =
      ((splitListState offset length inode fileOffset rest).1,
        front ++ (splitListState offset length inode fileOffset rest).2) := by
  induction front with
  | nil => rfl
  | cons run front ih =>
    obtain ⟨⟨notMeets, before⟩, later⟩ := List.forall_mem_cons.mp apart
    rw [List.cons_append, splitListState, if_neg (Nat.not_lt.mpr before),
      if_neg (show ¬ (offset + length > run.offset ∧ offset < run.stop) from notMeets),
      ih later]
    rfl

theorem splitListState_cons_of_meets
    {offset length : Nat} (inode fileOffset : Nat) {run : DataAlloc} (rest : List DataAlloc)
    (meets : run.Meets offset length) :
    splitListState offset length inode fileOffset (run :: rest) =
      if run.Within offset length then
        (.ok true, cutRun run offset length inode fileOffset ++ rest)
      else (.error .assigningSpace, run :: rest) := by
  obtain ⟨before, after⟩ := meets
  rw [splitListState, if_neg (by omega), if_pos ⟨before, after⟩]
  rfl

/-- The runs in front of one that meets the range end before it starts. -/
theorem TidyRuns.apart_of_first
    {front back : List DataAlloc} {run : DataAlloc} (tidy : TidyRuns (front ++ run :: back))
    {offset length : Nat} (meets : run.Meets offset length)
    (first : ∀ other ∈ front, ¬ other.Meets offset length) :
    ∀ other ∈ front, ¬ other.Meets offset length ∧ other.offset ≤ offset + length := by
  obtain ⟨-, -, before⟩ := (tidyRuns_append_iff _ _).mp tidy
  intro other member
  have ordered := before other member run List.mem_cons_self
  have stop : other.offset ≤ other.stop := Nat.le_add_right _ _
  exact ⟨first other member, by have := meets.1; omega⟩

/-- A list without a run that meets the range is left alone. -/
theorem splitListState_of_no_meets
    {offset length : Nat} (inode fileOffset : Nat) {runs : List DataAlloc}
    (none : ∀ run ∈ runs, ¬ run.Meets offset length) :
    splitListState offset length inode fileOffset runs = (.ok false, runs) := by
  induction runs with
  | nil => rfl
  | cons run rest ih =>
    obtain ⟨notMeets, later⟩ := List.forall_mem_cons.mp none
    rw [splitListState, if_neg (show ¬ (offset + length > run.offset ∧ offset < run.stop) from
      notMeets), ih later]
    exact ite_self _

/-! ## One chunk -/

section Chunk

variable {clustersPerChunk offset length : Nat}

/-- A range inside one chunk takes one turn of the loop. -/
theorem splitRunsState_of_inChunk
    (inChunk : offset % clustersPerChunk + length ≤ clustersPerChunk) (runs : Runs)
    (inode fileOffset : Nat) :
    splitRunsState clustersPerChunk runs offset length inode fileOffset =
      match runs.find? (offset / clustersPerChunk) with
      | none => (.ok false, runs)
      | some runList =>
          ((splitListState offset length inode fileOffset runList).1,
            runs.assign (offset / clustersPerChunk)
              (splitListState offset length inode fileOffset runList).2) := by
  have whole : min length (clustersPerChunk - offset % clustersPerChunk) = length := by omega
  rw [splitRunsState, splitRunsStateLoop]
  simp only [whole]
  cases runs.find? (offset / clustersPerChunk) with
  | none => rfl
  | some runList =>
    cases ended : (splitListState offset length inode fileOffset runList).1 <;>
      simp [ended, Except.map]

/-- A run that meets a range inside a chunk is in the list of the chunk. -/
theorem Runs.WellFormed.mem_list_of_meets
    {runs : Runs} (wellFormed : runs.WellFormed clustersPerChunk)
    (inChunk : offset % clustersPerChunk + length ≤ clustersPerChunk)
    {run : DataAlloc} (member : run ∈ runs.all) (meets : run.Meets offset length) :
    run ∈ runs.list (offset / clustersPerChunk) := by
  obtain ⟨chunk, inList⟩ := Runs.mem_all_iff.mp member
  obtain ⟨lower, upper⟩ := (Runs.wellFormed_iff.mp wellFormed chunk).2 run inList
  obtain ⟨before, after⟩ := meets
  have divided := Nat.div_add_mod offset clustersPerChunk
  have same : offset / clustersPerChunk = chunk := by
    have lowerChunk : chunk ≤ offset / clustersPerChunk := by
      by_contra less
      have next : (offset / clustersPerChunk + 1) * clustersPerChunk ≤
          chunk * clustersPerChunk := Nat.mul_le_mul_right _ (by omega)
      rw [Nat.succ_mul, Nat.mul_comm] at next
      omega
    have upperChunk : offset / clustersPerChunk ≤ chunk := by
      by_contra more
      have next : (chunk + 1) * clustersPerChunk ≤
          offset / clustersPerChunk * clustersPerChunk := Nat.mul_le_mul_right _ (by omega)
      rw [Nat.mul_comm (offset / clustersPerChunk)] at next
      omega
    omega
  rw [same]
  exact inList

end Chunk

/-! ## The three outcomes -/

/-- The range has a run of its own, and nothing else is changed. -/
structure AssignsRange
    (clustersPerChunk : Nat) (before after : Runs) (run : DataAlloc)
    (offset length inode fileOffset : Nat) : Prop where
  wellFormed : after.WellFormed clustersPerChunk
  nonempty :
    (∀ entry ∈ before.entries, entry.2 ≠ []) → ∀ entry ∈ after.entries, entry.2 ≠ []
  covers : ∀ cluster, after.Covers cluster ↔ before.Covers cluster
  owned :
    after.all.filter (fun other => other.offset = offset ∧ other.length = length) =
      [{ offset := offset
         length := length
         inode := inode
         fileOffset := fileOffset
         relocated := run.relocated }]
  frame :
    ∀ cluster, ¬ (offset ≤ cluster ∧ cluster < offset + length) →
      after.attributesAt cluster = before.attributesAt cluster

/-- Cutting keeps the attributes of the other clusters if the run has those that it gives to
the piece in front. -/
theorem attributes_cutRun
    {run : DataAlloc} {offset length : Nat} (inode fileOffset : Nat)
    (within : run.Within offset length) (positive : 0 < length) (unowned : run.Unowned)
    (plain : run.offset < offset → run.fileOffset = 0 ∧ run.notInImg = false)
    {cluster : Nat} (covers : run.extent.Contains cluster)
    (outside : ¬ (offset ≤ cluster ∧ cluster < offset + length)) :
    ∃ piece ∈ cutRun run offset length inode fileOffset,
      piece.extent.Contains cluster ∧ piece.attributes = run.attributes := by
  obtain ⟨lower, upper⟩ := within
  obtain ⟨from_, to_⟩ := covers
  simp only [DataAlloc.extent_offset, DataAlloc.extent_stop, DataAlloc.stop] at *
  rcases Nat.lt_or_ge cluster offset with inFront | inBack
  · obtain ⟨fileOffsetZero, inImg⟩ := plain (by omega)
    have notRelocated : run.relocated = false := by
      by_contra relocated
      have single := unowned.2 (by simpa using relocated)
      omega
    refine ⟨{ offset := run.offset, length := offset - run.offset }, ?_, ⟨from_, ?_⟩, ?_⟩
    · rw [cutRun, if_pos (by omega)]
      exact List.mem_append_left _ (List.mem_singleton_self _)
    · simp only [DataAlloc.extent_stop, DataAlloc.stop]
      omega
    · rw [DataAlloc.attributes, DataAlloc.attributes, unowned.1, fileOffsetZero, inImg,
        notRelocated]
  · refine ⟨{ run with offset := offset + length, length := run.stop - offset - length },
      ?_, ⟨?_, ?_⟩, rfl⟩
    · rw [cutRun, if_pos (show offset + length < run.stop by
        simp only [DataAlloc.stop]
        omega)]
      exact List.mem_append_right _ (List.mem_cons_of_mem _ (List.mem_singleton_self _))
    · simp only [DataAlloc.extent_offset]
      omega
    · simp only [DataAlloc.extent_stop, DataAlloc.stop]
      omega

theorem mem_cutRun (run : DataAlloc) (offset length inode fileOffset : Nat) :
    { offset := offset
      length := length
      inode := inode
      fileOffset := fileOffset
      relocated := run.relocated } ∈ cutRun run offset length inode fileOffset :=
  List.mem_append_right _ List.mem_cons_self

/-- The run that starts where another one does, in tidy lists, is this run. -/
theorem TidyRuns.filter_range
    {runs : List DataAlloc} (tidy : TidyRuns runs) {run : DataAlloc} (member : run ∈ runs) :
    runs.filter (fun other => other.offset = run.offset ∧ other.length = run.length) =
      [run] := by
  have positive := tidy.positive member
  have covers : run.extent.Contains run.offset :=
    ⟨le_rfl, Nat.lt_add_of_pos_right positive⟩
  have narrower : runs.filter (fun other => other.offset = run.offset ∧
        other.length = run.length) =
      (runs.filter fun other => other.extent.Contains run.offset).filter
        (fun other => other.offset = run.offset ∧ other.length = run.length) := by
    rw [List.filter_filter]
    refine List.filter_congr fun other otherMember => ?_
    have inside : other.offset = run.offset ∧ other.length = run.length →
        other.extent.Contains run.offset := fun same =>
      ⟨same.1.le, by
        simp only [DataAlloc.extent_stop, DataAlloc.stop]
        omega⟩
    simpa using inside
  rw [narrower, tidy.filter_contains member covers]
  simp

section Outcomes

variable {clustersPerChunk : Nat} {runs : Runs} {offset length : Nat}

theorem Runs.WellFormed.find?_of_meets
    (wellFormed : runs.WellFormed clustersPerChunk)
    (inChunk : offset % clustersPerChunk + length ≤ clustersPerChunk)
    {run : DataAlloc} (member : run ∈ runs.all) (meets : run.Meets offset length) :
    ∃ runList, runs.find? (offset / clustersPerChunk) = some runList ∧
      runs.list (offset / clustersPerChunk) = runList ∧ run ∈ runList := by
  have inList := wellFormed.mem_list_of_meets inChunk member meets
  rw [Runs.list] at inList ⊢
  cases found : runs.find? (offset / clustersPerChunk) with
  | none =>
    rw [found] at inList
    exact absurd inList List.not_mem_nil
  | some runList =>
    rw [found] at inList
    exact ⟨runList, rfl, rfl, inList⟩

/-- A range that meets no run is not found, and nothing is changed. -/
theorem splitRunsState_of_no_meets
    (inChunk : offset % clustersPerChunk + length ≤ clustersPerChunk)
    (none : ∀ run ∈ runs.all, ¬ run.Meets offset length) (inode fileOffset : Nat) :
    splitRunsState clustersPerChunk runs offset length inode fileOffset =
      (.ok false, runs) := by
  rw [splitRunsState_of_inChunk inChunk]
  cases found : runs.find? (offset / clustersPerChunk) with
  | none => rfl
  | some runList =>
    have listed : ∀ run ∈ runList, ¬ run.Meets offset length := by
      intro run member
      refine none run (Runs.mem_all_iff.mpr ⟨offset / clustersPerChunk, ?_⟩)
      rw [Runs.list, found]
      exact member
    simp only [splitListState_of_no_meets inode fileOffset listed]
    rw [SortedMap.assign_self found]

/-- The outcome is that of the first run which the range meets. -/
theorem splitRunsState_of_first
    (wellFormed : runs.WellFormed clustersPerChunk)
    (inChunk : offset % clustersPerChunk + length ≤ clustersPerChunk)
    {run : DataAlloc} (member : run ∈ runs.all) (meets : run.Meets offset length)
    (first : ∀ other ∈ runs.all, other.Meets offset length → run.offset ≤ other.offset)
    (inode fileOffset : Nat) :
    ∃ front back,
      runs.list (offset / clustersPerChunk) = front ++ run :: back ∧
      splitRunsState clustersPerChunk runs offset length inode fileOffset =
        if run.Within offset length then
          (.ok true, runs.assign (offset / clustersPerChunk)
            (front ++ cutRun run offset length inode fileOffset ++ back))
        else (.error .assigningSpace, runs) := by
  obtain ⟨runList, found, listed, inList⟩ := wellFormed.find?_of_meets inChunk member meets
  obtain ⟨front, back, rfl⟩ := List.append_of_mem inList
  have tidy := ((Runs.wellFormed_iff.mp wellFormed) (offset / clustersPerChunk)).1
  rw [listed] at tidy
  refine ⟨front, back, listed, ?_⟩
  have apart := tidy.apart_of_first meets fun other inFront otherMeets => by
    have before := ((tidyRuns_append_iff _ _).mp tidy).2.2 other inFront run List.mem_cons_self
    have positive := tidy.positive (List.mem_append_left _ inFront)
    have later := first other
      (Runs.mem_all_iff.mpr ⟨offset / clustersPerChunk, by rw [listed]; simp [inFront]⟩) otherMeets
    simp only [DataAlloc.stop] at before
    omega
  rw [splitRunsState_of_inChunk inChunk, found]
  simp only [splitListState_append apart, splitListState_cons_of_meets inode fileOffset back meets]
  split_ifs with within
  · rw [List.append_assoc]
  · rw [SortedMap.assign_self found]

/-- A range within one run is assigned. -/
theorem assignsRange_of_within
    (wellFormed : runs.WellFormed clustersPerChunk) (positive : 0 < length)
    {run : DataAlloc} (within : run.Within offset length) (unowned : run.Unowned)
    (plain : run.offset < offset → run.fileOffset = 0 ∧ run.notInImg = false)
    {chunk : Nat} {front back : List DataAlloc} (shape : runs.list chunk = front ++ run :: back)
    (inode fileOffset : Nat) :
    AssignsRange clustersPerChunk runs
      (runs.assign chunk (front ++ cutRun run offset length inode fileOffset ++ back))
      run offset length inode fileOffset := by
  obtain ⟨lower, upper⟩ := within
  have after := wellFormed.cutRange shape positive lower upper inode fileOffset
  have member : run ∈ runs.all := Runs.mem_all_iff.mpr ⟨chunk, by rw [shape]; simp⟩
  have covers : ∀ cluster,
      Runs.Covers (runs.assign chunk
        (front ++ cutRun run offset length inode fileOffset ++ back)) cluster ↔
        runs.Covers cluster := by
    intro cluster
    rw [← Runs.coverCount_pos_iff, ← Runs.coverCount_pos_iff,
      Runs.coverCount_cut shape inode fileOffset positive lower upper]
  refine ⟨after, fun nonempty entry entryMember => ?_, covers, ?_, fun cluster outside => ?_⟩
  · rcases SortedMap.mem_assign_iff.mp entryMember with rfl | ⟨other, -⟩
    · simp [cutRun]
    · exact nonempty entry other
  · exact after.tidy_all.filter_range (Runs.mem_all_cut_of_piece (mem_cutRun _ _ _ _ _))
  · by_cases covered : runs.Covers cluster
    · obtain ⟨other, otherMember, otherCovers⟩ := covered
      rw [wellFormed.attributesAt_eq otherMember otherCovers]
      by_cases same : other = run
      · subst same
        obtain ⟨piece, pieceMember, pieceCovers, equal⟩ :=
          attributes_cutRun inode fileOffset ⟨lower, upper⟩ positive unowned plain otherCovers
            outside
        rw [after.attributesAt_eq (Runs.mem_all_cut_of_piece pieceMember) pieceCovers, equal]
      · rw [after.attributesAt_eq (Runs.mem_all_cut shape otherMember same) otherCovers]
    · rw [Runs.attributesAt_eq_none covered,
        Runs.attributesAt_eq_none fun now => covered ((covers cluster).mp now)]

/--
A range inside one chunk: an unowned run that it lies within gives it up to the
inode, a range that meets no run is not found, and a range that meets its
first run in part is an error.
-/
theorem splitRunsState_inside_chunk
    (wellFormed : runs.WellFormed clustersPerChunk) (positive : 0 < length)
    (inChunk : offset % clustersPerChunk + length ≤ clustersPerChunk)
    (inode fileOffset : Nat) :
    (∀ run ∈ runs.all, run.Within offset length → run.Unowned →
      (run.offset < offset → run.fileOffset = 0 ∧ run.notInImg = false) →
        ∃ after,
          splitRunsState clustersPerChunk runs offset length inode fileOffset =
            (.ok true, after) ∧
          AssignsRange clustersPerChunk runs after run offset length inode fileOffset) ∧
    ((∀ run ∈ runs.all, ¬ run.Meets offset length) →
      splitRunsState clustersPerChunk runs offset length inode fileOffset =
        (.ok false, runs)) ∧
    (∀ run ∈ runs.all, run.Meets offset length →
      (∀ other ∈ runs.all, other.Meets offset length → run.offset ≤ other.offset) →
      ¬ run.Within offset length →
        splitRunsState clustersPerChunk runs offset length inode fileOffset =
          (.error .assigningSpace, runs)) := by
  refine ⟨fun run member within unowned plain => ?_,
    fun none => splitRunsState_of_no_meets inChunk none inode fileOffset,
    fun run member meets first partial_ => ?_⟩
  · have first : ∀ other ∈ runs.all, other.Meets offset length → run.offset ≤ other.offset := by
      intro other otherMember otherMeets
      obtain ⟨lower, upper⟩ := within
      obtain ⟨otherBefore, otherAfter⟩ := otherMeets
      -- the two runs share a cluster of the range
      have shared : other.extent.Contains (max other.offset offset) :=
        ⟨le_max_left _ _, by
          simp only [DataAlloc.extent_stop]
          have nonempty := wellFormed.tidy_all.positive otherMember
          simp only [DataAlloc.stop] at otherAfter ⊢
          omega⟩
      have inRun : run.extent.Contains (max other.offset offset) :=
        ⟨lower.trans (le_max_right _ _), by
          simp only [DataAlloc.extent_stop]
          omega⟩
      rw [wellFormed.unique member otherMember inRun shared]
    obtain ⟨front, back, shape, equal⟩ := splitRunsState_of_first wellFormed inChunk member
      (within.meets positive) first inode fileOffset
    rw [if_pos within] at equal
    exact ⟨_, equal, assignsRange_of_within wellFormed positive within unowned plain shape
      inode fileOffset⟩
  · obtain ⟨front, back, -, equal⟩ := splitRunsState_of_first wellFormed inChunk member
      meets first inode fileOffset
    rw [equal, if_neg partial_]

end Outcomes

/-- Four clusters in use that nobody owns. -/
def fourClusters (notInImg : Bool) : Runs :=
  SortedMap.empty.assign 0 [{ offset := 0, length := 4, notInImg := notInImg }]

theorem fourClusters_wellFormed (notInImg : Bool) :
    (fourClusters notInImg).WellFormed 32768 := by
  have entries : (fourClusters notInImg).entries =
      [(0, [{ offset := 0, length := 4, notInImg := notInImg }])] := rfl
  refine ⟨fun entry member => ?_, fun entry member run runMember => ?_⟩
  · rw [entries, List.mem_singleton] at member
    rw [member]
    exact (tidyRuns_cons_iff _ _).mpr ⟨Nat.zero_lt_succ 3, by simp, tidyRuns_nil⟩
  · rw [entries, List.mem_singleton] at member
    rw [member, List.mem_singleton] at runMember
    rw [member, runMember]
    simp [DataAlloc.stop]

theorem splitRunsState_inside_chunk_one_cluster :
    ∃ after,
      splitRunsState 32768 (fourClusters false) 1 1 300 7 = (.ok true, after) ∧
      AssignsRange 32768 (fourClusters false) after { offset := 0, length := 4 } 1 1 300 7 :=
  (splitRunsState_inside_chunk (fourClusters_wellFormed false) (by decide) (by decide) 300 7).1
    { offset := 0, length := 4 } (by decide +kernel) (by decide) (by decide) (by decide)

/-- The piece in front of the range forgets that its clusters are not in the image. -/
theorem splitRunsState_forgets_not_in_img :
    (fourClusters true).WellFormed 32768 ∧
    (∃ run ∈ (fourClusters true).all, run.Within 1 1 ∧ run.Unowned) ∧
    (splitRunsState 32768 (fourClusters true) 1 1 300 0).1 = .ok true ∧
    (fourClusters true).attributesAt 0 = some ⟨0, 0, false, true⟩ ∧
    Runs.attributesAt (splitRunsState 32768 (fourClusters true) 1 1 300 0).2 0 =
      some ⟨0, 0, false, false⟩ :=
  ⟨fourClusters_wellFormed true, by decide +kernel, by decide +kernel, by decide +kernel,
    by decide +kernel⟩

end Ntfs2Btrfs
