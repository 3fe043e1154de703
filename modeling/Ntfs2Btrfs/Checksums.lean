import Ntfs2Btrfs.Crc32c
import Ntfs2Btrfs.Items
import Ntfs2Btrfs.Runs

/-!
# Checksums of file data

`calc_checksums` first splits and merges the runs of used clusters into ranges
that are as long as one checksum item can describe, and then writes one item
for every range.  The first loop changes its input; its state here is the list
of finished ranges, last one first, and the runs still to be read.
-/

namespace Ntfs2Btrfs

open Extents
open ByteStore

/-! ## Sizes -/

/-- The checksum algorithms. -/
inductive CsumType where
  | crc32c
  | xxhash
  | sha256
  | blake2
deriving DecidableEq, Repr

/-- The size of one checksum. -/
def csumSize : CsumType → Nat
  | .crc32c => 4
  | .xxhash => 8
  | .sha256 => 32
  | .blake2 => 32

/-- The number of sectors that one item can describe. -/
def maxRun (type : CsumType) : Nat :=
  (treeSize - headerSize - itemSize * 2) / csumSize type - 1

/-- The number of clusters that one item can describe. -/
def maxRunClusters (type : CsumType) (cluster : ClusterSize) : Nat :=
  maxRun type / (cluster.bytes / sectorSize)

/-! ## Splitting and merging runs -/

/-- The state of the loop over one run list; `ranges` has its last element first. -/
structure MergeState where
  first : Bool
  ranges : List Space
  rest : List DataAlloc
deriving DecidableEq

/-- Create a new range from the run at the front. -/
def createRange
    (limit : Nat) (ranges : List Space) (run : DataAlloc)
    (rest : List DataAlloc) : MergeState :=
  if run.length > limit then
    { first := false
      ranges := ⟨run.offset, limit⟩ :: ranges
      rest :=
        { run with offset := run.offset + limit, length := run.length - limit } ::
          rest }
  else
    { first := false
      ranges := ⟨run.offset, run.length⟩ :: ranges
      rest := rest }

/-- Continue the last range with the run at the front. -/
def continueRange
    (limit : Nat) (last : Space) (ranges : List Space) (run : DataAlloc)
    (rest : List DataAlloc) : MergeState :=
  if last.length + run.length ≤ limit then
    { first := false
      ranges := ⟨last.offset, last.length + run.length⟩ :: ranges
      rest := rest }
  else
    { first := false
      ranges := ⟨last.offset, limit⟩ :: ranges
      rest :=
        { run with
          offset := run.offset + (limit - last.length)
          length := run.length - (limit - last.length) } :: rest }

/-- One turn of the loop, for the run at the front. -/
def mergeStep
    (limit : Nat) (first : Bool) (ranges : List Space) (run : DataAlloc)
    (rest : List DataAlloc) : MergeState :=
  if run.inode = dummyInode then
    { first := first, ranges := ranges, rest := rest }
  else
    match first, ranges with
    | false, last :: earlier =>
        if last.offset + last.length < run.offset ∨ last.length = limit then
          createRange limit ranges run rest
        else
          continueRange limit last earlier run rest
    | _, _ => createRange limit ranges run rest

/-- The loop over one run list; `none` when `fuel` turns are not enough. -/
def mergeLoop (limit : Nat) : Nat → MergeState → Option (List Space)
  | fuel, state =>
      match state.rest with
      | [] => some state.ranges
      | run :: rest =>
          match fuel with
          | 0 => none
          | fuel + 1 =>
              mergeLoop limit fuel
                (mergeStep limit state.first state.ranges run rest)

/-- A bound on the number of turns for a run list. -/
def mergeTurns (runs : List DataAlloc) : Nat :=
  (runs.map fun run => run.length + 1).sum

/-- The loop over the run lists of all chunks. -/
def splitAndMerge (limit : Nat) : List (List DataAlloc) → List Space →
    Option (List Space)
  | [], ranges => some ranges
  | runs :: later, ranges =>
      match mergeLoop limit (mergeTurns runs) ⟨true, ranges, runs⟩ with
      | none => none
      | some next => splitAndMerge limit later next

/-- A cluster of a run that has not been copied away. -/
def CoversData (runs : List DataAlloc) (cluster : Nat) : Prop :=
  ∃ run ∈ runs, ¬ run.IsDummy ∧ run.extent.Contains cluster

@[simp]
theorem not_coversData_nil (cluster : Nat) : ¬ CoversData [] cluster := by
  simp [CoversData]

@[simp]
theorem coversData_cons
    (run : DataAlloc) (rest : List DataAlloc) (cluster : Nat) :
    CoversData (run :: rest) cluster ↔
      ¬ run.IsDummy ∧ run.extent.Contains cluster ∨ CoversData rest cluster := by
  simp [CoversData]

@[simp]
theorem coversData_append (left right : List DataAlloc) (cluster : Nat) :
    CoversData (left ++ right) cluster ↔
      CoversData left cluster ∨ CoversData right cluster := by
  simp [CoversData, or_and_right, exists_or]

/--
The ranges, last one first, are bounded, disjoint and decreasing, and lie
before all runs still to be read.
-/
structure Merged
    (limit : Nat) (ranges : List Space) (rest : List DataAlloc) : Prop where
  bounded : ∀ range ∈ ranges, 0 < range.length ∧ range.length ≤ limit
  decreasing :
    ranges.Pairwise fun later earlier => earlier.stop ≤ later.offset
  before : ∀ range ∈ ranges, ∀ run ∈ rest, range.stop ≤ run.offset
  tidy : TidyRuns rest

section Merge

variable {limit : Nat}

/-- A turn that replaces the front run by its tail keeps the rest in order. -/
theorem Merged.shorten
    {ranges : List Space} {run : DataAlloc} {rest : List DataAlloc}
    (merged : Merged limit ranges (run :: rest))
    {taken : Nat} (short : taken < run.length) :
    TidyRuns
      ({ run with offset := run.offset + taken, length := run.length - taken } ::
        rest) := by
  obtain ⟨positive, first, tidy⟩ := (tidyRuns_cons_iff run rest).mp merged.tidy
  refine (tidyRuns_cons_iff _ _).mpr ⟨?_, ?_, tidy⟩
  · simp only
    omega
  · intro next member
    have ordered := first next member
    simp only [DataAlloc.stop] at ordered ⊢
    omega

theorem createRange_spec
    (limitPositive : 0 < limit)
    {ranges : List Space} {run : DataAlloc} {rest later : List DataAlloc}
    (data : ¬ run.IsDummy)
    (merged : Merged limit ranges (run :: (rest ++ later))) :
    let next := createRange limit ranges run rest
    Merged limit next.ranges (next.rest ++ later) ∧
      (∀ cluster,
        Covers next.ranges cluster ∨ CoversData (next.rest ++ later) cluster ↔
          Covers ranges cluster ∨
            CoversData (run :: (rest ++ later)) cluster) ∧
      mergeTurns next.rest < mergeTurns (run :: rest) := by
  obtain ⟨positive, first, tidy⟩ :=
    (tidyRuns_cons_iff run (rest ++ later)).mp merged.tidy
  have beforeRun : ∀ range ∈ ranges, range.stop ≤ run.offset :=
    fun range member => merged.before range member run (by simp)
  have beforeRest : ∀ range ∈ ranges, ∀ other ∈ rest ++ later,
      range.stop ≤ other.offset :=
    fun range member other otherMember =>
      merged.before range member other (List.mem_cons_of_mem _ otherMember)
  intro next
  simp only [next, createRange]
  split_ifs with long
  · refine ⟨⟨?_, ?_, ?_, merged.shorten long⟩, ?_, ?_⟩
    · intro range member
      rcases List.mem_cons.mp member with rfl | old
      · exact ⟨limitPositive, le_rfl⟩
      · exact merged.bounded range old
    · exact List.pairwise_cons.mpr ⟨beforeRun, merged.decreasing⟩
    · intro range member other otherMember
      rcases List.mem_cons.mp member with rfl | old
      · rcases List.mem_cons.mp otherMember with rfl | otherRest
        · exact le_rfl
        · have ordered := first other otherRest
          simp only [DataAlloc.stop, Extent.stop] at ordered ⊢
          omega
      · rcases List.mem_cons.mp otherMember with rfl | otherRest
        · exact (beforeRun range old).trans (Nat.le_add_right _ _)
        · exact beforeRest range old other otherRest
    · intro cluster
      simp only [List.cons_append, covers_cons, coversData_cons,
        DataAlloc.IsDummy, DataAlloc.extent, Extent.contains_mk] at data ⊢
      simp only [data, not_false_eq_true, true_and]
      constructor
      · rintro ((inside | old) | inside | old)
        · exact Or.inr (Or.inl (by omega))
        · exact Or.inl old
        · exact Or.inr (Or.inl (by omega))
        · exact Or.inr (Or.inr old)
      · rintro (old | inside | old)
        · exact Or.inl (Or.inr old)
        · by_cases early : cluster < run.offset + limit
          · exact Or.inl (Or.inl ⟨inside.1, early⟩)
          · exact Or.inr (Or.inl (by omega))
        · exact Or.inr (Or.inr old)
    · simp only [mergeTurns, List.map_cons, List.sum_cons]
      omega
  · refine ⟨⟨?_, ?_, ?_, tidy⟩, ?_, ?_⟩
    · intro range member
      rcases List.mem_cons.mp member with rfl | old
      · exact ⟨positive, Nat.not_lt.mp long⟩
      · exact merged.bounded range old
    · exact List.pairwise_cons.mpr ⟨beforeRun, merged.decreasing⟩
    · intro range member other otherMember
      rcases List.mem_cons.mp member with rfl | old
      · exact first other otherMember
      · exact beforeRest range old other otherMember
    · intro cluster
      simp only [covers_cons, coversData_cons, data, not_false_eq_true, true_and,
        DataAlloc.extent]
      tauto
    · simp only [mergeTurns, List.map_cons, List.sum_cons]
      omega

theorem continueRange_spec
    {last : Space} {ranges : List Space} {run : DataAlloc}
    {rest later : List DataAlloc}
    (data : ¬ run.IsDummy)
    (adjacent : run.offset ≤ last.stop)
    (room : last.length ≠ limit)
    (merged : Merged limit (last :: ranges) (run :: (rest ++ later))) :
    let next := continueRange limit last ranges run rest
    Merged limit next.ranges (next.rest ++ later) ∧
      (∀ cluster,
        Covers next.ranges cluster ∨ CoversData (next.rest ++ later) cluster ↔
          Covers (last :: ranges) cluster ∨
            CoversData (run :: (rest ++ later)) cluster) ∧
      mergeTurns next.rest < mergeTurns (run :: rest) := by
  obtain ⟨positive, first, tidy⟩ :=
    (tidyRuns_cons_iff run (rest ++ later)).mp merged.tidy
  obtain ⟨lastPositive, lastBounded⟩ := merged.bounded last (by simp)
  obtain ⟨afterEarlier, decreasing⟩ := List.pairwise_cons.mp merged.decreasing
  have touches : last.offset + last.length = run.offset :=
    le_antisymm (merged.before last (by simp) run (by simp)) adjacent
  have beforeRun : ∀ range ∈ ranges, range.stop ≤ run.offset :=
    fun range member => merged.before range (by simp [member]) run (by simp)
  have beforeRest : ∀ range ∈ ranges, ∀ other ∈ rest ++ later,
      range.stop ≤ other.offset :=
    fun range member other otherMember =>
      merged.before range (by simp [member]) other
        (List.mem_cons_of_mem _ otherMember)
  intro next
  simp only [next, continueRange]
  split_ifs with fits
  · refine ⟨⟨?_, ?_, ?_, tidy⟩, ?_, ?_⟩
    · intro range member
      rcases List.mem_cons.mp member with rfl | old
      · exact ⟨Nat.add_pos_left lastPositive _, fits⟩
      · exact merged.bounded range (List.mem_cons_of_mem _ old)
    · exact List.pairwise_cons.mpr ⟨afterEarlier, decreasing⟩
    · intro range member other otherMember
      rcases List.mem_cons.mp member with rfl | old
      · have ordered := first other otherMember
        simp only [DataAlloc.stop, Extent.stop] at ordered ⊢
        omega
      · exact beforeRest range old other otherMember
    · intro cluster
      simp only [covers_cons, coversData_cons, data, not_false_eq_true, true_and,
        DataAlloc.extent, Extent.Contains, Extent.stop]
      constructor
      · rintro ((inside | old) | old)
        · by_cases early : cluster < run.offset
          · exact Or.inl (Or.inl ⟨inside.1, by omega⟩)
          · exact Or.inr (Or.inl (by omega))
        · exact Or.inl (Or.inr old)
        · exact Or.inr (Or.inr old)
      · rintro ((inside | old) | inside | old)
        · exact Or.inl (Or.inl (by omega))
        · exact Or.inl (Or.inr old)
        · exact Or.inl (Or.inl (by omega))
        · exact Or.inr old
    · simp only [mergeTurns, List.map_cons, List.sum_cons]
      omega
  · have short : limit - last.length < run.length := by
      omega
    have shortened :=
      Merged.shorten (⟨merged.bounded, merged.decreasing, merged.before,
        merged.tidy⟩ : Merged limit (last :: ranges) (run :: (rest ++ later)))
        short
    refine ⟨⟨?_, ?_, ?_, shortened⟩, ?_, ?_⟩
    · intro range member
      rcases List.mem_cons.mp member with rfl | old
      · exact ⟨lastPositive.trans_le lastBounded, le_rfl⟩
      · exact merged.bounded range (List.mem_cons_of_mem _ old)
    · exact List.pairwise_cons.mpr ⟨afterEarlier, decreasing⟩
    · intro range member other otherMember
      rcases List.mem_cons.mp member with rfl | old
      · rcases List.mem_cons.mp otherMember with rfl | otherRest
        · simp only [Extent.stop]
          omega
        · have ordered := first other otherRest
          simp only [DataAlloc.stop, Extent.stop] at ordered ⊢
          omega
      · rcases List.mem_cons.mp otherMember with rfl | otherRest
        · exact (beforeRun range old).trans (Nat.le_add_right _ _)
        · exact beforeRest range old other otherRest
    · intro cluster
      simp only [List.cons_append, covers_cons, coversData_cons,
        DataAlloc.IsDummy, DataAlloc.extent, Extent.Contains, Extent.stop]
        at data ⊢
      simp only [data, not_false_eq_true, true_and]
      constructor
      · rintro ((inside | old) | inside | old)
        · by_cases early : cluster < run.offset
          · exact Or.inl (Or.inl ⟨inside.1, by omega⟩)
          · exact Or.inr (Or.inl (by omega))
        · exact Or.inl (Or.inr old)
        · exact Or.inr (Or.inl (by omega))
        · exact Or.inr (Or.inr old)
      · rintro ((inside | old) | inside | old)
        · exact Or.inl (Or.inl (by omega))
        · exact Or.inl (Or.inr old)
        · by_cases early : cluster < last.offset + limit
          · exact Or.inl (Or.inl (by omega))
          · exact Or.inr (Or.inl (by omega))
        · exact Or.inr (Or.inr old)
    · simp only [mergeTurns, List.map_cons, List.sum_cons]
      omega

/-- One turn keeps the ranges in order and what is described, and makes progress. -/
theorem mergeStep_spec
    (limitPositive : 0 < limit)
    {ranges : List Space} {run : DataAlloc} {rest later : List DataAlloc}
    (first : Bool)
    (merged : Merged limit ranges (run :: (rest ++ later))) :
    let next := mergeStep limit first ranges run rest
    Merged limit next.ranges (next.rest ++ later) ∧
      (∀ cluster,
        Covers next.ranges cluster ∨ CoversData (next.rest ++ later) cluster ↔
          Covers ranges cluster ∨
            CoversData (run :: (rest ++ later)) cluster) ∧
      mergeTurns next.rest < mergeTurns (run :: rest) := by
  intro next
  simp only [next, mergeStep]
  split_ifs with dummy
  · refine ⟨⟨merged.bounded, merged.decreasing, ?_, ?_⟩, ?_, ?_⟩
    · exact fun range member other otherMember =>
        merged.before range member other (List.mem_cons_of_mem _ otherMember)
    · exact ((tidyRuns_cons_iff _ _).mp merged.tidy).2.2
    · intro cluster
      have isDummy : run.IsDummy := dummy
      simp [isDummy]
    · simp only [mergeTurns, List.map_cons, List.sum_cons]
      omega
  · split
    · split_ifs with apart
      · exact createRange_spec limitPositive dummy merged
      · rw [not_or, Nat.not_lt] at apart
        exact continueRange_spec dummy apart.1 apart.2 merged
    · exact createRange_spec limitPositive dummy merged

/-- The loop over one run list ends, and has then read the whole list. -/
theorem mergeLoop_spec
    (limitPositive : 0 < limit)
    {fuel : Nat} {state : MergeState} {later : List DataAlloc}
    (enough : mergeTurns state.rest ≤ fuel)
    (merged : Merged limit state.ranges (state.rest ++ later)) :
    ∃ ranges, mergeLoop limit fuel state = some ranges ∧
      Merged limit ranges later ∧
      ∀ cluster,
        Covers ranges cluster ∨ CoversData later cluster ↔
          Covers state.ranges cluster ∨
            CoversData (state.rest ++ later) cluster := by
  induction fuel generalizing state with
  | zero =>
      obtain ⟨first, ranges, rest⟩ := state
      cases rest with
      | nil => exact ⟨ranges, rfl, merged, fun _ => Iff.rfl⟩
      | cons run rest =>
          simp only [mergeTurns, List.map_cons, List.sum_cons] at enough
          omega
  | succ fuel induction =>
      obtain ⟨first, ranges, rest⟩ := state
      cases rest with
      | nil => exact ⟨ranges, rfl, merged, fun _ => Iff.rfl⟩
      | cons run rest =>
          obtain ⟨nextMerged, same, progress⟩ :=
            mergeStep_spec limitPositive first merged
          obtain ⟨final, finished, finalMerged, described⟩ :=
            induction (Nat.le_of_lt_succ (progress.trans_le enough)) nextMerged
          exact
            ⟨final, finished, finalMerged,
              fun cluster => (described cluster).trans (same cluster)⟩

theorem splitAndMerge_spec
    (limitPositive : 0 < limit)
    {lists : List (List DataAlloc)} {ranges : List Space}
    (merged : Merged limit ranges lists.flatten) :
    ∃ final, splitAndMerge limit lists ranges = some final ∧
      Merged limit final [] ∧
      ∀ cluster,
        Covers final cluster ↔
          Covers ranges cluster ∨ CoversData lists.flatten cluster := by
  induction lists generalizing ranges with
  | nil => exact ⟨ranges, rfl, merged, by simp⟩
  | cons runs later induction =>
      rw [List.flatten_cons] at merged
      have start : Merged limit (⟨true, ranges, runs⟩ : MergeState).ranges
          ((⟨true, ranges, runs⟩ : MergeState).rest ++ later.flatten) := merged
      obtain ⟨next, finished, nextMerged, described⟩ :=
        mergeLoop_spec limitPositive le_rfl start
      obtain ⟨final, done, finalMerged, covers⟩ := induction nextMerged
      refine ⟨final, ?_, finalMerged, fun cluster => ?_⟩
      · simp only [splitAndMerge]
        rw [finished]
        exact done
      · rw [covers, described, List.flatten_cons]

end Merge

/-- The ranges that checksum items are made for, in the order of the device. -/
def checksumRanges (type : CsumType) (cluster : ClusterSize) (runs : Runs) :
    Option (List Space) :=
  (splitAndMerge (maxRunClusters type cluster)
    (runs.entries.map Prod.snd) []).map List.reverse

theorem maxRunClusters_bounds (type : CsumType) (cluster : ClusterSize) :
    0 < maxRunClusters type cluster ∧
      maxRunClusters type cluster * (cluster.bytes / sectorSize) ≤ maxRun type := by
  refine ⟨?_, Nat.div_mul_le_self _ _⟩
  have sectors : cluster.bytes / sectorSize ≤ reservedArea / sectorSize :=
    Nat.div_le_div_right cluster.bytes_le
  have room : reservedArea / sectorSize ≤ maxRun type := by
    cases type <;> decide
  exact Nat.div_pos (sectors.trans room)
    (Nat.div_pos cluster.sectorSize_le (by decide))

/-- The ranges cover the data clusters, in bounded, ordered and disjoint pieces. -/
theorem checksumRanges_spec
    (type : CsumType) (cluster : ClusterSize)
    {runs : Runs} (tidy : TidyRuns runs.all) :
    ∃ ranges, checksumRanges type cluster runs = some ranges ∧
      Tidy ranges ∧
      (∀ range ∈ ranges,
        1 ≤ range.length ∧ range.length ≤ maxRunClusters type cluster) ∧
      ∀ point, Covers ranges point ↔ CoversData runs.all point := by
  have flattened : (runs.entries.map Prod.snd).flatten = runs.all :=
    (List.flatMap_def).symm
  have start : Merged (maxRunClusters type cluster) []
      (runs.entries.map Prod.snd).flatten := by
    rw [flattened]
    exact ⟨by simp, List.Pairwise.nil, by simp, tidy⟩
  obtain ⟨final, finished, merged, covers⟩ :=
    splitAndMerge_spec (maxRunClusters_bounds type cluster).1 start
  refine ⟨final.reverse, ?_, ⟨?_, ?_⟩, ?_, fun point => ?_⟩
  · rw [checksumRanges, finished]
    rfl
  · exact fun range member => (merged.bounded range (List.mem_reverse.mp member)).1
  · exact List.pairwise_reverse.mpr merged.decreasing
  · exact fun range member => merged.bounded range (List.mem_reverse.mp member)
  · have same : Covers final.reverse point ↔ Covers final point := by
      simp [Covers]
    rw [same, covers, flattened]
    simp

/-! ## Checksum items -/

def extentCsumObjectid : Nat := 0xfffffffffffffff6

/-- The loop over the sectors of a buffer, with a bound on the number of turns. -/
def sectorChecksums (hash : Bytes → Bytes) : Nat → Bytes → Bytes
  | 0, _ => []
  | turns + 1, data =>
      if data.length > 0 then
        hash (data.take sectorSize) ++
          sectorChecksums hash turns (data.drop sectorSize)
      else []

/-- The item that describes a range of clusters. -/
def checksumData
    (cluster : ClusterSize) (type : CsumType) (hash : Bytes → Bytes)
    (device : Store) (range : Space) : Bytes :=
  let data :=
    device.read (range.offset * cluster.bytes) (range.length * cluster.bytes)
  let size := range.length * cluster.bytes * csumSize type / sectorSize
  (sectorChecksums hash data.length data).take (size % 2 ^ 16)

/-- The loop that adds one item for each range that starts on the device. -/
def addChecksums
    (cluster : ClusterSize) (type : CsumType) (hash : Bytes → Bytes)
    (device : Store) (origDeviceSize : Nat) :
    List Space → ItemMap → Except ConvertError ItemMap
  | [], items => .ok items
  | range :: rest, items =>
      if range.offset * cluster.bytes ≥ origDeviceSize then .ok items
      else
        match addItem items extentCsumObjectid BtrfsKeyType.extentCsum
            (range.offset * cluster.bytes + chunkVirtOffset)
            (checksumData cluster type hash device range) with
        | .error error => .error error
        | .ok next =>
            addChecksums cluster type hash device origDeviceSize rest next

/--
`calc_checksums`, for a checksum function `hash`; `none` would be a run of the
first loop that does not end.
-/
def calcChecksums
    (cluster : ClusterSize) (type : CsumType) (hash : Bytes → Bytes)
    (device : Store) (origDeviceSize : Nat) (runs : Runs) (items : ItemMap) :
    Option (Except ConvertError ItemMap) :=
  (checksumRanges type cluster runs).map fun ranges =>
    addChecksums cluster type hash device origDeviceSize ranges items

/-- The key of the item that describes a range. -/
def checksumKey (cluster : ClusterSize) (range : Space) : BtrfsKey :=
  btrfsKey extentCsumObjectid BtrfsKeyType.extentCsum
    (range.offset * cluster.bytes + chunkVirtOffset)

/--
The bytes are one checksum for every sector of the range, in order, and they
fit a 16-bit length and a leaf.
-/
structure DescribesRange
    (cluster : ClusterSize) (type : CsumType) (hash : Bytes → Bytes)
    (device : Store) (range : Space) (data : Bytes) : Prop where
  length_eq :
    data.length =
      range.length * (cluster.bytes / sectorSize) * csumSize type
  length_lt : data.length < 2 ^ 16
  inLeaf : headerSize + itemSize + data.length ≤ treeSize
  sector :
    ∀ index < range.length * (cluster.bytes / sectorSize),
      slice data (index * csumSize type) (csumSize type) =
        hash
          (device.read (range.offset * cluster.bytes + index * sectorSize)
            sectorSize)

theorem sectorChecksums_spec
    {hash : Bytes → Bytes} {size : Nat}
    (sized : ∀ sector, sector.length = sectorSize → (hash sector).length = size)
    {turns count : Nat} {data : Bytes}
    (length : data.length = count * sectorSize)
    (enough : count ≤ turns) :
    (sectorChecksums hash turns data).length = count * size ∧
      ∀ index < count,
        slice (sectorChecksums hash turns data) (index * size) size =
          hash (slice data (index * sectorSize) sectorSize) := by
  induction turns generalizing count data with
  | zero =>
      obtain rfl := Nat.le_zero.mp enough
      simp [sectorChecksums]
  | succ turns induction =>
      cases count with
      | zero =>
          rw [Nat.zero_mul] at length
          simp [sectorChecksums, length]
      | succ count =>
          have positive : data.length > 0 := by
            rw [length]
            exact Nat.mul_pos (Nat.succ_pos _) (by decide)
          have firstLength : (data.take sectorSize).length = sectorSize := by
            rw [List.length_take, length, Nat.succ_mul]
            omega
          have restLength : (data.drop sectorSize).length = count * sectorSize := by
            rw [List.length_drop, length, Nat.succ_mul, Nat.add_sub_cancel]
          obtain ⟨laterLength, later⟩ :=
            induction restLength (Nat.le_of_succ_le_succ enough)
          have hashLength := sized _ firstLength
          rw [sectorChecksums, if_pos positive]
          refine ⟨?_, ?_⟩
          · rw [List.length_append, hashLength, laterLength, Nat.succ_mul,
              Nat.add_comm]
          · intro index bound
            cases index with
            | zero =>
                rw [Nat.zero_mul, Nat.zero_mul, slice, slice, List.drop_zero,
                  List.drop_zero, List.take_append_of_le_length hashLength.ge,
                  List.take_of_length_le hashLength.le]
            | succ index =>
                have next := later index (Nat.lt_of_succ_lt_succ bound)
                have skip : slice data ((index + 1) * sectorSize) sectorSize =
                    slice (data.drop sectorSize) (index * sectorSize)
                      sectorSize := by
                  rw [slice, slice, List.drop_drop, Nat.succ_mul, Nat.add_comm]
                rw [skip, ← next, slice, slice, Nat.succ_mul, Nat.add_comm,
                  ← List.drop_drop, List.drop_left' hashLength]

/-- A range that is short enough is described by its item. -/
theorem checksumData_describes
    {cluster : ClusterSize} {type : CsumType} {hash : Bytes → Bytes}
    (sized : ∀ sector, sector.length = sectorSize →
      (hash sector).length = csumSize type)
    (device : Store) {range : Space}
    (short : range.length ≤ maxRunClusters type cluster) :
    DescribesRange cluster type hash device range
      (checksumData cluster type hash device range) := by
  have whole : cluster.bytes = cluster.bytes / sectorSize * sectorSize :=
    (Nat.div_mul_cancel cluster.sectorSize_dvd).symm
  set sectors := range.length * (cluster.bytes / sectorSize) with sectorsEq
  have bytesEq : range.length * cluster.bytes = sectors * sectorSize := by
    rw [sectorsEq, Nat.mul_assoc, ← whole]
  have sectorsBound : sectors ≤ maxRun type :=
    (Nat.mul_le_mul_right _ short).trans (maxRunClusters_bounds type cluster).2
  have sizeEq : range.length * cluster.bytes * csumSize type / sectorSize =
      sectors * csumSize type := by
    rw [bytesEq, Nat.mul_right_comm, Nat.mul_div_cancel _ (by decide)]
  have sizeBound : sectors * csumSize type ≤ maxRun type * csumSize type :=
    Nat.mul_le_mul_right _ sectorsBound
  have fits : maxRun type * csumSize type < 2 ^ 16 ∧
      headerSize + itemSize + maxRun type * csumSize type ≤ treeSize := by
    cases type <;> decide
  have dataLength :
      (device.read (range.offset * cluster.bytes)
        (range.length * cluster.bytes)).length = sectors * sectorSize := by
    rw [Store.length_read, bytesEq]
  have turns : sectors ≤
      (device.read (range.offset * cluster.bytes)
        (range.length * cluster.bytes)).length := by
    rw [dataLength]
    exact Nat.le_mul_of_pos_right _ (by decide)
  obtain ⟨length, each⟩ := sectorChecksums_spec sized dataLength turns
  have dataEq : checksumData cluster type hash device range =
      sectorChecksums hash
        (device.read (range.offset * cluster.bytes)
          (range.length * cluster.bytes)).length
        (device.read (range.offset * cluster.bytes)
          (range.length * cluster.bytes)) := by
    simp only [checksumData]
    rw [sizeEq, Nat.mod_eq_of_lt (sizeBound.trans_lt fits.1)]
    exact List.take_of_length_le length.le
  rw [dataEq]
  refine ⟨length, ?_, ?_, ?_⟩
  · rw [length]
    exact sizeBound.trans_lt fits.1
  · rw [length]
    exact (Nat.add_le_add_left sizeBound _).trans fits.2
  · intro index bound
    rw [each index bound, Store.slice_read]
    rw [bytesEq, ← Nat.succ_mul]
    exact Nat.mul_le_mul_right _ bound

/-- The items added are those of the ranges that start on the device. -/
theorem addChecksums_spec
    (cluster : ClusterSize) (type : CsumType) (hash : Bytes → Bytes)
    (device : Store) (origDeviceSize : Nat)
    {ranges : List Space} (tidy : Tidy ranges)
    {items final : ItemMap}
    (added :
      addChecksums cluster type hash device origDeviceSize ranges items =
        .ok final)
    (entry : BtrfsKey × Bytes) :
    entry ∈ final.entries ↔
      entry ∈ items.entries ∨
        ∃ range ∈ ranges, range.offset * cluster.bytes < origDeviceSize ∧
          entry =
            (checksumKey cluster range,
              checksumData cluster type hash device range) := by
  induction ranges generalizing items with
  | nil =>
      obtain rfl : items = final := Except.ok.inj added
      simp
  | cons range rest induction =>
      obtain ⟨-, first, restTidy⟩ := (tidy_cons_iff range rest).mp tidy
      rw [addChecksums] at added
      split_ifs at added with past
      · obtain rfl : items = final := Except.ok.inj added
        have none : ¬ ∃ other ∈ range :: rest,
            other.offset * cluster.bytes < origDeviceSize ∧
              entry = (checksumKey cluster other,
                checksumData cluster type hash device other) := by
          rintro ⟨other, member, early, -⟩
          rcases List.mem_cons.mp member with rfl | later
          · exact absurd early (Nat.not_lt.mpr past)
          · have ordered : range.offset ≤ other.offset :=
              (Nat.le_add_right _ _).trans (first other later)
            have scaled := Nat.mul_le_mul_right cluster.bytes ordered
            exact absurd early (Nat.not_lt.mpr (past.trans scaled))
        simp only [none, or_false]
      · split at added
        · simp at added
        · rename_i next inserted
          obtain ⟨fresh, rfl⟩ := addItem_ok_iff.mp inserted
          rw [induction restTidy added, SortedMap.mem_emplace_iff fresh]
          simp only [List.mem_cons, exists_eq_or_imp]
          constructor
          · rintro ((here | old) | later)
            · exact Or.inr (Or.inl ⟨Nat.not_le.mp past, here⟩)
            · exact Or.inl old
            · exact Or.inr (Or.inr later)
          · rintro (old | ⟨-, here⟩ | later)
            · exact Or.inl (Or.inr old)
            · exact Or.inl (Or.inl here)
            · exact Or.inr later

/-- Ranges whose keys do not wrap all get an item. -/
theorem addChecksums_returns
    (cluster : ClusterSize) (type : CsumType) (hash : Bytes → Bytes)
    (device : Store) (origDeviceSize : Nat)
    {ranges : List Space} (tidy : Tidy ranges)
    (fits : ∀ range ∈ ranges,
      range.offset * cluster.bytes + chunkVirtOffset < 2 ^ 64)
    {items : ItemMap}
    (fresh : ∀ range ∈ ranges, checksumKey cluster range ∉ items.keys) :
    ∃ final,
      addChecksums cluster type hash device origDeviceSize ranges items =
        .ok final := by
  induction ranges generalizing items with
  | nil => exact ⟨items, rfl⟩
  | cons range rest induction =>
      obtain ⟨positive, first, restTidy⟩ := (tidy_cons_iff range rest).mp tidy
      rw [addChecksums]
      split_ifs with past
      · exact ⟨items, rfl⟩
      · have inserted :
            addItem items extentCsumObjectid BtrfsKeyType.extentCsum
                (range.offset * cluster.bytes + chunkVirtOffset)
                (checksumData cluster type hash device range) =
              .ok (items.emplace (checksumKey cluster range)
                (checksumData cluster type hash device range)) :=
          addItem_ok_iff.mpr ⟨fresh range (by simp), rfl⟩
        rw [inserted]
        apply induction restTidy (fun other member => fits other (by simp [member]))
        intro other member present
        obtain ⟨value, found⟩ := SortedMap.mem_keys_iff.mp present
        rcases (SortedMap.mem_emplace_iff (fresh range (by simp))).mp found with
          here | old
        · have keyEq : checksumKey cluster other = checksumKey cluster range :=
            (Prod.mk.inj here).1
          have offsets := congrArg BtrfsKey.offset keyEq
          rw [checksumKey, checksumKey, btrfsKey_offset, btrfsKey_offset] at offsets
          have left := Nat.mod_eq_of_lt (fits other (by simp [member]))
          have right := Nat.mod_eq_of_lt (fits range (by simp))
          have sums := left.symm.trans (offsets.trans right)
          have same := Nat.eq_of_mul_eq_mul_right cluster.bytes_pos
            (Nat.add_right_cancel sums)
          have ordered := first other member
          simp only [Extent.stop] at ordered
          omega
        · exact fresh other (by simp [member])
            (SortedMap.mem_keys_iff.mpr ⟨value, old⟩)

/-- A range that only covers data clusters ends where some run ends, or before. -/
theorem stop_le_of_covers_data
    {ranges : List Space} {runs : List DataAlloc}
    (covers : ∀ point, Covers ranges point → CoversData runs point)
    {range : Space} (member : range ∈ ranges) (positive : 0 < range.length) :
    ∃ run ∈ runs, range.offset < run.stop := by
  have first : range.Contains range.offset :=
    ⟨le_rfl, Nat.lt_add_of_pos_right positive⟩
  obtain ⟨run, runMember, -, inside⟩ := covers _ ⟨range, member, first⟩
  exact ⟨run, runMember, inside.2⟩

/--
`calc_checksums` ends.  Its ranges are sorted, disjoint, between one cluster
and the maximum long, and cover the clusters of all runs that are not dummies;
it adds one item for each of them that starts on the device, and every item
holds the checksums of the sectors of its range.
-/
theorem calcChecksums_spec
    {cluster : ClusterSize} {type : CsumType} {hash : Bytes → Bytes}
    (sized : ∀ sector, sector.length = sectorSize →
      (hash sector).length = csumSize type)
    (device : Store) (origDeviceSize : Nat)
    {runs : Runs} (tidy : TidyRuns runs.all) :
    ∃ ranges outcome,
      checksumRanges type cluster runs = some ranges ∧
        calcChecksums cluster type hash device origDeviceSize runs
            SortedMap.empty =
          some outcome ∧
        Tidy ranges ∧
        (∀ range ∈ ranges,
          1 ≤ range.length ∧ range.length ≤ maxRunClusters type cluster) ∧
        (∀ point, Covers ranges point ↔ CoversData runs.all point) ∧
        (∀ items, outcome = .ok items →
          (∀ entry ∈ items.entries, ∃ range ∈ ranges,
            entry.1 = checksumKey cluster range ∧
              DescribesRange cluster type hash device range entry.2) ∧
            ∀ range ∈ ranges, range.offset * cluster.bytes < origDeviceSize →
              checksumKey cluster range ∈ items.keys) ∧
        ((∀ run ∈ runs.all, run.stop * cluster.bytes + chunkVirtOffset ≤ 2 ^ 64) →
          ∃ items, outcome = .ok items) := by
  obtain ⟨ranges, found, rangesTidy, bounds, covers⟩ :=
    checksumRanges_spec type cluster tidy
  refine
    ⟨ranges,
      addChecksums cluster type hash device origDeviceSize ranges SortedMap.empty,
      found, ?_, rangesTidy, bounds, covers, ?_, ?_⟩
  · rw [calcChecksums, found]
    rfl
  · intro items added
    have members := addChecksums_spec cluster type hash device origDeviceSize
      rangesTidy added
    constructor
    · intro entry member
      rcases (members entry).mp member with old | ⟨range, rangeMember, -, rfl⟩
      · exact absurd old List.not_mem_nil
      · exact
          ⟨range, rangeMember, rfl,
            checksumData_describes sized device (bounds range rangeMember).2⟩
    · intro range rangeMember early
      exact SortedMap.mem_keys_iff.mpr
        ⟨_, (members _).mpr (Or.inr ⟨range, rangeMember, early, rfl⟩)⟩
  · intro small
    apply addChecksums_returns cluster type hash device origDeviceSize rangesTidy
    · intro range member
      obtain ⟨run, runMember, before⟩ :=
        stop_le_of_covers_data (fun point => (covers point).mp) member
          (bounds range member).1
      have scaled := Nat.mul_lt_mul_of_pos_right before cluster.bytes_pos
      have bound := small run runMember
      omega
    · exact fun range member present => absurd present List.not_mem_nil

/-- The checksum of a sector as the CRC-32C branch stores it. -/
def crc32cChecksum (sector : Bytes) : Bytes :=
  le 4 (calcCrc32c 0xffffffff sector ^^^ 0xffffffff)

/-- Run lists of two chunks with a dummy run, a long run and two that are merged. -/
theorem calcChecksums_spec_two_chunks :
    (let runs : Runs :=
      ⟨[(0, [⟨0, 16, dummyInode, 0, false, false⟩, ⟨16, 9000, 0, 0, false, false⟩]),
          (1, [⟨32768, 3, 0, 0, false, false⟩, ⟨32771, 1, 300, 0, false, false⟩])],
        by decide⟩
    let cluster : ClusterSize := ⟨12, by decide, by decide⟩
    ∃ ranges outcome,
      checksumRanges .crc32c cluster runs = some ranges ∧
        calcChecksums cluster .crc32c crc32cChecksum (fun _ => 0) 0x10000000 runs
            SortedMap.empty =
          some outcome ∧
        Tidy ranges ∧
        (∀ range ∈ ranges,
          1 ≤ range.length ∧ range.length ≤ maxRunClusters .crc32c cluster) ∧
        (∀ point, Covers ranges point ↔ CoversData runs.all point) ∧
        (∀ items, outcome = .ok items →
          (∀ entry ∈ items.entries, ∃ range ∈ ranges,
            entry.1 = checksumKey cluster range ∧
              DescribesRange cluster .crc32c crc32cChecksum (fun _ => 0) range
                entry.2) ∧
            ∀ range ∈ ranges, range.offset * cluster.bytes < 0x10000000 →
              checksumKey cluster range ∈ items.keys) ∧
        ((∀ run ∈ runs.all, run.stop * cluster.bytes + chunkVirtOffset ≤ 2 ^ 64) →
          ∃ items, outcome = .ok items)) := by
  apply calcChecksums_spec
  · intro sector _
    exact length_le 4 _
  · exact ⟨by decide, by decide⟩

example :
    checksumRanges .crc32c ⟨12, by decide, by decide⟩
        ⟨[(0, [⟨16, 9000, 0, 0, false, false⟩]),
          (1, [⟨32768, 3, 0, 0, false, false⟩, ⟨32771, 1, 300, 0, false, false⟩])],
          by decide⟩ =
      some [⟨16, 4057⟩, ⟨4073, 4057⟩, ⟨8130, 886⟩, ⟨32768, 4⟩] := by
  decide +kernel

end Ntfs2Btrfs
