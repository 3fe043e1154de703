import Ntfs2Btrfs.Protection
import Ntfs2Btrfs.Regions

/-!
# The usage of chunks

`protect_cluster` subtracts a cluster from the usage of its chunk before
anything was added, so that the counter wraps below zero.  `calc_used_space`
then adds all runs of the chunk, those of the dummy inode included.  Every
dummy run is one cluster that was subtracted, so that the sum is what the other
runs of the chunk hold.
-/

namespace Ntfs2Btrfs

open Extents
open BitRuns
open ByteStore

/-! ## The code -/

/-- Add the runs of a list that start in a chunk to its usage. -/
def chargeRuns (clusterSize : Nat) (chunk : Chunk) (runs : List DataAlloc) : Chunk :=
  runs.foldl
    (fun chunk run =>
      if wordSub (run.offset * clusterSize + chunkVirtOffset) chunk.offset < chunk.length then
        { chunk with used := (chunk.used + run.length * clusterSize) % wordModulus }
      else chunk)
    chunk

/-- Add a run list to the chunk that starts at an address. -/
def chargeChunk (clusterSize offset : Nat) (runs : List DataAlloc) :
    List Chunk → List Chunk
  | [] => []
  | chunk :: rest =>
      if offset = chunk.offset then chargeRuns clusterSize chunk runs :: rest
      else chunk :: chargeChunk clusterSize offset runs rest

/-- Where the chunk of a run list starts. -/
def runListStart (number : Nat) : Nat :=
  if number = 0 then number * dataChunkSize + chunkVirtOffset + reservedArea
  else number * dataChunkSize + chunkVirtOffset

/-- `calc_used_space`. -/
def calcUsedSpace (clusterSize : Nat) (runs : Runs) (chunks : List Chunk) : List Chunk :=
  runs.entries.foldl
    (fun chunks entry => chargeChunk clusterSize (runListStart entry.1) entry.2 chunks) chunks

/-! ## Totals over runs -/

/-- The sum of a weight over all runs. -/
def Runs.total (runs : Runs) (weight : DataAlloc → Nat) : Nat :=
  (runs.all.map weight).sum

theorem Runs.total_assign
    (runs : Runs) (chunk : Nat) (runList : List DataAlloc) (weight : DataAlloc → Nat) :
    Runs.total (runs.assign chunk runList) weight + ((runs.list chunk).map weight).sum =
      runs.total weight + (runList.map weight).sum := by
  rw [Runs.total, Runs.total, ((runs.all_assign_perm chunk runList).map weight).sum_eq,
    ((runs.all_perm chunk).map weight).sum_eq, List.map_append, List.map_append,
    List.sum_append, List.sum_append]
  omega

/-- Replacing a run by pieces changes a total by what the pieces and the run weigh. -/
theorem Runs.total_replace
    {runs : Runs} {chunk : Nat} {front back : List DataAlloc} {run : DataAlloc}
    (shape : runs.list chunk = front ++ run :: back) (pieces : List DataAlloc)
    (weight : DataAlloc → Nat) :
    Runs.total (runs.assign chunk (front ++ pieces ++ back)) weight + weight run =
      runs.total weight + (pieces.map weight).sum := by
  have changed := runs.total_assign chunk (front ++ pieces ++ back) weight
  simp only [shape, List.map_append, List.map_cons, List.sum_append, List.sum_cons] at changed
  omega

theorem Runs.total_insert
    (runs : Runs) (chunk : Nat) (run : DataAlloc) (weight : DataAlloc → Nat) :
    Runs.total (runs.assign chunk (insertRun run (runs.list chunk))) weight =
      weight run + runs.total weight := by
  rw [Runs.total, ((runs.all_insert_perm chunk run).map weight).sum_eq, List.map_cons,
    List.sum_cons, Runs.total]

/-! ## What starts in a chunk -/

/-- The cluster starts in the chunk. -/
def Chunk.Starts (chunk : Chunk) (clusterSize cluster : Nat) : Prop :=
  chunk.offset ≤ cluster * clusterSize + chunkVirtOffset ∧
    cluster * clusterSize + chunkVirtOffset < chunk.offset + chunk.length

instance (chunk : Chunk) (clusterSize cluster : Nat) :
    Decidable (chunk.Starts clusterSize cluster) :=
  inferInstanceAs (Decidable (_ ∧ _))

/-- The bytes of a run, if it starts in the chunk. -/
def Chunk.weigh (chunk : Chunk) (clusterSize : Nat) (run : DataAlloc) : Nat :=
  if chunk.Starts clusterSize run.offset then run.length * clusterSize else 0

/-- The bytes of a dummy run, if it starts in the chunk. -/
def Chunk.weighDummy (chunk : Chunk) (clusterSize : Nat) (run : DataAlloc) : Nat :=
  if run.IsDummy then chunk.weigh clusterSize run else 0

/-- The bytes of a run that is not a dummy run, if it starts in the chunk. -/
def Chunk.weighData (chunk : Chunk) (clusterSize : Nat) (run : DataAlloc) : Nat :=
  if run.IsDummy then 0 else chunk.weigh clusterSize run

theorem Runs.total_weigh (runs : Runs) (chunk : Chunk) (clusterSize : Nat) :
    runs.total (chunk.weigh clusterSize) =
      runs.total (chunk.weighDummy clusterSize) + runs.total (chunk.weighData clusterSize) := by
  rw [Runs.total, Runs.total, Runs.total, ← List.sum_map_add]
  refine congrArg List.sum (List.map_congr_left fun run _ => ?_)
  rw [Chunk.weighDummy, Chunk.weighData]
  split_ifs
  · exact (Nat.add_zero _).symm
  · exact (Nat.zero_add _).symm

/-! ## Adding the runs -/

/-- The chunk with more bytes in use. -/
def Chunk.addUsed (chunk : Chunk) (amount : Nat) : Chunk :=
  { chunk with used := (chunk.used + amount) % wordModulus }

theorem Chunk.addUsed_used (chunk : Chunk) (amount : Nat) :
    (chunk.addUsed amount).used = (chunk.used + amount) % wordModulus :=
  rfl

theorem Chunk.addUsed_weighData (chunk : Chunk) (amount clusterSize : Nat) :
    (chunk.addUsed amount).weighData clusterSize = chunk.weighData clusterSize :=
  rfl

theorem Chunk.addUsed_zero
    {chunk : Chunk} (small : chunk.used < wordModulus) : chunk.addUsed 0 = chunk := by
  rw [Chunk.addUsed, Nat.add_zero, Nat.mod_eq_of_lt small]

theorem Chunk.addUsed_addUsed (chunk : Chunk) (first second : Nat) :
    (chunk.addUsed first).addUsed second = chunk.addUsed (first + second) := by
  simp only [Chunk.addUsed, Nat.mod_add_mod, Nat.add_assoc]

/-- Every run is not empty and lies in the chunk that its list belongs to. -/
def Runs.InChunks (clustersPerChunk : Nat) (runs : Runs) : Prop :=
  ∀ number, ∀ run ∈ runs.list number,
    0 < run.length ∧ number * clustersPerChunk ≤ run.offset ∧
      run.stop ≤ (number + 1) * clustersPerChunk

theorem Runs.WellFormed.inChunks
    {clustersPerChunk : Nat} {runs : Runs} (wellFormed : runs.WellFormed clustersPerChunk) :
    runs.InChunks clustersPerChunk := by
  intro number run member
  obtain ⟨tidy, inChunk⟩ := Runs.wellFormed_iff.mp wellFormed number
  exact ⟨tidy.positive member, inChunk run member⟩

theorem wordSub_lt_iff
    {left right length : Nat} (upper : left < right + wordModulus)
    (lower : right + length ≤ left + wordModulus) :
    wordSub left right < length ↔ right ≤ left ∧ left < right + length := by
  rw [wordSub]
  generalize wordModulus = modulus at *
  by_cases ordered : right ≤ left
  · have split : left + modulus - right = left - right + modulus := by omega
    rw [split, Nat.add_mod_right, Nat.mod_eq_of_lt (by omega)]
    omega
  · rw [Nat.mod_eq_of_lt (by omega)]
    omega

section Regional

variable {volume : Volume}

theorem clusterStart_mul (index : Nat) :
    index * volume.clustersPerChunk * volume.cluster.bytes = regionStart index := by
  rw [Nat.mul_assoc, Volume.clustersPerChunk, volume.cluster.clusters_mul, regionStart]

/-- A cluster starts in the region whose run list it belongs to. -/
theorem cluster_in_region
    {index cluster : Nat} (lower : index * volume.clustersPerChunk ≤ cluster)
    (upper : cluster < (index + 1) * volume.clustersPerChunk) :
    regionStart index ≤ cluster * volume.cluster.bytes ∧
      cluster * volume.cluster.bytes < regionStart (index + 1) := by
  rw [← @clusterStart_mul volume index, ← @clusterStart_mul volume (index + 1)]
  exact ⟨Nat.mul_le_mul_right _ lower, Nat.mul_lt_mul_of_pos_right upper volume.cluster.bytes_pos⟩

/-- What starts in a chunk is in its region. -/
theorem Chunk.OnRegion.of_starts
    {chunk : Chunk} {index clusterSize cluster : Nat} (onRegion : chunk.OnRegion index)
    (starts : chunk.Starts clusterSize cluster) :
    regionStart index ≤ cluster * clusterSize ∧
      cluster * clusterSize < regionStart (index + 1) := by
  have offset := onRegion.offset
  have length := onRegion.length
  rw [regionStart_succ]
  obtain ⟨lower, upper⟩ := starts
  omega

theorem Chunk.OnRegion.number_eq
    {chunk : Chunk} {index number cluster : Nat} (onRegion : chunk.OnRegion index)
    (starts : chunk.Starts volume.cluster.bytes cluster)
    (lower : number * volume.clustersPerChunk ≤ cluster)
    (upper : cluster < (number + 1) * volume.clustersPerChunk) : number = index := by
  obtain ⟨start, stop⟩ := cluster_in_region lower upper
  obtain ⟨start', stop'⟩ := onRegion.of_starts starts
  exact region_eq_of_mem start stop start' stop'

/-- The test of `calc_used_space` does not wrap for a run of the chunk's region. -/
theorem Chunk.OnRegion.test_iff
    {chunk : Chunk} {index cluster : Nat} (onRegion : chunk.OnRegion index)
    (lower : index * volume.clustersPerChunk ≤ cluster)
    (upper : cluster < (index + 1) * volume.clustersPerChunk) :
    wordSub (cluster * volume.cluster.bytes + chunkVirtOffset) chunk.offset < chunk.length ↔
      chunk.Starts volume.cluster.bytes cluster := by
  obtain ⟨start, stop⟩ := cluster_in_region lower upper
  have offset := onRegion.offset
  have length := onRegion.length
  have small : dataChunkSize + dataChunkSize ≤ wordModulus := by decide
  rw [regionStart_succ] at stop
  exact wordSub_lt_iff (by omega) (by omega)

theorem chargeRuns_eq
    {chunk : Chunk} {index : Nat} (onRegion : chunk.OnRegion index)
    (small : chunk.used < wordModulus) {runs : List DataAlloc}
    (inChunk : ∀ run ∈ runs, 0 < run.length ∧
      index * volume.clustersPerChunk ≤ run.offset ∧
        run.stop ≤ (index + 1) * volume.clustersPerChunk) :
    chargeRuns volume.cluster.bytes chunk runs =
      chunk.addUsed ((runs.map (chunk.weigh volume.cluster.bytes)).sum) := by
  induction runs generalizing chunk with
  | nil => exact (Chunk.addUsed_zero small).symm
  | cons run rest ih =>
    obtain ⟨positive, lower, upper⟩ := inChunk run List.mem_cons_self
    have before : run.offset < (index + 1) * volume.clustersPerChunk := by
      rw [DataAlloc.stop] at upper
      omega
    have later := fun other member => inChunk other (List.mem_cons_of_mem run member)
    have charged : chargeRuns volume.cluster.bytes chunk (run :: rest) =
        chargeRuns volume.cluster.bytes
          (chunk.addUsed (chunk.weigh volume.cluster.bytes run)) rest := by
      rw [chargeRuns, List.foldl_cons, chargeRuns, Chunk.weigh]
      by_cases starts : chunk.Starts volume.cluster.bytes run.offset
      · rw [if_pos ((onRegion.test_iff lower before).mpr starts), if_pos starts,
          Chunk.addUsed]
      · rw [if_neg fun test => starts ((onRegion.test_iff lower before).mp test),
          if_neg starts, Chunk.addUsed_zero small]
    have next : (chunk.addUsed (chunk.weigh volume.cluster.bytes run)).OnRegion index :=
      ⟨onRegion.offset, onRegion.length, onRegion.spaces⟩
    rw [charged, ih next (Nat.mod_lt _ (by decide)) later, Chunk.addUsed_addUsed,
      List.map_cons, List.sum_cons]
    rfl

/-- The chunks have a region each, none of them twice, and their usage is a word. -/
structure Regional (chunks : List Chunk) : Prop where
  regions : ∀ chunk ∈ chunks, ∃ index, chunk.OnRegion index
  small : ∀ chunk ∈ chunks, chunk.used < wordModulus
  apart : chunks.Pairwise fun left right => left.offset ≠ right.offset

theorem Regional.map_addUsed
    {chunks : List Chunk} (regional : Regional chunks) (amount : Chunk → Nat) :
    Regional (chunks.map fun chunk => chunk.addUsed (amount chunk)) := by
  refine ⟨fun chunk member => ?_, fun chunk member => ?_, ?_⟩
  · obtain ⟨old, oldMember, rfl⟩ := List.mem_map.mp member
    obtain ⟨index, onRegion⟩ := regional.regions old oldMember
    exact ⟨index, onRegion.offset, onRegion.length, onRegion.spaces⟩
  · obtain ⟨old, -, rfl⟩ := List.mem_map.mp member
    exact Nat.mod_lt _ (by decide)
  · exact List.pairwise_map.mpr regional.apart

theorem runListStart_eq (number : Nat) :
    runListStart number =
      regionStart number + chunkVirtOffset + regionShift (regionStart number) := by
  rw [runListStart]
  cases number with
  | zero =>
    rw [if_pos rfl, regionShift_zero, regionStart]
  | succ index =>
    rw [if_neg (Nat.succ_ne_zero index), regionShift_succ, regionStart]
    exact (Nat.add_zero _).symm

theorem Chunk.OnRegion.runListStart_eq_iff
    {chunk : Chunk} {index : Nat} (onRegion : chunk.OnRegion index) (number : Nat) :
    runListStart number = chunk.offset ↔ number = index := by
  constructor
  · intro same
    have other : Chunk.OnRegion ⟨runListStart number, 0, 0, 0, [], false, 0⟩ number := by
      refine ⟨runListStart_eq number, ?_, fun space member => absurd member List.not_mem_nil⟩
      have bound := regionShift_le_reservedArea number
      have large : reservedArea ≤ dataChunkSize := by decide
      simp only
      omega
    exact other.unique onRegion same
  · rintro rfl
    rw [runListStart_eq, onRegion.offset]

/-- Adding one run list adds to every chunk what of the list starts in it. -/
theorem chargeChunk_eq
    {chunks : List Chunk} (regional : Regional chunks) {number : Nat} {runs : List DataAlloc}
    (inChunk : ∀ run ∈ runs, 0 < run.length ∧
      number * volume.clustersPerChunk ≤ run.offset ∧
        run.stop ≤ (number + 1) * volume.clustersPerChunk) :
    chargeChunk volume.cluster.bytes (runListStart number) runs chunks =
      chunks.map fun chunk =>
        chunk.addUsed ((runs.map (chunk.weigh volume.cluster.bytes)).sum) := by
  have nothing {chunk : Chunk} (member : chunk ∈ chunks)
      (different : runListStart number ≠ chunk.offset) :
      chunk.addUsed ((runs.map (chunk.weigh volume.cluster.bytes)).sum) = chunk := by
    obtain ⟨index, onRegion⟩ := regional.regions chunk member
    have zero : (runs.map (chunk.weigh volume.cluster.bytes)).sum = 0 := by
      refine List.sum_eq_zero fun value valueMember => ?_
      obtain ⟨run, runMember, rfl⟩ := List.mem_map.mp valueMember
      obtain ⟨positive, lower, upper⟩ := inChunk run runMember
      have before : run.offset < (number + 1) * volume.clustersPerChunk := by
        rw [DataAlloc.stop] at upper
        omega
      refine if_neg fun starts => different ?_
      exact (onRegion.runListStart_eq_iff number).mpr
        (onRegion.number_eq starts lower before)
    rw [zero, Chunk.addUsed_zero (regional.small chunk member)]
  induction chunks with
  | nil => rfl
  | cons chunk rest ih =>
    obtain ⟨regions, small, apart⟩ := regional
    obtain ⟨first, restApart⟩ := List.pairwise_cons.mp apart
    have restRegional : Regional rest :=
      ⟨fun other member => regions other (List.mem_cons_of_mem chunk member),
        fun other member => small other (List.mem_cons_of_mem chunk member), restApart⟩
    rw [chargeChunk, List.map_cons]
    split_ifs with same
    · obtain ⟨index, onRegion⟩ := regions chunk List.mem_cons_self
      have equal := (onRegion.runListStart_eq_iff number).mp same
      subst equal
      rw [chargeRuns_eq onRegion (small chunk List.mem_cons_self) inChunk]
      refine congrArg _ (Eq.symm ?_)
      refine (List.map_congr_left fun other member => ?_).trans (List.map_id rest)
      exact nothing (List.mem_cons_of_mem chunk member)
        fun also => first other member (same.symm.trans also)
    · rw [nothing List.mem_cons_self same,
        ih restRegional fun member => nothing (List.mem_cons_of_mem chunk member)]

/-- `calc_used_space` adds to every chunk the runs that start in it. -/
theorem calcUsedSpace_eq
    {runs : Runs} (inChunks : runs.InChunks volume.clustersPerChunk)
    {chunks : List Chunk} (regional : Regional chunks) :
    calcUsedSpace volume.cluster.bytes runs chunks =
      chunks.map fun chunk => chunk.addUsed (runs.total (chunk.weigh volume.cluster.bytes)) := by
  obtain ⟨entries, sorted⟩ := runs
  have inEntries : ∀ entry ∈ entries, ∀ run ∈ entry.2, 0 < run.length ∧
      entry.1 * volume.clustersPerChunk ≤ run.offset ∧
        run.stop ≤ (entry.1 + 1) * volume.clustersPerChunk := by
    intro entry member run runMember
    exact inChunks entry.1 run (Runs.mem_list_iff.mpr ⟨entry, member, rfl, runMember⟩)
  clear inChunks
  simp only [calcUsedSpace, Runs.total, Runs.all]
  clear sorted
  induction entries generalizing chunks with
  | nil =>
    refine ((List.map_congr_left fun chunk member => ?_).trans (List.map_id chunks)).symm
    exact Chunk.addUsed_zero (regional.small chunk member)
  | cons entry rest ih =>
    rw [List.foldl_cons, chargeChunk_eq regional (inEntries entry List.mem_cons_self),
      ih (regional.map_addUsed _)
        fun other member => inEntries other (List.mem_cons_of_mem entry member),
      List.map_map]
    refine List.map_congr_left fun chunk _ => ?_
    rw [List.flatMap_cons, List.map_append, List.sum_append]
    exact Chunk.addUsed_addUsed chunk _ _

end Regional

/-! ## Runs in their chunks -/

theorem Runs.InChunks.assign
    {clustersPerChunk : Nat} {runs : Runs} (inChunks : runs.InChunks clustersPerChunk)
    {number : Nat} {runList : List DataAlloc}
    (inChunk : ∀ run ∈ runList, 0 < run.length ∧
      number * clustersPerChunk ≤ run.offset ∧
        run.stop ≤ (number + 1) * clustersPerChunk) :
    Runs.InChunks clustersPerChunk (runs.assign number runList) := by
  intro other run member
  rw [Runs.list_assign] at member
  split_ifs at member with same
  · subst same
    exact inChunk run member
  · exact inChunks other run member

theorem Runs.InChunks.cut
    {clustersPerChunk : Nat} {runs : Runs} (inChunks : runs.InChunks clustersPerChunk)
    {number : Nat} {front back : List DataAlloc} {run : DataAlloc}
    (shape : runs.list number = front ++ run :: back)
    {offset length : Nat} (inode fileOffset : Nat) (positive : 0 < length)
    (lower : run.offset ≤ offset) (upper : offset + length ≤ run.stop) :
    Runs.InChunks clustersPerChunk
      (runs.assign number (front ++ cutRun run offset length inode fileOffset ++ back)) := by
  have inChunk := inChunks number
  rw [shape] at inChunk
  obtain ⟨tidy, within⟩ := tidyRuns_cutRun inode fileOffset positive lower upper
  obtain ⟨-, runLower, runUpper⟩ := inChunk run (by simp)
  refine inChunks.assign fun piece member => ?_
  rcases List.mem_append.mp member with inFront | inBack
  · rcases List.mem_append.mp inFront with inFront | inPieces
    · exact inChunk piece (by simp [inFront])
    · obtain ⟨pieceLower, pieceUpper⟩ := within piece inPieces
      exact ⟨tidy.positive inPieces, runLower.trans pieceLower, pieceUpper.trans runUpper⟩
  · exact inChunk piece (by simp [inBack])

theorem Runs.InChunks.insert
    {clustersPerChunk : Nat} (chunks : 0 < clustersPerChunk) {runs : Runs}
    (inChunks : runs.InChunks clustersPerChunk) (cluster : Nat) :
    Runs.InChunks clustersPerChunk
      (runs.assign (cluster / clustersPerChunk)
        (insertRun (copyRun cluster) (runs.list (cluster / clustersPerChunk)))) := by
  refine inChunks.assign fun run member => ?_
  rcases List.mem_cons.mp ((insertRun_perm _ _).mem_iff.mp member) with rfl | old
  · refine ⟨Nat.one_pos, Nat.div_mul_le_self cluster clustersPerChunk, ?_⟩
    rw [copyRun, DataAlloc.stop, Nat.succ_mul]
    exact Nat.lt_div_mul_add chunks
  · exact inChunks _ run old

/-- A run that no file owns is not a dummy run. -/
theorem not_isDummy_of_inode {run : DataAlloc} (unowned : run.inode = 0) : ¬ run.IsDummy := by
  rw [DataAlloc.IsDummy, unowned]
  decide

/-- The pieces of a cut run that the dummy inode owns. -/
theorem dummy_of_mem_cutRun
    {run piece : DataAlloc} {cluster : Nat} (owned : ¬ run.IsDummy)
    (member : piece ∈ cutRun run cluster 1 dummyInode 0) (dummy : piece.IsDummy) :
    piece.offset = cluster ∧ piece.length = 1 := by
  rw [cutRun] at member
  rcases List.mem_append.mp member with inFront | inBack
  · split_ifs at inFront
    · rw [List.mem_singleton.mp inFront] at dummy
      exact absurd dummy (not_isDummy_of_inode rfl)
    · exact absurd inFront List.not_mem_nil
  · rcases List.mem_cons.mp inBack with rfl | inBack
    · exact ⟨rfl, rfl⟩
    · split_ifs at inBack
      · rw [List.mem_singleton.mp inBack] at dummy
        exact absurd dummy owned
      · exact absurd inBack List.not_mem_nil

/-- A run that is cut for a cluster gives one dummy run, of that cluster. -/
theorem sum_weighDummy_cutRun
    {run : DataAlloc} (owned : ¬ run.IsDummy) (chunk : Chunk) (clusterSize cluster : Nat) :
    ((cutRun run cluster 1 dummyInode 0).map (chunk.weighDummy clusterSize)).sum =
      if chunk.Starts clusterSize cluster then clusterSize else 0 := by
  have front : ¬ DataAlloc.IsDummy
      { offset := run.offset, length := cluster - run.offset } :=
    not_isDummy_of_inode rfl
  have back : ¬ DataAlloc.IsDummy
      { run with offset := cluster + 1, length := run.stop - cluster - 1 } := owned
  have middle : DataAlloc.IsDummy
      { offset := cluster, length := 1, inode := dummyInode, relocated := run.relocated } := rfl
  have frontSum : ((if cluster > run.offset then
      [({ offset := run.offset, length := cluster - run.offset } : DataAlloc)]
      else []).map (chunk.weighDummy clusterSize)).sum = 0 := by
    split_ifs
    · rw [List.map_singleton, List.sum_singleton, Chunk.weighDummy, if_neg front]
    · rfl
  have backSum : ((if cluster + 1 < run.stop then
      [{ run with offset := cluster + 1, length := run.stop - cluster - 1 }]
      else []).map (chunk.weighDummy clusterSize)).sum = 0 := by
    split_ifs
    · rw [List.map_singleton, List.sum_singleton, Chunk.weighDummy, if_neg back]
    · rfl
  rw [cutRun, List.map_append, List.sum_append, List.map_cons, List.sum_cons, frontSum, backSum,
    Chunk.weighDummy, if_pos middle, Chunk.weigh, Nat.one_mul, Nat.zero_add, Nat.add_zero]

/-! ## Subtracting a cluster -/

/-- The chunk with another usage. -/
def Chunk.withUsed (chunk : Chunk) (used : Nat) : Chunk :=
  { chunk with used := used }

theorem Chunk.withUsed_onRegion_iff (chunk : Chunk) (used index : Nat) :
    (chunk.withUsed used).OnRegion index ↔ chunk.OnRegion index :=
  ⟨fun onRegion => ⟨onRegion.offset, onRegion.length, onRegion.spaces⟩,
    fun onRegion => ⟨onRegion.offset, onRegion.length, onRegion.spaces⟩⟩

@[simp]
theorem Chunk.withUsed_offset (chunk : Chunk) (used : Nat) :
    (chunk.withUsed used).offset = chunk.offset :=
  rfl

@[simp]
theorem Chunk.withUsed_used (chunk : Chunk) (used : Nat) :
    (chunk.withUsed used).used = used :=
  rfl

theorem Chunk.withUsed_starts_iff (chunk : Chunk) (used clusterSize cluster : Nat) :
    (chunk.withUsed used).Starts clusterSize cluster ↔ chunk.Starts clusterSize cluster :=
  Iff.rfl

@[simp]
theorem Chunk.withUsed_weighDummy (chunk : Chunk) (used clusterSize : Nat) :
    (chunk.withUsed used).weighDummy clusterSize = chunk.weighDummy clusterSize :=
  rfl

/-- The usage after a cluster was subtracted, if it starts in the chunk. -/
def Chunk.without (chunk : Chunk) (clusterSize cluster : Nat) : Chunk :=
  if chunk.Starts clusterSize cluster then chunk.withUsed (wordSub chunk.used clusterSize)
  else chunk

/-- `protect_cluster` subtracts from the one chunk in which the cluster starts. -/
theorem discharge_eq
    {chunks : List Chunk} (regions : ∀ chunk ∈ chunks, ∃ index, chunk.OnRegion index)
    (apart : chunks.Pairwise fun left right => left.offset ≠ right.offset)
    (clusterSize cluster : Nat) :
    discharge (cluster * clusterSize + chunkVirtOffset) clusterSize chunks =
      chunks.map fun chunk => chunk.without clusterSize cluster := by
  induction chunks with
  | nil => rfl
  | cons chunk rest ih =>
    obtain ⟨first, restApart⟩ := List.pairwise_cons.mp apart
    have restRegions := fun other member => regions other (List.mem_cons_of_mem chunk member)
    rw [discharge, List.map_cons]
    by_cases starts : chunk.Starts clusterSize cluster
    · have others : ∀ other ∈ rest, ¬ other.Starts clusterSize cluster := by
        intro other member otherStarts
        obtain ⟨index, onIndex⟩ := regions chunk List.mem_cons_self
        obtain ⟨number, onNumber⟩ := restRegions other member
        obtain ⟨lower, upper⟩ := onIndex.of_starts starts
        obtain ⟨lower', upper'⟩ := onNumber.of_starts otherStarts
        have same := region_eq_of_mem lower upper lower' upper'
        subst same
        exact first other member (onIndex.offset.trans onNumber.offset.symm)
      rw [Chunk.without, if_pos starts, if_pos (show _ ∧ _ from starts)]
      refine congrArg _ (Eq.symm ?_)
      refine (List.map_congr_left fun other member => ?_).trans (List.map_id rest)
      exact if_neg (others other member)
    · rw [Chunk.without, if_neg starts, if_neg (show ¬ (_ ∧ _) from starts),
        ih restRegions restApart]

theorem Chunk.without_onRegion_iff (chunk : Chunk) (clusterSize cluster index : Nat) :
    (chunk.without clusterSize cluster).OnRegion index ↔ chunk.OnRegion index := by
  rw [Chunk.without]
  split_ifs
  · exact chunk.withUsed_onRegion_iff _ index
  · exact Iff.rfl

theorem Chunk.without_offset (chunk : Chunk) (clusterSize cluster : Nat) :
    (chunk.without clusterSize cluster).offset = chunk.offset := by
  rw [Chunk.without]
  split_ifs
  · exact chunk.withUsed_offset _
  · rfl

theorem Allocator.OnRegions.discharged
    {state : Allocator} (onRegions : state.OnRegions) (clusterSize cluster : Nat) :
    Allocator.OnRegions
      { state with
        chunks :=
          discharge (cluster * clusterSize + chunkVirtOffset) clusterSize state.chunks } := by
  obtain ⟨regions, apart, tidy, grid, outside⟩ := onRegions
  have equal := discharge_eq regions apart clusterSize cluster
  refine ⟨fun chunk member => ?_, ?_, tidy, grid,
    fun space spaceMember chunk member index onRegion => ?_⟩
  · rw [equal] at member
    obtain ⟨old, oldMember, rfl⟩ := List.mem_map.mp member
    obtain ⟨index, onRegion⟩ := regions old oldMember
    exact ⟨index, (old.without_onRegion_iff clusterSize cluster index).mpr onRegion⟩
  · rw [equal]
    refine List.pairwise_map.mpr (apart.imp fun {left right} different => ?_)
    rw [Chunk.without_offset, Chunk.without_offset]
    exact different
  · rw [equal] at member
    obtain ⟨old, oldMember, rfl⟩ := List.mem_map.mp member
    exact outside space spaceMember old oldMember index
      ((old.without_onRegion_iff clusterSize cluster index).mp onRegion)

/-! ## The walk -/

section Charged

variable (volume : Volume)

/--
What holds while clusters are protected: every dummy run is a cluster that was
protected, and was subtracted from the usage of the chunk in which it starts.
-/
structure Charged (past : List Nat) (state : Conversion) : Prop where
  onRegions : state.allocator.OnRegions
  inChunks : state.runs.InChunks volume.clustersPerChunk
  dummies : ∀ run ∈ state.runs.all, run.IsDummy → run.length = 1 ∧ run.offset ∈ past
  placed : ∀ run ∈ state.runs.all, ∀ cluster, run.extent.Contains cluster →
    (∃ chunk ∈ state.allocator.chunks,
        chunk.OnRegion (cluster / volume.clustersPerChunk)) ∨
      ¬ Covers state.allocator.spaceList (cluster * volume.cluster.bytes)
  small : ∀ chunk ∈ state.allocator.chunks, chunk.used < wordModulus
  balanced : ∀ chunk ∈ state.allocator.chunks,
    (chunk.used + state.runs.total (chunk.weighDummy volume.cluster.bytes)) % wordModulus = 0

variable {volume}

theorem Volume.cluster_div (cluster : Nat) :
    cluster / volume.clustersPerChunk = cluster * volume.cluster.bytes / dataChunkSize := by
  rw [← volume.cluster.clusters_mul, Volume.clustersPerChunk,
    Nat.mul_div_mul_right _ _ volume.cluster.bytes_pos]

/-- The cluster of an address in a region belongs to the run list of the region. -/
theorem clusterAt_div
    {index address : Nat} (lower : regionStart index + chunkVirtOffset ≤ address)
    (upper : address < regionStart (index + 1) + chunkVirtOffset) :
    volume.clusterAt address / volume.clustersPerChunk = index := by
  rw [Volume.clusterAt, Nat.div_div_eq_div_mul, Nat.mul_comm, Volume.clustersPerChunk,
    volume.cluster.clusters_mul]
  rw [regionStart_succ] at upper
  exact Nat.div_eq_of_lt_le (by rw [← regionStart]; omega)
    (by rw [Nat.succ_mul, ← regionStart]; omega)

theorem subtracted_balanced
    {used total amount : Nat} (fits : amount ≤ wordModulus)
    (balanced : (used + total) % wordModulus = 0) :
    (wordSub used amount + (total + amount)) % wordModulus = 0 := by
  rw [wordSub, Nat.mod_add_mod]
  have regroup : used + wordModulus - amount + (total + amount) =
      used + total + wordModulus := by
    omega
  rw [regroup, Nat.add_mod_right, balanced]

theorem ClusterSize.bytes_le_wordModulus (cluster : ClusterSize) :
    cluster.bytes ≤ wordModulus :=
  cluster.bytes_le.trans (by decide)

/-- The chunks after an allocation are balanced as those before it. -/
theorem Charged.allocated
    {past : List Nat} {state : Conversion} (charged : Charged volume past state)
    {address : Nat} {next : Allocator}
    (allocated : allocateData volume.cluster.bytes false state.allocator = (.ok address, next)) :
    next.OnRegions ∧
      (∃ index, ∃ chunk ∈ next.chunks, chunk.OnRegion index ∧
        regionStart index + chunkVirtOffset ≤ address ∧
          address < regionStart (index + 1) + chunkVirtOffset) ∧
      (∀ chunk ∈ state.allocator.chunks, ∀ index, chunk.OnRegion index →
        ∃ kept ∈ next.chunks, kept.OnRegion index) ∧
      (∀ point, Covers next.spaceList point → Covers state.allocator.spaceList point) ∧
      ∀ chunk ∈ next.chunks, chunk.used < wordModulus ∧
        (chunk.used + state.runs.total (chunk.weighDummy volume.cluster.bytes)) %
          wordModulus = 0 := by
  have positive := volume.cluster.bytes_pos
  rcases allocateData_cases allocated with
    ⟨before, chunk, after, spaces, shape, taken, rfl⟩ | ⟨space, member, enough, spaces, taken, rfl⟩
  · have inState : chunk ∈ state.allocator.chunks := by simp [shape]
    obtain ⟨index, onRegion⟩ := charged.onRegions.regions chunk inState
    obtain ⟨taken', lower, upper⟩ := onRegion.take taken chunk.used
    refine ⟨charged.onRegions.take shape taken chunk.used,
      ⟨index, _, by simp, taken', lower, by omega⟩, fun other otherMember number onNumber => ?_,
      fun _ => id, fun other otherMember => ?_⟩
    · rw [shape] at otherMember
      rcases List.mem_append.mp otherMember with old | rest
      · exact ⟨other, by simp [old], onNumber⟩
      · rcases List.mem_cons.mp rest with rfl | old
        · exact ⟨_, by simp, (onNumber.take taken other.used).1⟩
        · exact ⟨other, by simp [old], onNumber⟩
    · rcases List.mem_append.mp otherMember with old | rest
      · exact ⟨charged.small other (by simp [shape, old]),
          charged.balanced other (by simp [shape, old])⟩
      · rcases List.mem_cons.mp rest with rfl | old
        · exact ⟨charged.small chunk inState, charged.balanced chunk inState⟩
        · exact ⟨charged.small other (by simp [shape, old]),
            charged.balanced other (by simp [shape, old])⟩
  · obtain ⟨index, start, holds, carved⟩ := charged.onRegions.carve member enough
    have new := freshChunk_onRegion index
    rw [← start] at new
    obtain ⟨taken', lower, upper⟩ := new.take taken 0
    have shape : (Ntfs2Btrfs.carve state.allocator space dataChunkSize blockGroupData).chunks =
        state.allocator.chunks ++
          freshChunk space.offset dataChunkSize blockGroupData :: [] := rfl
    refine ⟨carved.take shape taken 0,
      ⟨index + 1, _, List.mem_append_right _ List.mem_cons_self, taken', lower, by omega⟩,
      fun other otherMember number onNumber => ⟨other, List.mem_append_left _ otherMember, onNumber⟩,
      fun point covered =>
        ((covers_spaceListRemove charged.onRegions.spaceTidy _ _ _).mp covered).1,
      fun other otherMember => ?_⟩
    rcases List.mem_append.mp otherMember with old | isNew
    · exact ⟨charged.small other old, charged.balanced other old⟩
    · rw [List.mem_singleton.mp isNew]
      -- no dummy run starts in a region that had no chunk and was free
      have nothing : state.runs.total
          (((freshChunk space.offset dataChunkSize blockGroupData).take spaces 0).weighDummy
            volume.cluster.bytes) = 0 := by
        refine List.sum_eq_zero fun value valueMember => ?_
        obtain ⟨run, runMember, rfl⟩ := List.mem_map.mp valueMember
        rw [Chunk.weighDummy]
        split_ifs with dummy
        · refine if_neg fun starts => ?_
          obtain ⟨runLower, runUpper⟩ := taken'.of_starts starts
          have inRun : run.extent.Contains run.offset :=
            ⟨le_rfl, Nat.lt_add_of_pos_right (by
              rw [DataAlloc.extent_length, (charged.dummies run runMember dummy).1]
              exact Nat.one_pos)⟩
          have region : run.offset / volume.clustersPerChunk = index + 1 := by
            rw [Volume.cluster_div]
            rw [regionStart_succ] at runUpper
            exact Nat.div_eq_of_lt_le runLower (by rw [Nat.succ_mul]; exact runUpper)
          rcases charged.placed run runMember run.offset inRun with
            ⟨chunk, chunkMember, onRegion⟩ | uncovered
          · rw [region] at onRegion
            exact charged.onRegions.not_onRegion_of_holds member holds chunkMember onRegion
          · exact uncovered ⟨space, member, holds.1.trans runLower, runUpper.trans_le holds.2⟩
        · rfl
      have unused : ((freshChunk space.offset dataChunkSize blockGroupData).take spaces 0).used =
          0 := rfl
      rw [nothing, unused]
      exact ⟨by decide, by decide⟩

/-- What a step adds to the dummy runs that start in a chunk. -/
theorem total_weighDummy_moved
    {state : Conversion} {cluster : Nat} {front back : List DataAlloc} {run : DataAlloc}
    (shape : state.runs.list (cluster / volume.clustersPerChunk) = front ++ run :: back)
    (owned : ¬ run.IsDummy) (address : Nat) (next : Allocator) (chunk : Chunk) :
    (state.moved volume (protectedRuns volume state.runs cluster front run back)
        cluster address next).runs.total (chunk.weighDummy volume.cluster.bytes) =
      state.runs.total (chunk.weighDummy volume.cluster.bytes) +
        if chunk.Starts volume.cluster.bytes cluster then volume.cluster.bytes else 0 := by
  have copy : chunk.weighDummy volume.cluster.bytes (copyRun (volume.clusterAt address)) = 0 :=
    if_neg (not_isDummy_of_inode rfl)
  have whole : chunk.weighDummy volume.cluster.bytes run = 0 := if_neg owned
  have cut := Runs.total_replace shape (cutRun run cluster 1 dummyInode 0)
    (chunk.weighDummy volume.cluster.bytes)
  rw [whole, Nat.add_zero, sum_weighDummy_cutRun owned] at cut
  rw [runs_moved, Runs.total_insert, copy, Nat.zero_add, protectedRuns, cut]

/-- Protecting a cluster for the first time keeps the counters balanced. -/
theorem Charged.protectCluster
    {past : List Nat} {state next : Conversion} (charged : Charged volume past state)
    {cluster : Nat} (fresh : cluster ∉ past)
    (done : Ntfs2Btrfs.protectCluster volume state cluster = .ok next) :
    Charged volume (cluster :: past) next := by
  rcases protectCluster_cases done with
    ⟨rfl, -⟩ | ⟨front, run, back, address, allocator, shape, covers, allocated, rfl⟩
  · exact
      { onRegions := charged.onRegions
        inChunks := charged.inChunks
        dummies := fun run member dummy => by
          obtain ⟨length, inPast⟩ := charged.dummies run member dummy
          exact ⟨length, List.mem_cons_of_mem cluster inPast⟩
        placed := charged.placed
        small := charged.small
        balanced := charged.balanced }
  · obtain ⟨runMember, -⟩ := covers_of_shape shape covers
    obtain ⟨lower, upper⟩ := bounds_of_contains covers
    have owned : ¬ run.IsDummy := by
      intro dummy
      obtain ⟨length, inPast⟩ := charged.dummies run runMember dummy
      have same : run.offset = cluster := by
        rw [DataAlloc.stop, length] at upper
        omega
      exact fresh (same ▸ inPast)
    obtain ⟨nextRegions, ⟨index, holder, holderMember, onIndex, addressLower, addressUpper⟩,
      kept, shrinks, counters⟩ := charged.allocated allocated
    have inRegion := @clusterAt_div volume index address addressLower addressUpper
    have discharged := discharge_eq nextRegions.regions nextRegions.apart
      volume.cluster.bytes cluster
    have runsPerm := Runs.all_insert_perm
      (protectedRuns volume state.runs cluster front run back)
      (volume.clusterAt address / volume.clustersPerChunk)
      (copyRun (volume.clusterAt address))
    -- the chunks keep their places
    have places (chunk : Chunk) (number : Nat) (onNumber : chunk.OnRegion number)
        (member : chunk ∈ allocator.chunks) :
        ∃ same ∈ (state.moved volume (protectedRuns volume state.runs cluster front run back)
          cluster address allocator).allocator.chunks, same.OnRegion number := by
      rw [allocator_moved, discharged]
      exact ⟨_, List.mem_map_of_mem member,
        (chunk.without_onRegion_iff volume.cluster.bytes cluster number).mpr onNumber⟩
    have origin (chunk : Chunk)
        (member : chunk ∈ (state.moved volume
          (protectedRuns volume state.runs cluster front run back)
          cluster address allocator).allocator.chunks) :
        ∃ old ∈ allocator.chunks, chunk = old.without volume.cluster.bytes cluster := by
      rw [allocator_moved, discharged] at member
      obtain ⟨old, oldMember, equal⟩ := List.mem_map.mp member
      exact ⟨old, oldMember, equal.symm⟩
    refine
      { onRegions := nextRegions.discharged volume.cluster.bytes cluster
        inChunks := ?_
        dummies := fun other member dummy => ?_
        placed := fun other member point inside => ?_
        small := fun chunk member => ?_
        balanced := fun chunk member => ?_ }
    · rw [runs_moved]
      exact Runs.InChunks.insert volume.clustersPerChunk_pos
        (charged.inChunks.cut shape dummyInode 0 Nat.one_pos lower upper) _
    · rcases List.mem_cons.mp (runsPerm.mem_iff.mp member) with rfl | inCut
      · exact absurd dummy (not_isDummy_of_inode rfl)
      · rcases Runs.mem_all_of_cut shape inCut with inPieces | old
        · obtain ⟨offset, length⟩ := dummy_of_mem_cutRun owned inPieces dummy
          exact ⟨length, offset ▸ List.mem_cons_self⟩
        · obtain ⟨length, inPast⟩ := charged.dummies other old dummy
          exact ⟨length, List.mem_cons_of_mem cluster inPast⟩
    · have transfer (old : (∃ chunk ∈ state.allocator.chunks,
            chunk.OnRegion (point / volume.clustersPerChunk)) ∨
          ¬ Covers state.allocator.spaceList (point * volume.cluster.bytes)) :
          (∃ chunk ∈ (state.moved volume
              (protectedRuns volume state.runs cluster front run back)
              cluster address allocator).allocator.chunks,
            chunk.OnRegion (point / volume.clustersPerChunk)) ∨
          ¬ Covers allocator.spaceList (point * volume.cluster.bytes) := by
        rcases old with ⟨chunk, chunkMember, onRegion⟩ | uncovered
        · obtain ⟨middle, middleMember, onMiddle⟩ := kept chunk chunkMember _ onRegion
          exact Or.inl (places middle _ onMiddle middleMember)
        · exact Or.inr fun covered => uncovered (shrinks _ covered)
      rcases List.mem_cons.mp (runsPerm.mem_iff.mp member) with rfl | inCut
      · rw [copyRun_contains_iff] at inside
        rw [inside, inRegion]
        exact Or.inl (places holder index onIndex holderMember)
      · rcases Runs.mem_all_of_cut shape inCut with inPieces | old
        · have inRun := (mem_cutRun_contains_iff dummyInode 0 lower upper point).mp
            ⟨other, inPieces, inside⟩
          exact transfer (charged.placed run runMember point inRun)
        · exact transfer (charged.placed other old point inside)
    · obtain ⟨old, oldMember, rfl⟩ := origin chunk member
      rw [Chunk.without]
      split_ifs
      · rw [Chunk.withUsed_used]
        exact Nat.mod_lt _ (by decide)
      · exact (counters old oldMember).1
    · obtain ⟨old, oldMember, rfl⟩ := origin chunk member
      have balanced := (counters old oldMember).2
      rw [total_weighDummy_moved shape owned, Chunk.without]
      by_cases starts : old.Starts volume.cluster.bytes cluster
      · rw [if_pos starts, if_pos ((old.withUsed_starts_iff _ _ _).mpr starts),
          Chunk.withUsed_used, Chunk.withUsed_weighDummy]
        exact subtracted_balanced volume.cluster.bytes_le_wordModulus balanced
      · rw [if_neg starts, if_neg starts, Nat.add_zero]
        exact balanced

/-- Protecting clusters, none of them twice, keeps the counters balanced. -/
theorem Charged.walk
    {clusters past : List Nat} {state final : Conversion}
    (charged : Charged volume past state) (distinct : clusters.Nodup)
    (fresh : ∀ cluster ∈ clusters, cluster ∉ past)
    (done : clusters.foldlM (Ntfs2Btrfs.protectCluster volume) state = .ok final) :
    ∃ all, Charged volume all final := by
  induction clusters generalizing past state with
  | nil =>
    cases done
    exact ⟨past, charged⟩
  | cons cluster rest ih =>
    obtain ⟨notLater, restDistinct⟩ := List.nodup_cons.mp distinct
    rw [List.foldlM_cons] at done
    cases stepped : Ntfs2Btrfs.protectCluster volume state cluster with
    | error failure =>
      rw [stepped] at done
      cases done
    | ok next =>
      rw [stepped] at done
      refine ih (charged.protectCluster (fresh cluster List.mem_cons_self) stepped) restDistinct
        (fun other member inPast => ?_) done
      rcases List.mem_cons.mp inPast with rfl | old
      · exact notLater member
      · exact fresh other (List.mem_cons_of_mem cluster member) old

theorem dataChunk_used (clusterSize addr chunkLength : Nat) (used : List Extent) :
    (dataChunk clusterSize addr chunkLength used).used = 0 := by
  simp only [dataChunk]
  split_ifs
  · exact removeSuperblocks_used _
  · exact removeSuperblocks_used _

theorem ChunkTable.state_chunks (table : ChunkTable) : table.state.chunks = table.chunks :=
  rfl

theorem conversionStart_unused
    {deviceSize : Nat} {cluster : ClusterSize} {bitmap : Bytes} {chunk : Chunk}
    (member : chunk ∈ (conversionStart deviceSize cluster bitmap).chunks) : chunk.used = 0 := by
  rw [conversionStart, ChunkTable.state_chunks, mem_createDataChunks_iff] at member
  obtain ⟨index, -, equal⟩ := member
  rw [equal]
  exact dataChunk_used _ _ _ _

/-- The state before clusters are protected. -/
theorem charged_start
    {allocator : Allocator} (onRegions : allocator.OnRegions)
    (unused : ∀ chunk ∈ allocator.chunks, chunk.used = 0) {runs : Runs}
    (fromBitmap : runs.FromBitmap volume.clustersPerChunk)
    (apart : ∀ cluster, runs.Covers cluster →
      ¬ Covers allocator.spaceList (cluster * volume.cluster.bytes))
    (device : Store) :
    Charged volume [] ⟨allocator, runs, [], device⟩ := by
  have owned (run : DataAlloc) (member : run ∈ runs.all) : ¬ run.IsDummy := by
    have plain := fromBitmap.plain run member
    rw [DataAlloc.Plain] at plain
    rw [plain]
    exact not_isDummy_of_inode rfl
  refine
    { onRegions := onRegions
      inChunks := fromBitmap.wellFormed.inChunks
      dummies := fun run member dummy => absurd dummy (owned run member)
      placed := fun run member cluster inside => Or.inr (apart cluster ⟨run, member, inside⟩)
      small := fun chunk member => ?_
      balanced := fun chunk member => ?_ }
  · rw [unused chunk member]
    decide
  · have nothing : runs.total (chunk.weighDummy volume.cluster.bytes) = 0 := by
      refine List.sum_eq_zero fun value valueMember => ?_
      obtain ⟨run, runMember, rfl⟩ := List.mem_map.mp valueMember
      exact if_neg (owned run runMember)
    rw [unused chunk member, nothing]
    decide

/-- After `calc_used_space` the usage of a chunk is what its data runs hold. -/
theorem Charged.used
    {past : List Nat} {state : Conversion} (charged : Charged volume past state)
    {chunk : Chunk}
    (member : chunk ∈
      calcUsedSpace volume.cluster.bytes state.runs state.allocator.chunks) :
    chunk.used = state.runs.total (chunk.weighData volume.cluster.bytes) % wordModulus ∧
      ∃ index, chunk.OnRegion index := by
  have regional : Regional state.allocator.chunks :=
    ⟨charged.onRegions.regions, charged.small, charged.onRegions.apart⟩
  rw [calcUsedSpace_eq charged.inChunks regional] at member
  obtain ⟨old, oldMember, rfl⟩ := List.mem_map.mp member
  have balanced := charged.balanced old oldMember
  obtain ⟨index, onRegion⟩ := charged.onRegions.regions old oldMember
  refine ⟨?_, index, onRegion.offset, onRegion.length, onRegion.spaces⟩
  rw [Chunk.addUsed_used, Chunk.addUsed_weighData]
  calc
    (old.used + state.runs.total (old.weigh volume.cluster.bytes)) % wordModulus =
        (old.used + state.runs.total (old.weighDummy volume.cluster.bytes) +
          state.runs.total (old.weighData volume.cluster.bytes)) % wordModulus := by
        rw [Runs.total_weigh, Nat.add_assoc]
    _ = state.runs.total (old.weighData volume.cluster.bytes) % wordModulus := by
        rw [Nat.add_mod, balanced, Nat.zero_add, Nat.mod_mod]

end Charged

end Ntfs2Btrfs
