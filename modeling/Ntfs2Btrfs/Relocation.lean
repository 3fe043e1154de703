import Ntfs2Btrfs.ChunkPlacement
import Ntfs2Btrfs.RunSplitting

/-!
# Relocating clusters

`protect_superblocks` copies away the clusters whose place the new filesystem
needs: those of the first MiB, of the superblock stripes, of an incomplete last
sector and of the device past the last chunk.  `protect_cluster` moves one
cluster: its run is given to the dummy inode, its data is copied to a cluster
from `allocate_data`, and a run marked as relocated is inserted for the copy.

The walk over these clusters is sound as long as it is not disturbed: no
cluster in use is visited twice, and no copy is placed on a cluster in use or
on one that is visited later.
-/

namespace Ntfs2Btrfs

open Extents
open ByteStore

/-! ## The code -/

/-- An entry of `relocs`. -/
structure Relocation where
  oldStart : Nat
  length : Nat
  newStart : Nat
deriving DecidableEq, Repr

/-- What `protect_cluster` reads and changes. -/
structure Conversion where
  allocator : Allocator
  runs : Runs
  relocs : List Relocation
  device : Store

/-- Subtract from the usage of the chunk that holds a virtual address. -/
def discharge (address amount : Nat) : List Chunk → List Chunk
  | [] => []
  | chunk :: rest =>
      if chunk.offset ≤ address ∧ chunk.offset + chunk.length > address then
        { chunk with used := wordSub chunk.used amount } :: rest
      else chunk :: discharge address amount rest

/-- Insert a run before the first run with a greater offset. -/
def insertRun (run : DataAlloc) : List DataAlloc → List DataAlloc
  | [] => [run]
  | head :: rest =>
      if head.offset > run.offset then run :: head :: rest
      else head :: insertRun run rest

/-- The number of bytes of a cluster that lie on the volume. -/
def Volume.clusterLength (volume : Volume) (cluster : Nat) : Nat :=
  if (cluster + 1) * volume.cluster.bytes > volume.origDeviceSize then
    volume.origDeviceSize - cluster * volume.cluster.bytes
  else volume.cluster.bytes

/-- The state after the data of a cluster was copied to an address. -/
def Conversion.moved
    (state : Conversion) (volume : Volume) (runs : Runs) (cluster address : Nat)
    (allocator : Allocator) : Conversion :=
  let clusterSize := volume.cluster.bytes
  let addr := address - chunkVirtOffset
  let data := Store.read state.device (cluster * clusterSize) (volume.clusterLength cluster)
  let newStart := addr / clusterSize
  let chunk := newStart / volume.clustersPerChunk
  { allocator :=
      { allocator with
        chunks :=
          discharge (cluster * clusterSize + chunkVirtOffset) clusterSize
            allocator.chunks }
    device := Store.write state.device addr data
    relocs := state.relocs ++ [⟨cluster, 1, newStart⟩]
    runs :=
      runs.assign chunk
        (insertRun { offset := newStart, length := 1, relocated := true }
          (runs.list chunk)) }

/-- `protect_cluster`. -/
def protectCluster (volume : Volume) (state : Conversion) (cluster : Nat) :
    Except ConvertError Conversion := do
  let (found, runs) ←
    splitRuns volume.clustersPerChunk state.runs cluster 1 dummyInode 0
  if found then
    match allocateData volume.cluster.bytes false state.allocator with
    | (.error error, _) => .error error
    | (.ok address, allocator) =>
        .ok (state.moved volume runs cluster address allocator)
  else .ok state

/-- `sizeof(btrfs_super_block)`. -/
def superblockSize : Nat := 0x1000

/-- The numbers from `first` to the one before `stop`. -/
def numbersFrom (first stop : Nat) : List Nat :=
  List.range' first (stop - first)

namespace Volume

variable (volume : Volume) (lastChunkEnd : Nat)

/-- The superblocks after the first that fit on the device. -/
def laterSuperblocks : List Nat :=
  superblockAddrs.tail.takeWhile fun addr => addr ≤ volume.deviceSize - superblockSize

/-- The clusters of a superblock stripe. -/
def stripeClusters (addr : Nat) : List Nat :=
  let start := addr - addr % stripeLength
  numbersFrom (start / volume.cluster.bytes)
    (sectorAlign (start + stripeLength) volume.cluster.bytes / volume.cluster.bytes)

/-- The clusters past the end of the last chunk. -/
def tailClusters : List Nat :=
  if lastChunkEnd < volume.deviceSize then
    let clusterEnd := volume.deviceSize / volume.cluster.bytes
    numbersFrom (lastChunkEnd / volume.cluster.bytes)
      ((if volume.relocLastSector then clusterEnd - 1 else clusterEnd) + 1)
  else []

/-- The clusters that `protect_superblocks` visits, in its order. -/
def visited : List Nat :=
  volume.laterSuperblocks.flatMap volume.stripeClusters ++
    -- also relocate first 1MB
    List.range (reservedArea / volume.cluster.bytes) ++
    (if volume.relocLastSector then [volume.deviceSize / volume.cluster.bytes] else []) ++
    volume.tailClusters lastChunkEnd

end Volume

/-- `protect_superblocks`. -/
def protectSuperblocks (volume : Volume) (lastChunkEnd : Nat) (state : Conversion) :
    Except ConvertError Conversion :=
  (volume.visited lastChunkEnd).foldlM (protectCluster volume) state

/-! ## Which clusters have to move -/

/-- The byte ranges `[from, to)` of two places have a byte in common. -/
def Overlap (start stop start' stop' : Nat) : Prop :=
  start < stop' ∧ start' < stop

instance (start stop start' stop' : Nat) : Decidable (Overlap start stop start' stop') :=
  inferInstanceAs (Decidable (_ ∧ _))

namespace Volume

variable (volume : Volume) (lastChunkEnd : Nat)

/-- A byte of the cluster lies in a range. -/
def Meets (cluster start stop : Nat) : Prop :=
  start < stop ∧
    Overlap (cluster * volume.cluster.bytes) ((cluster + 1) * volume.cluster.bytes)
      start stop

instance (cluster start stop : Nat) : Decidable (volume.Meets cluster start stop) :=
  inferInstanceAs (Decidable (_ ∧ _))

/--
The new filesystem needs the place of the cluster: the first MiB, the stripe of
a later superblock that fits on the device, the incomplete last sector, or the
device past the end of the last chunk.
-/
def MustMove (cluster : Nat) : Prop :=
  volume.Meets cluster 0 reservedArea ∨
    (∃ addr ∈ superblockAddrs.tail, addr + superblockSize ≤ volume.deviceSize ∧
      volume.Meets cluster addr (addr + stripeLength)) ∨
    volume.Meets cluster volume.deviceSize volume.origDeviceSize ∨
    volume.Meets cluster lastChunkEnd volume.deviceSize

theorem mem_numbersFrom {first stop cluster : Nat} :
    cluster ∈ numbersFrom first stop ↔ first ≤ cluster ∧ cluster < stop := by
  rw [numbersFrom, List.mem_range'_1]
  omega

theorem div_le_iff_meets (cluster start : Nat) :
    start / volume.cluster.bytes ≤ cluster ↔
      start < (cluster + 1) * volume.cluster.bytes := by
  rw [← Nat.lt_succ_iff, Nat.div_lt_iff_lt_mul volume.cluster.bytes_pos]

theorem lt_ceil_iff_meets (cluster stop : Nat) :
    cluster < sectorAlign stop volume.cluster.bytes / volume.cluster.bytes ↔
      cluster * volume.cluster.bytes < stop := by
  have positive := volume.cluster.bytes_pos
  rw [sectorAlign, Nat.mul_div_cancel _ positive, Nat.lt_iff_add_one_le,
    Nat.le_div_iff_mul_le positive, Nat.succ_mul]
  omega

theorem mem_stripeClusters_iff
    {addr : Nat} (member : addr ∈ superblockAddrs) (cluster : Nat) :
    cluster ∈ volume.stripeClusters addr ↔
      volume.Meets cluster addr (addr + stripeLength) := by
  have aligned : addr - addr % stripeLength = addr := by
    rw [Nat.mod_eq_zero_of_dvd (stripeLength_dvd_superblockAddr member), Nat.sub_zero]
  have ordered : addr < addr + stripeLength := Nat.lt_add_of_pos_right (by decide)
  rw [stripeClusters, aligned, mem_numbersFrom, div_le_iff_meets, lt_ceil_iff_meets,
    Meets, and_iff_right ordered, Overlap, And.comm]

theorem mem_laterSuperblocks_iff (addr : Nat) :
    addr ∈ volume.laterSuperblocks ↔
      addr ∈ superblockAddrs.tail ∧ addr + superblockSize ≤ volume.deviceSize := by
  have large := volume.reservedArea_le_deviceSize
  have small : superblockSize ≤ reservedArea := by decide
  have ascending : superblockAddrs.tail.Pairwise (· < ·) := by decide
  rw [laterSuperblocks, mem_takeWhile_iff_of_sorted ascending, decide_eq_true_eq]
  · refine and_congr_right fun _ => ?_
    omega
  · intro first second ordered fits
    rw [decide_eq_true_eq] at fits ⊢
    omega

theorem relocLastSector_iff : volume.relocLastSector ↔ volume.deviceSize < volume.origDeviceSize := by
  have bound := Nat.mod_le volume.origDeviceSize sectorSize
  rw [relocLastSector, deviceSize]
  omega

theorem mem_lastCluster_iff
    {cluster : Nat} (onVolume : cluster * volume.cluster.bytes < volume.origDeviceSize) :
    (cluster ∈ if volume.relocLastSector then
        [volume.deviceSize / volume.cluster.bytes] else []) ↔
      volume.Meets cluster volume.deviceSize volume.origDeviceSize := by
  have positive := volume.cluster.bytes_pos
  have start : cluster * volume.cluster.bytes ≤ volume.deviceSize := by
    by_contra past
    have beyond := volume.origDeviceSize_lt_of_lt (Nat.lt_of_not_le past)
    omega
  rw [Meets, ← volume.relocLastSector_iff, Overlap]
  split_ifs with incomplete
  · rw [List.mem_singleton, and_iff_right incomplete, and_iff_right onVolume,
      ← div_le_iff_meets]
    have lower := (Nat.le_div_iff_mul_le positive).mpr start
    omega
  · exact iff_of_false List.not_mem_nil fun both => incomplete both.1

theorem mem_firstClusters_iff (cluster : Nat) :
    cluster ∈ List.range (reservedArea / volume.cluster.bytes) ↔
      volume.Meets cluster 0 reservedArea := by
  have positive := volume.cluster.bytes_pos
  have area : 0 < reservedArea := by decide
  rw [List.mem_range, Nat.lt_div_iff_mul_lt' volume.cluster.bytes_dvd_reservedArea,
    Meets, Overlap, and_iff_right area, Nat.mul_comm]
  refine (and_iff_left ?_).symm
  rw [Nat.succ_mul]
  omega

theorem mem_tailClusters
    {cluster : Nat} (member : cluster ∈ volume.tailClusters lastChunkEnd) :
    lastChunkEnd < volume.deviceSize ∧
      cluster * volume.cluster.bytes ≤ volume.deviceSize ∧
      lastChunkEnd < (cluster + 1) * volume.cluster.bytes := by
  have positive := volume.cluster.bytes_pos
  rw [tailClusters] at member
  by_cases short : lastChunkEnd < volume.deviceSize
  · rw [if_pos short, mem_numbersFrom, div_le_iff_meets] at member
    refine ⟨short, ?_, member.1⟩
    have upper : cluster ≤ volume.deviceSize / volume.cluster.bytes := by
      have bound := member.2
      generalize volume.deviceSize / volume.cluster.bytes = last at bound ⊢
      by_cases incomplete : volume.relocLastSector
      · simp only [if_pos incomplete] at bound
        omega
      · simp only [if_neg incomplete] at bound
        omega
    exact (Nat.le_div_iff_mul_le positive).mp upper
  · rw [if_neg short] at member
    exact absurd member List.not_mem_nil

theorem mem_tailClusters_of
    {cluster : Nat} (short : lastChunkEnd < volume.deviceSize)
    (lower : lastChunkEnd < (cluster + 1) * volume.cluster.bytes)
    (upper : if volume.relocLastSector then
        (cluster + 1) * volume.cluster.bytes ≤ volume.deviceSize
      else cluster * volume.cluster.bytes ≤ volume.deviceSize) :
    cluster ∈ volume.tailClusters lastChunkEnd := by
  have positive := volume.cluster.bytes_pos
  rw [tailClusters, if_pos short, mem_numbersFrom, div_le_iff_meets]
  refine ⟨lower, ?_⟩
  split_ifs at upper ⊢
  · have bound := (Nat.le_div_iff_mul_le positive).mpr upper
    omega
  · have bound := (Nat.le_div_iff_mul_le positive).mpr upper
    omega

/-- The clusters visited, as far as they are on the volume, are those that must move. -/
theorem mem_visited_iff
    {cluster : Nat} (onVolume : cluster * volume.cluster.bytes < volume.origDeviceSize) :
    cluster ∈ volume.visited lastChunkEnd ↔ volume.MustMove lastChunkEnd cluster := by
  have stripes :
      cluster ∈ volume.laterSuperblocks.flatMap volume.stripeClusters ↔
        ∃ addr ∈ superblockAddrs.tail, addr + superblockSize ≤ volume.deviceSize ∧
          volume.Meets cluster addr (addr + stripeLength) := by
    rw [List.mem_flatMap]
    constructor
    · rintro ⟨addr, member, inStripe⟩
      obtain ⟨known, fits⟩ := (volume.mem_laterSuperblocks_iff addr).mp member
      exact ⟨addr, known, fits,
        (volume.mem_stripeClusters_iff (List.mem_of_mem_tail known) cluster).mp inStripe⟩
    · rintro ⟨addr, known, fits, meets⟩
      exact ⟨addr, (volume.mem_laterSuperblocks_iff addr).mpr ⟨known, fits⟩,
        (volume.mem_stripeClusters_iff (List.mem_of_mem_tail known) cluster).mpr meets⟩
  rw [visited, List.mem_append, List.mem_append, List.mem_append, stripes,
    mem_firstClusters_iff, volume.mem_lastCluster_iff onVolume, MustMove]
  constructor
  · rintro (((stripe | first) | last) | inTail)
    · exact Or.inr (Or.inl stripe)
    · exact Or.inl first
    · exact Or.inr (Or.inr (Or.inl last))
    · obtain ⟨short, upper, lower⟩ := volume.mem_tailClusters lastChunkEnd inTail
      rcases Nat.lt_or_eq_of_le upper with before | atEnd
      · exact Or.inr (Or.inr (Or.inr ⟨short, before, lower⟩))
      · refine Or.inr (Or.inr (Or.inl ⟨by omega, onVolume, ?_⟩))
        rw [← atEnd, Nat.succ_mul]
        exact Nat.lt_add_of_pos_right volume.cluster.bytes_pos
  · rintro (first | stripe | last | pastEnd)
    · exact Or.inl (Or.inl (Or.inr first))
    · exact Or.inl (Or.inl (Or.inl stripe))
    · exact Or.inl (Or.inr last)
    · obtain ⟨short, before, lower⟩ := pastEnd
      by_cases incomplete : volume.relocLastSector
      · by_cases whole : (cluster + 1) * volume.cluster.bytes ≤ volume.deviceSize
        · refine Or.inr (volume.mem_tailClusters_of lastChunkEnd short lower ?_)
          rw [if_pos incomplete]
          exact whole
        · exact Or.inl (Or.inr
            ⟨volume.relocLastSector_iff.mp incomplete, onVolume, Nat.lt_of_not_le whole⟩)
      · refine Or.inr (volume.mem_tailClusters_of lastChunkEnd short lower ?_)
        rw [if_neg incomplete]
        exact before.le

end Volume

end Ntfs2Btrfs
