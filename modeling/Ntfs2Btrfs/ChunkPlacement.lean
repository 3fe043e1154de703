import Ntfs2Btrfs.AllocatorRuns
import Ntfs2Btrfs.DataChunks

/-!
# Where chunks lie on the device

The conversion starts the global free list as one range from the first MiB
whose *length* is the device size, so it ends one MiB past the device.  This
module follows that overhang through `create_data_chunks` and through every
later allocation: chunks never overlap, and they stay on the device unless a
chunk boundary can fall into the overhang.
-/

namespace Ntfs2Btrfs

open Extents
open BitRuns
open ByteStore

/-- The allocator state that starts with the given chunks and free list. -/
def ChunkTable.state (table : ChunkTable) : Allocator :=
  { chunks := table.chunks, spaceList := table.spaceList }

/-- The allocator state that `convert` starts from. -/
def conversionStart
    (deviceSize : Nat) (cluster : ClusterSize) (bitmap : Bytes) : Allocator :=
  (createDataChunks deviceSize cluster bitmap [⟨reservedArea, deviceSize⟩]).state

/-- The disk ranges of two chunks have no byte in common. -/
def Chunk.Apart (left right : Chunk) : Prop :=
  ∀ address, left.diskRange.Contains address →
    ¬ right.diskRange.Contains address

/-- The disk range of a chunk lies between the first MiB and the end of the device. -/
def Chunk.OnDevice (chunk : Chunk) (deviceSize : Nat) : Prop :=
  reservedArea ≤ chunk.diskStart ∧
    chunk.diskStart + chunk.length ≤ deviceSize

/--
A free range from which a chunk can be carved starts at a multiple of the
smallest chunk size, and ends at the limit or earlier.
-/
structure Roomy (limit : Nat) (space : Space) : Prop where
  lower : reservedArea ≤ space.offset
  carvable :
    systemChunkSize ≤ space.length →
      systemChunkSize ∣ space.offset ∧ space.stop ≤ limit

/-- The chunks are on the device and apart, from each other and from free space. -/
structure Allocator.Placed
    (state : Allocator) (deviceSize limit : Nat) : Prop where
  onDevice : ∀ chunk ∈ state.chunks, chunk.OnDevice deviceSize
  apart : state.chunks.Pairwise Chunk.Apart
  spaceTidy : Tidy state.spaceList
  spaceApart :
    ∀ address, Covers state.spaceList address →
      ∀ chunk ∈ state.chunks, ¬ chunk.diskRange.Contains address
  roomy : ∀ space ∈ state.spaceList, Roomy limit space

/-! ## Later allocations -/

/-- Removing a range with aligned ends keeps the rest roomy. -/
theorem roomy_spaceListRemove
    {limit : Nat} {spaces : List Space}
    (roomy : ∀ space ∈ spaces, Roomy limit space)
    {offset length : Nat}
    (aligned : systemChunkSize ∣ offset + length) :
    ∀ space ∈ spaceListRemove spaces offset length, Roomy limit space := by
  intro space member
  obtain ⟨old, oldMember, lower, upper, start, -⟩ :=
    origin_of_mem_spaceListRemove member
  have oldRoomy := roomy old oldMember
  refine ⟨oldRoomy.lower.trans lower, fun large => ?_⟩
  have oldLarge : systemChunkSize ≤ old.length := by
    simp only [Extent.stop] at upper
    omega
  obtain ⟨oldAligned, oldStop⟩ := oldRoomy.carvable oldLarge
  refine ⟨?_, upper.trans oldStop⟩
  rcases start with equal | equal
  · rwa [equal]
  · rwa [equal]

section Placed

variable {deviceSize limit : Nat}

/-- Serving a request from a chunk does not move chunks. -/
theorem Allocator.Placed.take
    {state : Allocator} (placed : state.Placed deviceSize limit)
    {before after : List Chunk} {chunk : Chunk} (spaces : List Space)
    (used : Nat)
    (shape : state.chunks = before ++ chunk :: after) :
    Allocator.Placed
      { state with chunks := before ++ chunk.take spaces used :: after }
      deviceSize limit := by
  obtain ⟨onDevice, apart, spaceTidy, spaceApart, roomy⟩ := placed
  rw [shape] at onDevice apart spaceApart
  refine ⟨?_, ?_, spaceTidy, ?_, roomy⟩
  · intro other member
    rcases List.mem_append.mp member with old | later
    · exact onDevice other (by simp [old])
    · rcases List.mem_cons.mp later with rfl | old
      · exact onDevice chunk (by simp)
      · exact onDevice other (by simp [old])
  · rw [List.pairwise_append, List.pairwise_cons] at apart ⊢
    obtain ⟨first, ⟨second, third⟩, cross⟩ := apart
    refine ⟨first, ⟨second, third⟩, ?_⟩
    intro left leftMember right rightMember
    rcases List.mem_cons.mp rightMember with rfl | old
    · exact cross left leftMember chunk (by simp)
    · exact cross left leftMember right (by simp [old])
  · intro address covered other member
    rcases List.mem_append.mp member with old | later
    · exact spaceApart address covered other (by simp [old])
    · rcases List.mem_cons.mp later with rfl | old
      · exact spaceApart address covered chunk (by simp)
      · exact spaceApart address covered other (by simp [old])

/-- A chunk carved out of free space stays on the device and off the others. -/
theorem Allocator.Placed.carve
    {state : Allocator} (placed : state.Placed deviceSize limit)
    (fits : ∀ stop, systemChunkSize ∣ stop → stop ≤ limit → stop ≤ deviceSize)
    {chunkSize : Nat} (aligned : systemChunkSize ∣ chunkSize)
    (positive : 0 < chunkSize)
    {space : Space} (member : space ∈ state.spaceList)
    (enough : chunkSize ≤ space.length) (type : Nat) :
    (carve state space chunkSize type).Placed deviceSize limit := by
  have roomy := placed.roomy space member
  have large : systemChunkSize ≤ space.length :=
    (Nat.le_of_dvd positive aligned).trans enough
  obtain ⟨startAligned, stopBound⟩ := roomy.carvable large
  have stopAligned := startAligned.add aligned
  have inSpace (address : Nat)
      (inside :
        (freshChunk space.offset chunkSize type).diskRange.Contains address) :
      Covers state.spaceList address := by
    refine ⟨space, member, inside.1, inside.2.trans_le ?_⟩
    exact Nat.add_le_add_left enough _
  refine ⟨?_, ?_, tidy_spaceListRemove placed.spaceTidy _ _, ?_,
    roomy_spaceListRemove placed.roomy stopAligned⟩
  · intro chunk chunkMember
    rcases List.mem_append.mp chunkMember with old | new
    · exact placed.onDevice chunk old
    · rw [List.mem_singleton.mp new]
      refine ⟨roomy.lower, fits _ stopAligned ?_⟩
      simp only [freshChunk_diskStart, freshChunk_length, Extent.stop] at stopBound ⊢
      omega
  · refine List.pairwise_append.mpr
      ⟨placed.apart, List.pairwise_singleton _ _, ?_⟩
    intro left leftMember right rightMember address inLeft inRight
    rw [List.mem_singleton.mp rightMember] at inRight
    exact placed.spaceApart address (inSpace address inRight) left leftMember inLeft
  · intro address covered chunk chunkMember inside
    obtain ⟨old, outside⟩ :=
      (covers_spaceListRemove placed.spaceTidy _ _ _).mp covered
    rcases List.mem_append.mp chunkMember with oldChunk | new
    · exact placed.spaceApart address old chunk oldChunk inside
    · rw [List.mem_singleton.mp new] at inside
      exact outside inside

theorem allocateFrom_placed
    {state : Allocator} (placed : state.Placed deviceSize limit)
    (fits : ∀ stop, systemChunkSize ∣ stop → stop ≤ limit → stop ≤ deviceSize)
    {chunkSize : Nat} (aligned : systemChunkSize ∣ chunkSize)
    (positive : 0 < chunkSize)
    (type length : Nat) (usedOld : Chunk → Nat) (usedNew : Nat)
    (noAddress : ConvertError) :
    (allocateFrom type chunkSize length usedOld usedNew noAddress
      state).2.Placed deviceSize limit := by
  rcases allocateFrom_cases type chunkSize length usedOld usedNew noAddress state
    with ⟨before, chunk, after, spaces, address, shape, -, -, served⟩ | full |
      ⟨space, member, enough, carved⟩
  · rw [served]
    exact placed.take spaces (usedOld chunk) shape
  · rw [full]
    exact ⟨placed.onDevice, placed.apart, placed.spaceTidy, placed.spaceApart,
      placed.roomy⟩
  · have next := placed.carve fits aligned positive member enough type
    rcases carved with failed | ⟨spaces, address, -, served⟩
    · rw [failed]
      exact next
    · rw [served]
      have shape :
          (Ntfs2Btrfs.carve state space chunkSize type).chunks =
            state.chunks ++ freshChunk space.offset chunkSize type :: [] :=
        rfl
      exact next.take spaces usedNew shape

theorem AllocateCall.perform_placed
    (call : AllocateCall)
    {state : Allocator} (placed : state.Placed deviceSize limit)
    (fits : ∀ stop, systemChunkSize ∣ stop → stop ≤ limit → stop ≤ deviceSize) :
    (call.perform state).2.Placed deviceSize limit := by
  cases call with
  | data length changeUsed =>
      have sizeAligned : systemChunkSize ∣ dataChunkSize := by
        decide
      have sizePositive : 0 < dataChunkSize := by
        decide
      rw [AllocateCall.perform, allocateData]
      exact allocateFrom_placed placed fits sizeAligned sizePositive _ _ _ _ _
  | metadata root level =>
      have sizeAligned : systemChunkSize ∣ metadataChunkSize root := by
        rcases metadataChunkSize_cases root with size | size
        · rw [size]
        · rw [size]
          decide
      have next := allocateFrom_placed placed fits sizeAligned
        (metadataChunkSize_pos root) (metadataType root) treeSize
        (fun chunk => (chunk.used + treeSize) % wordModulus) treeSize
        .noMetadataAddress
      simp only [AllocateCall.perform, allocateMetadata]
      split
      · rename_i outcome
        rw [outcome] at next
        exact next
      · rename_i outcome
        rw [outcome] at next
        split
        · exact next
        · exact ⟨next.onDevice, next.apart, next.spaceTidy, next.spaceApart,
            next.roomy⟩

theorem runCalls_placed
    {state : Allocator} (placed : state.Placed deviceSize limit)
    (fits : ∀ stop, systemChunkSize ∣ stop → stop ≤ limit → stop ≤ deviceSize)
    (calls : List AllocateCall) :
    (runCalls calls state).2.Placed deviceSize limit := by
  induction calls generalizing state with
  | nil => exact placed
  | cons call rest induction => exact induction (call.perform_placed placed fits)

end Placed

/-! ## The state after `create_data_chunks` -/

section Regions

variable {deviceSize : Nat} {cluster : ClusterSize} {bitmap : Bytes}

/-- The chunk of a region, as a part of the region. -/
theorem regionChunk_range
    (cluster : ClusterSize) (bitmap : Bytes)
    (large : reservedArea ≤ deviceSize)
    {index : Nat} (visited : regionStart index < deviceSize) :
    (regionChunk deviceSize cluster bitmap index).OnDevice deviceSize ∧
      ∀ address,
        (regionChunk deviceSize cluster bitmap index).diskRange.Contains address →
          regionStart index ≤ address ∧
            address <
              regionStart index + stripeFloor (regionLength deviceSize index) := by
  have shift := regionShift_le_stripeFloor large index
  have start := (regionShift_le index (regionShift (regionStart index))).mp le_rfl
  have floor : stripeFloor (regionLength deviceSize index) ≤
      deviceSize - regionStart index :=
    (Nat.sub_le _ _).trans (min_le_left _ _)
  constructor
  · simp only [Chunk.OnDevice, regionChunk, dataChunk_diskStart, dataChunk_length]
    omega
  · intro address inside
    simp only [Chunk.diskRange, regionChunk, dataChunk_diskStart,
      dataChunk_length, Extent.contains_mk] at inside
    omega

/-- What the loop over the regions has established before a region. -/
structure BeforeRegion
    (deviceSize index : Nat) (table : ChunkTable) : Prop where
  placed : table.state.Placed deviceSize (deviceSize + reservedArea)
  before :
    ∀ chunk ∈ table.chunks, ∀ address, chunk.diskRange.Contains address →
      address < regionStart index

theorem regionStart_succ (index : Nat) :
    regionStart (index + 1) = regionStart index + dataChunkSize :=
  Nat.succ_mul _ _

theorem dataChunkSize_dvd_regionStart (index : Nat) :
    dataChunkSize ∣ regionStart index :=
  Nat.dvd_mul_left _ _

theorem lt_stripeFloor_add (length : Nat) :
    length < stripeFloor length + stripeLength := by
  have rounding := Nat.mod_lt length (by decide : 0 < stripeLength)
  rw [stripeFloor]
  omega

/-- What follows the last region is shorter than a stripe and the overhang. -/
theorem overhang_short
    {device start floor stripe overhang size length : Nat}
    (inside : start < device)
    (rounded : device - start < floor + stripe)
    (bounded : start + floor + length ≤ device + overhang)
    (small : stripe + overhang ≤ size) :
    length < size := by
  omega

/-- Removing a used region leaves roomy spaces and, at the end, too little for a chunk. -/
theorem roomy_remove_region
    {spaces : List Space}
    (roomy : ∀ space ∈ spaces, Roomy (deviceSize + reservedArea) space)
    {index : Nat} (visited : regionStart index < deviceSize) :
    ∀ space ∈ spaceListRemove spaces (regionStart index)
        (stripeFloor (regionLength deviceSize index)),
      Roomy (deviceSize + reservedArea) space := by
  by_cases full : regionStart index + dataChunkSize ≤ deviceSize
  · have length : stripeFloor (regionLength deviceSize index) = dataChunkSize := by
      have whole : regionLength deviceSize index = dataChunkSize := by
        rw [regionLength]
        exact min_eq_right (by omega)
      rw [whole]
      decide
    have sizeAligned : systemChunkSize ∣ dataChunkSize := by
      decide
    have startAligned : systemChunkSize ∣ regionStart index :=
      sizeAligned.trans (dataChunkSize_dvd_regionStart index)
    rw [length]
    exact roomy_spaceListRemove roomy (startAligned.add sizeAligned)
  · have whole : regionLength deviceSize index =
        deviceSize - regionStart index := by
      rw [regionLength]
      exact min_eq_left (by omega)
    intro space member
    obtain ⟨old, oldMember, lower, upper, start, -⟩ :=
      origin_of_mem_spaceListRemove member
    have oldRoomy := roomy old oldMember
    refine ⟨oldRoomy.lower.trans lower, fun wide => ?_⟩
    have oldWide : systemChunkSize ≤ old.length := by
      simp only [Extent.stop] at upper
      omega
    obtain ⟨oldAligned, oldStop⟩ := oldRoomy.carvable oldWide
    refine ⟨?_, upper.trans oldStop⟩
    rcases start with equal | equal
    · rwa [equal]
    · have floor := lt_stripeFloor_add (regionLength deviceSize index)
      rw [whole] at floor equal
      have stopBound := upper.trans oldStop
      rw [Extent.stop, equal] at stopBound
      exact absurd wide (Nat.not_le.mpr
        (overhang_short visited floor stopBound (by decide)))

/-- Visiting a region after the first one keeps what has been established. -/
theorem BeforeRegion.visit
    (large : reservedArea ≤ deviceSize)
    {index : Nat} (visited : regionStart index < deviceSize)
    {table : ChunkTable} (established : BeforeRegion deviceSize index table) :
    BeforeRegion deviceSize (index + 1)
      (visitRegion deviceSize cluster bitmap table index) := by
  obtain ⟨placed, before⟩ := established
  have next := regionStart_succ index
  rw [visitRegion_eq]
  split_ifs with unused
  · refine ⟨placed, fun chunk member address inside => ?_⟩
    exact (before chunk member address inside).trans_le (by omega)
  · obtain ⟨onDevice, inRegion⟩ :=
      regionChunk_range cluster bitmap large visited
    have floor : stripeFloor (regionLength deviceSize index) ≤ dataChunkSize :=
      (Nat.sub_le _ _).trans (min_le_right _ _)
    refine ⟨⟨?_, ?_, ?_, ?_, ?_⟩, ?_⟩
    · intro chunk member
      rcases List.mem_append.mp member with old | new
      · exact placed.onDevice chunk old
      · rw [List.mem_singleton.mp new]
        exact onDevice
    · refine List.pairwise_append.mpr
        ⟨placed.apart, List.pairwise_singleton _ _, ?_⟩
      intro left leftMember right rightMember address inLeft inRight
      rw [List.mem_singleton.mp rightMember] at inRight
      have early := before left leftMember address inLeft
      have late := (inRegion address inRight).1
      omega
    · exact tidy_spaceListRemove placed.spaceTidy _ _
    · intro address covered chunk member inside
      obtain ⟨old, outside⟩ :=
        (covers_spaceListRemove placed.spaceTidy _ _ _).mp covered
      rcases List.mem_append.mp member with oldChunk | new
      · exact placed.spaceApart address old chunk oldChunk inside
      · rw [List.mem_singleton.mp new] at inside
        exact outside (inRegion address inside)
    · exact roomy_remove_region placed.roomy visited
    · intro chunk member address inside
      rcases List.mem_append.mp member with old | new
      · exact (before chunk old address inside).trans_le (by omega)
      · rw [List.mem_singleton.mp new] at inside
        have late := (inRegion address inside).2
        omega

theorem regionStart_zero : regionStart 0 = 0 :=
  Nat.zero_mul _

/-- A region is used exactly when a bit of its slice of the bitmap is set. -/
theorem regionRuns_ne_nil_iff (index : Nat) :
    regionRuns deviceSize cluster bitmap index ≠ [] ↔
      ∃ position,
        Marked (bitmapBits (regionSlice deviceSize cluster bitmap index))
          position := by
  rw [regionRuns_eq, Ne, runs_eq_nil_iff, ← exists_marked_scannedBits_iff]
  simp only [not_forall, not_not]

/-- The first region is used when the bitmap is read for eight clusters or more. -/
theorem firstRegion_used
    (boot : ClusterInUse bitmap 0)
    (wide : 8 * cluster.bytes ≤ deviceSize) :
    regionRuns deviceSize cluster bitmap 0 ≠ [] := by
  rw [regionRuns_ne_nil_iff]
  refine ⟨0, ?_⟩
  have chunkWide : 8 * cluster.bytes ≤ dataChunkSize :=
    (Nat.mul_le_mul_left 8 cluster.bytes_le).trans (by decide)
  have length : 8 * cluster.bytes ≤ regionLength deviceSize 0 := by
    rw [regionLength, regionStart_zero]
    exact le_min wide chunkWide
  have bytes : 0 < regionLength deviceSize 0 / cluster.bytes / 8 :=
    Nat.div_pos ((Nat.le_div_iff_mul_le cluster.bytes_pos).mpr length) (by decide)
  obtain ⟨count, countEq⟩ := Nat.exists_eq_succ_of_ne_zero bytes.ne'
  rw [regionSlice, countEq, Nat.zero_mul, List.drop_zero]
  cases bitmap with
  | nil => exact absurd boot.lt_length (by simp)
  | cons byte rest =>
      exact boot

/-- The first range of free space starts after what the first region removes. -/
theorem beforeRegion_one
    (large : reservedArea ≤ deviceSize)
    (used : regionRuns deviceSize cluster bitmap 0 ≠ []) :
    BeforeRegion deviceSize 1
      (visitRegion deviceSize cluster bitmap
        ⟨[], [⟨reservedArea, deviceSize⟩]⟩ 0) := by
  have positive : 0 < deviceSize :=
    Nat.lt_of_lt_of_le (by decide : 0 < reservedArea) large
  have visited : regionStart 0 < deviceSize := by
    rwa [regionStart_zero]
  have startTidy : Tidy [(⟨reservedArea, deviceSize⟩ : Space)] :=
    tidy_singleton positive
  obtain ⟨onDevice, inRegion⟩ :=
    regionChunk_range cluster bitmap large visited
  rw [visitRegion_eq, if_neg used]
  simp only [regionStart_zero, Nat.zero_add] at inRegion ⊢
  refine ⟨⟨?_, ?_, ?_, ?_, ?_⟩, ?_⟩
  · intro chunk member
    rw [List.mem_singleton.mp member]
    exact onDevice
  · exact List.pairwise_singleton _ _
  · exact tidy_spaceListRemove startTidy _ _
  · intro address covered chunk member inside
    rw [List.mem_singleton.mp member] at inside
    have outside := ((covers_spaceListRemove startTidy _ _ _).mp covered).2
    have within := inRegion address inside
    omega
  · intro space member
    have spacePositive :=
      (tidy_spaceListRemove startTidy 0 _).positive space member
    obtain ⟨old, oldMember, lower, upper, start, -⟩ :=
      origin_of_mem_spaceListRemove member
    rw [List.mem_singleton.mp oldMember] at lower upper start
    have first : space.Contains space.offset :=
      ⟨le_rfl, Nat.lt_add_of_pos_right spacePositive⟩
    have outside :=
      ((covers_spaceListRemove startTidy _ _ _).mp ⟨space, member, first⟩).2
    have floorBound :=
      (regionShift_le 0 _).mp (regionShift_le_stripeFloor large 0)
    rw [regionStart_zero, Nat.zero_add] at floorBound
    simp only [Extent.stop_mk] at upper start
    refine ⟨lower, fun wide => ?_⟩
    have startsAt : space.offset = stripeFloor (regionLength deviceSize 0) := by
      omega
    by_cases full : dataChunkSize ≤ deviceSize
    · have length : stripeFloor (regionLength deviceSize 0) = dataChunkSize := by
        rw [regionLength, regionStart_zero, Nat.sub_zero, min_eq_right full]
        decide
      refine ⟨?_, by omega⟩
      rw [startsAt, length]
      decide
    · have whole : regionLength deviceSize 0 = deviceSize := by
        rw [regionLength, regionStart_zero, Nat.sub_zero]
        exact min_eq_left (by omega)
      have floor := lt_stripeFloor_add deviceSize
      rw [whole] at startsAt
      rw [Extent.stop, startsAt, Nat.add_comm reservedArea] at upper
      have short := overhang_short positive
        (by simpa using floor)
        (by simpa only [Nat.zero_add] using upper)
        (by decide : stripeLength + reservedArea ≤ systemChunkSize)
      exact absurd wide (Nat.not_le.mpr short)
  · intro chunk member address inside
    rw [List.mem_singleton.mp member] at inside
    have within := (inRegion address inside).2
    have bound : stripeFloor (regionLength deviceSize 0) ≤ dataChunkSize :=
      (Nat.sub_le _ _).trans (min_le_right _ _)
    rw [regionStart_succ, regionStart_zero]
    omega

/-- The table that the loop starts with. -/
def ChunkTable.initial (deviceSize : Nat) : ChunkTable :=
  ⟨[], [⟨reservedArea, deviceSize⟩]⟩

theorem beforeRegion_foldl
    (large : reservedArea ≤ deviceSize)
    (used : regionRuns deviceSize cluster bitmap 0 ≠ [])
    {index : Nat} (visited : regionStart index < deviceSize) :
    BeforeRegion deviceSize (index + 1)
      ((List.range (index + 1)).foldl (visitRegion deviceSize cluster bitmap)
        (ChunkTable.initial deviceSize)) := by
  induction index with
  | zero =>
      have single : List.range (0 + 1) = [0] := rfl
      rw [single, List.foldl_cons, List.foldl_nil]
      exact beforeRegion_one large used
  | succ index induction =>
      have previous : regionStart index < deviceSize := by
        rw [regionStart_succ] at visited
        omega
      rw [List.range_succ, List.foldl_append, List.foldl_cons, List.foldl_nil]
      exact (induction previous).visit large visited

theorem visitRegion_state_spaceList
    (table : ChunkTable) {index : Nat}
    (used : regionRuns deviceSize cluster bitmap index ≠ []) :
    (visitRegion deviceSize cluster bitmap table index).state.spaceList =
      spaceListRemove table.spaceList (regionStart index)
        (stripeFloor (regionLength deviceSize index)) := by
  rw [visitRegion_eq, if_neg used, ChunkTable.state]

/-- When the last region is used nothing from which a chunk can be carved passes the end. -/
theorem placed_of_lastRegion_used
    {index : Nat} (visited : regionStart index < deviceSize)
    (last : deviceSize ≤ regionStart index + dataChunkSize)
    (wide : regionStart index + stripeLength ≤ deviceSize)
    {state : Allocator} {spaces : List Space} (tidy : Tidy spaces)
    (removed :
      state.spaceList =
        spaceListRemove spaces (regionStart index)
          (stripeFloor (regionLength deviceSize index)))
    (placed : state.Placed deviceSize (deviceSize + reservedArea)) :
    state.Placed deviceSize deviceSize := by
  obtain ⟨onDevice, apart, spaceTidy, spaceApart, roomy⟩ := placed
  refine ⟨onDevice, apart, spaceTidy, spaceApart, fun space member => ?_⟩
  obtain ⟨lower, carvable⟩ := roomy space member
  refine ⟨lower, fun large => ?_⟩
  obtain ⟨aligned, stopBound⟩ := carvable large
  refine ⟨aligned, ?_⟩
  clear aligned
  have whole : regionLength deviceSize index =
      deviceSize - regionStart index := by
    rw [regionLength]
    exact min_eq_left (by omega)
  have floor := lt_stripeFloor_add (regionLength deviceSize index)
  rw [whole] at floor
  have positive := spaceTidy.positive space member
  have outside (address : Nat) (inside : space.Contains address) :
      ¬ (regionStart index ≤ address ∧
        address < regionStart index +
          stripeFloor (deviceSize - regionStart index)) := by
    have covered : Covers state.spaceList address := ⟨space, member, inside⟩
    rw [removed, whole] at covered
    exact ((covers_spaceListRemove tidy _ _ _).mp covered).2
  by_contra past
  by_cases early : space.offset < regionStart index
  · apply outside (regionStart index)
    · exact ⟨early.le, by omega⟩
    · omega
  · by_cases inside : space.offset <
        regionStart index + stripeFloor (deviceSize - regionStart index)
    · apply outside space.offset ⟨le_rfl, Nat.lt_add_of_pos_right positive⟩
      exact ⟨Nat.not_lt.mp early, inside⟩
    · rw [Extent.stop] at stopBound
      have short := overhang_short visited floor
        ((Nat.add_le_add_right (Nat.not_lt.mp inside) space.length).trans stopBound)
        (by decide : stripeLength + reservedArea ≤ systemChunkSize)
      exact absurd large (Nat.not_le.mpr short)

/-- A device with fewer than eight clusters gets no data chunk. -/
theorem conversionStart_narrow
    (narrow : deviceSize < 8 * cluster.bytes) :
    conversionStart deviceSize cluster bitmap =
      (ChunkTable.initial deviceSize).state := by
  have small : deviceSize < dataChunkSize :=
    narrow.trans_le
      ((Nat.mul_le_mul_left 8 cluster.bytes_le).trans (by decide))
  rw [conversionStart, createDataChunks_eq, foldl_visitRegion_of_nil]
  · rfl
  · intro index _
    by_cases first : index = 0
    · have length : regionLength deviceSize 0 = deviceSize := by
        rw [regionLength, regionStart_zero, Nat.sub_zero]
        exact min_eq_left small.le
      have none : deviceSize / cluster.bytes / 8 = 0 := by
        rw [Nat.div_div_eq_div_mul, Nat.mul_comm]
        exact Nat.div_eq_of_lt narrow
      rw [first, regionSlice, length, none, List.take_zero]
    · apply regionSlice_of_stop_le
      have further := Nat.mul_le_mul_right dataChunkSize
        (Nat.one_le_iff_ne_zero.mpr first)
      rw [Nat.one_mul] at further
      exact small.le.trans further

/-- The last region of a device. -/
def lastRegion (deviceSize : Nat) : Nat :=
  regionCount deviceSize - 1

theorem lastRegion_spec (positive : 0 < deviceSize) :
    regionCount deviceSize = lastRegion deviceSize + 1 ∧
      regionStart (lastRegion deviceSize) < deviceSize ∧
      deviceSize ≤ regionStart (lastRegion deviceSize) + dataChunkSize := by
  simp only [lastRegion, regionCount, regionStart, dataChunkSize]
  omega

theorem tidy_foldl_visitRegion
    (indices : List Nat) {table : ChunkTable} (tidy : Tidy table.spaceList) :
    Tidy
      (indices.foldl (visitRegion deviceSize cluster bitmap) table).spaceList := by
  induction indices generalizing table with
  | nil => exact tidy
  | cons index rest induction =>
      rw [List.foldl_cons]
      apply induction
      rw [visitRegion_eq]
      split_ifs with unused
      · exact tidy
      · exact tidy_spaceListRemove tidy _ _

/-- No multiple of a size lies in a short range just before the next multiple. -/
theorem le_of_dvd_of_mod_lt
    {stop device size overhang : Nat}
    (aligned : size ∣ stop)
    (bounded : stop ≤ device + overhang)
    (short : device % size < size - overhang) :
    stop ≤ device := by
  by_contra past
  obtain ⟨count, rfl⟩ := aligned
  have quotient := Nat.div_add_mod device size
  have below : device / size < count := by
    by_contra other
    have scaled := Nat.mul_le_mul_left size (Nat.not_lt.mp other)
    omega
  have scaled := Nat.mul_le_mul_left size (Nat.succ_le_of_lt below)
  rw [Nat.mul_succ] at scaled
  omega

/--
After `create_data_chunks` the chunks and the free space are placed, with a
limit past which no chunk boundary can fall.
-/
theorem conversionStart_placed
    (large : reservedArea ≤ deviceSize)
    (boot : ClusterInUse bitmap 0)
    (condition :
      (∃ position,
        Marked
          (bitmapBits
            (regionSlice deviceSize cluster bitmap (lastRegion deviceSize)))
          position) ∨
        deviceSize % systemChunkSize < systemChunkSize - reservedArea) :
    ∃ limit,
      (conversionStart deviceSize cluster bitmap).Placed deviceSize limit ∧
        ∀ stop, systemChunkSize ∣ stop → stop ≤ limit → stop ≤ deviceSize := by
  have positive : 0 < deviceSize :=
    Nat.lt_of_lt_of_le (by decide : 0 < reservedArea) large
  have startTidy : Tidy (ChunkTable.initial deviceSize).spaceList :=
    tidy_singleton positive
  by_cases narrow : deviceSize < 8 * cluster.bytes
  · have small : deviceSize < systemChunkSize :=
      narrow.trans_le
        ((Nat.mul_le_mul_left 8 cluster.bytes_le).trans (by decide))
    refine ⟨deviceSize, ?_, fun _ _ => id⟩
    rw [conversionStart_narrow narrow]
    refine
      ⟨fun _ member => absurd member List.not_mem_nil, List.Pairwise.nil,
        startTidy, fun _ _ _ member => absurd member List.not_mem_nil, ?_⟩
    intro space member
    rw [List.mem_singleton.mp member]
    exact ⟨le_rfl, fun wide => absurd small (Nat.not_lt.mpr wide)⟩
  · have used := firstRegion_used boot (Nat.not_lt.mp narrow)
    obtain ⟨count, visited, last⟩ := lastRegion_spec positive
    have established := beforeRegion_foldl large used visited
    have startEq : conversionStart deviceSize cluster bitmap =
        ((List.range (lastRegion deviceSize + 1)).foldl
          (visitRegion deviceSize cluster bitmap)
          (ChunkTable.initial deviceSize)).state := by
      rw [conversionStart, createDataChunks_eq, count, ChunkTable.initial]
    rw [startEq]
    by_cases short : deviceSize % systemChunkSize < systemChunkSize - reservedArea
    · exact
        ⟨deviceSize + reservedArea, established.placed,
          fun stop aligned bounded => le_of_dvd_of_mod_lt aligned bounded short⟩
    · have lastUsed := (regionRuns_ne_nil_iff _).mpr (condition.resolve_right short)
      have wide : regionStart (lastRegion deviceSize) + stripeLength ≤ deviceSize := by
        have sizeAligned : systemChunkSize ∣ dataChunkSize := by
          decide
        obtain ⟨quotient, equal⟩ :=
          sizeAligned.trans (dataChunkSize_dvd_regionStart (lastRegion deviceSize))
        have split : deviceSize = systemChunkSize * quotient +
            (deviceSize - regionStart (lastRegion deviceSize)) := by
          omega
        have rest := Nat.mod_le
          (deviceSize - regionStart (lastRegion deviceSize)) systemChunkSize
        rw [split, Nat.mul_add_mod, Nat.not_lt] at short
        have stripe : stripeLength ≤ systemChunkSize - reservedArea := by
          decide
        omega
      have tidy :
          Tidy
            ((List.range (lastRegion deviceSize)).foldl
              (visitRegion deviceSize cluster bitmap)
              (ChunkTable.initial deviceSize)).spaceList :=
        tidy_foldl_visitRegion _ startTidy
      have placed := established.placed
      rw [List.range_succ, List.foldl_append, List.foldl_cons, List.foldl_nil]
        at placed ⊢
      generalize
        (List.range (lastRegion deviceSize)).foldl
          (visitRegion deviceSize cluster bitmap)
          (ChunkTable.initial deviceSize) = table at tidy placed ⊢
      have removed :=
        visitRegion_state_spaceList table lastUsed
      exact
        ⟨deviceSize, placed_of_lastRegion_used visited last wide tidy removed placed,
          fun _ _ => id⟩

end Regions

/--
When a cluster of the last region is in use, or the device does not end in the
last MiB before a multiple of 32 MiB, then in every run of allocations all
chunks lie on the device after its first MiB, and no two of them overlap.
-/
theorem runCalls_chunks_onDevice
    (cluster : ClusterSize) (deviceSize : Nat) (bitmap : Bytes)
    (large : reservedArea ≤ deviceSize)
    (boot : ClusterInUse bitmap 0)
    (condition :
      (∃ position,
        Marked
          (bitmapBits
            (regionSlice deviceSize cluster bitmap (lastRegion deviceSize)))
          position) ∨
        deviceSize % systemChunkSize < systemChunkSize - reservedArea)
    (calls : List AllocateCall) :
    (∀ chunk ∈
        (runCalls calls (conversionStart deviceSize cluster bitmap)).2.chunks,
      chunk.OnDevice deviceSize) ∧
      (runCalls calls
        (conversionStart deviceSize cluster bitmap)).2.chunks.Pairwise
          Chunk.Apart := by
  obtain ⟨limit, placed, fits⟩ := conversionStart_placed large boot condition
  have final := runCalls_placed placed fits calls
  exact ⟨final.onDevice, final.apart⟩

/-- A device of 256 MiB whose only used cluster is the first one. -/
theorem runCalls_chunks_onDevice_256_mebibytes :
    (∀ chunk ∈
        (runCalls [.metadata 1 0, .data 0x1000 true, .metadata 3 0]
          (conversionStart 0x10000000 ⟨20, by decide, by decide⟩
            (1 :: List.replicate 31 0))).2.chunks,
      chunk.OnDevice 0x10000000) ∧
      (runCalls [.metadata 1 0, .data 0x1000 true, .metadata 3 0]
        (conversionStart 0x10000000 ⟨20, by decide, by decide⟩
          (1 :: List.replicate 31 0))).2.chunks.Pairwise Chunk.Apart :=
  runCalls_chunks_onDevice ⟨20, by decide, by decide⟩ 0x10000000
    (1 :: List.replicate 31 0) (by decide) (by decide)
    (Or.inr (by decide)) [.metadata 1 0, .data 0x1000 true, .metadata 3 0]

/--
A device of 255 MiB whose only used cluster is the first one: the first tree
block needs a metadata chunk, and it ends at 256 MiB.
-/
theorem runCalls_chunk_past_device :
    ¬ ∀ (cluster : ClusterSize) (deviceSize : Nat) (bitmap : Bytes),
      ClusterInUse bitmap 0 → sectorSize ∣ deviceSize →
      reservedArea ≤ deviceSize →
      ∀ calls : List AllocateCall,
        (∀ chunk ∈
            (runCalls calls (conversionStart deviceSize cluster bitmap)).2.chunks,
          chunk.OnDevice deviceSize) ∧
          (runCalls calls
            (conversionStart deviceSize cluster bitmap)).2.chunks.Pairwise
              Chunk.Apart := by
  intro claim
  have run := (claim ⟨20, by decide, by decide⟩ 0xff00000
    (1 :: List.replicate 31 0) (by decide) (by decide) (by decide)
    [.metadata 1 0]).1
  have last :
      ((runCalls [.metadata 1 0]
        (conversionStart 0xff00000 ⟨20, by decide, by decide⟩
          (1 :: List.replicate 31 0))).2.chunks.map fun chunk =>
            chunk.diskStart + chunk.length) = [0x8000000, 0x10000000] := by
    decide +kernel
  have bounded : ∀ stop ∈ [0x8000000, 0x10000000], stop ≤ 0xff00000 := by
    rw [← last]
    intro stop member
    obtain ⟨chunk, chunkMember, rfl⟩ := List.mem_map.mp member
    exact (run chunk chunkMember).2
  exact absurd (bounded 0x10000000 (by simp)) (by decide)

end Ntfs2Btrfs
