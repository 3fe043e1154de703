import Ntfs2Btrfs.ChunkPlacement

/-!
# Chunks and regions

As long as only data chunks are made, every chunk belongs to one region of
128 MiB: `create_data_chunks` makes one for a region in use, and a new chunk is
carved at a multiple of the chunk size.  The free ranges of a chunk stay in its
region, and no region gets a second chunk.
-/

namespace Ntfs2Btrfs

open Extents
open BitRuns
open ByteStore

/-! ## The invariant -/

/-- The chunk is that of a region, with its free ranges in the region. -/
structure Chunk.OnRegion (chunk : Chunk) (index : Nat) : Prop where
  offset : chunk.offset =
    regionStart index + chunkVirtOffset + regionShift (regionStart index)
  length : chunk.length + regionShift (regionStart index) ≤ dataChunkSize
  spaces : ∀ space ∈ chunk.spaceList,
    regionStart index + chunkVirtOffset ≤ space.offset ∧
      space.stop ≤ regionStart (index + 1) + chunkVirtOffset

/-- The free range holds all of a region. -/
def HoldsRegion (space : Space) (index : Nat) : Prop :=
  space.offset ≤ regionStart index ∧ regionStart (index + 1) ≤ space.stop

/-- Every chunk has a region of its own, and room for a chunk is room for a region. -/
structure Allocator.OnRegions (state : Allocator) : Prop where
  regions : ∀ chunk ∈ state.chunks, ∃ index, chunk.OnRegion index
  apart : state.chunks.Pairwise fun left right => left.offset ≠ right.offset
  spaceTidy : Tidy state.spaceList
  grid : ∀ space ∈ state.spaceList, dataChunkSize ≤ space.length →
    dataChunkSize ∣ space.offset ∧ reservedArea ≤ space.offset
  outside : ∀ space ∈ state.spaceList, ∀ chunk ∈ state.chunks, ∀ index,
    chunk.OnRegion index → ¬ HoldsRegion space index

theorem regionShift_zero : regionShift (regionStart 0) = reservedArea := by
  decide

theorem regionShift_succ (index : Nat) : regionShift (regionStart (index + 1)) = 0 := by
  have large : reservedArea < dataChunkSize := by decide
  rw [regionShift, if_pos]
  rw [regionStart_succ]
  omega

theorem regionShift_le_reservedArea (index : Nat) :
    regionShift (regionStart index) ≤ reservedArea := by
  rw [regionShift]
  split_ifs
  · exact Nat.zero_le _
  · exact Nat.sub_le _ _

theorem regionStart_lt_of_lt {index later : Nat} (ordered : index < later) :
    regionStart index + dataChunkSize ≤ regionStart later := by
  rw [← regionStart_succ]
  exact Nat.mul_le_mul_right dataChunkSize ordered

/-- A chunk has one region. -/
theorem Chunk.OnRegion.unique
    {left right : Chunk} {index other : Nat}
    (onIndex : left.OnRegion index) (onOther : right.OnRegion other)
    (same : left.offset = right.offset) : index = other := by
  have first := onIndex.offset
  have second := onOther.offset
  have shift := regionShift_le_reservedArea index
  have otherShift := regionShift_le_reservedArea other
  have large : reservedArea < dataChunkSize := by decide
  rcases Nat.lt_trichotomy index other with before | equal | after
  · have ordered := regionStart_lt_of_lt before
    omega
  · exact equal
  · have ordered := regionStart_lt_of_lt after
    omega

/-- A region of which the start lies in the range of a region is that region. -/
theorem region_eq_of_mem
    {index other address : Nat}
    (lower : regionStart index ≤ address) (upper : address < regionStart (index + 1))
    (otherLower : regionStart other ≤ address)
    (otherUpper : address < regionStart (other + 1)) : index = other := by
  rw [regionStart_succ] at upper otherUpper
  rcases Nat.lt_trichotomy index other with before | equal | after
  · have ordered := regionStart_lt_of_lt before
    omega
  · exact equal
  · have ordered := regionStart_lt_of_lt after
    omega

/-! ## The chunks of `create_data_chunks` -/

theorem length_tailBits_le (set : Bool) (tail : Bytes) :
    (tailBits set tail).length ≤ 8 * tail.length := by
  induction tail generalizing set with
  | nil => exact le_rfl
  | cons byte rest ih =>
    rw [tailBits]
    by_cases same : byte = if set then 0xff else 0
    · rw [if_pos same]
      have bound := ih set
      simp only [List.length_cons]
      omega
    · rw [if_neg same]
      have bound := ih (byte.toNat.testBit 7)
      simp only [List.length_append, length_byteBits, List.length_cons]
      omega

theorem length_scannedBits_le (bitmap : Bytes) :
    (scannedBits bitmap).length ≤ 8 * bitmap.length := by
  have general (set : Bool) :
      (scannedBitsFrom set bitmap).length ≤ 8 * bitmap.length := by
    induction set, bitmap using scannedBitsFrom.induct with
    | case1 set b0 b1 b2 b3 rest ih =>
      rw [scannedBitsFrom]
      simp only [List.length_append, length_bitmapBits, List.length_cons, List.length_nil] at ih ⊢
      omega
    | case2 set tail short =>
      rw [scannedBitsFrom.eq_def]
      split
      · exact absurd rfl (short _ _ _ _ _)
      · exact length_tailBits_le set tail
  exact general false

section Regions

variable {deviceSize : Nat} {cluster : ClusterSize} {bitmap : Bytes}

theorem regionLength_le (index : Nat) : regionLength deviceSize index ≤ dataChunkSize :=
  min_le_right _ _

/-- The clusters that a run of a region covers end in the region. -/
theorem marked_regionSlice_lt
    {index position : Nat}
    (marked : Marked (scannedBits (regionSlice deviceSize cluster bitmap index)) position) :
    (position + 1) * cluster.bytes ≤ regionLength deviceSize index := by
  have size : (regionSlice deviceSize cluster bitmap index).length ≤
      regionLength deviceSize index / cluster.bytes / 8 := by
    rw [regionSlice, List.length_take]
    exact min_le_left _ _
  have bits := length_scannedBits_le (regionSlice deviceSize cluster bitmap index)
  have before := marked.lt_length
  have eighth := Nat.mul_div_le (regionLength deviceSize index / cluster.bytes) 8
  have whole : position + 1 ≤ regionLength deviceSize index / cluster.bytes := by
    generalize regionLength deviceSize index / cluster.bytes = count at *
    omega
  exact (Nat.mul_le_mul_right cluster.bytes whole).trans (Nat.div_mul_le_self _ _)

theorem lt_of_free_regionChunk
    {index relative : Nat}
    (free : (regionChunk deviceSize cluster bitmap index).Free
      (regionStart index + relative)) :
    relative < regionLength deviceSize index := by
  obtain ⟨-, -, bound, -⟩ := (free_regionChunk_iff index relative).mp free
  rcases bound with before | ⟨marked, set, before⟩
  · exact before.trans_le (Nat.sub_le _ _)
  · have last := marked_regionSlice_lt set
    have inside : relative < marked * cluster.bytes :=
      Nat.lt_mul_of_div_lt before cluster.bytes_pos
    rw [Nat.succ_mul] at last
    omega

/-- The chunk that `create_data_chunks` makes of a region. -/
theorem regionChunk_onRegion
    (large : reservedArea ≤ deviceSize) (index : Nat) :
    (regionChunk deviceSize cluster bitmap index).OnRegion index := by
  have size := @regionLength_le deviceSize index
  have floor : stripeFloor (regionLength deviceSize index) ≤
      regionLength deviceSize index := Nat.sub_le _ _
  have shift := regionShift_le_stripeFloor large index
  refine ⟨dataChunk_offset _ _ _ _, ?_, fun space member => ⟨?_, ?_⟩⟩
  · rw [regionChunk, dataChunk_length]
    omega
  · exact le_offset_of_mem_regionChunk member
  · have positive := (regionChunk_tidy index).positive space member
    have last : space.Contains (space.stop - 1) := by
      simp only [Extent.Contains, Extent.stop]
      omega
    obtain ⟨relative, equal, free⟩ := free_of_mem_regionChunk member last
    have bound := lt_of_free_regionChunk free
    have stop : 0 < space.stop := Nat.add_pos_right _ positive
    rw [regionStart_succ]
    omega

/-- What the loop over the regions has established before a region. -/
structure RegionsBefore (deviceSize index : Nat) (table : ChunkTable) : Prop where
  onRegions : table.state.OnRegions
  before : ∀ chunk ∈ table.chunks, ∃ earlier < index, chunk.OnRegion earlier
  stops : ∀ space ∈ table.spaceList, space.stop ≤ deviceSize + reservedArea

/-- What is left of a free range after an incomplete region is too short for a chunk. -/
theorem short_after_region
    {index : Nat} (visited : regionStart index < deviceSize)
    (partly : deviceSize < regionStart (index + 1)) {offset length : Nat}
    (start : regionStart index + stripeFloor (regionLength deviceSize index) ≤ offset)
    (stop : offset + length ≤ deviceSize + reservedArea) :
    length < dataChunkSize := by
  have whole : regionLength deviceSize index = deviceSize - regionStart index := by
    rw [regionStart_succ] at partly
    rw [regionLength]
    exact min_eq_left (by omega)
  have floor := lt_stripeFloor_add (regionLength deviceSize index)
  rw [whole] at floor start
  exact overhang_short visited floor ((Nat.add_le_add_right start length).trans stop)
    (by decide : stripeLength + reservedArea ≤ dataChunkSize)

theorem stripeFloor_of_full
    {index : Nat} (full : regionStart (index + 1) ≤ deviceSize) :
    stripeFloor (regionLength deviceSize index) = dataChunkSize := by
  have whole : regionLength deviceSize index = dataChunkSize := by
    rw [regionStart_succ] at full
    rw [regionLength]
    exact min_eq_right (by omega)
  rw [whole]
  decide

/-- The free ranges after a region was removed still lie on the grid. -/
theorem grid_remove_region
    {index : Nat} (visited : regionStart index < deviceSize) {spaces : List Space}
    (stops : ∀ space ∈ spaces, space.stop ≤ deviceSize + reservedArea)
    {space : Space}
    (member : space ∈ spaceListRemove spaces (regionStart index)
      (stripeFloor (regionLength deviceSize index)))
    (wide : dataChunkSize ≤ space.length)
    (start : space.offset =
      regionStart index + stripeFloor (regionLength deviceSize index)) :
    dataChunkSize ∣ space.offset ∧ reservedArea ≤ space.offset := by
  obtain ⟨old, oldMember, -, upper, -⟩ := origin_of_mem_spaceListRemove member
  by_cases full : regionStart (index + 1) ≤ deviceSize
  · have large : reservedArea ≤ dataChunkSize := by decide
    rw [start, stripeFloor_of_full full, ← regionStart_succ]
    refine ⟨dataChunkSize_dvd_regionStart (index + 1), ?_⟩
    rw [regionStart_succ]
    omega
  · have short := short_after_region visited (Nat.lt_of_not_le full) start.ge
      (upper.trans (stops old oldMember))
    omega

/-- No free range holds a region after it was removed. -/
theorem not_holdsRegion_of_removed
    {index : Nat} (visited : regionStart index < deviceSize) {spaces : List Space}
    (tidy : Tidy spaces) (stops : ∀ space ∈ spaces, space.stop ≤ deviceSize + reservedArea)
    {space : Space}
    (member : space ∈ spaceListRemove spaces (regionStart index)
      (stripeFloor (regionLength deviceSize index))) :
    ¬ HoldsRegion space index := by
  rintro ⟨lower, upper⟩
  obtain ⟨old, oldMember, -, oldUpper, -⟩ := origin_of_mem_spaceListRemove member
  have stop := oldUpper.trans (stops old oldMember)
  have next := regionStart_succ index
  have size : 0 < dataChunkSize := by decide
  have covered : Covers (spaceListRemove spaces (regionStart index)
      (stripeFloor (regionLength deviceSize index))) (regionStart index) :=
    ⟨space, member, lower, by omega⟩
  have outside := ((covers_spaceListRemove tidy _ _ _).mp covered).2
  have empty : stripeFloor (regionLength deviceSize index) = 0 := by
    omega
  have partly : deviceSize < regionStart (index + 1) := by
    by_contra full
    rw [stripeFloor_of_full (Nat.not_lt.mp full)] at empty
    omega
  have short : dataChunkSize < dataChunkSize :=
    short_after_region visited partly (le_of_eq (by rw [empty, Nat.add_zero]))
      (next ▸ upper.trans stop)
  exact lt_irrefl _ short

/-- Visiting a region after the first one keeps what has been established. -/
theorem RegionsBefore.visit
    (large : reservedArea ≤ deviceSize) {index : Nat}
    (visited : regionStart index < deviceSize) {table : ChunkTable}
    (established : RegionsBefore deviceSize index table) :
    RegionsBefore deviceSize (index + 1)
      (visitRegion deviceSize cluster bitmap table index) := by
  obtain ⟨⟨regions, apart, tidy, grid, outside⟩, before, stops⟩ := established
  have later (chunk : Chunk) (member : chunk ∈ table.chunks) :
      ∃ earlier < index + 1, chunk.OnRegion earlier := by
    obtain ⟨earlier, ordered, onRegion⟩ := before chunk member
    exact ⟨earlier, ordered.trans (Nat.lt_succ_self index), onRegion⟩
  have new := @regionChunk_onRegion deviceSize cluster bitmap large index
  rw [visitRegion_eq]
  split_ifs with unused
  · exact ⟨⟨regions, apart, tidy, grid, outside⟩, later, stops⟩
  · refine ⟨⟨?_, ?_, tidy_spaceListRemove tidy _ _, ?_, ?_⟩, ?_, ?_⟩
    · intro chunk member
      rcases List.mem_append.mp member with old | isNew
      · exact regions chunk old
      · rw [List.mem_singleton.mp isNew]
        exact ⟨index, new⟩
    · refine List.pairwise_append.mpr ⟨apart, List.pairwise_singleton _ _, ?_⟩
      intro left leftMember right rightMember same
      rw [List.mem_singleton.mp rightMember] at same
      obtain ⟨earlier, ordered, onRegion⟩ := before left leftMember
      have equal := onRegion.unique new same
      omega
    · intro space member wide
      obtain ⟨old, oldMember, lower, upper, start, -⟩ :=
        origin_of_mem_spaceListRemove member
      rcases start with equal | equal
      · rw [equal]
        refine grid old oldMember ?_
        simp only [Extent.stop] at upper
        omega
      · exact grid_remove_region visited stops member wide equal
    · intro space member chunk chunkMember other onRegion holds
      rcases List.mem_append.mp chunkMember with old | isNew
      · obtain ⟨source, sourceMember, lower, upper, -⟩ :=
          origin_of_mem_spaceListRemove member
        exact outside source sourceMember chunk old other onRegion
          ⟨lower.trans holds.1, holds.2.trans upper⟩
      · rw [List.mem_singleton.mp isNew] at onRegion
        rw [onRegion.unique new rfl] at holds
        exact not_holdsRegion_of_removed visited tidy stops member holds
    · intro chunk member
      rcases List.mem_append.mp member with old | isNew
      · exact later chunk old
      · rw [List.mem_singleton.mp isNew]
        exact ⟨index, Nat.lt_succ_self index, new⟩
    · intro space member
      obtain ⟨old, oldMember, -, upper, -⟩ := origin_of_mem_spaceListRemove member
      exact upper.trans (stops old oldMember)

/-- The first region leaves free space after it only. -/
theorem regionsBefore_one
    (large : reservedArea ≤ deviceSize)
    (used : regionRuns deviceSize cluster bitmap 0 ≠ []) :
    RegionsBefore deviceSize 1
      (visitRegion deviceSize cluster bitmap (ChunkTable.initial deviceSize) 0) := by
  have positive : 0 < deviceSize :=
    Nat.lt_of_lt_of_le (by decide : 0 < reservedArea) large
  have visited : regionStart 0 < deviceSize := by
    rwa [regionStart_zero]
  have startTidy : Tidy (ChunkTable.initial deviceSize).spaceList := tidy_singleton positive
  have stops : ∀ space ∈ (ChunkTable.initial deviceSize).spaceList,
      space.stop ≤ deviceSize + reservedArea := by
    intro space member
    rw [List.mem_singleton.mp member, Extent.stop, Nat.add_comm]
  have new := @regionChunk_onRegion deviceSize cluster bitmap large 0
  have floorBound := regionShift_le_stripeFloor large 0
  rw [regionShift_zero] at floorBound
  rw [visitRegion_eq, if_neg used]
  refine ⟨⟨?_, List.pairwise_singleton _ _, tidy_spaceListRemove startTidy _ _, ?_, ?_⟩, ?_, ?_⟩
  · intro chunk member
    rw [List.mem_singleton.mp member]
    exact ⟨0, new⟩
  · intro space member wide
    have spacePositive := (tidy_spaceListRemove startTidy _ _).positive space member
    obtain ⟨old, oldMember, lower, -, start, -⟩ := origin_of_mem_spaceListRemove member
    rw [List.mem_singleton.mp oldMember] at lower start
    have first : space.Contains space.offset :=
      ⟨le_rfl, Nat.lt_add_of_pos_right spacePositive⟩
    have outside :=
      ((covers_spaceListRemove startTidy _ _ _).mp ⟨space, member, first⟩).2
    refine grid_remove_region visited stops member wide ?_
    rw [regionStart_zero] at start outside ⊢
    simp only at lower start
    omega
  · intro space member chunk chunkMember index onRegion holds
    rw [List.mem_singleton.mp chunkMember] at onRegion
    rw [onRegion.unique new rfl] at holds
    exact not_holdsRegion_of_removed visited startTidy stops member holds
  · intro chunk member
    rw [List.mem_singleton.mp member]
    exact ⟨0, Nat.one_pos, new⟩
  · intro space member
    obtain ⟨old, oldMember, -, upper, -⟩ := origin_of_mem_spaceListRemove member
    exact upper.trans (stops old oldMember)

theorem regionsBefore_foldl
    (large : reservedArea ≤ deviceSize)
    (used : regionRuns deviceSize cluster bitmap 0 ≠ [])
    {index : Nat} (visited : regionStart index < deviceSize) :
    RegionsBefore deviceSize (index + 1)
      ((List.range (index + 1)).foldl (visitRegion deviceSize cluster bitmap)
        (ChunkTable.initial deviceSize)) := by
  induction index with
  | zero =>
    have single : List.range (0 + 1) = [0] := rfl
    rw [single, List.foldl_cons, List.foldl_nil]
    exact regionsBefore_one large used
  | succ index ih =>
    have previous : regionStart index < deviceSize := by
      rw [regionStart_succ] at visited
      omega
    rw [List.range_succ, List.foldl_append, List.foldl_cons, List.foldl_nil]
    exact (ih previous).visit large visited

/-- The chunks and the free list with which the conversion starts. -/
theorem conversionStart_onRegions
    (large : reservedArea ≤ deviceSize) (boot : ClusterInUse bitmap 0) :
    (conversionStart deviceSize cluster bitmap).OnRegions := by
  have positive : 0 < deviceSize :=
    Nat.lt_of_lt_of_le (by decide : 0 < reservedArea) large
  by_cases narrow : deviceSize < 8 * cluster.bytes
  · have small : deviceSize < dataChunkSize :=
      narrow.trans_le
        ((Nat.mul_le_mul_left 8 cluster.bytes_le).trans (by decide))
    rw [conversionStart_narrow narrow]
    refine ⟨fun _ member => absurd member List.not_mem_nil, List.Pairwise.nil,
      tidy_singleton positive, fun space member wide => ?_,
      fun _ _ _ member => absurd member List.not_mem_nil⟩
    rw [List.mem_singleton.mp member] at wide
    exact absurd small (Nat.not_lt.mpr wide)
  · have used := firstRegion_used boot (Nat.not_lt.mp narrow)
    obtain ⟨count, visited, -⟩ := lastRegion_spec positive
    have startEq : conversionStart deviceSize cluster bitmap =
        ((List.range (lastRegion deviceSize + 1)).foldl
          (visitRegion deviceSize cluster bitmap)
          (ChunkTable.initial deviceSize)).state := by
      rw [conversionStart, createDataChunks_eq, count, ChunkTable.initial]
    rw [startEq]
    exact (regionsBefore_foldl large used visited).onRegions

end Regions

/-! ## Allocations of data -/

/-- Every successful allocation that does not change the usage of chunks. -/
theorem allocateData_cases
    {length address : Nat} {state next : Allocator}
    (allocated : allocateData length false state = (.ok address, next)) :
    (∃ before chunk after spaces, state.chunks = before ++ chunk :: after ∧
      takeSpace length chunk.spaceList = some (address, spaces) ∧
      next = { state with chunks := before ++ chunk.take spaces chunk.used :: after }) ∨
    ∃ space ∈ state.spaceList, dataChunkSize ≤ space.length ∧ ∃ spaces,
      takeSpace length (freshChunk space.offset dataChunkSize blockGroupData).spaceList =
          some (address, spaces) ∧
        next =
          { carve state space dataChunkSize blockGroupData with
            chunks :=
              state.chunks ++
                [(freshChunk space.offset dataChunkSize blockGroupData).take spaces 0] } := by
  rw [allocateData] at allocated
  have cases_ := allocateFrom_cases blockGroupData dataChunkSize length
    (fun chunk => if false = true then (chunk.used + length) % wordModulus else chunk.used)
    (if false = true then length else 0) .noDataAddress state
  simp only [Bool.false_eq_true, if_false] at allocated cases_
  rw [allocated] at cases_
  rcases cases_ with ⟨before, chunk, after, spaces, found, shape, -, taken, served⟩ | full |
      ⟨space, member, enough, failed | ⟨spaces, found, taken, served⟩⟩
  · obtain ⟨same, rest⟩ := Prod.mk.inj served
    cases same
    exact Or.inl ⟨before, chunk, after, spaces, shape, taken, rest⟩
  · cases (Prod.mk.inj full).1
  · cases (Prod.mk.inj failed).1
  · obtain ⟨same, rest⟩ := Prod.mk.inj served
    cases same
    exact Or.inr ⟨space, member, enough, spaces, taken, rest⟩

/-- Taking space leaves a chunk in its region, and the space is in the region. -/
theorem Chunk.OnRegion.take
    {chunk : Chunk} {index : Nat} (onRegion : chunk.OnRegion index)
    {length address : Nat} {spaces : List Space}
    (taken : takeSpace length chunk.spaceList = some (address, spaces)) (used : Nat) :
    (chunk.take spaces used).OnRegion index ∧
      regionStart index + chunkVirtOffset ≤ address ∧
      address + length ≤ regionStart (index + 1) + chunkVirtOffset := by
  obtain ⟨⟨space, member, rfl, fits⟩, origins⟩ := takeSpace_spec taken
  obtain ⟨lower, upper⟩ := onRegion.spaces space member
  refine ⟨⟨onRegion.offset, onRegion.length, fun left leftMember => ?_⟩, lower, ?_⟩
  · obtain ⟨old, oldMember, stop, start⟩ := origins left leftMember
    obtain ⟨oldLower, oldUpper⟩ := onRegion.spaces old oldMember
    refine ⟨?_, stop.le.trans oldUpper⟩
    rcases start with equal | ⟨equal, -⟩
    · exact oldLower.trans equal.ge
    · exact oldLower.trans (equal.ge.trans' (Nat.le_add_right _ _))
  · exact (Nat.add_le_add_left fits space.offset).trans upper

/-- Room for a chunk starts at a region after the first. -/
theorem exists_region_of_grid
    {offset : Nat} (aligned : dataChunkSize ∣ offset) (lower : reservedArea ≤ offset) :
    ∃ index, offset = regionStart (index + 1) := by
  obtain ⟨quotient, rfl⟩ := aligned
  cases quotient with
  | zero => exact absurd lower (by decide)
  | succ index => exact ⟨index, Nat.mul_comm _ _⟩

theorem freshChunk_onRegion (index : Nat) :
    (freshChunk (regionStart (index + 1)) dataChunkSize blockGroupData).OnRegion
      (index + 1) := by
  refine ⟨?_, ?_, fun space member => ?_⟩
  · rw [freshChunk_offset, regionShift_succ]
    exact (Nat.add_zero _).symm
  · rw [freshChunk_length, regionShift_succ, Nat.add_zero]
  · obtain ⟨old, oldMember, lower, upper⟩ := origin_of_mem_removeSuperblocks member
    rw [List.mem_singleton.mp oldMember] at lower upper
    rw [regionStart_succ (index + 1)]
    simp only [Extent.stop_mk] at lower upper
    exact ⟨lower, by omega⟩

namespace Allocator.OnRegions

variable {state : Allocator} (onRegions : state.OnRegions)

include onRegions

/-- Serving a request from a chunk leaves every chunk in its region. -/
theorem take
    {before after : List Chunk} {chunk : Chunk} {length address : Nat} {spaces : List Space}
    (shape : state.chunks = before ++ chunk :: after)
    (taken : takeSpace length chunk.spaceList = some (address, spaces)) (used : Nat) :
    Allocator.OnRegions
      { state with chunks := before ++ chunk.take spaces used :: after } := by
  obtain ⟨regions, apart, tidy, grid, outside⟩ := onRegions
  rw [shape] at regions apart outside
  obtain ⟨index, onIndex⟩ := regions chunk (by simp)
  refine ⟨fun other member => ?_, ?_, tidy, grid,
    fun space member other otherMember number onRegion => ?_⟩
  · rcases List.mem_append.mp member with old | rest
    · exact regions other (by simp [old])
    · rcases List.mem_cons.mp rest with rfl | old
      · exact ⟨index, (onIndex.take taken used).1⟩
      · exact regions other (by simp [old])
  · rw [List.pairwise_append, List.pairwise_cons] at apart ⊢
    obtain ⟨first, ⟨second, third⟩, cross⟩ := apart
    refine ⟨first, ⟨second, third⟩, fun left leftMember right rightMember => ?_⟩
    rcases List.mem_cons.mp rightMember with rfl | old
    · exact cross left leftMember chunk (by simp)
    · exact cross left leftMember right (by simp [old])
  · rcases List.mem_append.mp otherMember with old | rest
    · exact outside space member other (by simp [old]) number onRegion
    · rcases List.mem_cons.mp rest with rfl | old
      · rw [← onIndex.unique onRegion rfl]
        exact outside space member chunk (by simp) index onIndex
      · exact outside space member other (by simp [old]) number onRegion

/-- No chunk has the region of which a free range holds all. -/
theorem not_onRegion_of_holds
    {space : Space} (member : space ∈ state.spaceList) {index : Nat}
    (holds : HoldsRegion space index) {chunk : Chunk} (chunkMember : chunk ∈ state.chunks) :
    ¬ chunk.OnRegion index :=
  fun onRegion => onRegions.outside space member chunk chunkMember index onRegion holds

/-- A new chunk gets a region that has none, and that is free. -/
theorem carve
    {space : Space} (member : space ∈ state.spaceList)
    (enough : dataChunkSize ≤ space.length) :
    ∃ index, space.offset = regionStart (index + 1) ∧ HoldsRegion space (index + 1) ∧
      (Ntfs2Btrfs.carve state space dataChunkSize blockGroupData).OnRegions := by
  obtain ⟨aligned, lower⟩ := onRegions.grid space member enough
  obtain ⟨index, start⟩ := exists_region_of_grid aligned lower
  have holds : HoldsRegion space (index + 1) := by
    refine ⟨start.le, ?_⟩
    rw [regionStart_succ (index + 1), ← start]
    exact Nat.add_le_add_left enough _
  have new := freshChunk_onRegion index
  rw [← start] at new
  have removed := covers_spaceListRemove onRegions.spaceTidy space.offset dataChunkSize
  refine ⟨index, start, holds, fun chunk chunkMember => ?_, ?_,
    tidy_spaceListRemove onRegions.spaceTidy _ _, fun left leftMember wide => ?_,
    fun left leftMember chunk chunkMember other onRegion leftHolds => ?_⟩
  · rcases List.mem_append.mp chunkMember with old | isNew
    · exact onRegions.regions chunk old
    · rw [List.mem_singleton.mp isNew]
      exact ⟨index + 1, new⟩
  · refine List.pairwise_append.mpr
      ⟨onRegions.apart, List.pairwise_singleton _ _, fun left leftMember right isNew same => ?_⟩
    rw [List.mem_singleton.mp isNew] at same
    obtain ⟨other, onOther⟩ := onRegions.regions left leftMember
    rw [onOther.unique new same] at onOther
    exact onRegions.not_onRegion_of_holds member holds leftMember onOther
  · obtain ⟨old, oldMember, -, upper, first, -⟩ := origin_of_mem_spaceListRemove leftMember
    rcases first with equal | equal
    · rw [equal]
      refine onRegions.grid old oldMember ?_
      simp only [Extent.stop] at upper
      omega
    · rw [equal]
      exact ⟨aligned.add (dvd_refl _), lower.trans (Nat.le_add_right _ _)⟩
  · rcases List.mem_append.mp chunkMember with old | isNew
    · obtain ⟨source, sourceMember, sourceLower, sourceUpper, -⟩ :=
        origin_of_mem_spaceListRemove leftMember
      exact onRegions.outside source sourceMember chunk old other onRegion
        ⟨sourceLower.trans leftHolds.1, leftHolds.2.trans sourceUpper⟩
    · rw [List.mem_singleton.mp isNew] at onRegion
      rw [onRegion.unique new rfl] at leftHolds
      have size : 0 < dataChunkSize := by decide
      have next := regionStart_succ (index + 1)
      obtain ⟨leftLower, leftUpper⟩ := leftHolds
      have covered : Covers (spaceListRemove state.spaceList space.offset dataChunkSize)
          space.offset := ⟨left, leftMember, by omega, by omega⟩
      have outside := ((removed space.offset).mp covered).2
      omega

end Allocator.OnRegions

end Ntfs2Btrfs
