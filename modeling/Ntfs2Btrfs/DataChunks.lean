import Ntfs2Btrfs.BitmapScan
import Ntfs2Btrfs.SpaceList

/-!
# The initial data chunks

`create_data_chunks` cuts the device into regions of 128 MiB.  A region with a
cluster in use becomes a data chunk, whose free list is the complement of the
runs read from the region's slice of the bitmap, without the superblock
stripes and the first MiB.
-/

namespace Ntfs2Btrfs

open Extents
open BitRuns
open ByteStore

/-! ## The code -/

/--
The gaps between runs of used clusters, followed by the space from the last
run to the end of the chunk.
-/
def freeSpaces (base clusterSize chunkLength : Nat) :
    Nat → List Extent → List Space
  | last, [] =>
      if last * clusterSize < chunkLength then
        [⟨base + last * clusterSize, chunkLength - last * clusterSize⟩]
      else []
  | last, run :: rest =>
      if run.offset > last then
        ⟨base + last * clusterSize, (run.offset - last) * clusterSize⟩ ::
          freeSpaces base clusterSize chunkLength run.stop rest
      else
        freeSpaces base clusterSize chunkLength run.stop rest

/-- The part of a region before the first byte that may be handed out. -/
def regionShift (addr : Nat) : Nat :=
  if addr > reservedArea then 0 else reservedArea - addr

/-- The chunk made of a region with the given runs of used clusters. -/
def dataChunk (clusterSize addr chunkLength : Nat) (used : List Extent) :
    Chunk :=
  let shift := regionShift addr
  let chunk : Chunk :=
    { offset := addr + chunkVirtOffset + shift
      length := chunkLength - shift
      diskStart := addr + shift
      type := blockGroupData
      spaceList :=
        freeSpaces (addr + chunkVirtOffset) clusterSize chunkLength 0 used }
  let cut := removeSuperblocks chunk
  if shift ≠ 0 then
    { cut with
      spaceList := spaceListRemove cut.spaceList (addr + chunkVirtOffset) shift }
  else cut

/-- A length without its incomplete last stripe. -/
def stripeFloor (length : Nat) : Nat :=
  length - length % stripeLength

/-- The chunks and the global free list, as the loop over the regions leaves them. -/
structure ChunkTable where
  chunks : List Chunk
  spaceList : List Space
deriving DecidableEq

/-- One turn of the loop, for the slice of the bitmap that it reads. -/
def addRegion
    (clusterSize addr length : Nat) (slice : Bytes) (table : ChunkTable) :
    ChunkTable :=
  let used := parseBitmap slice
  if used = [] then table
  else
    { chunks :=
        table.chunks ++ [dataChunk clusterSize addr (stripeFloor length) used]
      spaceList := spaceListRemove table.spaceList addr (stripeFloor length) }

/-- The loop over the regions, with a bound on the number of turns. -/
def createDataChunksLoop (deviceSize clusterSize : Nat) :
    Nat → Nat → Bytes → ChunkTable → ChunkTable
  | 0, _, _, table => table
  | turns + 1, addr, bitmap, table =>
      if 0 < bitmap.length ∧ addr < deviceSize then
        let length := min (deviceSize - addr) dataChunkSize
        let slice := bitmap.take (length / clusterSize / 8)
        createDataChunksLoop deviceSize clusterSize turns
          (addr + dataChunkSize) (bitmap.drop slice.length)
          (addRegion clusterSize addr length slice table)
      else table

/-- The number of regions of a device. -/
def regionCount (deviceSize : Nat) : Nat :=
  (deviceSize + dataChunkSize - 1) / dataChunkSize

/-- Create the data chunks of a device. -/
def createDataChunks
    (deviceSize : Nat) (cluster : ClusterSize) (bitmap : Bytes)
    (spaceList : List Space) : ChunkTable :=
  createDataChunksLoop deviceSize cluster.bytes (regionCount deviceSize) 0
    bitmap ⟨[], spaceList⟩

/-! ## Regions -/

section Regions

variable (deviceSize : Nat) (cluster : ClusterSize) (bitmap : Bytes)

/-- The first byte of a region. -/
def regionStart (index : Nat) : Nat :=
  index * dataChunkSize

/-- The length of a region; only the last one is incomplete. -/
def regionLength (index : Nat) : Nat :=
  min (deviceSize - regionStart index) dataChunkSize

/-- The bytes of the bitmap that are read for a region. -/
def regionSlice (index : Nat) : Bytes :=
  (bitmap.drop (index * (dataChunkSize / cluster.bytes / 8))).take
    (regionLength deviceSize index / cluster.bytes / 8)

/-- The runs of used clusters found in a region. -/
def regionRuns (index : Nat) : List Extent :=
  parseBitmap (regionSlice deviceSize cluster bitmap index)

/-- What the loop does for a region. -/
def visitRegion (table : ChunkTable) (index : Nat) : ChunkTable :=
  addRegion cluster.bytes (regionStart index) (regionLength deviceSize index)
    (regionSlice deviceSize cluster bitmap index) table

/-- The chunk made of a region. -/
def regionChunk (index : Nat) : Chunk :=
  dataChunk cluster.bytes (regionStart index)
    (stripeFloor (regionLength deviceSize index))
    (regionRuns deviceSize cluster bitmap index)

theorem visitRegion_eq (table : ChunkTable) (index : Nat) :
    visitRegion deviceSize cluster bitmap table index =
      if regionRuns deviceSize cluster bitmap index = [] then table
      else
        { chunks :=
            table.chunks ++ [regionChunk deviceSize cluster bitmap index]
          spaceList :=
            spaceListRemove table.spaceList (regionStart index)
              (stripeFloor (regionLength deviceSize index)) } :=
  rfl

/-- Nothing happens in a region for which no byte of the bitmap is read. -/
theorem regionRuns_of_slice_nil
    {index : Nat} (empty : regionSlice deviceSize cluster bitmap index = []) :
    regionRuns deviceSize cluster bitmap index = [] := by
  rw [regionRuns, empty]
  rfl

theorem foldl_visitRegion_of_nil
    {indices : List Nat}
    (empty : ∀ index ∈ indices,
      regionSlice deviceSize cluster bitmap index = [])
    (table : ChunkTable) :
    indices.foldl (visitRegion deviceSize cluster bitmap) table = table := by
  induction indices with
  | nil => rfl
  | cons index rest induction =>
      have first := regionRuns_of_slice_nil deviceSize cluster bitmap
        (empty index (by simp))
      rw [List.foldl_cons, visitRegion_eq, if_pos first]
      exact induction fun next member => empty next (by simp [member])

/-- No byte of the bitmap is read for a region after the end of the device. -/
theorem regionSlice_of_stop_le
    {index : Nat} (outside : deviceSize ≤ regionStart index) :
    regionSlice deviceSize cluster bitmap index = [] := by
  have empty : regionLength deviceSize index = 0 := by
    rw [regionLength, Nat.sub_eq_zero_of_le outside, Nat.zero_min]
  rw [regionSlice, empty, Nat.zero_div, Nat.zero_div, List.take_zero]

theorem regionSlice_of_drop_nil
    {index later : Nat} (ordered : index ≤ later)
    (empty :
      bitmap.drop (index * (dataChunkSize / cluster.bytes / 8)) = []) :
    regionSlice deviceSize cluster bitmap later = [] := by
  have start := List.drop_eq_nil_iff.mp empty
  have further := Nat.mul_le_mul_right
    (dataChunkSize / cluster.bytes / 8) ordered
  rw [regionSlice, List.drop_eq_nil_iff.mpr (start.trans further),
    List.take_nil]

/-- The loop visits the regions one after the other. -/
theorem createDataChunksLoop_eq (turns index : Nat) (table : ChunkTable) :
    createDataChunksLoop deviceSize cluster.bytes turns (regionStart index)
        (bitmap.drop (index * (dataChunkSize / cluster.bytes / 8))) table =
      (List.range' index turns).foldl
        (visitRegion deviceSize cluster bitmap) table := by
  induction turns generalizing index table with
  | zero => rfl
  | succ turns induction =>
      have nextStart :
          regionStart index + dataChunkSize = regionStart (index + 1) := by
        simp only [regionStart, Nat.succ_mul]
      rw [createDataChunksLoop]
      by_cases continues :
          0 < (bitmap.drop
            (index * (dataChunkSize / cluster.bytes / 8))).length ∧
            regionStart index < deviceSize
      · rw [if_pos continues, List.range'_succ, List.foldl_cons, nextStart]
        show createDataChunksLoop deviceSize cluster.bytes turns
            (regionStart (index + 1)) _
            (visitRegion deviceSize cluster bitmap table index) = _
        by_cases full : regionStart (index + 1) ≤ deviceSize
        · have length : min (deviceSize - regionStart index) dataChunkSize =
              dataChunkSize := by
            omega
          rw [length, List.length_take, List.drop_drop, ← induction]
          congr 1
          rcases Nat.le_total (dataChunkSize / cluster.bytes / 8)
              (bitmap.drop
                (index * (dataChunkSize / cluster.bytes / 8))).length with
            enough | short
          · rw [Nat.min_eq_left enough, Nat.succ_mul]
          · rw [Nat.min_eq_right short]
            rw [List.length_drop] at short ⊢
            rw [List.drop_eq_nil_of_le (by omega),
              List.drop_eq_nil_of_le (by rw [Nat.succ_mul]; omega)]
        · rw [foldl_visitRegion_of_nil]
          · cases turns with
            | zero => rfl
            | succ turns =>
                rw [createDataChunksLoop, if_neg]
                omega
          · intro later member
            apply regionSlice_of_stop_le
            have ordered := (List.mem_range'_1.mp member).1
            have further := Nat.mul_le_mul_right dataChunkSize ordered
            simp only [regionStart] at full further ⊢
            omega
      · rw [if_neg continues, foldl_visitRegion_of_nil]
        intro later member
        have ordered := (List.mem_range'_1.mp member).1
        rcases not_and_or.mp continues with empty | outside
        · apply regionSlice_of_drop_nil deviceSize cluster bitmap ordered
          exact List.length_eq_zero_iff.mp (Nat.eq_zero_of_not_pos empty)
        · apply regionSlice_of_stop_le
          have further := Nat.mul_le_mul_right dataChunkSize ordered
          simp only [regionStart] at outside further ⊢
          omega

theorem createDataChunks_eq (spaceList : List Space) :
    createDataChunks deviceSize cluster bitmap spaceList =
      (List.range (regionCount deviceSize)).foldl
        (visitRegion deviceSize cluster bitmap) ⟨[], spaceList⟩ := by
  have loop := createDataChunksLoop_eq deviceSize cluster bitmap
    (regionCount deviceSize) 0 ⟨[], spaceList⟩
  rw [regionStart, Nat.zero_mul, Nat.zero_mul, List.drop_zero] at loop
  rw [createDataChunks, loop, List.range_eq_range']

theorem mem_chunks_foldl_iff
    (indices : List Nat) (table : ChunkTable) (chunk : Chunk) :
    chunk ∈ (indices.foldl (visitRegion deviceSize cluster bitmap) table).chunks ↔
      chunk ∈ table.chunks ∨
        ∃ index ∈ indices,
          regionRuns deviceSize cluster bitmap index ≠ [] ∧
            chunk = regionChunk deviceSize cluster bitmap index := by
  induction indices generalizing table with
  | nil => simp
  | cons index rest induction =>
      rw [List.foldl_cons, induction, visitRegion_eq]
      by_cases empty : regionRuns deviceSize cluster bitmap index = []
      · simp [empty]
      · simp [empty, or_assoc]

/-- The chunks are those of the regions with a used cluster. -/
theorem mem_createDataChunks_iff (spaceList : List Space) (chunk : Chunk) :
    chunk ∈ (createDataChunks deviceSize cluster bitmap spaceList).chunks ↔
      ∃ index,
        regionRuns deviceSize cluster bitmap index ≠ [] ∧
          chunk = regionChunk deviceSize cluster bitmap index := by
  rw [createDataChunks_eq, mem_chunks_foldl_iff]
  constructor
  · rintro (none | ⟨index, -, found⟩)
    · simp at none
    · exact ⟨index, found⟩
  · rintro ⟨index, used, equal⟩
    refine Or.inr ⟨index, ?_, used, equal⟩
    by_contra outside
    have last : deviceSize ≤ regionStart index := by
      rw [List.mem_range, regionCount, Nat.not_lt] at outside
      simp only [regionStart, dataChunkSize] at outside ⊢
      omega
    exact used
      (regionRuns_of_slice_nil deviceSize cluster bitmap
        (regionSlice_of_stop_le deviceSize cluster bitmap last))

end Regions

/-! ## The free list of a data chunk -/

section FreeSpaces

variable {base clusterSize chunkLength : Nat}

theorem le_offset_of_mem_freeSpaces
    {last : Nat} {used : List Extent}
    (separated : Separated used)
    (after : ∀ run ∈ used, last ≤ run.offset)
    {space : Space}
    (member :
      space ∈ freeSpaces base clusterSize chunkLength last used) :
    base + last * clusterSize ≤ space.offset := by
  induction used generalizing last with
  | nil =>
      rw [freeSpaces] at member
      split_ifs at member with short
      · rw [List.mem_singleton.mp member]
      · simp at member
  | cons run rest induction =>
      obtain ⟨positive, first, restSeparated⟩ :=
        (separated_cons_iff run rest).mp separated
      have start := after run (by simp)
      have later (found :
          space ∈ freeSpaces base clusterSize chunkLength run.stop rest) :
          base + last * clusterSize ≤ space.offset := by
        have bound := induction restSeparated
          (fun next nextMember => (first next nextMember).le) found
        have ordered : last ≤ run.stop :=
          start.trans (Nat.le_add_right _ _)
        have scaled := Nat.mul_le_mul_right clusterSize ordered
        omega
      rw [freeSpaces] at member
      split_ifs at member with gap
      · rcases List.mem_cons.mp member with rfl | tailMember
        · exact le_rfl
        · exact later tailMember
      · exact later member

theorem tidy_freeSpaces
    (clusterPositive : 0 < clusterSize)
    {last : Nat} {used : List Extent}
    (separated : Separated used)
    (after : ∀ run ∈ used, last ≤ run.offset) :
    Tidy (freeSpaces base clusterSize chunkLength last used) := by
  induction used generalizing last with
  | nil =>
      rw [freeSpaces]
      split_ifs with short
      · exact tidy_singleton (Nat.sub_pos_of_lt short)
      · exact tidy_nil
  | cons run rest induction =>
      obtain ⟨positive, first, restSeparated⟩ :=
        (separated_cons_iff run rest).mp separated
      have restAfter : ∀ next ∈ rest, run.stop ≤ next.offset :=
        fun next member => (first next member).le
      rw [freeSpaces]
      split_ifs with gap
      · refine (tidy_cons_iff _ _).mpr ⟨?_, ?_, induction restSeparated restAfter⟩
        · exact Nat.mul_pos (Nat.sub_pos_of_lt gap) clusterPositive
        · intro next member
          have bound := le_offset_of_mem_freeSpaces restSeparated restAfter member
          have ends : last * clusterSize + (run.offset - last) * clusterSize =
              run.offset * clusterSize := by
            rw [← Nat.add_mul, Nat.add_sub_cancel' gap.le]
          have scaled := Nat.mul_le_mul_right clusterSize
            (Nat.le_add_right run.offset run.length)
          simp only [Extent.stop] at bound ⊢
          omega
      · exact induction restSeparated restAfter

/--
A byte is free when its cluster is in no run and when it lies before the end
of the chunk or before the end of a run.
-/
theorem covers_freeSpaces_iff
    (clusterPositive : 0 < clusterSize)
    {last : Nat} {used : List Extent}
    (separated : Separated used)
    (after : ∀ run ∈ used, last ≤ run.offset)
    (relative : Nat) :
    Covers (freeSpaces base clusterSize chunkLength last used)
        (base + relative) ↔
      last ≤ relative / clusterSize ∧
        ¬ Covers used (relative / clusterSize) ∧
        (relative < chunkLength ∨
          ∃ run ∈ used, relative / clusterSize < run.stop) := by
  induction used generalizing last with
  | nil =>
      rw [freeSpaces, Nat.le_div_iff_mul_le clusterPositive]
      split_ifs with short
      · simp only [covers_cons, not_covers_nil, or_false, Extent.contains_mk,
          List.not_mem_nil, false_and, exists_false, not_false_eq_true, true_and]
        omega
      · simp only [not_covers_nil, List.not_mem_nil, false_and, exists_false,
          not_false_eq_true, true_and, or_false, false_iff, not_and]
        omega
  | cons run rest induction =>
      obtain ⟨positive, first, restSeparated⟩ :=
        (separated_cons_iff run rest).mp separated
      have start := after run (by simp)
      have step := induction restSeparated
        (fun next member => (first next member).le)
      have restAfter : Covers rest (relative / clusterSize) →
          run.stop < relative / clusterSize := by
        rintro ⟨next, member, inside⟩
        exact (first next member).trans_le inside.1
      have gapIff (gap : run.offset > last) :
          Extent.Contains
              ⟨base + last * clusterSize, (run.offset - last) * clusterSize⟩
              (base + relative) ↔
            last ≤ relative / clusterSize ∧
              relative / clusterSize < run.offset := by
        have ends : last * clusterSize + (run.offset - last) * clusterSize =
            run.offset * clusterSize := by
          rw [← Nat.add_mul, Nat.add_sub_cancel' gap.le]
        rw [Nat.le_div_iff_mul_le clusterPositive,
          Nat.div_lt_iff_lt_mul clusterPositive, Extent.contains_mk]
        omega
      simp only [covers_cons, List.mem_cons, exists_eq_or_imp, not_or,
        Extent.Contains, Extent.stop] at step restAfter ⊢
      rw [freeSpaces]
      split_ifs with gap
      · rw [covers_cons, gapIff gap]
        simp only [Extent.stop, step]
        constructor
        · rintro (⟨lower, upper⟩ | ⟨beyond, clear, bound⟩)
          · refine ⟨lower, ⟨by omega, ?_⟩, Or.inr (Or.inl (by omega))⟩
            intro covered
            have := restAfter covered
            omega
          · exact ⟨by omega, ⟨by omega, clear⟩, bound.imp_right Or.inr⟩
        · rintro ⟨lower, ⟨outside, clear⟩, bound⟩
          by_cases before : relative / clusterSize < run.offset
          · exact Or.inl ⟨lower, before⟩
          · refine Or.inr ⟨by omega, clear, ?_⟩
            rcases bound with inside | inRun | inRest
            · exact Or.inl inside
            · exact absurd inRun (by omega)
            · exact Or.inr inRest
      · simp only [Extent.stop, step]
        constructor
        · rintro ⟨beyond, clear, bound⟩
          exact ⟨by omega, ⟨by omega, clear⟩, bound.imp_right Or.inr⟩
        · rintro ⟨lower, ⟨outside, clear⟩, bound⟩
          refine ⟨by omega, clear, ?_⟩
          rcases bound with inside | inRun | inRest
          · exact Or.inl inside
          · exact absurd inRun (by omega)
          · exact Or.inr inRest

end FreeSpaces

/-! ## Data chunks -/

section DataChunk

variable (clusterSize addr chunkLength : Nat) (used : List Extent)

@[simp]
theorem dataChunk_offset :
    (dataChunk clusterSize addr chunkLength used).offset =
      addr + chunkVirtOffset + regionShift addr := by
  simp only [dataChunk]
  split_ifs <;> rfl

@[simp]
theorem dataChunk_length :
    (dataChunk clusterSize addr chunkLength used).length =
      chunkLength - regionShift addr := by
  simp only [dataChunk]
  split_ifs <;> rfl

@[simp]
theorem dataChunk_diskStart :
    (dataChunk clusterSize addr chunkLength used).diskStart =
      addr + regionShift addr := by
  simp only [dataChunk]
  split_ifs <;> rfl

@[simp]
theorem dataChunk_type :
    (dataChunk clusterSize addr chunkLength used).type = blockGroupData := by
  simp only [dataChunk]
  split_ifs <;> rfl

theorem dataChunk_placed :
    (dataChunk clusterSize addr chunkLength used).offset =
      (dataChunk clusterSize addr chunkLength used).diskStart +
        chunkVirtOffset := by
  rw [dataChunk_offset, dataChunk_diskStart]
  omega

variable {clusterSize addr chunkLength used}

/-- The free list of a data chunk is tidy, and tells what is free. -/
theorem dataChunk_spec
    (clusterPositive : 0 < clusterSize)
    (separated : Separated used) :
    Tidy (dataChunk clusterSize addr chunkLength used).spaceList ∧
      (∀ space ∈ (dataChunk clusterSize addr chunkLength used).spaceList,
        addr + chunkVirtOffset ≤ space.offset) ∧
      ∀ relative,
        (dataChunk clusterSize addr chunkLength used).Free (addr + relative) ↔
          regionShift addr ≤ relative ∧
            ¬ Covers used (relative / clusterSize) ∧
            (relative < chunkLength ∨
              ∃ run ∈ used, relative / clusterSize < run.stop) ∧
            ¬ (relative < chunkLength ∧ InSuperblockStripe (addr + relative)) := by
  set chunk : Chunk :=
    { offset := addr + chunkVirtOffset + regionShift addr
      length := chunkLength - regionShift addr
      diskStart := addr + regionShift addr
      type := blockGroupData
      spaceList :=
        freeSpaces (addr + chunkVirtOffset) clusterSize chunkLength 0 used }
    with chunkEq
  have placed : chunk.offset = chunk.diskStart + chunkVirtOffset :=
    Nat.add_right_comm _ _ _
  have startTidy : Tidy chunk.spaceList :=
    tidy_freeSpaces clusterPositive separated fun _ _ => Nat.zero_le _
  have cutTidy : Tidy (removeSuperblocks chunk).spaceList :=
    tidy_removeSuperblocks placed startTidy
  have cutLower : ∀ space ∈ (removeSuperblocks chunk).spaceList,
      addr + chunkVirtOffset ≤ space.offset := by
    intro space member
    obtain ⟨old, oldMember, lower, -⟩ := origin_of_mem_removeSuperblocks member
    have bound := le_offset_of_mem_freeSpaces separated
      (fun _ _ => Nat.zero_le _) oldMember
    omega
  have cutFree (relative : Nat) (beyond : regionShift addr ≤ relative) :
      (removeSuperblocks chunk).Free (addr + relative) ↔
        ¬ Covers used (relative / clusterSize) ∧
          (relative < chunkLength ∨
            ∃ run ∈ used, relative / clusterSize < run.stop) ∧
          ¬ (relative < chunkLength ∧ InSuperblockStripe (addr + relative)) := by
    have inside : chunk.diskRange.Contains (addr + relative) ↔
        relative < chunkLength := by
      simp only [chunkEq, Chunk.diskRange, Extent.contains_mk]
      omega
    have start : chunk.Free (addr + relative) ↔
        Covers (freeSpaces (addr + chunkVirtOffset) clusterSize chunkLength 0 used)
          (addr + chunkVirtOffset + relative) := by
      rw [Chunk.Free, Nat.add_right_comm]
    rw [free_removeSuperblocks_iff placed startTidy, inside, start,
      covers_freeSpaces_iff clusterPositive separated fun _ _ => Nat.zero_le _]
    simp only [Nat.zero_le, true_and, and_assoc]
  have chunkIs : dataChunk clusterSize addr chunkLength used =
      if regionShift addr ≠ 0 then
        { removeSuperblocks chunk with
          spaceList :=
            spaceListRemove (removeSuperblocks chunk).spaceList
              (addr + chunkVirtOffset) (regionShift addr) }
      else removeSuperblocks chunk :=
    rfl
  rw [chunkIs]
  split_ifs with shifted
  · refine ⟨tidy_spaceListRemove cutTidy _ _, ?_, ?_⟩
    · intro space member
      obtain ⟨old, oldMember, lower, -⟩ := origin_of_mem_spaceListRemove member
      exact (cutLower old oldMember).trans lower
    · intro relative
      rw [Chunk.Free, covers_spaceListRemove cutTidy]
      constructor
      · rintro ⟨free, outside⟩
        have beyond : regionShift addr ≤ relative := by
          omega
        exact ⟨beyond, (cutFree relative beyond).mp free⟩
      · rintro ⟨beyond, free⟩
        refine ⟨(cutFree relative beyond).mpr free, ?_⟩
        omega
  · have none : regionShift addr = 0 := not_not.mp shifted
    refine ⟨cutTidy, cutLower, ?_⟩
    intro relative
    have beyond : regionShift addr ≤ relative := by
      omega
    rw [cutFree relative beyond]
    simp only [beyond, true_and]

end DataChunk

/-! ## When the free lists are safe -/

/--
Every free range of the chunk lies in the chunk, and none of its bytes belongs
to a used cluster, to the first MiB or to a superblock stripe.
-/
structure Chunk.SpacesSafe
    (chunk : Chunk) (bitmap : Bytes) (cluster : ClusterSize) : Prop where
  inside :
    ∀ space ∈ chunk.spaceList,
      chunk.offset ≤ space.offset ∧
        space.stop ≤ chunk.offset + chunk.length
  unused :
    ∀ address, chunk.Free address →
      ¬ ClusterInUse bitmap (address / cluster.bytes) ∧
        reservedArea ≤ address ∧
        ¬ InSuperblockStripe address

/--
What the bitmap must look like in a region: the loop sees every used cluster
that reaches below the rounded length of the region, and it sees no used
cluster after an unused one that reaches past that length.
-/
structure RegionRead
    (deviceSize : Nat) (cluster : ClusterSize) (bitmap : Bytes)
    (index : Nat) : Prop where
  noticed :
    ∀ relative < stripeFloor (regionLength deviceSize index),
      reservedArea ≤ regionStart index + relative →
      ¬ InSuperblockStripe (regionStart index + relative) →
      ClusterInUse bitmap ((regionStart index + relative) / cluster.bytes) →
      Marked (scannedBits (regionSlice deviceSize cluster bitmap index))
        (relative / cluster.bytes)
  contiguous :
    ∀ marked,
      Marked (scannedBits (regionSlice deviceSize cluster bitmap index)) marked →
      ∀ earlier < marked,
        stripeFloor (regionLength deviceSize index) <
            (earlier + 1) * cluster.bytes →
        Marked (scannedBits (regionSlice deviceSize cluster bitmap index)) earlier

theorem regionRuns_eq
    (deviceSize : Nat) (cluster : ClusterSize) (bitmap : Bytes) (index : Nat) :
    regionRuns deviceSize cluster bitmap index =
      runs (scannedBits (regionSlice deviceSize cluster bitmap index)) :=
  parseBitmap_eq _

theorem regionShift_le (index : Nat) (relative : Nat) :
    regionShift (regionStart index) ≤ relative ↔
      reservedArea ≤ regionStart index + relative := by
  rw [regionShift]
  split_ifs with later <;> omega

/-- The stop of a run lies past a position exactly when a set bit does. -/
theorem exists_run_stop_iff
    (bits : List Bool) {position : Nat} (clear : ¬ Marked bits position) :
    (∃ run ∈ runs bits, position < run.stop) ↔
      ∃ marked, Marked bits marked ∧ position < marked := by
  constructor
  · rintro ⟨run, member, before⟩
    have positive := (runs_separated bits).positive run member
    have last : run.Contains (run.stop - 1) := by
      simp only [Extent.Contains, Extent.stop]
      omega
    have marked := (covers_runs_iff bits (run.stop - 1)).mp ⟨run, member, last⟩
    have different : position ≠ run.stop - 1 := by
      rintro rfl
      exact clear marked
    exact ⟨run.stop - 1, marked, by omega⟩
  · rintro ⟨marked, set, before⟩
    obtain ⟨run, member, inside⟩ := (covers_runs_iff bits marked).mpr set
    exact ⟨run, member, before.trans inside.2⟩

section Safe

variable {deviceSize : Nat} {cluster : ClusterSize} {bitmap : Bytes}

/-- What is free in the chunk of a region, in terms of the bits seen there. -/
theorem free_regionChunk_iff (index relative : Nat) :
    (regionChunk deviceSize cluster bitmap index).Free
        (regionStart index + relative) ↔
      reservedArea ≤ regionStart index + relative ∧
        ¬ Marked (scannedBits (regionSlice deviceSize cluster bitmap index))
          (relative / cluster.bytes) ∧
        (relative < stripeFloor (regionLength deviceSize index) ∨
          ∃ marked,
            Marked (scannedBits (regionSlice deviceSize cluster bitmap index))
              marked ∧ relative / cluster.bytes < marked) ∧
        ¬ (relative < stripeFloor (regionLength deviceSize index) ∧
          InSuperblockStripe (regionStart index + relative)) := by
  have separated := runs_separated
    (scannedBits (regionSlice deviceSize cluster bitmap index))
  rw [regionChunk, regionRuns_eq,
    (dataChunk_spec cluster.bytes_pos separated).2.2, regionShift_le,
    covers_runs_iff]
  refine and_congr_right fun _ => and_congr_right fun clear => ?_
  rw [exists_run_stop_iff _ clear]

theorem regionChunk_tidy (index : Nat) :
    Tidy (regionChunk deviceSize cluster bitmap index).spaceList := by
  rw [regionChunk, regionRuns_eq]
  exact (dataChunk_spec cluster.bytes_pos (runs_separated _)).1

theorem le_offset_of_mem_regionChunk
    {index : Nat} {space : Space}
    (member :
      space ∈ (regionChunk deviceSize cluster bitmap index).spaceList) :
    regionStart index + chunkVirtOffset ≤ space.offset := by
  rw [regionChunk, regionRuns_eq] at member
  exact (dataChunk_spec cluster.bytes_pos (runs_separated _)).2.1 space member

/-- Every byte of a free range of a region's chunk is a byte of the region. -/
theorem free_of_mem_regionChunk
    {index : Nat} {space : Space}
    (member :
      space ∈ (regionChunk deviceSize cluster bitmap index).spaceList)
    {address : Nat} (inside : space.Contains address) :
    ∃ relative,
      address = regionStart index + relative + chunkVirtOffset ∧
        (regionChunk deviceSize cluster bitmap index).Free
          (regionStart index + relative) := by
  have lower := le_offset_of_mem_regionChunk member
  have start := inside.1
  refine ⟨address - (regionStart index + chunkVirtOffset), by omega, ?_⟩
  have equal :
      regionStart index + (address - (regionStart index + chunkVirtOffset)) +
        chunkVirtOffset = address := by
    omega
  rw [Chunk.Free, equal]
  exact ⟨space, member, inside⟩

/-- When the bitmap is read faithfully no byte past the chunk is free. -/
theorem RegionRead.lt_of_free
    {index : Nat} (faithful : RegionRead deviceSize cluster bitmap index)
    {relative : Nat}
    (free :
      (regionChunk deviceSize cluster bitmap index).Free
        (regionStart index + relative)) :
    relative < stripeFloor (regionLength deviceSize index) := by
  obtain ⟨-, clear, bound, -⟩ := (free_regionChunk_iff index relative).mp free
  rcases bound with before | ⟨marked, set, before⟩
  · exact before
  · by_contra beyond
    apply clear
    apply faithful.contiguous marked set _ before
    exact (Nat.not_lt.mp beyond).trans_lt
      (Nat.lt_mul_of_div_lt (Nat.lt_succ_self _) cluster.bytes_pos)

theorem regionChunk_safe_of_read
    {index : Nat}
    (large : regionShift (regionStart index) ≤
      stripeFloor (regionLength deviceSize index))
    (faithful : RegionRead deviceSize cluster bitmap index) :
    (regionChunk deviceSize cluster bitmap index).SpacesSafe bitmap cluster := by
  constructor
  · intro space member
    have positive := (regionChunk_tidy index).positive space member
    have first : space.Contains space.offset :=
      ⟨le_rfl, Nat.lt_add_of_pos_right positive⟩
    have last : space.Contains (space.stop - 1) := by
      simp only [Extent.Contains, Extent.stop]
      omega
    obtain ⟨low, lowEq, lowFree⟩ := free_of_mem_regionChunk member first
    obtain ⟨high, highEq, highFree⟩ := free_of_mem_regionChunk member last
    have lower := ((free_regionChunk_iff index low).mp lowFree).1
    rw [← regionShift_le] at lower
    have upper := faithful.lt_of_free highFree
    rw [regionChunk, dataChunk_offset, dataChunk_length]
    omega
  · intro address free
    obtain ⟨space, member, inside⟩ := free
    obtain ⟨relative, equal, free⟩ := free_of_mem_regionChunk member inside
    have same : address = regionStart index + relative := by
      omega
    rw [same]
    obtain ⟨beyond, clear, -, outside⟩ :=
      (free_regionChunk_iff index relative).mp free
    have before := faithful.lt_of_free free
    have offStripe : ¬ InSuperblockStripe (regionStart index + relative) :=
      fun stripe => outside ⟨before, stripe⟩
    exact
      ⟨fun used => clear (faithful.noticed relative before beyond offStripe used),
        beyond, offStripe⟩

theorem regionRead_of_safe
    {index : Nat}
    (large : regionShift (regionStart index) ≤
      stripeFloor (regionLength deviceSize index))
    (safe :
      (regionChunk deviceSize cluster bitmap index).SpacesSafe bitmap cluster) :
    RegionRead deviceSize cluster bitmap index := by
  constructor
  · intro relative before beyond offStripe used
    by_contra clear
    have free := (free_regionChunk_iff index relative).mpr
      ⟨beyond, clear, Or.inl before, fun both => offStripe both.2⟩
    exact (safe.unused _ free).1 used
  · intro marked set earlier before past
    by_contra clear
    have positive := cluster.bytes_pos
    have last : ((earlier + 1) * cluster.bytes - 1) / cluster.bytes = earlier := by
      apply Nat.div_eq_of_lt_le
      · rw [Nat.succ_mul]
        omega
      · rw [Nat.succ_mul]
        omega
    have outside : ¬ (earlier + 1) * cluster.bytes - 1 <
        stripeFloor (regionLength deviceSize index) := by
      omega
    have free := (free_regionChunk_iff index ((earlier + 1) * cluster.bytes - 1)).mpr
      ⟨(regionShift_le _ _).mp (by omega), by rwa [last],
        Or.inr ⟨marked, set, by rwa [last]⟩, fun both => outside both.1⟩
    obtain ⟨space, member, inside⟩ := free
    have bound := (safe.inside space member).2
    have upper := inside.2
    rw [regionChunk, dataChunk_offset, dataChunk_length] at bound
    omega

end Safe

/-- A region that is visited holds the bytes that its chunk leaves out. -/
theorem regionShift_le_stripeFloor
    {deviceSize : Nat} (large : reservedArea ≤ deviceSize) (index : Nat) :
    regionShift (regionStart index) ≤
      stripeFloor (regionLength deviceSize index) := by
  rw [regionShift]
  split_ifs with later
  · exact Nat.zero_le _
  · simp only [regionStart, reservedArea, dataChunkSize] at later
    have first : index = 0 := by
      omega
    subst first
    simp only [stripeFloor, regionLength, regionStart, stripeLength, reservedArea,
      dataChunkSize] at large ⊢
    omega

/--
The free lists of all chunks are safe exactly when every region in which the
loop sees a used cluster is read faithfully.
-/
theorem createDataChunks_safe_iff
    (cluster : ClusterSize) (deviceSize : Nat) (bitmap : Bytes)
    (spaceList : List Space)
    (large : reservedArea ≤ deviceSize) :
    (∀ chunk ∈ (createDataChunks deviceSize cluster bitmap spaceList).chunks,
        chunk.SpacesSafe bitmap cluster) ↔
      ∀ index,
        (∃ position,
          Marked (scannedBits (regionSlice deviceSize cluster bitmap index))
            position) →
        RegionRead deviceSize cluster bitmap index := by
  have visited (index : Nat) :
      regionRuns deviceSize cluster bitmap index ≠ [] ↔
        ∃ position,
          Marked (scannedBits (regionSlice deviceSize cluster bitmap index))
            position := by
    rw [regionRuns_eq, Ne, runs_eq_nil_iff]
    simp only [not_forall, not_not]
  constructor
  · intro safe index seen
    apply regionRead_of_safe (regionShift_le_stripeFloor large index)
    apply safe
    exact (mem_createDataChunks_iff deviceSize cluster bitmap spaceList _).mpr
      ⟨index, (visited index).mpr seen, rfl⟩
  · intro read chunk member
    obtain ⟨index, used, rfl⟩ :=
      (mem_createDataChunks_iff deviceSize cluster bitmap spaceList chunk).mp member
    exact regionChunk_safe_of_read (regionShift_le_stripeFloor large index)
      (read index ((visited index).mp used))

theorem createDataChunks_safe_iff_one_stripe_clusters :
    reservedArea ≤ 0x180000 ∧
      ((∀ chunk ∈
            (createDataChunks 0x180000 ⟨16, by decide, by decide⟩
              [1, 0, 0, 0, 0, 0, 0, 0] []).chunks,
          chunk.SpacesSafe [1, 0, 0, 0, 0, 0, 0, 0] ⟨16, by decide, by decide⟩) ↔
        ∀ index,
          (∃ position,
            Marked
              (scannedBits
                (regionSlice 0x180000 ⟨16, by decide, by decide⟩
                  [1, 0, 0, 0, 0, 0, 0, 0] index))
              position) →
          RegionRead 0x180000 ⟨16, by decide, by decide⟩
            [1, 0, 0, 0, 0, 0, 0, 0] index) :=
  ⟨by decide,
    createDataChunks_safe_iff ⟨16, by decide, by decide⟩ 0x180000
      [1, 0, 0, 0, 0, 0, 0, 0] [] (by decide)⟩

/--
A device of 24 clusters of 64 KiB whose clusters 0 and 16 to 23 are in use:
the second byte of the bitmap advances the position by one instead of eight,
so that clusters 9 to 16 are taken for the used ones and cluster 17 is free.
-/
theorem createDataChunks_frees_used_cluster :
    ¬ ∀ (cluster : ClusterSize) (deviceSize : Nat) (bitmap : Bytes),
      ClusterInUse bitmap 0 → sectorSize ∣ deviceSize →
      reservedArea ≤ deviceSize →
      ∀ chunk ∈ (createDataChunks deviceSize cluster bitmap []).chunks,
        chunk.SpacesSafe bitmap cluster := by
  intro claim
  have safe := claim ⟨16, by decide, by decide⟩ 0x180000
    [1, 0, 0xff, 0, 0, 0, 0, 0] (by decide) (by decide) (by decide)
    (regionChunk 0x180000 ⟨16, by decide, by decide⟩
      [1, 0, 0xff, 0, 0, 0, 0, 0] 0)
    (by decide +kernel)
  have used := (safe.unused 0x110000 (by decide +kernel)).1
  exact used (by decide)

end Ntfs2Btrfs
