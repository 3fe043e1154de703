import Ntfs2Btrfs.Bookkeeping
import Ntfs2Btrfs.Crc32c

/-!
# The extent items of the data

`create_data_extent_items` describes every run that holds data by one extent
item, with an inline reference from the image file, from the file that owns the
run, or from both.

The usage of a chunk, which `calc_used_space` repairs after the protected
clusters were subtracted from it, is the total length of the extent items that
start in the chunk.
-/

namespace Ntfs2Btrfs

open ByteStore
open Extents

/-! ## The code -/

/-- `BTRFS_FS_TREE_OBJECTID`. -/
def fsTreeObjectid : Nat := 5

/-- `BTRFS_EXTENT_FLAG_DATA`. -/
def extentFlagData : Nat := 1

/-- The type of an inline reference to a file extent: `EXTENT_DATA_REF`. -/
def extentDataRefType : Nat := 0xB2

/-- A `btrfs_extent_data_ref`. -/
structure ExtentDataRef where
  root : Nat
  objectid : Nat
  offset : Nat
  count : Nat
deriving DecidableEq, Repr

/-- The bytes of a reference. -/
def ExtentDataRef.bytes (ref : ExtentDataRef) : Bytes :=
  le 8 ref.root ++ le 8 ref.objectid ++ le 8 ref.offset ++ le 4 ref.count

/-- A `data_item`. -/
def dataItem (ref : ExtentDataRef) : Bytes :=
  le 8 1 ++ le 8 1 ++ le 8 extentFlagData ++ le 1 extentDataRefType ++ ref.bytes

/-- A `data_item2`. -/
def dataItem2 (first second : ExtentDataRef) : Bytes :=
  le 8 2 ++ le 8 1 ++ le 8 extentFlagData ++ le 1 extentDataRefType ++ first.bytes ++
    le 1 extentDataRefType ++ second.bytes

/-- `get_extent_data_ref_hash2`. -/
def extentDataRefHash2 (root objid offset : Nat) : Nat :=
  let highCrc := calcCrc32c 0xffffffff (le 8 root)
  let lowCrc := calcCrc32c (calcCrc32c 0xffffffff (le 8 objid)) (le 8 offset)
  highCrc <<< 31 ^^^ lowCrc

/--
The place of a run in the image.  A relocated run has the place it was copied
from; without such a relocation the variable keeps what it held.
-/
def imageAddress (clusterSize undefinedAddr : Nat) (relocs : List Relocation) (run : DataAlloc) :
    Nat :=
  if run.relocated then
    match relocs.find? fun reloc => reloc.newStart = run.offset with
    | some reloc => reloc.oldStart * clusterSize
    | none => undefinedAddr
  else run.offset * clusterSize

/-- An item that `create_data_extent_items` adds: the virtual address and the length of the extent. -/
structure EmittedExtent where
  address : Nat
  length : Nat
  data : Bytes
deriving DecidableEq, Repr

/-- The body of the loop over the runs. -/
def emittedExtent
    (clusterSize imageSubvol imageInode undefinedAddr : Nat) (relocs : List Relocation)
    (run : DataAlloc) : Option EmittedExtent :=
  if run.inode = dummyInode then none
  else
    let imgAddr := imageAddress clusterSize undefinedAddr relocs run
    let imageRef : ExtentDataRef := ⟨imageSubvol, imageInode, imgAddr, 1⟩
    let fileRef : ExtentDataRef := ⟨fsTreeObjectid, run.inode, run.fileOffset * clusterSize, 1⟩
    let data :=
      if run.inode = 0 then dataItem imageRef
      else if run.notInImg then dataItem fileRef
      else
        let hash1 := extentDataRefHash2 imageSubvol imageInode imgAddr
        let hash2 := extentDataRefHash2 fsTreeObjectid run.inode (run.fileOffset * clusterSize)
        if hash2 > hash1 then dataItem2 fileRef imageRef else dataItem2 imageRef fileRef
    some ⟨run.offset * clusterSize + chunkVirtOffset, run.length * clusterSize, data⟩

/-- The items of all runs, in the order of the loops. -/
def emittedExtents
    (clusterSize imageSubvol imageInode undefinedAddr : Nat) (relocs : List Relocation)
    (runs : Runs) : List EmittedExtent :=
  runs.all.filterMap (emittedExtent clusterSize imageSubvol imageInode undefinedAddr relocs)

/-- `create_data_extent_items`. -/
def createDataExtentItems
    (clusterSize imageSubvol imageInode undefinedAddr : Nat) (relocs : List Relocation)
    (runs : Runs) (items : ItemMap) : Except ConvertError ItemMap :=
  (emittedExtents clusterSize imageSubvol imageInode undefinedAddr relocs runs).foldlM
    (fun items extent =>
      addItem items extent.address BtrfsKeyType.extentItem extent.length extent.data) items

/-- The objectid that chunks have: `chunk_objectid` of a block group item. -/
def firstChunkTreeObjectid : Nat := 0x100

/-- A `btrfs_block_group_item`, with the usage that `update_extent_root` puts into it. -/
def blockGroupItem (chunk : Chunk) : Bytes :=
  le 8 chunk.used ++ le 8 firstChunkTreeObjectid ++ le 8 chunk.type

/-! ## What is emitted in a chunk -/

section Emitted

variable {clusterSize imageSubvol imageInode undefinedAddr : Nat} {relocs : List Relocation}

/-- The runs of the dummy inode have no item. -/
theorem emittedExtent_of_dummy
    {run : DataAlloc} (dummy : run.IsDummy) :
    emittedExtent clusterSize imageSubvol imageInode undefinedAddr relocs run = none :=
  if_pos dummy

/-- Any other run has the item of its range. -/
theorem emittedExtent_of_data
    {run : DataAlloc} (owned : ¬ run.IsDummy) :
    ∃ data, emittedExtent clusterSize imageSubvol imageInode undefinedAddr relocs run =
      some ⟨run.offset * clusterSize + chunkVirtOffset, run.length * clusterSize, data⟩ :=
  ⟨_, if_neg owned⟩

/-- The length of an item that starts in the chunk. -/
def Chunk.weighExtent (chunk : Chunk) (extent : EmittedExtent) : Nat :=
  if chunk.offset ≤ extent.address ∧ extent.address < chunk.offset + chunk.length then
    extent.length
  else 0

/-- The items that start in a chunk have together the length of its data runs. -/
theorem sum_weighExtent
    (runs : List DataAlloc) (chunk : Chunk) :
    ((runs.filterMap
      (emittedExtent clusterSize imageSubvol imageInode undefinedAddr relocs)).map
        chunk.weighExtent).sum = (runs.map (chunk.weighData clusterSize)).sum := by
  induction runs with
  | nil => rfl
  | cons run rest ih =>
      rw [List.map_cons, List.sum_cons, ← ih]
      by_cases dummy : run.IsDummy
      · rw [List.filterMap_cons_none (emittedExtent_of_dummy dummy), Chunk.weighData,
          if_pos dummy, Nat.zero_add]
      · rcases @emittedExtent_of_data clusterSize imageSubvol imageInode undefinedAddr relocs run
          dummy with ⟨data, emitted⟩
        rw [List.filterMap_cons_some emitted, List.map_cons, List.sum_cons, Chunk.weighData,
          if_neg dummy]
        rfl

/-- The entry of the extent tree that an item becomes. -/
def EmittedExtent.entry (extent : EmittedExtent) : BtrfsKey × Bytes :=
  (btrfsKey extent.address BtrfsKeyType.extentItem extent.length, extent.data)

/-- The extent tree gains exactly the items of the runs. -/
theorem createDataExtentItems_perm
    {runs : Runs} {items result : ItemMap}
    (created : createDataExtentItems clusterSize imageSubvol imageInode undefinedAddr relocs runs
      items = .ok result) :
    result.entries.Perm
      (items.entries ++
        (emittedExtents clusterSize imageSubvol imageInode undefinedAddr relocs runs).map
          EmittedExtent.entry) := by
  rw [createDataExtentItems] at created
  generalize emittedExtents clusterSize imageSubvol imageInode undefinedAddr relocs runs =
    extents at created ⊢
  induction extents generalizing items with
  | nil =>
      cases created
      rw [List.map_nil, List.append_nil]
  | cons extent rest ih =>
      rw [List.foldlM_cons] at created
      cases added : addItem items extent.address BtrfsKeyType.extentItem extent.length
          extent.data with
      | error error =>
          rw [added] at created
          cases created
      | ok next =>
          rw [added] at created
          rcases addItem_ok_iff.mp added with ⟨fresh, rfl⟩
          refine (ih created).trans ?_
          rw [List.map_cons]
          refine ((SortedMap.perm_emplace _ fresh).append_right _).trans ?_
          exact List.perm_middle.symm

end Emitted

/-! ## The usage of a chunk -/

/--
After any walk that protects distinct clusters, `calc_used_space` leaves in every
chunk the length of the data runs that start in it, and that is the length of
the extent items that are created there.
-/
theorem calcUsedSpace_counts_extents
    (volume : Volume) {bitmap : Bytes} (boot : ClusterInUse bitmap 0) {runs : Runs}
    (read : runs = parseDataBitmap volume.clustersPerChunk bitmap ∨
      runs = volumeRuns volume bitmap)
    (apart : ∀ cluster, runs.Covers cluster →
      ¬ Covers (conversionStart volume.deviceSize volume.cluster bitmap).spaceList
        (cluster * volume.cluster.bytes))
    (device : Store) {clusters : List Nat} (distinct : clusters.Nodup) {final : Conversion}
    (done : clusters.foldlM (protectCluster volume)
      ⟨conversionStart volume.deviceSize volume.cluster bitmap, runs, [], device⟩ = .ok final)
    {chunk : Chunk}
    (member : chunk ∈ calcUsedSpace volume.cluster.bytes final.runs final.allocator.chunks) :
    chunk.used = final.runs.total (chunk.weighData volume.cluster.bytes) % wordModulus ∧
      ∀ imageSubvol imageInode undefinedAddr items result,
        createDataExtentItems volume.cluster.bytes imageSubvol imageInode undefinedAddr
          final.relocs final.runs items = .ok result →
        ∃ emitted : List EmittedExtent,
          result.entries.Perm (items.entries ++ emitted.map EmittedExtent.entry) ∧
            unle (slice (blockGroupItem chunk) 0 8) =
              (emitted.map chunk.weighExtent).sum % wordModulus := by
  have fromBitmap : runs.FromBitmap volume.clustersPerChunk := by
    rcases read with rfl | rfl
    · exact (parseDataBitmap_spec volume.clustersPerChunk_pos bitmap).1
    · exact (volumeRuns_spec volume bitmap).1
  have onRegions : (conversionStart volume.deviceSize volume.cluster bitmap).OnRegions :=
    conversionStart_onRegions volume.reservedArea_le_deviceSize boot
  have start := charged_start onRegions (fun _ inside => conversionStart_unused inside) fromBitmap
    apart device
  rcases start.walk distinct (fun _ _ => List.not_mem_nil) done with ⟨past, charged⟩
  have used := (charged.used member).1
  refine ⟨used, fun imageSubvol imageInode undefinedAddr items result created =>
    ⟨_, createDataExtentItems_perm created, ?_⟩⟩
  have small : chunk.used < 256 ^ 8 := by
    rw [used]
    exact Nat.mod_lt _ (by decide)
  rw [blockGroupItem, List.append_assoc, slice_first _ (length_le 8 _), unle_le_of_lt small,
    emittedExtents, sum_weighExtent, used]
  rfl

/-- On the small volume the first cluster is copied, and the copy is what its chunk holds. -/
theorem calcUsedSpace_counts_extents_small_volume :
    ∃ (final : Conversion) (chunk : Chunk),
      [0].foldlM (protectCluster smallVolume)
          (conversionBegin smallVolume smallBitmap fun _ => 0) = .ok final ∧
        chunk ∈ calcUsedSpace smallVolume.cluster.bytes final.runs final.allocator.chunks ∧
        chunk.used = 0x10000 ∧
        chunk.used = final.runs.total (chunk.weighData smallVolume.cluster.bytes) % wordModulus := by
  have walked :
      (([0].foldlM (protectCluster smallVolume)
        (conversionBegin smallVolume smallBitmap fun _ => 0)).toOption.map fun final =>
          (calcUsedSpace smallVolume.cluster.bytes final.runs final.allocator.chunks).map
            Chunk.used) = some [0x10000] := by
    decide +kernel
  rcases Option.map_eq_some_iff.mp walked with ⟨final, returned, usages⟩
  have done := eq_ok_of_toOption_eq_some returned
  have listed : 0x10000 ∈ (calcUsedSpace smallVolume.cluster.bytes final.runs
      final.allocator.chunks).map Chunk.used := by
    rw [usages]
    exact List.mem_singleton_self _
  rcases List.mem_map.mp listed with ⟨chunk, member, used⟩
  refine ⟨final, chunk, done, member, used, ?_⟩
  refine (calcUsedSpace_counts_extents smallVolume (by decide) (Or.inr rfl) ?_ (fun _ => 0)
    (List.nodup_singleton 0) done member).1
  intro cluster covered
  have stops : ∀ run ∈ (volumeRuns smallVolume smallBitmap).all, run.stop = 1 := by
    decide +kernel
  rcases covered with ⟨run, runMember, _, before⟩
  rw [DataAlloc.extent_stop, stops run runMember, Nat.lt_one_iff] at before
  rw [before, Nat.zero_mul]
  decide +kernel

end Ntfs2Btrfs
