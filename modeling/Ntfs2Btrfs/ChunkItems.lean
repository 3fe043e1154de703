import Ntfs2Btrfs.TreeFormat

/-!
# Chunk items

`add_chunk` describes a chunk in three roots: a chunk item with a single stripe, an
extent of the device, and a block group.  `write_superblocks` packs the chunk items
of the system chunks into an array without a count, and the reader of `rollback`
takes them out of it before it can read any tree.
-/

namespace Ntfs2Btrfs

open ByteStore
open PackedRecords

/-! ## The items of a chunk -/

/-- The identifiers of the volume and of its device. -/
structure DeviceIdentity extends TreeIdentity where
  devUuid : Bytes
  devUuid_length : devUuid.length = 16

/-- `btrfs_chunk`, up to its stripe. -/
def Chunk.itemBytes (identity : DeviceIdentity) (chunk : Chunk) : Bytes :=
  le 8 chunk.length ++ (le 8 extentTreeObjectid ++ (le 8 0x10000 ++ (le 8 chunk.type ++
    (le 4 0x10000 ++ (le 4 0x10000 ++ (le 4 sectorSize ++ (le 2 1 ++ (le 2 1 ++
      (le 8 1 ++ (le 8 chunk.diskStart ++ identity.devUuid))))))))))

/-- `btrfs_dev_extent` -/
def Chunk.devExtentBytes (identity : DeviceIdentity) (chunk : Chunk) : Bytes :=
  le 8 chunkTreeObjectid ++ (le 8 0x100 ++ (le 8 chunk.offset ++ (le 8 chunk.length ++
    identity.chunkTreeUuid)))

/-- `btrfs_block_group_item`; the field `used` is left for `update_extent_root`. -/
def Chunk.blockGroupBytes (unset : Nat) (chunk : Chunk) : Bytes :=
  le 8 unset ++ (le 8 0x100 ++ le 8 chunk.type)

/-- The items of the three roots that describe chunks. -/
structure ChunkRoots where
  chunkItems : ItemMap
  devItems : ItemMap
  extentItems : ItemMap

/-- `add_chunk` -/
def addChunk
    (identity : DeviceIdentity) (unset : Nat) (chunk : Chunk) (roots : ChunkRoots) :
    Except ConvertError ChunkRoots := do
  let chunkItems ← addItem roots.chunkItems 0x100 BtrfsKeyType.chunkItem chunk.offset
    (chunk.itemBytes identity)
  let devItems ← addItem roots.devItems 1 BtrfsKeyType.devExtent chunk.diskStart
    (chunk.devExtentBytes identity)
  let extentItems ← addItem roots.extentItems chunk.offset BtrfsKeyType.blockGroupItem
    chunk.length (chunk.blockGroupBytes unset)
  pure ⟨chunkItems, devItems, extentItems⟩

/-! ## What a reader sees of a chunk item -/

/-- `offsetof(btrfs_chunk, stripe)` -/
def chunkStripeOffset : Nat := 48

/-- `sizeof(btrfs_stripe)` -/
def stripeSize : Nat := 32

/-- `btrfs_chunk::length` -/
def chunkItemLength (item : Bytes) : Nat :=
  unle (slice item 0 8)

/-- `btrfs_chunk::type` -/
def chunkItemType (item : Bytes) : Nat :=
  unle (slice item 24 8)

/-- `btrfs_chunk::num_stripes` -/
def chunkItemStripes (item : Bytes) : Nat :=
  unle (slice item 44 2)

/-- `btrfs_chunk::stripe[0].devid` -/
def chunkItemDevid (item : Bytes) : Nat :=
  unle (slice item 48 8)

/-- `btrfs_chunk::stripe[0].offset` -/
def chunkItemOffset (item : Bytes) : Nat :=
  unle (slice item 56 8)

/-- The fields of the chunk fit their widths. -/
structure Chunk.Fits (chunk : Chunk) : Prop where
  offset : chunk.offset < 2 ^ 64
  length : chunk.length < 2 ^ 64
  type : chunk.type < 2 ^ 64
  diskStart : chunk.diskStart < 2 ^ 64
  stop : chunk.offset + chunk.length < 2 ^ 64

section Item

variable (identity : DeviceIdentity) {chunk : Chunk}

theorem length_itemBytes (chunk : Chunk) :
    (chunk.itemBytes identity).length = chunkStripeOffset + stripeSize := by
  simp only [Chunk.itemBytes, List.length_append, length_le, identity.devUuid_length]
  rfl

/-- The fields of an item are read back, also with something behind it. -/
theorem fields_itemBytes (fits : chunk.Fits) (rest : Bytes) :
    chunkItemLength (chunk.itemBytes identity ++ rest) = chunk.length ∧
      chunkItemType (chunk.itemBytes identity ++ rest) = chunk.type ∧
      chunkItemStripes (chunk.itemBytes identity ++ rest) = 1 ∧
      chunkItemDevid (chunk.itemBytes identity ++ rest) = 1 ∧
      chunkItemOffset (chunk.itemBytes identity ++ rest) = chunk.diskStart := by
  rw [chunkItemLength, chunkItemType, chunkItemStripes, chunkItemDevid, chunkItemOffset,
    Chunk.itemBytes]
  simp only [List.append_assoc]
  refine ⟨?_, ?_, ?_, ?_, ?_⟩
  · rw [slice_first _ (length_le 8 _), unle_le_of_lt fits.length]
  · rw [slice_behind (length_le 8 _) (by decide), slice_behind (length_le 8 _) (by decide),
      slice_behind (length_le 8 _) (by decide), slice_first _ (length_le 8 _),
      unle_le_of_lt fits.type]
  all_goals
    rw [slice_behind (length_le 8 _) (by decide), slice_behind (length_le 8 _) (by decide),
      slice_behind (length_le 8 _) (by decide), slice_behind (length_le 8 _) (by decide),
      slice_behind (length_le 4 _) (by decide), slice_behind (length_le 4 _) (by decide),
      slice_behind (length_le 4 _) (by decide)]
  · rw [slice_first _ (length_le 2 _), unle_le_of_lt (by decide)]
  · rw [slice_behind (length_le 2 _) (by decide), slice_behind (length_le 2 _) (by decide),
      slice_first _ (length_le 8 _), unle_le_of_lt (by decide)]
  · rw [slice_behind (length_le 2 _) (by decide), slice_behind (length_le 2 _) (by decide),
      slice_behind (length_le 8 _) (by decide), slice_first _ (length_le 8 _),
      unle_le_of_lt fits.diskStart]

end Item

/-! ## The array of system chunks -/

/-- `sb.sys_chunk_array.size()` -/
def sysChunkArraySize : Nat := 0x800

/-- `offsetof(btrfs_super_block, sys_chunk_array)` -/
def sysChunkArrayOffset : Nat := 0x32b

/-- An item that `write_superblocks` puts into the array. -/
def IsSystemChunk (entry : BtrfsKey × Bytes) : Bool :=
  entry.1.type = BtrfsKeyType.chunkItem ∧ chunkItemType entry.2 &&& blockGroupSystem ≠ 0

/-- The items of the array, in their order. -/
def systemChunks (items : ItemMap) : List (BtrfsKey × Bytes) :=
  items.entries.filter IsSystemChunk

/-- One item of the array. -/
def sysChunkBytes (entry : BtrfsKey × Bytes) : Bytes :=
  entry.1.bytes ++ entry.2

/-- The size that `write_superblocks` compares with that of the array. -/
def sysChunkSize (items : ItemMap) : Nat :=
  ((systemChunks items).flatMap sysChunkBytes).length % 2 ^ 32

/-- The bytes of the array. -/
def sysChunkArray (items : ItemMap) : Bytes :=
  let packed := (systemChunks items).flatMap sysChunkBytes
  packed ++ List.replicate (sysChunkArraySize - packed.length) 0

/-- One turn of the loop of `btrfs::read_chunks` over the array. -/
def parseSysChunk (bytes : Bytes) : Option ((BtrfsKey × Bytes) × Nat) :=
  let key := readKey (slice bytes 0 17)
  if key.type ≠ BtrfsKeyType.chunkItem then none
  else
    let size := chunkStripeOffset + chunkItemStripes (bytes.drop 17) * stripeSize
    some ((key, slice bytes 17 size), 17 + size)

/-- Chunk items by the offset of their key; the first one of an offset stays. -/
def collectChunks (entries : List (BtrfsKey × Bytes)) (chunks : SortedMap Nat Bytes) :
    SortedMap Nat Bytes :=
  entries.foldl (fun chunks entry => chunks.emplace entry.1.offset entry.2) chunks

/-- The first loop of `btrfs::read_chunks`, over the array in the superblock. -/
def readSysChunks (superblock : Bytes) : SortedMap Nat Bytes :=
  collectChunks
    (readArray parseSysChunk sysChunkArraySize (superblock.drop sysChunkArrayOffset))
    SortedMap.empty

/-- An item that says itself how long it is. -/
def IsWholeChunk (entry : BtrfsKey × Bytes) : Prop :=
  entry.2.length = chunkStripeOffset + chunkItemStripes entry.2 * stripeSize

theorem isWholeChunk_itemBytes
    (identity : DeviceIdentity) {chunk : Chunk} (fits : chunk.Fits) (key : BtrfsKey) :
    IsWholeChunk (key, chunk.itemBytes identity) := by
  have stripes := (fields_itemBytes identity fits []).2.2.1
  rw [List.append_nil] at stripes
  rw [IsWholeChunk, length_itemBytes, stripes, Nat.one_mul]

theorem chunkItemStripes_append
    {item : Bytes} (whole : chunkStripeOffset ≤ item.length) (rest : Bytes) :
    chunkItemStripes (item ++ rest) = chunkItemStripes item := by
  have inside : 44 + 2 ≤ item.length := le_trans (by decide) whole
  rw [chunkItemStripes, chunkItemStripes, slice, slice, List.drop_append_of_le_length (by omega),
    List.take_append_of_le_length (by rw [List.length_drop]; omega)]

/-- An item of the array is parsed, whatever follows it. -/
theorem reads_sysChunk
    {entry : BtrfsKey × Bytes} (type : entry.1.type = BtrfsKeyType.chunkItem)
    (whole : IsWholeChunk entry) : Reads sysChunkBytes parseSysChunk entry := by
  have keyLength := entry.1.length_bytes
  have length : (sysChunkBytes entry).length = 17 + entry.2.length := by
    rw [sysChunkBytes, List.length_append, keyLength]
  refine ⟨by omega, fun rest => ?_⟩
  have front : slice (sysChunkBytes entry ++ rest) 0 17 = entry.1.bytes := by
    rw [sysChunkBytes, List.append_assoc, slice_first _ keyLength]
  have key : readKey entry.1.bytes = entry.1 := by
    have read := readKey_bytes_append entry.1 []
    rwa [List.append_nil] at read
  have back : (sysChunkBytes entry ++ rest).drop 17 = entry.2 ++ rest := by
    rw [sysChunkBytes, List.append_assoc, ← keyLength, List.drop_left]
  have stripes : chunkItemStripes (entry.2 ++ rest) = chunkItemStripes entry.2 := by
    refine chunkItemStripes_append ?_ rest
    rw [whole]
    exact Nat.le_add_right _ _
  have item : slice (sysChunkBytes entry ++ rest) 17 entry.2.length = entry.2 := by
    rw [slice, back, List.take_left]
  have size : chunkStripeOffset + chunkItemStripes entry.2 * stripeSize = entry.2.length :=
    whole.symm
  rw [parseSysChunk]
  simp only [front, key, back, stripes, size, item]
  rw [if_neg (not_not.mpr type), length]

/-- Zeros are no chunk item. -/
theorem parseSysChunk_zeros (count : Nat) :
    parseSysChunk (List.replicate count 0) = none := by
  have zeros (offset length : Nat) (bytes : Bytes) (all : ∀ byte ∈ bytes, byte = 0) :
      ∀ byte ∈ slice bytes offset length, byte = 0 :=
    fun byte member => all byte (List.mem_of_mem_drop (List.mem_of_mem_take member))
  have none_ (bytes : Bytes) (all : ∀ byte ∈ bytes, byte = 0) : unle bytes = 0 := by
    induction bytes with
    | nil => rfl
    | cons byte rest ih =>
      obtain ⟨first, later⟩ := List.forall_mem_cons.mp all
      rw [unle, first, ih later]
      rfl
  have all : ∀ byte ∈ List.replicate count (0 : UInt8), byte = 0 :=
    fun byte member => List.eq_of_mem_replicate member
  have type : (readKey (slice (List.replicate count 0) 0 17)).type = 0 := by
    rw [readKey, btrfsKey_type, none_ _ (zeros _ _ _ (zeros _ _ _ all)), Nat.zero_mod]
  rw [parseSysChunk, if_pos (by rw [type]; decide)]

/--
The reader takes the system chunks out of the array again, in their order, however
many there are: it stops behind the last one.
-/
theorem readArray_sysChunkArray
    {items : ItemMap} (whole : ∀ entry ∈ systemChunks items, IsWholeChunk entry)
    (fits : ((systemChunks items).flatMap sysChunkBytes).length ≤ sysChunkArraySize)
    (behind : Nat) :
    readArray parseSysChunk sysChunkArraySize
        (sysChunkArray items ++ List.replicate behind 0) = systemChunks items := by
  rw [sysChunkArray, List.append_assoc, List.replicate_append_replicate]
  refine readArray_flatMap (fun entry member => ?_) (parseSysChunk_zeros _) fits
  have system := (List.mem_filter.mp member).2
  exact reads_sysChunk (of_decide_eq_true system).1 (whole entry member)

end Ntfs2Btrfs
