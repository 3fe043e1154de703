import Ntfs2Btrfs.ChunkItems
import Ntfs2Btrfs.FileExtents
import Ntfs2Btrfs.Rollback
import Ntfs2Btrfs.VolumeLabel

/-!
# Superblocks

`write_superblocks` fills a superblock with the addresses and levels of the root
tree and of the chunk tree, the device item and the array of system chunks, and
writes it to every place on the device; only its own address and the checksum
differ.  The reader of `rollback` takes the fields it needs from any of them.
-/

namespace Ntfs2Btrfs

open ByteStore
open PackedRecords

/-! ## Writing -/

/-- `sizeof(btrfs_dev_item)` -/
def devItemSize : Nat := 98

/-- `BTRFS_ROOT_TREE_DIR_OBJECTID` -/
def rootTreeDirObjectid : Nat := 6

/-- What `write_superblocks` puts into all of the superblocks. -/
structure Superblock where
  root : Nat
  chunkRoot : Nat
  totalBytes : Nat
  bytesUsed : Nat
  sysChunkSize : Nat
  incompatFlags : Nat
  csumType : Nat
  rootLevel : Nat
  chunkRootLevel : Nat
  devItem : Bytes
  label : Bytes
  sysChunks : Bytes
  devItem_length : devItem.length = devItemSize
  label_length : label.length = labelSize
  sysChunks_length : sysChunks.length = sysChunkArraySize

/-- `compression` as it is compared here. -/
def compressionLzo : Nat := 2

/-- `compression` as it is compared here. -/
def compressionZstd : Nat := 3

/--
`MIXED_BACKREF`, `BIG_METADATA`, `EXTENDED_IREF`, `SKINNY_METADATA` and `NO_HOLES`,
and the flag of the compression.
-/
def incompatFlags (compression : Nat) : Nat :=
  let flags := 1 ||| 0x20 ||| 0x40 ||| 0x100 ||| 0x200
  if compression = compressionLzo then flags ||| 0x8
  else if compression = compressionZstd then flags ||| 0x10
  else flags

/-- The item of the device that the superblock holds a copy of. -/
def superblockDevItem (chunkItems : ItemMap) : Bytes :=
  match chunkItems.entries.find? fun entry => entry.1.type = BtrfsKeyType.devItem with
  | some entry => patch (List.replicate devItemSize 0) 0 (entry.2.take devItemSize)
  | none => List.replicate devItemSize 0

/-- The root tree and the chunk tree, as far as superblocks describe them. -/
structure TreeRoots where
  root : Nat
  rootLevel : Nat
  chunkRoot : Nat
  chunkRootLevel : Nat

theorem length_superblockDevItem (chunkItems : ItemMap) :
    (superblockDevItem chunkItems).length = devItemSize := by
  rw [superblockDevItem]
  split
  · rw [length_patch ?_, List.length_replicate]
    rw [List.length_replicate, List.length_take]
    omega
  · exact List.length_replicate

theorem length_take_sysChunkArray (items : ItemMap) :
    ((sysChunkArray items).take sysChunkArraySize).length = sysChunkArraySize := by
  rw [List.length_take, sysChunkArray, List.length_append, List.length_replicate]
  omega

/--
The superblock that `write_superblocks` prepares; it throws the size of the array
of system chunks when there is no space for them.
-/
def prepareSuperblock
    (chunkItems : ItemMap) (roots : TreeRoots) (chunks : List Chunk)
    (deviceSize compression csumType : Nat) (label : {label : Bytes // label.length = labelSize}) :
    Except Nat Superblock :=
  if tooLong : sysChunkSize chunkItems > sysChunkArraySize then .error (sysChunkSize chunkItems)
  else
    .ok
      { root := roots.root
        chunkRoot := roots.chunkRoot
        totalBytes := deviceSize
        bytesUsed := (chunks.map Chunk.used).sum % wordModulus
        sysChunkSize := sysChunkSize chunkItems
        incompatFlags := incompatFlags compression
        csumType := csumType
        rootLevel := roots.rootLevel
        chunkRootLevel := roots.chunkRootLevel
        devItem := superblockDevItem chunkItems
        label := label.1
        sysChunks := (sysChunkArray chunkItems).take sysChunkArraySize
        devItem_length := length_superblockDevItem chunkItems
        label_length := label.2
        sysChunks_length := length_take_sysChunkArray chunkItems }

/-- The fields of a superblock behind its checksum. -/
def Superblock.fields (identity : DeviceIdentity) (sb : Superblock) (bytenr : Nat) : List Bytes :=
  [identity.fsid, le 8 bytenr, le 8 0, le 8 btrfsMagic, le 8 1, le 8 sb.root, le 8 sb.chunkRoot,
    le 8 0, le 8 0, le 8 sb.totalBytes, le 8 sb.bytesUsed, le 8 rootTreeDirObjectid, le 8 1,
    le 4 sectorSize, le 4 treeSize, le 4 treeSize, le 4 sectorSize, le 4 sb.sysChunkSize, le 8 1,
    le 8 0, le 8 0, le 8 sb.incompatFlags, le 2 sb.csumType, le 1 sb.rootLevel,
    le 1 sb.chunkRootLevel, le 1 0, sb.devItem, sb.label, le 8 0, le 8 1, List.replicate 240 0,
    sb.sysChunks, List.replicate 1237 0]

def Superblock.rest (identity : DeviceIdentity) (sb : Superblock) (bytenr : Nat) : Bytes :=
  (sb.fields identity bytenr).flatten

/-- A superblock as it is written to one of its places. -/
def Superblock.bytes (identity : DeviceIdentity) (sb : Superblock) (bytenr : Nat) : Bytes :=
  identity.csum (sb.rest identity bytenr) ++ sb.rest identity bytenr

/-! ## Reading -/

/-- `btrfs_super_block::root` -/
def superblockRoot (superblock : Bytes) : Nat :=
  unle (slice superblock 0x50 8)

/-- `btrfs_super_block::chunk_root` -/
def superblockChunkRoot (superblock : Bytes) : Nat :=
  unle (slice superblock 0x58 8)

/-- `btrfs_super_block::nodesize` -/
def superblockNodesize (superblock : Bytes) : Nat :=
  unle (slice superblock 0x94 4)

/-- `btrfs_super_block::dev_item.devid` -/
def superblockDevid (superblock : Bytes) : Nat :=
  unle (slice superblock 0xc9 8)

/-- The addresses of the trees fit their widths. -/
structure Superblock.Fits (sb : Superblock) : Prop where
  root : sb.root < 2 ^ 64
  chunkRoot : sb.chunkRoot < 2 ^ 64
  incompatFlags : sb.incompatFlags < 2 ^ 64

/-- What the reader relies on in a superblock. -/
structure ReadsAs (sb : Superblock) (superblock : Bytes) : Prop where
  length : superblock.length = superblockSize
  magic : superblockMagic superblock = btrfsMagic
  generation : superblockGeneration superblock = 1
  root : superblockRoot superblock = sb.root
  chunkRoot : superblockChunkRoot superblock = sb.chunkRoot
  nodesize : superblockNodesize superblock = treeSize
  incompat : superblockIncompat superblock = sb.incompatFlags
  devid : superblockDevid superblock = unle (slice sb.devItem 0 8)
  sysChunks : superblock.drop sysChunkArrayOffset = sb.sysChunks ++ List.replicate 1237 0

/-- How wide the fields are. -/
def superblockWidths : List Nat :=
  [16, 8, 8, 8, 8, 8, 8, 8, 8, 8, 8, 8, 8, 4, 4, 4, 4, 4, 8, 8, 8, 8, 2, 1, 1, 1, 98, 256, 8, 8,
    240, 2048, 1237]

section Fields

variable (identity : DeviceIdentity) (sb : Superblock) (bytenr : Nat)

theorem Superblock.widths_fields :
    (sb.fields identity bytenr).map List.length = superblockWidths := by
  simp only [Superblock.fields, List.map_cons, List.map_nil, length_le, List.length_replicate,
    identity.fsid_length, sb.devItem_length, sb.label_length, sb.sysChunks_length]
  rfl

theorem Superblock.length_take_fields (index : Nat) :
    ((sb.fields identity bytenr).take index).flatten.length =
      (superblockWidths.take index).sum := by
  rw [List.length_flatten, List.map_take, sb.widths_fields]

/-- A field is where the widths of those in front of it say. -/
theorem Superblock.slice_bytes
    (index offset : Nat) {field : Bytes}
    (found : (sb.fields identity bytenr)[index]? = some field)
    (place : 32 + (superblockWidths.take index).sum = offset) :
    slice (sb.bytes identity bytenr) offset field.length = field := by
  have inside := slice_flatten found []
  rw [sb.length_take_fields, List.append_nil] at inside
  rw [Superblock.bytes, slice_behind (identity.csum_length _) (by omega), ← place,
    Nat.add_sub_cancel_left]
  exact inside

theorem Superblock.unle_slice_bytes
    (index offset : Nat) {width value : Nat}
    (found : (sb.fields identity bytenr)[index]? = some (le width value))
    (place : 32 + (superblockWidths.take index).sum = offset) (fits : value < 256 ^ width) :
    unle (slice (sb.bytes identity bytenr) offset width) = value := by
  have field := sb.slice_bytes identity bytenr index offset found place
  rw [length_le] at field
  rw [field, unle_le_of_lt fits]

theorem Superblock.length_bytes : (sb.bytes identity bytenr).length = superblockSize := by
  have whole : (sb.rest identity bytenr).length = superblockWidths.sum := by
    rw [Superblock.rest, List.length_flatten, sb.widths_fields]
  rw [Superblock.bytes, List.length_append, identity.csum_length, whole]
  decide

/-- The array of system chunks and what is behind it. -/
theorem Superblock.drop_bytes :
    (sb.bytes identity bytenr).drop sysChunkArrayOffset =
      sb.sysChunks ++ List.replicate 1237 0 := by
  have front := sb.length_take_fields identity bytenr 31
  have split : sb.rest identity bytenr =
      ((sb.fields identity bytenr).take 31).flatten ++
        (sb.sysChunks ++ List.replicate 1237 0) := by
    rw [Superblock.rest, ← List.take_append_drop 31 (sb.fields identity bytenr),
      List.flatten_append, List.take_append_drop]
    refine congrArg _ ?_
    rw [Superblock.fields]
    simp only [List.drop_succ_cons, List.drop_zero, List.flatten_cons, List.flatten_nil,
      List.append_nil]
  have width : (identity.csum (sb.rest identity bytenr) ++
      ((sb.fields identity bytenr).take 31).flatten).length = sysChunkArrayOffset := by
    rw [List.length_append, identity.csum_length, front]
    decide
  rw [Superblock.bytes]
  conv_lhs => rw [split]
  rw [← List.append_assoc, ← split, ← width, List.drop_left]

end Fields

/-- Every superblock that is written reads as it was prepared. -/
theorem Superblock.readsAs
    (identity : DeviceIdentity) {sb : Superblock} (fits : sb.Fits) (bytenr : Nat) :
    ReadsAs sb (sb.bytes identity bytenr) := by
  have at_ (index offset : Nat) {width value : Nat} (found place) (small) :=
    @Superblock.unle_slice_bytes identity sb bytenr index offset width value found place small
  refine ⟨sb.length_bytes identity bytenr, ?_, ?_, ?_, ?_, ?_, ?_, ?_,
    sb.drop_bytes identity bytenr⟩
  · exact at_ 3 0x40 rfl (by decide) (by decide)
  · exact at_ 4 0x48 rfl (by decide) (by decide)
  · exact at_ 5 0x50 rfl (by decide) fits.root
  · exact at_ 6 0x58 rfl (by decide) fits.chunkRoot
  · exact at_ 14 0x94 rfl (by decide) (by decide)
  · exact at_ 21 0xbc rfl (by decide) fits.incompatFlags
  · have item := sb.slice_bytes identity bytenr 26 0xc9 rfl (by decide)
    rw [sb.devItem_length] at item
    have inner := @slice_slice (sb.bytes identity bytenr) 0xc9 devItemSize 0 8 (by decide)
    rw [item] at inner
    rw [superblockDevid, inner]

/-! ## Finding the superblock again -/

/-- The reader supports every superblock that is written. -/
theorem incompatFlags_supported (compression : Nat) :
    incompatFlags compression < 2 ^ 64 ∧
      incompatFlags compression &&& (wordModulus - 1 - incompatSupported) = 0 := by
  rw [incompatFlags]
  split_ifs <;> decide

/-- A place that holds the superblock has the magic. -/
theorem hasMagic_of_read
    {identity : DeviceIdentity} {sb : Superblock} (fits : sb.Fits) {device : Store} {addr : Nat}
    (holds : device.read addr superblockSize = sb.bytes identity addr) : HasMagic device addr := by
  rw [← superblockMagic_read, holds]
  exact (sb.readsAs identity fits addr).magic

theorem considerSuperblock_written
    {identity : DeviceIdentity} {sb : Superblock} {device : Store} {addr : Nat}
    (known : device.read addr superblockSize = sb.bytes identity addr ∨ ¬ HasMagic device addr)
    {newest : Option Bytes} (before : ∀ superblock ∈ newest, ∃ other,
      superblock = sb.bytes identity other) :
    ∀ superblock ∈ considerSuperblock device newest addr, ∃ other,
      superblock = sb.bytes identity other := by
  intro superblock found
  unfold considerSuperblock at found
  by_cases magic : superblockMagic (Store.read device addr superblockSize) = btrfsMagic
  · have holds := known.resolve_right (not_not.mpr ((superblockMagic_read device addr).mp magic))
    simp only [if_neg (not_not.mpr magic)] at found
    cases newest with
    | none => exact ⟨addr, (Option.some.inj found).symm.trans holds⟩
    | some first =>
      simp only at found
      split_ifs at found
      · exact ⟨addr, (Option.some.inj found).symm.trans holds⟩
      · exact before superblock found
  · simp only [if_pos magic] at found
    exact before superblock found

/--
Wherever at least one of the superblocks is left, and no other magic is found, the
reader starts from one of them.
-/
theorem readSuperblock_written
    {identity : DeviceIdentity} {sb : Superblock} (fits : sb.Fits)
    (supported : sb.incompatFlags &&& (wordModulus - 1 - incompatSupported) = 0)
    {deviceEnd : Nat} {device : Store}
    (known : ∀ addr ∈ searchedAddrs deviceEnd,
      device.read addr superblockSize = sb.bytes identity addr ∨ ¬ HasMagic device addr)
    (left : ∃ addr ∈ searchedAddrs deviceEnd,
      device.read addr superblockSize = sb.bytes identity addr) :
    ∃ addr, readSuperblock deviceEnd device = .ok (sb.bytes identity addr) := by
  have walk (addrs : List Nat)
      (known : ∀ addr ∈ addrs,
        device.read addr superblockSize = sb.bytes identity addr ∨ ¬ HasMagic device addr)
      (newest : Option Bytes) (before : ∀ superblock ∈ newest, ∃ other,
        superblock = sb.bytes identity other) :
      ∀ superblock ∈ addrs.foldl (considerSuperblock device) newest, ∃ other,
        superblock = sb.bytes identity other := by
    induction addrs generalizing newest with
    | nil => exact before
    | cons addr rest ih =>
      obtain ⟨here, later⟩ := List.forall_mem_cons.mp known
      rw [List.foldl_cons]
      refine ih later _ ?_
      exact considerSuperblock_written here before
  have some_ :=
    (foldl_considerSuperblock_isSome_iff device none (searchedAddrs deviceEnd)).mpr (Or.inr (by
      obtain ⟨addr, member, holds⟩ := left
      exact ⟨addr, member, hasMagic_of_read fits holds⟩))
  obtain ⟨superblock, found⟩ := Option.isSome_iff_exists.mp some_
  obtain ⟨addr, rfl⟩ := walk (searchedAddrs deviceEnd) known none
    (fun superblock none_ => absurd none_ (Option.not_mem_none superblock)) superblock found
  refine ⟨addr, ?_⟩
  have flags := (sb.readsAs identity fits addr).incompat
  rw [readSuperblock, found]
  simp only [flags, supported]
  exact if_neg (not_not.mpr rfl)

/-- The reader finds the system chunks in every superblock. -/
theorem readSysChunks_written
    (identity : DeviceIdentity) {chunkItems : ItemMap} {roots : TreeRoots} {chunks : List Chunk}
    {deviceSize compression csumType : Nat} {label : {label : Bytes // label.length = labelSize}}
    {sb : Superblock}
    (prepared : prepareSuperblock chunkItems roots chunks deviceSize compression csumType label =
      .ok sb)
    (whole : ∀ entry ∈ systemChunks chunkItems, IsWholeChunk entry)
    (bounded : ((systemChunks chunkItems).flatMap sysChunkBytes).length < 2 ^ 32) (bytenr : Nat) :
    readSysChunks (sb.bytes identity bytenr) =
      collectChunks (systemChunks chunkItems) SortedMap.empty := by
  rw [prepareSuperblock] at prepared
  split_ifs at prepared with tooLong
  cases prepared
  have fits : ((systemChunks chunkItems).flatMap sysChunkBytes).length ≤ sysChunkArraySize := by
    have size := not_lt.mp tooLong
    rwa [sysChunkSize, Nat.mod_eq_of_lt bounded] at size
  have length : (sysChunkArray chunkItems).length = sysChunkArraySize := by
    rw [sysChunkArray, List.length_append, List.length_replicate]
    omega
  have packed : (sysChunkArray chunkItems).take sysChunkArraySize = sysChunkArray chunkItems :=
    List.take_of_length_le length.le
  rw [readSysChunks, Superblock.drop_bytes]
  simp only [packed]
  rw [readArray_sysChunkArray whole fits]

end Ntfs2Btrfs
