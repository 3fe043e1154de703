import Ntfs2Btrfs.Items
import Ntfs2Btrfs.Lib.PackedRecords

/-!
# Roots and directory records

A root collects the items of one tree.  This module has the record itself and
the encodings of the structures that directories are made of, with the readers
that decode them.
-/

namespace Ntfs2Btrfs

open ByteStore
open PackedRecords

/-! ## Roots -/

/-- A tree under construction: the class `root` of the source. -/
structure Root where
  id : Nat
  items : ItemMap := SortedMap.empty
  trees : List Bytes := []
  treeAddr : Nat := 0
  level : Nat := 0
  metadataSize : Nat := 0
  addresses : List (Nat × Nat) := []
  oldAddresses : List (Nat × Nat) := []
  allocationsDone : Bool := false
  readonly : Bool := false
  dirSeqs : SortedMap Nat Nat := SortedMap.empty
  dirSize : SortedMap Nat Nat := SortedMap.empty

/-! ## Keys on disk -/

/-- A key as it is stored. -/
def BtrfsKey.bytes (key : BtrfsKey) : Bytes :=
  le 8 key.objectid ++ le 1 key.type ++ le 8 key.offset

@[simp]
theorem BtrfsKey.length_bytes (key : BtrfsKey) :
    key.bytes.length = 17 := by
  simp [BtrfsKey.bytes]

/-- The key stored at the start of a byte string. -/
def readKey (bytes : Bytes) : BtrfsKey :=
  btrfsKey (unle (slice bytes 0 8)) (unle (slice bytes 8 1))
    (unle (slice bytes 9 8))

/-- A field is read back between the fields around it. -/
theorem slice_field
    {before field : Bytes} {offset length : Nat} (after : Bytes)
    (start : before.length = offset) (size : field.length = length) :
    slice (before ++ (field ++ after)) offset length = field := by
  rw [slice, List.drop_left' start, List.take_left' size]

theorem btrfsKey_self (key : BtrfsKey) :
    btrfsKey key.objectid key.type key.offset = key :=
  BtrfsKey.ext (Nat.mod_eq_of_lt key.objectid_lt) (Nat.mod_eq_of_lt key.type_lt)
    (Nat.mod_eq_of_lt key.offset_lt)

@[simp]
theorem readKey_bytes_append (key : BtrfsKey) (rest : Bytes) :
    readKey (key.bytes ++ rest) = key := by
  have objectid :
      slice (key.bytes ++ rest) 0 8 = le 8 key.objectid := by
    rw [BtrfsKey.bytes, List.append_assoc, List.append_assoc]
    exact slice_first _ (length_le 8 _)
  have type : slice (key.bytes ++ rest) 8 1 = le 1 key.type := by
    rw [BtrfsKey.bytes, List.append_assoc, List.append_assoc]
    exact slice_field _ (length_le 8 _) (length_le 1 _)
  have offset : slice (key.bytes ++ rest) 9 8 = le 8 key.offset := by
    rw [BtrfsKey.bytes, List.append_assoc]
    exact slice_field _ (by simp) (length_le 8 _)
  rw [readKey, objectid, type, offset, unle_le_of_lt key.objectid_lt,
    unle_le_of_lt key.type_lt, unle_le_of_lt key.offset_lt, btrfsKey_self]

/-! ## Directory entries -/

/-- A directory entry: `btrfs_dir_item` with the name that follows it. -/
structure DirItem where
  location : BtrfsKey
  transid : Nat
  dataLen : Nat
  type : Nat
  name : Bytes
deriving DecidableEq

/-- `sizeof(btrfs_dir_item)`. -/
def dirItemSize : Nat := 30

/-- A directory entry as it is stored. -/
def DirItem.bytes (item : DirItem) : Bytes :=
  item.location.bytes ++
    (le 8 item.transid ++
      (le 2 item.dataLen ++
        (le 2 item.name.length ++ (le 1 item.type ++ item.name))))

@[simp]
theorem DirItem.length_bytes (item : DirItem) :
    item.bytes.length = dirItemSize + item.name.length := by
  simp only [DirItem.bytes, List.length_append, BtrfsKey.length_bytes, length_le,
    dirItemSize]
  omega

/-- The directory entry at the start of a byte string, and its size. -/
def readDirItem (bytes : Bytes) : Option (DirItem × Nat) :=
  let dataLen := unle (slice bytes 25 2)
  let nameLen := unle (slice bytes 27 2)
  if dirItemSize + nameLen + dataLen ≤ bytes.length then
    some
      ({ location := readKey bytes
         transid := unle (slice bytes 17 8)
         dataLen := dataLen
         type := unle (slice bytes 29 1)
         name := slice bytes 30 nameLen },
        dirItemSize + nameLen + dataLen)
  else none

/-- The entry has no data, and its fields fit their widths. -/
structure DirItem.Fits (item : DirItem) : Prop where
  transid_lt : item.transid < 2 ^ 64
  dataLen_eq : item.dataLen = 0
  type_lt : item.type < 2 ^ 8
  name_lt : item.name.length < 2 ^ 16

theorem DirItem.Fits.reads
    {item : DirItem} (fits : item.Fits) :
    Reads DirItem.bytes readDirItem item := by
  refine ⟨by simp [dirItemSize], fun rest => ?_⟩
  have shape : item.bytes ++ rest =
      item.location.bytes ++
        (le 8 item.transid ++
          (le 2 item.dataLen ++
            (le 2 item.name.length ++
              (le 1 item.type ++ (item.name ++ rest))))) := by
    simp only [DirItem.bytes, List.append_assoc]
  have transid : slice (item.bytes ++ rest) 17 8 = le 8 item.transid := by
    rw [shape]
    exact slice_field _ (by simp) (length_le 8 _)
  have dataLen : slice (item.bytes ++ rest) 25 2 = le 2 item.dataLen := by
    rw [shape, ← List.append_assoc]
    exact slice_field _ (by simp) (length_le 2 _)
  have nameLen : slice (item.bytes ++ rest) 27 2 = le 2 item.name.length := by
    rw [shape, ← List.append_assoc, ← List.append_assoc]
    exact slice_field _ (by simp) (length_le 2 _)
  have type : slice (item.bytes ++ rest) 29 1 = le 1 item.type := by
    rw [shape, ← List.append_assoc, ← List.append_assoc, ← List.append_assoc]
    exact slice_field _ (by simp) (length_le 1 _)
  have name : slice (item.bytes ++ rest) 30 item.name.length = item.name := by
    rw [shape, ← List.append_assoc, ← List.append_assoc, ← List.append_assoc,
      ← List.append_assoc]
    exact slice_field _ (by simp) rfl
  have location : readKey (item.bytes ++ rest) = item.location := by
    rw [shape]
    exact readKey_bytes_append _ _
  have nameFits : item.name.length < 256 ^ 2 := fits.name_lt
  have transidFits : item.transid < 256 ^ 8 := fits.transid_lt
  have typeFits : item.type < 256 ^ 1 := fits.type_lt
  have dataFits : item.dataLen < 256 ^ 2 := by
    rw [fits.dataLen_eq]
    decide
  have enough : dirItemSize + item.name.length + item.dataLen ≤
      (item.bytes ++ rest).length := by
    rw [List.length_append, DirItem.length_bytes, fits.dataLen_eq]
    omega
  simp only [readDirItem, dataLen, nameLen, unle_le_of_lt nameFits,
    unle_le_of_lt dataFits]
  rw [if_pos enough, location, transid, type, name, unle_le_of_lt transidFits,
    unle_le_of_lt typeFits, DirItem.length_bytes, fits.dataLen_eq]
  have same : item = ⟨item.location, item.transid, 0, item.type, item.name⟩ := by
    rw [← fits.dataLen_eq]
  rw [← same]
  rfl

/-! ## References from inodes to their directories -/

/-- A reference: `btrfs_inode_ref` with the name that follows it. -/
structure InodeRef where
  index : Nat
  name : Bytes
deriving DecidableEq

/-- `sizeof(btrfs_inode_ref)`. -/
def inodeRefSize : Nat := 10

/-- A reference as it is stored. -/
def InodeRef.bytes (ref : InodeRef) : Bytes :=
  le 8 ref.index ++ (le 2 ref.name.length ++ ref.name)

@[simp]
theorem InodeRef.length_bytes (ref : InodeRef) :
    ref.bytes.length = inodeRefSize + ref.name.length := by
  simp only [InodeRef.bytes, List.length_append, length_le, inodeRefSize]
  omega

/-- The reference at the start of a byte string, and its size. -/
def readInodeRef (bytes : Bytes) : Option (InodeRef × Nat) :=
  let nameLen := unle (slice bytes 8 2)
  if inodeRefSize + nameLen ≤ bytes.length then
    some
      ({ index := unle (slice bytes 0 8), name := slice bytes 10 nameLen },
        inodeRefSize + nameLen)
  else none

/-- The fields of the reference fit their widths. -/
structure InodeRef.Fits (ref : InodeRef) : Prop where
  index_lt : ref.index < 2 ^ 64
  name_lt : ref.name.length < 2 ^ 16

theorem InodeRef.Fits.reads
    {ref : InodeRef} (fits : ref.Fits) :
    Reads InodeRef.bytes readInodeRef ref := by
  refine ⟨by simp [inodeRefSize], fun rest => ?_⟩
  have shape : ref.bytes ++ rest =
      le 8 ref.index ++ (le 2 ref.name.length ++ (ref.name ++ rest)) := by
    simp only [InodeRef.bytes, List.append_assoc]
  have index : slice (ref.bytes ++ rest) 0 8 = le 8 ref.index := by
    rw [shape]
    exact slice_first _ (length_le 8 _)
  have nameLen : slice (ref.bytes ++ rest) 8 2 = le 2 ref.name.length := by
    rw [shape]
    exact slice_field _ (length_le 8 _) (length_le 2 _)
  have name : slice (ref.bytes ++ rest) 10 ref.name.length = ref.name := by
    rw [shape, ← List.append_assoc]
    exact slice_field _ (by simp) rfl
  have nameFits : ref.name.length < 256 ^ 2 := fits.name_lt
  have indexFits : ref.index < 256 ^ 8 := fits.index_lt
  have enough : inodeRefSize + ref.name.length ≤ (ref.bytes ++ rest).length := by
    rw [List.length_append, InodeRef.length_bytes]
    omega
  simp only [readInodeRef, nameLen, unle_le_of_lt nameFits]
  rw [if_pos enough, index, name, unle_le_of_lt indexFits, InodeRef.length_bytes]

end Ntfs2Btrfs
