import Ntfs2Btrfs.Links
import Ntfs2Btrfs.Superblocks

/-!
# Walking the trees of a volume

The class `btrfs` of `rollback` opens a volume by its superblock: it takes the
system chunks out of the superblock, walks the chunk tree with them, and from then
on finds every block by the chunks of that tree.  `rollback` walks the root tree to
the image subvolume and the tree of that to the image file and its extents.

A walk is bounded by a depth here; it has no result when a tree is deeper.
-/

namespace Ntfs2Btrfs

open ByteStore
open BlockTrees

/-! ## Reading blocks -/

/-- What the walks throw, besides the errors of `rollback` itself. -/
inductive WalkError where
  | rollback (error : RollbackError)
  | unsupportedProfile (text : String)
  | noStripes
  | otherDevice
  | noRoot (root : Nat)
  | imageNotInode (type : Nat)
  | noImage
deriving DecidableEq

/-- An opened volume. -/
structure Btrfs where
  deviceEnd : Nat
  device : Store
  sb : Bytes
  chunks : SortedMap Nat Bytes

/-- The profiles that `btrfs::read` does not support, in the order of its checks. -/
def unsupportedProfiles : List (Nat × String) :=
  [(0x8, "FIXME - RAID 0"), (0x10, "FIXME - RAID 1"), (0x20, "FIXME - DUP"),
    (0x40, "FIXME - RAID10"), (0x80, "FIXME - RAID5"), (0x100, "FIXME - RAID6"),
    (0x200, "FIXME - RAID1C3"), (0x400, "FIXME - RAID1C4")]

namespace Btrfs

/-- `btrfs::find_chunk` -/
def findChunk (b : Btrfs) (addr : Nat) : Except WalkError (Nat × Bytes) :=
  match b.chunks.entries.find? fun c =>
      c.1 ≤ addr ∧ addr < (c.1 + chunkItemLength c.2) % wordModulus with
  | none => .error (.rollback (.noChunk addr))
  | some c => .ok c

/-- `btrfs::read` -/
def read (b : Btrfs) (addr len : Nat) : Except WalkError Bytes := do
  let c ← b.findChunk addr
  match unsupportedProfiles.find? fun profile => chunkItemType c.2 &&& profile.1 ≠ 0 with
  | some profile => .error (.unsupportedProfile profile.2)
  | none =>
      if chunkItemStripes c.2 = 0 then .error .noStripes
      else if chunkItemDevid c.2 ≠ superblockDevid b.sb then .error .otherDevice
      else
        let physical := (addr - c.1 + chunkItemOffset c.2) % wordModulus
        (rawRead b.deviceEnd b.device physical len).mapError .rollback

/-- The block at an address. -/
def block (b : Btrfs) (addr : Nat) : Except WalkError (Block (BtrfsKey × Bytes) BtrfsKey) :=
  (b.read addr (superblockNodesize b.sb)).map readBlock

/-- `btrfs::walk_tree` -/
def walkTree
    {σ : Type} (b : Btrfs) (func : BtrfsKey × Bytes → σ → Except WalkError (Bool × σ))
    (depth addr : Nat) (state : σ) : Option (Except WalkError (Bool × σ)) :=
  walk func b.block depth addr state

end Btrfs

/-! ## Opening a volume -/

/-- The callback of `btrfs::read_chunks`. -/
def chunkFunc (entry : BtrfsKey × Bytes) (chunks : SortedMap Nat Bytes) :
    Except WalkError (Bool × SortedMap Nat Bytes) :=
  if entry.1.type ≠ BtrfsKeyType.chunkItem then .ok (true, chunks)
  else .ok (true, chunks.emplace entry.1.offset entry.2)

/-- `btrfs::read_chunks` -/
def readChunks (depth deviceEnd : Nat) (device : Store) (sb : Bytes) :
    Option (Except WalkError (SortedMap Nat Bytes)) :=
  (Btrfs.walkTree ⟨deviceEnd, device, sb, readSysChunks sb⟩ chunkFunc depth
    (superblockChunkRoot sb) SortedMap.empty).map fun walked => walked.map Prod.snd

/-- The constructor of `btrfs`, on a device that ends at `deviceEnd`. -/
def openBtrfs (depth deviceEnd : Nat) (device : Store) : Option (Except WalkError Btrfs) :=
  match readSuperblock deviceEnd device with
  | .error error => some (.error (.rollback error))
  | .ok sb =>
      (readChunks depth deviceEnd device sb).map fun chunks =>
        chunks.map fun chunks => ⟨deviceEnd, device, sb, chunks⟩

/-! ## Finding a root -/

/-- `offsetof(btrfs_root_item, bytenr)` -/
def rootItemBytenrOffset : Nat := 176

/-- `btrfs_root_item::bytenr` -/
def rootItemBytenr (item : Bytes) : Nat :=
  unle (slice item rootItemBytenrOffset 8)

/-- The item of a root. -/
def IsRootItem (root : Nat) (entry : BtrfsKey × Bytes) : Bool :=
  entry.1.objectid = root ∧ entry.1.type = BtrfsKeyType.rootItem

/-- The callback of `btrfs::find_root_addr`. -/
def rootFunc (root : Nat) (entry : BtrfsKey × Bytes) (ret : Option Nat) :
    Except WalkError (Bool × Option Nat) :=
  if IsRootItem root entry then .ok (false, some (rootItemBytenr entry.2)) else .ok (true, ret)

/-- `btrfs::find_root_addr` -/
def Btrfs.findRootAddr (b : Btrfs) (depth root : Nat) : Option (Except WalkError Nat) :=
  (b.walkTree (rootFunc root) depth (superblockRoot b.sb) none).map fun walked =>
    match walked with
    | .error error => .error error
    | .ok (_, none) => .error (.noRoot root)
    | .ok (_, some bytenr) => .ok bytenr

/-! ## The image file -/

/-- `image_filename`, `ntfs.img`. -/
def imageFilename : Bytes := [0x6e, 0x74, 0x66, 0x73, 0x2e, 0x69, 0x6d, 0x67]

/-- The callback with which `rollback` looks for the inode of the image file. -/
def imageFunc (entry : BtrfsKey × Bytes) (inode : Nat) : Except WalkError (Bool × Nat) :=
  let key := entry.1
  if key.objectid > firstFreeObjectid ∨
      key.objectid = firstFreeObjectid ∧ key.type > BtrfsKeyType.dirItem then .ok (false, inode)
  else if key.objectid = firstFreeObjectid ∧ key.type = BtrfsKeyType.dirItem ∧
      key.offset = nameHash imageFilename then
    let location := readKey entry.2
    let nameLen := unle (slice entry.2 27 2)
    if nameLen = imageFilename.length ∧ slice entry.2 dirItemSize nameLen = imageFilename then
      if location.type ≠ BtrfsKeyType.inodeItem then .error (.imageNotInode location.type)
      else .ok (false, location.objectid)
    else .ok (false, inode)
  else .ok (true, inode)

/-- The search of `rollback` for the inode of the image file. -/
def Btrfs.findImage (b : Btrfs) (depth addr : Nat) : Option (Except WalkError Nat) :=
  (b.walkTree imageFunc depth addr 0).map fun walked =>
    match walked with
    | .error error => .error error
    | .ok (_, inode) => if inode = 0 then .error .noImage else .ok inode

/-- The callback with which `rollback` collects the extents of the image file. -/
def extentFunc (inode : Nat) (entry : BtrfsKey × Bytes) (extents : SortedMap Nat (Nat × Nat)) :
    Except WalkError (Bool × SortedMap Nat (Nat × Nat)) :=
  let key := entry.1
  if key.objectid > inode ∨ key.objectid = inode ∧ key.type > BtrfsKeyType.extentData then
    .ok (false, extents)
  else if key.objectid ≠ inode ∨ key.type ≠ BtrfsKeyType.extentData then .ok (true, extents)
  else
    let ed := readFileExtentItem entry.2
    if ed.compression ≠ compressionNone then .error (.rollback .imageCompressed)
    -- treat as if sparse
    else if ed.type = extentPrealloc then .ok (true, extents)
    else if ed.type = extentInline then .error (.rollback .imageInline)
    else if ed.type ≠ extentReg then .error (.rollback (.unknownExtentType ed.type))
    else if ed.diskBytenr = 0 ∧ ed.diskNumBytes = 0 then .ok (true, extents)
    else .ok (true, extents.emplace key.offset (ed.diskBytenr, ed.diskNumBytes))

/-- A chunk item, as the loops over the extents use it. -/
def readChunkEntry (item : Bytes) : ChunkEntry :=
  ⟨chunkItemLength item, chunkItemType item, chunkItemOffset item⟩

def chunkEntries (chunks : SortedMap Nat Bytes) : SortedMap Nat ChunkEntry where
  entries := chunks.entries.map fun c => (c.1, readChunkEntry c.2)
  sorted := List.pairwise_map.mpr chunks.sorted

/-- `rollback`, on an opened volume. -/
def Btrfs.rollback (b : Btrfs) (depth : Nat) : Option (Except WalkError Store) := do
  match ← b.findRootAddr depth imageSubvolId with
  | .error error => some (.error error)
  | .ok addr =>
      match ← b.findImage depth addr with
      | .error error => some (.error error)
      | .ok inode =>
          match ← b.walkTree (extentFunc inode) depth addr SortedMap.empty with
          | .error error => some (.error error)
          | .ok (_, extents) =>
              let relocs := readRelocs b.deviceEnd (chunkEntries b.chunks) b.device
                extents.entries
              some ((relocs.map (Store.writeAll b.device)).mapError .rollback)

/-- `rollback`, on a device. -/
def rollbackDevice (depth deviceEnd : Nat) (device : Store) : Option (Except WalkError Store) := do
  match ← openBtrfs depth deviceEnd device with
  | .error error => some (.error error)
  | .ok b => b.rollback depth

end Ntfs2Btrfs
