import Ntfs2Btrfs.ChunkItems
import Ntfs2Btrfs.ExtentItems
import Ntfs2Btrfs.Links
import Ntfs2Btrfs.MetadataConsistency
import Ntfs2Btrfs.Superblocks

/-!
# The items of the first roots

The root tree has an item for every root but itself and the chunk root; the addresses,
levels and sizes in it are filled in at the end.  The chunk and device roots begin with
an item about the device.
-/

namespace Ntfs2Btrfs

open ByteStore
open SortedMap

namespace BtrfsKeyType

def rootBackref : Nat := 0x90
def rootRef : Nat := 0x9C
def devStats : Nat := 0xF9
def subvolUuid : Nat := 0xFB

end BtrfsKeyType

/-! ## The device -/

/-- The `btrfs_dev_item` of the device. -/
def devItemBytes (identity : DeviceIdentity) (deviceSize : Nat) : Bytes :=
  le 8 1 ++ (le 8 deviceSize ++ (le 8 0 ++ (le 4 sectorSize ++ (le 4 sectorSize ++
    (le 4 sectorSize ++ (le 8 0 ++ (le 8 0 ++ (le 8 0 ++ (le 4 0 ++ (le 1 0 ++ (le 1 0 ++
      (identity.devUuid ++ identity.fsid))))))))))))

/-- `add_dev_item` -/
def addDevItem (identity : DeviceIdentity) (deviceSize : Nat) (items : ItemMap) :
    Except ConvertError ItemMap :=
  addItem items 1 BtrfsKeyType.devItem 1 (devItemBytes identity deviceSize)

/-- `add_dev_stats` -/
def addDevStats (items : ItemMap) : Except ConvertError ItemMap :=
  addItem items 0 BtrfsKeyType.devStats 1 (List.replicate 40 0)

theorem length_devItemBytes (identity : DeviceIdentity) (deviceSize : Nat) :
    (devItemBytes identity deviceSize).length = devItemSize := by
  simp only [devItemBytes, List.length_append, length_le, identity.devUuid_length,
    identity.fsid_length]
  rfl

theorem slice_devItemBytes (identity : DeviceIdentity) (deviceSize : Nat) :
    unle (slice (devItemBytes identity deviceSize) 0 8) = 1 := by
  rw [devItemBytes, slice_first _ (length_le 8 _), unle_le_of_lt (by decide)]

/-! ## The root tree -/

/-- The first fields of the inode in a `btrfs_root_item`, and the root that it is about. -/
def rootItemBytes (id : Nat) (readonly : Bool) (uuid : Bytes) : Bytes :=
  let isSubvol : Bool := id = fsTreeObjectid ∨ id ≥ 0x100
  let inode := le 8 1 ++ le 8 0 ++ le 8 3 ++ le 8 treeSize ++ le 8 0 ++ le 4 1 ++ le 4 0 ++
    le 4 0 ++ le 4 0o40755 ++ le 8 0 ++ le 8 (if isSubvol then 1 <<< 31 else 0) ++ le 8 0 ++
    List.replicate 80 0
  -- bytenr, bytes_used and level are set in update_root_root
  inode ++ (le 8 1 ++ (le 8 (if isSubvol then firstFreeObjectid else 0) ++ (le 8 0 ++ (le 8 0 ++
    (le 8 0 ++ (le 8 0 ++ (le 8 (if readonly then 1 else 0) ++ (le 4 1 ++
      (List.replicate 18 0 ++ (le 1 0 ++ (le 8 1 ++ (uuid ++ List.replicate 176 0))))))))))))

theorem length_rootItemBytes
    (id : Nat) (readonly : Bool) {uuid : Bytes} (size : uuid.length = 16) :
    (rootItemBytes id readonly uuid).length = 439 := by
  simp only [rootItemBytes, List.length_append, length_le, List.length_replicate, size]

/-- A root with a number and the flag `readonly`. -/
structure ListedRoot where
  id : Nat
  readonly : Bool := false

/-- `add_to_root_root` -/
def addToRootRoot
    (subvolUuid : {uuid : Bytes // uuid.length = 16}) (items : ItemMap) (root : ListedRoot) :
    Except ConvertError ItemMap :=
  addItem items root.id BtrfsKeyType.rootItem 0
    (rootItemBytes root.id root.readonly
      (if root.id = imageSubvolId then subvolUuid.1 else List.replicate 16 0))

/-- The name `default`. -/
def defaultName : Bytes := [0x64, 0x65, 0x66, 0x61, 0x75, 0x6c, 0x74]

/-- `default_hash` -/
def defaultHash : Nat := 0x8dbfc2d2

example : nameHash defaultName = defaultHash := by decide +kernel

/-- The inode item of the directory of the root tree. -/
def rootDirInodeItem : Bytes :=
  le 8 1 ++ le 8 1 ++ le 8 0 ++ le 8 0 ++ le 8 0 ++ le 4 1 ++ le 4 0 ++
    le 4 0 ++ le 4 0o40755 ++ List.replicate 104 0

/-- The directory entry of the default subvolume. -/
def defaultDirItem : DirItem where
  location := btrfsKey fsTreeObjectid BtrfsKeyType.rootItem 0xffffffffffffffff
  transid := 0
  dataLen := 0
  type := dirItemTypeDir
  name := defaultName

/-- The `btrfs_root_ref` of the subvolume with the image. -/
def imageRootRef : Bytes :=
  le 8 firstFreeObjectid ++ (le 8 2 ++ (le 2 subvolName.length ++ subvolName))

/-- What `add_image_subvol` adds to the root tree. -/
def addImageRootRefs (items : ItemMap) : Except ConvertError ItemMap := do
  let items ← addItem items fsTreeObjectid BtrfsKeyType.rootRef imageSubvolId imageRootRef
  addItem items imageSubvolId BtrfsKeyType.rootBackref fsTreeObjectid imageRootRef

/-- The roots that have an item in the root tree. -/
def rootsWithItems (roots : List ListedRoot) : List ListedRoot :=
  roots.filter fun root => root.id ≠ 1 ∧ root.id ≠ chunkTreeObjectid

/-- `populate_root_root` -/
def populateRootRoot
    (subvolUuid : {uuid : Bytes // uuid.length = 16}) (roots : List ListedRoot)
    (items : ItemMap) : Except ConvertError ItemMap := do
  let items ← (rootsWithItems roots).foldlM (addToRootRoot subvolUuid) items
  let items ← addInodeRef items fsTreeObjectid rootTreeDirObjectid 0 defaultName
  let items ← addItem items rootTreeDirObjectid BtrfsKeyType.inodeItem 0 rootDirInodeItem
  let items ← addInodeRef items rootTreeDirObjectid rootTreeDirObjectid 0 parentName
  addItem items rootTreeDirObjectid BtrfsKeyType.dirItem defaultHash defaultDirItem.bytes

/-! ## The root items -/

/-- The item that the root tree has for a root. -/
def ListedRoot.record (subvolUuid : {uuid : Bytes // uuid.length = 16}) (root : ListedRoot) :
    BtrfsKey × Bytes :=
  (btrfsKey root.id BtrfsKeyType.rootItem 0,
    rootItemBytes root.id root.readonly
      (if root.id = imageSubvolId then subvolUuid.1 else List.replicate 16 0))

theorem ListedRoot.length_record
    (subvolUuid : {uuid : Bytes // uuid.length = 16}) (root : ListedRoot) :
    (root.record subvolUuid).2.length = 439 := by
  refine length_rootItemBytes _ _ ?_
  split_ifs
  · exact subvolUuid.2
  · exact List.length_replicate

theorem except_bind_eq_ok_iff
    {ε α β : Type} {outcome : Except ε α} {next : α → Except ε β} {result : β} :
    (outcome >>= next) = .ok result ↔ ∃ value, outcome = .ok value ∧ next value = .ok result := by
  cases outcome with
  | error failure =>
    refine iff_of_false (fun ended => ?_) fun ⟨value, ended, _⟩ => ?_
    · cases ended
    · cases ended
  | ok value =>
    refine ⟨fun ended => ⟨value, rfl, ended⟩, fun ⟨other, same, ended⟩ => ?_⟩
    obtain rfl := Except.ok.inj same
    exact ended

theorem addToRootRoot_added
    {subvolUuid : {uuid : Bytes // uuid.length = 16}} {roots : List ListedRoot}
    {items next : ItemMap} (added : roots.foldlM (addToRootRoot subvolUuid) items = .ok next) :
    ItemsAdded BtrfsKeyType.rootItem (roots.map (ListedRoot.record subvolUuid)) items next := by
  induction roots generalizing items with
  | nil =>
    cases added
    exact ItemsAdded.refl _ _
  | cons root rest ih =>
    rw [List.foldlM_cons] at added
    cases first : addToRootRoot subvolUuid items root with
    | error failure =>
      rw [first] at added
      cases added
    | ok middle =>
      rw [first] at added
      exact (itemsAdded_addItem (by decide) first).trans (ih added)

/-- Items of other types do not change the root items. -/
theorem itemsOfType_addItem
    {type other objectid offset : Nat} {items next : ItemMap} {data : Bytes}
    (added : addItem items objectid other offset data = .ok next) (small : other < 2 ^ 8)
    (different : other ≠ type) :
    (itemsOfType type next).Perm (itemsOfType type items) :=
  (itemsAdded_addItem small added).others type different.symm

theorem itemsOfType_assign
    {type : Nat} {items : ItemMap} {key : BtrfsKey} (data : Bytes) (other : key.type ≠ type) :
    (itemsOfType type (items.assign key data)).Perm (itemsOfType type items) := by
  have off : (itemsOfType type (items.erase key)) = itemsOfType type items := by
    rw [itemsOfType, itemsOfType, erase, List.filter_filter]
    refine List.filter_congr fun entry _ => ?_
    by_cases same : entry.1.type = type
    · have apart : entry.1 ≠ key := fun equal => other (equal ▸ same)
      simp [same, apart]
    · simp [same]
  have moved := (perm_assign items key data).filter fun entry => entry.1.type = type
  rw [List.filter_cons_of_neg (by simpa using other)] at moved
  rw [← off]
  exact moved

theorem itemsOfType_addInodeRef
    {type inode parent index : Nat} {items next : ItemMap} {name : Bytes}
    (added : addInodeRef items inode parent index name = .ok next)
    (different : BtrfsKeyType.inodeRef ≠ type) :
    (itemsOfType type next).Perm (itemsOfType type items) := by
  rw [addInodeRef] at added
  cases found : items.find? (btrfsKey inode BtrfsKeyType.inodeRef parent) with
  | some old =>
    rw [found] at added
    cases added
    exact itemsOfType_assign _ different
  | none =>
    rw [found] at added
    exact itemsOfType_addItem added (by decide) different

/-- The root items of the root tree are those of the roots that have one. -/
theorem populateRootRoot_rootItems
    {subvolUuid : {uuid : Bytes // uuid.length = 16}} {roots : List ListedRoot}
    {items next : ItemMap} (populated : populateRootRoot subvolUuid roots items = .ok next) :
    (itemsOfType BtrfsKeyType.rootItem next).Perm
      ((rootsWithItems roots).map (ListedRoot.record subvolUuid) ++
        itemsOfType BtrfsKeyType.rootItem items) := by
  obtain ⟨first, listed, populated⟩ := except_bind_eq_ok_iff.mp populated
  obtain ⟨second, refs, populated⟩ := except_bind_eq_ok_iff.mp populated
  obtain ⟨third, inode, populated⟩ := except_bind_eq_ok_iff.mp populated
  obtain ⟨fourth, refs', entry⟩ := except_bind_eq_ok_iff.mp populated
  refine (itemsOfType_addItem entry (by decide) (by decide)).trans ?_
  refine (itemsOfType_addInodeRef refs' (by decide)).trans ?_
  refine (itemsOfType_addItem inode (by decide) (by decide)).trans ?_
  refine (itemsOfType_addInodeRef refs (by decide)).trans ?_
  exact (addToRootRoot_added listed).records

end Ntfs2Btrfs
