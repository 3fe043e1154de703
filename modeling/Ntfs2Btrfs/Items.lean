import Ntfs2Btrfs.Basic
import Ntfs2Btrfs.Lib.ByteStore
import Ntfs2Btrfs.Lib.SortedMap
import Mathlib.Data.Prod.Lex
import Mathlib.Order.Nat

/-!
# Btrfs keys and item maps

The keys of a Btrfs tree are ordered by object id, then type, then offset.
The items of a tree under construction are an ordered map from keys to raw
bytes, and `add_item` refuses to overwrite an existing entry.
-/

namespace Ntfs2Btrfs

open ByteStore

/-! ## Keys -/

/-- A key of a Btrfs tree; each field fits its width on disk. -/
@[ext]
structure BtrfsKey where
  objectid : Nat
  type : Nat
  offset : Nat
  objectid_lt : objectid < 2 ^ 64
  type_lt : type < 2 ^ 8
  offset_lt : offset < 2 ^ 64
deriving DecidableEq, Repr

/-- The key with the given fields, each reduced to its width. -/
def btrfsKey (objectid type offset : Nat) : BtrfsKey where
  objectid := objectid % 2 ^ 64
  type := type % 2 ^ 8
  offset := offset % 2 ^ 64
  objectid_lt := Nat.mod_lt _ (by decide)
  type_lt := Nat.mod_lt _ (by decide)
  offset_lt := Nat.mod_lt _ (by decide)

@[simp]
theorem btrfsKey_objectid (objectid type offset : Nat) :
    (btrfsKey objectid type offset).objectid = objectid % 2 ^ 64 :=
  rfl

@[simp]
theorem btrfsKey_type (objectid type offset : Nat) :
    (btrfsKey objectid type offset).type = type % 2 ^ 8 :=
  rfl

@[simp]
theorem btrfsKey_offset (objectid type offset : Nat) :
    (btrfsKey objectid type offset).offset = offset % 2 ^ 64 :=
  rfl

namespace BtrfsKey

/-- The fields in the order in which keys are compared. -/
def fields (key : BtrfsKey) : Nat ×ₗ Nat ×ₗ Nat :=
  toLex (key.objectid, toLex (key.type, key.offset))

theorem fields_injective : Function.Injective fields := by
  intro left right equal
  have outer := Prod.mk.inj (toLex_inj.mp equal)
  have inner := Prod.mk.inj (toLex_inj.mp outer.2)
  exact BtrfsKey.ext outer.1 inner.1 inner.2

instance : LinearOrder BtrfsKey :=
  LinearOrder.lift' fields fields_injective

theorem lt_iff (left right : BtrfsKey) :
    left < right ↔
      left.objectid < right.objectid ∨
        left.objectid = right.objectid ∧
          (left.type < right.type ∨
            left.type = right.type ∧ left.offset < right.offset) := by
  change left.fields < right.fields ↔ _
  simp [fields, Prod.Lex.toLex_lt_toLex]

end BtrfsKey

/-! ## Key types -/

namespace BtrfsKeyType

def inodeItem : Nat := 0x01
def inodeRef : Nat := 0x0C
def dirItem : Nat := 0x54
def dirIndex : Nat := 0x60
def extentData : Nat := 0x6C
def extentCsum : Nat := 0x80
def rootItem : Nat := 0x84
def extentItem : Nat := 0xA8
def metadataItem : Nat := 0xA9
def treeBlockRef : Nat := 0xB0
def blockGroupItem : Nat := 0xC0
def devExtent : Nat := 0xCC
def devItem : Nat := 0xD8
def chunkItem : Nat := 0xE4

end BtrfsKeyType

/-! ## Item maps -/

abbrev ItemMap := SortedMap BtrfsKey Bytes

/-- Insert a new item; an item that already has the key is an error. -/
def addItem
    (items : ItemMap) (objectid type offset : Nat) (data : Bytes) :
    Except ConvertError ItemMap :=
  if (items.find? (btrfsKey objectid type offset)).isSome then
    .error (.couldNotInsert objectid type offset)
  else .ok (items.emplace (btrfsKey objectid type offset) data)

theorem addItem_ok_iff
    {items next : ItemMap} {objectid type offset : Nat} {data : Bytes} :
    addItem items objectid type offset data = .ok next ↔
      btrfsKey objectid type offset ∉ items.keys ∧
        next = items.emplace (btrfsKey objectid type offset) data := by
  rw [addItem, ← SortedMap.find?_eq_none_iff, ← Option.isNone_iff_eq_none]
  cases items.find? (btrfsKey objectid type offset) <;> simp [eq_comm]

/-- The key under which the extent tree describes a tree block. -/
def metadataKey (address level : Nat) : BtrfsKey :=
  btrfsKey address BtrfsKeyType.metadataItem level

def extentFlagTreeBlock : Nat := 2

/-- A `metadata_item`: an extent item with an inline reference to the owning root. -/
def metadataItem (root : Nat) : Bytes :=
  le 8 1 ++ le 8 1 ++ le 8 extentFlagTreeBlock ++
    le 1 BtrfsKeyType.treeBlockRef ++ le 8 root

@[simp]
theorem length_metadataItem (root : Nat) :
    (metadataItem root).length = 33 := by
  simp [metadataItem]

end Ntfs2Btrfs
