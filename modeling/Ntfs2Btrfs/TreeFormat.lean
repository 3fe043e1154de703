import Ntfs2Btrfs.Crc32c
import Ntfs2Btrfs.Lib.BlockTree
import Ntfs2Btrfs.Root
import Ntfs2Btrfs.TreeBuilding

/-!
# Tree blocks on disk

A tree block is a header and the space behind it.  A leaf fills the space from
both ends: the headers of its items from the front, their data from the back.  A
node fills it with pointers.  `btrfs::walk_tree` takes such a block apart again.
-/

namespace Ntfs2Btrfs

open ByteStore
open BlockTrees

/-! ## Headers -/

/--
The identifiers that all blocks share, and `calc_tree_hash`: the checksum field
for the bytes behind it.
-/
structure TreeIdentity where
  fsid : Bytes
  chunkTreeUuid : Bytes
  csum : Bytes → Bytes
  fsid_length : fsid.length = 16
  chunkTreeUuid_length : chunkTreeUuid.length = 16
  csum_length : ∀ bytes, (csum bytes).length = 32

/-- `calc_tree_hash` for CRC-32C, which leaves the rest of the field zero. -/
def treeHashCrc32c (bytes : Bytes) : Bytes :=
  le 4 (2 ^ 32 - 1 - calcCrc32c 0xffffffff bytes) ++ List.replicate 28 0

/-- `BTRFS_HEADER_FLAG_MIXED_BACKREF | BTRFS_HEADER_FLAG_WRITTEN` -/
def headerFlags : Nat := 1 <<< 56 ||| 1

/-- The fields of `btrfs_header` behind the checksum. -/
def headerFields (identity : TreeIdentity) (owner bytenr nritems level : Nat) : Bytes :=
  identity.fsid ++ (le 8 bytenr ++ (le 8 headerFlags ++ (identity.chunkTreeUuid ++
    (le 8 1 ++ (le 8 owner ++ (le 4 nritems ++ le 1 level))))))

theorem length_headerFields (identity : TreeIdentity) (owner bytenr nritems level : Nat) :
    (headerFields identity owner bytenr nritems level).length = 69 := by
  simp only [headerFields, List.length_append, length_le, identity.fsid_length,
    identity.chunkTreeUuid_length]

/-- `btrfs_header::bytenr` -/
def headerBytenr (block : Bytes) : Nat :=
  unle (slice block 48 8)

/-- `btrfs_header::nritems` -/
def headerNritems (block : Bytes) : Nat :=
  unle (slice block 96 4)

/-- `btrfs_header::level` -/
def headerLevel (block : Bytes) : Nat :=
  unle (slice block 100 1)

/-! ## Leaves -/

/-- A leaf that is being filled, without its header. -/
structure LeafBuffer where
  bytes : Bytes
  dataOff : Nat
  numItems : Nat

def LeafBuffer.empty : LeafBuffer :=
  ⟨List.replicate blockSpace 0, blockSpace, 0⟩

/-- A `btrfs_item`. -/
def itemHeader (key : BtrfsKey) (offset size : Nat) : Bytes :=
  key.bytes ++ (le 4 offset ++ le 4 size)

/-- One turn of the loop over the items. -/
def LeafBuffer.put (buffer : LeafBuffer) (entry : BtrfsKey × Bytes) : LeafBuffer :=
  let dataOff := buffer.dataOff - entry.2.length
  { bytes :=
      patch (patch buffer.bytes dataOff entry.2) (itemSize * buffer.numItems)
        (itemHeader entry.1 dataOff entry.2.length)
    dataOff := dataOff
    numItems := buffer.numItems + 1 }

def leafBytes (items : List (BtrfsKey × Bytes)) : Bytes :=
  (items.foldl LeafBuffer.put LeafBuffer.empty).bytes

/-- An item of a leaf, as `walk_tree` hands it to its callback. -/
def readItem (space : Bytes) (index : Nat) : BtrfsKey × Bytes :=
  let item := slice space (itemSize * index) itemSize
  (readKey item, slice space (unle (slice item 17 4)) (unle (slice item 21 4)))

/-- What the items of a leaf take of its space. -/
def leafCost (items : List (BtrfsKey × Bytes)) : Nat :=
  (items.map fun entry => itemCost entry.2).sum

theorem leafCost_append (front back : List (BtrfsKey × Bytes)) :
    leafCost (front ++ back) = leafCost front + leafCost back := by
  rw [leafCost, List.map_append, List.sum_append, leafCost, leafCost]

/-- The space that the data of the items takes. -/
def leafData (items : List (BtrfsKey × Bytes)) : Nat :=
  (items.map fun entry => entry.2.length).sum

theorem leafData_append (front back : List (BtrfsKey × Bytes)) :
    leafData (front ++ back) = leafData front + leafData back := by
  rw [leafData, List.map_append, List.sum_append, leafData, leafData]

theorem leafCost_eq (items : List (BtrfsKey × Bytes)) :
    leafCost items = itemSize * items.length + leafData items := by
  induction items with
  | nil => rfl
  | cons entry rest ih =>
    have tail : leafCost (entry :: rest) = itemCost entry.2 + leafCost rest := List.sum_cons
    have dataTail : leafData (entry :: rest) = entry.2.length + leafData rest := List.sum_cons
    rw [tail, dataTail, ih, itemCost, List.length_cons]
    ring

theorem length_itemHeader (key : BtrfsKey) (offset size : Nat) :
    (itemHeader key offset size).length = itemSize := by
  simp only [itemHeader, List.length_append, key.length_bytes, length_le]
  rfl

/--
The leaf after some items: the headers are in front of the data, and each item
has its header at its index and its data where the header says.
-/
structure LeafBuffer.Filled (items : List (BtrfsKey × Bytes)) (buffer : LeafBuffer) : Prop where
  length : buffer.bytes.length = blockSpace
  numItems : buffer.numItems = items.length
  dataOff : buffer.dataOff + leafData items = blockSpace
  apart : itemSize * items.length ≤ buffer.dataOff
  stored : ∀ front entry back, items = front ++ entry :: back →
    slice buffer.bytes (itemSize * front.length) itemSize =
        itemHeader entry.1 (blockSpace - leafData (front ++ [entry])) entry.2.length ∧
      slice buffer.bytes (blockSpace - leafData (front ++ [entry])) entry.2.length = entry.2

theorem filled_empty : LeafBuffer.empty.Filled [] where
  length := List.length_replicate
  numItems := rfl
  dataOff := rfl
  apart := Nat.zero_le _
  stored := fun _ _ _ equal => by simp at equal

/-- Putting an item for which there is room keeps the headers and the data of the others. -/
theorem LeafBuffer.Filled.put
    {items : List (BtrfsKey × Bytes)} {buffer : LeafBuffer} (filled : buffer.Filled items)
    {entry : BtrfsKey × Bytes} (room : leafCost (items ++ [entry]) ≤ blockSpace) :
    (buffer.put entry).Filled (items ++ [entry]) := by
  obtain ⟨length, numItems, dataOff, apart, stored⟩ := filled
  have cost := leafCost_eq (items ++ [entry])
  have data : leafData (items ++ [entry]) = leafData items + entry.2.length := by
    rw [leafData_append]
    rfl
  rw [List.length_append, List.length_singleton, Nat.mul_succ] at cost
  have headerFits : itemSize * items.length + itemSize ≤ buffer.dataOff - entry.2.length := by
    omega
  have dataFits : buffer.dataOff - entry.2.length + entry.2.length ≤ buffer.bytes.length := by
    omega
  have width := length_itemHeader entry.1 (buffer.dataOff - entry.2.length) entry.2.length
  have headerInside : itemSize * buffer.numItems +
      (itemHeader entry.1 (buffer.dataOff - entry.2.length) entry.2.length).length ≤
        (patch buffer.bytes (buffer.dataOff - entry.2.length) entry.2).length := by
    rw [length_patch dataFits, width, numItems]
    omega
  refine ⟨?_, ?_, ?_, ?_, ?_⟩
  · rw [LeafBuffer.put, length_patch headerInside, length_patch dataFits, length]
  · rw [LeafBuffer.put, List.length_append, List.length_singleton, ← numItems]
  · simp only [LeafBuffer.put]
    omega
  · simp only [LeafBuffer.put, List.length_append, List.length_singleton, Nat.mul_succ]
    exact headerFits
  · intro front other back shape
    simp only [LeafBuffer.put]
    rcases List.eq_nil_or_concat back with rfl | ⟨middle, last, rfl⟩
    · -- the item that was put
      obtain ⟨rfl, same⟩ := List.append_inj' shape rfl
      obtain rfl := (List.cons.inj same).1
      have place : blockSpace - leafData (items ++ [entry]) =
          buffer.dataOff - entry.2.length := by
        omega
      rw [place, ← numItems]
      refine ⟨?_, ?_⟩
      · have self := slice_patch_self headerInside
        rwa [width] at self
      · rw [slice_patch_disjoint headerInside (Or.inr (by rw [width, numItems]; exact headerFits)),
          slice_patch_self dataFits]
    · -- an item that was there before
      rw [List.concat_eq_append, ← List.cons_append, ← List.append_assoc] at shape
      obtain ⟨shape, same⟩ := List.append_inj' shape rfl
      obtain ⟨headerAt, dataAt⟩ := stored front other middle shape
      have total := leafData_append front (other :: middle)
      have more : leafData (front ++ [other]) ≤ leafData items := by
        rw [shape, leafData_append, leafData_append]
        have tail : leafData (other :: middle) = leafData [other] + leafData middle :=
          leafData_append [other] middle
        omega
      have least : other.2.length ≤ leafData (front ++ [other]) := by
        rw [leafData_append]
        exact Nat.le_add_left _ _
      have index : front.length + 1 ≤ items.length := by
        rw [shape, List.length_append, List.length_cons]
        omega
      have headerPlace : itemSize * front.length + itemSize ≤ itemSize * items.length := by
        rw [← Nat.mul_succ]
        exact Nat.mul_le_mul_left _ index
      refine ⟨?_, ?_⟩
      · rw [slice_patch_disjoint headerInside (Or.inl (by rw [numItems]; exact headerPlace)),
          slice_patch_disjoint dataFits (Or.inl (by omega)), headerAt]
      · rw [slice_patch_disjoint headerInside (Or.inr (by rw [width, numItems]; omega)),
          slice_patch_disjoint dataFits (Or.inr (by omega)), dataAt]

theorem filled_foldl
    {items : List (BtrfsKey × Bytes)} (room : leafCost items ≤ blockSpace) :
    (items.foldl LeafBuffer.put LeafBuffer.empty).Filled items := by
  induction items using List.reverseRecOn with
  | nil => exact filled_empty
  | append_singleton front entry ih =>
    have fits : leafCost front ≤ blockSpace := by
      rw [leafCost_append] at room
      omega
    rw [List.foldl_append]
    exact (ih fits).put room

/-- A header in front of anything is read back. -/
theorem readKey_itemHeader (key : BtrfsKey) (offset size : Nat) :
    readKey (itemHeader key offset size) = key :=
  readKey_bytes_append key _

theorem slice_itemHeader (key : BtrfsKey) (offset size : Nat) :
    slice (itemHeader key offset size) 17 4 = le 4 offset ∧
      slice (itemHeader key offset size) 21 4 = le 4 size := by
  rw [itemHeader]
  refine ⟨?_, ?_⟩
  · rw [slice_behind key.length_bytes le_rfl]
    exact slice_first _ (length_le 4 offset)
  · rw [slice_behind key.length_bytes (by decide), slice_behind (length_le 4 offset) le_rfl]
    rw [← List.append_nil (le 4 size)]
    exact slice_first _ (length_le 4 size)

/-- Every item that a leaf was filled with is read back. -/
theorem LeafBuffer.Filled.readItem
    {items : List (BtrfsKey × Bytes)} {buffer : LeafBuffer} (filled : buffer.Filled items)
    {index : Nat} {entry : BtrfsKey × Bytes} (found : items[index]? = some entry) :
    Ntfs2Btrfs.readItem buffer.bytes index = entry := by
  obtain ⟨inside, rfl⟩ := List.getElem?_eq_some_iff.mp found
  have shape : items = items.take index ++ items[index] :: items.drop (index + 1) := by
    rw [List.getElem_cons_drop, List.take_append_drop]
  obtain ⟨headerAt, dataAt⟩ := filled.stored _ _ _ shape
  have length : (items.take index).length = index := by
    rw [List.length_take]
    omega
  rw [length] at headerAt
  obtain ⟨offsetField, sizeField⟩ := slice_itemHeader items[index].1
    (blockSpace - leafData (items.take index ++ [items[index]])) items[index].2.length
  have space : blockSpace < 256 ^ 4 := by decide
  have small : items[index].2.length ≤ blockSpace := by
    have whole := filled.dataOff
    have part : leafData items = leafData (items.take index) +
        leafData (items[index] :: items.drop (index + 1)) := by
      rw [← leafData_append, ← shape]
    have tail : leafData (items[index] :: items.drop (index + 1)) =
        items[index].2.length + leafData (items.drop (index + 1)) := List.sum_cons
    omega
  rw [Ntfs2Btrfs.readItem, headerAt, readKey_itemHeader, offsetField, sizeField,
    unle_le_of_lt (by omega), unle_le_of_lt (by omega), dataAt]

theorem range_map_eq
    {α : Type*} {list : List α} {read : Nat → α}
    (reads : ∀ index element, list[index]? = some element → read index = element) :
    (List.range list.length).map read = list := by
  refine List.ext_getElem? fun index => ?_
  rw [List.getElem?_map]
  cases found : list[index]? with
  | none =>
    rw [List.getElem?_eq_none_iff] at found
    rw [List.getElem?_eq_none (by rw [List.length_range]; exact found), Option.map_none]
  | some element =>
    have inside := (List.getElem?_eq_some_iff.mp found).1
    rw [List.getElem?_range inside, Option.map_some, reads index element found]

/-! ## Nodes -/

/-- A `btrfs_key_ptr`. -/
def KeyPtr.bytes (pointer : KeyPtr) : Bytes :=
  pointer.key.bytes ++ (le 8 pointer.blockptr ++ le 8 1)

theorem KeyPtr.length_bytes (pointer : KeyPtr) : pointer.bytes.length = keyPtrSize := by
  simp only [KeyPtr.bytes, List.length_append, pointer.key.length_bytes, length_le]
  rfl

/-- The pointers of a node, one behind the other. -/
def nodeBytes (pointers : List KeyPtr) : Bytes :=
  (pointers.map KeyPtr.bytes).flatten ++
    List.replicate (blockSpace - keyPtrSize * pointers.length) 0

/-- A pointer of a node, as `walk_tree` follows it. -/
def readKeyPtr (space : Bytes) (index : Nat) : BtrfsKey × Nat :=
  let pointer := slice space (keyPtrSize * index) keyPtrSize
  (readKey pointer, unle (slice pointer 17 8))

theorem length_flatten_bytes (pointers : List KeyPtr) :
    (pointers.map KeyPtr.bytes).flatten.length = keyPtrSize * pointers.length := by
  induction pointers with
  | nil => rfl
  | cons pointer rest ih =>
    rw [List.map_cons, List.flatten_cons, List.length_append, ih, pointer.length_bytes,
      List.length_cons, Nat.mul_succ, Nat.add_comm]

theorem length_nodeBytes
    {pointers : List KeyPtr} (room : keyPtrSize * pointers.length ≤ blockSpace) :
    (nodeBytes pointers).length = blockSpace := by
  rw [nodeBytes, List.length_append, length_flatten_bytes, List.length_replicate]
  omega

/-- Every pointer is read back. -/
theorem readKeyPtr_nodeBytes
    {pointers : List KeyPtr} {index : Nat} {pointer : KeyPtr}
    (found : pointers[index]? = some pointer) (small : pointer.blockptr < 2 ^ 64) :
    readKeyPtr (nodeBytes pointers) index = (pointer.key, pointer.blockptr) := by
  have part : (pointers.map KeyPtr.bytes)[index]? = some pointer.bytes := by
    rw [List.getElem?_map, found, Option.map_some]
  have place : ((pointers.map KeyPtr.bytes).take index).flatten.length =
      keyPtrSize * index := by
    have inside := (List.getElem?_eq_some_iff.mp found).1
    rw [← List.map_take, length_flatten_bytes, List.length_take]
    rw [Nat.min_eq_left inside.le]
  have stored := slice_flatten part
    (List.replicate (blockSpace - keyPtrSize * pointers.length) 0)
  rw [place, pointer.length_bytes] at stored
  rw [readKeyPtr, nodeBytes, stored, KeyPtr.bytes, readKey_bytes_append,
    slice_behind pointer.key.length_bytes le_rfl]
  rw [slice_first _ (length_le 8 pointer.blockptr), unle_le_of_lt small]

/-! ## Whole blocks -/

/-- The space behind the header. -/
def BlockBody.bytes : BlockBody → Bytes
  | .leaf items => leafBytes items
  | .node pointers => nodeBytes pointers

def BlockBody.numItems : BlockBody → Nat
  | .leaf items => items.length
  | .node pointers => pointers.length

/-- A block as `create_trees` adds it to `trees`. -/
def encodeBlock (identity : TreeIdentity) (owner : Nat) (block : TreeBlock) : Bytes :=
  let rest :=
    headerFields identity owner block.bytenr block.body.numItems block.level ++
      block.body.bytes
  identity.csum rest ++ rest

/-- The items of a block of level 0 and the pointers of another. -/
def readBlock (bytes : Bytes) : Block (BtrfsKey × Bytes) BtrfsKey :=
  let space := bytes.drop headerSize
  if headerLevel bytes ≠ 0 then
    .node ((List.range (headerNritems bytes)).map (readKeyPtr space))
  else .leaf ((List.range (headerNritems bytes)).map (readItem space))

/-- What a block is read as. -/
def BlockBody.contents : BlockBody → Block (BtrfsKey × Bytes) BtrfsKey
  | .leaf items => .leaf items
  | .node pointers => .node (pointers.map fun pointer => (pointer.key, pointer.blockptr))

/-- The block fits in its space and its fields in theirs, and leaves are at level 0. -/
structure TreeBlock.Fits (block : TreeBlock) : Prop where
  bytenr : block.bytenr < 2 ^ 64
  level : block.level < 2 ^ 8
  body :
    match block.body with
    | .leaf items => block.level = 0 ∧ leafCost items ≤ blockSpace
    | .node pointers =>
        block.level ≠ 0 ∧ keyPtrSize * pointers.length ≤ blockSpace ∧
          ∀ pointer ∈ pointers, pointer.blockptr < 2 ^ 64

section Encode

variable {identity : TreeIdentity} {owner : Nat} {block : TreeBlock}

theorem TreeBlock.Fits.length_bytes (fits : block.Fits) :
    block.body.bytes.length = blockSpace := by
  have body := fits.body
  revert body
  cases block.body with
  | leaf items => exact fun body => (filled_foldl body.2).length
  | node pointers => exact fun body => length_nodeBytes body.2.1

theorem TreeBlock.Fits.numItems_lt (fits : block.Fits) : block.body.numItems < 256 ^ 4 := by
  have body := fits.body
  have space : blockSpace < 256 ^ 4 := by decide
  revert body
  cases block.body with
  | leaf items =>
    intro body
    have cost := leafCost_eq items
    have header : 1 * items.length ≤ itemSize * items.length :=
      Nat.mul_le_mul_right _ (by decide)
    simp only [BlockBody.numItems]
    omega
  | node pointers =>
    intro body
    have pointer : 1 * pointers.length ≤ keyPtrSize * pointers.length :=
      Nat.mul_le_mul_right _ (by decide)
    have room := body.2.1
    simp only [BlockBody.numItems]
    omega

theorem length_encodeBlock (fits : block.Fits) :
    (encodeBlock identity owner block).length = treeSize := by
  rw [encodeBlock, List.length_append, List.length_append, identity.csum_length,
    length_headerFields, fits.length_bytes]
  rfl

/-- The header of an encoded block. -/
theorem header_encodeBlock (fits : block.Fits) :
    headerBytenr (encodeBlock identity owner block) = block.bytenr ∧
      headerNritems (encodeBlock identity owner block) = block.body.numItems ∧
      headerLevel (encodeBlock identity owner block) = block.level := by
  have csum := identity.csum_length
  have fsid := identity.fsid_length
  have uuid := identity.chunkTreeUuid_length
  rw [headerBytenr, headerNritems, headerLevel, encodeBlock]
  simp only [headerFields, List.append_assoc]
  refine ⟨?_, ?_, ?_⟩
  · rw [slice_behind (csum _) (by decide), slice_behind fsid (by decide),
      slice_first _ (length_le 8 _), unle_le_of_lt fits.bytenr]
  · rw [slice_behind (csum _) (by decide), slice_behind fsid (by decide),
      slice_behind (length_le 8 _) (by decide), slice_behind (length_le 8 _) (by decide),
      slice_behind uuid (by decide), slice_behind (length_le 8 _) (by decide),
      slice_behind (length_le 8 _) (by decide), slice_first _ (length_le 4 _),
      unle_le_of_lt fits.numItems_lt]
  · rw [slice_behind (csum _) (by decide), slice_behind fsid (by decide),
      slice_behind (length_le 8 _) (by decide), slice_behind (length_le 8 _) (by decide),
      slice_behind uuid (by decide), slice_behind (length_le 8 _) (by decide),
      slice_behind (length_le 8 _) (by decide), slice_behind (length_le 4 _) (by decide),
      slice_first _ (length_le 1 _), unle_le_of_lt fits.level]

theorem drop_encodeBlock (identity : TreeIdentity) (owner : Nat) (block : TreeBlock) :
    (encodeBlock identity owner block).drop headerSize = block.body.bytes := by
  have width : (identity.csum
      (headerFields identity owner block.bytenr block.body.numItems block.level ++
        block.body.bytes) ++
      headerFields identity owner block.bytenr block.body.numItems block.level).length =
        headerSize := by
    rw [List.length_append, identity.csum_length, length_headerFields]
    rfl
  rw [encodeBlock, ← List.append_assoc, ← width, List.drop_left]

/-- A block is read as what it was built from. -/
theorem readBlock_encodeBlock (fits : block.Fits) :
    readBlock (encodeBlock identity owner block) = block.body.contents := by
  obtain ⟨-, nritems, level⟩ := @header_encodeBlock identity owner block fits
  have body := fits.body
  rw [readBlock, drop_encodeBlock, nritems, level]
  revert body
  cases block.body with
  | leaf items =>
    rintro ⟨leaf, room⟩
    rw [if_neg (not_not.mpr leaf), BlockBody.contents, BlockBody.numItems, BlockBody.bytes]
    have reads : ∀ index entry, items[index]? = some entry →
        readItem (leafBytes items) index = entry :=
      fun index entry found => (filled_foldl room).readItem found
    rw [range_map_eq reads]
  | node pointers =>
    rintro ⟨inner, -, small⟩
    rw [if_pos inner, BlockBody.contents, BlockBody.numItems, BlockBody.bytes]
    have count : pointers.length =
        (pointers.map fun pointer => (pointer.key, pointer.blockptr)).length := by
      rw [List.length_map]
    rw [count, range_map_eq fun index element found => ?_]
    rw [List.getElem?_map] at found
    obtain ⟨pointer, located, rfl⟩ := Option.map_eq_some_iff.mp found
    exact readKeyPtr_nodeBytes located (small pointer (List.mem_of_getElem? located))

end Encode

end Ntfs2Btrfs
