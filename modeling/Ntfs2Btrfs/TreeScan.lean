import Ntfs2Btrfs.TreeBuilding
import Ntfs2Btrfs.Lib.Packing

/-!
# The leaf loop as a scan

The leaf loop packs the items of its map in key order.  In the extent tree an
allocation adds an item to the map while the loop is under way; moving the item
of a recycled block changes neither its place nor its size.  Seen without the
levels of blocks, the loop is therefore a scan with one possible insertion for
each leaf it closes.
-/

namespace Ntfs2Btrfs

open ByteStore
open Packing
open SortedMap

/-! ## Keys without levels -/

/-- A key with the level of a block left out. -/
def BtrfsKey.withoutLevel (key : BtrfsKey) : BtrfsKey where
  objectid := key.objectid
  type := key.type
  offset := if key.type = BtrfsKeyType.metadataItem then 0 else key.offset
  objectid_lt := key.objectid_lt
  type_lt := key.type_lt
  offset_lt := by
    have offset_lt := key.offset_lt
    split_ifs <;> omega

namespace BtrfsKey

theorem metadataKey_fields (address level : Nat) :
    (metadataKey address level).objectid = address % 2 ^ 64 ∧
      (metadataKey address level).type = BtrfsKeyType.metadataItem ∧
      (metadataKey address level).offset = level % 2 ^ 64 :=
  ⟨rfl, rfl, rfl⟩

@[simp]
theorem withoutLevel_metadataKey (address level : Nat) :
    (metadataKey address level).withoutLevel = metadataKey address 0 := by
  refine BtrfsKey.ext rfl rfl ?_
  simp [withoutLevel, metadataKey_fields]

@[simp]
theorem withoutLevel_withoutLevel (key : BtrfsKey) :
    key.withoutLevel.withoutLevel = key.withoutLevel := by
  refine BtrfsKey.ext rfl rfl ?_
  simp only [withoutLevel]
  split_ifs <;> rfl

theorem withoutLevel_eq_metadataKey_iff (key : BtrfsKey) (address : Nat) :
    key.withoutLevel = metadataKey address 0 ↔
      key.objectid = address % 2 ^ 64 ∧ key.type = BtrfsKeyType.metadataItem := by
  constructor
  · intro equal
    exact ⟨congrArg BtrfsKey.objectid equal, congrArg BtrfsKey.type equal⟩
  · rintro ⟨objectid, type⟩
    refine BtrfsKey.ext objectid type ?_
    simp [withoutLevel, type, metadataKey_fields]

theorem withoutLevel_lt_metadataKey_iff (key : BtrfsKey) (address : Nat) :
    key.withoutLevel < metadataKey address 0 ↔ key < metadataKey address 0 := by
  rw [lt_iff, lt_iff]
  simp only [withoutLevel, metadataKey_fields, Nat.zero_mod, Nat.not_lt_zero]

/-- The level of a block does not matter for its order among other keys. -/
theorem lt_metadataKey_iff
    {key : BtrfsKey} {address : Nat}
    (apart : key.withoutLevel ≠ metadataKey address 0) (level : Nat) :
    key < metadataKey address level ↔ key < metadataKey address 0 := by
  rw [Ne, withoutLevel_eq_metadataKey_iff, not_and] at apart
  rw [lt_iff, lt_iff]
  simp only [metadataKey_fields]
  refine or_congr_right (and_congr_right fun equal => ?_)
  simp [apart equal]

theorem metadataKey_lt_iff
    {key : BtrfsKey} {address : Nat}
    (apart : key.withoutLevel ≠ metadataKey address 0) (level : Nat) :
    metadataKey address level < key ↔ ¬ key < metadataKey address 0 := by
  have other : key ≠ metadataKey address level := by
    rintro rfl
    exact apart (withoutLevel_metadataKey address level)
  rw [← lt_metadataKey_iff apart level]
  exact ⟨fun before => not_lt_of_gt before,
    fun after => lt_of_le_of_ne (not_lt.mp after) (Ne.symm other)⟩

theorem withoutLevel_mono {left right : BtrfsKey} (ordered : left ≤ right) :
    left.withoutLevel ≤ right.withoutLevel := by
  rcases eq_or_lt_of_le ordered with rfl | before
  · exact le_refl _
  · refine not_lt.mp fun after => ?_
    rw [lt_iff] at before after
    simp only [withoutLevel] at after
    split_ifs at after <;> omega

end BtrfsKey

/-- The place of an item among those of a leaf, and the space it takes. -/
def weighed (entry : BtrfsKey × Bytes) : BtrfsKey × Nat :=
  (entry.1.withoutLevel, itemCost entry.2)

theorem sorted_weighed (items : ItemMap) (position : Option BtrfsKey) :
    Packing.Sorted ((items.after position).map weighed) := by
  refine List.pairwise_map.mpr ((items.sorted.filter _).imp fun before => ?_)
  exact BtrfsKey.withoutLevel_mono before.le

/-! ## Moving the item of a recycled block -/

/-- A block has at most one item that describes it. -/
def DescribedOnce (items : ItemMap) (address : Nat) : Prop :=
  ∀ key ∈ items.keys, ∀ other ∈ items.keys,
    key.withoutLevel = metadataKey address 0 →
      other.withoutLevel = metadataKey address 0 → key = other

section Recycle

variable {items : ItemMap} {address : Nat} (once : DescribedOnce items address)
variable (oldLevel level : Nat)
include once

/-- Recycling a block renames its item in place. -/
theorem entries_recycle :
    (recycle address oldLevel level items).entries =
      items.entries.map
        (rename (metadataKey address oldLevel) (metadataKey address level)) := by
  rw [recycle]
  split_ifs with changes
  · cases found : items.find? (metadataKey address oldLevel) with
    | none =>
        have absent := find?_eq_none_iff.mp found
        refine ((List.map_congr_left fun entry member => ?_).trans (List.map_id _)).symm
        refine rename_of_ne ?_
        rintro equal
        exact absent (mem_keys_iff.mpr ⟨entry.2, equal ▸ member⟩)
    | some data =>
        have member := find?_eq_some_iff.mp found
        have apart : ∀ entry ∈ items.entries, entry.1 ≠ metadataKey address oldLevel →
            entry.1.withoutLevel ≠ metadataKey address 0 := by
          intro entry inside other same
          exact other (once entry.1 (mem_keys_iff.mpr ⟨_, inside⟩) _
            (mem_keys_iff.mpr ⟨_, member⟩) same (BtrfsKey.withoutLevel_metadataKey _ _))
        refine entries_emplace_erase member (fun entry inside before => ?_)
          fun entry inside after => ?_
        · have away := apart entry inside before.ne
          rwa [BtrfsKey.lt_metadataKey_iff away] at before ⊢
        · have away := apart entry inside after.ne'
          rwa [BtrfsKey.metadataKey_lt_iff away] at after ⊢
  · rw [not_not.mp changes]
    exact ((List.map_congr_left fun entry _ => rename_self _ entry).trans (List.map_id _)).symm

omit once in
theorem withoutLevel_rename (entry : BtrfsKey × Bytes) :
    (rename (metadataKey address oldLevel) (metadataKey address level) entry).1.withoutLevel =
      entry.1.withoutLevel := by
  by_cases equal : entry.1 = metadataKey address oldLevel
  · rw [rename, if_pos equal, equal]
    simp
  · rw [rename_of_ne equal]

/-- Recycling a block changes no place and no size. -/
theorem weighed_recycle :
    (recycle address oldLevel level items).entries.map weighed =
      items.entries.map weighed := by
  rw [entries_recycle once, List.map_map]
  refine List.map_congr_left fun entry _ => Prod.ext (withoutLevel_rename _ _ entry) ?_
  by_cases equal : entry.1 = metadataKey address oldLevel <;> simp [weighed, rename, equal]

theorem mem_keys_recycle {key : BtrfsKey}
    (member : key ∈ (recycle address oldLevel level items).keys) :
    ∃ entry ∈ items.entries,
      (rename (metadataKey address oldLevel) (metadataKey address level) entry).1 = key := by
  rw [keys, entries_recycle once, List.map_map] at member
  exact List.mem_map.mp member

/-- A block stays described once when any block is recycled. -/
theorem DescribedOnce.recycled {other : Nat} (described : DescribedOnce items other) :
    DescribedOnce (recycle address oldLevel level items) other := by
  intro left leftMember right rightMember leftSame rightSame
  rcases mem_keys_recycle once oldLevel level leftMember with ⟨first, firstMember, rfl⟩
  rcases mem_keys_recycle once oldLevel level rightMember with ⟨second, secondMember, rfl⟩
  rw [withoutLevel_rename] at leftSame rightSame
  have equal : first.1 = second.1 :=
    described first.1 (mem_keys_iff.mpr ⟨_, firstMember⟩) second.1
      (mem_keys_iff.mpr ⟨_, secondMember⟩) leftSame rightSame
  rw [rename, rename, equal]
  split_ifs
  · rfl
  · exact equal

/-- Recycling moves no item past the one that the loop is at. -/
theorem lt_rename_iff {key : BtrfsKey} {entry : BtrfsKey × Bytes}
    (member : entry ∈ items.entries)
    (present : key ∈ items.keys)
    (kept : key ∈ (recycle address oldLevel level items).keys) :
    key < (rename (metadataKey address oldLevel) (metadataKey address level) entry).1 ↔
      key < entry.1 := by
  by_cases moved : entry.1 = metadataKey address oldLevel
  · by_cases same : metadataKey address oldLevel = metadataKey address level
    · rw [← same, rename_self]
    · have other : key ≠ metadataKey address oldLevel := by
        rintro rfl
        rcases mem_keys_recycle once oldLevel level kept with ⟨third, _, renamed⟩
        by_cases here : third.1 = metadataKey address oldLevel
        · rw [rename, if_pos here] at renamed
          exact same renamed.symm
        · exact here (rename_of_ne here ▸ renamed)
      have apart : key.withoutLevel ≠ metadataKey address 0 := by
        intro equal
        refine other (once key present _ (mem_keys_iff.mpr ⟨entry.2, ?_⟩) equal
          (BtrfsKey.withoutLevel_metadataKey address oldLevel))
        exact moved ▸ member
      rw [rename, if_pos moved, moved, BtrfsKey.lt_metadataKey_iff apart level,
        BtrfsKey.lt_metadataKey_iff apart oldLevel]
  · rw [rename_of_ne moved]

/-- What follows an item stays there under its new names, unless that item is the one that moves. -/
theorem after_recycle {key : BtrfsKey}
    (present : key ∈ items.keys)
    (kept : key ∈ (recycle address oldLevel level items).keys) :
    (recycle address oldLevel level items).after (some key) =
      (items.after (some key)).map
        (rename (metadataKey address oldLevel) (metadataKey address level)) := by
  rw [after, after, entries_recycle once, List.filter_map]
  refine congrArg (List.map _) (List.filter_congr fun entry member => ?_)
  exact decide_eq_decide.mpr (lt_rename_iff once oldLevel level member present kept)

theorem weighed_after_recycle {key : BtrfsKey}
    (present : key ∈ items.keys)
    (kept : key ∈ (recycle address oldLevel level items).keys) :
    ((recycle address oldLevel level items).after (some key)).map weighed =
      (items.after (some key)).map weighed := by
  rw [after_recycle once oldLevel level present kept, List.map_map]
  refine List.map_congr_left fun entry _ => Prod.ext (withoutLevel_rename _ _ entry) ?_
  by_cases equal : entry.1 = metadataKey address oldLevel <;> simp [weighed, rename, equal]

end Recycle

/-! ## Adding the item of an allocated block -/

/-- The space that the item of a tree block takes in a leaf. -/
def metadataCost : Nat := itemSize + 33

/-- A new block takes its place among the items without their levels. -/
theorem weighed_insertEntry
    {list : List (BtrfsKey × Bytes)} {address : Nat} {data : Bytes}
    (size : itemCost data = metadataCost)
    (fresh : metadataKey address 0 ∉ list.map Prod.fst) :
    (insertEntry (metadataKey address 0) data list).map weighed =
      insertItem (metadataKey address 0, metadataCost) (list.map weighed) := by
  have weight : weighed (metadataKey address 0, data) = (metadataKey address 0, metadataCost) := by
    rw [weighed, size, BtrfsKey.withoutLevel_metadataKey]
  induction list with
  | nil => exact congrArg (fun item => [item]) weight
  | cons head rest ih =>
      have other : metadataKey address 0 ≠ head.1 :=
        fun equal => fresh (equal ▸ List.mem_cons_self)
      have later := ih fun member => fresh (List.mem_cons_of_mem _ member)
      rcases lt_or_gt_of_ne other with before | behind
      · rw [insertEntry, if_pos before, List.map_cons, weight, List.map_cons]
        refine (List.orderedInsert_cons_of_le _ _ ?_).symm
        exact not_lt.mp fun after => not_lt_of_gt before
          ((BtrfsKey.withoutLevel_lt_metadataKey_iff _ _).mp after)
      · rw [insertEntry, if_neg (not_lt_of_gt behind), if_neg other, List.map_cons, later,
          List.map_cons]
        exact (insertItem_cons_of_lt
          ((BtrfsKey.withoutLevel_lt_metadataKey_iff _ _).mpr behind) _).symm

theorem weighed_after_emplace
    {items : ItemMap} {address : Nat} {data : Bytes}
    (size : itemCost data = metadataCost)
    (fresh : metadataKey address 0 ∉ items.keys) (key : BtrfsKey) :
    ((items.emplace (metadataKey address 0) data).after (some key)).map weighed =
      insertLater metadataCost (some (metadataKey address 0)) key.withoutLevel
        ((items.after (some key)).map weighed) := by
  rw [after_emplace data fresh, insertLater]
  simp only [BtrfsKey.withoutLevel_lt_metadataKey_iff]
  have decided : Before (some key) (metadataKey address 0) ↔ key < metadataKey address 0 :=
    Iff.rfl
  by_cases behind : key < metadataKey address 0
  · rw [if_pos (decided.mpr behind), if_pos behind]
    refine weighed_insertEntry size fun member => fresh ?_
    rcases List.mem_map.mp member with ⟨entry, inside, equal⟩
    exact mem_keys_iff.mpr ⟨entry.2, equal ▸ (mem_after.mp inside).1⟩
  · rw [if_neg fun found => behind (decided.mp found), if_neg behind]

/-! ## The supply of addresses -/

/-- The search of `allocate_metadata`, before the block is described. -/
def takeBlock (id : Nat) (state : Allocator) : Except ConvertError Nat × Allocator :=
  allocateFrom (metadataType id) (metadataChunkSize id) treeSize
    (fun chunk => (chunk.used + treeSize) % wordModulus) treeSize .noMetadataAddress state

/-- The address of the block that is allocated after so many others. -/
def supply (id : Nat) : Nat → Allocator → Option Nat
  | 0, state => (takeBlock id state).1.toOption
  | count + 1, state => supply id count (takeBlock id state).2

/-- The free space agrees; the items of the extent tree may differ. -/
structure SameSupply (left right : Allocator) : Prop where
  chunks : left.chunks = right.chunks
  spaceList : left.spaceList = right.spaceList

theorem SameSupply.refl (state : Allocator) : SameSupply state state :=
  ⟨rfl, rfl⟩

theorem SameSupply.symm {left right : Allocator} (same : SameSupply left right) :
    SameSupply right left :=
  ⟨same.chunks.symm, same.spaceList.symm⟩

theorem SameSupply.trans {first second third : Allocator}
    (left : SameSupply first second) (right : SameSupply second third) :
    SameSupply first third :=
  ⟨left.chunks.trans right.chunks, left.spaceList.trans right.spaceList⟩

theorem SameSupply.takeBlock {left right : Allocator} (same : SameSupply left right) (id : Nat) :
    (takeBlock id left).1 = (takeBlock id right).1 ∧
      SameSupply (takeBlock id left).2 (takeBlock id right).2 := by
  simp only [Ntfs2Btrfs.takeBlock, allocateFrom, carve, same.chunks, same.spaceList]
  split
  · exact ⟨rfl, rfl, rfl⟩
  · split
    · exact ⟨rfl, rfl, rfl⟩
    · split <;> exact ⟨rfl, rfl, rfl⟩

theorem SameSupply.supply {left right : Allocator} (same : SameSupply left right)
    (id count : Nat) : supply id count left = supply id count right := by
  induction count generalizing left right with
  | zero => exact congrArg Except.toOption (same.takeBlock id).1
  | succ count ih => exact ih (same.takeBlock id).2

theorem takeBlock_extentItems (id : Nat) (state : Allocator) :
    (takeBlock id state).2.extentItems = state.extentItems := by
  simp only [takeBlock, allocateFrom]
  split
  · rfl
  · split
    · rfl
    · split <;> rfl

/-- An allocation succeeds when the search does and the block is not described yet. -/
theorem allocateMetadata_ok
    {id level address : Nat} {state next : Allocator}
    (allocated : allocateMetadata id level state = (.ok address, next)) :
    (takeBlock id state).1 = .ok address ∧
      SameSupply (takeBlock id state).2 next ∧
      metadataKey address level ∉ state.extentItems.keys ∧
      next.extentItems =
        state.extentItems.emplace (metadataKey address level) (metadataItem id) := by
  have items := takeBlock_extentItems id state
  rw [takeBlock] at items ⊢
  rw [allocateMetadata] at allocated
  split at allocated
  · cases allocated
  · next found core taken =>
      rw [taken] at items ⊢
      split at allocated
      · cases allocated
      · next newItems added =>
          rcases addItem_ok_iff.mp added with ⟨fresh, rfl⟩
          cases allocated
          change core.extentItems = state.extentItems at items
          rw [items] at fresh
          refine ⟨rfl, ⟨rfl, rfl⟩, fresh, ?_⟩
          rw [← items]
          rfl

/-! ## Flushing a block -/

/-- Where the address of a new block comes from, and what that changes. -/
inductive AddressSource (id level address : Nat) (state next : TreeState) : Prop where
  | recycled (oldLevel : Nat)
      (old : state.oldAddresses = (address, oldLevel) :: next.oldAddresses)
      (space : SameSupply state.allocator next.allocator)
      (items : next.allocator.extentItems =
        recycle address oldLevel level state.allocator.extentItems)
  | allocated
      (old : state.oldAddresses = [])
      (left : next.oldAddresses = [])
      (taken : (takeBlock id state.allocator).1 = .ok address)
      (space : SameSupply (takeBlock id state.allocator).2 next.allocator)
      (fresh : metadataKey address level ∉ state.allocator.extentItems.keys)
      (items : next.allocator.extentItems =
        state.allocator.extentItems.emplace (metadataKey address level) (metadataItem id))

/-- A flushed block goes to the end of the list, with an address from one of two sources. -/
theorem flushTree_ok
    {id level : Nat} {body : BlockBody} {state next : TreeState}
    (flushed : flushTree id level body state = .ok next) :
    ∃ address,
      next.trees = state.trees ++ [⟨address, level, body⟩] ∧
        next.addresses = state.addresses ++ [(address, level)] ∧
        next.level = state.level ∧
        AddressSource id level address state next := by
  unfold flushTree getAddress at flushed
  cases old : state.oldAddresses with
  | cons entry rest =>
      rcases entry with ⟨address, oldLevel⟩
      rw [old] at flushed
      cases flushed
      exact ⟨address, rfl, rfl, rfl, .recycled oldLevel old ⟨rfl, rfl⟩ rfl⟩
  | nil =>
      rw [old] at flushed
      rcases allocated : allocateMetadata id level state.allocator with ⟨_ | address, allocator⟩
      · simp only [allocated] at flushed
        cases flushed
      · simp only [allocated] at flushed
        cases flushed
        rcases allocateMetadata_ok allocated with ⟨taken, space, fresh, items⟩
        exact ⟨address, rfl, rfl, rfl, .allocated old rfl taken space fresh items⟩

/-- The blocks to be recycled are described once in the map that changes with them. -/
def Recyclable (id : Nat) (state : TreeState) : Prop :=
  id = extentTreeObjectid →
    ∀ entry ∈ state.oldAddresses, DescribedOnce state.allocator.extentItems entry.1

/-- The key that the map being walked gains when so many more blocks are flushed. -/
def upcoming (id : Nat) (state : TreeState) (count : Nat) : Option BtrfsKey :=
  if id = extentTreeObjectid ∧ state.oldAddresses.length ≤ count then
    (supply id (count - state.oldAddresses.length) state.allocator).map fun address =>
      metadataKey address 0
  else none

namespace AddressSource

variable {id level address : Nat} {state next : TreeState}
  (source : AddressSource id level address state next)
include source

theorem upcoming_succ (count : Nat) :
    upcoming id next count = upcoming id state (count + 1) := by
  cases source with
  | recycled oldLevel old space items =>
      have length : state.oldAddresses.length = next.oldAddresses.length + 1 := by
        rw [old, List.length_cons]
      simp only [upcoming, length, Nat.add_le_add_iff_right, Nat.add_sub_add_right, space.supply]
  | allocated old left taken space fresh items =>
      rw [upcoming, upcoming, old, left]
      simp only [List.length_nil, Nat.zero_le, and_true, Nat.sub_zero, supply, space.supply]

theorem recyclable (recyclable : Recyclable id state) : Recyclable id next := by
  intro extent entry member
  cases source with
  | recycled oldLevel old space items =>
      rw [items]
      have all := recyclable extent
      rw [old] at all
      exact (all _ List.mem_cons_self).recycled oldLevel level
        (all entry (List.mem_cons_of_mem _ member))
  | allocated old left taken space fresh items =>
      rw [left] at member
      cases member

end AddressSource

/-- What is left to walk after a leaf is flushed. -/
theorem weighed_after_flush
    {id address : Nat} {own : ItemMap} {state next : TreeState}
    (source : AddressSource id 0 address state next)
    (recyclable : Recyclable id state)
    {key : BtrfsKey}
    (present : key ∈ (treeItems id own state).keys)
    (kept : key ∈ (treeItems id own next).keys) :
    ((treeItems id own next).after (some key)).map weighed =
      insertLater metadataCost (upcoming id state 0) key.withoutLevel
        (((treeItems id own state).after (some key)).map weighed) := by
  by_cases extent : id = extentTreeObjectid
  · simp only [treeItems, if_pos extent] at present kept ⊢
    cases source with
    | recycled oldLevel old space items =>
        have once := recyclable extent _ (old ▸ List.mem_cons_self)
        have none_added : upcoming id state 0 = none := by
          rw [upcoming, old]
          simp
        rw [none_added, items]
        rw [items] at kept
        exact weighed_after_recycle once oldLevel 0 present kept
    | allocated old left taken space fresh items =>
        have added : upcoming id state 0 = some (metadataKey address 0) := by
          rw [upcoming, old, if_pos ⟨extent, Nat.zero_le _⟩, List.length_nil, Nat.sub_zero, supply,
            taken]
          rfl
        rw [added, items]
        refine weighed_after_emplace ?_ fresh key
        rw [itemCost, length_metadataItem, metadataCost]
  · have none_added : upcoming id state 0 = none := by
      rw [upcoming, if_neg fun both => extent both.1]
    rw [none_added, treeItems, treeItems, if_neg extent, if_neg extent]
    rfl

/-- The whole map gains the same item, wherever it lies. -/
theorem weighed_entries_flush
    {id address : Nat} {own : ItemMap} {state next : TreeState}
    (source : AddressSource id 0 address state next)
    (recyclable : Recyclable id state) :
    (treeItems id own next).entries.map weighed =
      insertAll (((upcoming id state 0).map fun key => (key, metadataCost)).toList)
        ((treeItems id own state).entries.map weighed) := by
  by_cases extent : id = extentTreeObjectid
  · simp only [treeItems, if_pos extent]
    cases source with
    | recycled oldLevel old space items =>
        have once := recyclable extent _ (old ▸ List.mem_cons_self)
        have none_added : upcoming id state 0 = none := by
          rw [upcoming, old]
          simp
        rw [none_added, items]
        exact weighed_recycle once oldLevel 0
    | allocated old left taken space fresh items =>
        have added : upcoming id state 0 = some (metadataKey address 0) := by
          rw [upcoming, old, if_pos ⟨extent, Nat.zero_le _⟩, List.length_nil, Nat.sub_zero, supply,
            taken]
          rfl
        rw [added, items]
        refine weighed_insertEntry ?_ fresh
        rw [itemCost, length_metadataItem, metadataCost]
  · have none_added : upcoming id state 0 = none := by
      rw [upcoming, if_neg fun both => extent both.1]
    rw [none_added, treeItems, treeItems, if_neg extent, if_neg extent]
    rfl

/-! ## The blocks of a pass -/

/-- A part of a pass that added some blocks. -/
structure AddsTrees (state next : TreeState) (blocks : List TreeBlock) : Prop where
  trees : next.trees = state.trees ++ blocks
  addresses : next.addresses =
    state.addresses ++ blocks.map fun block => (block.bytenr, block.level)
  old : next.oldAddresses = state.oldAddresses.drop blocks.length
  reused : (blocks.map TreeBlock.bytenr).take state.oldAddresses.length =
    (state.oldAddresses.map Prod.fst).take blocks.length

namespace AddsTrees

theorem refl (state : TreeState) : AddsTrees state state [] :=
  ⟨(List.append_nil _).symm, (List.append_nil _).symm, rfl, by simp⟩

theorem trans
    {first second third : TreeState} {earlier later : List TreeBlock}
    (left : AddsTrees first second earlier) (right : AddsTrees second third later) :
    AddsTrees first third (earlier ++ later) where
  trees := by rw [right.trees, left.trees, List.append_assoc]
  addresses := by rw [right.addresses, left.addresses, List.map_append, List.append_assoc]
  old := by rw [right.old, left.old, List.drop_drop, List.length_append]
  reused := by
    have rest := right.reused
    rw [left.old, List.length_drop, List.map_drop] at rest
    rw [List.map_append, List.take_append, List.length_map, left.reused, rest,
      List.length_append, List.take_add]

end AddsTrees

theorem AddressSource.addsTree
    {id level address : Nat} {body : BlockBody} {state next : TreeState}
    (source : AddressSource id level address state next)
    (trees : next.trees = state.trees ++ [⟨address, level, body⟩])
    (addresses : next.addresses = state.addresses ++ [(address, level)]) :
    AddsTrees state next [⟨address, level, body⟩] := by
  refine ⟨trees, addresses, ?_, ?_⟩
  · cases source with
    | recycled oldLevel old space items => rw [old]; rfl
    | allocated old left taken space fresh items => rw [old, left]; rfl
  · cases source with
    | recycled oldLevel old space items => rw [old]; simp
    | allocated old left taken space fresh items => rw [old]; rfl

/-! ## The leaf loop -/

/-- One turn of the leaf loop that goes on: the item joins the leaf, or opens the next one. -/
inductive LeafStep (id : Nat) (own : ItemMap) (position : Option BtrfsKey) (leaf : OpenLeaf)
    (state : TreeState) : BtrfsKey → OpenLeaf → TreeState → Prop
  | fits {key : BtrfsKey} {data : Bytes}
      (found : (treeItems id own state).next? position = some (key, data))
      (room : itemCost data ≤ leaf.spaceLeft) :
      LeafStep id own position leaf state key (leaf.add key data) state
  | closes {key : BtrfsKey} {data : Bytes} {next : TreeState}
      (found : (treeItems id own state).next? position = some (key, data))
      (full : leaf.spaceLeft < itemCost data)
      (flushed : flushTree id 0 (.leaf leaf.items) state = .ok next)
      (kept : key ∈ (treeItems id own next).keys)
      (small : itemCost data ≤ blockSpace) :
      LeafStep id own position leaf state key (OpenLeaf.add {} key data) next

theorem leafLoop_ok_cases
    {id : Nat} {own : ItemMap} {turns : Nat} {position : Option BtrfsKey}
    {leaf : OpenLeaf} {state : TreeState} {result : OpenLeaf × TreeState}
    (ended : leafLoop id own turns position leaf state = some (.ok result)) :
    (treeItems id own state).next? position = none ∧ result = (leaf, state) ∨
      ∃ fewer key following next,
        turns = fewer + 1 ∧
          LeafStep id own position leaf state key following next ∧
          leafLoop id own fewer (some key) following next = some (.ok result) := by
  cases turns with
  | zero => cases ended
  | succ turns =>
      rw [leafLoop] at ended
      cases found : (treeItems id own state).next? position with
      | none =>
          simp only [found] at ended
          cases ended
          exact Or.inl ⟨rfl, rfl⟩
      | some entry =>
          rcases entry with ⟨key, data⟩
          right
          simp only [found] at ended
          by_cases full : itemCost data > leaf.spaceLeft
          · rw [if_pos full] at ended
            cases flushed : flushTree id 0 (.leaf leaf.items) state with
            | error error =>
                simp only [flushed] at ended
                cases ended
            | ok next =>
                simp only [flushed] at ended
                by_cases erased : (treeItems id own next).find? key = none
                · rw [if_pos erased] at ended
                  cases ended
                · rw [if_neg erased] at ended
                  by_cases large : itemCost data + headerSize > treeSize
                  · rw [if_pos large] at ended
                    cases ended
                  · rw [if_neg large] at ended
                    have kept : key ∈ (treeItems id own next).keys :=
                      not_not.mp fun absent => erased (find?_eq_none_iff.mpr absent)
                    refine ⟨turns, key, _, next, rfl, .closes found full flushed kept ?_, ended⟩
                    rw [blockSpace]
                    omega
          · rw [if_neg full] at ended
            by_cases large : itemCost data + headerSize > treeSize
            · rw [if_pos large] at ended
              cases ended
            · rw [if_neg large] at ended
              exact ⟨turns, key, _, state, rfl, .fits found (not_lt.mp full), ended⟩

/-- What a run of the leaf loop did, from a stage of the packing on. -/
structure LeafRun (id : Nat) (own : ItemMap) (insertion : Nat → Option BtrfsKey)
    (position : Option BtrfsKey) (fill : Fill) (state last : TreeState) (final : OpenLeaf)
    (blocks : List TreeBlock) : Prop where
  adds : AddsTrees state last blocks
  leaves : ∀ block ∈ blocks, block.level = 0
  recyclable : Recyclable id last
  scan : ∃ used, final.spaceLeft + used = blockSpace ∧
    Scan blockSpace metadataCost insertion (((treeItems id own state).after position).map weighed)
      fill ⟨fill.closed + blocks.length, used⟩
  items : (treeItems id own last).entries.map weighed =
    insertAll (inserted metadataCost insertion fill.closed (fill.closed + blocks.length))
      ((treeItems id own state).entries.map weighed)

theorem leafLoop_run
    {id : Nat} {own : ItemMap} {insertion : Nat → Option BtrfsKey} {turns : Nat}
    {position : Option BtrfsKey} {leaf final : OpenLeaf} {state last : TreeState} (fill : Fill)
    (ended : leafLoop id own turns position leaf state = some (.ok (final, last)))
    (recyclable : Recyclable id state)
    (supplied : ∀ count, insertion (fill.closed + count) = upcoming id state count)
    (room : leaf.spaceLeft + fill.used = blockSpace) :
    ∃ blocks, LeafRun id own insertion position fill state last final blocks := by
  induction turns generalizing position leaf state fill with
  | zero => cases ended
  | succ turns ih =>
      rcases leafLoop_ok_cases ended with ⟨found, equal⟩ | ⟨fewer, key, following, next, count,
        step, later⟩
      · cases equal
        refine ⟨[], AddsTrees.refl _, by simp, recyclable, ⟨fill.used, room, ?_⟩, ?_⟩
        · rw [after_eq_nil_of_next? found]
          exact Scan.done fill
        · rw [List.length_nil, Nat.add_zero, inserted_self, insertAll_nil]
      · cases count
        cases step with
        | @fits data found fitting =>
            have stage : fill.Fits blockSpace (itemCost data) := by
              rw [Fill.Fits]
              omega
            rcases ih ⟨fill.closed, fill.used + itemCost data⟩ later recyclable supplied
              (by simp only [OpenLeaf.add]; omega) with ⟨blocks, run⟩
            rcases run.scan with ⟨used, left, scan⟩
            refine ⟨blocks, run.adds, run.leaves, run.recyclable, ⟨used, left, ?_⟩, run.items⟩
            rw [after_eq_cons_of_next? found]
            exact Scan.fits stage scan
        | @closes data _ found full flushed kept small =>
            have present : key ∈ (treeItems id own state).keys :=
              mem_keys_iff.mpr ⟨data, (next?_eq_some_iff.mp found).1⟩
            have stage : ¬ fill.Fits blockSpace (itemCost data) := by
              rw [Fill.Fits]
              omega
            rcases flushTree_ok flushed with ⟨address, trees, addresses, _, source⟩
            have first : insertion fill.closed = upcoming id state 0 := supplied 0
            have next_supplied :
                ∀ count, insertion (fill.closed + 1 + count) = upcoming id next count := by
              intro count
              rw [source.upcoming_succ, ← supplied (count + 1), Nat.add_assoc, Nat.add_comm 1]
            rcases ih ⟨fill.closed + 1, itemCost data⟩ later
              (source.recyclable recyclable) next_supplied
              (by simp only [OpenLeaf.add]; omega) with ⟨blocks, run⟩
            rcases run.scan with ⟨used, left, scan⟩
            have closed_eq :
                fill.closed + 1 + blocks.length =
                  fill.closed + (⟨address, 0, .leaf leaf.items⟩ :: blocks).length := by
              rw [List.length_cons]
              omega
            refine ⟨⟨address, 0, .leaf leaf.items⟩ :: blocks,
              (source.addsTree trees addresses).trans run.adds, ?_, run.recyclable,
              ⟨used, left, ?_⟩, ?_⟩
            · intro block member
              rcases List.mem_cons.mp member with rfl | inside
              · rfl
              · exact run.leaves block inside
            · rw [after_eq_cons_of_next? found, ← closed_eq]
              refine Scan.closes stage ?_
              rw [first]
              rw [weighed_after_flush source recyclable present kept] at scan
              exact scan
            · rw [← closed_eq, inserted_pop _ _ (by omega), insertAll_append, first,
                ← weighed_entries_flush source recyclable]
              exact run.items

end Ntfs2Btrfs
