import Ntfs2Btrfs.MetadataLoop

/-!
# The extent tree accounts for the tree blocks

While trees are built, the extent tree has exactly one metadata item for each block
that has an address: allocating a block adds its item and recycling one moves it to
the new level.  The blocks do not overlap, lie in chunks of their type, and are not
free.
-/

namespace Ntfs2Btrfs

open ByteStore
open Extents
open SortedMap

/-! ## Blocks and their items -/

/-- A block that has an address, with the root that it belongs to. -/
structure OwnedBlock where
  root : Nat
  address : Nat
  level : Nat
deriving DecidableEq

def OwnedBlock.range (block : OwnedBlock) : Extent :=
  ⟨block.address, treeSize⟩

/-- The item that describes the block. -/
def OwnedBlock.record (block : OwnedBlock) : BtrfsKey × Bytes :=
  (metadataKey block.address block.level, metadataItem block.root)

/-- The block lies in a chunk for its root's trees. -/
def OwnedBlock.InChunk (block : OwnedBlock) (chunk : Chunk) : Prop :=
  chunk.type &&& metadataType block.root ≠ 0 ∧
    chunk.offset ≤ block.address ∧ block.address + treeSize ≤ chunk.offset + chunk.length

/-- The items of a type, in the order of their keys. -/
def itemsOfType (type : Nat) (items : ItemMap) : List (BtrfsKey × Bytes) :=
  items.entries.filter fun entry => entry.1.type = type

/-- The metadata items are those of the blocks, which are apart and in use. -/
structure Accounts (allocator : Allocator) (blocks : List OwnedBlock) : Prop where
  items : (itemsOfType BtrfsKeyType.metadataItem allocator.extentItems).Perm
    (blocks.map OwnedBlock.record)
  apart : blocks.Pairwise fun left right => left.range.Disjoint right.range
  bounded : ∀ block ∈ blocks, block.address < 2 ^ 64
  inChunk : ∀ block ∈ blocks, ∃ chunk ∈ allocator.chunks, block.InChunk chunk
  taken : ∀ block ∈ blocks, ∀ point, InRange block.address treeSize point →
    ¬ allocator.Free point
  offStripes : ∀ block ∈ blocks, ∀ point, InRange block.address treeSize point →
    ¬ InSuperblockStripe point

theorem Accounts.perm
    {allocator : Allocator} {blocks others : List OwnedBlock} (accounts : Accounts allocator blocks)
    (same : blocks.Perm others) : Accounts allocator others where
  items := accounts.items.trans (same.map _)
  apart := (same.pairwise_iff fun apart => apart.symm).mp accounts.apart
  bounded := fun block member => accounts.bounded block (same.mem_iff.mpr member)
  inChunk := fun block member => accounts.inChunk block (same.mem_iff.mpr member)
  taken := fun block member => accounts.taken block (same.mem_iff.mpr member)
  offStripes := fun block member => accounts.offStripes block (same.mem_iff.mpr member)

theorem itemsOfType_emplace
    {type : Nat} {items : ItemMap} {key : BtrfsKey} {data : Bytes} (fresh : key ∉ items.keys)
    (same : key.type = type) :
    (itemsOfType type (items.emplace key data)).Perm ((key, data) :: itemsOfType type items) := by
  have moved := (perm_emplace data fresh).filter fun entry => entry.1.type = type
  rwa [List.filter_cons, if_pos (decide_eq_true same)] at moved

theorem itemsOfType_emplace_of_ne
    {type : Nat} {items : ItemMap} {key : BtrfsKey} {data : Bytes} (fresh : key ∉ items.keys)
    (other : key.type ≠ type) :
    (itemsOfType type (items.emplace key data)).Perm (itemsOfType type items) := by
  have moved := (perm_emplace data fresh).filter fun entry => entry.1.type = type
  rwa [List.filter_cons_of_neg (by simpa using other)] at moved

theorem itemsOfType_erase
    {type : Nat} {items : ItemMap} {key : BtrfsKey} {data : Bytes}
    (member : (key, data) ∈ items.entries) (same : key.type = type) :
    (itemsOfType type items).Perm ((key, data) :: itemsOfType type (items.erase key)) := by
  have moved := (perm_cons_erase member).filter fun entry => entry.1.type = type
  rwa [List.filter_cons, if_pos (decide_eq_true same)] at moved

theorem metadataKey_type (address level : Nat) :
    (metadataKey address level).type = BtrfsKeyType.metadataItem :=
  rfl

theorem metadataKey_objectid {address : Nat} (bounded : address < 2 ^ 64) (level : Nat) :
    (metadataKey address level).objectid = address :=
  Nat.mod_eq_of_lt bounded

namespace Accounts

variable {allocator : Allocator} {blocks : List OwnedBlock} (accounts : Accounts allocator blocks)
include accounts

/-- Every metadata item belongs to one of the blocks. -/
theorem block_of_key
    {key : BtrfsKey} (present : key ∈ allocator.extentItems.keys)
    (type : key.type = BtrfsKeyType.metadataItem) :
    ∃ block ∈ blocks, key = metadataKey block.address block.level ∧
      key.objectid = block.address := by
  obtain ⟨data, member⟩ := mem_keys_iff.mp present
  have listed : (key, data) ∈ itemsOfType BtrfsKeyType.metadataItem allocator.extentItems :=
    List.mem_filter.mpr ⟨member, decide_eq_true type⟩
  obtain ⟨block, inBlocks, equal⟩ := List.mem_map.mp (accounts.items.mem_iff.mp listed)
  have same : key = metadataKey block.address block.level := (congrArg Prod.fst equal).symm
  refine ⟨block, inBlocks, same, ?_⟩
  rw [same, metadataKey_objectid (accounts.bounded block inBlocks)]

/-- Blocks with one address are one block. -/
theorem eq_of_address
    {left right : OwnedBlock} (leftMember : left ∈ blocks) (rightMember : right ∈ blocks)
    (same : left.address = right.address) : left = right := by
  by_contra other
  have : Std.Symm fun left right : OwnedBlock => left.range.Disjoint right.range :=
    ⟨fun _ _ apart => apart.symm⟩
  have apart := accounts.apart.forall leftMember rightMember other
  have size : 0 < treeSize := by decide
  rcases apart with before | behind
  · have before : left.address + treeSize ≤ right.address := before
    omega
  · have behind : right.address + treeSize ≤ left.address := behind
    omega

theorem describedOnce (address : Nat) : DescribedOnce allocator.extentItems address := by
  intro left leftMember right rightMember leftSame rightSame
  obtain ⟨leftObject, leftType⟩ := (left.withoutLevel_eq_metadataKey_iff address).mp leftSame
  obtain ⟨rightObject, rightType⟩ := (right.withoutLevel_eq_metadataKey_iff address).mp rightSame
  obtain ⟨first, firstMember, firstKey, firstAddress⟩ := accounts.block_of_key leftMember leftType
  obtain ⟨second, secondMember, secondKey, secondAddress⟩ :=
    accounts.block_of_key rightMember rightType
  have same : first.address = second.address := by
    rw [← firstAddress, ← secondAddress, leftObject, rightObject]
  rw [firstKey, secondKey, accounts.eq_of_address firstMember secondMember same]

/-- An allocated block joins the others. -/
theorem allocate
    {limit root level address : Nat} {next : Allocator} (bounded : Bounded limit allocator)
    (small : limit + chunkVirtOffset < 2 ^ 64)
    (allocated : allocateMetadata root level allocator = (.ok address, next)) :
    Accounts next (⟨root, address, level⟩ :: blocks) := by
  obtain ⟨advances, served⟩ := allocateMetadata_spec bounded.wellFormed root level
  have kept := (bounded.allocateMetadata allocated).1
  rw [allocated] at advances served
  have served := served address rfl
  obtain ⟨-, -, fresh, items⟩ := allocateMetadata_ok allocated
  have size : 0 < treeSize := by decide
  have below : address + treeSize ≤ limit + chunkVirtOffset := by
    obtain ⟨chunk, member, -, -, upper⟩ := served.inChunk
    have placed := (kept.wellFormed.chunks chunk member).placed
    have ends := (kept.inside.chunks chunk member).2
    omega
  refine ⟨?_, List.pairwise_cons.mpr ⟨fun block member => ?_, accounts.apart⟩,
    List.forall_mem_cons.mpr ⟨?_, accounts.bounded⟩,
    List.forall_mem_cons.mpr ⟨?_, fun block member => ?_⟩,
    List.forall_mem_cons.mpr ⟨served.taken, fun block member point inside free => ?_⟩,
    List.forall_mem_cons.mpr ⟨served.offStripes, accounts.offStripes⟩⟩
  · rw [items]
    exact (itemsOfType_emplace fresh (metadataKey_type address level)).trans
      (accounts.items.cons _)
  · refine Extent.disjoint_of_not_contains size size fun point new old => ?_
    obtain ⟨lower, upper⟩ := new
    have virtual := served.virtual_le kept.wellFormed
    have lower : address ≤ point := lower
    have there : point - chunkVirtOffset + chunkVirtOffset = point := by omega
    refine accounts.taken block member (point - chunkVirtOffset) ?_
      (served.wasFree (point - chunkVirtOffset) ?_)
    · rw [InRange, there]
      exact old
    · rw [InRange, there]
      exact ⟨lower, upper⟩
  · change address < 2 ^ 64
    omega
  · exact served.inChunk
  · obtain ⟨chunk, inChunks, eligible, lower, upper⟩ := accounts.inChunk block member
    obtain ⟨same, inNext, offset, length, -, type⟩ := advances.kept chunk inChunks
    refine ⟨same, inNext, ?_, ?_, ?_⟩
    · rwa [type]
    · rwa [offset]
    · rwa [offset, length]
  · exact accounts.taken block member point inside (advances.free point free)

end Accounts

/-- The first block gets another level, and its item with it. -/
theorem Accounts.recycle
    {allocator : Allocator} {root address oldLevel : Nat} {rest : List OwnedBlock}
    (accounts : Accounts allocator (⟨root, address, oldLevel⟩ :: rest)) (level : Nat) :
    Accounts
      { allocator with
        extentItems := Ntfs2Btrfs.recycle address oldLevel level allocator.extentItems }
      (⟨root, address, level⟩ :: rest) := by
  obtain ⟨first, others⟩ := List.pairwise_cons.mp accounts.apart
  refine ⟨?_, List.pairwise_cons.mpr ⟨first, others⟩, ?_, ?_, ?_, ?_⟩
  · change (itemsOfType _ (Ntfs2Btrfs.recycle address oldLevel level allocator.extentItems)).Perm _
    rw [Ntfs2Btrfs.recycle]
    have head : (metadataKey address oldLevel, metadataItem root) ∈
        itemsOfType BtrfsKeyType.metadataItem allocator.extentItems :=
      accounts.items.mem_iff.mpr List.mem_cons_self
    have member := (List.mem_filter.mp head).1
    split_ifs with changes
    · rw [find?_eq_some_iff.mpr member]
      dsimp only
      have left : (itemsOfType BtrfsKeyType.metadataItem
          (allocator.extentItems.erase (metadataKey address oldLevel))).Perm
            (rest.map OwnedBlock.record) :=
        ((itemsOfType_erase member (metadataKey_type _ _)).symm.trans accounts.items).cons_inv
      have fresh : metadataKey address level ∉
          (allocator.extentItems.erase (metadataKey address oldLevel)).keys := by
        intro present
        obtain ⟨data, inItems⟩ := mem_keys_iff.mp present
        have listed : (metadataKey address level, data) ∈ itemsOfType BtrfsKeyType.metadataItem
            (allocator.extentItems.erase (metadataKey address oldLevel)) :=
          List.mem_filter.mpr ⟨inItems, decide_eq_true (metadataKey_type _ _)⟩
        obtain ⟨block, inRest, equal⟩ := List.mem_map.mp (left.mem_iff.mp listed)
        have object := congrArg (fun entry => entry.1.objectid) equal
        change (metadataKey block.address block.level).objectid =
          (metadataKey address level).objectid at object
        have small : address < 2 ^ 64 := accounts.bounded _ List.mem_cons_self
        rw [metadataKey_objectid (accounts.bounded block (List.mem_cons_of_mem _ inRest)),
          metadataKey_objectid small] at object
        have apart := first block inRest
        have size : 0 < treeSize := by decide
        rcases apart with before | behind
        · change address + treeSize ≤ block.address at before
          omega
        · change block.address + treeSize ≤ address at behind
          omega
      exact (itemsOfType_emplace fresh (metadataKey_type _ _)).trans (left.cons _)
    · rw [← not_not.mp changes] at accounts
      exact accounts.items
  · exact List.forall_mem_cons.mpr (List.forall_mem_cons.mp accounts.bounded)
  · exact List.forall_mem_cons.mpr (List.forall_mem_cons.mp accounts.inChunk)
  · exact List.forall_mem_cons.mpr (List.forall_mem_cons.mp accounts.taken)
  · exact List.forall_mem_cons.mpr (List.forall_mem_cons.mp accounts.offStripes)

/-! ## What a flush keeps -/

/-- A chunk without what changes when it is allocated from. -/
def Chunk.site (chunk : Chunk) : Chunk :=
  { chunk with spaceList := [], added := false, used := 0 }

/-- The chunks that have their items. -/
def Allocator.addedSites (state : Allocator) : List Chunk :=
  (state.chunks.filter Chunk.added).map Chunk.site

/--
No item of the extent tree is lost or made smaller, up to the levels of metadata
items; items of the other types stay, and so do the chunks that were added.
-/
structure Keeps (state next : Allocator) : Prop where
  weighed : (state.extentItems.entries.map weighed).Sublist (next.extentItems.entries.map weighed)
  others : ∀ type, type ≠ BtrfsKeyType.metadataItem →
    (itemsOfType type next.extentItems).Perm (itemsOfType type state.extentItems)
  sites : next.addedSites = state.addedSites

theorem Keeps.refl (state : Allocator) : Keeps state state :=
  ⟨List.Sublist.refl _, fun _ _ => List.Perm.refl _, rfl⟩

theorem Keeps.trans {first second third : Allocator} (left : Keeps first second)
    (right : Keeps second third) : Keeps first third :=
  ⟨left.weighed.trans right.weighed,
    fun type other => (right.others type other).trans (left.others type other),
    right.sites.trans left.sites⟩

theorem addedSites_allocateFrom
    (type chunkSize length : Nat) (usedOld : Chunk → Nat) (usedNew : Nat)
    (noAddress : ConvertError) (state : Allocator) :
    (allocateFrom type chunkSize length usedOld usedNew noAddress state).2.addedSites =
      state.addedSites := by
  have fresh (chunk : Chunk) (new : chunk.added = false) :
      ((state.chunks ++ [chunk]).filter Chunk.added).map Chunk.site =
        (state.chunks.filter Chunk.added).map Chunk.site := by
    rw [List.filter_append, List.filter_cons, new, if_neg Bool.false_ne_true, List.filter_nil,
      List.append_nil]
  rcases allocateFrom_cases type chunkSize length usedOld usedNew noAddress state with
    ⟨before, chunk, after, spaces, address, shape, -, -, equal⟩ | equal |
      ⟨space, -, -, equal | ⟨spaces, address, -, equal⟩⟩
  · rw [equal, Allocator.addedSites, Allocator.addedSites, shape, List.filter_append,
      List.filter_append, List.filter_cons, List.filter_cons, List.map_append, List.map_append]
    change _ ++ List.map _ (if chunk.added then _ else _) =
      _ ++ List.map _ (if chunk.added then _ else _)
    split_ifs
    · rfl
    · rfl
  · rw [equal]
    rfl
  · rw [equal]
    exact fresh _ rfl
  · rw [equal]
    exact fresh _ rfl

theorem addedSites_allocateMetadata (root level : Nat) (state : Allocator) :
    (allocateMetadata root level state).2.addedSites = state.addedSites := by
  have searched := addedSites_allocateFrom (metadataType root) (metadataChunkSize root) treeSize
    (fun chunk => (chunk.used + treeSize) % wordModulus) treeSize .noMetadataAddress state
  rw [allocateMetadata]
  split
  · next failure next search =>
    rw [search] at searched
    exact searched
  · next address next search =>
    rw [search] at searched
    split
    · exact searched
    · exact searched

/-- Recycling changes metadata items only. -/
theorem itemsOfType_recycle
    {type : Nat} (other : type ≠ BtrfsKeyType.metadataItem) (address oldLevel level : Nat)
    (items : ItemMap) :
    (itemsOfType type (recycle address oldLevel level items)).Perm (itemsOfType type items) := by
  rw [recycle]
  split_ifs
  · cases found : items.find? (metadataKey address oldLevel) with
    | none => exact List.Perm.refl _
    | some data =>
      have erased : (itemsOfType type (items.erase (metadataKey address oldLevel))).Perm
          (itemsOfType type items) := by
        have moved := (perm_cons_erase (find?_eq_some_iff.mp found)).filter
          fun entry => entry.1.type = type
        rw [List.filter_cons, metadataKey_type, if_neg (by simpa using other.symm)] at moved
        exact moved.symm
      by_cases present : metadataKey address level ∈
          (items.erase (metadataKey address oldLevel)).keys
      · have same : (items.erase (metadataKey address oldLevel)).emplace
            (metadataKey address level) data = items.erase (metadataKey address oldLevel) :=
          SortedMap.ext (insertEntry_eq_of_mem (SortedMap.sorted _) present)
        dsimp only
        rw [same]
        exact erased
      · exact (itemsOfType_emplace_of_ne present (fun same => other same.symm)).trans erased
  · exact List.Perm.refl _

/-! ## Passes -/

/-- The blocks of a root at its addresses. -/
def ownedBlocks (id : Nat) (addresses : List (Nat × Nat)) : List OwnedBlock :=
  addresses.map fun entry => ⟨id, entry.1, entry.2⟩

/-- The blocks of the root that is built, with those that wait to be used again. -/
def TreeState.owned (id : Nat) (state : TreeState) : List OwnedBlock :=
  ownedBlocks id (state.oldAddresses ++ state.addresses)

theorem ownedBlocks_snoc (id address level : Nat) (old addresses : List (Nat × Nat)) :
    (⟨id, address, level⟩ :: ownedBlocks id (old ++ addresses)).Perm
      (ownedBlocks id (old ++ (addresses ++ [(address, level)]))) := by
  rw [← List.append_assoc]
  exact ((List.perm_append_singleton (address, level) (old ++ addresses)).map
    fun entry : Nat × Nat => OwnedBlock.mk id entry.1 entry.2).symm

section Flush

variable {limit id : Nat} {others : List OwnedBlock}

theorem Accounts.flush
    {level : Nat} {body : BlockBody} {state next : TreeState}
    (accounts : Accounts state.allocator (state.owned id ++ others))
    (bounded : Bounded limit state.allocator) (small : limit + chunkVirtOffset < 2 ^ 64)
    (flushed : flushTree id level body state = .ok next) :
    Accounts next.allocator (next.owned id ++ others) ∧ Keeps state.allocator next.allocator := by
  obtain ⟨address, -, added, ⟨oldLevel, old, allocator, -⟩ | ⟨old, left, allocated, -⟩⟩ :=
    flushTree_cases flushed
  · have once := accounts.describedOnce address
    rw [TreeState.owned, old] at accounts
    rw [TreeState.owned, added, allocator]
    refine ⟨(Accounts.recycle accounts level).perm ?_,
      ⟨?_, fun type other => itemsOfType_recycle other _ _ _ _, rfl⟩⟩
    · exact (ownedBlocks_snoc id address level _ _).append_right others
    · exact (weighed_recycle once oldLevel level).symm ▸ List.Sublist.refl _
  · have sites := addedSites_allocateMetadata id level state.allocator
    rw [allocated] at sites
    have whole := accounts.allocate bounded small allocated
    obtain ⟨-, -, fresh, items⟩ := allocateMetadata_ok allocated
    rw [TreeState.owned, left, added]
    rw [TreeState.owned, old] at whole
    refine ⟨whole.perm ((ownedBlocks_snoc id address level [] _).append_right others),
      ⟨?_, fun type other => ?_, sites⟩⟩
    · rw [items]
      exact (sublist_emplace _ _ _).map _
    · rw [items]
      exact itemsOfType_emplace_of_ne fresh fun same => other same.symm

theorem Flushed.accounts
    {state last : TreeState} {blocks : List TreeBlock} (chain : Flushed id state blocks last)
    (accounts : Accounts state.allocator (state.owned id ++ others))
    (bounded : Bounded limit state.allocator) (small : limit + chunkVirtOffset < 2 ^ 64) :
    Accounts last.allocator (last.owned id ++ others) ∧ Keeps state.allocator last.allocator := by
  induction chain with
  | done same =>
    rw [TreeState.owned, same.allocator, same.oldAddresses, same.addresses]
    exact ⟨accounts, Keeps.refl _⟩
  | @flush state between next last block blocks same flushed _ _ ih =>
    rw [TreeState.owned, ← same.allocator, ← same.oldAddresses, ← same.addresses] at accounts
    rw [← same.allocator] at bounded ⊢
    obtain ⟨step, keeps⟩ := Accounts.flush accounts bounded small flushed
    obtain ⟨whole, later⟩ := ih step (flushTree_progress flushed bounded).1
    exact ⟨whole, keeps.trans later⟩

end Flush

end Ntfs2Btrfs
