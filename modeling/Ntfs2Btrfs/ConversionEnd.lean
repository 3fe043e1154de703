import Ntfs2Btrfs.FinishedTrees

/-!
# What the end of the conversion leaves on the device

`convert` ends with the trees, the superblocks and an empty first cluster.  Every tree
block is where its address says; of the superblocks those are left that are behind the
first cluster.
-/

namespace Ntfs2Btrfs

open ByteStore
open Extents

/-! ## The writes -/

/-- What `write_superblocks` is told, besides the roots and the chunks. -/
structure SuperblockSettings where
  compression : Nat
  csumType : Nat
  label : {label : Bytes // label.length = labelSize}

/-- Items with fields filled in. -/
def updatedItems (fields : BtrfsKey → List (Nat × Bytes)) (items : ItemMap) : ItemMap where
  entries := items.entries.map (updateEntry fields)
  sorted := List.pairwise_map.mpr items.sorted

/-- The items of the chunk root after `update_chunk_root`. -/
def Metadata.finalChunkItems (state : Metadata) : ItemMap :=
  updatedItems (devItemFields state.allocator.chunks) state.chunkRoot.items

/-- `root_root`, the first of the roots -/
def Metadata.rootRoot (state : Metadata) : TreeRoot :=
  (state.others.headD (rootTreeObjectid, { items := SortedMap.empty })).2

def Metadata.treeRoots (state : Metadata) : TreeRoots where
  root := state.rootRoot.treeAddr
  rootLevel := state.rootRoot.level
  chunkRoot := state.chunkRoot.treeAddr
  chunkRootLevel := state.chunkRoot.level

/-- The superblock of the finished trees. -/
def Metadata.superblock (volume : Volume) (settings : SuperblockSettings) (state : Metadata) :
    Except Nat Superblock :=
  prepareSuperblock state.finalChunkItems state.treeRoots state.allocator.chunks
    volume.deviceSize settings.compression settings.csumType settings.label

/-- The writes of the end of `convert`, and whether it gets behind the last of them. -/
def conversionEnd
    (volume : Volume) (identity : DeviceIdentity) (settings : SuperblockSettings)
    (state : Metadata) : List (Nat × Bytes) × Bool :=
  let chunks := state.allocator.chunks
  let blocks := state.finishedBlocks identity.toTreeIdentity
  match state.superblock volume settings with
  | .error _ => ((writeTrees chunks blocks).1, false)
  | .ok sb => (finalWrites volume chunks blocks (sb.bytes identity), (writeTrees chunks blocks).2)

/-! ## The blocks -/

theorem writeTrees_eq
    {chunks : List Chunk}
    (placed : ∀ chunk ∈ chunks, chunk.offset = chunk.diskStart + chunkVirtOffset)
    {trees : List (Nat × Bytes)}
    (inChunks : ∀ tree ∈ trees, ∃ chunk ∈ chunks,
      chunk.offset ≤ tree.1 ∧ tree.1 + treeSize ≤ chunk.offset + chunk.length) :
    writeTrees chunks trees = (trees.map fun tree => (tree.1 - chunkVirtOffset, tree.2), true) := by
  induction trees with
  | nil => rfl
  | cons tree rest ih =>
    obtain ⟨first, others⟩ := List.forall_mem_cons.mp inChunks
    rw [writeTrees]
    cases found : chunks.find? fun chunk =>
        chunk.offset ≤ tree.1 ∧ chunk.offset + chunk.length ≥ tree.1 + treeSize with
    | none =>
      obtain ⟨chunk, member, lower, upper⟩ := first
      exact absurd (decide_eq_true ⟨lower, upper⟩) (List.find?_eq_none.mp found chunk member)
    | some chunk =>
      have offset := placed chunk (List.mem_of_find?_eq_some found)
      have inside := List.find?_some found
      simp only [decide_eq_true_eq] at inside
      have place : tree.1 - chunk.offset + chunk.diskStart = tree.1 - chunkVirtOffset := by omega
      simp only [ih others, place, List.map_cons]

/-- All chunks have one of the three types and are behind the reserved area. -/
structure OnDisk (limit : Nat) (state : Allocator) : Prop where
  bounded : Bounded limit state
  inside : state.Inside reservedArea limit
  typed : state.Typed

theorem keptByBuilding_onDisk (limit : Nat) : KeptByBuilding (OnDisk limit) where
  items := fun _ items onDisk =>
    ⟨onDisk.bounded.with_items items, ⟨onDisk.inside.chunks, onDisk.inside.spaces⟩, onDisk.typed⟩
  added := fun _ items onDisk =>
    ⟨onDisk.bounded.addedAll items,
      ⟨List.forall_mem_map.mpr onDisk.inside.chunks, onDisk.inside.spaces⟩,
      List.forall_mem_map.mpr onDisk.typed⟩
  allocate := by
    intro state next root level address allocated onDisk
    have inside := onDisk.inside.allocateMetadata root level
    obtain ⟨advances, -⟩ := allocateMetadata_spec onDisk.bounded.wellFormed root level
    rw [allocated] at inside advances
    exact ⟨(onDisk.bounded.allocateMetadata allocated).1, inside,
      @Advances.typed state next onDisk.typed (.metadata root level) advances⟩

/-- What the reader of the finished volume relies on. -/
structure Metadata.Written (identity : DeviceIdentity) (unset : Nat → Nat) (limit : Nat)
    (volume : Volume) (settings : SuperblockSettings) (state : Metadata)
    (writes : List (Nat × Bytes)) : Prop extends state.Complete identity unset limit where
  onDisk : OnDisk limit state.allocator
  ended : conversionEnd volume identity settings state = (writes, true)

namespace Metadata.Written

variable {identity : DeviceIdentity} {unset : Nat → Nat} {limit : Nat} {volume : Volume}
  {settings : SuperblockSettings} {state : Metadata} {writes : List (Nat × Bytes)}
  (written : state.Written identity unset limit volume settings writes)
include written

theorem placed : ∀ chunk ∈ state.allocator.chunks,
    chunk.offset = chunk.diskStart + chunkVirtOffset := fun chunk member =>
  (written.bounded.wellFormed.chunks chunk member).placed

/-- A block that is written is in a chunk and off the places of superblocks. -/
theorem block_place
    {block : Nat × Bytes} (member : block ∈ state.finishedBlocks identity.toTreeIdentity) :
    block.2.length = treeSize ∧ reservedArea + chunkVirtOffset ≤ block.1 ∧
      (∃ chunk ∈ state.allocator.chunks, chunk.offset ≤ block.1 ∧
        block.1 + treeSize ≤ chunk.offset + chunk.length) ∧
      ∀ point, InRange block.1 treeSize point → ¬ InSuperblockStripe point := by
  obtain ⟨size, owned, inBlocks, address⟩ := written.of_mem_finishedBlocks member
  obtain ⟨chunk, inChunks, -, lower, upper⟩ := written.accounts.inChunk owned inBlocks
  have offStripes := written.accounts.offStripes owned inBlocks
  rw [address] at lower upper offStripes
  have offset := written.placed chunk inChunks
  have start := (written.onDisk.inside.chunks chunk inChunks).1
  exact ⟨size, by omega, ⟨chunk, inChunks, lower, upper⟩, offStripes⟩

theorem writes_eq :
    ∃ sb, state.superblock volume settings = .ok sb ∧
      writes =
        (state.finishedBlocks identity.toTreeIdentity).map
            (fun tree => (tree.1 - chunkVirtOffset, tree.2)) ++
          volume.superblockPlaces.map (fun addr => (addr, sb.bytes identity addr)) ++
          [(0, List.replicate volume.cluster.bytes 0)] := by
  have ended := written.ended
  rw [conversionEnd] at ended
  cases prepared : state.superblock volume settings with
  | error size =>
    simp only [prepared] at ended
    cases (Prod.mk.inj ended).2
  | ok sb =>
    simp only [prepared] at ended
    refine ⟨sb, rfl, ?_⟩
    have blocks := writeTrees_eq written.placed fun tree member =>
      (written.block_place member).2.2.1
    rw [← (Prod.mk.inj ended).1, finalWrites]
    simp only [blocks]
    rfl

end Metadata.Written

/-- Two ranges without a common point. -/
theorem disjoint_of_no_common
    {first size second length : Nat} (some_ : 0 < size) (more : 0 < length)
    (apart : ∀ point, first ≤ point → point < first + size → second ≤ point →
      ¬ point < second + length) :
    first + size ≤ second ∨ second + length ≤ first := by
  by_contra overlap
  rw [not_or, not_le, not_le] at overlap
  by_cases before : first ≤ second
  · exact apart second before overlap.1 le_rfl (by omega)
  · exact apart first le_rfl (by omega) (by omega) overlap.2

namespace Metadata.Written

variable {identity : DeviceIdentity} {unset : Nat → Nat} {limit : Nat} {volume : Volume}
  {settings : SuperblockSettings} {state : Metadata} {writes : List (Nat × Bytes)}
  (written : state.Written identity unset limit volume settings writes)
include written

/-- No superblock and no cleared byte is in a block. -/
theorem block_apart
    {block : Nat × Bytes} (member : block ∈ state.finishedBlocks identity.toTreeIdentity)
    (sb : Superblock) :
    ∀ entry ∈ volume.superblockPlaces.map (fun addr => (addr, sb.bytes identity addr)) ++
        [(0, List.replicate volume.cluster.bytes 0)],
      block.1 - chunkVirtOffset + treeSize ≤ entry.1 ∨
        entry.1 + entry.2.length ≤ block.1 - chunkVirtOffset := by
  obtain ⟨-, behind, -, offStripes⟩ := written.block_place member
  intro entry inWrites
  rcases List.mem_append.mp inWrites with superblock | cleared
  · obtain ⟨addr, place, rfl⟩ := List.mem_map.mp superblock
    have known := (mem_superblockPlaces_iff.mp place).1
    have stripe : superblockSize ≤ stripeLength := by decide
    rw [sb.length_bytes]
    refine disjoint_of_no_common (by decide) (by decide) fun point lower upper start stop => ?_
    exact offStripes point ⟨by omega, by omega⟩ ⟨addr, known, start, by omega⟩
  · rw [List.mem_singleton.mp cleared, List.length_replicate, Nat.zero_add]
    have small := volume.cluster.bytes_le
    exact Or.inr (by omega)

/-- Every block is read back where its address says. -/
theorem read_block
    {block : Nat × Bytes} (member : block ∈ state.finishedBlocks identity.toTreeIdentity)
    (device : Store) :
    (device.writeAll writes).read (block.1 - chunkVirtOffset) treeSize = block.2 := by
  obtain ⟨sb, -, rfl⟩ := written.writes_eq
  have size := (written.block_place member).1
  rw [List.append_assoc, Store.writeAll_append,
    Store.read_writeAll_disjoint _ (written.block_apart member sb)]
  have apart : ((state.finishedBlocks identity.toTreeIdentity).map
      fun tree => (tree.1 - chunkVirtOffset, tree.2)).Pairwise fun left right =>
        left.1 + left.2.length ≤ right.1 ∨ right.1 + right.2.length ≤ left.1 := by
    refine List.pairwise_map.mpr (written.finishedBlocks_apart.imp_of_mem ?_)
    intro left right leftMember rightMember apart
    obtain ⟨leftSize, leftBehind, -⟩ := written.block_place leftMember
    obtain ⟨rightSize, rightBehind, -⟩ := written.block_place rightMember
    simp only [leftSize, rightSize]
    omega
  have inWrites := List.mem_map_of_mem (f := fun tree : Nat × Bytes =>
    (tree.1 - chunkVirtOffset, tree.2)) member
  have stored := @Store.read_writeAll_of_apart device _ _ apart inWrites
  rwa [size] at stored

end Metadata.Written

end Ntfs2Btrfs
