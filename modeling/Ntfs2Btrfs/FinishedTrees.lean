import Ntfs2Btrfs.LeafUpdates
import Ntfs2Btrfs.Superblocks

/-!
# The trees that are written

At the end of `convert` the fields that were left open are filled into the trees of the
root, extent and chunk roots, and the blocks of all roots are written.

A finished tree is again a tree of its root: it holds the items of the root with the
fields filled in, at the same addresses.
-/

namespace Ntfs2Btrfs

open ByteStore
open BlockTrees
open SortedMap

/-! ## The end of the conversion -/

/-- `BTRFS_ROOT_TREE_OBJECTID` -/
def rootTreeObjectid : Nat := 1

/--
The list `roots`: the root tree comes first, and behind it the three trees that the loop
builds.
-/
def Metadata.roots (state : Metadata) : List (Nat × TreeRoot) :=
  state.others.take 1 ++
    ((extentTreeObjectid, state.extentRoot) :: (chunkTreeObjectid, state.chunkRoot) ::
      (devTreeObjectid, state.devRoot) :: state.others.drop 1)

/-- The blocks of a tree as `create_trees` leaves them. -/
def TreeRoot.encode (identity : TreeIdentity) (id : Nat) (root : TreeRoot) : List Bytes :=
  root.trees.map (encodeBlock identity id)

/-- The blocks of a tree as `write_trees` finds them. -/
def Metadata.finishTree (identity : TreeIdentity) (state : Metadata) (root : Nat × TreeRoot) :
    List Bytes :=
  let trees := root.2.encode identity root.1
  if root.1 = rootTreeObjectid then updateRootRoot identity state.roots trees
  else if root.1 = extentTreeObjectid then updateExtentRoot identity state.allocator.chunks trees
  else if root.1 = chunkTreeObjectid then updateChunkRoot identity state.allocator.chunks trees
  else trees

/-- The blocks of all trees, with the addresses in their headers. -/
def Metadata.finishedBlocks (identity : TreeIdentity) (state : Metadata) : List (Nat × Bytes) :=
  (state.roots.flatMap (state.finishTree identity)).map fun block => (headerBytenr block, block)

/-! ## Filled in fields -/

/-- The fields that are filled in, in the tree of a root. -/
def Metadata.finalFields (state : Metadata) (id : Nat) : BtrfsKey → List (Nat × Bytes) :=
  if id = rootTreeObjectid then rootItemFields state.roots
  else if id = extentTreeObjectid then blockGroupFields state.allocator.chunks
  else if id = chunkTreeObjectid then devItemFields state.allocator.chunks
  else fun _ => []

/-- The root with a tree that has the fields filled in. -/
def TreeRoot.update (fields : BtrfsKey → List (Nat × Bytes)) (root : TreeRoot) : TreeRoot :=
  { root with trees := root.trees.map (TreeBlock.update fields) }

section Update

variable {fields : BtrfsKey → List (Nat × Bytes)}

theorem update_pointer (block : TreeBlock) :
    (block.update fields).pointer = block.pointer := by
  rw [TreeBlock.pointer, TreeBlock.pointer, update_firstKey, update_bytenr]

theorem TreeBlock.Sound.update
    {trees : List TreeBlock} {block : TreeBlock} (sound : block.Sound trees)
    (fit : ∀ entry ∈ block.items, FieldsFit fields entry) :
    (block.update fields).Sound (trees.map (TreeBlock.update fields)) := by
  obtain ⟨bytenr, level, body⟩ := block
  cases body with
  | leaf items =>
    obtain ⟨leaf, room⟩ := sound
    exact ⟨leaf, (leafCost_updateEntry fit).trans_le room⟩
  | node pointers =>
    obtain ⟨inner, room, children⟩ := sound
    refine ⟨inner, room, fun pointer member => ?_⟩
    obtain ⟨child, inTrees, same⟩ := children pointer member
    exact ⟨child.update fields, List.mem_map_of_mem inTrees, same.trans (update_pointer child).symm⟩

/-- What a changed block is read as. -/
theorem contents_update (block : TreeBlock) :
    (block.update fields).body.contents =
      match block.body.contents with
      | .leaf items => .leaf (items.map (updateEntry fields))
      | .node children => .node children := by
  obtain ⟨bytenr, level, body⟩ := block
  cases body with
  | leaf items => rfl
  | node pointers => rfl

/-- The blocks of a tree at their addresses. -/
def blockAt (trees : List TreeBlock) (address : Nat) :
    Except Unit (Block (BtrfsKey × Bytes) BtrfsKey) :=
  match trees.find? fun block => block.bytenr = address with
  | none => .error ()
  | some block => .ok block.body.contents

theorem storesBlocks_blockAt
    {trees : List TreeBlock} (distinct : (trees.map TreeBlock.bytenr).Nodup) :
    StoresBlocks (blockAt trees) trees := by
  intro block member
  have found : trees.find? (fun other => other.bytenr = block.bytenr) = some block := by
    induction trees with
    | nil => exact absurd member List.not_mem_nil
    | cons first rest ih =>
      rw [List.map_cons, List.nodup_cons] at distinct
      rcases List.mem_cons.mp member with rfl | later
      · exact List.find?_cons_of_pos (decide_eq_true rfl)
      · have other : first.bytenr ≠ block.bytenr := fun same =>
          distinct.1 (same ▸ List.mem_map_of_mem later)
        rw [List.find?_cons_of_neg (by simpa using other)]
        exact ih distinct.2 later
  rw [blockAt, found]

theorem blockAt_ok
    {trees : List TreeBlock} {address : Nat} {contents : Block (BtrfsKey × Bytes) BtrfsKey}
    (stored : blockAt trees address = .ok contents) :
    ∃ block ∈ trees, block.bytenr = address ∧ block.body.contents = contents := by
  rw [blockAt] at stored
  cases found : trees.find? fun block => block.bytenr = address with
  | none =>
    rw [found] at stored
    cases stored
  | some block =>
    rw [found] at stored
    cases stored
    have same := List.find?_some found
    exact ⟨block, List.mem_of_find?_eq_some found, of_decide_eq_true same, rfl⟩

/-- With fields filled in the tree holds the items with these fields. -/
theorem TreeRoot.Encodes.update
    {root : TreeRoot} {entries : List (BtrfsKey × Bytes)} (encodes : root.Encodes entries)
    (distinct : (root.trees.map TreeBlock.bytenr).Nodup)
    (fit : ∀ entry ∈ entries, FieldsFit fields entry) :
    (root.update fields).Encodes (entries.map (updateEntry fields)) := by
  obtain ⟨allocator, builds⟩ := encodes
  have itemsFit : ∀ block ∈ root.trees, ∀ entry ∈ block.items, FieldsFit fields entry := by
    intro block member entry inBlock
    refine fit entry ?_
    rw [← builds.leaves]
    exact List.mem_flatMap_of_mem member inBlock
  refine ⟨allocator, List.forall_mem_map.mpr fun block member => ?_, ?_, ?_, ?_, ?_, ?_, ?_⟩
  · exact (builds.sound block member).update (itemsFit block member)
  · refine builds.addresses.trans (congrArg _ ?_)
    change root.trees.map _ = (root.trees.map (TreeBlock.update fields)).map _
    rw [List.map_map]
    rfl
  · change 2 ^ root.level < 2 * (root.trees.map (TreeBlock.update fields)).length
    rw [List.length_map]
    exact builds.height
  · obtain ⟨below, top, shape, level, bytenr, others⟩ := builds.root
    have shape : root.trees = below ++ [top] := shape
    refine ⟨below.map (TreeBlock.update fields), top.update fields, ?_, level, bytenr,
      List.forall_mem_map.mpr others⟩
    change root.trees.map (TreeBlock.update fields) = _
    rw [shape, List.map_append]
    rfl
  · intro φ stored stores
    have whole := builds.holds (blockAt root.trees) (storesBlocks_blockAt distinct)
    have changed : ∀ address contents, blockAt root.trees address = .ok contents →
        ∃ block ∈ root.trees, block.body.contents = contents ∧
          stored address = .ok (block.update fields).body.contents := by
      intro address contents found
      obtain ⟨block, member, rfl, same⟩ := blockAt_ok found
      exact ⟨block, member, same, stores _ (List.mem_map_of_mem member)⟩
    refine @Holds.map _ _ _ _ Prod.fst (updateEntry fields) _ _ (fun _ => rfl)
      (fun address items leaf => ?_) (fun address children node => ?_) _ _ _ whole
    · obtain ⟨block, -, same, found⟩ := changed address _ leaf
      rw [found, contents_update, same]
    · obtain ⟨block, -, same, found⟩ := changed address _ node
      rw [found, contents_update, same]
  · change (root.trees.map (TreeBlock.update fields)).flatMap TreeBlock.items = _
    rw [← builds.leaves, List.flatMap_map, List.map_flatMap]
    exact List.flatMap_congr fun block _ => update_items block
  · exact List.pairwise_map.mpr builds.ordered

end Update

/-! ## Blocks that fit -/

theorem TreeRoot.length_trees_le
    {root : TreeRoot} (bounded : ∀ block ∈ root.trees, block.bytenr < 2 ^ 64)
    (distinct : (root.trees.map TreeBlock.bytenr).Nodup) : root.trees.length ≤ 2 ^ 64 := by
  have inside : root.trees.map TreeBlock.bytenr ⊆ List.range (2 ^ 64) := by
    intro address member
    obtain ⟨block, inTrees, rfl⟩ := List.mem_map.mp member
    exact List.mem_range.mpr (bounded block inTrees)
  have length := (distinct.subperm inside).length_le
  rwa [List.length_map, List.length_range] at length

/-- There are not enough addresses for a tree whose level does not fit its byte. -/
theorem TreeRoot.Encodes.fits
    {root : TreeRoot} {entries : List (BtrfsKey × Bytes)} (encodes : root.Encodes entries)
    (bounded : ∀ block ∈ root.trees, block.bytenr < 2 ^ 64)
    (distinct : (root.trees.map TreeBlock.bytenr).Nodup) :
    ∀ block ∈ root.trees, block.Fits := by
  obtain ⟨allocator, builds⟩ := encodes
  have count := TreeRoot.length_trees_le bounded distinct
  have height : 2 ^ root.level < 2 * root.trees.length := builds.height
  have low : root.level < 65 := by
    refine (Nat.pow_lt_pow_iff_right (a := 2) (by decide)).mp (height.trans_le ?_)
    rw [Nat.pow_succ]
    omega
  obtain ⟨below, top, shape, topLevel, -, others⟩ := builds.root
  intro block member
  have level : block.level ≤ root.level := by
    have inTrees : block ∈ below ++ [top] := shape ▸ member
    rcases List.mem_append.mp inTrees with lower | last
    · exact others block lower
    · rw [List.mem_singleton.mp last]
      exact topLevel.le
  have sound := builds.sound block member
  refine ⟨bounded block member, by omega, ?_⟩
  obtain ⟨bytenr, blockLevel, body⟩ := block
  cases body with
  | leaf items => exact sound
  | node pointers =>
    obtain ⟨inner, room, children⟩ := sound
    refine ⟨inner, room, fun pointer inNode => ?_⟩
    obtain ⟨child, inTrees, rfl⟩ := children pointer inNode
    exact bounded child inTrees

/-! ## Finished trees -/

/-- The items of a root. -/
def Metadata.entries (state : Metadata) (root : Nat × TreeRoot) : ItemMap :=
  rootItems root.1 root.2 state.allocator

/-- The items of a root with the fields filled in. -/
def Metadata.finalEntries (state : Metadata) (root : Nat × TreeRoot) :
    List (BtrfsKey × Bytes) :=
  (state.entries root).entries.map (updateEntry (state.finalFields root.1))

/-- The root with its finished tree. -/
def Metadata.finalRoot (state : Metadata) (root : Nat × TreeRoot) : TreeRoot :=
  root.2.update (state.finalFields root.1)

theorem update_none (root : TreeRoot) : root.update (fun _ => []) = root := by
  have same : root.trees.map (TreeBlock.update fun _ => []) = root.trees :=
    (List.map_congr_left fun block _ => update_self fun _ _ => rfl).trans (List.map_id _)
  rw [TreeRoot.update, same]

theorem distinctKeys_entries (items : ItemMap) : DistinctKeys items.entries :=
  items.sorted.imp fun before => before.ne

/-- The blocks that are written are those of a tree with the fields filled in. -/
theorem Metadata.finishTree_eq
    {identity : TreeIdentity} {state : Metadata} {root : Nat × TreeRoot}
    (encodes : root.2.Encodes (state.entries root).entries)
    (fits : ∀ block ∈ root.2.trees, block.Fits)
    (fit : ∀ entry ∈ (state.entries root).entries, FieldsFit (state.finalFields root.1) entry) :
    state.finishTree identity root = (state.finalRoot root).encode identity root.1 := by
  obtain ⟨allocator, builds⟩ := encodes
  have leaves : root.2.trees.flatMap TreeBlock.items = (state.entries root).entries :=
    builds.leaves
  have ordered : root.2.trees.Pairwise fun left right => left.level ≤ right.level :=
    builds.ordered
  rw [← leaves] at fit
  have distinct := distinctKeys_entries (state.entries root)
  rw [← leaves] at distinct
  rw [Metadata.finishTree, Metadata.finalRoot]
  rw [Metadata.finalFields] at fit ⊢
  by_cases isRoot : root.1 = rootTreeObjectid
  · simp only [if_pos isRoot] at fit ⊢
    exact updateLeaves_encode fits ordered fit
  · simp only [if_neg isRoot] at fit ⊢
    by_cases isExtent : root.1 = extentTreeObjectid
    · simp only [if_pos isExtent] at fit ⊢
      exact updateLeaves_encode fits ordered fit
    · simp only [if_neg isExtent] at fit ⊢
      by_cases isChunk : root.1 = chunkTreeObjectid
      · simp only [if_pos isChunk] at fit ⊢
        exact updateChunkRoot_encode fits ordered distinct fit
      · simp only [if_neg isChunk]
        rw [update_none]

/-! ## All trees -/

theorem Metadata.roots_perm (state : Metadata) :
    state.roots.Perm
      ((extentTreeObjectid, state.extentRoot) :: (chunkTreeObjectid, state.chunkRoot) ::
        (devTreeObjectid, state.devRoot) :: state.others) := by
  have moved := @List.perm_append_comm_assoc _ (state.others.take 1)
    [(extentTreeObjectid, state.extentRoot), (chunkTreeObjectid, state.chunkRoot),
      (devTreeObjectid, state.devRoot)] (state.others.drop 1)
  rwa [List.take_append_drop] at moved

theorem Metadata.blocks_perm (state : Metadata) :
    state.blocks.Perm (state.roots.flatMap fun root => root.2.blocks root.1) := by
  have moved := (state.roots_perm.flatMap_right fun root => root.2.blocks root.1).symm
  simp only [List.flatMap_cons] at moved
  exact moved

theorem Metadata.mem_blocks
    {state : Metadata} {root : Nat × TreeRoot} (member : root ∈ state.roots) {block : TreeBlock}
    (inTrees : block ∈ root.2.trees) :
    (⟨root.1, block.bytenr, block.level⟩ : OwnedBlock) ∈
      state.roots.flatMap fun root => root.2.blocks root.1 :=
  List.mem_flatMap_of_mem member (List.mem_map_of_mem inTrees)

/-- The metadata after the loop, with space for the fields that are filled in. -/
structure Metadata.Complete (identity : DeviceIdentity) (unset : Nat → Nat) (limit : Nat)
    (state : Metadata) : Prop where
  consistent : state.Consistent identity unset
  bounded : Bounded limit state.allocator
  distinct : (state.roots.map Prod.fst).Nodup
  fit : ∀ root ∈ state.roots, ∀ entry ∈ (state.entries root).entries,
    FieldsFit (state.finalFields root.1) entry

namespace Metadata.Complete

variable {identity : DeviceIdentity} {unset : Nat → Nat} {limit : Nat} {state : Metadata}
  (complete : state.Complete identity unset limit)
include complete

theorem encodes {root : Nat × TreeRoot} (member : root ∈ state.roots) :
    root.2.Encodes (state.entries root).entries := by
  have ids := (state.roots_perm.map Prod.fst).nodup_iff.mp complete.distinct
  rw [List.map_cons, List.nodup_cons] at ids
  have notChunk : chunkTreeObjectid ≠ extentTreeObjectid := by decide
  have notDev : devTreeObjectid ≠ extentTreeObjectid := by decide
  rw [state.roots_perm.mem_iff] at member
  rw [Metadata.entries]
  rcases List.mem_cons.mp member with rfl | member
  · rw [rootItems_extent]
    exact complete.consistent.extentTree
  rcases List.mem_cons.mp member with rfl | member
  · rw [rootItems_of_ne notChunk]
    exact complete.consistent.chunkTree
  rcases List.mem_cons.mp member with rfl | member
  · rw [rootItems_of_ne notDev]
    exact complete.consistent.devTree
  · have other : root.1 ≠ extentTreeObjectid := by
      intro same
      refine ids.1 (List.mem_map.mpr ⟨root, ?_, same⟩)
      exact List.mem_cons_of_mem _ (List.mem_cons_of_mem _ member)
    rw [rootItems_of_ne other]
    exact complete.consistent.otherTrees root member

/-- The blocks of all roots, in the order in which they are written. -/
theorem accounts :
    Accounts state.allocator (state.roots.flatMap fun root => root.2.blocks root.1) :=
  complete.consistent.blocks.perm state.blocks_perm

theorem bytenr_lt {root : Nat × TreeRoot} (member : root ∈ state.roots) :
    ∀ block ∈ root.2.trees, block.bytenr < 2 ^ 64 := fun _ inTrees =>
  complete.accounts.bounded _ (Metadata.mem_blocks member inTrees)

theorem bytenr_nodup {root : Nat × TreeRoot} (member : root ∈ state.roots) :
    (root.2.trees.map TreeBlock.bytenr).Nodup := by
  have apart := complete.accounts.apart
  rw [List.pairwise_flatMap] at apart
  have own := apart.1 root member
  rw [TreeRoot.blocks, List.pairwise_map] at own
  refine List.pairwise_map.mpr (own.imp fun {left right} disjoint same => ?_)
  have size : 0 < treeSize := by decide
  rcases disjoint with before | behind
  · have before : left.bytenr + treeSize ≤ right.bytenr := before
    omega
  · have behind : right.bytenr + treeSize ≤ left.bytenr := behind
    omega

theorem finalRoot_encodes {root : Nat × TreeRoot} (member : root ∈ state.roots) :
    (state.finalRoot root).Encodes (state.finalEntries root) :=
  (complete.encodes member).update (complete.bytenr_nodup member) (complete.fit root member)

theorem finalRoot_fits {root : Nat × TreeRoot} (member : root ∈ state.roots) :
    ∀ block ∈ (state.finalRoot root).trees, block.Fits := by
  refine (complete.finalRoot_encodes member).fits ?_ ?_
  · exact List.forall_mem_map.mpr (complete.bytenr_lt member)
  · change ((root.2.trees.map (TreeBlock.update _)).map TreeBlock.bytenr).Nodup
    rw [List.map_map]
    exact complete.bytenr_nodup member

/-- The blocks that are written, with the places that their headers say. -/
theorem finishedBlocks_eq :
    state.finishedBlocks identity.toTreeIdentity =
      state.roots.flatMap fun root => (state.finalRoot root).trees.map fun block =>
        (block.bytenr, encodeBlock identity.toTreeIdentity root.1 block) := by
  rw [Metadata.finishedBlocks, List.map_flatMap]
  refine List.flatMap_congr fun root member => ?_
  have fits := (complete.encodes member).fits (complete.bytenr_lt member)
    (complete.bytenr_nodup member)
  rw [Metadata.finishTree_eq (complete.encodes member) fits (complete.fit root member),
    TreeRoot.encode, List.map_map]
  refine List.map_congr_left fun block inTrees => ?_
  have header := @header_encodeBlock identity.toTreeIdentity root.1 block
    (complete.finalRoot_fits member block inTrees)
  exact Prod.ext header.1 rfl

/-- The written blocks are tree blocks, where the blocks of the roots are. -/
theorem of_mem_finishedBlocks
    {write : Nat × Bytes} (member : write ∈ state.finishedBlocks identity.toTreeIdentity) :
    write.2.length = treeSize ∧
      ∃ block ∈ state.roots.flatMap fun root => root.2.blocks root.1,
        block.address = write.1 := by
  rw [complete.finishedBlocks_eq] at member
  obtain ⟨root, inRoots, inBlocks⟩ := List.mem_flatMap.mp member
  obtain ⟨block, inTrees, rfl⟩ := List.mem_map.mp inBlocks
  refine ⟨length_encodeBlock (complete.finalRoot_fits inRoots block inTrees), ?_⟩
  obtain ⟨old, inOld, rfl⟩ := List.mem_map.mp inTrees
  exact ⟨_, Metadata.mem_blocks inRoots inOld, rfl⟩

theorem finishedBlocks_apart :
    (state.finishedBlocks identity.toTreeIdentity).Pairwise fun left right =>
      left.1 + treeSize ≤ right.1 ∨ right.1 + treeSize ≤ left.1 := by
  have places : (state.finishedBlocks identity.toTreeIdentity).map Prod.fst =
      (state.roots.flatMap fun root => root.2.blocks root.1).map OwnedBlock.address := by
    rw [complete.finishedBlocks_eq, List.map_flatMap, List.map_flatMap]
    refine List.flatMap_congr fun root _ => ?_
    rw [Metadata.finalRoot, TreeRoot.update, TreeRoot.blocks, List.map_map, List.map_map,
      List.map_map]
    rfl
  have apart : ((state.roots.flatMap fun root => root.2.blocks root.1).map
      OwnedBlock.address).Pairwise fun left right =>
        left + treeSize ≤ right ∨ right + treeSize ≤ left :=
    List.pairwise_map.mpr complete.accounts.apart
  rw [← places] at apart
  exact List.pairwise_map.mp apart

end Metadata.Complete

end Ntfs2Btrfs
