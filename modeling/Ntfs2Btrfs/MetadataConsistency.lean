import Ntfs2Btrfs.MetadataAccounts

/-!
# What the metadata loop leaves

Between two passes the items of the three roots only grow, so a pass never needs
fewer blocks on any level than the pass before it, and all old addresses are used
again.  When a pass allocates nothing it has the same number of blocks, each of them
on its old level: nothing in the extent tree changed while it was written.
-/

namespace Ntfs2Btrfs

open ByteStore
open Extents
open SortedMap

/-! ## Passes that allocate nothing -/

theorem Flushed.allocationsDone
    {id : Nat} {state last : TreeState} {blocks : List TreeBlock}
    (chain : Flushed id state blocks last) (done : state.allocationsDone = true) :
    last.allocationsDone = true := by
  refine chain.preserves (P := fun state => state.allocationsDone = true) ?_ ?_ done
  · intro state last same done
    rwa [same.allocationsDone]
  · intro state next level body flushed done
    obtain ⟨address, -, -, ⟨-, -, -, kept⟩ | ⟨-, -, -, set⟩⟩ := flushTree_cases flushed
    · rwa [kept]
    · exact set

/-- Without allocations the old addresses suffice. -/
theorem Flushed.length_le
    {id : Nat} {state last : TreeState} {blocks : List TreeBlock}
    (chain : Flushed id state blocks last) (none_ : last.allocationsDone = false) :
    blocks.length ≤ state.oldAddresses.length := by
  induction chain with
  | done same => exact Nat.zero_le _
  | flush same flushed _ later ih =>
    obtain ⟨address, -, -, ⟨oldLevel, old, -, -⟩ | ⟨-, -, -, set⟩⟩ := flushTree_cases flushed
    · rw [← same.oldAddresses, old, List.length_cons, List.length_cons]
      exact Nat.succ_le_succ (ih none_)
    · rw [later.allocationsDone set] at none_
      cases none_

/-- A pass that gives out the old addresses with their levels leaves the allocator alone. -/
theorem Flushed.allocator_eq
    {id : Nat} {state last : TreeState} {blocks : List TreeBlock}
    (chain : Flushed id state blocks last)
    (reused : last.addresses.IsPrefix (state.addresses ++ state.oldAddresses)) :
    last.allocator = state.allocator := by
  induction chain with
  | done same => exact same.allocator
  | @flush state between next last block blocks same flushed _ later ih =>
    rw [← same.addresses, ← same.oldAddresses] at reused
    rw [← same.allocator]
    obtain ⟨address, -, added, ⟨oldLevel, old, allocator, -⟩ | ⟨old, -, -, -⟩⟩ :=
      flushTree_cases flushed
    · have whole := reused
      have used := later.extends_.trans reused
      rw [added, List.prefix_append_right_inj, old, List.cons_prefix_cons] at used
      have level : block.level = oldLevel := (Prod.mk.inj used.1).2
      have unmoved : next.allocator = between.allocator := by
        rw [allocator, recycle, if_neg (not_not.mpr level)]
      rw [← unmoved]
      refine ih ?_
      rw [added, List.append_assoc, List.singleton_append, level, ← old]
      exact whole
    · have used := later.extends_.trans reused
      rw [added, old, List.prefix_append_right_inj] at used
      cases List.prefix_nil.mp used

/-! ## Building a root again -/

/-- The map that the tree of a root describes. -/
def rootItems (id : Nat) (root : TreeRoot) (allocator : Allocator) : ItemMap :=
  treeItems id root.items { allocator := allocator }

/-- The tree of the root holds the entries, at its addresses. -/
def TreeRoot.Encodes (root : TreeRoot) (entries : List (BtrfsKey × Bytes)) : Prop :=
  ∃ allocator, (root.start allocator).Builds { allocator := allocator } entries

/-- The blocks of the root's tree. -/
def TreeRoot.blocks (id : Nat) (root : TreeRoot) : List OwnedBlock :=
  root.trees.map fun block => ⟨id, block.bytenr, block.level⟩

/-- The root was not built yet, or from items that have only grown since. -/
structure Grows (id : Nat) (items : ItemMap) (root : TreeRoot) : Prop where
  old : root.oldAddresses = []
  addresses : root.addresses = root.trees.map fun block => (block.bytenr, block.level)
  before : root.trees = [] ∨ ∃ own start final full,
    TreeRun id own start final full ∧ final.trees = root.trees ∧
      ((treeItems id own final).entries.map weighed).Sublist (items.entries.map weighed)

theorem Grows.mono
    {id : Nat} {items more : ItemMap} {root : TreeRoot} (grows : Grows id items root)
    (grown : (items.entries.map weighed).Sublist (more.entries.map weighed)) :
    Grows id more root := by
  refine ⟨grows.old, grows.addresses, ?_⟩
  rcases grows.before with none_ | ⟨own, start, final, full, run, trees, kept⟩
  · exact Or.inl none_
  · exact Or.inr ⟨own, start, final, full, run, trees, kept.trans grown⟩

theorem Grows.owned
    {id : Nat} {items : ItemMap} {root : TreeRoot} (grows : Grows id items root) :
    ownedBlocks id root.addresses = root.blocks id := by
  rw [ownedBlocks, grows.addresses, List.map_map]
  rfl

/-- A pass over a map that has grown has as many blocks on every level, or more. -/
theorem Grows.more
    {id full : Nat} {items own : ItemMap} {root : TreeRoot} {start final : TreeState}
    (grows : Grows id items root) (run : TreeRun id own start final full)
    (found : (items.entries.map weighed).Sublist ((treeItems id own start).entries.map weighed)) :
    (∀ level, countAt level root.trees ≤ countAt level final.trees) ∧
      root.trees.Pairwise fun left right => left.level ≤ right.level := by
  rcases grows.before with none_ | ⟨own', start', final', full', run', trees, kept⟩
  · rw [none_]
    exact ⟨fun level => Nat.zero_le _, List.Pairwise.nil⟩
  · rw [← trees]
    exact ⟨run'.counts_mono run (rescan_grown run' run (kept.trans found)), run'.ordered⟩

/-- What building a root again does. -/
structure Rebuilt (limit id : Nat) (others : List OwnedBlock) (root next : TreeRoot)
    (allocator last : Allocator) : Prop where
  bounded : Bounded limit last
  accounts : Accounts last (next.blocks id ++ others)
  keeps : Keeps allocator last
  items : next.items = root.items
  grows : Grows id (rootItems id next last) next
  settled : next.allocationsDone = false →
    last = allocator ∧ next.Encodes (rootItems id next last).entries

theorem Grows.rebuild
    {limit id turns : Nat} {others : List OwnedBlock} {root next : TreeRoot}
    {allocator last : Allocator} (grows : Grows id (rootItems id root allocator) root)
    (accounts : Accounts allocator (root.blocks id ++ others))
    (bounded : Bounded limit allocator) (small : limit + chunkVirtOffset < 2 ^ 64)
    (built : buildRoot turns id root.reset allocator = some (.ok (next, last))) :
    Rebuilt limit id others root next allocator last := by
  obtain ⟨final, created, rfl, rfl⟩ := buildRoot_ok_iff.mp built
  obtain ⟨blocks, chain⟩ := createTrees_flushed created
  have recyclable : Recyclable id (root.reset.start allocator) :=
    fun _ entry _ => accounts.describedOnce entry.1
  obtain ⟨full, run⟩ := createTrees_run created rfl recyclable
  obtain ⟨more, ordered⟩ := grows.more run (List.Sublist.refl _)
  have addresses : final.addresses =
      final.trees.map fun block => (block.bytenr, block.level) := run.adds.addresses
  have lengths : root.trees.length ≤ final.trees.length := by
    have levels := (levels_subperm more).length_le
    rwa [List.length_map, List.length_map] at levels
  have oldLength : root.addresses.length = root.trees.length := by
    rw [grows.addresses, List.length_map]
  have old : final.oldAddresses = [] := by
    rw [run.adds.old]
    exact List.drop_eq_nil_of_le (oldLength.le.trans lengths)
  have owned : TreeState.owned id (root.reset.start allocator) = root.blocks id := by
    rw [TreeState.owned, ← grows.owned]
    exact congrArg (ownedBlocks id) (List.append_nil _)
  obtain ⟨whole, keeps⟩ := chain.accounts (owned ▸ accounts) bounded small
  rw [TreeState.owned, old, List.nil_append] at whole
  have later : Grows id (treeItems id root.items final) (root.reset.finish final) :=
    ⟨old, addresses, Or.inr ⟨_, _, final, full, run, rfl, List.Sublist.refl _⟩⟩
  refine ⟨(chain.progress bounded).1, ?_, keeps, rfl, later, fun settled => ?_⟩
  · rw [← later.owned]
    exact whole
  · -- no allocations: as many blocks as before, so every address keeps its level
    have fewer : final.trees.length ≤ root.trees.length := by
      have used := chain.length_le settled
      rw [show (root.reset.start allocator).oldAddresses = root.addresses from rfl, oldLength,
        show blocks = final.trees from chain.trees.symm] at used
      exact used
    have same : final.addresses = root.addresses := by
      have firsts : final.addresses.map Prod.fst = root.addresses.map Prod.fst := by
        have reused := run.adds.reused
        change (final.trees.map TreeBlock.bytenr).take root.addresses.length =
          (root.addresses.map Prod.fst).take final.trees.length at reused
        rw [List.take_of_length_le (by rw [List.length_map]; omega),
          List.take_of_length_le (by rw [List.length_map]; omega)] at reused
        rw [← reused, addresses, List.map_map]
        rfl
      have seconds : final.addresses.map Prod.snd = root.addresses.map Prod.snd := by
        rw [addresses, grows.addresses, List.map_map, List.map_map]
        exact levels_eq more ordered run.ordered (le_antisymm fewer lengths)
      rw [List.zip_of_prod firsts seconds]
      exact (List.zip_of_prod rfl rfl).symm
    have reused : final.addresses.IsPrefix
        ((root.reset.start allocator).addresses ++ (root.reset.start allocator).oldAddresses) :=
      same ▸ List.prefix_refl _
    have unmoved : final.allocator = allocator := chain.allocator_eq reused
    obtain ⟨builds, items⟩ := createTrees_builds created rfl fun _ => reused
    have entries : rootItems id (root.reset.finish final) final.allocator =
        treeItems id root.reset.items (root.reset.start allocator) := items
    rw [entries]
    exact ⟨unmoved, final.allocator, builds.sound, builds.addresses, builds.height, builds.root,
      builds.holds, builds.leaves, builds.ordered⟩

/-! ## Describing the chunks -/

/-- The item of the chunk tree for a chunk. -/
def Chunk.chunkRecord (identity : DeviceIdentity) (chunk : Chunk) : BtrfsKey × Bytes :=
  (btrfsKey 0x100 BtrfsKeyType.chunkItem chunk.offset, chunk.itemBytes identity)

/-- The item of the device tree for a chunk. -/
def Chunk.devExtentRecord (identity : DeviceIdentity) (chunk : Chunk) : BtrfsKey × Bytes :=
  (btrfsKey 1 BtrfsKeyType.devExtent chunk.diskStart, chunk.devExtentBytes identity)

/-- The item of the extent tree for a chunk. -/
def Chunk.blockGroupRecord (unset : Nat → Nat) (chunk : Chunk) : BtrfsKey × Bytes :=
  (btrfsKey chunk.offset BtrfsKeyType.blockGroupItem chunk.length,
    chunk.blockGroupBytes (unset chunk.offset))

/-- Items of one type were added to a map, and no other ones. -/
structure ItemsAdded (type : Nat) (records : List (BtrfsKey × Bytes)) (items next : ItemMap) :
    Prop where
  records : (itemsOfType type next).Perm (records ++ itemsOfType type items)
  others : ∀ other, other ≠ type → (itemsOfType other next).Perm (itemsOfType other items)
  kept : items.entries.Sublist next.entries

theorem ItemsAdded.refl (type : Nat) (items : ItemMap) : ItemsAdded type [] items items :=
  ⟨List.Perm.refl _, fun _ _ => List.Perm.refl _, List.Sublist.refl _⟩

theorem ItemsAdded.trans
    {type : Nat} {earlier later : List (BtrfsKey × Bytes)} {first second third : ItemMap}
    (left : ItemsAdded type earlier first second) (right : ItemsAdded type later second third) :
    ItemsAdded type (earlier ++ later) first third := by
  refine ⟨?_, fun other different => ?_, left.kept.trans right.kept⟩
  · refine right.records.trans (((left.records).append_left later).trans ?_)
    rw [List.append_assoc]
    exact List.perm_append_comm_assoc _ _ _
  · exact (right.others other different).trans (left.others other different)

theorem itemsAdded_addItem
    {items next : ItemMap} {objectid type offset : Nat} {data : Bytes} (small : type < 2 ^ 8)
    (added : addItem items objectid type offset data = .ok next) :
    ItemsAdded type [(btrfsKey objectid type offset, data)] items next := by
  obtain ⟨fresh, rfl⟩ := addItem_ok_iff.mp added
  have same : (btrfsKey objectid type offset).type = type := Nat.mod_eq_of_lt small
  refine ⟨itemsOfType_emplace fresh same, fun other different => ?_, sublist_emplace _ _ _⟩
  exact itemsOfType_emplace_of_ne fresh fun equal => different (equal.symm.trans same)

/-- The items of the chunks were added to the three maps. -/
structure ChunksDescribed (identity : DeviceIdentity) (unset : Nat → Nat) (chunks : List Chunk)
    (roots next : ChunkRoots) : Prop where
  chunkItems : ItemsAdded BtrfsKeyType.chunkItem (chunks.map (Chunk.chunkRecord identity))
    roots.chunkItems next.chunkItems
  devItems : ItemsAdded BtrfsKeyType.devExtent (chunks.map (Chunk.devExtentRecord identity))
    roots.devItems next.devItems
  extentItems : ItemsAdded BtrfsKeyType.blockGroupItem
    (chunks.map (Chunk.blockGroupRecord unset)) roots.extentItems next.extentItems

theorem ChunksDescribed.trans
    {identity : DeviceIdentity} {unset : Nat → Nat} {earlier later : List Chunk}
    {first second third : ChunkRoots}
    (left : ChunksDescribed identity unset earlier first second)
    (right : ChunksDescribed identity unset later second third) :
    ChunksDescribed identity unset (earlier ++ later) first third := by
  refine ⟨?_, ?_, ?_⟩
  · rw [List.map_append]
    exact left.chunkItems.trans right.chunkItems
  · rw [List.map_append]
    exact left.devItems.trans right.devItems
  · rw [List.map_append]
    exact left.extentItems.trans right.extentItems

theorem addChunk_described
    {identity : DeviceIdentity} {unset : Nat → Nat} {chunk : Chunk} {roots next : ChunkRoots}
    (added : addChunk identity (unset chunk.offset) chunk roots = .ok next) :
    ChunksDescribed identity unset [chunk] roots next := by
  rw [addChunk] at added
  cases first : addItem roots.chunkItems 0x100 BtrfsKeyType.chunkItem chunk.offset
      (chunk.itemBytes identity) with
  | error failure =>
    rw [first] at added
    cases added
  | ok chunkItems =>
    rw [first] at added
    cases second : addItem roots.devItems 1 BtrfsKeyType.devExtent chunk.diskStart
        (chunk.devExtentBytes identity) with
    | error failure =>
      rw [second] at added
      cases added
    | ok devItems =>
      rw [second] at added
      cases third : addItem roots.extentItems chunk.offset BtrfsKeyType.blockGroupItem
          chunk.length (chunk.blockGroupBytes (unset chunk.offset)) with
      | error failure =>
        rw [third] at added
        cases added
      | ok extentItems =>
        rw [third] at added
        cases added
        exact ⟨itemsAdded_addItem (by decide) first, itemsAdded_addItem (by decide) second,
          itemsAdded_addItem (by decide) third⟩

/-- The chunks that were not added before are described, each of them once. -/
theorem addChunks_described
    {identity : DeviceIdentity} {unset : Nat → Nat} {chunks : List Chunk}
    {roots next : ChunkRoots} (added : addChunks identity unset chunks roots = .ok next) :
    ChunksDescribed identity unset (chunks.filter fun chunk => !chunk.added) roots next := by
  induction chunks generalizing roots with
  | nil =>
    cases added
    exact ⟨ItemsAdded.refl _ _, ItemsAdded.refl _ _, ItemsAdded.refl _ _⟩
  | cons chunk rest ih =>
    rw [addChunks] at added
    by_cases known : chunk.added = true
    · rw [if_pos known] at added
      rw [List.filter_cons, known]
      exact ih added
    · rw [if_neg known] at added
      have new : chunk.added = false := Bool.not_eq_true _ ▸ known
      rw [List.filter_cons, new]
      cases first : addChunk identity (unset chunk.offset) chunk roots with
      | error failure =>
        rw [first] at added
        cases added
      | ok middle =>
        rw [first] at added
        exact (addChunk_described first).trans (ih added)

/-! ## The invariant of the loop -/

/-- The blocks of all roots. -/
def Metadata.blocks (state : Metadata) : List OwnedBlock :=
  state.extentRoot.blocks extentTreeObjectid ++
    (state.chunkRoot.blocks chunkTreeObjectid ++
      (state.devRoot.blocks devTreeObjectid ++
        state.others.flatMap fun entry => entry.2.blocks entry.1))

/-- The chunks that are described have their items, and no other chunk has. -/
structure DescribesChunks (identity : DeviceIdentity) (unset : Nat → Nat) (chunks : List Chunk)
    (chunkItems devItems extentItems : ItemMap) : Prop where
  chunkItems : (itemsOfType BtrfsKeyType.chunkItem chunkItems).Perm
    (chunks.map (Chunk.chunkRecord identity))
  devExtents : (itemsOfType BtrfsKeyType.devExtent devItems).Perm
    (chunks.map (Chunk.devExtentRecord identity))
  blockGroups : (itemsOfType BtrfsKeyType.blockGroupItem extentItems).Perm
    (chunks.map (Chunk.blockGroupRecord unset))

/-- What holds before every pass. -/
structure Metadata.Ready (identity : DeviceIdentity) (unset : Nat → Nat) (limit : Nat)
    (state : Metadata) : Prop where
  bounded : Bounded limit state.allocator
  accounts : Accounts state.allocator state.blocks
  extent : Grows extentTreeObjectid state.allocator.extentItems state.extentRoot
  chunk : Grows chunkTreeObjectid state.chunkRoot.items state.chunkRoot
  dev : Grows devTreeObjectid state.devRoot.items state.devRoot
  chunks : DescribesChunks identity unset state.allocator.addedSites state.chunkRoot.items
    state.devRoot.items state.allocator.extentItems
  others : ∀ entry ∈ state.others, entry.2.Encodes entry.2.items.entries

/--
The trees agree with each other: the extent tree has exactly one item for every block of
every tree, with its level and its root, the blocks lie apart in chunks for their roots,
every chunk has exactly one item of each of the three kinds, and the trees hold what
their roots' maps hold.
-/
structure Metadata.Consistent (identity : DeviceIdentity) (unset : Nat → Nat)
    (final : Metadata) : Prop where
  blocks : Accounts final.allocator final.blocks
  chunks : DescribesChunks identity unset final.allocator.chunks final.chunkRoot.items
    final.devRoot.items final.allocator.extentItems
  extentTree : final.extentRoot.Encodes final.allocator.extentItems.entries
  chunkTree : final.chunkRoot.Encodes final.chunkRoot.items.entries
  devTree : final.devRoot.Encodes final.devRoot.items.entries
  otherTrees : ∀ entry ∈ final.others, entry.2.Encodes entry.2.items.entries

theorem sites_records
    {α : Type} (record : Chunk → α) (same : ∀ chunk, record chunk.site = record chunk)
    (chunks : List Chunk) : (chunks.map Chunk.site).map record = chunks.map record := by
  rw [List.map_map]
  exact List.map_congr_left fun chunk _ => same chunk

theorem addedSites_addedAll (state : Allocator) (items : ItemMap) :
    (state.addedAll items).addedSites = state.chunks.map Chunk.site := by
  have all : ∀ chunk ∈ (state.addedAll items).chunks, chunk.added = true :=
    List.forall_mem_map.mpr fun _ _ => rfl
  rw [Allocator.addedSites, List.filter_eq_self.mpr all, Allocator.addedAll]
  exact List.map_map

/-- The first half of a pass keeps the invariant, and describes all chunks. -/
theorem Metadata.Ready.describe
    {identity : DeviceIdentity} {unset : Nat → Nat} {limit : Nat} {state next : Metadata}
    (ready : state.Ready identity unset limit)
    (described : state.describeChunks identity unset = .ok next) :
    next.Ready identity unset limit ∧
      DescribesChunks identity unset next.allocator.chunks next.chunkRoot.items
        next.devRoot.items next.allocator.extentItems := by
  obtain ⟨roots, added, rfl⟩ := describeChunks_ok described
  have chunks := addChunks_described added
  have weighed_ {items more : ItemMap} (kept : items.entries.Sublist more.entries) :=
    kept.map weighed
  have divided {α : Type} (record : Chunk → α) (same : ∀ chunk, record chunk.site = record chunk) :
      ((state.allocator.chunks.filter fun chunk => !chunk.added).map record ++
        state.allocator.addedSites.map record).Perm (state.allocator.chunks.map record) := by
    rw [Allocator.addedSites, sites_records record same, ← List.map_append]
    exact (List.perm_append_comm.trans
      (List.filter_append_perm Chunk.added state.allocator.chunks)).map record
  have whole : DescribesChunks identity unset state.allocator.chunks roots.chunkItems
      roots.devItems roots.extentItems := by
    refine ⟨?_, ?_, ?_⟩
    · exact (chunks.chunkItems.records.trans (ready.chunks.chunkItems.append_left _)).trans
        (divided _ fun _ => rfl)
    · exact (chunks.devItems.records.trans (ready.chunks.devExtents.append_left _)).trans
        (divided _ fun _ => rfl)
    · exact (chunks.extentItems.records.trans (ready.chunks.blockGroups.append_left _)).trans
        (divided _ fun _ => rfl)
  have accounts := ready.accounts
  refine ⟨⟨ready.bounded.addedAll _, ⟨?_, accounts.apart, accounts.bounded, ?_, ?_,
    accounts.offStripes⟩, ready.extent.mono (weighed_ chunks.extentItems.kept), ?_, ?_, ?_,
    ready.others⟩, ?_⟩
  · exact (chunks.extentItems.others _ (by decide)).trans accounts.items
  · intro block member
    obtain ⟨chunk, inChunks, inChunk⟩ := accounts.inChunk block member
    exact ⟨_, List.mem_map_of_mem inChunks, inChunk⟩
  · intro block member point inside free
    exact accounts.taken block member point inside
      ((state.allocator.free_addedAll roots.extentItems point).mp free)
  · have grown := ready.chunk.mono (weighed_ chunks.chunkItems.kept)
    exact ⟨grown.old, grown.addresses, grown.before⟩
  · have grown := ready.dev.mono (weighed_ chunks.devItems.kept)
    exact ⟨grown.old, grown.addresses, grown.before⟩
  · change DescribesChunks identity unset
      (state.allocator.addedAll roots.extentItems).addedSites roots.chunkItems roots.devItems
        roots.extentItems
    rw [addedSites_addedAll]
    refine ⟨?_, ?_, ?_⟩
    · rw [sites_records _ fun _ => rfl]
      exact whole.chunkItems
    · rw [sites_records _ fun _ => rfl]
      exact whole.devExtents
    · rw [sites_records _ fun _ => rfl]
      exact whole.blockGroups
  · change DescribesChunks identity unset
      (state.allocator.chunks.map fun chunk => { chunk with added := true }) roots.chunkItems
        roots.devItems roots.extentItems
    have marked {α : Type} (record : Chunk → α)
        (same : ∀ chunk, record { chunk with added := true } = record chunk) :
        (state.allocator.chunks.map fun chunk => { chunk with added := true }).map record =
          state.allocator.chunks.map record := by
      rw [List.map_map]
      exact List.map_congr_left fun chunk _ => same chunk
    refine ⟨?_, ?_, ?_⟩
    · rw [marked _ fun _ => rfl]
      exact whole.chunkItems
    · rw [marked _ fun _ => rfl]
      exact whole.devExtents
    · rw [marked _ fun _ => rfl]
      exact whole.blockGroups

/-! ## The second half of a pass -/

theorem rootItems_extent (root : TreeRoot) (allocator : Allocator) :
    rootItems extentTreeObjectid root allocator = allocator.extentItems := by
  rw [rootItems, treeItems, if_pos rfl]

theorem rootItems_of_ne
    {id : Nat} (other : id ≠ extentTreeObjectid) (root : TreeRoot) (allocator : Allocator) :
    rootItems id root allocator = root.items := by
  rw [rootItems, treeItems, if_neg other]

/-- The three trees that a pass built, and the blocks that belong to them. -/
theorem Metadata.Ready.rebuild
    {identity : DeviceIdentity} {unset : Nat → Nat} {limit turns : Nat} {state next : Metadata}
    (ready : state.Ready identity unset limit) (small : limit + chunkVirtOffset < 2 ^ 64)
    (rebuilt : state.rebuild turns = some (.ok next)) :
    next.Ready identity unset limit ∧
      (¬ next.Changed → next.allocator = state.allocator ∧
        next.chunkRoot.items = state.chunkRoot.items ∧ next.devRoot.items = state.devRoot.items ∧
        next.extentRoot.Encodes next.allocator.extentItems.entries ∧
        next.chunkRoot.Encodes next.chunkRoot.items.entries ∧
        next.devRoot.Encodes next.devRoot.items.entries) := by
  obtain ⟨⟨extent, first⟩, ⟨chunk, second⟩, ⟨dev, last⟩, builtExtent, builtChunk, builtDev, rfl⟩ :=
    rebuild_ok_iff.mp rebuilt
  have notChunk : chunkTreeObjectid ≠ extentTreeObjectid := by decide
  have notDev : devTreeObjectid ≠ extentTreeObjectid := by decide
  have one : Rebuilt limit extentTreeObjectid _ state.extentRoot extent state.allocator first :=
    Grows.rebuild (by rw [rootItems_extent]; exact ready.extent) ready.accounts ready.bounded
      small builtExtent
  have two : Rebuilt limit chunkTreeObjectid _ state.chunkRoot chunk first second :=
    Grows.rebuild (by rw [rootItems_of_ne notChunk]; exact ready.chunk)
      (one.accounts.perm (List.perm_append_comm_assoc _ _ _)) one.bounded small builtChunk
  have three : Rebuilt limit devTreeObjectid _ state.devRoot dev second last :=
    Grows.rebuild (by rw [rootItems_of_ne notDev]; exact ready.dev)
      (two.accounts.perm (((List.perm_append_comm_assoc _ _ _).append_left _).trans
        (List.perm_append_comm_assoc _ _ _))) two.bounded small builtDev
  have keeps := (one.keeps.trans two.keeps).trans three.keeps
  have extentGrows := one.grows
  have chunkGrows := two.grows
  have devGrows := three.grows
  rw [rootItems_extent] at extentGrows
  rw [rootItems_of_ne notChunk] at chunkGrows
  rw [rootItems_of_ne notDev] at devGrows
  refine ⟨⟨three.bounded, ?_, extentGrows.mono (two.keeps.trans three.keeps).weighed, chunkGrows,
    devGrows, ⟨?_, ?_, ?_⟩, ready.others⟩, fun settled => ?_⟩
  · refine three.accounts.perm ?_
    exact (((List.perm_append_comm_assoc _ _ _).append_left _).trans
      (List.perm_append_comm_assoc _ _ _)).trans
        ((List.perm_append_comm_assoc _ _ _).append_left _)
  · rw [keeps.sites, two.items]
    exact ready.chunks.chunkItems
  · rw [keeps.sites, three.items]
    exact ready.chunks.devExtents
  · rw [keeps.sites]
    exact (keeps.others _ (by decide)).trans ready.chunks.blockGroups
  · rw [Metadata.Changed, not_or, not_or, not_or] at settled
    obtain ⟨-, noExtent, noChunk, noDev⟩ := settled
    obtain ⟨sameFirst, extentTree⟩ := one.settled (Bool.eq_false_iff.mpr noExtent)
    obtain ⟨sameSecond, chunkTree⟩ := two.settled (Bool.eq_false_iff.mpr noChunk)
    obtain ⟨sameLast, devTree⟩ := three.settled (Bool.eq_false_iff.mpr noDev)
    rw [rootItems_extent] at extentTree
    rw [rootItems_of_ne notChunk] at chunkTree
    rw [rootItems_of_ne notDev] at devTree
    dsimp only
    refine ⟨(sameLast.trans sameSecond).trans sameFirst, two.items, three.items, ?_, chunkTree,
      devTree⟩
    rw [sameLast, sameSecond]
    exact extentTree

/-! ## The loop -/

/-- A pass keeps the invariant, and the last pass leaves consistent trees. -/
theorem metadataPass_ready
    {identity : DeviceIdentity} {unset : Nat → Nat} {limit turns : Nat} {state next : Metadata}
    (ready : state.Ready identity unset limit) (small : limit + chunkVirtOffset < 2 ^ 64)
    (passed : metadataPass identity unset turns state = some (.ok next)) :
    next.Ready identity unset limit ∧ (¬ next.Changed → next.Consistent identity unset) := by
  obtain ⟨middle, described, rebuilt⟩ := Turns.next_eq_ok_iff.mp passed
  obtain ⟨kept, all⟩ := ready.describe (Option.some.inj described)
  obtain ⟨whole, settled⟩ := kept.rebuild small rebuilt
  refine ⟨whole, fun unchanged => ?_⟩
  obtain ⟨allocator, chunkItems, devItems, extentTree, chunkTree, devTree⟩ := settled unchanged
  rw [← allocator, ← chunkItems, ← devItems] at all
  exact ⟨whole.accounts, all, extentTree, chunkTree, devTree, whole.others⟩

theorem metadataLoop_consistent
    {identity : DeviceIdentity} {unset : Nat → Nat} {limit turns passes : Nat}
    {state final : Metadata} (ready : state.Ready identity unset limit)
    (small : limit + chunkVirtOffset < 2 ^ 64)
    (ended : metadataLoop identity unset turns passes state = some (.ok final)) :
    final.Consistent identity unset := by
  induction passes generalizing state with
  | zero => cases ended
  | succ passes ih =>
    obtain ⟨next, passed, later⟩ := Turns.next_eq_ok_iff.mp ended
    obtain ⟨kept, consistent⟩ := metadataPass_ready ready small passed
    by_cases changed : next.Changed
    · rw [if_pos changed] at later
      exact ih kept later
    · rw [if_neg changed] at later
      cases later
      exact consistent changed

/-! ## The roots that are built once -/

/-- The tree of the root was not built yet. -/
structure TreeRoot.Fresh (root : TreeRoot) : Prop where
  trees : root.trees = []
  addresses : root.addresses = []
  oldAddresses : root.oldAddresses = []

theorem buildRoot_fresh
    {limit id turns : Nat} {others : List OwnedBlock} {root next : TreeRoot}
    {allocator last : Allocator} (fresh : root.Fresh) (other : id ≠ extentTreeObjectid)
    (accounts : Accounts allocator others) (bounded : Bounded limit allocator)
    (small : limit + chunkVirtOffset < 2 ^ 64)
    (built : buildRoot turns id root allocator = some (.ok (next, last))) :
    Bounded limit last ∧ Accounts last (next.blocks id ++ others) ∧ Keeps allocator last ∧
      next.Encodes next.items.entries := by
  obtain ⟨final, created, rfl, rfl⟩ := buildRoot_ok_iff.mp built
  obtain ⟨blocks, chain⟩ := createTrees_flushed created
  obtain ⟨full, run⟩ := createTrees_run created fresh.trees fun extent => absurd extent other
  have startAddresses : (root.start allocator).addresses = [] := fresh.addresses
  have startOld : (root.start allocator).oldAddresses = [] := fresh.oldAddresses
  have addresses : final.addresses =
      final.trees.map fun block => (block.bytenr, block.level) := by
    rw [run.adds.addresses, startAddresses, List.nil_append]
  have old : final.oldAddresses = [] := by
    rw [run.adds.old, startOld, List.drop_nil]
  have owned : TreeState.owned id (root.start allocator) = [] := by
    rw [TreeState.owned, startAddresses, startOld]
    rfl
  obtain ⟨whole, keeps⟩ := chain.accounts
    (show Accounts (root.start allocator).allocator (_ ++ others) by rw [owned]; exact accounts)
    bounded small
  obtain ⟨builds, -⟩ := createTrees_builds created fresh.trees fun extent => absurd extent other
  have buildsAddresses := builds.addresses
  rw [startAddresses] at buildsAddresses
  refine ⟨(chain.progress bounded).1, ?_, keeps, final.allocator, ?_⟩
  · rw [TreeState.owned, old, List.nil_append, ownedBlocks, addresses, List.map_map] at whole
    exact whole
  · have entries : treeItems id root.items (root.start allocator) = root.items := if_neg other
    rw [entries] at builds
    exact ⟨builds.sound, buildsAddresses, builds.height, builds.root, builds.holds,
      builds.leaves, builds.ordered⟩

theorem buildOthers_ready
    {limit turns : Nat} {others : List OwnedBlock} {roots built : List (Nat × TreeRoot)}
    {allocator last : Allocator}
    (fresh : ∀ entry ∈ roots, entry.2.Fresh ∧ entry.1 ≠ extentTreeObjectid)
    (accounts : Accounts allocator others) (bounded : Bounded limit allocator)
    (small : limit + chunkVirtOffset < 2 ^ 64)
    (ended : buildOthers turns roots allocator = some (.ok (built, last))) :
    Bounded limit last ∧
      Accounts last ((built.flatMap fun entry => entry.2.blocks entry.1) ++ others) ∧
      Keeps allocator last ∧ ∀ entry ∈ built, entry.2.Encodes entry.2.items.entries := by
  induction roots generalizing allocator built last others with
  | nil =>
    cases ended
    exact ⟨bounded, accounts, Keeps.refl _, fun entry member => absurd member List.not_mem_nil⟩
  | cons entry rest ih =>
    obtain ⟨⟨first, between⟩, front, later⟩ := Turns.next_eq_ok_iff.mp ended
    obtain ⟨⟨after, final⟩, back, equal⟩ := Turns.next_eq_ok_iff.mp later
    cases equal
    obtain ⟨⟨own, other⟩, freshRest⟩ := List.forall_mem_cons.mp fresh
    obtain ⟨kept, joined, keeps, encodes⟩ :=
      buildRoot_fresh own other accounts bounded small front
    obtain ⟨whole, all, keeps', encodes'⟩ := ih freshRest joined kept back
    refine ⟨whole, all.perm ?_, keeps.trans keeps', List.forall_mem_cons.mpr ⟨encodes, encodes'⟩⟩
    rw [List.flatMap_cons, List.append_assoc]
    exact List.perm_append_comm_assoc _ _ _

/-! ## The items of the roots -/

/-- The roots keep their numbers and their items, but for the chunk items of the chunk root. -/
structure Metadata.KeepsItems (state next : Metadata) : Prop where
  others : next.others.map (fun root => (root.1, root.2.items)) =
    state.others.map fun root => (root.1, root.2.items)
  chunkItems : ∀ type, type ≠ BtrfsKeyType.chunkItem →
    (itemsOfType type next.chunkRoot.items).Perm (itemsOfType type state.chunkRoot.items)

theorem Metadata.KeepsItems.refl (state : Metadata) : state.KeepsItems state :=
  ⟨rfl, fun _ _ => List.Perm.refl _⟩

theorem Metadata.KeepsItems.trans
    {first second third : Metadata} (left : first.KeepsItems second)
    (right : second.KeepsItems third) : first.KeepsItems third :=
  ⟨right.others.trans left.others,
    fun type other => (right.chunkItems type other).trans (left.chunkItems type other)⟩

theorem buildRoot_items
    {turns id : Nat} {root next : TreeRoot} {allocator last : Allocator}
    (built : buildRoot turns id root allocator = some (.ok (next, last))) :
    next.items = root.items := by
  obtain ⟨final, -, rfl, -⟩ := buildRoot_ok_iff.mp built
  rfl

theorem buildOthers_items
    {turns : Nat} {roots built : List (Nat × TreeRoot)} {allocator last : Allocator}
    (ended : buildOthers turns roots allocator = some (.ok (built, last))) :
    built.map (fun root => (root.1, root.2.items)) =
      roots.map fun root => (root.1, root.2.items) := by
  induction roots generalizing allocator built last with
  | nil =>
    cases ended
    rfl
  | cons entry rest ih =>
    obtain ⟨⟨first, between⟩, front, later⟩ := Turns.next_eq_ok_iff.mp ended
    obtain ⟨⟨others, final⟩, back, equal⟩ := Turns.next_eq_ok_iff.mp later
    cases equal
    rw [List.map_cons, List.map_cons, ih back, buildRoot_items front]

theorem metadataPass_keepsItems
    {identity : DeviceIdentity} {unset : Nat → Nat} {turns : Nat} {state next : Metadata}
    (passed : metadataPass identity unset turns state = some (.ok next)) :
    state.KeepsItems next := by
  obtain ⟨middle, described, rebuilt⟩ := Turns.next_eq_ok_iff.mp passed
  obtain ⟨roots, added, rfl⟩ := describeChunks_ok (Option.some.inj described)
  obtain ⟨extent, ⟨chunk, last⟩, dev, -, built, -, rfl⟩ := rebuild_ok_iff.mp rebuilt
  refine ⟨rfl, fun type other => ?_⟩
  change (itemsOfType type chunk.items).Perm _
  rw [buildRoot_items built]
  exact (addChunks_described added).chunkItems.others type other

theorem metadataLoop_keepsItems
    {identity : DeviceIdentity} {unset : Nat → Nat} {turns passes : Nat} {state final : Metadata}
    (ended : metadataLoop identity unset turns passes state = some (.ok final)) :
    state.KeepsItems final := by
  induction passes generalizing state with
  | zero => cases ended
  | succ passes ih =>
    obtain ⟨next, passed, later⟩ := Turns.next_eq_ok_iff.mp ended
    have kept := metadataPass_keepsItems passed
    split_ifs at later
    · exact kept.trans (ih later)
    · cases later
      exact kept

theorem buildMetadata_keepsItems
    {identity : DeviceIdentity} {unset : Nat → Nat} {turns passes : Nat} {state final : Metadata}
    (built : buildMetadata identity unset turns passes state = some (.ok final)) :
    state.KeepsItems final := by
  obtain ⟨⟨others, allocator⟩, ended, looped⟩ := Turns.next_eq_ok_iff.mp built
  have first : state.KeepsItems { state with others := others, allocator := allocator } :=
    ⟨buildOthers_items ended, fun _ _ => List.Perm.refl _⟩
  exact first.trans (metadataLoop_keepsItems looped)

/-! ## The whole metadata -/

/--
What `convert` has before it builds a tree: no root has blocks, no chunk is described,
and the extent tree describes data only.
-/
structure Metadata.Fresh (state : Metadata) : Prop where
  extent : state.extentRoot.Fresh
  chunk : state.chunkRoot.Fresh
  dev : state.devRoot.Fresh
  others : ∀ entry ∈ state.others, entry.2.Fresh ∧ entry.1 ≠ extentTreeObjectid
  added : ∀ chunk ∈ state.allocator.chunks, chunk.added = false
  metadataItems : itemsOfType BtrfsKeyType.metadataItem state.allocator.extentItems = []
  blockGroups : itemsOfType BtrfsKeyType.blockGroupItem state.allocator.extentItems = []
  chunkItems : itemsOfType BtrfsKeyType.chunkItem state.chunkRoot.items = []
  devExtents : itemsOfType BtrfsKeyType.devExtent state.devRoot.items = []

theorem TreeRoot.Fresh.grows
    {root : TreeRoot} (fresh : root.Fresh) (id : Nat) (items : ItemMap) : Grows id items root :=
  ⟨fresh.oldAddresses, by rw [fresh.addresses, fresh.trees, List.map_nil], Or.inl fresh.trees⟩

theorem TreeRoot.Fresh.blocks
    {root : TreeRoot} (fresh : root.Fresh) (id : Nat) : root.blocks id = [] := by
  rw [TreeRoot.blocks, fresh.trees, List.map_nil]

/-- After the roots that are built once the loop can start. -/
theorem Metadata.Fresh.ready
    {limit turns : Nat} {start : Metadata} {built : List (Nat × TreeRoot) × Allocator}
    (fresh : start.Fresh) (bounded : Bounded limit start.allocator)
    (small : limit + chunkVirtOffset < 2 ^ 64)
    (ended : buildOthers turns start.others start.allocator = some (.ok built))
    (identity : DeviceIdentity) (unset : Nat → Nat) :
    Metadata.Ready identity unset limit
      { start with others := built.1, allocator := built.2 } := by
  have nothing : Accounts start.allocator [] :=
    ⟨by rw [fresh.metadataItems]; exact List.Perm.refl _, List.Pairwise.nil,
      fun block member => absurd member List.not_mem_nil,
      fun block member => absurd member List.not_mem_nil,
      fun block member => absurd member List.not_mem_nil,
      fun block member => absurd member List.not_mem_nil⟩
  obtain ⟨kept, accounts, keeps, encodes⟩ :=
    buildOthers_ready fresh.others nothing bounded small ended
  have noSites : built.2.addedSites = [] := by
    rw [keeps.sites, Allocator.addedSites, List.filter_eq_nil_iff.mpr, List.map_nil]
    intro chunk member
    rw [fresh.added chunk member]
    exact Bool.false_ne_true
  refine ⟨kept, ?_, fresh.extent.grows _ _, fresh.chunk.grows _ _, fresh.dev.grows _ _,
    ⟨?_, ?_, ?_⟩, encodes⟩
  · rw [List.append_nil] at accounts
    rw [Metadata.blocks, fresh.extent.blocks, fresh.chunk.blocks, fresh.dev.blocks]
    exact accounts
  · rw [noSites, fresh.chunkItems]
    exact List.Perm.refl _
  · rw [noSites, fresh.devExtents]
    exact List.Perm.refl _
  · rw [noSites]
    have same := keeps.others BtrfsKeyType.blockGroupItem (by decide)
    rwa [fresh.blockGroups] at same

/--
Whatever the roots hold, when the metadata is built without an exception the trees agree
with each other: no metadata item is missing, stale or left over, no two blocks overlap,
every chunk is described once in each of the three trees, and every tree holds precisely
the final items of its root.
-/
theorem buildMetadata_consistent
    {identity : DeviceIdentity} {unset : Nat → Nat} {limit turns passes : Nat}
    {start final : Metadata}
    (built : buildMetadata identity unset turns passes start = some (.ok final))
    (fresh : start.Fresh) (bounded : Bounded limit start.allocator)
    (small : limit + chunkVirtOffset < 2 ^ 64) :
    final.Consistent identity unset := by
  obtain ⟨others, ended, looped⟩ := Turns.next_eq_ok_iff.mp built
  exact metadataLoop_consistent (fresh.ready bounded small ended identity unset) small looped

theorem buildMetadata_consistent_small :
    ∃ final,
      buildMetadata smallIdentity (fun _ => 0) 9 2 smallMetadata = some (.ok final) ∧
        final.Consistent smallIdentity fun _ => 0 := by
  have built : ∃ final, buildMetadata smallIdentity (fun _ => 0) 9 2 smallMetadata =
      some (.ok final) := ⟨_, rfl⟩
  obtain ⟨final, built⟩ := built
  refine ⟨final, built, buildMetadata_consistent built ?_ smallMetadata_bounded (by decide)⟩
  refine ⟨⟨rfl, rfl, rfl⟩, ⟨rfl, rfl, rfl⟩, ⟨rfl, rfl, rfl⟩, ?_, ?_, rfl, rfl, rfl, rfl⟩
  · exact List.forall_mem_singleton.mpr ⟨⟨rfl, rfl, rfl⟩, by decide⟩
  · exact List.forall_mem_cons.mpr ⟨rfl, List.forall_mem_singleton.mpr rfl⟩

end Ntfs2Btrfs
