import Ntfs2Btrfs.TreeFlushes
import Ntfs2Btrfs.TreeFormat

/-!
# What trees hold

The leaves of a tree hold the items of its map, and every level holds pointers to
the level below: the tree whose root is the last block holds the items in order.

For the extent tree this is so when its map stays as it is while its blocks are
built, that is when every block goes to an old address of the same level.
-/

namespace Ntfs2Btrfs

open ByteStore
open BlockTrees
open SortedMap

/-! ## Passes that leave the map alone -/

/-- Every address that is used is an old one, with its old level. -/
def Steady (id : Nat) (state last : TreeState) : Prop :=
  id = extentTreeObjectid → last.addresses.IsPrefix (state.addresses ++ state.oldAddresses)

theorem AddressSource.steady
    {id level address : Nat} {state next last : TreeState}
    (source : AddressSource id level address state next)
    (added : next.addresses = state.addresses ++ [(address, level)])
    (extends_ : next.addresses.IsPrefix last.addresses) (steady : Steady id state last)
    (own : ItemMap) :
    treeItems id own next = treeItems id own state ∧ Steady id next last := by
  by_cases extent : id = extentTreeObjectid
  · have used := extends_.trans (steady extent)
    rw [added, List.prefix_append_right_inj] at used
    cases source with
    | recycled oldLevel old space items =>
      rw [old, List.cons_prefix_cons] at used
      have same : level = oldLevel := (Prod.mk.inj used.1).2
      refine ⟨?_, fun _ => ?_⟩
      · rw [treeItems, treeItems, if_pos extent, if_pos extent, items, recycle,
          if_neg (not_not.mpr same)]
      · have whole := steady extent
        rw [old, ← same] at whole
        rw [added, List.append_assoc]
        exact whole
    | allocated old left taken space fresh items =>
      rw [old] at used
      cases List.prefix_nil.mp used
  · refine ⟨?_, fun contrary => absurd contrary extent⟩
    rw [treeItems, treeItems, if_neg extent, if_neg extent]

theorem Flushed.steady
    {id : Nat} {state last built : TreeState} {blocks : List TreeBlock}
    (chain : Flushed id state blocks last)
    (extends_ : last.addresses.IsPrefix built.addresses) (steady : Steady id state built)
    (own : ItemMap) :
    treeItems id own last = treeItems id own state ∧ Steady id last built := by
  induction chain with
  | done same =>
    refine ⟨by rw [treeItems, treeItems, same.allocator], fun extent => ?_⟩
    rw [same.addresses, same.oldAddresses]
    exact steady extent
  | @flush state between next _ block blocks same flushed added later ih =>
    obtain ⟨address, trees, addresses, -, source⟩ := flushTree_ok flushed
    have between_ : Steady id between built := by
      intro extent
      rw [same.addresses, same.oldAddresses]
      exact steady extent
    obtain ⟨kept, nextSteady⟩ :=
      source.steady addresses (later.extends_.trans extends_) between_ own
    obtain ⟨laterKept, lastSteady⟩ := ih extends_ nextSteady
    refine ⟨laterKept.trans (kept.trans ?_), lastSteady⟩
    rw [treeItems, treeItems, same.allocator]

/-! ## Leaves -/

/-- A leaf with these items, which fit. -/
structure IsLeaf (items : List (BtrfsKey × Bytes)) (block : TreeBlock) : Prop where
  level : block.level = 0
  body : block.body = .leaf items
  nonempty : items ≠ []
  room : leafCost items ≤ blockSpace

/-- What the loop over the items adds: leaves with the items that it met. -/
structure LeavesAdded (id : Nat) (own : ItemMap) (position : Option BtrfsKey)
    (leaf final : OpenLeaf) (state last : TreeState) (blocks : List TreeBlock)
    (parts : List (List (BtrfsKey × Bytes))) : Prop where
  chain : Flushed id state blocks last
  leaves : List.Forall₂ IsLeaf parts blocks
  items : parts.flatten ++ final.items = leaf.items ++ (treeItems id own state).after position
  room : final.spaceLeft + leafCost final.items = blockSpace

theorem leafCost_add
    {leaf : OpenLeaf} (room : leaf.spaceLeft + leafCost leaf.items = blockSpace)
    {key : BtrfsKey} {data : Bytes} (fits : itemCost data ≤ leaf.spaceLeft) :
    (leaf.add key data).spaceLeft + leafCost (leaf.add key data).items = blockSpace := by
  have single : leafCost [(key, data)] = itemCost data := List.sum_singleton
  simp only [OpenLeaf.add, leafCost_append, single]
  omega

theorem leafLoop_contents
    {id : Nat} {own : ItemMap} {turns : Nat} {position : Option BtrfsKey}
    {leaf final : OpenLeaf} {state last built : TreeState}
    (ended : leafLoop id own turns position leaf state = some (.ok (final, last)))
    (extends_ : last.addresses.IsPrefix built.addresses) (steady : Steady id state built)
    (room : leaf.spaceLeft + leafCost leaf.items = blockSpace) :
    ∃ blocks parts, LeavesAdded id own position leaf final state last blocks parts := by
  induction turns generalizing position leaf state with
  | zero => cases ended
  | succ turns ih =>
    rcases leafLoop_ok_cases ended with ⟨found, equal⟩ | ⟨fewer, key, following, next, count,
      step, later⟩
    · cases equal
      refine ⟨[], [], Flushed.refl id last, List.Forall₂.nil, ?_, room⟩
      rw [after_eq_nil_of_next? found, List.append_nil, List.flatten_nil, List.nil_append]
    · cases count
      cases step with
      | @fits data found fitting =>
        obtain ⟨blocks, parts, added⟩ := ih later steady (leafCost_add room fitting)
        refine ⟨blocks, parts, added.chain, added.leaves, ?_, added.room⟩
        rw [added.items, after_eq_cons_of_next? found, OpenLeaf.add, List.append_assoc]
        rfl
      | @closes data _ found full flushed kept small =>
        obtain ⟨address, -, first⟩ := Flushed.of_flush flushed
        obtain ⟨others, rest, -⟩ := leafLoop_flushed later
        obtain ⟨same, nextSteady⟩ := first.steady (rest.extends_.trans extends_) steady own
        have cost : leafCost ([] : List (BtrfsKey × Bytes)) = 0 := rfl
        have fresh : ({} : OpenLeaf).spaceLeft + leafCost ({} : OpenLeaf).items = blockSpace := rfl
        obtain ⟨blocks, parts, added⟩ := ih later nextSteady (leafCost_add fresh small)
        have nonempty : leaf.items ≠ [] := by
          intro none_
          rw [none_, cost] at room
          omega
        refine ⟨⟨address, 0, .leaf leaf.items⟩ :: blocks, leaf.items :: parts,
          first.trans added.chain, List.Forall₂.cons ⟨rfl, rfl, nonempty, by omega⟩ added.leaves,
          ?_, added.room⟩
        rw [List.flatten_cons, List.append_assoc, added.items, same,
          after_eq_cons_of_next? found]
        rfl

/-! ## Nodes -/

/-- The pointer to a block. -/
def TreeBlock.pointer (block : TreeBlock) : KeyPtr :=
  ⟨block.firstKey, block.bytenr⟩

/-- A node of a level with these pointers, which fit. -/
structure IsNode (level : Nat) (group : List KeyPtr) (block : TreeBlock) : Prop where
  level : block.level = level
  body : block.body = .node group
  nonempty : group ≠ []
  room : keyPtrSize * group.length ≤ blockSpace

/-- What the loop over the blocks adds: nodes that point to the blocks of the level below. -/
structure NodesAdded (id level : Nat) (children front back : List KeyPtr)
    (state last : TreeState) (added : List TreeBlock) (groups : List (List KeyPtr)) : Prop where
  chain : Flushed id state added last
  nodes : List.Forall₂ (IsNode level) groups added
  pointers : groups.flatten ++ back = front ++ children
  level_eq : last.level = state.level

/-- The pointers to the blocks of the level below. -/
def childPointers (level : Nat) (blocks : List TreeBlock) : List KeyPtr :=
  (blocks.filter (IsChild level)).map TreeBlock.pointer

theorem flushTree_node
    {id level : Nat} {group : List KeyPtr} {state next : TreeState}
    (flushed : flushTree id level (.node group) state = .ok next)
    (nonempty : group ≠ []) (room : keyPtrSize * group.length ≤ blockSpace) :
    ∃ block, NodesAdded id level [] group [] state next [block] [group] := by
  obtain ⟨address, -, chain⟩ := Flushed.of_flush flushed
  obtain ⟨-, -, -, level_eq, -⟩ := flushTree_ok flushed
  refine ⟨⟨address, level, .node group⟩, chain, ?_, ?_, level_eq⟩
  · exact List.Forall₂.cons ⟨rfl, rfl, nonempty, room⟩ List.Forall₂.nil
  · rw [List.flatten_cons, List.flatten_nil, List.append_nil]

theorem NodesAdded.trans
    {id level : Nat} {front middle back children others : List KeyPtr}
    {first second third : TreeState} {earlier later : List TreeBlock}
    {groups rest : List (List KeyPtr)}
    (left : NodesAdded id level children front middle first second earlier groups)
    (right : NodesAdded id level others middle back second third later rest) :
    NodesAdded id level (children ++ others) front back first third (earlier ++ later)
      (groups ++ rest) where
  chain := left.chain.trans right.chain
  nodes := List.rel_append left.nodes right.nodes
  pointers := by
    rw [List.flatten_append, List.append_assoc, right.pointers, ← List.append_assoc,
      left.pointers, List.append_assoc]
  level_eq := by rw [right.level_eq, left.level_eq]

theorem nodeLoop_contents
    {id level : Nat} {blocks : List TreeBlock} {node final : OpenNode} {state last : TreeState}
    (ended : nodeLoop id level blocks node state = .ok (final, last))
    (lower : ∀ block ∈ blocks, block.level < level)
    (room : node.spaceLeft + keyPtrSize * node.pointers.length = blockSpace) :
    ∃ added groups,
      NodesAdded id level (childPointers level blocks) node.pointers final.pointers state last
          added groups ∧
        final.spaceLeft + keyPtrSize * final.pointers.length = blockSpace ∧
        final.treesAdded = node.treesAdded + added.length ∧
        2 * groups.length ≤ groups.flatten.length := by
  induction blocks generalizing node state with
  | nil =>
    cases ended
    exact ⟨[], [], ⟨Flushed.refl id last, List.Forall₂.nil, by simp [childPointers], rfl⟩,
      room, rfl, le_rfl⟩
  | cons block rest ih =>
    obtain ⟨below, restLower⟩ := List.forall_mem_cons.mp lower
    rw [nodeLoop, if_neg (not_le.mpr below)] at ended
    by_cases skipped : block.level < level - 1
    · rw [if_pos skipped] at ended
      have other : ¬ IsChild level block = true := fun child =>
        not_lt_of_ge (of_decide_eq_true child) skipped
      rw [childPointers, List.filter_cons_of_neg other]
      exact ih ended restLower room
    · rw [if_neg skipped] at ended
      have child : IsChild level block = true := decide_eq_true (not_lt.mp skipped)
      have pointers : childPointers level (block :: rest) =
          block.pointer :: childPointers level rest := by
        rw [childPointers, List.filter_cons_of_pos child]
        rfl
      rw [pointers]
      by_cases full : keyPtrSize > node.spaceLeft
      · rw [if_pos full] at ended
        cases flushed : flushTree id level (.node node.pointers) state with
        | error failure =>
          rw [flushed] at ended
          cases ended
        | ok next =>
          rw [flushed] at ended
          -- a node is closed when it has no space for one more pointer
          have two : 2 ≤ node.pointers.length := by
            have large : 3 * keyPtrSize ≤ blockSpace := by decide
            by_contra fewer
            have bound : keyPtrSize * node.pointers.length ≤ keyPtrSize * 1 :=
              Nat.mul_le_mul_left _ (by omega)
            omega
          have nonempty : node.pointers ≠ [] :=
            List.ne_nil_of_length_pos (by omega)
          obtain ⟨added, nodeAdded⟩ := flushTree_node flushed nonempty (by omega)
          have fresh : (OpenNode.add { treesAdded := node.treesAdded + 1 } block).spaceLeft +
              keyPtrSize *
                (OpenNode.add { treesAdded := node.treesAdded + 1 } block).pointers.length =
                blockSpace := rfl
          obtain ⟨more, groups, moreAdded, left, count, several⟩ := ih ended restLower fresh
          refine ⟨added :: more, node.pointers :: groups, ?_, left, ?_, ?_⟩
          · have start : NodesAdded id level [block.pointer] node.pointers [block.pointer]
                state next [added] [node.pointers] := by
              refine ⟨nodeAdded.chain, nodeAdded.nodes, ?_, nodeAdded.level_eq⟩
              rw [List.flatten_cons, List.flatten_nil, List.append_nil]
            exact start.trans moreAdded
          · rw [count, List.length_cons]
            simp only [OpenNode.add]
            omega
          · rw [List.length_cons, List.flatten_cons, List.length_append]
            omega
      · rw [if_neg full] at ended
        have added : (node.add block).spaceLeft +
            keyPtrSize * (node.add block).pointers.length = blockSpace := by
          simp only [OpenNode.add, List.length_append, List.length_singleton, Nat.mul_succ]
          omega
        obtain ⟨more, groups, moreAdded, left, count, several⟩ := ih ended restLower added
        refine ⟨more, groups, ⟨moreAdded.chain, moreAdded.nodes, ?_, moreAdded.level_eq⟩, left,
          count, several⟩
        rw [moreAdded.pointers, OpenNode.add, List.append_assoc]
        rfl

/--
One level of nodes over the blocks of the level below.  All but the last have two
pointers or more.
-/
theorem buildLevel_contents
    {id level count : Nat} {state next : TreeState}
    (ended : buildLevel id level state = .ok (count, next))
    (lower : ∀ block ∈ state.trees, block.level < level) :
    ∃ blocks groups,
      NodesAdded id level (childPointers level state.trees) [] [] state next blocks groups ∧
        blocks.length = count ∧
        2 * blocks.length ≤ (childPointers level state.trees).length + 1 := by
  obtain ⟨node, middle, looped, ⟨none_, count_eq, rfl⟩ | ⟨some_, count_eq, flushed⟩⟩ :=
    buildLevel_ok ended
  · obtain ⟨blocks, groups, nodes, -, total, several⟩ := nodeLoop_contents looped lower rfl
    have pointers := congrArg List.length nodes.pointers
    have length := nodes.nodes.length_eq
    simp only [List.length_append, none_, List.length_nil] at pointers
    refine ⟨blocks, groups, none_ ▸ nodes, ?_, by omega⟩
    rw [count_eq, total]
    exact (Nat.zero_add _).symm
  · obtain ⟨blocks, groups, nodes, room, total, several⟩ := nodeLoop_contents looped lower rfl
    obtain ⟨block, added⟩ := flushTree_node flushed some_ (by omega)
    have whole := nodes.trans added
    rw [List.append_nil] at whole
    have pointers := congrArg List.length nodes.pointers
    have length := nodes.nodes.length_eq
    have one := List.length_pos_of_ne_nil some_
    simp only [List.length_append, List.length_nil] at pointers
    refine ⟨blocks ++ [block], groups ++ [node.pointers], whole, ?_, ?_⟩
    · rw [count_eq, total, List.length_append, List.length_singleton]
      exact congrArg Nat.succ (Nat.zero_add _).symm
    · rw [List.length_append, List.length_singleton]
      omega

/-! ## Levels -/

/-- Blocks are stored where their addresses say. -/
def StoresBlocks {φ : Type} (stored : Nat → Except φ (Block (BtrfsKey × Bytes) BtrfsKey))
    (trees : List TreeBlock) : Prop :=
  ∀ block ∈ trees, stored block.bytenr = .ok block.body.contents

/-- A pointer as a reader sees it. -/
def KeyPtr.child (pointer : KeyPtr) : BtrfsKey × Nat :=
  (pointer.key, pointer.blockptr)

/-- Wherever the blocks are stored, the entries are below these blocks of a level. -/
def Carries (entries : List (BtrfsKey × Bytes)) (trees : List TreeBlock) (level : Nat)
    (top : List TreeBlock) : Prop :=
  ∀ {φ : Type} (stored : Nat → Except φ (Block (BtrfsKey × Bytes) BtrfsKey)),
    StoresBlocks stored trees →
      ∃ parts, List.Forall₂ (Points Prod.fst stored level) parts
          (top.map fun block => block.pointer.child) ∧
        parts.flatten = entries

/-- A block fits in its space, and points to blocks that are there. -/
def TreeBlock.Sound (trees : List TreeBlock) (block : TreeBlock) : Prop :=
  match block.body with
  | .leaf items => block.level = 0 ∧ leafCost items ≤ blockSpace
  | .node pointers =>
      block.level ≠ 0 ∧ keyPtrSize * pointers.length ≤ blockSpace ∧
        ∀ pointer ∈ pointers, ∃ child ∈ trees, pointer = child.pointer

theorem TreeBlock.Sound.mono
    {trees more : List TreeBlock} {block : TreeBlock} (sound : block.Sound trees)
    (subset : trees ⊆ more) : block.Sound more := by
  rw [TreeBlock.Sound] at sound ⊢
  split at sound
  · exact sound
  · obtain ⟨inner, room, children⟩ := sound
    refine ⟨inner, room, fun pointer member => ?_⟩
    obtain ⟨child, present, equal⟩ := children pointer member
    exact ⟨child, subset present, equal⟩

theorem IsLeaf.sound
    {items : List (BtrfsKey × Bytes)} {block : TreeBlock} (leaf : IsLeaf items block)
    (trees : List TreeBlock) : block.Sound trees := by
  rw [TreeBlock.Sound, leaf.body]
  exact ⟨leaf.level, leaf.room⟩

theorem IsLeaf.firstKey
    {items : List (BtrfsKey × Bytes)} {block : TreeBlock} (leaf : IsLeaf items block) :
    items.head?.map Prod.fst = some block.firstKey := by
  rw [TreeBlock.firstKey, leaf.body]
  cases items with
  | nil => exact absurd rfl leaf.nonempty
  | cons entry rest => rfl

theorem IsNode.firstKey
    {level : Nat} {group : List KeyPtr} {block : TreeBlock} (node : IsNode level group block) :
    (group.map KeyPtr.child).head?.map Prod.fst = some block.firstKey := by
  rw [TreeBlock.firstKey, node.body]
  cases group with
  | nil => exact absurd rfl node.nonempty
  | cons pointer rest => rfl

/-- The levels so far: those below the top are in front of it. -/
structure Stack (state : TreeState) (earlier top : List TreeBlock) : Prop where
  trees : state.trees = earlier ++ top
  below : ∀ block ∈ earlier, block.level < state.level
  level : ∀ block ∈ top, block.level = state.level

theorem Stack.lower
    {state : TreeState} {earlier top : List TreeBlock} (stack : Stack state earlier top) :
    ∀ block ∈ state.trees, block.level < state.level + 1 := by
  intro block member
  rw [stack.trees] at member
  rcases List.mem_append.mp member with old | current
  · exact (stack.below block old).trans (Nat.lt_succ_self _)
  · rw [stack.level block current]
    exact Nat.lt_succ_self _

theorem Stack.childPointers
    {state : TreeState} {earlier top : List TreeBlock} (stack : Stack state earlier top) :
    childPointers (state.level + 1) state.trees = top.map TreeBlock.pointer := by
  have none_ : earlier.filter (IsChild (state.level + 1)) = [] := by
    refine List.filter_eq_nil_iff.mpr fun block member => ?_
    have below := stack.below block member
    simp only [IsChild, decide_eq_true_eq]
    omega
  have all : top.filter (IsChild (state.level + 1)) = top := by
    refine List.filter_eq_self.mpr fun block member => ?_
    have level := stack.level block member
    simp only [IsChild, decide_eq_true_eq]
    omega
  rw [Ntfs2Btrfs.childPointers, stack.trees, List.filter_append, none_, all, List.nil_append]

theorem NodesAdded.isNode
    {id level : Nat} {children front back : List KeyPtr} {state last : TreeState}
    {added : List TreeBlock} {groups : List (List KeyPtr)}
    (nodes : NodesAdded id level children front back state last added groups) :
    ∀ block ∈ added, ∃ group ∈ groups, IsNode level group block := by
  intro block member
  obtain ⟨index, inside, rfl⟩ := List.mem_iff_getElem.mp member
  have same := nodes.nodes.length_eq
  exact ⟨groups[index], List.getElem_mem _, nodes.nodes.get (by omega) inside⟩

/-- One more level on top of the others: it has a block, and half as many as the one below. -/
theorem Stack.build
    {id count : Nat} {state next : TreeState} {earlier top : List TreeBlock}
    (stack : Stack state earlier top) (some_ : top ≠ [])
    (built : buildLevel id (state.level + 1) { state with level := state.level + 1 } =
      .ok (count, next)) :
    ∃ blocks groups,
      NodesAdded id (state.level + 1) (top.map TreeBlock.pointer) [] []
          { state with level := state.level + 1 } next blocks groups ∧
        Stack next (earlier ++ top) blocks ∧ blocks.length = count ∧
        0 < count ∧ 2 * count ≤ top.length + 1 := by
  obtain ⟨blocks, groups, nodes, length, halved⟩ := buildLevel_contents built stack.lower
  have pointers : (Ntfs2Btrfs.childPointers (state.level + 1) state.trees).length =
      top.length := by
    rw [stack.childPointers, List.length_map]
  change 2 * blocks.length ≤
    (Ntfs2Btrfs.childPointers (state.level + 1) state.trees).length + 1 at halved
  rw [pointers] at halved
  rw [stack.childPointers] at nodes
  have level_eq : next.level = state.level + 1 := nodes.level_eq
  have positive : 0 < blocks.length := by
    have flat := congrArg List.length nodes.pointers
    have children := List.length_pos_of_ne_nil some_
    rw [List.append_nil, List.nil_append, List.length_map] at flat
    rw [← nodes.nodes.length_eq]
    refine List.length_pos_of_ne_nil fun none_ => ?_
    rw [none_] at flat
    simp only [List.flatten_nil, List.length_nil] at flat
    omega
  have trees : next.trees = state.trees ++ blocks := nodes.chain.trees
  refine ⟨blocks, groups, nodes, ⟨by rw [trees, stack.trees], fun block member => ?_,
    fun block member => ?_⟩, length, by omega, by omega⟩
  · rw [level_eq, ← stack.trees] at *
    exact stack.lower block member
  · obtain ⟨group, -, node⟩ := nodes.isNode block member
    rw [node.level, level_eq]

/-- The items of a leaf. -/
def TreeBlock.items (block : TreeBlock) : List (BtrfsKey × Bytes) :=
  match block.body with
  | .leaf items => items
  | .node _ => []

/-- The entries are in the leaves, and below the blocks of the top level. -/
structure Tower (entries : List (BtrfsKey × Bytes)) (state : TreeState)
    (earlier top : List TreeBlock) : Prop extends Stack state earlier top where
  carries : Carries entries state.trees state.level top
  sound : ∀ block ∈ state.trees, block.Sound state.trees
  leaves : state.trees.flatMap TreeBlock.items = entries
  ordered : state.trees.Pairwise fun left right => left.level ≤ right.level

/-- The entries are below the blocks of the next level as well. -/
theorem Tower.grow
    {id : Nat} {entries : List (BtrfsKey × Bytes)} {state next : TreeState}
    {earlier top blocks : List TreeBlock} {groups : List (List KeyPtr)}
    (tower : Tower entries state earlier top) (stack : Stack next (earlier ++ top) blocks)
    (nodes : NodesAdded id (state.level + 1) (top.map TreeBlock.pointer) [] []
      { state with level := state.level + 1 } next blocks groups) :
    Tower entries next (earlier ++ top) blocks := by
  have trees : next.trees = state.trees ++ blocks := nodes.chain.trees
  have level_eq : next.level = state.level + 1 := nodes.level_eq
  have pointers : groups.flatten = top.map TreeBlock.pointer := by
    have equal := nodes.pointers
    rwa [List.append_nil, List.nil_append] at equal
  refine ⟨stack, ?_, fun block member => ?_, ?_, ?_⟩
  · intro φ stored stores
    obtain ⟨parts, points, flat⟩ := tower.carries stored fun block member =>
      stores block (by rw [trees]; exact List.mem_append_left _ member)
    have children : (groups.map (List.map KeyPtr.child)).flatten =
        top.map fun block => block.pointer.child := by
      rw [← List.map_flatten, pointers, List.map_map]
      rfl
    rw [← children] at points
    have uppers : List.Forall₂ (fun group upper =>
        stored upper.2 = .ok (.node group) ∧ group.head?.map Prod.fst = some upper.1)
        (groups.map (List.map KeyPtr.child)) (blocks.map fun block => block.pointer.child) := by
      rw [List.forall₂_map_left_iff, List.forall₂_map_right_iff]
      refine (List.forall₂_iff_get.mpr ⟨nodes.nodes.length_eq, fun index left right => ?_⟩)
      have node : IsNode (state.level + 1) groups[index] blocks[index] :=
        nodes.nodes.get left right
      refine ⟨?_, node.firstKey⟩
      have here := stores blocks[index]
        (by rw [trees]; exact List.mem_append_right _ (List.getElem_mem right))
      rw [node.body] at here
      exact here
    obtain ⟨wholes, above, same⟩ := points_nodes uppers points
    rw [level_eq]
    exact ⟨wholes, above, same.trans flat⟩
  · rw [trees] at member ⊢
    rcases List.mem_append.mp member with old | new
    · exact (tower.sound block old).mono (List.subset_append_left _ _)
    · obtain ⟨group, inGroups, node⟩ := nodes.isNode block new
      rw [TreeBlock.Sound, node.body]
      refine ⟨by rw [node.level]; exact Nat.succ_ne_zero _, node.room, fun pointer inGroup => ?_⟩
      have listed : pointer ∈ top.map TreeBlock.pointer := by
        rw [← pointers]
        exact List.mem_flatten_of_mem inGroups inGroup
      obtain ⟨child, present, rfl⟩ := List.mem_map.mp listed
      refine ⟨child, ?_, rfl⟩
      rw [tower.trees]
      exact List.mem_append_left _ (List.mem_append_right _ present)
  · have none_ : blocks.flatMap TreeBlock.items = [] := by
      refine List.flatMap_eq_nil_iff.mpr fun block new => ?_
      obtain ⟨group, -, node⟩ := nodes.isNode block new
      rw [TreeBlock.items, node.body]
    rw [trees, List.flatMap_append, tower.leaves, none_, List.append_nil]
  · rw [trees]
    refine List.pairwise_append.mpr ⟨tower.ordered, ?_, fun old oldMember new newMember => ?_⟩
    · refine List.pairwise_of_forall_mem_list fun left leftMember right rightMember => ?_
      rw [stack.level left leftMember, stack.level right rightMember]
    · have below := tower.toStack.lower old oldMember
      rw [stack.level new newMember, level_eq]
      exact below.le

/--
The levels up to the one with a single block: each has half as many blocks as the
one below, or fewer.
-/
theorem levelLoop_contents
    {id turns : Nat} {entries : List (BtrfsKey × Bytes)} {state last : TreeState}
    {earlier top : List TreeBlock}
    (ended : levelLoop id turns state = some (.ok last)) (tower : Tower entries state earlier top)
    (several : 1 < top.length) :
    ∃ below root, Tower entries last below [root] ∧
      ∃ height, last.level = state.level + (height + 1) ∧ 2 ^ height < top.length := by
  induction turns generalizing state earlier top with
  | zero => cases ended
  | succ turns ih =>
    obtain ⟨fewer, count, next, turns_eq, built, ends⟩ := levelLoop_ok_cases ended
    cases turns_eq
    have some_ : top ≠ [] := List.ne_nil_of_length_pos (by omega)
    obtain ⟨blocks, groups, nodes, stack, length, positive, halved⟩ :=
      tower.toStack.build some_ built
    have level_eq : next.level = state.level + 1 := nodes.level_eq
    have grown := tower.grow stack nodes
    rcases ends with ⟨single, rfl⟩ | ⟨more, later⟩
    · obtain ⟨root, rfl⟩ := List.length_eq_one_iff.mp (length.trans single)
      exact ⟨earlier ++ top, root, grown, 0, level_eq, several⟩
    · obtain ⟨below, root, final, height, level, less⟩ := ih later grown (by omega)
      refine ⟨below, root, final, height + 1, ?_, ?_⟩
      · rw [level, level_eq]
        omega
      · rw [pow_succ]
        omega

/-! ## Whole trees -/

/--
A tree that was built for the entries: they are in its leaves, its blocks fit and point
to blocks of the tree, the addresses are theirs, the root is the last block, and a
reader that finds the blocks at their addresses finds the entries below the root.
-/
structure TreeState.Builds (final : TreeState) (start : TreeState)
    (entries : List (BtrfsKey × Bytes)) : Prop where
  sound : ∀ block ∈ final.trees, block.Sound final.trees
  addresses : final.addresses =
    start.addresses ++ final.trees.map fun block => (block.bytenr, block.level)
  height : 2 ^ final.level < 2 * final.trees.length
  root : ∃ below root, final.trees = below ++ [root] ∧ root.level = final.level ∧
    root.bytenr = final.treeAddr ∧ ∀ block ∈ below, block.level ≤ final.level
  holds : ∀ {φ : Type} (stored : Nat → Except φ (Block (BtrfsKey × Bytes) BtrfsKey)),
    StoresBlocks stored final.trees → Holds Prod.fst stored final.level final.treeAddr entries
  leaves : final.trees.flatMap TreeBlock.items = entries
  ordered : final.trees.Pairwise fun left right => left.level ≤ right.level

/-- The tree with the single block of the top level is complete. -/
theorem Tower.builds
    {entries : List (BtrfsKey × Bytes)} {start state : TreeState} {below : List TreeBlock}
    {root : TreeBlock} (tower : Tower entries state below [root])
    (addresses : state.addresses =
      start.addresses ++ state.trees.map fun block => (block.bytenr, block.level))
    (height : 2 ^ state.level < 2 * state.trees.length) : state.close.Builds start entries := by
  have level := tower.level root (List.mem_singleton_self _)
  have treeAddr : state.close.treeAddr = root.bytenr := by
    rw [TreeState.close, tower.trees, List.getLast?_append, List.getLast?_singleton]
    rfl
  refine ⟨tower.sound, addresses, height, ⟨below, root, tower.trees, level, treeAddr.symm,
    fun block member => (tower.below block member).le⟩, fun stored stores => ?_, tower.leaves,
    tower.ordered⟩
  obtain ⟨parts, points, rfl⟩ := tower.carries stored stores
  rw [treeAddr]
  exact holds_of_points points

/-- The last leaf completes the level of the leaves. -/
theorem Tower.of_leaves
    {blocks : List TreeBlock} {parts : List (List (BtrfsKey × Bytes))} {state : TreeState}
    (leaves : List.Forall₂ IsLeaf parts blocks) (trees : state.trees = blocks)
    (level : state.level = 0) : Tower parts.flatten state [] blocks := by
  have each : ∀ block ∈ blocks, ∃ part, IsLeaf part block := by
    intro block member
    obtain ⟨index, inside, rfl⟩ := List.mem_iff_getElem.mp member
    have same := leaves.length_eq
    exact ⟨parts[index], leaves.get (by omega) inside⟩
  refine ⟨⟨trees, fun block member => absurd member List.not_mem_nil, fun block member => ?_⟩,
    fun stored stores => ⟨parts, ?_, rfl⟩, fun block member => ?_, ?_, ?_⟩
  · obtain ⟨part, leaf⟩ := each block member
    rw [leaf.level, level]
  · rw [level, List.forall₂_map_right_iff]
    refine List.forall₂_iff_get.mpr ⟨leaves.length_eq, fun index left right => ?_⟩
    have leaf : IsLeaf parts[index] blocks[index] := leaves.get left right
    have here := stores blocks[index] (by rw [trees]; exact List.getElem_mem right)
    rw [leaf.body] at here
    exact ⟨leaf.firstKey, here⟩
  · rw [trees] at member
    obtain ⟨part, leaf⟩ := each block member
    exact leaf.sound _
  · rw [trees]
    clear each trees level
    induction leaves with
    | nil => rfl
    | cons leaf _ ih => rw [List.flatMap_cons, TreeBlock.items, leaf.body, ih, List.flatten_cons]
  · rw [trees]
    refine List.pairwise_of_forall_mem_list fun left leftMember right rightMember => ?_
    obtain ⟨part, leaf⟩ := each left leftMember
    rw [leaf.level]
    exact Nat.zero_le _

theorem leaves_none
    {blocks : List TreeBlock} {parts : List (List (BtrfsKey × Bytes))}
    (leaves : List.Forall₂ IsLeaf parts blocks) (empty : parts.flatten = []) : blocks = [] := by
  cases leaves with
  | nil => rfl
  | cons leaf _ => exact absurd (List.append_eq_nil_iff.mp empty).1 leaf.nonempty

/-- The tree of an empty map is one leaf with nothing in it. -/
theorem builds_empty
    {start state : TreeState} {address : Nat}
    (trees : state.trees = [⟨address, 0, .leaf []⟩]) (level : state.level = 0)
    (addresses : state.addresses =
      start.addresses ++ state.trees.map fun block => (block.bytenr, block.level)) :
    state.close.Builds start [] := by
  have treeAddr : state.close.treeAddr = address := by
    rw [TreeState.close, trees]
    rfl
  have height : 2 ^ state.level < 2 * state.trees.length := by
    rw [level, trees]
    exact one_lt_two
  refine ⟨fun block member => ?_, addresses, height, ⟨[], ⟨address, 0, .leaf []⟩, trees,
    level.symm, treeAddr.symm, fun block member => absurd member List.not_mem_nil⟩,
    fun stored stores => ?_, ?_, ?_⟩
  · have only : block ∈ state.trees := member
    rw [trees, List.mem_singleton] at only
    rw [only, TreeBlock.Sound]
    exact ⟨rfl, Nat.zero_le _⟩
  · have here := stores ⟨address, 0, .leaf []⟩ (by
      change _ ∈ state.trees
      rw [trees]
      exact List.mem_singleton_self _)
    rw [treeAddr]
    change Holds Prod.fst stored state.level address []
    rw [level]
    exact here
  · change state.trees.flatMap TreeBlock.items = []
    rw [trees]
    rfl
  · change state.trees.Pairwise _
    rw [trees]
    exact List.pairwise_singleton _ _

/--
`create_trees` builds a tree for the items of its map, unless it throws, as long
as the map stays as it is: for the extent tree, when every block goes to an old
address of its level.
-/
theorem createTrees_builds
    {id turns : Nat} {own : ItemMap} {start final : TreeState}
    (built : createTrees id own turns start = some (.ok final)) (cleared : start.trees = [])
    (steady : Steady id start final) :
    final.Builds start (treeItems id own start).entries ∧
      treeItems id own final = treeItems id own start := by
  obtain ⟨whole, chain⟩ := createTrees_flushed built
  have kept := (chain.steady (List.prefix_refl _) steady own).1
  have addresses : final.addresses =
      start.addresses ++ final.trees.map fun block => (block.bytenr, block.level) := by
    rw [chain.addresses, chain.trees, cleared, List.nil_append]
  refine ⟨?_, kept⟩
  obtain ⟨leaf, filled, leaves, looped, flushed, ends⟩ := createTrees_ok built
  obtain ⟨address, leavesTrees, last⟩ := Flushed.of_flush flushed
  have extends_ : filled.addresses.IsPrefix final.addresses := by
    refine last.extends_.trans ?_
    rcases ends with ⟨-, rfl⟩ | ⟨-, top, levels, rfl⟩
    · exact List.prefix_refl _
    · obtain ⟨nodes, upper⟩ := levelLoop_flushed levels
      exact (upper.of_same (sameTrees_level leaves 0)).extends_
  obtain ⟨blocks, parts, added⟩ := leafLoop_contents looped extends_ steady rfl
  rw [added.chain.trees, cleared, List.nil_append] at leavesTrees
  have items : parts.flatten ++ leaf.items = (treeItems id own start).entries := by
    rw [added.items, after_none]
    rfl
  by_cases none_ : leaf.items = []
  · have empty : (treeItems id own start).entries = [] := by
      rcases leafLoop_flushes looped with some_ | size
      · exact absurd none_ some_
      · obtain ⟨others, before, -⟩ := leafLoop_flushed looped
        rw [(before.steady extends_ steady own).1] at size
        exact List.length_eq_zero_iff.mp size
    rw [none_, List.append_nil, empty] at items
    rw [leaves_none added.leaves items, none_, List.nil_append] at leavesTrees
    have single : leaves.trees.length = 1 := by
      rw [leavesTrees]
      rfl
    rcases ends with ⟨-, rfl⟩ | ⟨several, -⟩
    · rw [empty]
      exact @builds_empty start { leaves with level := 0 } address leavesTrees rfl addresses
    · exact absurd single several
  · have tower : Tower (treeItems id own start).entries { leaves with level := 0 } []
        (blocks ++ [⟨address, 0, .leaf leaf.items⟩]) := by
      have full : IsLeaf leaf.items ⟨address, 0, .leaf leaf.items⟩ :=
        ⟨rfl, rfl, none_, by have room := added.room; omega⟩
      have level := @Tower.of_leaves _ _ { leaves with level := 0 }
        (List.rel_append added.leaves (List.Forall₂.cons full List.Forall₂.nil)) leavesTrees rfl
      rwa [List.flatten_append, List.flatten_singleton, items] at level
    rcases ends with ⟨single, rfl⟩ | ⟨several, top, levels, rfl⟩
    · obtain ⟨root, only⟩ := List.length_eq_one_iff.mp single
      rw [leavesTrees.symm.trans only] at tower
      refine tower.builds addresses ?_
      rw [single]
      exact one_lt_two
    · have count : 1 < (blocks ++ [(⟨address, 0, .leaf leaf.items⟩ : TreeBlock)]).length := by
        rw [← leavesTrees]
        have one : leaves.trees.length ≠ 0 := by
          rw [leavesTrees, List.length_append]
          exact Nat.succ_ne_zero _
        omega
      obtain ⟨below, root, grown, height, level, less⟩ := levelLoop_contents levels tower count
      refine grown.builds addresses ?_
      obtain ⟨nodes, upper⟩ := levelLoop_flushed levels
      have total : top.trees.length = leaves.trees.length + nodes.length := by
        rw [upper.trees, List.length_append]
      have top_eq : top.level = height + 1 := level.trans (Nat.zero_add _)
      rw [← leavesTrees] at less
      rw [top_eq, total, pow_succ]
      omega

end Ntfs2Btrfs
