import Ntfs2Btrfs.Allocator

/-!
# Building the blocks of a tree

`root::create_trees` packs the items of a root into leaves from the left, then
the addresses of the leaves into nodes, level by level, until one block is
left.  An address comes from the blocks of an earlier pass as long as there
are any, then from the allocator.

The extent tree describes every block.  When it is the tree being built, the
map that the leaf loop walks through changes under it: an allocated block adds
an item and a recycled block whose level changes moves one.
-/

namespace Ntfs2Btrfs

open ByteStore

/-! ## Blocks -/

def extentTreeObjectid : Nat := 2

/-- `sizeof(btrfs_key_ptr)`. -/
def keyPtrSize : Nat := 33

/-- What a block may hold behind its header. -/
def blockSpace : Nat := treeSize - headerSize

/-- A pointer of an internal node. -/
structure KeyPtr where
  key : BtrfsKey
  blockptr : Nat
deriving DecidableEq

/-- The items of a leaf or the pointers of an internal node. -/
inductive BlockBody where
  | leaf (items : List (BtrfsKey × Bytes))
  | node (pointers : List KeyPtr)
deriving DecidableEq

/-- A finished tree block. -/
structure TreeBlock where
  bytenr : Nat
  level : Nat
  body : BlockBody
deriving DecidableEq

/-- The key behind the header of a block; the block is zeroed where it holds none. -/
def TreeBlock.firstKey (block : TreeBlock) : BtrfsKey :=
  match block.body with
  | .leaf ((key, _) :: _) => key
  | .node (pointer :: _) => pointer.key
  | _ => btrfsKey 0 0 0

/-! ## Addresses -/

/-- What `create_trees` changes: the fields of its root and the allocator. -/
structure TreeState where
  allocator : Allocator
  trees : List TreeBlock := []
  level : Nat := 0
  treeAddr : Nat := 0
  metadataSize : Nat := 0
  addresses : List (Nat × Nat) := []
  oldAddresses : List (Nat × Nat) := []
  allocationsDone : Bool := false

/-- How building a tree fails; `erasedItem` is a use of an erased map node. -/
inductive TreeError where
  | convert (error : ConvertError)
  | itemTooLarge
  | erasedItem
deriving DecidableEq, Repr

/-- Change the level of a recycled block in the extent tree. -/
def recycle (address oldLevel level : Nat) (items : ItemMap) : ItemMap :=
  if level ≠ oldLevel then
    match items.find? (metadataKey address oldLevel) with
    | some data =>
        (items.erase (metadataKey address oldLevel)).emplace
          (metadataKey address level) data
    | none => items
  else items

/-- The lambda `get_address` of `create_trees`. -/
def getAddress (id level : Nat) (state : TreeState) :
    Except ConvertError (Nat × TreeState) :=
  match state.oldAddresses with
  | (address, oldLevel) :: rest =>
      .ok (address,
        { state with
          allocator :=
            { state.allocator with
              extentItems := recycle address oldLevel level state.allocator.extentItems }
          oldAddresses := rest
          addresses := state.addresses ++ [(address, level)] })
  | [] =>
      match allocateMetadata id level state.allocator with
      | (.error error, _) => .error error
      | (.ok address, allocator) =>
          .ok (address,
            { state with
              allocator := allocator
              allocationsDone := true
              addresses := state.addresses ++ [(address, level)] })

/-- Give a complete block an address and add it to the list. -/
def flushTree (id level : Nat) (body : BlockBody) (state : TreeState) :
    Except ConvertError TreeState :=
  (getAddress id level state).map fun found =>
    { found.2 with
      trees := found.2.trees ++ [⟨found.1, level, body⟩]
      metadataSize := found.2.metadataSize + treeSize }

/-! ## Leaves -/

/-- The leaf being filled. -/
structure OpenLeaf where
  items : List (BtrfsKey × Bytes) := []
  spaceLeft : Nat := blockSpace

/-- The space that an item takes in a leaf. -/
def itemCost (data : Bytes) : Nat :=
  itemSize + data.length

/-- Put an item into the leaf being filled. -/
def OpenLeaf.add (leaf : OpenLeaf) (key : BtrfsKey) (data : Bytes) : OpenLeaf :=
  ⟨leaf.items ++ [(key, data)], leaf.spaceLeft - itemCost data⟩

/-- The map that `create_trees` walks: the extent root is passed to itself. -/
def treeItems (id : Nat) (own : ItemMap) (state : TreeState) : ItemMap :=
  if id = extentTreeObjectid then state.allocator.extentItems else own

/--
The loop over the items.  `position` is the key of the item visited last; an
item that was erased between finding it and copying it is an error.  The
result is `none` when the number of turns does not suffice.
-/
def leafLoop (id : Nat) (own : ItemMap) :
    Nat → Option BtrfsKey → OpenLeaf → TreeState →
      Option (Except TreeError (OpenLeaf × TreeState))
  | 0, _, _, _ => none
  | turns + 1, position, leaf, state =>
      match (treeItems id own state).next? position with
      | none => some (.ok (leaf, state))
      | some (key, data) =>
          if itemCost data > leaf.spaceLeft then
            match flushTree id 0 (.leaf leaf.items) state with
            | .error error => some (.error (.convert error))
            | .ok next =>
                if (treeItems id own next).find? key = none then some (.error .erasedItem)
                else if itemCost data + headerSize > treeSize then
                  some (.error .itemTooLarge)
                else leafLoop id own turns (some key) (OpenLeaf.add {} key data) next
          else if itemCost data + headerSize > treeSize then some (.error .itemTooLarge)
          else leafLoop id own turns (some key) (leaf.add key data) state

/-! ## Internal nodes -/

/-- The internal node being filled and the number of nodes added on its level. -/
structure OpenNode where
  pointers : List KeyPtr := []
  spaceLeft : Nat := blockSpace
  treesAdded : Nat := 0

/-- Put a pointer to a block into the node being filled. -/
def OpenNode.add (node : OpenNode) (block : TreeBlock) : OpenNode :=
  { node with
    pointers := node.pointers ++ [⟨block.firstKey, block.bytenr⟩]
    spaceLeft := node.spaceLeft - keyPtrSize }

/--
The loop over the blocks when a level is built.  The blocks that it appends
have that level themselves and would end it, so it runs over the list as it
was before.
-/
def nodeLoop (id level : Nat) :
    List TreeBlock → OpenNode → TreeState → Except ConvertError (OpenNode × TreeState)
  | [], node, state => .ok (node, state)
  | block :: rest, node, state =>
      if block.level ≥ level then .ok (node, state)
      else if block.level < level - 1 then nodeLoop id level rest node state
      else if keyPtrSize > node.spaceLeft then do
        let next ← flushTree id level (.node node.pointers) state
        nodeLoop id level rest
          (OpenNode.add { treesAdded := node.treesAdded + 1 } block) next
      else nodeLoop id level rest (node.add block) state

/-- One turn of the loop over the levels, with the number of nodes it added. -/
def buildLevel (id level : Nat) (state : TreeState) :
    Except ConvertError (Nat × TreeState) := do
  let (node, state) ← nodeLoop id level state.trees {} state
  if node.pointers = [] then pure (node.treesAdded, state)
  else do
    let next ← flushTree id level (.node node.pointers) state
    pure (node.treesAdded + 1, next)

/-- Add levels until one has a single node. -/
def levelLoop (id : Nat) : Nat → TreeState → Option (Except ConvertError TreeState)
  | 0, _ => none
  | turns + 1, state =>
      let level := state.level + 1
      match buildLevel id level { state with level := level } with
      | .error error => some (.error error)
      | .ok (added, next) =>
          if added = 1 then some (.ok next) else levelLoop id turns next

/-- The address of the root of the tree: that of the last block. -/
def TreeState.close (state : TreeState) : TreeState :=
  { state with treeAddr := (state.trees.getLast?.map TreeBlock.bytenr).getD 0 }

/-- `root::create_trees`: build the blocks of the root with the given number. -/
def createTrees (id : Nat) (own : ItemMap) (turns : Nat) (state : TreeState) :
    Option (Except TreeError TreeState) :=
  match leafLoop id own turns none {} state with
  | none => none
  | some (.error error) => some (.error error)
  | some (.ok (leaf, filled)) =>
      let flushed :=
        if leaf.items ≠ [] ∨ (treeItems id own filled).size = 0 then
          flushTree id 0 (.leaf leaf.items) filled
        else .ok filled
      match flushed with
      | .error error => some (.error (.convert error))
      | .ok leaves =>
          let leaves := { leaves with level := 0 }
          if leaves.trees.length = 1 then some (.ok leaves.close)
          else
            (levelLoop id turns leaves).map fun built =>
              match built with
              | .error error => .error (.convert error)
              | .ok final => .ok final.close

end Ntfs2Btrfs
