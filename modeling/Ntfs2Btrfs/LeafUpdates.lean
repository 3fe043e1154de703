import Ntfs2Btrfs.MetadataConsistency

/-!
# Fields that are filled in afterwards

The addresses and sizes of the trees, and the space used in the chunks, are known only
when all trees have been built.  `convert` writes them into the finished leaves of
the root, extent and chunk trees and hashes those leaves again.

Such a leaf is the one that would have been built from the changed items: no key, no
item boundary and no other item is touched.
-/

namespace Ntfs2Btrfs

open ByteStore

/-! ## Changing a leaf -/

/-- Overwrite fields, given by their offsets, from a position on. -/
def patchFields (bytes : Bytes) (pos : Nat) (fields : List (Nat × Bytes)) : Bytes :=
  fields.foldl (fun bytes field => patch bytes (pos + field.1) field.2) bytes

/-- Overwrite fields of the item with the given index. -/
def updateItem (fields : BtrfsKey → List (Nat × Bytes)) (block : Bytes) (index : Nat) : Bytes :=
  let item := slice (block.drop headerSize) (itemSize * index) itemSize
  patchFields block (headerSize + unle (slice item 17 4)) (fields (readKey item))

/-- The loop over the items of a leaf. -/
def updateItems (fields : BtrfsKey → List (Nat × Bytes)) (block : Bytes) : Bytes :=
  (List.range (headerNritems block)).foldl (updateItem fields) block

/-- `sizeof(btrfs_header::csum)` -/
def headerCsumSize : Nat := 32

/-- `calc_tree_hash` on a finished block -/
def calcTreeHash (identity : TreeIdentity) (block : Bytes) : Bytes :=
  identity.csum (block.drop headerCsumSize) ++ block.drop headerCsumSize

/-- The loop over the blocks of a tree, which ends at the first block that is no leaf. -/
def updateLeaves (identity : TreeIdentity) (fields : BtrfsKey → List (Nat × Bytes)) :
    List Bytes → List Bytes
  | [] => []
  | block :: rest =>
      if headerLevel block > 0 then block :: rest
      else calcTreeHash identity (updateItems fields block) :: updateLeaves identity fields rest

/-! ## The three functions -/

/-- The fields of a `btrfs_root_item` that `update_root_root` sets. -/
def rootItemFields (roots : List (Nat × TreeRoot)) (key : BtrfsKey) : List (Nat × Bytes) :=
  if key.type = BtrfsKeyType.rootItem then
    (roots.filter fun root => root.1 = key.objectid).flatMap fun root =>
      [(176, le 8 root.2.treeAddr), (238, le 1 root.2.level), (192, le 8 root.2.metadataSize)]
  else []

/-- `update_root_root` -/
def updateRootRoot
    (identity : TreeIdentity) (roots : List (Nat × TreeRoot)) (trees : List Bytes) :
    List Bytes :=
  updateLeaves identity (rootItemFields roots) trees

/-- The field of a `btrfs_block_group_item` that `update_extent_root` sets. -/
def blockGroupFields (chunks : List Chunk) (key : BtrfsKey) : List (Nat × Bytes) :=
  if key.type = BtrfsKeyType.blockGroupItem then
    (chunks.filter fun chunk => chunk.offset = key.objectid).flatMap fun chunk =>
      [(0, le 8 chunk.used)]
  else []

/-- `update_extent_root` -/
def updateExtentRoot
    (identity : TreeIdentity) (chunks : List Chunk) (trees : List Bytes) : List Bytes :=
  updateLeaves identity (blockGroupFields chunks) trees

/-- The item that `update_chunk_root` looks for. -/
def IsDevItem (key : BtrfsKey) : Bool :=
  key.objectid = 1 ∧ key.type = BtrfsKeyType.devItem ∧ key.offset = 1

/-- `update_chunk_root`, which returns behind the first item that it changes. -/
def updateChunkRoot
    (identity : TreeIdentity) (chunks : List Chunk) : List Bytes → List Bytes
  | [] => []
  | block :: rest =>
      if headerLevel block > 0 then block :: rest
      else
        match (List.range (headerNritems block)).find? fun index =>
            IsDevItem (readKey (slice (block.drop headerSize) (itemSize * index) itemSize)) with
        | some index =>
            calcTreeHash identity
              (updateItem
                (fun _ => [(16, le 8 (chunks.map Chunk.length).sum)]) block index) :: rest
        | none => block :: updateChunkRoot identity chunks rest

/-! ## A leaf as one byte string -/

/-- The headers of items whose data ends at `stop`. -/
def leafHeaders : Nat → List (BtrfsKey × Bytes) → Bytes
  | _, [] => []
  | stop, entry :: rest =>
      itemHeader entry.1 (stop - entry.2.length) entry.2.length ++
        leafHeaders (stop - entry.2.length) rest

/-- The data of items, the last one first. -/
def leafTail : List (BtrfsKey × Bytes) → Bytes
  | [] => []
  | entry :: rest => leafTail rest ++ entry.2

theorem length_leafHeaders (stop : Nat) (items : List (BtrfsKey × Bytes)) :
    (leafHeaders stop items).length = itemSize * items.length := by
  induction items generalizing stop with
  | nil => rfl
  | cons entry rest ih =>
    rw [leafHeaders, List.length_append, length_itemHeader, ih, List.length_cons, Nat.mul_succ,
      Nat.add_comm]

theorem length_leafTail (items : List (BtrfsKey × Bytes)) :
    (leafTail items).length = leafData items := by
  induction items with
  | nil => rfl
  | cons entry rest ih =>
    rw [leafTail, List.length_append, ih, leafData, leafData, List.map_cons, List.sum_cons,
      Nat.add_comm]

theorem leafHeaders_append (stop : Nat) (front back : List (BtrfsKey × Bytes)) :
    leafHeaders stop (front ++ back) =
      leafHeaders stop front ++ leafHeaders (stop - leafData front) back := by
  induction front generalizing stop with
  | nil => rfl
  | cons entry rest ih =>
    have data : leafData (entry :: rest) = entry.2.length + leafData rest := List.sum_cons
    rw [List.cons_append, leafHeaders, leafHeaders, ih, List.append_assoc, data, Nat.sub_sub]

theorem leafTail_append (front back : List (BtrfsKey × Bytes)) :
    leafTail (front ++ back) = leafTail back ++ leafTail front := by
  induction front with
  | nil => exact (List.append_nil _).symm
  | cons entry rest ih => rw [List.cons_append, leafTail, leafTail, ih, List.append_assoc]

/-- A leaf is its headers, zeros, and its data from the back. -/
theorem leafBytes_eq {items : List (BtrfsKey × Bytes)} (room : leafCost items ≤ blockSpace) :
    leafBytes items =
      leafHeaders blockSpace items ++
        (List.replicate (blockSpace - leafCost items) 0 ++ leafTail items) := by
  induction items using List.reverseRecOn with
  | nil => rw [leafBytes, leafTail, List.append_nil]; rfl
  | append_singleton front entry ih =>
    have cost : leafCost (front ++ [entry]) = leafCost front + itemCost entry.2 := by
      rw [leafCost_append]
      rfl
    have single : itemCost entry.2 = itemSize + entry.2.length := rfl
    have whole := leafCost_eq front
    have filled := @filled_foldl front (by omega)
    have before := ih (by omega)
    have dataOff := filled.dataOff
    rw [leafBytes] at before
    rw [leafBytes, List.foldl_append, List.foldl_cons, List.foldl_nil, LeafBuffer.put]
    dsimp only
    rw [before, filled.numItems]
    set stop := (front.foldl LeafBuffer.put LeafBuffer.empty).dataOff
    have gap : List.replicate (blockSpace - leafCost front) (0 : UInt8) =
        List.replicate itemSize 0 ++
          (List.replicate (blockSpace - leafCost (front ++ [entry])) 0 ++
            List.replicate entry.2.length 0) := by
      rw [List.replicate_append_replicate, List.replicate_append_replicate]
      congr 1
      omega
    have place : stop - entry.2.length =
        (leafHeaders blockSpace front ++ (List.replicate itemSize (0 : UInt8) ++
          List.replicate (blockSpace - leafCost (front ++ [entry])) 0)).length := by
      rw [List.length_append, List.length_append, List.length_replicate, List.length_replicate,
        length_leafHeaders]
      omega
    have data : patch (leafHeaders blockSpace front ++
        (List.replicate (blockSpace - leafCost front) 0 ++ leafTail front))
        (stop - entry.2.length) entry.2 =
          leafHeaders blockSpace front ++ (List.replicate itemSize 0 ++
            (List.replicate (blockSpace - leafCost (front ++ [entry])) 0 ++
              (entry.2 ++ leafTail front))) := by
      have shifted := @patch_middle
        (leafHeaders blockSpace front ++ (List.replicate itemSize (0 : UInt8) ++
          List.replicate (blockSpace - leafCost (front ++ [entry])) 0)) (leafTail front)
        (List.replicate entry.2.length 0) entry.2 List.length_replicate.symm
      rw [← place] at shifted
      rw [gap]
      simp only [List.append_assoc] at shifted ⊢
      exact shifted
    have header := @patch_middle (leafHeaders blockSpace front)
      (List.replicate (blockSpace - leafCost (front ++ [entry])) 0 ++
        (entry.2 ++ leafTail front))
      (List.replicate itemSize 0) (itemHeader entry.1 (stop - entry.2.length) entry.2.length)
      (by rw [length_itemHeader, List.length_replicate])
    rw [length_leafHeaders] at header
    have stop_eq : blockSpace - leafData front = stop := by omega
    rw [data, header, leafHeaders_append, leafTail_append, leafHeaders, leafHeaders, leafTail,
      leafTail, stop_eq, List.append_nil, List.nil_append]
    simp only [List.append_assoc]

/-! ## Changed items -/

/-- An item with fields of its data overwritten. -/
def updateEntry (fields : BtrfsKey → List (Nat × Bytes)) (entry : BtrfsKey × Bytes) :
    BtrfsKey × Bytes :=
  (entry.1, patchFields entry.2 0 (fields entry.1))

/-- The fields are inside the data of the item. -/
def FieldsFit (fields : BtrfsKey → List (Nat × Bytes)) (entry : BtrfsKey × Bytes) : Prop :=
  ∀ field ∈ fields entry.1, field.1 + field.2.length ≤ entry.2.length

theorem length_patchFields
    {bytes : Bytes} {fields : List (Nat × Bytes)}
    (fit : ∀ field ∈ fields, field.1 + field.2.length ≤ bytes.length) :
    (patchFields bytes 0 fields).length = bytes.length := by
  induction fields generalizing bytes with
  | nil => rfl
  | cons field rest ih =>
    obtain ⟨first, others⟩ := List.forall_mem_cons.mp fit
    have same : (patch bytes (0 + field.1) field.2).length = bytes.length :=
      length_patch (by rw [Nat.zero_add]; exact first)
    rw [patchFields, List.foldl_cons]
    exact (ih fun other member => same.symm ▸ others other member).trans same

/-- Fields inside one part of a byte string are changed there. -/
theorem patchFields_inside
    (front back : Bytes) {middle : Bytes} {fields : List (Nat × Bytes)}
    (fit : ∀ field ∈ fields, field.1 + field.2.length ≤ middle.length) :
    patchFields (front ++ (middle ++ back)) front.length fields =
      front ++ (patchFields middle 0 fields ++ back) := by
  induction fields generalizing middle with
  | nil => rfl
  | cons field rest ih =>
    obtain ⟨first, others⟩ := List.forall_mem_cons.mp fit
    have same : (patch middle field.1 field.2).length = middle.length := length_patch first
    rw [patchFields, patchFields, List.foldl_cons, List.foldl_cons, patch_inside _ _ first,
      Nat.zero_add]
    exact ih fun other member => same.symm ▸ others other member

section Update

variable {fields : BtrfsKey → List (Nat × Bytes)}

theorem length_updateEntry {entry : BtrfsKey × Bytes} (fit : FieldsFit fields entry) :
    (updateEntry fields entry).2.length = entry.2.length :=
  length_patchFields fit

theorem leafCost_updateEntry
    {items : List (BtrfsKey × Bytes)} (fit : ∀ entry ∈ items, FieldsFit fields entry) :
    leafCost (items.map (updateEntry fields)) = leafCost items := by
  rw [leafCost, leafCost, List.map_map]
  refine congrArg List.sum (List.map_congr_left fun entry member => ?_)
  exact congrArg (itemSize + ·) (length_updateEntry (fit entry member))

/-- Headers tell keys and sizes only. -/
theorem leafHeaders_congr
    (stop : Nat) (front back : List (BtrfsKey × Bytes)) {entry other : BtrfsKey × Bytes}
    (key : other.1 = entry.1) (size : other.2.length = entry.2.length) :
    leafHeaders stop (front ++ other :: back) = leafHeaders stop (front ++ entry :: back) := by
  rw [leafHeaders_append, leafHeaders_append, leafHeaders, leafHeaders, key, size]

/-- One turn of the loop: the item with the index is changed, and nothing else. -/
theorem updateItem_leaf
    {header : Bytes} (width : header.length = headerSize) {front back : List (BtrfsKey × Bytes)}
    {entry : BtrfsKey × Bytes} (fit : FieldsFit fields entry)
    (room : leafCost (front ++ entry :: back) ≤ blockSpace) :
    updateItem fields (header ++ leafBytes (front ++ entry :: back)) front.length =
      header ++ leafBytes (front ++ updateEntry fields entry :: back) := by
  have size := length_updateEntry fit
  have cost : leafCost (front ++ updateEntry fields entry :: back) =
      leafCost (front ++ entry :: back) := by
    rw [leafCost_append, leafCost_append]
    have tail {head : BtrfsKey × Bytes} :
        leafCost (head :: back) = itemSize + head.2.length + leafCost back := List.sum_cons
    rw [tail, tail, size]
  have filled := filled_foldl room
  obtain ⟨headerAt, -⟩ := filled.stored front entry back rfl
  rw [← leafBytes] at headerAt
  have whole := leafCost_eq (front ++ entry :: back)
  have part : leafData (front ++ [entry]) + leafData back = leafData (front ++ entry :: back) := by
    rw [← leafData_append, List.append_assoc, List.singleton_append]
  have space : blockSpace < 256 ^ 4 := by decide
  obtain ⟨offsetField, -⟩ := slice_itemHeader entry.1
    (blockSpace - leafData (front ++ [entry])) entry.2.length
  have drop : (header ++ leafBytes (front ++ entry :: back)).drop headerSize =
      leafBytes (front ++ entry :: back) := by
    rw [← width, List.drop_left]
  rw [updateItem, drop, headerAt, offsetField, readKey_itemHeader, unle_le_of_lt (by omega), leafBytes_eq room,
    leafBytes_eq (cost.trans_le room), cost,
    @leafHeaders_congr blockSpace front back entry (updateEntry fields entry) rfl size,
    leafTail_append, leafTail_append, leafTail, leafTail]
  have place : headerSize + (blockSpace - leafData (front ++ [entry])) =
      (header ++ (leafHeaders blockSpace (front ++ entry :: back) ++
        (List.replicate (blockSpace - leafCost (front ++ entry :: back)) 0 ++
          leafTail back))).length := by
    rw [List.length_append, List.length_append, List.length_append, width, length_leafHeaders,
      List.length_replicate, length_leafTail]
    omega
  have changed := patchFields_inside
    (header ++ (leafHeaders blockSpace (front ++ entry :: back) ++
      (List.replicate (blockSpace - leafCost (front ++ entry :: back)) 0 ++ leafTail back)))
    (leafTail front) fit
  rw [← place] at changed
  simp only [List.append_assoc] at changed ⊢
  exact changed

/-- The whole loop changes every item that has fields to change. -/
theorem updateItems_leaf
    {header : Bytes} (width : header.length = headerSize) {items : List (BtrfsKey × Bytes)}
    (fit : ∀ entry ∈ items, FieldsFit fields entry) (room : leafCost items ≤ blockSpace) :
    (List.range items.length).foldl (updateItem fields) (header ++ leafBytes items) =
      header ++ leafBytes (items.map (updateEntry fields)) := by
  have general : ∀ front back : List (BtrfsKey × Bytes),
      (∀ entry ∈ back, FieldsFit fields entry) → leafCost (front ++ back) ≤ blockSpace →
        (List.range' front.length back.length).foldl (updateItem fields)
            (header ++ leafBytes (front ++ back)) =
          header ++ leafBytes (front ++ back.map (updateEntry fields)) := by
    intro front back
    induction back generalizing front with
    | nil => exact fun _ _ => rfl
    | cons entry rest ih =>
      intro fit room
      obtain ⟨first, others⟩ := List.forall_mem_cons.mp fit
      rw [List.length_cons, List.range'_succ, List.foldl_cons, updateItem_leaf width first room,
        List.map_cons]
      have cost : leafCost ((front ++ [updateEntry fields entry]) ++ rest) =
          leafCost (front ++ entry :: rest) := by
        have head {other : BtrfsKey × Bytes} :
            leafCost (other :: rest) = itemSize + other.2.length + leafCost rest := List.sum_cons
        rw [List.append_assoc, List.singleton_append, leafCost_append, leafCost_append, head, head,
          length_updateEntry first]
      have later := ih (front ++ [updateEntry fields entry]) others (cost.trans_le room)
      rw [List.length_append, List.length_singleton] at later
      simp only [List.append_assoc, List.singleton_append] at later
      exact later
  have whole := general [] items fit room
  rwa [List.length_nil, ← List.range_eq_range'] at whole

/-- The block with the changed items. -/
def TreeBlock.update (fields : BtrfsKey → List (Nat × Bytes)) (block : TreeBlock) : TreeBlock :=
  { block with
    body :=
      match block.body with
      | .leaf items => .leaf (items.map (updateEntry fields))
      | .node pointers => .node pointers }

theorem encodeBlock_leaf
    (identity : TreeIdentity) (owner bytenr level : Nat) (items : List (BtrfsKey × Bytes)) :
    ∃ csum : Bytes, csum.length = headerCsumSize ∧
      encodeBlock identity owner ⟨bytenr, level, .leaf items⟩ =
        (csum ++ headerFields identity owner bytenr items.length level) ++ leafBytes items :=
  ⟨_, identity.csum_length _, (List.append_assoc _ _ _).symm⟩

theorem length_leafFront
    (identity : TreeIdentity) {csum : Bytes} (size : csum.length = headerCsumSize)
    (owner bytenr count level : Nat) :
    (csum ++ headerFields identity owner bytenr count level).length = headerSize := by
  rw [List.length_append, size, length_headerFields]
  rfl

/-- Hashing a leaf again gives the block with its items. -/
theorem calcTreeHash_leaf
    {identity : TreeIdentity} {csum : Bytes} (size : csum.length = headerCsumSize)
    {owner bytenr level count : Nat} {items : List (BtrfsKey × Bytes)}
    (same : count = items.length) :
    calcTreeHash identity
        ((csum ++ headerFields identity owner bytenr count level) ++ leafBytes items) =
      encodeBlock identity owner ⟨bytenr, level, .leaf items⟩ := by
  rw [calcTreeHash, List.append_assoc, ← size, List.drop_left, same]
  rfl

/-- A changed leaf is the leaf that the changed items make, with its checksum. -/
theorem calcTreeHash_updateItems
    {identity : TreeIdentity} {owner : Nat} {block : TreeBlock} (fits : block.Fits)
    (leaf : block.level = 0) (fit : ∀ entry ∈ block.items, FieldsFit fields entry) :
    calcTreeHash identity (updateItems fields (encodeBlock identity owner block)) =
      encodeBlock identity owner (block.update fields) := by
  obtain ⟨-, nritems, -⟩ := @header_encodeBlock identity owner block fits
  have body := fits.body
  obtain ⟨bytenr, level, content⟩ := block
  cases content with
  | node pointers => exact absurd leaf body.1
  | leaf items =>
    obtain ⟨csum, size, encoded⟩ := encodeBlock_leaf identity owner bytenr level items
    have changed := @updateItems_leaf fields _
      (length_leafFront identity size owner bytenr items.length level) items fit body.2
    rw [updateItems, nritems, encoded]
    change calcTreeHash identity ((List.range items.length).foldl _ _) = _
    rw [changed]
    exact calcTreeHash_leaf size (List.length_map _).symm

end Update

/-! ## Changing a tree -/

section Trees

variable {fields : BtrfsKey → List (Nat × Bytes)}

theorem update_bytenr (block : TreeBlock) : (block.update fields).bytenr = block.bytenr :=
  rfl

theorem update_level (block : TreeBlock) : (block.update fields).level = block.level :=
  rfl

theorem update_items (block : TreeBlock) :
    (block.update fields).items = block.items.map (updateEntry fields) := by
  rw [TreeBlock.update, TreeBlock.items, TreeBlock.items]
  cases block.body with
  | leaf items => rfl
  | node pointers => rfl

theorem update_firstKey (block : TreeBlock) :
    (block.update fields).firstKey = block.firstKey := by
  rw [TreeBlock.update, TreeBlock.firstKey, TreeBlock.firstKey]
  rcases block.body with (_ | ⟨entry, rest⟩) | pointers
  · rfl
  · rfl
  · rfl

/-- A block without items to change stays as it is. -/
theorem update_self
    {block : TreeBlock} (none_ : ∀ entry ∈ block.items, fields entry.1 = []) :
    block.update fields = block := by
  obtain ⟨bytenr, level, body⟩ := block
  cases body with
  | node pointers => rfl
  | leaf items =>
    have same : items.map (updateEntry fields) = items := by
      refine (List.map_congr_left fun entry member => ?_).trans (List.map_id _)
      rw [updateEntry, none_ entry member]
      rfl
    rw [TreeBlock.update]
    dsimp only
    rw [same]

theorem TreeBlock.Fits.items_nil
    {block : TreeBlock} (fits : block.Fits) (node : block.level ≠ 0) : block.items = [] := by
  have body := fits.body
  obtain ⟨bytenr, level, content⟩ := block
  cases content with
  | leaf items => exact absurd body.1 node
  | node pointers => rfl

theorem TreeBlock.Fits.update_node
    {block : TreeBlock} (fits : block.Fits) (node : block.level ≠ 0) :
    block.update fields = block := by
  refine update_self fun entry member => ?_
  rw [fits.items_nil node] at member
  cases member

/-- Behind the leaves nothing is changed. -/
theorem update_nodes
    {trees : List TreeBlock} (fits : ∀ block ∈ trees, block.Fits)
    (nodes : ∀ block ∈ trees, 0 < block.level) :
    trees.map (TreeBlock.update fields) = trees :=
  (List.map_congr_left fun block member =>
    (fits block member).update_node (Nat.ne_of_gt (nodes block member))).trans (List.map_id _)

/-- The loop over a tree changes all its leaves. -/
theorem updateLeaves_encode
    {identity : TreeIdentity} {owner : Nat} {trees : List TreeBlock}
    (fits : ∀ block ∈ trees, block.Fits)
    (ordered : trees.Pairwise fun left right => left.level ≤ right.level)
    (fit : ∀ entry ∈ trees.flatMap TreeBlock.items, FieldsFit fields entry) :
    updateLeaves identity fields (trees.map (encodeBlock identity owner)) =
      (trees.map (TreeBlock.update fields)).map (encodeBlock identity owner) := by
  induction trees with
  | nil => rfl
  | cons block rest ih =>
    obtain ⟨first, others⟩ := List.forall_mem_cons.mp fits
    obtain ⟨below, later⟩ := List.pairwise_cons.mp ordered
    obtain ⟨-, -, level⟩ := @header_encodeBlock identity owner block first
    rw [List.map_cons, updateLeaves, level]
    split_ifs with node
    · rw [update_nodes fits (List.forall_mem_cons.mpr
        ⟨node, fun other member => Nat.lt_of_lt_of_le node (below other member)⟩)]
      rfl
    · rw [List.flatMap_cons] at fit
      rw [calcTreeHash_updateItems first (Nat.le_zero.mp (Nat.not_lt.mp node))
        fun entry member => fit entry (List.mem_append_left _ member),
        ih others later fun entry member => fit entry (List.mem_append_right _ member)]
      rfl

/-- Keys that occur once in the leaves. -/
def DistinctKeys (items : List (BtrfsKey × Bytes)) : Prop :=
  items.Pairwise fun left right => left.1 ≠ right.1

/-- The fields that `update_chunk_root` changes. -/
def devItemFields (chunks : List Chunk) (key : BtrfsKey) : List (Nat × Bytes) :=
  if IsDevItem key then [(16, le 8 (chunks.map Chunk.length).sum)] else []

theorem isDevItem_eq {left right : BtrfsKey} (first : IsDevItem left = true)
    (second : IsDevItem right = true) : left = right := by
  obtain ⟨object, type, offset⟩ := of_decide_eq_true first
  obtain ⟨object', type', offset'⟩ := of_decide_eq_true second
  exact BtrfsKey.ext (object.trans object'.symm) (type.trans type'.symm)
    (offset.trans offset'.symm)

/-- The key that the loop reads is that of the item. -/
theorem readKey_encodeBlock
    {identity : TreeIdentity} {owner bytenr level index : Nat} {items : List (BtrfsKey × Bytes)}
    {entry : BtrfsKey × Bytes} (room : leafCost items ≤ blockSpace)
    (found : items[index]? = some entry) :
    readKey (slice ((encodeBlock identity owner ⟨bytenr, level, .leaf items⟩).drop headerSize)
      (itemSize * index) itemSize) = entry.1 := by
  have read := (filled_foldl room).readItem found
  rw [drop_encodeBlock]
  exact congrArg Prod.fst read

theorem updateEntry_self {entry : BtrfsKey × Bytes} (none_ : fields entry.1 = []) :
    updateEntry fields entry = entry := by
  rw [updateEntry, none_]
  rfl

/-- A leaf with the device item at an index. -/
theorem update_devItem
    {identity : TreeIdentity} {owner bytenr level index : Nat} {chunks : List Chunk}
    {items : List (BtrfsKey × Bytes)} (room : leafCost items ≤ blockSpace)
    (inside : index < items.length) (hit : IsDevItem items[index].1 = true)
    (distinct : DistinctKeys items)
    (fit : ∀ entry ∈ items, FieldsFit (devItemFields chunks) entry) :
    calcTreeHash identity
        (updateItem (fun _ => [(16, le 8 (chunks.map Chunk.length).sum)])
          (encodeBlock identity owner ⟨bytenr, level, .leaf items⟩) index) =
      encodeBlock identity owner
        (TreeBlock.update (devItemFields chunks) ⟨bytenr, level, .leaf items⟩) := by
  have shape : items = items.take index ++ items[index] :: items.drop (index + 1) := by
    rw [List.getElem_cons_drop, List.take_append_drop]
  generalize frontShape : items.take index = front at shape
  generalize backShape : items.drop (index + 1) = back at shape
  generalize items[index] = entry at shape hit
  have place : front.length = index := by
    rw [← frontShape, List.length_take]
    omega
  have single : devItemFields chunks entry.1 = [(16, le 8 (chunks.map Chunk.length).sum)] :=
    if_pos hit
  have own : FieldsFit (fun _ => [(16, le 8 (chunks.map Chunk.length).sum)]) entry := by
    have fits := fit entry (shape ▸ List.mem_append_right _ List.mem_cons_self)
    rwa [FieldsFit, single] at fits
  have other {left : BtrfsKey × Bytes} (apart : left.1 ≠ entry.1) :
      updateEntry (devItemFields chunks) left = left :=
    updateEntry_self (if_neg fun also => apart (isDevItem_eq also hit))
  rw [DistinctKeys, shape] at distinct
  obtain ⟨-, tail, across⟩ := List.pairwise_append.mp distinct
  have behind := (List.pairwise_cons.mp tail).1
  have mapped : items.map (updateEntry (devItemFields chunks)) =
      front ++ updateEntry (fun _ => [(16, le 8 (chunks.map Chunk.length).sum)]) entry :: back := by
    rw [shape, List.map_append, List.map_cons]
    congr 1
    · refine (List.map_congr_left fun left member => ?_).trans (List.map_id _)
      exact other (across left member entry List.mem_cons_self)
    · congr 1
      · rw [updateEntry, updateEntry, single]
      · refine (List.map_congr_left fun right member => ?_).trans (List.map_id _)
        exact other (behind right member).symm
  obtain ⟨csum, size, encoded⟩ := encodeBlock_leaf identity owner bytenr level items
  have step := updateItem_leaf (length_leafFront identity size owner bytenr items.length level)
    own (shape ▸ room)
  rw [encoded, ← place]
  rw [← shape] at step
  rw [step, TreeBlock.update]
  dsimp only
  rw [mapped]
  refine calcTreeHash_leaf size ?_
  rw [shape, List.length_append, List.length_append, List.length_cons, List.length_cons]

/-- The search for the device item changes that item, and no other. -/
theorem updateChunkRoot_encode
    {identity : TreeIdentity} {owner : Nat} {chunks : List Chunk} {trees : List TreeBlock}
    (fits : ∀ block ∈ trees, block.Fits)
    (ordered : trees.Pairwise fun left right => left.level ≤ right.level)
    (distinct : DistinctKeys (trees.flatMap TreeBlock.items))
    (fit : ∀ entry ∈ trees.flatMap TreeBlock.items, FieldsFit (devItemFields chunks) entry) :
    updateChunkRoot identity chunks (trees.map (encodeBlock identity owner)) =
      (trees.map (TreeBlock.update (devItemFields chunks))).map (encodeBlock identity owner) := by
  induction trees with
  | nil => rfl
  | cons block rest ih =>
    obtain ⟨first, others⟩ := List.forall_mem_cons.mp fits
    obtain ⟨below, later⟩ := List.pairwise_cons.mp ordered
    obtain ⟨-, nritems, height⟩ := @header_encodeBlock identity owner block first
    rw [List.flatMap_cons] at fit distinct
    obtain ⟨own, apart, across⟩ := List.pairwise_append.mp distinct
    rw [List.map_cons, updateChunkRoot, height, nritems]
    split_ifs with node
    · rw [update_nodes fits (List.forall_mem_cons.mpr
        ⟨node, fun other member => Nat.lt_of_lt_of_le node (below other member)⟩)]
      rfl
    · have leaf : block.level = 0 := Nat.le_zero.mp (Nat.not_lt.mp node)
      have body := first.body
      obtain ⟨bytenr, level, content⟩ := block
      cases content with
      | node pointers => exact absurd leaf body.1
      | leaf items =>
        have room : leafCost items ≤ blockSpace := body.2
        cases located : (List.range (BlockBody.leaf items).numItems).find? fun index =>
            IsDevItem (readKey (slice ((encodeBlock identity owner
              ⟨bytenr, level, .leaf items⟩).drop headerSize) (itemSize * index) itemSize)) with
        | none =>
          have none_ : ∀ entry ∈ items, devItemFields chunks entry.1 = [] := by
            intro entry member
            obtain ⟨index, inside, rfl⟩ := List.mem_iff_getElem.mp member
            have missed := List.find?_eq_none.mp located index (List.mem_range.mpr inside)
            rw [readKey_encodeBlock room (List.getElem?_eq_getElem inside)] at missed
            exact if_neg missed
          rw [ih others later apart fun entry member =>
            fit entry (List.mem_append_right _ member)]
          rw [List.map_cons, List.map_cons,
            @update_self (devItemFields chunks) ⟨bytenr, level, .leaf items⟩ none_]
        | some index =>
          have inside : index < items.length :=
            List.mem_range.mp (List.mem_of_find?_eq_some located)
          have hit := List.find?_some located
          rw [readKey_encodeBlock room (List.getElem?_eq_getElem inside)] at hit
          have unchanged : rest.map (TreeBlock.update (devItemFields chunks)) = rest := by
            refine (List.map_congr_left fun block member => ?_).trans (List.map_id _)
            refine update_self fun entry inBlock => if_neg fun also => ?_
            exact across _ (List.getElem_mem inside) entry
              (List.mem_flatMap_of_mem member inBlock) (isDevItem_eq hit also)
          rw [List.map_cons, List.map_cons, unchanged]
          refine congrArg (· :: _) (update_devItem room inside hit own fun entry member => ?_)
          exact fit entry (List.mem_append_left _ member)

end Trees

end Ntfs2Btrfs
