import Ntfs2Btrfs.Crc32c
import Ntfs2Btrfs.Root

/-!
# Links from directories to inodes

`link_inode` records a link three times: in a `DIR_ITEM` under the hash of the
name, in a `DIR_INDEX` under a sequence number, and in an `INODE_REF`.  Items
whose keys collide hold several records one after the other.  Decoding the
three kinds of items gives three views of the links, and every sequence of
calls keeps them in agreement.
-/

namespace Ntfs2Btrfs

open ByteStore
open PackedRecords

/-! ## The code -/

/-- `BTRFS_FIRST_FREE_OBJECTID`, the inode of the root directory. -/
def firstFreeObjectid : Nat := 0x100

/-- `image_subvol_id`. -/
def imageSubvolId : Nat := 0x100

/-- `btrfs_dir_item_type::dir`. -/
def dirItemTypeDir : Nat := 2

/-- The hash of a name in the key of a `DIR_ITEM`. -/
def nameHash (name : Bytes) : Nat :=
  calcCrc32c 0xfffffffe name

/-- `add_inode_ref`: append to the item of an existing key, or insert a new one. -/
def addInodeRef
    (items : ItemMap) (inode parent index : Nat) (name : Bytes) :
    Except ConvertError ItemMap :=
  let ref : InodeRef := { index := index, name := name }
  match items.find? (btrfsKey inode BtrfsKeyType.inodeRef parent) with
  | some old =>
      -- collision, append to the end
      .ok (items.assign (btrfsKey inode BtrfsKeyType.inodeRef parent)
        (old ++ ref.bytes))
  | none => addItem items inode BtrfsKeyType.inodeRef parent ref.bytes

/-- A directory entry that is appended to the entries with the same hash. -/
def addDirItem (items : ItemMap) (dir hash : Nat) (entry : Bytes) :
    Except ConvertError ItemMap :=
  match items.find? (btrfsKey dir BtrfsKeyType.dirItem hash) with
  | none => addItem items dir BtrfsKeyType.dirItem hash entry
  | some ent =>
      -- hash collision
      .ok (items.assign (btrfsKey dir BtrfsKeyType.dirItem hash) (ent ++ entry))

/-- The directory entry of a link to an inode. -/
def inodeDirItem (inode type : Nat) (name : Bytes) : DirItem :=
  { location := btrfsKey inode BtrfsKeyType.inodeItem 0
    transid := 1
    dataLen := 0
    type := type
    name := name }

/-- `link_inode`. -/
def linkInode (root : Root) (inode dir : Nat) (name : Bytes) (type : Nat) :
    Except ConvertError Root := do
  let dirSeqs :=
    if (root.dirSeqs.find? dir).isNone then root.dirSeqs.assign dir 2
    else root.dirSeqs
  let seq := (dirSeqs.find? dir).getD 0
  let buf := (inodeDirItem inode type name).bytes
  -- add DIR_ITEM and DIR_INDEX
  let items ← addDirItem root.items dir (nameHash name) buf
  let items ← addItem items dir BtrfsKeyType.dirIndex seq buf
  -- add INODE_REF
  let items ← addInodeRef items inode dir seq name
  -- increase size in parent dir
  let size := (root.dirSize.find? dir).getD 0 + name.length * 2
  .ok
    { root with
      items := items
      dirSize := root.dirSize.assign dir size
      dirSeqs := dirSeqs.assign dir ((seq + 1) % wordModulus) }

/-- The arguments of a call of `link_inode`. -/
structure LinkCall where
  inode : UInt64
  dir : UInt64
  name : Bytes
  type : UInt8
deriving DecidableEq

/-- Perform calls of `link_inode` one after the other. -/
def linkInodes : List LinkCall → Root → Except ConvertError Root
  | [], root => .ok root
  | call :: rest, root => do
      let next ←
        linkInode root call.inode.toNat call.dir.toNat call.name call.type.toNat
      linkInodes rest next

/-! ## Views -/

/-- The records packed in the items of a type, each with the key of its item. -/
def packedView {α : Type*}
    (type : Nat) (parse : Bytes → Option (α × Nat)) (items : ItemMap) :
    List (BtrfsKey × α) :=
  items.entries.flatMap fun entry =>
    if entry.1.type = type then
      ((decode parse entry.2).getD []).map fun record => (entry.1, record)
    else []

/-- The items of a type are made of packed records. -/
def Packed {α : Type*}
    (type : Nat) (encode : α → Bytes) (parse : Bytes → Option (α × Nat))
    (items : ItemMap) : Prop :=
  ∀ entry ∈ items.entries, entry.1.type = type →
    ∃ records : List α, entry.2 = records.flatMap encode ∧
      ∀ record ∈ records, Reads encode parse record

/--
The item of a key gets a record more: it is inserted, or the record is appended
to it.
-/
def Extends (items next : ItemMap) (key : BtrfsKey) (record : Bytes) : Prop :=
  key ∉ items.keys ∧ next = items.emplace key record ∨
    ∃ old, items.find? key = some old ∧ next = items.assign key (old ++ record)

theorem extends_of_addItem
    {items next : ItemMap} {objectid type offset : Nat} {data : Bytes}
    (added : addItem items objectid type offset data = .ok next) :
    Extends items next (btrfsKey objectid type offset) data :=
  Or.inl (addItem_ok_iff.mp added)

theorem extends_of_addDirItem
    {items next : ItemMap} {dir hash : Nat} {entry : Bytes}
    (added : addDirItem items dir hash entry = .ok next) :
    Extends items next (btrfsKey dir BtrfsKeyType.dirItem hash) entry := by
  rw [addDirItem] at added
  split at added
  · exact extends_of_addItem added
  · rename_i old found
    exact Or.inr ⟨old, found, (Except.ok.inj added).symm⟩

theorem extends_of_addInodeRef
    {items next : ItemMap} {inode parent index : Nat} {name : Bytes}
    (added : addInodeRef items inode parent index name = .ok next) :
    Extends items next (btrfsKey inode BtrfsKeyType.inodeRef parent)
      (InodeRef.bytes ⟨index, name⟩) := by
  rw [addInodeRef] at added
  split at added
  · rename_i old found
    exact Or.inr ⟨old, found, (Except.ok.inj added).symm⟩
  · exact extends_of_addItem added

section Packed

variable {α : Type*} {type : Nat} {encode : α → Bytes}
  {parse : Bytes → Option (α × Nat)} {items next : ItemMap}

/-- The records of a list of entries. -/
def entriesView
    (type : Nat) (parse : Bytes → Option (α × Nat))
    (entries : List (BtrfsKey × Bytes)) : List (BtrfsKey × α) :=
  entries.flatMap fun entry =>
    if entry.1.type = type then
      ((decode parse entry.2).getD []).map fun record => (entry.1, record)
    else []

theorem entriesView_cons
    (entry : BtrfsKey × Bytes) (rest : List (BtrfsKey × Bytes)) :
    entriesView type parse (entry :: rest) =
      (if entry.1.type = type then
        ((decode parse entry.2).getD []).map fun record => (entry.1, record)
      else []) ++ entriesView type parse rest :=
  List.flatMap_cons

theorem packedView_eq :
    packedView type parse items = entriesView type parse items.entries :=
  rfl

/-- An item that gets a record of its type adds that record to the view. -/
theorem Extends.packed
    (packed : Packed type encode parse items)
    {key : BtrfsKey} {record : α}
    (extended : Extends items next key (encode record))
    (sameType : key.type = type)
    (reads : Reads encode parse record) :
    Packed type encode parse next ∧
      (packedView type parse next).Perm
        ((key, record) :: packedView type parse items) := by
  simp only [packedView_eq]
  rcases extended with ⟨fresh, rfl⟩ | ⟨old, found, rfl⟩
  · have single : encode record = [record].flatMap encode := by
      simp
    have readSingle : ∀ other ∈ [record], Reads encode parse other := by
      simpa using reads
    constructor
    · intro entry member entryType
      rcases (SortedMap.mem_emplace_iff fresh).mp member with rfl | old
      · exact ⟨[record], single, readSingle⟩
      · exact packed entry old entryType
    · have decoded : decode parse (encode record) = some [record] := by
        rw [single, decode_flatMap readSingle]
      refine ((SortedMap.perm_emplace _ fresh).flatMap_right _).trans ?_
      rw [← entriesView, entriesView_cons, if_pos sameType, decoded]
      exact List.Perm.refl _
  · have member := SortedMap.find?_eq_some_iff.mp found
    obtain ⟨records, oldEq, oldReads⟩ := packed _ member sameType
    simp only at oldEq
    have longer : old ++ encode record = (records ++ [record]).flatMap encode := by
      simp [oldEq]
    have readLonger : ∀ other ∈ records ++ [record], Reads encode parse other := by
      intro other otherMember
      rcases List.mem_append.mp otherMember with before | last
      · exact oldReads other before
      · rwa [List.mem_singleton.mp last]
    constructor
    · intro entry entryMember entryType
      rcases SortedMap.mem_assign_iff.mp entryMember with rfl | ⟨kept, -⟩
      · exact ⟨records ++ [record], longer, readLonger⟩
      · exact packed entry kept entryType
    · have decoded : decode parse (old ++ encode record) =
          some (records ++ [record]) := by
        rw [longer, decode_flatMap readLonger]
      have decodedOld : decode parse old = some records := by
        rw [oldEq, decode_flatMap oldReads]
      have after : (entriesView type parse
          (items.assign key (old ++ encode record)).entries).Perm
            (entriesView type parse
              ((key, old ++ encode record) :: (items.erase key).entries)) :=
        (SortedMap.perm_assign items key _).flatMap_right _
      have before : (entriesView type parse items.entries).Perm
            (entriesView type parse ((key, old) :: (items.erase key).entries)) :=
        (SortedMap.perm_cons_erase member).flatMap_right _
      rw [entriesView_cons, if_pos sameType, decoded] at after
      rw [entriesView_cons, if_pos sameType, decodedOld] at before
      refine after.trans (List.Perm.trans ?_ (before.symm.cons _))
      simp only [Option.getD_some, List.map_append, List.map_cons, List.map_nil]
      rw [List.append_assoc, List.singleton_append]
      exact List.perm_middle

/-- An item of another type does not change the view. -/
theorem Extends.packed_other
    (packed : Packed type encode parse items)
    {key : BtrfsKey} {record : Bytes}
    (extended : Extends items next key record)
    (otherType : key.type ≠ type) :
    Packed type encode parse next ∧
      (packedView type parse next).Perm (packedView type parse items) := by
  simp only [packedView_eq]
  rcases extended with ⟨fresh, rfl⟩ | ⟨old, found, rfl⟩
  · constructor
    · intro entry member entryType
      rcases (SortedMap.mem_emplace_iff fresh).mp member with rfl | old
      · exact absurd entryType otherType
      · exact packed entry old entryType
    · refine ((SortedMap.perm_emplace _ fresh).flatMap_right _).trans ?_
      rw [← entriesView, entriesView_cons, if_neg otherType]
      exact List.Perm.refl _
  · have member := SortedMap.find?_eq_some_iff.mp found
    constructor
    · intro entry entryMember entryType
      rcases SortedMap.mem_assign_iff.mp entryMember with rfl | ⟨kept, -⟩
      · exact absurd entryType otherType
      · exact packed entry kept entryType
    · have after : (entriesView type parse
          (items.assign key (old ++ record)).entries).Perm
            (entriesView type parse
              ((key, old ++ record) :: (items.erase key).entries)) :=
        (SortedMap.perm_assign items key _).flatMap_right _
      have before : (entriesView type parse items.entries).Perm
            (entriesView type parse ((key, old) :: (items.erase key).entries)) :=
        (SortedMap.perm_cons_erase member).flatMap_right _
      rw [entriesView_cons, if_neg otherType] at after before
      exact after.trans before.symm

end Packed

/-! ## One call -/

/-- A call together with the sequence number that it used. -/
structure Link where
  call : LinkCall
  seq : Nat
deriving DecidableEq

namespace Link

variable (link : Link)

/-- What a link adds to the `DIR_ITEM`s. -/
def dirItem : BtrfsKey × DirItem :=
  (btrfsKey link.call.dir.toNat BtrfsKeyType.dirItem (nameHash link.call.name),
    inodeDirItem link.call.inode.toNat link.call.type.toNat link.call.name)

/-- What a link adds to the `DIR_INDEX` items. -/
def dirIndex : BtrfsKey × DirItem :=
  (btrfsKey link.call.dir.toNat BtrfsKeyType.dirIndex link.seq,
    inodeDirItem link.call.inode.toNat link.call.type.toNat link.call.name)

/-- What a link adds to the `INODE_REF`s. -/
def inodeRef : BtrfsKey × InodeRef :=
  (btrfsKey link.call.inode.toNat BtrfsKeyType.inodeRef link.call.dir.toNat,
    ⟨link.seq, link.call.name⟩)

end Link

/-- The three views of a root, and the other tables that a link changes. -/
structure Linked
    (root : Root) (dirItems dirIndexes : List (BtrfsKey × DirItem))
    (inodeRefs : List (BtrfsKey × InodeRef)) : Prop where
  dirItem :
    Packed BtrfsKeyType.dirItem DirItem.bytes readDirItem root.items ∧
      (packedView BtrfsKeyType.dirItem readDirItem root.items).Perm dirItems
  dirIndex :
    Packed BtrfsKeyType.dirIndex DirItem.bytes readDirItem root.items ∧
      (packedView BtrfsKeyType.dirIndex readDirItem root.items).Perm dirIndexes
  inodeRef :
    Packed BtrfsKeyType.inodeRef InodeRef.bytes readInodeRef root.items ∧
      (packedView BtrfsKeyType.inodeRef readInodeRef root.items).Perm inodeRefs
  indexKeys : (dirIndexes.map Prod.fst).Nodup
  seqs_lt : ∀ dir seq, root.dirSeqs.find? dir = some seq → seq < wordModulus
  sizes :
    ∀ dir, (root.dirSize.find? dir).getD 0 =
      ((dirIndexes.filter fun entry => entry.1.objectid = dir).map
        fun entry => entry.2.name.length * 2).sum

/-- What a successful call has done. -/
theorem linkInode_ok
    {root next : Root} {inode dir type : Nat} {name : Bytes}
    (linked : linkInode root inode dir name type = .ok next) :
    ∃ seq first second,
      (root.dirSeqs.find? dir = some seq ∨
          root.dirSeqs.find? dir = none ∧ seq = 2) ∧
        Extends root.items first
          (btrfsKey dir BtrfsKeyType.dirItem (nameHash name))
          (inodeDirItem inode type name).bytes ∧
        btrfsKey dir BtrfsKeyType.dirIndex seq ∉ first.keys ∧
        Extends first second (btrfsKey dir BtrfsKeyType.dirIndex seq)
          (inodeDirItem inode type name).bytes ∧
        Extends second next.items (btrfsKey inode BtrfsKeyType.inodeRef dir)
          (InodeRef.bytes ⟨seq, name⟩) ∧
        next.dirSize =
          root.dirSize.assign dir
            ((root.dirSize.find? dir).getD 0 + name.length * 2) ∧
        ∀ other, next.dirSeqs.find? other =
          if other = dir then some ((seq + 1) % wordModulus)
          else root.dirSeqs.find? other := by
  set dirSeqs :=
    if (root.dirSeqs.find? dir).isNone then root.dirSeqs.assign dir 2
    else root.dirSeqs with dirSeqsEq
  have seqs (other : Nat) (different : other ≠ dir) :
      dirSeqs.find? other = root.dirSeqs.find? other := by
    rw [dirSeqsEq]
    split_ifs
    · rw [SortedMap.find?_assign, if_neg different]
    · rfl
  have seqCases :
      root.dirSeqs.find? dir = some ((dirSeqs.find? dir).getD 0) ∨
        root.dirSeqs.find? dir = none ∧ (dirSeqs.find? dir).getD 0 = 2 := by
    rw [dirSeqsEq]
    cases found : root.dirSeqs.find? dir with
    | none =>
        right
        simp [SortedMap.find?_assign]
    | some value =>
        left
        simp [found]
  simp only [linkInode, ← dirSeqsEq, bind, Except.bind] at linked
  split at linked
  · simp at linked
  · rename_i first firstAdded
    split at linked
    · simp at linked
    · rename_i second secondAdded
      split at linked
      · simp at linked
      · rename_i third thirdAdded
        obtain rfl := Except.ok.inj linked
        refine
          ⟨(dirSeqs.find? dir).getD 0, first, second, seqCases,
            extends_of_addDirItem firstAdded, (addItem_ok_iff.mp secondAdded).1,
            extends_of_addItem secondAdded, extends_of_addInodeRef thirdAdded,
            rfl, fun other => ?_⟩
        simp only [SortedMap.find?_assign]
        split_ifs with same
        · rfl
        · exact seqs other same

theorem mem_keys_of_mem_packedView
    {α : Type*} {type : Nat} {parse : Bytes → Option (α × Nat)}
    {items : ItemMap} {entry : BtrfsKey × α}
    (member : entry ∈ packedView type parse items) :
    entry.1 ∈ items.keys := by
  obtain ⟨item, itemMember, found⟩ := List.mem_flatMap.mp member
  split_ifs at found
  · obtain ⟨record, -, rfl⟩ := List.mem_map.mp found
    exact SortedMap.mem_keys_iff.mpr ⟨item.2, itemMember⟩
  · simp at found

theorem inodeDirItem_fits
    (inode : Nat) {type : Nat} {name : Bytes}
    (typeSmall : type < 2 ^ 8) (named : name.length ≤ 255) :
    (inodeDirItem inode type name).Fits where
  transid_lt := show 1 < 2 ^ 64 by decide
  dataLen_eq := rfl
  type_lt := typeSmall
  name_lt := lt_of_le_of_lt named (by decide)

theorem btrfsKey_type_ne
    {objectid type offset other : Nat} (different : type % 2 ^ 8 ≠ other) :
    (btrfsKey objectid type offset).type ≠ other :=
  different

/-- A call adds one and the same link to all three views. -/
theorem Linked.link
    {root next : Root} {dirItems dirIndexes : List (BtrfsKey × DirItem)}
    {inodeRefs : List (BtrfsKey × InodeRef)}
    (linked : Linked root dirItems dirIndexes inodeRefs)
    {call : LinkCall} (named : call.name.length ≤ 255)
    (done :
      linkInode root call.inode.toNat call.dir.toNat call.name call.type.toNat =
        .ok next) :
    ∃ link : Link, link.call = call ∧
      Linked next (link.dirItem :: dirItems) (link.dirIndex :: dirIndexes)
        (link.inodeRef :: inodeRefs) := by
  obtain ⟨seq, first, second, seqCases, firstStep, fresh, secondStep, thirdStep,
    sizeEq, seqsEq⟩ := linkInode_ok done
  have seqSmall : seq < wordModulus := by
    rcases seqCases with found | ⟨-, rfl⟩
    · exact linked.seqs_lt _ _ found
    · decide
  have fits := inodeDirItem_fits call.inode.toNat
    (by simpa using call.type.toNat_lt) named
  have refFits : (⟨seq, call.name⟩ : InodeRef).Fits :=
    ⟨seqSmall, lt_of_le_of_lt named (by decide)⟩
  refine ⟨⟨call, seq⟩, rfl, ?_, ?_, ?_, ?_, ?_, ?_⟩
  · obtain ⟨firstPacked, firstView⟩ :=
      firstStep.packed linked.dirItem.1 rfl fits.reads
    obtain ⟨secondPacked, secondView⟩ :=
      secondStep.packed_other firstPacked (btrfsKey_type_ne (by decide))
    obtain ⟨thirdPacked, thirdView⟩ :=
      thirdStep.packed_other secondPacked (btrfsKey_type_ne (by decide))
    exact ⟨thirdPacked, thirdView.trans
      (secondView.trans (firstView.trans (linked.dirItem.2.cons _)))⟩
  · obtain ⟨firstPacked, firstView⟩ :=
      firstStep.packed_other linked.dirIndex.1 (btrfsKey_type_ne (by decide))
    obtain ⟨secondPacked, secondView⟩ := secondStep.packed firstPacked rfl fits.reads
    obtain ⟨thirdPacked, thirdView⟩ :=
      thirdStep.packed_other secondPacked (btrfsKey_type_ne (by decide))
    exact ⟨thirdPacked, thirdView.trans
      (secondView.trans ((firstView.trans linked.dirIndex.2).cons _))⟩
  · obtain ⟨firstPacked, firstView⟩ :=
      firstStep.packed_other linked.inodeRef.1 (btrfsKey_type_ne (by decide))
    obtain ⟨secondPacked, secondView⟩ :=
      secondStep.packed_other firstPacked (btrfsKey_type_ne (by decide))
    obtain ⟨thirdPacked, thirdView⟩ := thirdStep.packed secondPacked rfl refFits.reads
    exact ⟨thirdPacked, thirdView.trans
      ((secondView.trans (firstView.trans linked.inodeRef.2)).cons _)⟩
  · have firstView :=
      (firstStep.packed_other linked.dirIndex.1
        (btrfsKey_type_ne (by decide))).2
    refine List.nodup_cons.mpr ⟨fun present => fresh ?_, linked.indexKeys⟩
    obtain ⟨entry, member, same⟩ := List.mem_map.mp present
    have inView := (firstView.trans linked.dirIndex.2).mem_iff.mpr member
    have inKeys := mem_keys_of_mem_packedView inView
    rw [same] at inKeys
    exact inKeys
  · intro dir value found
    rw [seqsEq] at found
    split_ifs at found
    · obtain rfl := Option.some.inj found
      exact Nat.mod_lt _ (by decide)
    · exact linked.seqs_lt dir value found
  · intro dir
    have small : call.dir.toNat % 2 ^ 64 = call.dir.toNat :=
      Nat.mod_eq_of_lt call.dir.toNat_lt
    have key : (Link.dirIndex ⟨call, seq⟩).1.objectid = call.dir.toNat := small
    rw [sizeEq, SortedMap.find?_assign, List.filter_cons, key]
    by_cases same : dir = call.dir.toNat
    · subst same
      rw [if_pos rfl, if_pos (by simp), List.map_cons, List.sum_cons,
        Option.getD_some, linked.sizes]
      exact Nat.add_comm _ _
    · rw [if_neg same, linked.sizes, if_neg (by simpa using Ne.symm same)]

/-! ## Runs -/

/-- Every run of calls that returns adds its links to all three views. -/
theorem Linked.run
    {calls : List LinkCall} (named : ∀ call ∈ calls, call.name.length ≤ 255)
    {root final : Root} {dirItems dirIndexes : List (BtrfsKey × DirItem)}
    {inodeRefs : List (BtrfsKey × InodeRef)}
    (linked : Linked root dirItems dirIndexes inodeRefs)
    (done : linkInodes calls root = .ok final) :
    ∃ links : List Link, links.map Link.call = calls ∧
      Linked final ((links.map Link.dirItem).reverse ++ dirItems)
        ((links.map Link.dirIndex).reverse ++ dirIndexes)
        ((links.map Link.inodeRef).reverse ++ inodeRefs) := by
  induction calls generalizing root dirItems dirIndexes inodeRefs with
  | nil =>
      obtain rfl := Except.ok.inj done
      exact ⟨[], rfl, linked⟩
  | cons call rest induction =>
      simp only [linkInodes, bind, Except.bind] at done
      split at done
      · simp at done
      · rename_i next step
        obtain ⟨link, callEq, nextLinked⟩ :=
          linked.link (named call (by simp)) step
        obtain ⟨links, callsEq, finalLinked⟩ :=
          induction (fun other member => named other (by simp [member]))
            nextLinked done
        refine ⟨link :: links, by rw [List.map_cons, callEq, callsEq], ?_⟩
        simpa only [List.map_cons, List.reverse_cons, List.append_assoc,
          List.singleton_append] using finalLinked

/-- The next sequence number of a directory. -/
def nextSeq (root : Root) (dir : Nat) : Nat :=
  (root.dirSeqs.find? dir).getD 2

/-- No index item has the next sequence number of its directory, or a later one. -/
structure SeqsAhead (root : Root) (limit : Nat) : Prop where
  ahead :
    ∀ key ∈ root.items.keys, key.type = BtrfsKeyType.dirIndex →
      key.offset < nextSeq root key.objectid
  bounded : ∀ dir, nextSeq root dir ≤ limit

theorem Extends.mem_keys_iff
    {items next : ItemMap} {key : BtrfsKey} {record : Bytes}
    (extended : Extends items next key record) (other : BtrfsKey) :
    other ∈ next.keys ↔ other = key ∨ other ∈ items.keys := by
  rcases extended with ⟨fresh, rfl⟩ | ⟨old, found, rfl⟩
  · simp only [SortedMap.mem_keys_iff, SortedMap.mem_emplace_iff fresh,
      Prod.mk.injEq, exists_or, exists_and_left, exists_eq, and_true]
  · have member := SortedMap.find?_eq_some_iff.mp found
    simp only [SortedMap.mem_keys_iff, SortedMap.mem_assign_iff, Prod.mk.injEq,
      exists_or, exists_and_left, exists_and_right, exists_eq, and_true, ne_eq]
    by_cases same : other = key
    · simp [same]
    · simp [same]

theorem addDirItem_returns (items : ItemMap) (dir hash : Nat) (entry : Bytes) :
    ∃ next, addDirItem items dir hash entry = .ok next := by
  rw [addDirItem]
  split
  · rename_i absent
    exact ⟨_, addItem_ok_iff.mpr ⟨SortedMap.find?_eq_none_iff.mp absent, rfl⟩⟩
  · exact ⟨_, rfl⟩

theorem addInodeRef_returns
    (items : ItemMap) (inode parent index : Nat) (name : Bytes) :
    ∃ next, addInodeRef items inode parent index name = .ok next := by
  rw [addInodeRef]
  split
  · exact ⟨_, rfl⟩
  · rename_i absent
    exact ⟨_, addItem_ok_iff.mpr ⟨SortedMap.find?_eq_none_iff.mp absent, rfl⟩⟩

/-- While sequence numbers do not wrap a call returns and keeps them ahead. -/
theorem SeqsAhead.link
    {root : Root} {limit : Nat} (ahead : SeqsAhead root limit)
    (small : limit + 1 < wordModulus) (call : LinkCall) :
    ∃ next,
      linkInode root call.inode.toNat call.dir.toNat call.name
          call.type.toNat = .ok next ∧
        SeqsAhead next (limit + 1) := by
  have dirSmall : call.dir.toNat < 2 ^ 64 := call.dir.toNat_lt
  have seqEq :
      (if (root.dirSeqs.find? call.dir.toNat).isNone then
          root.dirSeqs.assign call.dir.toNat 2
        else root.dirSeqs).find? call.dir.toNat =
        some (nextSeq root call.dir.toNat) := by
    rw [nextSeq]
    cases found : root.dirSeqs.find? call.dir.toNat with
    | none => simp [SortedMap.find?_assign]
    | some value => simp [found]
  have seqBound := ahead.bounded call.dir.toNat
  have seqSmall : nextSeq root call.dir.toNat % 2 ^ 64 =
      nextSeq root call.dir.toNat :=
    Nat.mod_eq_of_lt (lt_of_le_of_lt seqBound (Nat.lt_of_succ_lt small))
  have done : ∃ next,
      linkInode root call.inode.toNat call.dir.toNat call.name
        call.type.toNat = .ok next := by
    obtain ⟨first, firstAdded⟩ := addDirItem_returns root.items call.dir.toNat
      (nameHash call.name)
      (inodeDirItem call.inode.toNat call.type.toNat call.name).bytes
    have fresh : btrfsKey call.dir.toNat BtrfsKeyType.dirIndex
        (nextSeq root call.dir.toNat) ∉ first.keys := by
      intro present
      rcases ((extends_of_addDirItem firstAdded).mem_keys_iff _).mp present with
        same | old
      · exact absurd (congrArg BtrfsKey.type same)
          (by rw [btrfsKey_type, btrfsKey_type]; decide)
      · have before := ahead.ahead _ old rfl
        rw [btrfsKey_offset, btrfsKey_objectid, Nat.mod_eq_of_lt dirSmall,
          seqSmall] at before
        exact absurd before (Nat.lt_irrefl _)
    have secondAdded := addItem_ok_iff.mpr
      ⟨fresh, (rfl : first.emplace _
        (inodeDirItem call.inode.toNat call.type.toNat call.name).bytes = _)⟩
    obtain ⟨third, thirdAdded⟩ := addInodeRef_returns
      (first.emplace
        (btrfsKey call.dir.toNat BtrfsKeyType.dirIndex
          (nextSeq root call.dir.toNat))
        (inodeDirItem call.inode.toNat call.type.toNat call.name).bytes)
      call.inode.toNat call.dir.toNat (nextSeq root call.dir.toNat) call.name
    simp only [linkInode, bind, Except.bind, firstAdded, seqEq, Option.getD_some,
      secondAdded, thirdAdded]
    exact ⟨_, rfl⟩
  obtain ⟨next, returned⟩ := done
  refine ⟨next, returned, ?_⟩
  obtain ⟨seq, first, second, seqCases, firstStep, -, secondStep, thirdStep, -,
    seqsEq⟩ := linkInode_ok returned
  have seqIs : seq = nextSeq root call.dir.toNat := by
    rw [nextSeq]
    rcases seqCases with found | ⟨absent, rfl⟩
    · rw [found]
      rfl
    · rw [absent]
      rfl
  have nextEq (dir : Nat) : nextSeq next dir =
      if dir = call.dir.toNat then nextSeq root call.dir.toNat + 1
      else nextSeq root dir := by
    rw [nextSeq, seqsEq]
    split_ifs
    · rw [Option.getD_some, seqIs]
      exact Nat.mod_eq_of_lt (lt_of_le_of_lt (Nat.succ_le_succ seqBound) small)
    · rfl
  constructor
  · intro key member keyType
    rw [nextEq]
    rcases (thirdStep.mem_keys_iff _).mp member with rfl | member
    · exact absurd keyType (btrfsKey_type_ne (by decide))
    · rcases (secondStep.mem_keys_iff _).mp member with rfl | member
      · rw [btrfsKey_objectid, Nat.mod_eq_of_lt dirSmall, if_pos rfl,
          btrfsKey_offset, seqIs, seqSmall]
        exact Nat.lt_succ_self _
      · rcases (firstStep.mem_keys_iff _).mp member with rfl | member
        · exact absurd keyType (btrfsKey_type_ne (by decide))
        · have before := ahead.ahead key member keyType
          split_ifs with same
          · rw [same] at before
            exact Nat.lt_succ_of_lt before
          · exact before
  · intro dir
    rw [nextEq]
    split_ifs
    · exact Nat.succ_le_succ seqBound
    · exact (ahead.bounded dir).trans (Nat.le_succ _)

theorem SeqsAhead.run
    {calls : List LinkCall} {root : Root} {limit : Nat}
    (ahead : SeqsAhead root limit)
    (small : limit + calls.length < wordModulus) :
    ∃ final, linkInodes calls root = .ok final := by
  induction calls generalizing root limit with
  | nil => exact ⟨root, rfl⟩
  | cons call rest induction =>
      rw [List.length_cons] at small
      obtain ⟨next, step, nextAhead⟩ := ahead.link (by omega) call
      obtain ⟨final, done⟩ := induction nextAhead (by omega)
      refine ⟨final, ?_⟩
      simp only [linkInodes, bind, Except.bind, step, done]

/-! ## The filesystem tree before `create_inodes` -/

/-- The inode item of a directory as `populate_fstree` fills it. -/
def directoryInodeItem : Bytes :=
  le 8 1 ++ le 8 1 ++ le 8 0 ++ le 8 0 ++ le 8 0 ++ le 4 1 ++ le 4 0 ++
    le 4 0 ++ le 4 0o40755 ++ le 8 0 ++ le 8 0 ++ le 8 1 ++
    List.replicate 80 0

/-- The name `..`. -/
def parentName : Bytes := [0x2e, 0x2e]

/-- The name of the subvolume with the image, `image`. -/
def subvolName : Bytes := [0x69, 0x6d, 0x61, 0x67, 0x65]

/-- The directory entry of the subvolume with the image. -/
def subvolDirItem : DirItem :=
  { location :=
      btrfsKey imageSubvolId BtrfsKeyType.rootItem 0xffffffffffffffff
    transid := 1
    dataLen := 0
    type := dirItemTypeDir
    name := subvolName }

/-- `populate_fstree`. -/
def populateFstree (root : Root) : Except ConvertError Root := do
  let items ← addItem root.items firstFreeObjectid BtrfsKeyType.inodeItem 0
    directoryInodeItem
  let items ← addInodeRef items firstFreeObjectid firstFreeObjectid 0 parentName
  .ok { root with items := items }

/-- What `add_image_subvol` adds to the filesystem tree. -/
def addImageEntry (fstree : Root) : Except ConvertError Root := do
  let items ← addItem fstree.items firstFreeObjectid BtrfsKeyType.dirItem
    (nameHash subvolName) subvolDirItem.bytes
  let items ← addItem items firstFreeObjectid BtrfsKeyType.dirIndex 2
    subvolDirItem.bytes
  let size :=
    (fstree.dirSize.find? firstFreeObjectid).getD 0 + subvolName.length * 2
  .ok
    { fstree with
      items := items
      dirSize := fstree.dirSize.assign firstFreeObjectid size }

/-- The filesystem tree with which `create_inodes` starts to link inodes. -/
def fstreeStart : Except ConvertError Root := do
  let fstree ← populateFstree { id := 5 }
  let fstree ← addImageEntry fstree
  .ok { fstree with dirSeqs := fstree.dirSeqs.assign firstFreeObjectid 3 }

/-- The entry of the image subvolume among the `DIR_ITEM`s. -/
def subvolDirItemEntry : BtrfsKey × DirItem :=
  (btrfsKey firstFreeObjectid BtrfsKeyType.dirItem (nameHash subvolName),
    subvolDirItem)

/-- The entry of the image subvolume among the `DIR_INDEX` items. -/
def subvolDirIndexEntry : BtrfsKey × DirItem :=
  (btrfsKey firstFreeObjectid BtrfsKeyType.dirIndex 2, subvolDirItem)

/-- The reference of the root directory to itself. -/
def rootInodeRefEntry : BtrfsKey × InodeRef :=
  (btrfsKey firstFreeObjectid BtrfsKeyType.inodeRef firstFreeObjectid,
    ⟨0, parentName⟩)

theorem fstreeStart_linked :
    ∃ start, fstreeStart = .ok start ∧
      Linked start [subvolDirItemEntry] [subvolDirIndexEntry]
        [rootInodeRefEntry] ∧
      SeqsAhead start 3 := by
  have emptyFresh (key : BtrfsKey) : key ∉ (SortedMap.empty : ItemMap).keys :=
    List.not_mem_nil
  set first := (SortedMap.empty : ItemMap).emplace
    (btrfsKey firstFreeObjectid BtrfsKeyType.inodeItem 0) directoryInodeItem
    with firstEq
  have firstAdded : addItem SortedMap.empty firstFreeObjectid
      BtrfsKeyType.inodeItem 0 directoryInodeItem = .ok first :=
    addItem_ok_iff.mpr ⟨emptyFresh _, rfl⟩
  obtain ⟨second, secondAdded⟩ := addInodeRef_returns first firstFreeObjectid
    firstFreeObjectid 0 parentName
  have firstStep := extends_of_addItem firstAdded
  have secondStep := extends_of_addInodeRef secondAdded
  have secondKeys (key : BtrfsKey) (member : key ∈ second.keys) :
      key.type = BtrfsKeyType.inodeRef ∨ key.type = BtrfsKeyType.inodeItem := by
    rcases (secondStep.mem_keys_iff key).mp member with rfl | member
    · exact Or.inl rfl
    · rcases (firstStep.mem_keys_iff key).mp member with rfl | member
      · exact Or.inr rfl
      · exact absurd member (emptyFresh key)
  have thirdFresh : btrfsKey firstFreeObjectid BtrfsKeyType.dirItem
      (nameHash subvolName) ∉ second.keys := by
    intro member
    rcases secondKeys _ member with type | type
    · exact absurd type (btrfsKey_type_ne (by decide))
    · exact absurd type (btrfsKey_type_ne (by decide))
  set third := second.emplace
    (btrfsKey firstFreeObjectid BtrfsKeyType.dirItem (nameHash subvolName))
    subvolDirItem.bytes with thirdEq
  have thirdAdded : addItem second firstFreeObjectid BtrfsKeyType.dirItem
      (nameHash subvolName) subvolDirItem.bytes = .ok third :=
    addItem_ok_iff.mpr ⟨thirdFresh, rfl⟩
  have thirdStep := extends_of_addItem thirdAdded
  have thirdKeys (key : BtrfsKey) (member : key ∈ third.keys) :
      key.type ≠ BtrfsKeyType.dirIndex := by
    rcases (thirdStep.mem_keys_iff key).mp member with rfl | member
    · exact btrfsKey_type_ne (by decide)
    · rcases secondKeys key member with type | type <;> rw [type] <;> decide
  have fourthFresh :
      btrfsKey firstFreeObjectid BtrfsKeyType.dirIndex 2 ∉ third.keys :=
    fun member => thirdKeys _ member rfl
  have fourthAdded : addItem third firstFreeObjectid BtrfsKeyType.dirIndex 2
      subvolDirItem.bytes =
        .ok (third.emplace (btrfsKey firstFreeObjectid BtrfsKeyType.dirIndex 2)
          subvolDirItem.bytes) :=
    addItem_ok_iff.mpr ⟨fourthFresh, rfl⟩
  have fourthStep := extends_of_addItem fourthAdded
  have fits : subvolDirItem.Fits :=
    ⟨show 1 < 2 ^ 64 by decide, rfl, show 2 < 2 ^ 8 by decide,
      show 5 < 2 ^ 16 by decide⟩
  have refFits : (⟨0, parentName⟩ : InodeRef).Fits :=
    ⟨show 0 < 2 ^ 64 by decide, show 2 < 2 ^ 16 by decide⟩
  have emptyDirs (type : Nat) :
      Packed type DirItem.bytes readDirItem SortedMap.empty :=
    fun entry member => absurd member List.not_mem_nil
  have emptyRefs :
      Packed BtrfsKeyType.inodeRef InodeRef.bytes readInodeRef SortedMap.empty :=
    fun entry member => absurd member List.not_mem_nil
  have started : fstreeStart =
      .ok
        { id := 5
          items :=
            third.emplace (btrfsKey firstFreeObjectid BtrfsKeyType.dirIndex 2)
              subvolDirItem.bytes
          dirSize := (SortedMap.empty : SortedMap Nat Nat).assign
            firstFreeObjectid (0 + subvolName.length * 2)
          dirSeqs := (SortedMap.empty : SortedMap Nat Nat).assign
            firstFreeObjectid 3 } := by
    simp only [fstreeStart, populateFstree, addImageEntry, bind, Except.bind,
      firstAdded, secondAdded, thirdAdded, fourthAdded]
    rfl
  refine ⟨_, started, ⟨?_, ?_, ?_, ?_, ?_, ?_⟩, ?_⟩
  · obtain ⟨packed, view⟩ :=
      firstStep.packed_other (emptyDirs BtrfsKeyType.dirItem)
        (btrfsKey_type_ne (by decide))
    obtain ⟨packed, view'⟩ :=
      secondStep.packed_other packed (btrfsKey_type_ne (by decide))
    obtain ⟨packed, view''⟩ := thirdStep.packed packed rfl fits.reads
    obtain ⟨packed, view'''⟩ :=
      fourthStep.packed_other packed (btrfsKey_type_ne (by decide))
    exact ⟨packed, view'''.trans (view''.trans ((view'.trans view).cons _))⟩
  · obtain ⟨packed, view⟩ :=
      firstStep.packed_other (emptyDirs BtrfsKeyType.dirIndex)
        (btrfsKey_type_ne (by decide))
    obtain ⟨packed, view'⟩ :=
      secondStep.packed_other packed (btrfsKey_type_ne (by decide))
    obtain ⟨packed, view''⟩ :=
      thirdStep.packed_other packed (btrfsKey_type_ne (by decide))
    obtain ⟨packed, view'''⟩ := fourthStep.packed packed rfl fits.reads
    exact ⟨packed, view'''.trans ((view''.trans (view'.trans view)).cons _)⟩
  · obtain ⟨packed, view⟩ :=
      firstStep.packed_other emptyRefs (btrfsKey_type_ne (by decide))
    obtain ⟨packed, view'⟩ := secondStep.packed packed rfl refFits.reads
    obtain ⟨packed, view''⟩ :=
      thirdStep.packed_other packed (btrfsKey_type_ne (by decide))
    obtain ⟨packed, view'''⟩ :=
      fourthStep.packed_other packed (btrfsKey_type_ne (by decide))
    exact ⟨packed, view'''.trans (view''.trans (view'.trans (view.cons _)))⟩
  · exact List.nodup_singleton _
  · intro dir seq found
    rw [SortedMap.find?_assign] at found
    split_ifs at found
    · obtain rfl := Option.some.inj found
      decide
    · exact absurd found (by simp [SortedMap.find?, SortedMap.empty])
  · intro dir
    rw [SortedMap.find?_assign, List.filter_cons]
    by_cases same : dir = firstFreeObjectid
    · subst same
      rfl
    · have owner : subvolDirIndexEntry.1.objectid = firstFreeObjectid := rfl
      have other : ¬ decide (subvolDirIndexEntry.1.objectid = dir) = true := by
        rw [owner]
        simpa using fun equal => same (Eq.symm equal)
      rw [if_neg same, if_neg other]
      rfl
  · constructor
    · intro key member keyType
      rcases (fourthStep.mem_keys_iff key).mp member with rfl | member
      · rw [nextSeq, btrfsKey_objectid, btrfsKey_offset, SortedMap.find?_assign,
          if_pos (by decide)]
        decide
      · exact absurd keyType (thirdKeys key member)
    · intro dir
      rw [nextSeq, SortedMap.find?_assign]
      split_ifs
      · exact le_rfl
      · show (2 : Nat) ≤ 3
        decide

/--
Every run of calls adds the same links to the three views: a link has one
sequence number, found both in its index item and in its reference.  Sequence
numbers are distinct within a directory, and the size of a directory is twice
the sum of the lengths of its names.
-/
theorem linkInodes_views_agree
    (calls : List LinkCall)
    (named : ∀ call ∈ calls, call.name.length ≤ 255) :
    ∃ start, fstreeStart = .ok start ∧
      (∀ final, linkInodes calls start = .ok final →
        ∃ links : List Link, links.map Link.call = calls ∧
          (packedView BtrfsKeyType.dirItem readDirItem final.items).Perm
            (subvolDirItemEntry :: links.map Link.dirItem) ∧
          (packedView BtrfsKeyType.dirIndex readDirItem final.items).Perm
            (subvolDirIndexEntry :: links.map Link.dirIndex) ∧
          (packedView BtrfsKeyType.inodeRef readInodeRef final.items).Perm
            (rootInodeRefEntry :: links.map Link.inodeRef) ∧
          ((packedView BtrfsKeyType.dirIndex readDirItem final.items).map
            Prod.fst).Nodup ∧
          (∀ entry ∈ final.items.entries,
            (entry.1.type = BtrfsKeyType.dirItem ∨
                entry.1.type = BtrfsKeyType.dirIndex →
              (decode readDirItem entry.2).isSome) ∧
              (entry.1.type = BtrfsKeyType.inodeRef →
                (decode readInodeRef entry.2).isSome)) ∧
          ∀ dir, (final.dirSize.find? dir).getD 0 =
            (((packedView BtrfsKeyType.dirIndex readDirItem final.items).filter
              fun entry => entry.1.objectid = dir).map
                fun entry => entry.2.name.length * 2).sum) ∧
      (calls.length < wordModulus - 3 →
        ∃ final, linkInodes calls start = .ok final) := by
  obtain ⟨start, started, linked, ahead⟩ := fstreeStart_linked
  refine ⟨start, started, fun final done => ?_, fun small => ?_⟩
  · obtain ⟨links, callsEq, final⟩ := linked.run named done
    have reorder {α : Type} (news : List α) (old : α) :
        (news.reverse ++ [old]).Perm (old :: news) :=
      List.perm_append_comm.trans ((List.reverse_perm news).cons old)
    have decodes {α : Type} {type : Nat} {encode : α → Bytes}
        {parse : Bytes → Option (α × Nat)} {items : ItemMap}
        (packed : Packed type encode parse items)
        {entry : BtrfsKey × Bytes} (member : entry ∈ items.entries)
        (entryType : entry.1.type = type) :
        (decode parse entry.2).isSome := by
      obtain ⟨records, equal, reads⟩ := packed entry member entryType
      rw [equal, decode_flatMap reads]
      rfl
    refine
      ⟨links, callsEq, final.dirItem.2.trans (reorder _ _),
        final.dirIndex.2.trans (reorder _ _), final.inodeRef.2.trans (reorder _ _),
        ?_, ?_, ?_⟩
    · exact (final.dirIndex.2.map Prod.fst).nodup_iff.mpr final.indexKeys
    · intro entry member
      refine ⟨?_, decodes final.inodeRef.1 member⟩
      rintro (isItem | isIndex)
      · exact decodes final.dirItem.1 member isItem
      · exact decodes final.dirIndex.1 member isIndex
    · intro dir
      rw [final.sizes]
      exact (((final.dirIndex.2.filter _).map _).sum_eq).symm
  · apply ahead.run
    have modulus : 3 ≤ wordModulus := by decide
    omega

/-- A file linked twice into one directory, the second time under another name. -/
theorem linkInodes_views_agree_hard_link :
    (let calls : List LinkCall := [⟨512, 256, [97], 1⟩, ⟨512, 256, [98, 99], 1⟩]
    ∃ start final, fstreeStart = .ok start ∧ linkInodes calls start = .ok final ∧
      ∃ links : List Link, links.map Link.call = calls ∧
        (packedView BtrfsKeyType.dirItem readDirItem final.items).Perm
          (subvolDirItemEntry :: links.map Link.dirItem) ∧
        (packedView BtrfsKeyType.dirIndex readDirItem final.items).Perm
          (subvolDirIndexEntry :: links.map Link.dirIndex) ∧
        (packedView BtrfsKeyType.inodeRef readInodeRef final.items).Perm
          (rootInodeRefEntry :: links.map Link.inodeRef)) := by
  intro calls
  obtain ⟨start, started, agrees, returns⟩ :=
    linkInodes_views_agree calls (by decide)
  obtain ⟨final, done⟩ := returns (by decide)
  obtain ⟨links, callsEq, dirItems, dirIndexes, inodeRefs, -⟩ := agrees final done
  exact ⟨start, final, started, done, links, callsEq, dirItems, dirIndexes, inodeRefs⟩

end Ntfs2Btrfs
