import Ntfs2Btrfs.AttributeWalk
import Ntfs2Btrfs.Lib.SearchTree

/-!
# Searching an index

An index is a tree of entries.  Its root lies in the index root attribute and
every other node in an index record; an entry with a subnode ends with the
number of the record of the subtree before it.  `btree_search` looks for an entry by
a key of 32 bits.

Opening an index record, which reads it, looks at its magic number and undoes its
protection, is a parameter; the numbers that it is given are those of the entries.
-/

namespace Ntfs2Btrfs

namespace Index

open ByteStore
open SearchTrees

/-! ## The fields of an index -/

/-- Where the node header of the index root is. -/
def rootNodeHeader : Nat := 16

/-- Where the node header of an index record is. -/
def recordNodeHeader : Nat := 24

/-- `sizeof(index_entry)`. -/
def indexEntrySize : Nat := 16

/-- The first entry of the node with a header. -/
def firstEntry (buf : Bytes) (header : Nat) : Walk Nat :=
  (field buf header 4).map fun offset => header + offset

/-- `file_reference.SegmentNumber` of the entry at an offset. -/
def entryReference (buf : Bytes) (ent : Nat) : Walk Nat :=
  (field buf ent 8).map fun reference => reference % 2 ^ 48

/-- `entry_length`. -/
def entryLength (buf : Bytes) (ent : Nat) : Walk Nat :=
  field buf (ent + 8) 2

/-- `stream_length`. -/
def streamLength (buf : Bytes) (ent : Nat) : Walk Nat :=
  field buf (ent + 10) 2

/-- `flags`. -/
def entryFlags (buf : Bytes) (ent : Nat) : Walk Nat :=
  field buf (ent + 12) 4

/-- `INDEX_ENTRY_SUBNODE`. -/
def HasSubnode (flags : Nat) : Prop :=
  flags % 2 = 1

/-- `INDEX_ENTRY_LAST`. -/
def IsLast (flags : Nat) : Prop :=
  flags / 2 % 2 = 1

instance (flags : Nat) : Decidable (HasSubnode flags) :=
  inferInstanceAs (Decidable (_ = _))

instance (flags : Nat) : Decidable (IsLast flags) :=
  inferInstanceAs (Decidable (_ = _))

/-- The key of an entry. -/
def entryKey (buf : Bytes) (ent : Nat) : Walk Nat :=
  field buf (ent + indexEntrySize) 4

/-- The number of the index record that the last eight bytes of an entry name. -/
def subnodeVcn (buf : Bytes) (ent : Nat) : Walk Nat :=
  entryLength buf ent >>= fun length =>
    (field buf (ent + length - 8) 8).map fun reference => reference % 2 ^ 48

/-- The bytes behind the stream of an entry, up to a number of bytes before its end. -/
def entryData (buf : Bytes) (ent tail : Nat) : Walk Bytes :=
  streamLength buf ent >>= fun stream =>
    entryLength buf ent >>= fun length =>
      if indexEntrySize + stream + tail ≤ length then
        bytesAt buf (ent + indexEntrySize + stream) (length - tail - (indexEntrySize + stream))
      else .error .outside

/-! ## `btree_search` -/

/-- What the search does at an entry. -/
inductive SearchStep where
  | found (data : Bytes)
  | descend (vcn : Nat)
  | next (ent : Nat)
  | notFound
deriving DecidableEq, Repr

/-- One turn of the loop of `btree_search`. -/
def searchStep (key : Nat) (buf : Bytes) (ent : Nat) : Walk SearchStep :=
  entryFlags buf ent >>= fun flags =>
    if HasSubnode flags then
      if IsLast flags then (subnodeVcn buf ent).map .descend
      else
        entryKey buf ent >>= fun v1 =>
          if v1 = key then (entryData buf ent 8).map .found
          else if v1 < key then
            (entryLength buf ent).map fun length => .next (ent + length)
          else (subnodeVcn buf ent).map .descend
    else if IsLast flags then .ok .notFound
    else
      entryKey buf ent >>= fun v =>
        if v = key then (entryData buf ent 0).map .found
        else if key < v then .ok .notFound
        else (entryLength buf ent).map fun length => .next (ent + length)

/-- `btree_search` from an entry of a node on, with a bound on the number of entries. -/
def btreeSearch (openRecord : Nat → Walk Bytes) (key : Nat) :
    Nat → Bytes → Nat → Walk (Option Bytes)
  | 0, _, _ => .error .running
  | turns + 1, buf, ent =>
      searchStep key buf ent >>= fun step =>
        match step with
        | .found data => .ok (some data)
        | .notFound => .ok none
        | .next ent => btreeSearch openRecord key turns buf ent
        | .descend vcn =>
            openRecord vcn >>= fun record =>
              firstEntry record recordNodeHeader >>= fun ent =>
                btreeSearch openRecord key turns record ent

/-- `btree_search` on a whole index. -/
def searchIndex (openRecord : Nat → Walk Bytes) (key turns : Nat) (ir : Bytes) :
    Walk (Option Bytes) :=
  firstEntry ir rootNodeHeader >>= fun ent => btreeSearch openRecord key turns ir ent

/-! ## Stored trees -/

/-- An entry: what it refers to, the stream that begins with its key, and what follows it. -/
structure IndexEntry where
  reference : Nat
  stream : Bytes
  data : Bytes
deriving DecidableEq, Repr

/-- The key of an entry of an index whose keys have 32 bits. -/
def IndexEntry.key (entry : IndexEntry) : Nat :=
  unle (entry.stream.take 4)

/-- An entry stands at an offset of a buffer. -/
structure EntryAt
    (buf : Bytes) (ent : Nat) (subnode last : Bool) (length : Nat) (entry : IndexEntry) :
    Prop where
  inside : ent + length ≤ buf.length
  size : length = indexEntrySize + entry.stream.length + entry.data.length +
    (if subnode then 8 else 0)
  reference : unle (slice buf ent 8) % 2 ^ 48 = entry.reference
  length_eq : unle (slice buf (ent + 8) 2) = length
  streamLength_eq : unle (slice buf (ent + 10) 2) = entry.stream.length
  subnode_iff : HasSubnode (unle (slice buf (ent + 12) 4)) ↔ subnode = true
  last_iff : IsLast (unle (slice buf (ent + 12) 4)) ↔ last = true
  stream_eq : slice buf (ent + indexEntrySize) entry.stream.length = entry.stream
  data_eq : slice buf (ent + indexEntrySize + entry.stream.length) entry.data.length = entry.data

/-- The entry at an offset names an index record whose entries are stored as required. -/
def HasChild
    (openRecord : Nat → Walk Bytes) (buf : Bytes) (ent : Nat) (stored : Bytes → Nat → Prop) :
    Prop :=
  ∃ vcn record first, subnodeVcn buf ent = .ok vcn ∧ openRecord vcn = .ok record ∧
    firstEntry record recordNodeHeader = .ok first ∧ stored record first

/-- The entries of a node from an offset on, with their subtrees, are those of a tree. -/
def StoredAt (openRecord : Nat → Walk Bytes) :
    SearchTree IndexEntry → Bytes → Nat → Prop
  | .lastLeaf, buf, ent =>
      ∃ length entry, EntryAt buf ent false true length entry ∧ entry.stream = []
  | .lastNode child, buf, ent =>
      ∃ length entry, EntryAt buf ent true true length entry ∧ entry.stream = [] ∧
        HasChild openRecord buf ent (StoredAt openRecord child)
  | .leaf entry rest, buf, ent =>
      ∃ length, EntryAt buf ent false false length entry ∧
        StoredAt openRecord rest buf (ent + length)
  | .node child entry rest, buf, ent =>
      ∃ length, EntryAt buf ent true false length entry ∧
        HasChild openRecord buf ent (StoredAt openRecord child) ∧
        StoredAt openRecord rest buf (ent + length)

/-- The index root holds the root node of a tree. -/
def StoredIndex (openRecord : Nat → Walk Bytes) (tree : SearchTree IndexEntry) (ir : Bytes) :
    Prop :=
  ∃ first, firstEntry ir rootNodeHeader = .ok first ∧ StoredAt openRecord tree ir first

namespace EntryAt

variable {buf : Bytes} {ent length : Nat} {subnode last : Bool} {entry : IndexEntry}
  (here : EntryAt buf ent subnode last length entry)

include here

theorem header_inside : ent + indexEntrySize ≤ buf.length := by
  have inside := here.inside
  have size := here.size
  omega

theorem field_header {offset width : Nat} (inHeader : offset + width ≤ indexEntrySize) :
    field buf (ent + offset) width = .ok (unle (slice buf (ent + offset) width)) := by
  have inside := here.header_inside
  exact if_pos (by omega)

theorem entryFlags_eq : entryFlags buf ent = .ok (unle (slice buf (ent + 12) 4)) :=
  here.field_header (by decide)

theorem entryLength_eq : entryLength buf ent = .ok length := by
  rw [entryLength, here.field_header (by decide), here.length_eq]

theorem streamLength_eq' : streamLength buf ent = .ok entry.stream.length := by
  rw [streamLength, here.field_header (by decide), here.streamLength_eq]

theorem entryReference_eq : entryReference buf ent = .ok entry.reference := by
  have first := here.field_header (show 0 + 8 ≤ indexEntrySize by decide)
  rw [Nat.add_zero] at first
  rw [entryReference, first]
  exact congrArg Except.ok here.reference

theorem entryKey_eq (keyed : 4 ≤ entry.stream.length) : entryKey buf ent = .ok entry.key := by
  have inside := here.inside
  have size := here.size
  have front : slice buf (ent + indexEntrySize) 4 = entry.stream.take 4 := by
    rw [← here.stream_eq, slice, slice, List.take_take, Nat.min_eq_left keyed]
  rw [entryKey, field, if_pos (by omega), front, IndexEntry.key]

theorem entryData_eq {tail : Nat} (ends : tail = if subnode then 8 else 0) :
    entryData buf ent tail = .ok entry.data := by
  have inside := here.inside
  have size := here.size
  rw [← ends] at size
  have width : length - tail - (indexEntrySize + entry.stream.length) = entry.data.length := by
    omega
  rw [entryData, here.streamLength_eq', here.entryLength_eq]
  refine (if_pos (by omega)).trans ?_
  rw [width, bytesAt, if_pos (by omega), here.data_eq]

/-! What the search does at an entry of each kind. -/

theorem searchStep_lastLeaf
    (leaf : subnode = false) (final : last = true) (key : Nat) :
    searchStep key buf ent = .ok .notFound := by
  have noSubnode : ¬ HasSubnode (unle (slice buf (ent + 12) 4)) := fun has => by
    simp [here.subnode_iff.mp has] at leaf
  rw [searchStep, here.entryFlags_eq]
  exact (if_neg noSubnode).trans (if_pos (here.last_iff.mpr final))

theorem searchStep_lastNode
    (node : subnode = true) (final : last = true) (key : Nat) :
    searchStep key buf ent = (subnodeVcn buf ent).map .descend := by
  rw [searchStep, here.entryFlags_eq]
  exact (if_pos (here.subnode_iff.mpr node)).trans (if_pos (here.last_iff.mpr final))

theorem searchStep_leaf
    (leaf : subnode = false) (inner : last = false) (keyed : 4 ≤ entry.stream.length)
    (key : Nat) :
    searchStep key buf ent =
      if entry.key = key then .ok (.found entry.data)
      else if key < entry.key then .ok .notFound
      else .ok (.next (ent + length)) := by
  have noSubnode : ¬ HasSubnode (unle (slice buf (ent + 12) 4)) := fun has => by
    simp [here.subnode_iff.mp has] at leaf
  have notLast : ¬ IsLast (unle (slice buf (ent + 12) 4)) := fun has => by
    simp [here.last_iff.mp has] at inner
  rw [searchStep, here.entryFlags_eq]
  refine ((if_neg noSubnode).trans (if_neg notLast)).trans ?_
  rw [here.entryKey_eq keyed, here.entryLength_eq, here.entryData_eq (by rw [leaf]; rfl)]
  rfl

theorem searchStep_node
    (node : subnode = true) (inner : last = false) (keyed : 4 ≤ entry.stream.length)
    (key : Nat) :
    searchStep key buf ent =
      if entry.key = key then .ok (.found entry.data)
      else if entry.key < key then .ok (.next (ent + length))
      else (subnodeVcn buf ent).map .descend := by
  have notLast : ¬ IsLast (unle (slice buf (ent + 12) 4)) := fun has => by
    simp [here.last_iff.mp has] at inner
  rw [searchStep, here.entryFlags_eq]
  refine ((if_pos (here.subnode_iff.mpr node)).trans (if_neg notLast)).trans ?_
  rw [here.entryKey_eq keyed, here.entryLength_eq, here.entryData_eq (by rw [node]; rfl)]
  rfl

end EntryAt

/-! ## The search of a stored tree -/

variable {openRecord : Nat → Walk Bytes}

/-- A turn of the loop that goes down to a subtree. -/
theorem btreeSearch_descend
    {buf : Bytes} {ent key turns : Nat} {stored : Bytes → Nat → Prop}
    {outcome : Walk (Option Bytes)}
    (step : searchStep key buf ent = (subnodeVcn buf ent).map .descend)
    (child : HasChild openRecord buf ent stored)
    (below : ∀ record first, stored record first →
      btreeSearch openRecord key turns record first = outcome) :
    btreeSearch openRecord key (turns + 1) buf ent = outcome := by
  obtain ⟨vcn, record, first, vcnRead, opened, firstRead, childStored⟩ := child
  rw [btreeSearch, step, vcnRead]
  change (openRecord vcn >>= fun record => _) = outcome
  rw [opened]
  change (firstEntry record recordNodeHeader >>= fun ent => _) = outcome
  rw [firstRead]
  exact below record first childStored

/-- On a stored tree the code follows the path of the search. -/
theorem btreeSearch_eq_search
    (key : Nat) (tree : SearchTree IndexEntry) :
    ∀ {buf : Bytes} {ent turns : Nat}, StoredAt openRecord tree buf ent →
      (∀ entry ∈ tree.inorder, 4 ≤ entry.stream.length) → tree.size ≤ turns →
        btreeSearch openRecord key turns buf ent =
          .ok ((tree.search IndexEntry.key key).map IndexEntry.data) := by
  induction tree with
  | lastLeaf =>
      intro buf ent turns stored keyed enough
      obtain ⟨turns, rfl⟩ := SearchTree.exists_eq_succ enough
      obtain ⟨length, entry, here, -⟩ := stored
      rw [btreeSearch, here.searchStep_lastLeaf rfl rfl key]
      rfl
  | lastNode child induction =>
      intro buf ent turns stored keyed enough
      obtain ⟨turns, rfl⟩ := SearchTree.exists_eq_succ enough
      obtain ⟨length, entry, here, -, hasChild⟩ := stored
      exact btreeSearch_descend (here.searchStep_lastNode rfl rfl key) hasChild
        fun record first childStored =>
          induction childStored keyed (Nat.le_of_succ_le_succ enough)
  | leaf entry rest induction =>
      intro buf ent turns stored keyed enough
      obtain ⟨turns, rfl⟩ := SearchTree.exists_eq_succ enough
      obtain ⟨length, here, restStored⟩ := stored
      have restKeyed : ∀ entry ∈ rest.inorder, 4 ≤ entry.stream.length :=
        fun other member => keyed other (List.mem_cons_of_mem entry member)
      rw [btreeSearch, here.searchStep_leaf rfl rfl (keyed entry List.mem_cons_self) key,
        SearchTree.search]
      split_ifs
      · rfl
      · rfl
      · exact induction restStored restKeyed (Nat.le_of_succ_le_succ enough)
  | node child entry rest childInduction restInduction =>
      intro buf ent turns stored keyed enough
      obtain ⟨turns, rfl⟩ := SearchTree.exists_eq_succ enough
      rw [SearchTree.size] at enough
      obtain ⟨length, here, hasChild, restStored⟩ := stored
      have childKeyed : ∀ entry ∈ child.inorder, 4 ≤ entry.stream.length :=
        fun other member => keyed other (List.mem_append_left _ member)
      have restKeyed : ∀ entry ∈ rest.inorder, 4 ≤ entry.stream.length := fun other member =>
        keyed other (List.mem_append_right _ (List.mem_cons_of_mem entry member))
      have step := here.searchStep_node rfl rfl
        (keyed entry (List.mem_append_right _ List.mem_cons_self)) key
      rw [SearchTree.search]
      by_cases found : entry.key = key
      · rw [if_pos found] at step ⊢
        rw [btreeSearch, step]
        rfl
      · rw [if_neg found] at step ⊢
        by_cases after : entry.key < key
        · rw [if_pos after] at step ⊢
          rw [btreeSearch, step]
          exact restInduction restStored restKeyed (by omega)
        · rw [if_neg after] at step ⊢
          exact btreeSearch_descend step hasChild fun record first childStored =>
            childInduction childStored childKeyed (by omega)

/-- On a stored index the code searches the tree. -/
theorem searchIndex_eq_search
    {tree : SearchTree IndexEntry} {ir : Bytes} (stored : StoredIndex openRecord tree ir)
    (keyed : ∀ entry ∈ tree.inorder, 4 ≤ entry.stream.length) (key : Nat) {turns : Nat}
    (enough : tree.size ≤ turns) :
    searchIndex openRecord key turns ir =
      .ok ((tree.search IndexEntry.key key).map IndexEntry.data) := by
  obtain ⟨first, firstRead, storedAt⟩ := stored
  rw [searchIndex, firstRead]
  exact btreeSearch_eq_search key tree storedAt keyed enough

/--
In an index whose keys ascend, the search returns the data of the entry with a
key, wherever in the tree it is, and nothing when there is no such entry.
-/
theorem searchIndex_spec
    {tree : SearchTree IndexEntry} {ir : Bytes} (stored : StoredIndex openRecord tree ir)
    (keyed : ∀ entry ∈ tree.inorder, 4 ≤ entry.stream.length)
    (ascending : tree.Ascending IndexEntry.key) (key : Nat) {turns : Nat}
    (enough : tree.size ≤ turns) :
    (∀ entry ∈ tree.inorder, entry.key = key →
      searchIndex openRecord key turns ir = .ok (some entry.data)) ∧
    ((∀ entry ∈ tree.inorder, entry.key ≠ key) →
      searchIndex openRecord key turns ir = .ok none) := by
  have search := searchIndex_eq_search stored keyed key enough
  refine ⟨fun entry member same => ?_, fun absent => ?_⟩
  · rw [search, (SearchTree.search_eq_some_iff ascending key entry).mpr ⟨member, same⟩]
    rfl
  · rw [search, (SearchTree.search_eq_none_iff ascending key).mpr absent]
    rfl

/-- An index root with one entry, whose subtree is in record 3. -/
def smallRoot : Bytes :=
  List.replicate 16 0 ++ [16, 0, 0, 0] ++ List.replicate 12 0 ++
    (List.replicate 8 0 ++ [29, 0, 4, 0, 1, 0, 0, 0, 9, 0, 0, 0, 0xbb, 3, 0, 0, 0, 0, 0, 0, 0]) ++
    (List.replicate 8 0 ++ [16, 0, 0, 0, 2, 0, 0, 0])

/-- An index record with one entry. -/
def smallRecord : Bytes :=
  List.replicate 24 0 ++ [16, 0, 0, 0] ++ List.replicate 12 0 ++
    (List.replicate 8 0 ++ [21, 0, 4, 0, 0, 0, 0, 0, 5, 0, 0, 0, 0xaa]) ++
    (List.replicate 8 0 ++ [16, 0, 0, 0, 2, 0, 0, 0])

/-- The tree that they hold. -/
def smallTree : SearchTree IndexEntry :=
  .node (.leaf ⟨0, [5, 0, 0, 0], [0xaa]⟩ .lastLeaf) ⟨0, [9, 0, 0, 0], [0xbb]⟩ .lastLeaf

/-- The record 3, and nothing else. -/
def openSmallRecord (vcn : Nat) : Walk Bytes :=
  if vcn = 3 then .ok smallRecord else .error .outside

theorem stored_smallTree : StoredIndex openSmallRecord smallTree smallRoot := by
  have last (buf : Bytes) (ent : Nat)
      (here : EntryAt buf ent false true 16 ⟨0, [], []⟩) :
      StoredAt openSmallRecord .lastLeaf buf ent :=
    ⟨16, ⟨0, [], []⟩, here, rfl⟩
  have below : StoredAt openSmallRecord (.leaf ⟨0, [5, 0, 0, 0], [0xaa]⟩ .lastLeaf)
      smallRecord 40 := by
    refine ⟨21, ?_, last smallRecord 61 ?_⟩
    · constructor <;> decide
    · constructor <;> decide
  refine ⟨32, by decide, 29, ?_, ⟨3, smallRecord, 40, by decide, by decide, by decide, below⟩,
    last smallRoot 61 ?_⟩
  · constructor <;> decide
  · constructor <;> decide

/-- The entry of the subtree is found, and so is the one of the root. -/
theorem searchIndex_spec_small :
    searchIndex openSmallRecord 5 4 smallRoot = .ok (some [0xaa]) ∧
      searchIndex openSmallRecord 9 4 smallRoot = .ok (some [0xbb]) ∧
      searchIndex openSmallRecord 7 4 smallRoot = .ok none := by
  have keyed : ∀ entry ∈ smallTree.inorder, 4 ≤ entry.stream.length := by decide
  have ascending : smallTree.Ascending IndexEntry.key := by
    simp [SearchTree.Ascending, smallTree, SearchTree.inorder, IndexEntry.key, unle]
  have enough : smallTree.size ≤ 4 := by decide
  refine ⟨(searchIndex_spec stored_smallTree keyed ascending 5 enough).1
      ⟨0, [5, 0, 0, 0], [0xaa]⟩ (by decide) (by decide),
    (searchIndex_spec stored_smallTree keyed ascending 9 enough).1
      ⟨0, [9, 0, 0, 0], [0xbb]⟩ (by decide) (by decide),
    (searchIndex_spec stored_smallTree keyed ascending 7 enough).2 (by decide)⟩

end Index

end Ntfs2Btrfs
