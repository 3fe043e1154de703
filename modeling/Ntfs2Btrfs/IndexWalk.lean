import Ntfs2Btrfs.IndexTree
import Ntfs2Btrfs.Lib.Exploration

/-!
# Walking an index

`walk_btree` calls a function for the entries of an index.  At an entry with a
subnode it goes down to the subtree and does not come back to the entry itself,
so it calls the function for the entries of the leaves.

`populate_skip_list` walks the directories below a reserved one in this way and
lists them.
-/

namespace Ntfs2Btrfs

namespace Index

open ByteStore
open SearchTrees
open Exploration

/-! ## `walk_btree` -/

/-- What the function that is called for an entry is given. -/
structure IndexCall where
  reference : Nat
  stream : Bytes
deriving DecidableEq, Repr

section Code

variable {σ : Type} (openRecord : Nat → Walk Bytes) (func : σ → IndexCall → Walk σ)

/-- The call for an entry without a subnode. -/
def callEntry (buf : Bytes) (ent : Nat) (s : σ) : Walk σ :=
  entryReference buf ent >>= fun reference =>
    streamLength buf ent >>= fun length =>
      bytesAt buf (ent + indexEntrySize) length >>= fun stream => func s ⟨reference, stream⟩

/-- `walk_btree` from an entry of a node on, with a bound on the number of entries. -/
def walkBtree : Nat → Bytes → Nat → σ → Walk σ
  | 0, _, _, _ => .error .running
  | turns + 1, buf, ent, s =>
      entryFlags buf ent >>= fun flags =>
        (if HasSubnode flags then
          subnodeVcn buf ent >>= fun vcn =>
            openRecord vcn >>= fun record =>
              firstEntry record recordNodeHeader >>= fun first => walkBtree turns record first s
        else callEntry func buf ent s) >>= fun s =>
          if IsLast flags then .ok s
          else entryLength buf ent >>= fun length => walkBtree turns buf (ent + length) s

/-- `walk_btree` on a whole index. -/
def walkIndex (turns : Nat) (ir : Bytes) (s : σ) : Walk σ :=
  firstEntry ir rootNodeHeader >>= fun ent => walkBtree openRecord func turns ir ent s

end Code

/-! ## `populate_skip_list` -/

/-- A directory: its index root, and the opening of its index records. -/
structure Directory where
  root : Bytes
  openRecord : Nat → Walk Bytes

/-- `FileAttributes` of a file name. -/
def fileAttributes (name : Bytes) : Walk Nat :=
  field name 56 4

/-- `FILE_ATTRIBUTE_DIRECTORY_MFT`. -/
def IsDirectory (attributes : Nat) : Prop :=
  attributes / 2 ^ 28 % 2 = 1

instance IsDirectory.decidable (attributes : Nat) : Decidable (IsDirectory attributes) :=
  inferInstanceAs (Decidable (_ = _))

/-- `first_ntfs_inode`. -/
def firstNtfsInode : Nat := 24

/-- `NTFS_ROOT_DIR_INODE`. -/
def ntfsRootDirInode : Nat := 5

section SkipList

variable (openDirectory : Nat → Walk (Option Directory)) (entries : Nat)

/-- What `populate_skip_list` does for an entry; `populate` is its recursive call. -/
def skipEntry
    (populate : Nat → List Nat → Walk (List Nat)) (skiplist : List Nat) (call : IndexCall) :
    Walk (List Nat) :=
  if call.stream = [] then .ok skiplist
  else
    fileAttributes call.stream >>= fun attributes =>
      if IsDirectory attributes then
        if call.reference ∈ skiplist then .ok skiplist else populate call.reference skiplist
      else .ok skiplist

/--
`populate_skip_list`, with a bound on the number of entries of a directory and
one on the depth of the recursion.
-/
def populateSkipList : Nat → Nat → List Nat → Walk (List Nat)
  | 0, _, _ => .error .running
  | depth + 1, inode, skiplist =>
      openDirectory inode >>= fun file =>
        match file with
        | none => .ok skiplist
        | some directory =>
            walkIndex directory.openRecord (skipEntry (populateSkipList depth)) entries
              directory.root (skiplist ++ [inode])

/-- The inodes for which `create_inodes` calls `populate_skip_list`. -/
def IsReserved (inode : Nat) : Prop :=
  inode < firstNtfsInode ∧ inode ≠ ntfsRootDirInode

instance IsReserved.decidable (inode : Nat) : Decidable (IsReserved inode) :=
  inferInstanceAs (Decidable (_ ∧ _))

/-- The skip list of `create_inodes`, which goes through the inodes that are in use. -/
def reservedSkipList (depth : Nat) (inodes : List Nat) : Walk (List Nat) :=
  inodes.foldlM (fun skiplist inode =>
    if IsReserved inode then populateSkipList openDirectory entries depth inode skiplist
    else .ok skiplist) []

end SkipList

/-! ## The calls for a stored tree -/

/-- The calls that a walk makes. -/
def walkedCalls (openRecord : Nat → Walk Bytes) (turns : Nat) (ir : Bytes) :
    Walk (List IndexCall) :=
  walkIndex openRecord (fun calls call => .ok (calls ++ [call])) turns ir []

/-- The call for an entry. -/
def IndexEntry.call (entry : IndexEntry) : IndexCall :=
  ⟨entry.reference, entry.stream⟩

/-- The call is for an entry with a key. -/
def IndexCall.Keyed (call : IndexCall) : Prop :=
  call.stream ≠ []

instance IndexCall.decidableKeyed (call : IndexCall) : Decidable call.Keyed :=
  inferInstanceAs (Decidable (¬ _ = _))

namespace EntryAt

variable {σ : Type} {func : σ → IndexCall → Walk σ}
  {buf : Bytes} {ent length : Nat} {subnode last : Bool} {entry : IndexEntry}
  (here : EntryAt buf ent subnode last length entry)

include here

theorem callEntry_eq (s : σ) : callEntry func buf ent s = func s entry.call := by
  have inside := here.inside
  have size := here.size
  have stream :
      bytesAt buf (ent + indexEntrySize) entry.stream.length = .ok entry.stream := by
    rw [bytesAt, if_pos (by omega), here.stream_eq]
  rw [callEntry, here.entryReference_eq, here.streamLength_eq']
  change (bytesAt buf (ent + indexEntrySize) entry.stream.length >>= fun stream => _) = _
  rw [stream]
  rfl

variable {openRecord : Nat → Walk Bytes} {turns : Nat}

/-- A turn at an entry, when what is done first is known. -/
theorem walkBtree_succ
    {s : σ} {before : Walk σ}
    (first : (if HasSubnode (unle (slice buf (ent + 12) 4)) then
        subnodeVcn buf ent >>= fun vcn =>
          openRecord vcn >>= fun record =>
            firstEntry record recordNodeHeader >>= fun first =>
              walkBtree openRecord func turns record first s
      else callEntry func buf ent s) = before) :
    walkBtree openRecord func (turns + 1) buf ent s =
      before >>= fun s =>
        if last = true then .ok s else walkBtree openRecord func turns buf (ent + length) s := by
  rw [← first, walkBtree, here.entryFlags_eq, here.entryLength_eq]
  change (ite _ _ _ : Walk σ) >>= _ = _
  congr 1
  funext s
  exact if_congr here.last_iff rfl rfl

theorem walkBtree_succ_leaf (leaf : subnode = false) (s : σ) :
    walkBtree openRecord func (turns + 1) buf ent s =
      func s entry.call >>= fun s =>
        if last = true then .ok s else walkBtree openRecord func turns buf (ent + length) s := by
  have noSubnode : ¬ HasSubnode (unle (slice buf (ent + 12) 4)) := fun has => by
    simp [here.subnode_iff.mp has] at leaf
  exact here.walkBtree_succ ((if_neg noSubnode).trans (here.callEntry_eq s))

theorem walkBtree_succ_node
    (node : subnode = true) {vcn first : Nat} {record : Bytes}
    (vcnRead : subnodeVcn buf ent = .ok vcn) (opened : openRecord vcn = .ok record)
    (firstRead : firstEntry record recordNodeHeader = .ok first) (s : σ) :
    walkBtree openRecord func (turns + 1) buf ent s =
      walkBtree openRecord func turns record first s >>= fun s =>
        if last = true then .ok s else walkBtree openRecord func turns buf (ent + length) s := by
  refine here.walkBtree_succ ((if_pos (here.subnode_iff.mpr node)).trans ?_)
  rw [vcnRead]
  change (openRecord vcn >>= fun record => _) = _
  rw [opened]
  change (firstEntry record recordNodeHeader >>= fun first => _) = _
  rw [firstRead]
  rfl

end EntryAt

variable {openRecord : Nat → Walk Bytes}

/-- The walk makes these calls, whatever is done in them. -/
def Walks (openRecord : Nat → Walk Bytes) (buf : Bytes) (ent bound : Nat)
    (calls : List IndexCall) : Prop :=
  ∀ {σ : Type} (func : σ → IndexCall → Walk σ) (turns : Nat) (s : σ), bound ≤ turns →
    walkBtree openRecord func turns buf ent s = calls.foldlM func s

/--
The walk of a stored tree calls the function for the entries of the leaves, in
order, and for last entries without a key.
-/
theorem exists_walks
    (tree : SearchTree IndexEntry) :
    ∀ {buf : Bytes} {ent : Nat}, StoredAt openRecord tree buf ent →
      (∀ entry ∈ tree.leaves, entry.call.Keyed) →
        ∃ calls, Walks openRecord buf ent tree.size calls ∧
          calls.filter (fun call => call.Keyed) = tree.leaves.map IndexEntry.call := by
  induction tree with
  | lastLeaf =>
      intro buf ent stored keyed
      obtain ⟨length, entry, here, noKey⟩ := stored
      refine ⟨[entry.call], fun {σ} func turns s enough => ?_, ?_⟩
      · obtain ⟨turns, rfl⟩ := SearchTree.exists_eq_succ enough
        rw [here.walkBtree_succ_leaf rfl s, List.foldlM_cons]
        rfl
      · have unkeyed : ¬ entry.call.Keyed := not_not.mpr noKey
        simp [unkeyed, SearchTree.leaves]
  | lastNode child induction =>
      intro buf ent stored keyed
      obtain ⟨length, entry, here, -, vcn, record, first, vcnRead, opened, firstRead, below⟩ :=
        stored
      obtain ⟨calls, walks, filtered⟩ := induction below keyed
      refine ⟨calls, fun {σ} func turns s enough => ?_, filtered⟩
      obtain ⟨turns, rfl⟩ := SearchTree.exists_eq_succ enough
      rw [here.walkBtree_succ_node rfl vcnRead opened firstRead s,
        walks func turns s (Nat.le_of_succ_le_succ enough)]
      exact bind_pure _
  | leaf entry rest induction =>
      intro buf ent stored keyed
      obtain ⟨length, here, restStored⟩ := stored
      obtain ⟨entryKeyed, restKeyed⟩ := List.forall_mem_cons.mp keyed
      obtain ⟨calls, walks, filtered⟩ := induction restStored restKeyed
      refine ⟨entry.call :: calls, fun {σ} func turns s enough => ?_, ?_⟩
      · obtain ⟨turns, rfl⟩ := SearchTree.exists_eq_succ enough
        rw [here.walkBtree_succ_leaf rfl s, List.foldlM_cons]
        congr 1
        funext s
        exact walks func turns s (Nat.le_of_succ_le_succ enough)
      · rw [List.filter_cons_of_pos (by simpa using entryKeyed), filtered]
        rfl
  | node child entry rest childInduction restInduction =>
      intro buf ent stored keyed
      obtain ⟨length, here, ⟨vcn, record, first, vcnRead, opened, firstRead, below⟩, restStored⟩ :=
        stored
      obtain ⟨childCalls, childWalks, childFiltered⟩ :=
        childInduction below fun entry member => keyed entry (List.mem_append_left _ member)
      obtain ⟨restCalls, restWalks, restFiltered⟩ :=
        restInduction restStored fun entry member => keyed entry (List.mem_append_right _ member)
      refine ⟨childCalls ++ restCalls, fun {σ} func turns s enough => ?_, ?_⟩
      · obtain ⟨turns, rfl⟩ := SearchTree.exists_eq_succ enough
        rw [SearchTree.size] at enough
        rw [here.walkBtree_succ_node rfl vcnRead opened firstRead s,
          childWalks func turns s (by omega), List.foldlM_append]
        congr 1
        funext s
        exact restWalks func turns s (by omega)
      · rw [List.filter_append, childFiltered, restFiltered, ← List.map_append]
        rfl

theorem reference_lt_of_stored
    (tree : SearchTree IndexEntry) :
    ∀ {buf : Bytes} {ent : Nat}, StoredAt openRecord tree buf ent →
      ∀ entry ∈ tree.inorder, entry.reference < 2 ^ 48 := by
  have small {buf : Bytes} {ent length : Nat} {subnode last : Bool} {entry : IndexEntry}
      (here : EntryAt buf ent subnode last length entry) : entry.reference < 2 ^ 48 :=
    here.reference ▸ Nat.mod_lt _ (by decide)
  induction tree with
  | lastLeaf => exact fun _ entry member => by cases member
  | lastNode child induction =>
      rintro buf ent ⟨-, -, -, -, vcn, record, first, -, -, -, below⟩
      exact induction below
  | leaf entry rest induction =>
      rintro buf ent ⟨length, here, restStored⟩
      exact List.forall_mem_cons.mpr ⟨small here, induction restStored⟩
  | node child entry rest childInduction restInduction =>
      rintro buf ent ⟨length, here, ⟨vcn, record, first, -, -, -, below⟩, restStored⟩
      exact List.forall_mem_append.mpr ⟨childInduction below,
        List.forall_mem_cons.mpr ⟨small here, restInduction restStored⟩⟩

/-! ## Which entries are passed -/

theorem foldlM_collect (calls kept : List IndexCall) :
    (calls.foldlM (fun kept call => .ok (kept ++ [call])) kept : Walk (List IndexCall)) =
      .ok (kept ++ calls) := by
  induction calls generalizing kept with
  | nil => rw [List.append_nil]; rfl
  | cons call calls induction =>
      rw [List.foldlM_cons]
      change List.foldlM _ (kept ++ [call]) calls = _
      rw [induction, List.append_assoc, List.singleton_append]

theorem exists_walkIndex
    {tree : SearchTree IndexEntry} {ir : Bytes} (stored : StoredIndex openRecord tree ir)
    (keyed : ∀ entry ∈ tree.leaves, entry.call.Keyed) :
    ∃ calls : List IndexCall,
      (∀ {σ : Type} (func : σ → IndexCall → Walk σ) (turns : Nat) (s : σ), tree.size ≤ turns →
        walkIndex openRecord func turns ir s = calls.foldlM func s) ∧
      calls.filter (fun call => call.Keyed) = tree.leaves.map IndexEntry.call := by
  obtain ⟨first, firstRead, storedAt⟩ := stored
  obtain ⟨calls, walks, filtered⟩ := exists_walks tree storedAt keyed
  refine ⟨calls, fun {σ} func turns s enough => ?_, filtered⟩
  rw [walkIndex, firstRead]
  exact walks func turns s enough

/-- The walk passes every entry with a key once, in the order of the index. -/
def CallsEach
    (openRecord : Nat → Walk Bytes) (tree : SearchTree IndexEntry) (ir : Bytes) : Prop :=
  ∃ bound, ∀ turns, bound ≤ turns → ∃ calls, walkedCalls openRecord turns ir = .ok calls ∧
    calls.filter (fun call => call.Keyed) = tree.inorder.map IndexEntry.call

/-- The key of a call, in an index whose keys have 32 bits. -/
def IndexCall.key (call : IndexCall) : Nat :=
  unle (call.stream.take 4)

/-- The walk passes the keys that a search finds, and no others. -/
def CallsFound (openRecord : Nat → Walk Bytes) (ir : Bytes) : Prop :=
  ∃ bound, ∀ turns, bound ≤ turns → ∃ calls, walkedCalls openRecord turns ir = .ok calls ∧
    ∀ key, (∃ call ∈ calls, call.Keyed ∧ call.key = key) ↔
      ∃ data, searchIndex openRecord key turns ir = .ok (some data)

/-- The keys that are passed are those of the leaves. -/
theorem exists_call_iff
    {tree : SearchTree IndexEntry} {calls : List IndexCall}
    (filtered : calls.filter (fun call => call.Keyed) = tree.leaves.map IndexEntry.call)
    (key : Nat) :
    (∃ call ∈ calls, call.Keyed ∧ call.key = key) ↔ ∃ entry ∈ tree.leaves, entry.key = key := by
  constructor
  · rintro ⟨call, member, keyed, same⟩
    have passed : call ∈ calls.filter fun call => call.Keyed :=
      List.mem_filter.mpr ⟨member, decide_eq_true keyed⟩
    rw [filtered] at passed
    obtain ⟨entry, inLeaves, rfl⟩ := List.mem_map.mp passed
    exact ⟨entry, inLeaves, same⟩
  · rintro ⟨entry, inLeaves, same⟩
    have passed : entry.call ∈ calls.filter fun call => call.Keyed :=
      filtered ▸ List.mem_map_of_mem inLeaves
    obtain ⟨member, keyed⟩ := List.mem_filter.mp passed
    exact ⟨entry.call, member, of_decide_eq_true keyed, same⟩

section Passed

variable {tree : SearchTree IndexEntry} {ir : Bytes} (stored : StoredIndex openRecord tree ir)
include stored

theorem exists_walkedCalls (keyed : ∀ entry ∈ tree.inorder, entry.call.Keyed) :
    ∃ calls : List IndexCall,
      (∀ turns, tree.size ≤ turns → walkedCalls openRecord turns ir = .ok calls) ∧
      calls.filter (fun call => call.Keyed) = tree.leaves.map IndexEntry.call := by
  obtain ⟨calls, walks, filtered⟩ := exists_walkIndex stored
    fun entry member => keyed entry (tree.leaves_sublist.subset member)
  refine ⟨calls, fun turns enough => ?_, filtered⟩
  rw [walkedCalls, walks _ turns [] enough, foldlM_collect, List.nil_append]

/-- Every entry is passed exactly when every entry is in a leaf. -/
theorem callsEach_iff_flat (keyed : ∀ entry ∈ tree.inorder, entry.call.Keyed) :
    CallsEach openRecord tree ir ↔ tree.Flat := by
  obtain ⟨calls, walked, filtered⟩ := exists_walkedCalls stored keyed
  constructor
  · rintro ⟨bound, each⟩
    obtain ⟨others, same, inOrder⟩ := each (max bound tree.size) (Nat.le_max_left _ _)
    rw [walked _ (Nat.le_max_right _ _)] at same
    obtain rfl := Except.ok.inj same
    have lengths := congrArg List.length (filtered.symm.trans inOrder)
    rw [List.length_map, List.length_map] at lengths
    exact tree.leaves_eq_inorder_iff.mp (tree.leaves_sublist.eq_of_length lengths)
  · intro flat
    refine ⟨tree.size, fun turns enough => ⟨calls, walked turns enough, ?_⟩⟩
    rw [filtered, tree.leaves_eq_inorder_iff.mpr flat]

theorem exists_searchIndex_iff
    (keyed : ∀ entry ∈ tree.inorder, 4 ≤ entry.stream.length)
    (ascending : tree.Ascending IndexEntry.key) (key : Nat) {turns : Nat}
    (enough : tree.size ≤ turns) :
    (∃ data, searchIndex openRecord key turns ir = .ok (some data)) ↔
      ∃ entry ∈ tree.inorder, entry.key = key := by
  rw [searchIndex_eq_search stored keyed key enough]
  constructor
  · rintro ⟨data, read⟩
    obtain ⟨entry, found, -⟩ := Option.map_eq_some_iff.mp (Except.ok.inj read)
    exact ⟨entry, (SearchTree.search_eq_some_iff ascending key entry).mp found⟩
  · rintro ⟨entry, found⟩
    refine ⟨entry.data, congrArg Except.ok (Option.map_eq_some_iff.mpr ⟨entry, ?_, rfl⟩)⟩
    exact (SearchTree.search_eq_some_iff ascending key entry).mpr found

/-- The passed keys are the ones that are found exactly when every entry is in a leaf. -/
theorem callsFound_iff_flat
    (keyed : ∀ entry ∈ tree.inorder, 4 ≤ entry.stream.length)
    (ascending : tree.Ascending IndexEntry.key) :
    CallsFound openRecord ir ↔ tree.Flat := by
  obtain ⟨calls, walked, filtered⟩ := exists_walkedCalls stored fun entry member =>
    List.ne_nil_of_length_pos (Nat.lt_of_lt_of_le (by decide) (keyed entry member))
  constructor
  · rintro ⟨bound, precisely⟩
    obtain ⟨others, same, passed⟩ := precisely (max bound tree.size) (Nat.le_max_left _ _)
    rw [walked _ (Nat.le_max_right _ _)] at same
    obtain rfl := Except.ok.inj same
    -- The keys of the index are different ones, and all of them are keys of leaves.
    have distinct : (tree.inorder.map IndexEntry.key).Nodup :=
      List.pairwise_map.mpr (ascending.imp fun before => before.ne)
    have within : tree.inorder.map IndexEntry.key ⊆ tree.leaves.map IndexEntry.key := by
      intro key member
      have found := (exists_searchIndex_iff stored keyed ascending key
        (Nat.le_max_right bound tree.size)).mpr (List.mem_map.mp member)
      exact List.mem_map.mpr ((exists_call_iff filtered key).mp ((passed key).mpr found))
    have lengths := (List.subperm_of_subset distinct within).length_le
    rw [List.length_map, List.length_map] at lengths
    exact tree.leaves_eq_inorder_iff.mp (tree.leaves_sublist.eq_of_length_le lengths)
  · intro flat
    refine ⟨tree.size, fun turns enough => ⟨calls, walked turns enough, fun key => ?_⟩⟩
    rw [exists_call_iff filtered, exists_searchIndex_iff stored keyed ascending key enough,
      tree.leaves_eq_inorder_iff.mpr flat]

end Passed

/-! ## Which directories are listed -/

/-- `FileAttributes` of the file name of an entry. -/
def IndexEntry.attributes (entry : IndexEntry) : Nat :=
  unle (slice entry.stream 56 4)

/-- Every file is a directory whose index holds a tree, or no directory. -/
structure StoredDirectories
    (openDirectory : Nat → Walk (Option Directory))
    (dirs : Nat → Option (SearchTree IndexEntry)) : Prop where
  other : ∀ inode, dirs inode = none → openDirectory inode = .ok none
  stored : ∀ inode tree, dirs inode = some tree → ∃ directory,
    openDirectory inode = .ok (some directory) ∧
      StoredIndex directory.openRecord tree directory.root
  named : ∀ inode tree, dirs inode = some tree → ∀ entry ∈ tree.inorder,
    60 ≤ entry.stream.length

/-- A directory has an entry for another one. -/
def Subdirectory (dirs : Nat → Option (SearchTree IndexEntry)) (parent child : Nat) : Prop :=
  ∃ tree, dirs parent = some tree ∧ ∃ entry ∈ tree.inorder,
    IsDirectory entry.attributes ∧ entry.reference = child

/-- Every directory that is reached from a reserved one is put on the skip list. -/
def SkipsReachable
    (openDirectory : Nat → Walk (Option Directory))
    (dirs : Nat → Option (SearchTree IndexEntry)) : Prop :=
  ∀ inodes : List Nat, ∃ bound, ∀ entries depth, bound ≤ entries → bound ≤ depth →
    ∃ skiplist, reservedSkipList openDirectory entries depth inodes = .ok skiplist ∧
      ∀ inode ∈ inodes, IsReserved inode → ∀ directory,
        Relation.ReflTransGen (Subdirectory dirs) inode directory →
          (dirs directory).isSome → directory ∈ skiplist

section Listed

variable (dirs : Nat → Option (SearchTree IndexEntry))

/-- The entry names a directory. -/
def NamesDirectory (entry : IndexEntry) : Prop :=
  IsDirectory entry.attributes ∧ (dirs entry.reference).isSome

instance NamesDirectory.decidable (entry : IndexEntry) : Decidable (NamesDirectory dirs entry) :=
  inferInstanceAs (Decidable (_ ∧ _))

/-- The directories that are named in the leaves of a directory. -/
def leafDirectories (inode : Nat) : List Nat :=
  match dirs inode with
  | none => []
  | some tree =>
      (tree.leaves.filter fun entry => NamesDirectory dirs entry).map IndexEntry.reference

variable {dirs}

theorem leafDirectories_of_some
    {inode : Nat} {tree : SearchTree IndexEntry} (isDirectory : dirs inode = some tree) :
    leafDirectories dirs inode =
      (tree.leaves.filter fun entry => NamesDirectory dirs entry).map IndexEntry.reference := by
  rw [leafDirectories, isDirectory]

/-- When every entry is in a leaf, the leaves name every directory. -/
theorem mem_leafDirectories
    (flat : ∀ inode tree, dirs inode = some tree → tree.Flat) {parent child : Nat}
    (below : Subdirectory dirs parent child) (isDirectory : (dirs child).isSome) :
    child ∈ leafDirectories dirs parent := by
  obtain ⟨tree, found, entry, member, flagged, rfl⟩ := below
  rw [← tree.leaves_eq_inorder_iff.mpr (flat parent tree found)] at member
  rw [leafDirectories_of_some found]
  exact List.mem_map_of_mem (List.mem_filter.mpr ⟨member, decide_eq_true ⟨flagged, isDirectory⟩⟩)

theorem reachable_in_leaves
    (flat : ∀ inode tree, dirs inode = some tree → tree.Flat) {inode directory : Nat}
    (reachable : Relation.ReflTransGen (Subdirectory dirs) inode directory)
    (isDirectory : (dirs directory).isSome) :
    Relation.ReflTransGen (fun parent child => child ∈ leafDirectories dirs parent)
      inode directory := by
  induction reachable with
  | refl => exact Relation.ReflTransGen.refl
  | tail _ below induction =>
      refine (induction ?_).tail (mem_leafDirectories flat below isDirectory)
      obtain ⟨tree, found, -⟩ := below
      rw [found]
      rfl

/-- What is done for an entry of a directory. -/
theorem skipEntry_eq
    {populate : Nat → List Nat → Walk (List Nat)} {entry : IndexEntry}
    (named : 60 ≤ entry.stream.length) (skiplist : List Nat) :
    skipEntry populate skiplist entry.call =
      if IsDirectory entry.attributes then
        if entry.reference ∈ skiplist then .ok skiplist else populate entry.reference skiplist
      else .ok skiplist := by
  have present : entry.stream ≠ [] :=
    List.ne_nil_of_length_pos (Nat.lt_of_lt_of_le (by decide) named)
  have attributes : fileAttributes entry.stream = .ok entry.attributes := if_pos named
  rw [skipEntry]
  refine (if_neg present).trans ?_
  change (fileAttributes entry.stream >>= fun attributes => _) = _
  rw [attributes]
  rfl

/-- Nothing is done for an entry without a key. -/
theorem foldlM_skipEntry_filter
    (populate : Nat → List Nat → Walk (List Nat)) (calls : List IndexCall)
    (skiplist : List Nat) :
    calls.foldlM (skipEntry populate) skiplist =
      (calls.filter fun call => call.Keyed).foldlM (skipEntry populate) skiplist := by
  rw [List.foldlM_filter]
  congr 1
  funext skiplist call
  by_cases keyed : call.Keyed
  · rw [if_pos (decide_eq_true keyed)]
  · rw [if_neg (by simpa using keyed), skipEntry]
    exact if_pos (not_not.mp keyed)

/-- The entries of a directory are gone through as its leaf directories are. -/
theorem foldlM_skipEntry
    {populate : Nat → List Nat → Walk (List Nat)} {search : Nat → List Nat → Option (List Nat)}
    (follows : ∀ child listed result, child < 2 ^ 48 → (dirs child).isSome →
      search child listed = some result → populate child listed = .ok result)
    (others : ∀ child listed, dirs child = none → populate child listed = .ok listed)
    (list : List IndexEntry) (named : ∀ entry ∈ list, 60 ≤ entry.stream.length)
    (small : ∀ entry ∈ list, entry.reference < 2 ^ 48) :
    ∀ {listed result : List Nat},
      ((list.filter fun entry => NamesDirectory dirs entry).map IndexEntry.reference).foldlM
        (fun listed child => if child ∈ listed then some listed else search child listed)
        listed = some result →
      (list.map IndexEntry.call).foldlM (skipEntry populate) listed = .ok result := by
  induction list with
  | nil =>
      intro listed result searched
      exact congrArg Except.ok (Option.some.inj searched)
  | cons entry list induction =>
      intro listed result searched
      obtain ⟨entryNamed, listNamed⟩ := List.forall_mem_cons.mp named
      obtain ⟨entrySmall, listSmall⟩ := List.forall_mem_cons.mp small
      rw [List.map_cons, List.foldlM_cons, skipEntry_eq entryNamed]
      by_cases flagged : IsDirectory entry.attributes
      · rw [if_pos flagged]
        by_cases isDirectory : (dirs entry.reference).isSome
        · have names : NamesDirectory dirs entry := ⟨flagged, isDirectory⟩
          rw [List.filter_cons_of_pos (by simpa using names), List.map_cons,
            List.foldlM_cons] at searched
          obtain ⟨middle, first, later⟩ := Option.bind_eq_some_iff.mp searched
          by_cases known : entry.reference ∈ listed
          · rw [if_pos known] at first ⊢
            obtain rfl := Option.some.inj first
            exact induction listNamed listSmall later
          · rw [if_neg known] at first ⊢
            rw [follows _ _ _ entrySmall isDirectory first]
            exact induction listNamed listSmall later
        · rw [List.filter_cons_of_neg (by simp [NamesDirectory, isDirectory])] at searched
          have skipped : (if entry.reference ∈ listed then .ok listed
              else populate entry.reference listed) = (.ok listed : Walk (List Nat)) := by
            rw [others _ _ (Option.not_isSome_iff_eq_none.mp isDirectory), ite_self]
          rw [skipped]
          exact induction listNamed listSmall searched
      · rw [if_neg flagged]
        rw [List.filter_cons_of_neg (by simp [NamesDirectory, flagged])] at searched
        exact induction listNamed listSmall searched

/-- The bound on the entries of a directory is large enough. -/
def EnoughEntries (dirs : Nat → Option (SearchTree IndexEntry)) (entries : Nat) : Prop :=
  ∀ inode < 2 ^ 48, ∀ tree, dirs inode = some tree → tree.size ≤ entries

theorem exists_enoughEntries (dirs : Nat → Option (SearchTree IndexEntry)) :
    ∃ bound, ∀ entries, bound ≤ entries → EnoughEntries dirs entries := by
  refine ⟨(Finset.range (2 ^ 48)).sup fun inode => ((dirs inode).map SearchTree.size).getD 0,
    fun entries enough inode small tree found => ?_⟩
  have size : tree.size = ((dirs inode).map SearchTree.size).getD 0 := by
    rw [found]
    rfl
  rw [size]
  exact (Finset.le_sup (f := fun inode => ((dirs inode).map SearchTree.size).getD 0)
    (Finset.mem_range.mpr small)).trans enough

variable {openDirectory : Nat → Walk (Option Directory)}

theorem leafDirectories_lt
    (volume : StoredDirectories openDirectory dirs) {parent child : Nat}
    (member : child ∈ leafDirectories dirs parent) : child < 2 ^ 48 := by
  cases found : dirs parent with
  | none =>
    rw [leafDirectories, found] at member
    cases member
  | some tree =>
    rw [leafDirectories_of_some found] at member
    obtain ⟨entry, kept, rfl⟩ := List.mem_map.mp member
    obtain ⟨directory, -, first, -, storedAt⟩ := volume.stored parent tree found
    exact reference_lt_of_stored tree storedAt entry
      (tree.leaves_sublist.subset (List.mem_of_mem_filter kept))

theorem populateSkipList_of_directory
    {inode entries : Nat} {directory : Directory}
    (opened : openDirectory inode = .ok (some directory)) (depth : Nat) (listed : List Nat) :
    populateSkipList openDirectory entries (depth + 1) inode listed =
      walkIndex directory.openRecord (skipEntry (populateSkipList openDirectory entries depth))
        entries directory.root (listed ++ [inode]) := by
  rw [populateSkipList, opened]
  rfl

/-- The code lists what a search of the leaf directories lists. -/
theorem populateSkipList_of_explore
    (volume : StoredDirectories openDirectory dirs) {entries : Nat}
    (enough : EnoughEntries dirs entries) (depth : Nat) :
    ∀ inode listed result, inode < 2 ^ 48 → (dirs inode).isSome →
      explore (leafDirectories dirs) depth inode listed = some result →
        populateSkipList openDirectory entries (depth + 1) inode listed = .ok result := by
  induction depth with
  | zero => exact fun _ _ _ _ _ searched => by cases searched
  | succ depth induction =>
      intro inode listed result small isDirectory searched
      obtain ⟨tree, found⟩ := Option.isSome_iff_exists.mp isDirectory
      obtain ⟨directory, opened, stored⟩ := volume.stored inode tree found
      have named := volume.named inode tree found
      have keyed : ∀ entry ∈ tree.leaves, entry.call.Keyed := fun entry member =>
        List.ne_nil_of_length_pos (Nat.lt_of_lt_of_le (by decide)
          (named entry (tree.leaves_sublist.subset member)))
      obtain ⟨calls, walks, filtered⟩ := exists_walkIndex stored keyed
      obtain ⟨first, -, storedAt⟩ := stored
      rw [populateSkipList_of_directory opened, walks _ entries _ (enough inode small tree found), foldlM_skipEntry_filter, filtered]
      refine foldlM_skipEntry induction (fun child listed missing => ?_) tree.leaves
        (fun entry member => named entry (tree.leaves_sublist.subset member))
        (fun entry member => reference_lt_of_stored tree storedAt entry
          (tree.leaves_sublist.subset member)) ?_
      · rw [populateSkipList, volume.other child missing]
        rfl
      · rw [explore, leafDirectories_of_some found] at searched
        exact searched

/-- A reserved inode that is a directory is put on the list with what its leaves lead to. -/
theorem exists_populateSkipList
    (volume : StoredDirectories openDirectory dirs) {entries depth : Nat}
    (enough : EnoughEntries dirs entries) (deep : 2 ^ 48 + 2 ≤ depth) {inode : Nat}
    (small : inode < 2 ^ 48) {listed : List Nat}
    (closed : ClosedBeyond (leafDirectories dirs) [] listed) :
    ∃ result, populateSkipList openDirectory entries depth inode listed = .ok result ∧
      listed ⊆ result ∧ ClosedBeyond (leafDirectories dirs) [] result ∧
        ((dirs inode).isSome → inode ∈ result) := by
  obtain ⟨depth, rfl⟩ := Nat.exists_eq_add_of_le' (show 1 ≤ depth by omega)
  cases found : dirs inode with
  | none =>
    refine ⟨listed, ?_, List.Subset.refl _, closed, fun isDirectory => by cases isDirectory⟩
    rw [populateSkipList, volume.other inode found]
    rfl
  | some tree =>
    have fewer : ((Finset.range (2 ^ 48)).filter (· ∉ listed ++ [inode])).card < depth := by
      have bound := Finset.card_filter_le (Finset.range (2 ^ 48)) (· ∉ listed ++ [inode])
      rw [Finset.card_range] at bound
      omega
    obtain ⟨result, searched, explored⟩ := exists_explore
      (fun _ _ child member => Finset.mem_range.mpr (leafDirectories_lt volume member))
      depth inode (Finset.mem_range.mpr small) listed fewer
    refine ⟨result, ?_, explored.keeps, explored.closed_result closed, fun _ => explored.lists⟩
    exact populateSkipList_of_explore volume enough depth inode listed result small
      (by rw [found]; rfl) searched

theorem exists_reservedSkipList
    (volume : StoredDirectories openDirectory dirs) {entries depth : Nat}
    (enough : EnoughEntries dirs entries) (deep : 2 ^ 48 + 2 ≤ depth) (inodes : List Nat) :
    ∀ {listed : List Nat}, ClosedBeyond (leafDirectories dirs) [] listed →
      ∃ result, inodes.foldlM (fun skiplist inode =>
          if IsReserved inode then populateSkipList openDirectory entries depth inode skiplist
          else .ok skiplist) listed = .ok result ∧
        listed ⊆ result ∧ ClosedBeyond (leafDirectories dirs) [] result ∧
          ∀ inode ∈ inodes, IsReserved inode → (dirs inode).isSome → inode ∈ result := by
  induction inodes with
  | nil =>
      intro listed closed
      exact ⟨listed, rfl, List.Subset.refl _, closed, fun inode member => by cases member⟩
  | cons inode inodes induction =>
      intro listed closed
      obtain ⟨middle, ran, keeps, middleClosed, lists⟩ : ∃ middle,
          (if IsReserved inode then populateSkipList openDirectory entries depth inode listed
            else .ok listed) = .ok middle ∧
          listed ⊆ middle ∧ ClosedBeyond (leafDirectories dirs) [] middle ∧
            (IsReserved inode → (dirs inode).isSome → inode ∈ middle) := by
        by_cases reserved : IsReserved inode
        · have small : inode < 2 ^ 48 := reserved.1.trans (by decide)
          obtain ⟨middle, ran, keeps, middleClosed, lists⟩ :=
            exists_populateSkipList volume enough deep small closed
          exact ⟨middle, (if_pos reserved).trans ran, keeps, middleClosed, fun _ => lists⟩
        · exact ⟨listed, if_neg reserved, List.Subset.refl _, closed,
            fun isReserved => absurd isReserved reserved⟩
      obtain ⟨result, ranRest, keepsRest, resultClosed, listsRest⟩ := induction middleClosed
      refine ⟨result, ?_, List.Subset.trans keeps keepsRest, resultClosed, ?_⟩
      · rw [List.foldlM_cons, ran]
        exact ranRest
      · intro other member reserved isDirectory
        rcases List.mem_cons.mp member with rfl | inRest
        · exact keepsRest (lists reserved isDirectory)
        · exact listsRest other inRest reserved isDirectory

/-- When every entry is in a leaf, no directory below a reserved one is missed. -/
theorem skipsReachable_of_flat
    (volume : StoredDirectories openDirectory dirs)
    (flat : ∀ inode tree, dirs inode = some tree → tree.Flat) :
    SkipsReachable openDirectory dirs := by
  intro inodes
  obtain ⟨bound, enough⟩ := exists_enoughEntries dirs
  refine ⟨max bound (2 ^ 48 + 2), fun entries depth enoughEntries deep => ?_⟩
  obtain ⟨result, ran, -, closed, lists⟩ := exists_reservedSkipList volume
    (enough entries ((Nat.le_max_left _ _).trans enoughEntries))
    ((Nat.le_max_right _ _).trans deep) inodes
    (fun vertex member => absurd member List.not_mem_nil)
  refine ⟨result, ran, fun inode member reserved directory reachable isDirectory => ?_⟩
  have start : (dirs inode).isSome := by
    rcases Relation.ReflTransGen.cases_head reachable with rfl | ⟨_, ⟨tree, found, -⟩, -⟩
    · exact isDirectory
    · rw [found]
      rfl
  exact mem_of_reachable closed (lists inode member reserved start)
    (reachable_in_leaves flat reachable isDirectory)

end Listed

/--
A walk passes every entry with a key, in order, exactly when no entry with a key
has a subnode.  So does a walk that is to pass the keys that a search finds, and
the skip list is complete where all directories are walked so.
-/
theorem walkIndex_iff_flat
    {openRecord : Nat → Walk Bytes} {tree : SearchTree IndexEntry} {ir : Bytes}
    (stored : StoredIndex openRecord tree ir)
    {openDirectory : Nat → Walk (Option Directory)}
    {dirs : Nat → Option (SearchTree IndexEntry)}
    (volume : StoredDirectories openDirectory dirs) :
    ((∀ entry ∈ tree.inorder, entry.call.Keyed) →
      (CallsEach openRecord tree ir ↔ tree.Flat)) ∧
    ((∀ entry ∈ tree.inorder, 4 ≤ entry.stream.length) →
      tree.Ascending IndexEntry.key → (CallsFound openRecord ir ↔ tree.Flat)) ∧
    (((∀ inode tree directory, dirs inode = some tree →
        openDirectory inode = .ok (some directory) →
          CallsEach directory.openRecord tree directory.root) ∧
      SkipsReachable openDirectory dirs) ↔
    ∀ inode tree, dirs inode = some tree → tree.Flat) := by
  refine ⟨callsEach_iff_flat stored, callsFound_iff_flat stored, ?_⟩
  have each {inode : Nat} {tree : SearchTree IndexEntry} {directory : Directory}
      (found : dirs inode = some tree) (opened : openDirectory inode = .ok (some directory)) :
      CallsEach directory.openRecord tree directory.root ↔ tree.Flat := by
    obtain ⟨other, same, stored⟩ := volume.stored inode tree found
    rw [opened] at same
    obtain rfl := Option.some.inj (Except.ok.inj same)
    exact callsEach_iff_flat stored fun entry member =>
      List.ne_nil_of_length_pos (Nat.lt_of_lt_of_le (by decide)
        (volume.named inode tree found entry member))
  constructor
  · rintro ⟨calls, -⟩ inode tree found
    obtain ⟨directory, opened, -⟩ := volume.stored inode tree found
    exact (each found opened).mp (calls inode tree directory found opened)
  · intro flat
    exact ⟨fun inode tree directory found opened =>
      (each found opened).mpr (flat inode tree found), skipsReachable_of_flat volume flat⟩

/-- A file name: the attributes say whether it is one of a directory. -/
def smallName (attributes : UInt8) : Bytes :=
  List.replicate 56 0 ++ [0, 0, 0, attributes] ++ List.replicate 6 0

/-- An index root whose only entry is for the directory 30; its subtree is in record 3. -/
def largeRoot : Bytes :=
  List.replicate 16 0 ++ [16, 0, 0, 0] ++ List.replicate 12 0 ++
    ([30, 0, 0, 0, 0, 0, 0, 0, 90, 0, 66, 0, 1, 0, 0, 0] ++ smallName 0x10 ++
      [3, 0, 0, 0, 0, 0, 0, 0]) ++
    (List.replicate 8 0 ++ [16, 0, 0, 0, 2, 0, 0, 0])

/-- An index record whose only entry is for the file 31. -/
def largeRecord : Bytes :=
  List.replicate 24 0 ++ [16, 0, 0, 0] ++ List.replicate 12 0 ++
    ([31, 0, 0, 0, 0, 0, 0, 0, 82, 0, 66, 0, 0, 0, 0, 0] ++ smallName 0) ++
    (List.replicate 8 0 ++ [16, 0, 0, 0, 2, 0, 0, 0])

/-- An index root without entries. -/
def emptyRoot : Bytes :=
  List.replicate 16 0 ++ [16, 0, 0, 0] ++ List.replicate 12 0 ++
    (List.replicate 8 0 ++ [16, 0, 0, 0, 2, 0, 0, 0])

/-- The tree of the first directory. -/
def largeTree : SearchTree IndexEntry :=
  .node (.leaf ⟨31, smallName 0, []⟩ .lastLeaf) ⟨30, smallName 0x10, []⟩ .lastLeaf

/-- The directory 11, in which the directory 30 is. -/
def largeDirs (inode : Nat) : Option (SearchTree IndexEntry) :=
  if inode = 11 then some largeTree else if inode = 30 then some .lastLeaf else none

def openLargeRecord (vcn : Nat) : Walk Bytes :=
  if vcn = 3 then .ok largeRecord else .error .outside

def openLargeDirectory (inode : Nat) : Walk (Option Directory) :=
  if inode = 11 then .ok (some ⟨largeRoot, openLargeRecord⟩)
  else if inode = 30 then .ok (some ⟨emptyRoot, openLargeRecord⟩)
  else .ok none

theorem stored_largeTree : StoredIndex openLargeRecord largeTree largeRoot := by
  have last (buf : Bytes) (ent : Nat)
      (here : EntryAt buf ent false true 16 ⟨0, [], []⟩) :
      StoredAt openLargeRecord .lastLeaf buf ent :=
    ⟨16, ⟨0, [], []⟩, here, rfl⟩
  have below : StoredAt openLargeRecord (.leaf ⟨31, smallName 0, []⟩ .lastLeaf)
      largeRecord 40 := by
    refine ⟨82, ?_, last largeRecord 122 ?_⟩
    · constructor <;> decide +kernel
    · constructor <;> decide +kernel
  refine ⟨32, by decide +kernel, 90, ?_,
    ⟨3, largeRecord, 40, by decide +kernel, rfl, by decide +kernel, below⟩,
    last largeRoot 122 ?_⟩
  · constructor <;> decide +kernel
  · constructor <;> decide +kernel

theorem stored_emptyRoot : StoredIndex openLargeRecord .lastLeaf emptyRoot := by
  refine ⟨32, by decide, 16, ⟨0, [], []⟩, ?_, rfl⟩
  constructor <;> decide

theorem stored_largeDirs : StoredDirectories openLargeDirectory largeDirs where
  other inode missing := by
    rw [largeDirs] at missing
    rw [openLargeDirectory]
    split_ifs at missing ⊢
    rfl
  stored inode tree found := by
    rw [largeDirs] at found
    rw [openLargeDirectory]
    split_ifs at found ⊢ with isFirst isSecond
    · obtain rfl := Option.some.inj found
      exact ⟨⟨largeRoot, openLargeRecord⟩, rfl, stored_largeTree⟩
    · obtain rfl := Option.some.inj found
      exact ⟨⟨emptyRoot, openLargeRecord⟩, rfl, stored_emptyRoot⟩
  named inode tree found := by
    rw [largeDirs] at found
    split_ifs at found with isFirst isSecond
    · obtain rfl := Option.some.inj found
      decide +kernel
    · obtain rfl := Option.some.inj found
      decide

/-- Of an index with an entry in a root node only, the entries of the leaves are passed. -/
theorem walkIndex_iff_flat_small :
    (CallsEach openSmallRecord smallTree smallRoot ↔ smallTree.Flat) ∧
      (CallsFound openSmallRecord smallRoot ↔ smallTree.Flat) ∧
      ((∀ inode tree directory, largeDirs inode = some tree →
          openLargeDirectory inode = .ok (some directory) →
            CallsEach directory.openRecord tree directory.root) ∧
        SkipsReachable openLargeDirectory largeDirs ↔
        ∀ inode tree, largeDirs inode = some tree → tree.Flat) := by
  have ascending : smallTree.Ascending IndexEntry.key := by
    simp [SearchTree.Ascending, smallTree, SearchTree.inorder, IndexEntry.key, unle]
  obtain ⟨each, found, skips⟩ := walkIndex_iff_flat stored_smallTree stored_largeDirs
  exact ⟨each (by decide), found (by decide) ascending, skips⟩

/--
The directory 30 is in the directory 11, and its entry is in the root node.  The
walk does not pass it, and it is not put on the skip list.
-/
theorem walkIndex_skips :
    StoredDirectories openLargeDirectory largeDirs ∧
      ¬ CallsEach openLargeRecord largeTree largeRoot ∧
      ¬ SkipsReachable openLargeDirectory largeDirs := by
  refine ⟨stored_largeDirs, fun each => ?_, fun skips => ?_⟩
  · exact (callsEach_iff_flat stored_largeTree (by decide +kernel)).mp each
  · obtain ⟨bound, enough⟩ := skips [11]
    obtain ⟨skiplist, ran, lists⟩ := enough (bound + 4) (bound + 1) (by omega) (by omega)
    have size : largeTree.size ≤ bound + 4 := by
      change 4 ≤ bound + 4
      omega
    obtain ⟨calls, walks, filtered⟩ :=
      exists_walkIndex stored_largeTree (by decide +kernel)
    have searched : populateSkipList openLargeDirectory (bound + 4) (bound + 1) 11 [] =
        .ok [11] := by
      have opened : openLargeDirectory 11 = .ok (some ⟨largeRoot, openLargeRecord⟩) := rfl
      rw [populateSkipList_of_directory opened, List.nil_append, walks _ _ _ size, foldlM_skipEntry_filter, filtered]
      have leaves : largeTree.leaves.map IndexEntry.call =
          [IndexEntry.call ⟨31, smallName 0, []⟩] := rfl
      rw [leaves, List.foldlM_cons, skipEntry_eq (by decide), if_neg (by decide +kernel)]
      rfl
    have listed : reservedSkipList openLargeDirectory (bound + 4) (bound + 1) [11] =
        .ok [11] := by
      rw [reservedSkipList, List.foldlM_cons, if_pos (by decide), searched]
      rfl
    obtain rfl := Except.ok.inj (listed.symm.trans ran)
    have below : Subdirectory largeDirs 11 30 :=
      ⟨largeTree, rfl, ⟨30, smallName 0x10, []⟩, by decide +kernel, by decide +kernel, rfl⟩
    have skipped := lists 11 List.mem_cons_self (by decide) 30
      (Relation.ReflTransGen.single below) rfl
    simp at skipped

end Index

end Ntfs2Btrfs
