import Ntfs2Btrfs.FileExtents
import Ntfs2Btrfs.Relocation
import Ntfs2Btrfs.Root

/-!
# Rolling back

`rollback` looks for a superblock, walks the tree of the image subvolume to the
extents of the image file, and writes back what the conversion had moved: every
extent whose place on the device is not its place in the image is read first,
and after that all of them are written to their places in the image.

The tree of the image subvolume appears as the items that a walk delivers.
-/

namespace Ntfs2Btrfs

open ByteStore

/-! ## Looking for a superblock -/

/-- What `rollback` throws. -/
inductive RollbackError where
  | notBtrfs
  | unsupportedIncompat (flags : Nat)
  | noChunk (address : Nat)
  | readFailed (length address : Nat)
  | imageCompressed
  | imageInline
  | unknownExtentType (type : Nat)
  | notSingle (chunk : Nat)
deriving DecidableEq, Repr

/-- `BTRFS_MAGIC`. -/
def btrfsMagic : Nat := 0x4d5f53665248425f

/-- `INCOMPAT_SUPPORTED`. -/
def incompatSupported : Nat := 0xfff

/-- The magic of a superblock. -/
def superblockMagic (superblock : Bytes) : Nat :=
  unle (slice superblock 0x40 8)

/-- The generation of a superblock. -/
def superblockGeneration (superblock : Bytes) : Nat :=
  unle (slice superblock 0x48 8)

/-- The incompat flags of a superblock. -/
def superblockIncompat (superblock : Bytes) : Nat :=
  unle (slice superblock 0xbc 8)

/-- The locations that the loop of `read_superblock` looks at. -/
def searchedAddrs (deviceEnd : Nat) : List Nat :=
  superblockAddrs.takeWhile fun addr => addr + superblockSize < deviceEnd

/-- One turn of the loop of `read_superblock`, with the newest superblock so far. -/
def considerSuperblock (device : Store) (newest : Option Bytes) (addr : Nat) :
    Option Bytes :=
  let superblock := Store.read device addr superblockSize
  if superblockMagic superblock ≠ btrfsMagic then newest
  else
    match newest with
    | none => some superblock
    | some other =>
        if superblockGeneration superblock > superblockGeneration other then some superblock
        else some other

/-- `btrfs::read_superblock`, on a device that ends at `deviceEnd`. -/
def readSuperblock (deviceEnd : Nat) (device : Store) : Except RollbackError Bytes :=
  match (searchedAddrs deviceEnd).foldl (considerSuperblock device) none with
  | none => .error .notBtrfs
  | some superblock =>
      let unsupported :=
        superblockIncompat superblock &&& (wordModulus - 1 - incompatSupported)
      if unsupported ≠ 0 then .error (.unsupportedIncompat unsupported)
      else .ok superblock

/-- The place of a superblock holds the magic. -/
def HasMagic (device : Store) (addr : Nat) : Prop :=
  unle (Store.read device (addr + 0x40) 8) = btrfsMagic

instance (device : Store) (addr : Nat) : Decidable (HasMagic device addr) :=
  inferInstanceAs (Decidable (_ = _))

theorem superblockMagic_read (device : Store) (addr : Nat) :
    superblockMagic (Store.read device addr superblockSize) = btrfsMagic ↔
      HasMagic device addr := by
  rw [superblockMagic, Store.slice_read device (by decide), HasMagic]

theorem foldl_considerSuperblock_isSome_iff
    (device : Store) (newest : Option Bytes) (addrs : List Nat) :
    (addrs.foldl (considerSuperblock device) newest).isSome ↔
      newest.isSome ∨ ∃ addr ∈ addrs, HasMagic device addr := by
  induction addrs generalizing newest with
  | nil => simp
  | cons addr rest ih =>
    rw [List.foldl_cons, ih, List.exists_mem_cons_iff, ← or_assoc]
    refine or_congr_left ?_
    have magic_iff := superblockMagic_read device addr
    unfold considerSuperblock
    by_cases magic : HasMagic device addr
    · rw [if_neg (not_not.mpr (magic_iff.mpr magic))]
      refine iff_of_true ?_ (Or.inr magic)
      cases newest with
      | none => rfl
      | some other =>
        simp only
        split_ifs <;> rfl
    · rw [if_pos (mt magic_iff.mp magic), or_iff_left magic]

/-- No superblock is found exactly when no searched location holds the magic. -/
theorem readSuperblock_notBtrfs_iff (deviceEnd : Nat) (device : Store) :
    readSuperblock deviceEnd device = .error .notBtrfs ↔
      ∀ addr ∈ searchedAddrs deviceEnd, ¬ HasMagic device addr := by
  have some_iff :=
    foldl_considerSuperblock_isSome_iff device none (searchedAddrs deviceEnd)
  rw [readSuperblock]
  cases newest : (searchedAddrs deviceEnd).foldl (considerSuperblock device) none with
  | none =>
    rw [newest] at some_iff
    refine iff_of_true rfl fun addr member magic => ?_
    exact absurd (some_iff.mpr (Or.inr ⟨addr, member, magic⟩)) Bool.noConfusion
  | some superblock =>
    rw [newest] at some_iff
    obtain noNewest | ⟨addr, member, magic⟩ := some_iff.mp rfl
    · exact absurd noNewest Bool.noConfusion
    · refine iff_of_false ?_ fun none_ => none_ addr member magic
      simp only
      split_ifs <;> simp

theorem mem_searchedAddrs_iff (deviceEnd addr : Nat) :
    addr ∈ searchedAddrs deviceEnd ↔
      addr ∈ superblockAddrs ∧ addr + superblockSize < deviceEnd := by
  have ascending : superblockAddrs.Pairwise (· < ·) := by decide
  rw [searchedAddrs, mem_takeWhile_iff_of_sorted ascending, decide_eq_true_eq]
  intro first second ordered fits
  rw [decide_eq_true_eq] at fits ⊢
  omega

/-! ## The extents of the image -/

/-- A chunk as `rollback` knows it: its length, its type and its first stripe. -/
structure ChunkEntry where
  length : Nat
  type : Nat
  stripeOffset : Nat
deriving DecidableEq, Repr

/-- `btrfs::find_chunk`. -/
def findChunk (chunks : SortedMap Nat ChunkEntry) (addr : Nat) :
    Except RollbackError (Nat × ChunkEntry) :=
  match chunks.entries.find? fun chunk => chunk.1 ≤ addr ∧ addr < chunk.1 + chunk.2.length with
  | none => .error (.noChunk addr)
  | some chunk => .ok chunk

/-- The types of chunks whose data is not in one place: RAID and `DUP`. -/
def notSingleTypes : Nat := 0x7f8

/-- `btrfs::raw_read`, on a device that ends at `deviceEnd`. -/
def rawRead (deviceEnd : Nat) (device : Store) (address length : Nat) :
    Except RollbackError Bytes :=
  if address + length ≤ deviceEnd then .ok (Store.read device address length)
  else .error (.readFailed length address)

/-- The walk over the tree of the image: the extents of the image file, by their place in it. -/
def parseExtents (inode : Nat) :
    List (BtrfsKey × Bytes) → SortedMap Nat (Nat × Nat) →
      Except RollbackError (SortedMap Nat (Nat × Nat))
  | [], extents => .ok extents
  | (key, data) :: rest, extents =>
      if key.objectid > inode ∨
          key.objectid = inode ∧ key.type > BtrfsKeyType.extentData then .ok extents
      else if key.objectid ≠ inode ∨ key.type ≠ BtrfsKeyType.extentData then
        parseExtents inode rest extents
      else
        let ed := readFileExtentItem data
        if ed.compression ≠ compressionNone then .error .imageCompressed
        -- treat as if sparse
        else if ed.type = extentPrealloc then parseExtents inode rest extents
        else if ed.type = extentInline then .error .imageInline
        else if ed.type ≠ extentReg then .error (.unknownExtentType ed.type)
        else if ed.diskBytenr = 0 ∧ ed.diskNumBytes = 0 then parseExtents inode rest extents
        else
          parseExtents inode rest
            (extents.emplace key.offset (ed.diskBytenr, ed.diskNumBytes))

/-- The second loop: read every extent whose place on the device is another one. -/
def readRelocs (deviceEnd : Nat) (chunks : SortedMap Nat ChunkEntry) (device : Store) :
    List (Nat × (Nat × Nat)) → Except RollbackError (List (Nat × Bytes))
  | [] => .ok []
  | (off, addr, len) :: rest => do
      let c ← findChunk chunks addr
      if c.2.type &&& notSingleTypes ≠ 0 then .error (.notSingle c.1)
      else
        let physoff := addr - c.1 + c.2.stripeOffset
        if off = physoff then -- identity map
          readRelocs deviceEnd chunks device rest
        else do
          let buf ← rawRead deviceEnd device physoff (len % 2 ^ 32)
          let later ← readRelocs deviceEnd chunks device rest
          .ok ((off, buf) :: later)

/-- `rollback`, from the items of the image subvolume on. -/
def rollback
    (deviceEnd inode : Nat) (chunks : SortedMap Nat ChunkEntry)
    (items : List (BtrfsKey × Bytes)) (device : Store) : Except RollbackError Store := do
  let extents ← parseExtents inode items SortedMap.empty
  let relocs ← readRelocs deviceEnd chunks device extents.entries
  -- the last loop writes everything that was read to its place
  .ok (Store.writeAll device relocs)

/-! ## What the loops find -/

/-- The item is an extent of the file. -/
def IsExtentOf (inode : Nat) (key : BtrfsKey) : Prop :=
  key.objectid = inode ∧ key.type = BtrfsKeyType.extentData

instance (inode : Nat) (key : BtrfsKey) : Decidable (IsExtentOf inode key) :=
  inferInstanceAs (Decidable (_ ∧ _))

/-- The extent on the device that an item of the file describes. -/
def imageExtent (inode : Nat) (entry : BtrfsKey × Bytes) : Option (Nat × (Nat × Nat)) :=
  let ed := readFileExtentItem entry.2
  if IsExtentOf inode entry.1 ∧ ed.type = extentReg ∧
      ¬ (ed.diskBytenr = 0 ∧ ed.diskNumBytes = 0) then
    some (entry.1.offset, (ed.diskBytenr, ed.diskNumBytes))
  else none

theorem imageExtent_of_not_extent
    {inode : Nat} {entry : BtrfsKey × Bytes} (other : ¬ IsExtentOf inode entry.1) :
    imageExtent inode entry = none :=
  if_neg fun all => other all.1

/-- The items after the one at which the walk stops are no extents of the file. -/
theorem not_isExtentOf_of_beyond
    {inode : Nat} {key later : BtrfsKey} (ordered : key ≤ later)
    (beyond : key.objectid > inode ∨
      key.objectid = inode ∧ key.type > BtrfsKeyType.extentData) :
    ¬ IsExtentOf inode later := by
  rintro ⟨objectid, type⟩
  rcases ordered.lt_or_eq with before | rfl
  · rw [BtrfsKey.lt_iff] at before
    omega
  · omega

/-- The walk finds exactly the extents that the items describe. -/
theorem mem_parseExtents_iff
    {inode : Nat} {items : List (BtrfsKey × Bytes)}
    (sorted : items.Pairwise fun left right => left.1 < right.1)
    {start extents : SortedMap Nat (Nat × Nat)}
    (fresh : ∀ entry ∈ items, IsExtentOf inode entry.1 → entry.1.offset ∉ start.keys)
    (done : parseExtents inode items start = .ok extents) (extent : Nat × (Nat × Nat)) :
    extent ∈ extents.entries ↔
      extent ∈ start.entries ∨ ∃ entry ∈ items, imageExtent inode entry = some extent := by
  induction items generalizing start with
  | nil =>
    cases done
    simp
  | cons entry rest ih =>
    obtain ⟨key, data⟩ := entry
    obtain ⟨before, sorted⟩ := List.pairwise_cons.mp sorted
    have restFresh := fun later member => fresh later (List.mem_cons_of_mem (key, data) member)
    have skipped (nothing : imageExtent inode (key, data) = none) :
        (∃ entry ∈ (key, data) :: rest, imageExtent inode entry = some extent) ↔
          ∃ entry ∈ rest, imageExtent inode entry = some extent := by
      rw [List.exists_mem_cons_iff, nothing]
      exact or_iff_right (by simp)
    simp only [parseExtents] at done
    split_ifs at done with beyond other compressed prealloc inline unknown sparse
    · cases done
      refine (or_iff_left ?_).symm
      rintro ⟨later, member, found⟩
      have ordered : key ≤ later.1 := by
        rcases List.mem_cons.mp member with rfl | inRest
        · exact le_rfl
        · exact (before later inRest).le
      rw [imageExtent_of_not_extent (not_isExtentOf_of_beyond ordered beyond)] at found
      cases found
    · have notExtent : ¬ IsExtentOf inode key := fun both =>
        other.elim (fun different => different both.1) fun different => different both.2
      rw [ih sorted restFresh done, skipped (imageExtent_of_not_extent notExtent)]
    · rw [ih sorted restFresh done, skipped (if_neg ?_)]
      rintro ⟨-, isReg, -⟩
      rw [prealloc] at isReg
      exact absurd isReg (by decide)
    · rw [ih sorted restFresh done, skipped (if_neg fun all => all.2.2 sparse)]
    · simp only [not_or, not_not] at other
      have isExtent : IsExtentOf inode key := other
      have new := fresh (key, data) List.mem_cons_self isExtent
      have found : imageExtent inode (key, data) =
          some (key.offset,
            ((readFileExtentItem data).diskBytenr, (readFileExtentItem data).diskNumBytes)) :=
        if_pos ⟨isExtent, not_not.mp unknown, sparse⟩
      rw [ih sorted ?_ done, SortedMap.mem_emplace_iff new, List.exists_mem_cons_iff, found,
        Option.some_inj]
      · constructor
        · rintro ((rfl | old) | later)
          · exact Or.inr (Or.inl rfl)
          · exact Or.inl old
          · exact Or.inr (Or.inr later)
        · rintro (old | rfl | later)
          · exact Or.inl (Or.inr old)
          · exact Or.inl (Or.inl rfl)
          · exact Or.inr later
      · intro later member laterExtent present
        obtain ⟨value, inMap⟩ := SortedMap.mem_keys_iff.mp present
        rcases (SortedMap.mem_emplace_iff new).mp inMap with equal | old
        · have same : later.1.offset = key.offset := congrArg Prod.fst equal
          have ordered : key < later.1 := before later member
          rw [BtrfsKey.lt_iff, isExtent.1, isExtent.2, laterExtent.1, laterExtent.2] at ordered
          omega
        · exact restFresh later member laterExtent (SortedMap.mem_keys_iff.mpr ⟨value, old⟩)

/-- The chunk that `find_chunk` returns holds the address. -/
theorem findChunk_spec
    {chunks : SortedMap Nat ChunkEntry} {addr : Nat} {chunk : Nat × ChunkEntry}
    (found : findChunk chunks addr = .ok chunk) :
    chunk ∈ chunks.entries ∧ chunk.1 ≤ addr ∧ addr < chunk.1 + chunk.2.length := by
  rw [findChunk] at found
  cases located : chunks.entries.find? fun chunk =>
      chunk.1 ≤ addr ∧ addr < chunk.1 + chunk.2.length with
  | none =>
    rw [located] at found
    cases found
  | some first =>
    rw [located] at found
    cases found
    exact ⟨List.mem_of_find?_eq_some located, by simpa using List.find?_some located⟩

end Ntfs2Btrfs
