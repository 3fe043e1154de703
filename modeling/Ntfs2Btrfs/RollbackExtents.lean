import Ntfs2Btrfs.Rollback

/-!
# What rollback puts into the file ranges

All extents are read before the first one is written, so the writes of
`rollback` copy bytes of the device it found: the byte at an address comes from
the last extent that is laid over it.  An extent is laid with all its bytes on
the disk at the file offset of its item, whatever part of it the item uses.

The image is restored for every content of the device exactly when the source
of each byte of a file range is the byte that its item refers to.
-/

namespace Ntfs2Btrfs

open ByteStore

/-! ## The extents in order -/

/-- The extents that the items of a file describe, in the order of the items. -/
def imageExtents (inode : Nat) (items : List (BtrfsKey × Bytes)) :
    List (Nat × (Nat × Nat)) :=
  items.filterMap (imageExtent inode)

/-- The place of a virtual address on the disk. -/
def physicalOf (chunks : SortedMap Nat ChunkEntry) (addr : Nat) : Nat :=
  match findChunk chunks addr with
  | .ok chunk => addr - chunk.1 + chunk.2.stripeOffset
  | .error _ => 0

/-- The image file has regular uncompressed extents inside chunks that are not striped. -/
structure RegularImage (deviceEnd inode : Nat) (chunks : SortedMap Nat ChunkEntry)
    (items : List (BtrfsKey × Bytes)) : Prop where
  sorted : items.Pairwise fun left right => left.1 < right.1
  regular : ∀ entry ∈ items, IsExtentOf inode entry.1 →
    (readFileExtentItem entry.2).compression = compressionNone ∧
      (readFileExtentItem entry.2).type = extentReg ∧
      (readFileExtentItem entry.2).offset + (readFileExtentItem entry.2).numBytes ≤
        (readFileExtentItem entry.2).diskNumBytes
  single : ∀ entry ∈ items, IsExtentOf inode entry.1 →
    ∃ chunk, findChunk chunks (readFileExtentItem entry.2).diskBytenr = .ok chunk ∧
      chunk.2.type &&& notSingleTypes = 0 ∧
      (readFileExtentItem entry.2).diskBytenr + (readFileExtentItem entry.2).diskNumBytes ≤
        chunk.1 + chunk.2.length ∧
      chunk.2.stripeOffset + chunk.2.length ≤ deviceEnd
  apart : items.Pairwise fun left right =>
    IsExtentOf inode left.1 → IsExtentOf inode right.1 →
      left.1.offset + (readFileExtentItem left.2).numBytes ≤ right.1.offset ∨
        right.1.offset + (readFileExtentItem right.2).numBytes ≤ left.1.offset

/-- The byte whose content `rollback` leaves at an address. -/
def sourceOf (chunks : SortedMap Nat ChunkEntry) (extents : List (Nat × (Nat × Nat)))
    (address : Nat) : Nat :=
  extents.foldl (fun source extent =>
    let physoff := physicalOf chunks extent.2.1
    if extent.1 ≠ physoff ∧ extent.1 ≤ address ∧ address < extent.1 + extent.2.2 % 2 ^ 32 then
      physoff + (address - extent.1)
    else source) address

/-! ## The loops of rollback on such an image -/

section Image

variable {deviceEnd inode : Nat} {chunks : SortedMap Nat ChunkEntry}
  {items : List (BtrfsKey × Bytes)}

theorem imageExtent_eq_some_iff {entry : BtrfsKey × Bytes} {extent : Nat × (Nat × Nat)} :
    imageExtent inode entry = some extent ↔
      (IsExtentOf inode entry.1 ∧ (readFileExtentItem entry.2).type = extentReg ∧
        ¬ ((readFileExtentItem entry.2).diskBytenr = 0 ∧
          (readFileExtentItem entry.2).diskNumBytes = 0)) ∧
        extent = (entry.1.offset, ((readFileExtentItem entry.2).diskBytenr,
          (readFileExtentItem entry.2).diskNumBytes)) := by
  simp only [imageExtent]
  split_ifs with found
  · rw [Option.some_inj, eq_comm]
    exact (and_iff_right found).symm
  · exact iff_of_false (by simp) fun both => found both.1

theorem RegularImage.parseExtents_ok
    (image : RegularImage deviceEnd inode chunks items) (start : SortedMap Nat (Nat × Nat)) :
    ∃ extents, parseExtents inode items start = .ok extents := by
  have regular := image.regular
  clear image
  induction items generalizing start with
  | nil => exact ⟨start, rfl⟩
  | cons entry rest ih =>
      rcases entry with ⟨key, data⟩
      have later := fun start => ih start fun other member =>
        regular other (List.mem_cons_of_mem _ member)
      rw [parseExtents]
      by_cases beyond : key.objectid > inode ∨
          key.objectid = inode ∧ key.type > BtrfsKeyType.extentData
      · exact ⟨start, if_pos beyond⟩
      · rw [if_neg beyond]
        by_cases other : key.objectid ≠ inode ∨ key.type ≠ BtrfsKeyType.extentData
        · rw [if_pos other]
          exact later start
        · rw [if_neg other]
          have isExtent : IsExtentOf inode key := by
            rwa [not_or, not_not, not_not] at other
          rcases regular _ List.mem_cons_self isExtent with ⟨plain, reg, _⟩
          simp only at plain reg
          have notPrealloc : ¬ extentReg = extentPrealloc := by decide
          have notInline : ¬ extentReg = extentInline := by decide
          simp only [plain, reg, ne_eq, not_true_eq_false, if_false, if_neg notPrealloc,
            if_neg notInline]
          split_ifs
          · exact later start
          · exact later _

/-- The walk collects the extents in the order of the items. -/
theorem RegularImage.entries_eq
    (image : RegularImage deviceEnd inode chunks items)
    {extents : SortedMap Nat (Nat × Nat)}
    (parsed : parseExtents inode items SortedMap.empty = .ok extents) :
    extents.entries = imageExtents inode items := by
  have members := fun extent =>
    mem_parseExtents_iff image.sorted (fun _ _ _ => List.not_mem_nil) parsed extent
  have ordered : (imageExtents inode items).Pairwise fun left right => left.1 < right.1 := by
    refine List.pairwise_filterMap.mpr (image.sorted.imp fun {left right} before => ?_)
    intro first firstEq second secondEq
    rcases imageExtent_eq_some_iff.mp firstEq with ⟨⟨leftExtent, _⟩, rfl⟩
    rcases imageExtent_eq_some_iff.mp secondEq with ⟨⟨rightExtent, _⟩, rfl⟩
    rw [BtrfsKey.lt_iff, leftExtent.1, leftExtent.2, rightExtent.1, rightExtent.2] at before
    simp only at before ⊢
    omega
  have distinct : (imageExtents inode items).Nodup :=
    ordered.imp fun before equal => absurd (equal ▸ before) (lt_irrefl _)
  have permuted : extents.entries.Perm (imageExtents inode items) := by
    refine (List.perm_ext_iff_of_nodup extents.nodup_entries distinct).mpr fun extent => ?_
    rw [members, imageExtents, List.mem_filterMap]
    exact or_iff_right List.not_mem_nil
  refine permuted.eq_of_pairwise (fun left right _ _ before after => ?_) extents.sorted ordered
  exact absurd (before.trans after) (lt_irrefl _)

/-- What the second loop reads of an extent; one that is in its place it leaves out. -/
def relocOf (chunks : SortedMap Nat ChunkEntry) (device : Store) (extent : Nat × (Nat × Nat)) :
    Option (Nat × Bytes) :=
  if extent.1 = physicalOf chunks extent.2.1 then none
  else some (extent.1, device.read (physicalOf chunks extent.2.1) (extent.2.2 % 2 ^ 32))

/-- An extent that lies in a chunk of a plain type, inside the device. -/
def Readable (deviceEnd : Nat) (chunks : SortedMap Nat ChunkEntry)
    (extent : Nat × (Nat × Nat)) : Prop :=
  ∃ chunk, findChunk chunks extent.2.1 = .ok chunk ∧ chunk.2.type &&& notSingleTypes = 0 ∧
    extent.2.1 + extent.2.2 ≤ chunk.1 + chunk.2.length ∧
      chunk.2.stripeOffset + chunk.2.length ≤ deviceEnd

theorem readRelocs_ok
    {extents : List (Nat × (Nat × Nat))}
    (readable : ∀ extent ∈ extents, Readable deviceEnd chunks extent) (device : Store) :
    readRelocs deviceEnd chunks device extents = .ok (extents.filterMap (relocOf chunks device)) := by
  induction extents with
  | nil => rfl
  | cons extent rest ih =>
      rcases extent with ⟨off, addr, len⟩
      rcases readable _ List.mem_cons_self with ⟨chunk, found, single, inside, device_end⟩
      have later := ih fun other member => readable other (List.mem_cons_of_mem _ member)
      have placed : physicalOf chunks addr = addr - chunk.1 + chunk.2.stripeOffset := by
        rw [physicalOf, found]
      have lower : chunk.1 ≤ addr := (findChunk_spec found).2.1
      have short := Nat.mod_le len (2 ^ 32)
      rw [readRelocs, found]
      change (if chunk.2.type &&& notSingleTypes ≠ 0 then _ else _) = _
      rw [if_neg (not_not.mpr single), ← placed]
      by_cases identity : off = physicalOf chunks addr
      · simp only [if_pos identity, later]
        rw [List.filterMap_cons, relocOf, if_pos identity]
      · have fits : physicalOf chunks addr + len % 2 ^ 32 ≤ deviceEnd := by
          simp only at inside
          omega
        simp only [if_neg identity, later, rawRead, if_pos fits]
        rw [List.filterMap_cons, relocOf, if_neg identity]
        rfl

theorem RegularImage.rollback_ok
    (image : RegularImage deviceEnd inode chunks items) (device : Store) :
    rollback deviceEnd inode chunks items device =
      .ok (device.writeAll
        ((imageExtents inode items).filterMap (relocOf chunks device))) := by
  rcases image.parseExtents_ok SortedMap.empty with ⟨extents, parsed⟩
  have entries := image.entries_eq parsed
  have readable : ∀ extent ∈ extents.entries, Readable deviceEnd chunks extent := by
    intro extent member
    rw [entries] at member
    rcases List.mem_filterMap.mp member with ⟨entry, inside, found⟩
    rcases imageExtent_eq_some_iff.mp found with ⟨⟨isExtent, _⟩, rfl⟩
    exact image.single entry inside isExtent
  rw [rollback, parsed]
  change (readRelocs deviceEnd chunks device extents.entries >>= _) = _
  rw [readRelocs_ok readable, entries]
  rfl

end Image

/-! ## Where the bytes come from -/

theorem writeAll_relocs
    (chunks : SortedMap Nat ChunkEntry) (device store : Store)
    (extents : List (Nat × (Nat × Nat))) {address source : Nat}
    (holds : store address = device source) :
    store.writeAll (extents.filterMap (relocOf chunks device)) address =
      device (extents.foldl (fun source extent =>
        let physoff := physicalOf chunks extent.2.1
        if extent.1 ≠ physoff ∧ extent.1 ≤ address ∧
            address < extent.1 + extent.2.2 % 2 ^ 32 then
          physoff + (address - extent.1)
        else source) source) := by
  induction extents generalizing store source with
  | nil => exact holds
  | cons extent rest ih =>
      rw [List.filterMap_cons, List.foldl_cons]
      by_cases identity : extent.1 = physicalOf chunks extent.2.1
      · rw [relocOf, if_pos identity, if_neg fun both => both.1 identity]
        exact ih store holds
      · rw [relocOf, if_neg identity]
        simp only [Store.writeAll_cons]
        refine ih _ ?_
        have length := Store.length_read device (physicalOf chunks extent.2.1) (extent.2.2 % 2 ^ 32)
        by_cases inside : extent.1 ≤ address ∧ address < extent.1 + extent.2.2 % 2 ^ 32
        · rw [if_pos ⟨identity, inside⟩]
          have written := @Store.write_inside store _ _ _ inside.1 (length.symm ▸ inside.2)
          rw [Store.getElem?_read, if_pos (by omega)] at written
          exact (Option.some.inj written).symm
        · rw [if_neg fun both => inside both.2, Store.write_outside ?_]
          · exact holds
          · rw [length]
            omega

theorem rollback_apply
    {deviceEnd inode : Nat} {chunks : SortedMap Nat ChunkEntry}
    {items : List (BtrfsKey × Bytes)}
    (image : RegularImage deviceEnd inode chunks items)
    {device result : Store}
    (returned : rollback deviceEnd inode chunks items device = .ok result) (address : Nat) :
    result address = device (sourceOf chunks (imageExtents inode items) address) := by
  rw [image.rollback_ok device] at returned
  cases returned
  exact writeAll_relocs chunks device device _ rfl

/-- The byte of the device that the image file has at an offset of an extent. -/
def imageByte (chunks : SortedMap Nat ChunkEntry) (data : Bytes) (index : Nat) : Nat :=
  physicalOf chunks (readFileExtentItem data).diskBytenr + (readFileExtentItem data).offset + index

/--
Every byte of the file range of every item comes from where the item says.
-/
def SourcesAgree (inode : Nat) (chunks : SortedMap Nat ChunkEntry)
    (items : List (BtrfsKey × Bytes)) : Prop :=
  ∀ entry ∈ items, IsExtentOf inode entry.1 →
    ∀ index < (readFileExtentItem entry.2).numBytes,
      sourceOf chunks (imageExtents inode items) (entry.1.offset + index) =
        imageByte chunks entry.2 index

/-! ## Images as they are converted -/

/-- The extent is laid over the address by `rollback`. -/
def Lays (extent : Nat × (Nat × Nat)) (address : Nat) : Prop :=
  extent.1 ≤ address ∧ address < extent.1 + extent.2.2 % 2 ^ 32

theorem foldl_source_of_not_lays
    (chunks : SortedMap Nat ChunkEntry) {extents : List (Nat × (Nat × Nat))} {address : Nat}
    (outside : ∀ extent ∈ extents, ¬ Lays extent address) (source : Nat) :
    extents.foldl (fun source extent =>
      let physoff := physicalOf chunks extent.2.1
      if extent.1 ≠ physoff ∧ extent.1 ≤ address ∧
          address < extent.1 + extent.2.2 % 2 ^ 32 then
        physoff + (address - extent.1)
      else source) source = source := by
  induction extents with
  | nil => rfl
  | cons extent rest ih =>
      rw [List.foldl_cons]
      simp only
      rw [if_neg fun both => outside extent List.mem_cons_self both.2]
      exact ih fun other member => outside other (List.mem_cons_of_mem extent member)

/-- Where only one extent is laid the bytes come from it. -/
theorem sourceOf_single
    (chunks : SortedMap Nat ChunkEntry) {front back : List (Nat × (Nat × Nat))}
    {extent : Nat × (Nat × Nat)} {address : Nat}
    (inside : Lays extent address)
    (outside : ∀ other ∈ front ++ back, ¬ Lays other address) :
    sourceOf chunks (front ++ extent :: back) address =
      physicalOf chunks extent.2.1 + (address - extent.1) := by
  rw [List.forall_mem_append] at outside
  rw [sourceOf, List.foldl_append, foldl_source_of_not_lays chunks outside.1, List.foldl_cons,
    foldl_source_of_not_lays chunks outside.2]
  by_cases identity : extent.1 = physicalOf chunks extent.2.1
  · rw [if_neg fun both => both.1 identity]
    have lower := inside.1
    omega
  · rw [if_pos ⟨identity, inside⟩]

/-- The items use their extents whole, none of which reaches 4 GiB. -/
def UsedWhole (inode : Nat) (items : List (BtrfsKey × Bytes)) : Prop :=
  ∀ entry ∈ items, IsExtentOf inode entry.1 →
    (readFileExtentItem entry.2).offset = 0 ∧
      (readFileExtentItem entry.2).numBytes = (readFileExtentItem entry.2).diskNumBytes ∧
      (readFileExtentItem entry.2).diskNumBytes < 2 ^ 32

/-- An image whose extents are used whole, as `create_image` makes them, is restored. -/
theorem RegularImage.sourcesAgree_of_usedWhole
    {deviceEnd inode : Nat} {chunks : SortedMap Nat ChunkEntry}
    {items : List (BtrfsKey × Bytes)}
    (image : RegularImage deviceEnd inode chunks items) (whole : UsedWhole inode items) :
    SourcesAgree inode chunks items := by
  intro entry member isExtent index inside
  rcases whole entry member isExtent with ⟨offset, used, short⟩
  have found : imageExtent inode entry = some (entry.1.offset,
      ((readFileExtentItem entry.2).diskBytenr, (readFileExtentItem entry.2).diskNumBytes)) := by
    refine imageExtent_eq_some_iff.mpr ⟨⟨isExtent, (image.regular entry member isExtent).2.1, ?_⟩, rfl⟩
    rintro ⟨_, none_used⟩
    omega
  obtain ⟨before, after, shape⟩ := List.append_of_mem member
  have extents : imageExtents inode items =
      imageExtents inode before ++ (entry.1.offset,
        ((readFileExtentItem entry.2).diskBytenr,
          (readFileExtentItem entry.2).diskNumBytes)) :: imageExtents inode after := by
    rw [shape, imageExtents, List.filterMap_append, List.filterMap_cons_some found]
    rfl
  have apart := image.apart
  rw [shape, List.pairwise_append] at apart
  rcases apart with ⟨_, apartAfter, apartBefore⟩
  have outside : ∀ other ∈ before ++ after, ∀ extent, imageExtent inode other = some extent →
      ¬ Lays extent (entry.1.offset + index) := by
    intro other inList extent foundOther lays
    rcases imageExtent_eq_some_iff.mp foundOther with ⟨⟨otherExtent, _⟩, rfl⟩
    have otherMember : other ∈ items := by
      rw [shape]
      rcases List.mem_append.mp inList with front | back
      · exact List.mem_append_left _ front
      · exact List.mem_append_right _ (List.mem_cons_of_mem _ back)
    rcases whole other otherMember otherExtent with ⟨_, otherUsed, otherShort⟩
    have ranges : other.1.offset + (readFileExtentItem other.2).numBytes ≤ entry.1.offset ∨
        entry.1.offset + (readFileExtentItem entry.2).numBytes ≤ other.1.offset := by
      rcases List.mem_append.mp inList with front | back
      · exact apartBefore other front entry List.mem_cons_self otherExtent isExtent
      · exact ((List.pairwise_cons.mp apartAfter).1 other back isExtent otherExtent).symm
    rw [Lays] at lays
    simp only [Nat.mod_eq_of_lt otherShort] at lays
    omega
  have inside_here : Lays (entry.1.offset, ((readFileExtentItem entry.2).diskBytenr,
      (readFileExtentItem entry.2).diskNumBytes)) (entry.1.offset + index) := by
    rw [Lays]
    simp only [Nat.mod_eq_of_lt short]
    omega
  have outside_others : ∀ extent ∈ imageExtents inode before ++ imageExtents inode after,
      ¬ Lays extent (entry.1.offset + index) := by
    intro extent inExtents
    rw [imageExtents, imageExtents, ← List.filterMap_append] at inExtents
    rcases List.mem_filterMap.mp inExtents with ⟨other, inList, foundOther⟩
    exact outside other inList extent foundOther
  rw [extents, sourceOf_single chunks inside_here outside_others, imageByte, offset]
  simp only
  omega

/-! ## An extent that is used in part -/

/-- The second half of an extent, as a file system leaves it that rewrites the first half. -/
def halfExtent : FileExtentItem where
  generation := 1
  ramBytes := 0x2000
  compression := compressionNone
  encryption := 0
  otherEncoding := 0
  type := extentReg
  diskBytenr := 0x500000
  diskNumBytes := 0x2000
  offset := 0x1000
  numBytes := 0x1000

/-- The whole of the same extent. -/
def wholeExtent : FileExtentItem :=
  { halfExtent with offset := 0, numBytes := 0x2000 }

/-- A chunk of 1 MiB whose data lies 1 MiB below its virtual address. -/
def plainChunks : SortedMap Nat ChunkEntry where
  entries := [(0x500000, ⟨0x100000, 1, 0x400000⟩)]
  sorted := List.pairwise_singleton _ _

/-- The items of an image with one extent at 64 KiB. -/
def imageWith (extent : FileExtentItem) : List (BtrfsKey × Bytes) :=
  [(btrfsKey 0x101 BtrfsKeyType.extentData 0x10000, extent.bytes)]

theorem imageWith_regular
    {extent : FileExtentItem} (fits : extent.Fits)
    (plain : extent.compression = compressionNone) (reg : extent.type = extentReg)
    (used : extent.offset + extent.numBytes ≤ extent.diskNumBytes)
    (bytenr : extent.diskBytenr = 0x500000) (short : extent.diskNumBytes ≤ 0x100000) :
    RegularImage 0x10000000 0x101 plainChunks (imageWith extent) := by
  have decoded := readFileExtentItem_bytes fits
  refine ⟨List.pairwise_singleton _ _, ?_, ?_, List.pairwise_singleton _ _⟩
  · intro entry member _
    rw [List.mem_singleton.mp member, decoded]
    exact ⟨plain, reg, used⟩
  · intro entry member _
    rw [List.mem_singleton.mp member, decoded, bytenr]
    exact ⟨(0x500000, ⟨0x100000, 1, 0x400000⟩), rfl, by decide,
      Nat.add_le_add_left short _, by decide⟩

theorem halfExtent_fits : halfExtent.Fits := by
  constructor <;> decide

theorem wholeExtent_fits : wholeExtent.Fits := by
  constructor <;> decide

/-! ## When the image is restored -/

/--
`rollback` restores the image for every content of the device exactly when
every byte of a file range is taken from the place its item refers to: the
last extent laid over it must be laid with the right shift.
-/
theorem rollback_restores_iff
    {deviceEnd inode : Nat} {chunks : SortedMap Nat ChunkEntry}
    {items : List (BtrfsKey × Bytes)}
    (image : RegularImage deviceEnd inode chunks items) :
    (∀ device : Store, ∃ result,
        rollback deviceEnd inode chunks items device = .ok result ∧
          ∀ entry ∈ items, IsExtentOf inode entry.1 →
            ∀ index < (readFileExtentItem entry.2).numBytes,
              result (entry.1.offset + index) = device (imageByte chunks entry.2 index)) ↔
      SourcesAgree inode chunks items := by
  constructor
  · intro restores entry member isExtent index inside
    -- a device with one marked byte tells two addresses apart
    rcases restores fun address => if address = imageByte chunks entry.2 index then 1 else 0 with
      ⟨result, returned, restored⟩
    have byte := restored entry member isExtent index inside
    rw [rollback_apply image returned, if_pos rfl] at byte
    by_contra other
    rw [if_neg other] at byte
    cases byte
  · intro agree device
    refine ⟨_, image.rollback_ok device, fun entry member isExtent index inside => ?_⟩
    rw [rollback_apply image (image.rollback_ok device), agree entry member isExtent index inside]

theorem rollback_restores_whole_extent :
    RegularImage 0x10000000 0x101 plainChunks (imageWith wholeExtent) ∧
      ∀ device : Store, ∃ result,
        rollback 0x10000000 0x101 plainChunks (imageWith wholeExtent) device = .ok result ∧
          ∀ entry ∈ imageWith wholeExtent, IsExtentOf 0x101 entry.1 →
            ∀ index < (readFileExtentItem entry.2).numBytes,
              result (entry.1.offset + index) =
                device (imageByte plainChunks entry.2 index) := by
  have image := imageWith_regular wholeExtent_fits rfl rfl (by decide) rfl (by decide)
  refine ⟨image, (rollback_restores_iff image).mpr (image.sourcesAgree_of_usedWhole ?_)⟩
  intro entry member _
  rw [List.mem_singleton.mp member, readFileExtentItem_bytes wholeExtent_fits]
  decide

theorem rollback_shifts_half_extent :
    RegularImage 0x10000000 0x101 plainChunks (imageWith halfExtent) ∧
      ¬ ∀ device : Store, ∃ result,
        rollback 0x10000000 0x101 plainChunks (imageWith halfExtent) device = .ok result ∧
          ∀ entry ∈ imageWith halfExtent, IsExtentOf 0x101 entry.1 →
            ∀ index < (readFileExtentItem entry.2).numBytes,
              result (entry.1.offset + index) =
                device (imageByte plainChunks entry.2 index) := by
  have image := imageWith_regular halfExtent_fits rfl rfl (by decide) rfl (by decide)
  refine ⟨image, fun restores => ?_⟩
  rcases restores fun address => if address = 0x401000 then 1 else 0 with
    ⟨result, returned, restored⟩
  have decoded := readFileExtentItem_bytes halfExtent_fits
  have byte := restored _ List.mem_cons_self ⟨rfl, rfl⟩ 0 (by rw [decoded]; decide)
  have extents : imageExtents 0x101 (imageWith halfExtent) = [(0x10000, (0x500000, 0x2000))] := by
    rw [imageExtents, imageWith, List.filterMap_cons, imageExtent, decoded]
    rfl
  rw [rollback_apply image returned, imageByte, decoded, extents] at byte
  exact absurd byte (by decide)

end Ntfs2Btrfs
