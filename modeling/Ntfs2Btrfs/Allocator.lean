import Ntfs2Btrfs.Items
import Ntfs2Btrfs.SpaceList

/-!
# The two allocators

`allocate_metadata` and `allocate_data` serve a request first-fit from the
free lists of the chunks of the requested type.  When none fits they carve a
new chunk out of the global `space_list`, cut the superblock stripes out of
it, and serve the request there.

`Allocator.WellFormed` is the invariant that relates both levels of free
lists.  Every outcome of an allocation, thrown or returned, is one of four
shapes (`allocateFrom_cases`); the invariant and the accounting of free bytes
are derived from those.
-/

namespace Ntfs2Btrfs

open Extents
open ByteStore

/-! ## The state and the operations -/

/-- The globals that allocations read and change, with `extent_root.items`. -/
structure Allocator where
  chunks : List Chunk
  spaceList : List Space
  chunksChanged : Bool := false
  extentItems : ItemMap := SortedMap.empty

/-- Take `length` bytes from the first space that is long enough. -/
def takeSpace (length : Nat) : List Space → Option (Nat × List Space)
  | [] => none
  | space :: rest =>
      if space.length ≥ length then
        if space.length = length then some (space.offset, rest)
        else
          some (space.offset,
            ⟨space.offset + length, space.length - length⟩ :: rest)
      else
        (takeSpace length rest).map fun taken =>
          (taken.1, space :: taken.2)

/-- The chunk after an allocation that leaves the given free list. -/
def Chunk.take (chunk : Chunk) (spaces : List Space) (used : Nat) : Chunk :=
  { chunk with spaceList := spaces, used := used }

/-- Take `length` bytes from the first chunk of a type that has room. -/
def takeFromChunks
    (type length : Nat) (used : Chunk → Nat) :
    List Chunk → Option (Nat × List Chunk)
  | [] => none
  | chunk :: rest =>
      let found :=
        if chunk.type &&& type ≠ 0 then takeSpace length chunk.spaceList
        else none
      match found with
      | some (address, spaces) =>
          some (address, chunk.take spaces (used chunk) :: rest)
      | none =>
          (takeFromChunks type length used rest).map fun taken =>
            (taken.1, chunk :: taken.2)

/-- A new chunk, free except for superblock stripes. -/
def freshChunk (diskOffset chunkSize type : Nat) : Chunk :=
  removeSuperblocks
    { offset := diskOffset + chunkVirtOffset
      length := chunkSize
      diskStart := diskOffset
      type := type
      spaceList := [⟨diskOffset + chunkVirtOffset, chunkSize⟩] }

/-- Carve a new chunk out of the global free list. -/
def carve (state : Allocator) (space : Space) (chunkSize type : Nat) :
    Allocator :=
  { state with
    chunks := state.chunks ++ [freshChunk space.offset chunkSize type]
    spaceList := spaceListRemove state.spaceList space.offset chunkSize
    chunksChanged := true }

/--
The search that both allocators perform.  `usedOld` is the new usage of an
existing chunk and `usedNew` that of a chunk created for the request.
-/
def allocateFrom
    (type chunkSize length : Nat) (usedOld : Chunk → Nat) (usedNew : Nat)
    (noAddress : ConvertError) (state : Allocator) :
    Except ConvertError Nat × Allocator :=
  match takeFromChunks type length usedOld state.chunks with
  | some (address, chunks) => (.ok address, { state with chunks := chunks })
  | none =>
      -- create new chunk
      match state.spaceList.find? fun space => space.length ≥ chunkSize with
      | none => (.error .noSpaceForChunk, { state with chunksChanged := true })
      | some space =>
          let chunk := freshChunk space.offset chunkSize type
          match takeSpace length chunk.spaceList with
          | some (address, spaces) =>
              (.ok address,
                { carve state space chunkSize type with
                  chunks := state.chunks ++ [chunk.take spaces usedNew] })
          | none => (.error noAddress, carve state space chunkSize type)

/-- The block group type that holds the trees of a root. -/
def metadataType (root : Nat) : Nat :=
  if root = chunkTreeObjectid then blockGroupSystem else blockGroupMetadata

/-- The size of a chunk created for the trees of a root. -/
def metadataChunkSize (root : Nat) : Nat :=
  if root = chunkTreeObjectid then systemChunkSize else dataChunkSize

/-- Allocate a tree block and describe it in the extent tree. -/
def allocateMetadata (root level : Nat) (state : Allocator) :
    Except ConvertError Nat × Allocator :=
  match allocateFrom (metadataType root) (metadataChunkSize root) treeSize
      (fun chunk => (chunk.used + treeSize) % wordModulus) treeSize
      .noMetadataAddress state with
  | (.error error, next) => (.error error, next)
  | (.ok address, next) =>
      match addItem next.extentItems address BtrfsKeyType.metadataItem level
          (metadataItem root) with
      | .error error => (.error error, next)
      | .ok items => (.ok address, { next with extentItems := items })

/-- Allocate file data; `change_used` says whether the chunk accounts for it. -/
def allocateData (length : Nat) (changeUsed : Bool) (state : Allocator) :
    Except ConvertError Nat × Allocator :=
  allocateFrom blockGroupData dataChunkSize length
    (fun chunk =>
      if changeUsed then (chunk.used + length) % wordModulus else chunk.used)
    (if changeUsed then length else 0) .noDataAddress state

/-! ## Searching a free list -/

/-- What a successful search of a free list returns and leaves. -/
theorem takeSpace_spec
    {length : Nat} {spaces left : List Space} {address : Nat}
    (taken : takeSpace length spaces = some (address, left)) :
    (∃ space ∈ spaces, space.offset = address ∧ length ≤ space.length) ∧
      (∀ space ∈ left, ∃ old ∈ spaces,
        space.stop = old.stop ∧
          (space.offset = old.offset ∨
            space.offset = old.offset + length ∧ length < old.length)) := by
  induction spaces generalizing left with
  | nil => simp [takeSpace] at taken
  | cons head rest induction =>
      rw [takeSpace] at taken
      split_ifs at taken with fits exact_
      · obtain ⟨rfl, rfl⟩ := Prod.mk.inj (Option.some.inj taken)
        refine ⟨⟨head, List.mem_cons_self, rfl, fits⟩, ?_⟩
        intro space member
        exact ⟨space, List.mem_cons_of_mem _ member, rfl, Or.inl rfl⟩
      · obtain ⟨rfl, rfl⟩ := Prod.mk.inj (Option.some.inj taken)
        refine ⟨⟨head, List.mem_cons_self, rfl, fits⟩, ?_⟩
        intro space member
        rcases List.mem_cons.mp member with rfl | tailMember
        · refine ⟨head, List.mem_cons_self, ?_, Or.inr ⟨rfl, ?_⟩⟩
          · simp only [Extent.stop]
            omega
          · omega
        · exact ⟨space, List.mem_cons_of_mem _ tailMember, rfl, Or.inl rfl⟩
      · obtain ⟨⟨found, remaining⟩, located, equal⟩ :=
          Option.map_eq_some_iff.mp taken
        obtain ⟨rfl, rfl⟩ := Prod.mk.inj equal
        obtain ⟨⟨space, member, facts⟩, origins⟩ := induction located
        refine ⟨⟨space, List.mem_cons_of_mem _ member, facts⟩, ?_⟩
        intro space member
        rcases List.mem_cons.mp member with rfl | tailMember
        · exact ⟨space, List.mem_cons_self, rfl, Or.inl rfl⟩
        · obtain ⟨old, oldMember, facts⟩ := origins space tailMember
          exact ⟨old, List.mem_cons_of_mem _ oldMember, facts⟩

/-- A search keeps the list tidy and removes exactly the returned range. -/
theorem takeSpace_tidy
    {length : Nat} {spaces left : List Space} {address : Nat}
    (tidy : Tidy spaces)
    (taken : takeSpace length spaces = some (address, left)) :
    Tidy left ∧
      ∀ point, Covers left point ↔
        Covers spaces point ∧
          ¬ (address ≤ point ∧ point < address + length) := by
  induction spaces generalizing left with
  | nil => simp [takeSpace] at taken
  | cons head rest induction =>
      obtain ⟨positive, first, restTidy⟩ := (tidy_cons_iff head rest).mp tidy
      have beyond :
          ∀ {point}, Covers rest point → head.offset + head.length ≤ point :=
        tidy.stop_le_of_covers
      rw [takeSpace] at taken
      split_ifs at taken with fits exact_
      · obtain ⟨rfl, rfl⟩ := Prod.mk.inj (Option.some.inj taken)
        refine ⟨restTidy, ?_⟩
        intro point
        simp only [covers_cons, Extent.Contains, Extent.stop]
        constructor
        · intro covered
          have := beyond covered
          exact ⟨Or.inr covered, by omega⟩
        · rintro ⟨inHead | covered, outside⟩
          · omega
          · exact covered
      · obtain ⟨rfl, rfl⟩ := Prod.mk.inj (Option.some.inj taken)
        constructor
        · refine (tidy_cons_iff _ _).mpr ⟨?_, ?_, restTidy⟩
          · simp only
            omega
          · intro space member
            have ordered := first space member
            simp only [Extent.stop] at ordered ⊢
            omega
        · intro point
          simp only [covers_cons, Extent.Contains, Extent.stop]
          constructor
          · rintro (inHead | covered)
            · exact ⟨Or.inl (by omega), by omega⟩
            · have := beyond covered
              exact ⟨Or.inr covered, by omega⟩
          · rintro ⟨inHead | covered, outside⟩
            · exact Or.inl (by omega)
            · exact Or.inr covered
      · obtain ⟨⟨found, remaining⟩, located, equal⟩ :=
          Option.map_eq_some_iff.mp taken
        obtain ⟨rfl, rfl⟩ := Prod.mk.inj equal
        obtain ⟨leftTidy, leftCovers⟩ := induction restTidy located
        obtain ⟨⟨source, sourceMember, sourceOffset, -⟩, origins⟩ :=
          takeSpace_spec located
        constructor
        · refine (tidy_cons_iff _ _).mpr ⟨positive, ?_, leftTidy⟩
          intro space member
          obtain ⟨old, oldMember, -, start⟩ := origins space member
          have ordered := first old oldMember
          omega
        · intro point
          have sourceAfter := first source sourceMember
          simp only [covers_cons, leftCovers, Extent.Contains,
            Extent.stop] at sourceAfter ⊢
          constructor
          · rintro (inHead | ⟨covered, outside⟩)
            · exact ⟨Or.inl inHead, by omega⟩
            · exact ⟨Or.inr covered, outside⟩
          · rintro ⟨inHead | covered, outside⟩
            · exact Or.inl inHead
            · exact Or.inr ⟨covered, outside⟩

/-- The chunk list after a successful search differs in one chunk. -/
theorem takeFromChunks_spec
    {type length : Nat} {used : Chunk → Nat} {chunks left : List Chunk}
    {address : Nat}
    (taken : takeFromChunks type length used chunks = some (address, left)) :
    ∃ before chunk after spaces,
      chunks = before ++ chunk :: after ∧
        chunk.type &&& type ≠ 0 ∧
        takeSpace length chunk.spaceList = some (address, spaces) ∧
        left = before ++ chunk.take spaces (used chunk) :: after := by
  induction chunks generalizing left with
  | nil => simp [takeFromChunks] at taken
  | cons head rest induction =>
      rw [takeFromChunks] at taken
      by_cases eligible : head.type &&& type ≠ 0
      · cases located : takeSpace length head.spaceList with
        | some found =>
            obtain ⟨foundAddress, spaces⟩ := found
            simp only [eligible, located, if_true, Option.some.injEq,
              Prod.mk.injEq, ne_eq, not_false_eq_true] at taken
            obtain ⟨rfl, rfl⟩ := taken
            exact ⟨[], head, rest, spaces, rfl, eligible, located, rfl⟩
        | none =>
            simp only [eligible, located, if_true, ne_eq,
              not_false_eq_true] at taken
            obtain ⟨⟨found, remaining⟩, restTaken, equal⟩ :=
              Option.map_eq_some_iff.mp taken
            obtain ⟨rfl, rfl⟩ := Prod.mk.inj equal
            obtain ⟨before, chunk, after, spaces, shape, facts⟩ :=
              induction restTaken
            exact
              ⟨head :: before, chunk, after, spaces, by simp [shape],
                facts.1, facts.2.1, by simp [facts.2.2]⟩
      · simp only [eligible, if_false] at taken
        obtain ⟨⟨found, remaining⟩, restTaken, equal⟩ :=
          Option.map_eq_some_iff.mp taken
        obtain ⟨rfl, rfl⟩ := Prod.mk.inj equal
        obtain ⟨before, chunk, after, spaces, shape, facts⟩ :=
          induction restTaken
        exact
          ⟨head :: before, chunk, after, spaces, by simp [shape],
            facts.1, facts.2.1, by simp [facts.2.2]⟩

/-- Every outcome of the search: served, no room for a chunk, or a new chunk. -/
theorem allocateFrom_cases
    (type chunkSize length : Nat) (usedOld : Chunk → Nat) (usedNew : Nat)
    (noAddress : ConvertError) (state : Allocator) :
    let outcome :=
      allocateFrom type chunkSize length usedOld usedNew noAddress state
    (∃ before chunk after spaces address,
      state.chunks = before ++ chunk :: after ∧
        chunk.type &&& type ≠ 0 ∧
        takeSpace length chunk.spaceList = some (address, spaces) ∧
        outcome =
          (.ok address,
            { state with
              chunks :=
                before ++ chunk.take spaces (usedOld chunk) :: after })) ∨
    outcome =
      (.error .noSpaceForChunk, { state with chunksChanged := true }) ∨
    (∃ space ∈ state.spaceList, chunkSize ≤ space.length ∧
      (outcome = (.error noAddress, carve state space chunkSize type) ∨
        ∃ spaces address,
          takeSpace length
              (freshChunk space.offset chunkSize type).spaceList =
            some (address, spaces) ∧
          outcome =
            (.ok address,
              { carve state space chunkSize type with
                chunks :=
                  state.chunks ++
                    [(freshChunk space.offset chunkSize type).take
                      spaces usedNew] }))) := by
  intro outcome
  simp only [outcome, allocateFrom]
  cases served : takeFromChunks type length usedOld state.chunks with
  | some found =>
      obtain ⟨address, chunks⟩ := found
      obtain ⟨before, chunk, after, spaces, shape, eligible, taken, rfl⟩ :=
        takeFromChunks_spec served
      exact Or.inl
        ⟨before, chunk, after, spaces, address, shape, eligible, taken, rfl⟩
  | none =>
      refine Or.inr ?_
      cases located :
          state.spaceList.find? fun space => space.length ≥ chunkSize with
      | none => exact Or.inl rfl
      | some space =>
          refine Or.inr ⟨space, List.mem_of_find?_eq_some located, ?_, ?_⟩
          · simpa using List.find?_some located
          · cases taken :
                takeSpace length
                  (freshChunk space.offset chunkSize type).spaceList with
            | none => exact Or.inl (by simp [taken])
            | some found =>
                obtain ⟨address, spaces⟩ := found
                exact Or.inr ⟨spaces, address, rfl, by simp [taken]⟩

/-! ## The invariant -/

/-- What holds of each chunk. -/
structure Chunk.WellFormed (chunk : Chunk) : Prop where
  placed : chunk.offset = chunk.diskStart + chunkVirtOffset
  startAligned : stripeLength ∣ chunk.diskStart
  lengthAligned : stripeLength ∣ chunk.length
  tidy : Tidy chunk.spaceList
  inside : ∀ space ∈ chunk.spaceList,
    chunk.offset ≤ space.offset ∧ space.stop ≤ chunk.offset + chunk.length
  offStripes : ∀ address, chunk.Free address → ¬ InSuperblockStripe address

/-- What holds of the chunks and the global free list together. -/
structure Allocator.WellFormed (state : Allocator) : Prop where
  chunks : ∀ chunk ∈ state.chunks, chunk.WellFormed
  apart : state.chunks.Pairwise fun left right =>
    left.diskRange.Disjoint right.diskRange
  spaceTidy : Tidy state.spaceList
  spaceAligned : ∀ space ∈ state.spaceList, stripeLength ∣ space.offset
  spaceApart : ∀ space ∈ state.spaceList, ∀ chunk ∈ state.chunks,
    space.Disjoint chunk.diskRange

/-- The disk address is free in a chunk or in the global free list. -/
def Allocator.Free (state : Allocator) (address : Nat) : Prop :=
  (∃ chunk ∈ state.chunks, chunk.Free address) ∨
    Covers state.spaceList address

/-- The disk address is in the range of `length` bytes at a virtual address. -/
def InRange (virtual length address : Nat) : Prop :=
  virtual ≤ address + chunkVirtOffset ∧
    address + chunkVirtOffset < virtual + length

theorem Chunk.WellFormed.diskRange_of_free
    {chunk : Chunk} (wellFormed : chunk.WellFormed)
    {address : Nat} (free : chunk.Free address) :
    chunk.diskRange.Contains address := by
  obtain ⟨space, member, inside⟩ := free
  have bounds := wellFormed.inside space member
  have placed := wellFormed.placed
  simp only [Extent.Contains, Extent.stop, Chunk.diskRange] at inside bounds ⊢
  omega

/-- Taking space from a chunk keeps it well formed and frees nothing. -/
theorem Chunk.WellFormed.take
    {chunk : Chunk} (wellFormed : chunk.WellFormed)
    {length address : Nat} {spaces : List Space}
    (taken : takeSpace length chunk.spaceList = some (address, spaces))
    (used : Nat) :
    (chunk.take spaces used).WellFormed ∧
      (∀ point, (chunk.take spaces used).Free point ↔
        chunk.Free point ∧ ¬ InRange address length point) := by
  obtain ⟨tidy, covers⟩ := takeSpace_tidy wellFormed.tidy taken
  obtain ⟨-, origins⟩ := takeSpace_spec taken
  have freeIff :
      ∀ point, (chunk.take spaces used).Free point ↔
        chunk.Free point ∧ ¬ InRange address length point :=
    fun point => covers (point + chunkVirtOffset)
  refine ⟨?_, freeIff⟩
  refine
    { placed := wellFormed.placed
      startAligned := wellFormed.startAligned
      lengthAligned := wellFormed.lengthAligned
      tidy := tidy
      inside := ?_
      offStripes := ?_ }
  · intro space member
    obtain ⟨old, oldMember, stop, start⟩ := origins space member
    obtain ⟨lower, upper⟩ := wellFormed.inside old oldMember
    simp only [Chunk.take]
    omega
  · intro point free
    exact wellFormed.offStripes point ((freeIff point).mp free).1

/-- A range taken from a chunk lies inside it and was free in it. -/
theorem Chunk.WellFormed.taken_inside
    {chunk : Chunk} (wellFormed : chunk.WellFormed)
    {length address : Nat} {spaces : List Space}
    (taken : takeSpace length chunk.spaceList = some (address, spaces)) :
    chunk.offset ≤ address ∧
      address + length ≤ chunk.offset + chunk.length ∧
      ∀ point, InRange address length point → chunk.Free point := by
  obtain ⟨⟨space, member, rfl, fits⟩, -⟩ := takeSpace_spec taken
  obtain ⟨lower, upper⟩ := wellFormed.inside space member
  simp only [Extent.stop] at upper
  refine ⟨lower, by omega, ?_⟩
  intro point inRange
  refine ⟨space, member, ?_⟩
  simp only [InRange] at inRange
  simp only [Extent.Contains, Extent.stop]
  omega

/-! ## Carving a chunk -/

@[simp]
theorem freshChunk_offset (diskOffset chunkSize type : Nat) :
    (freshChunk diskOffset chunkSize type).offset =
      diskOffset + chunkVirtOffset := rfl

@[simp]
theorem freshChunk_length (diskOffset chunkSize type : Nat) :
    (freshChunk diskOffset chunkSize type).length = chunkSize := rfl

@[simp]
theorem freshChunk_diskStart (diskOffset chunkSize type : Nat) :
    (freshChunk diskOffset chunkSize type).diskStart = diskOffset := rfl

@[simp]
theorem freshChunk_type (diskOffset chunkSize type : Nat) :
    (freshChunk diskOffset chunkSize type).type = type := rfl

/-- A new chunk is free exactly outside the superblock stripes. -/
theorem freshChunk_free_iff
    {diskOffset chunkSize type : Nat} (positive : 0 < chunkSize)
    (address : Nat) :
    (freshChunk diskOffset chunkSize type).Free address ↔
      (diskOffset ≤ address ∧ address < diskOffset + chunkSize) ∧
        ¬ InSuperblockStripe address := by
  rw [freshChunk, free_removeSuperblocks_iff rfl (tidy_singleton positive)]
  simp only [Chunk.Free, covers_cons, not_covers_nil, or_false,
    Extent.contains_mk, Chunk.diskRange]
  constructor
  · rintro ⟨inside, outside⟩
    exact ⟨by omega, fun stripe => outside ⟨by omega, stripe⟩⟩
  · rintro ⟨inside, outside⟩
    exact ⟨by omega, fun both => outside both.2⟩

theorem freshChunk_aligned
    {diskOffset chunkSize type : Nat}
    (startAligned : stripeLength ∣ diskOffset)
    (sizeAligned : stripeLength ∣ chunkSize) :
    ∀ space ∈ (freshChunk diskOffset chunkSize type).spaceList,
      stripeLength ∣ space.offset ∧ stripeLength ∣ space.stop := by
  apply aligned_removeSuperblocks rfl startAligned sizeAligned
  intro space member
  rw [List.mem_singleton.mp member]
  have offsetAligned : stripeLength ∣ diskOffset + chunkVirtOffset :=
    startAligned.add (by decide)
  exact ⟨offsetAligned, offsetAligned.add sizeAligned⟩

theorem freshChunk_wellFormed
    {diskOffset chunkSize type : Nat}
    (positive : 0 < chunkSize)
    (startAligned : stripeLength ∣ diskOffset)
    (sizeAligned : stripeLength ∣ chunkSize) :
    (freshChunk diskOffset chunkSize type).WellFormed where
  placed := rfl
  startAligned := startAligned
  lengthAligned := sizeAligned
  tidy := tidy_removeSuperblocks rfl (tidy_singleton positive)
  inside := by
    intro space member
    obtain ⟨old, oldMember, lower, upper⟩ :=
      origin_of_mem_removeSuperblocks member
    rw [List.mem_singleton.mp oldMember] at lower upper
    exact ⟨lower, upper⟩
  offStripes := fun address free =>
    ((freshChunk_free_iff positive address).mp free).2

/-- The first bytes of a member of the global free list are free in it. -/
theorem covers_of_mem_of_le
    {spaces : List Space} {space : Space} {size address : Nat}
    (member : space ∈ spaces)
    (fits : size ≤ space.length)
    (lower : space.offset ≤ address)
    (upper : address < space.offset + size) :
    Covers spaces address := by
  refine ⟨space, member, lower, ?_⟩
  simp only [Extent.stop]
  omega

/-- Carving a chunk keeps the invariant. -/
theorem Allocator.WellFormed.carved
    {state : Allocator} (wellFormed : state.WellFormed)
    {space : Space} (member : space ∈ state.spaceList)
    {chunkSize : Nat}
    (positive : 0 < chunkSize)
    (fits : chunkSize ≤ space.length)
    (sizeAligned : stripeLength ∣ chunkSize)
    (type : Nat) :
    (carve state space chunkSize type).WellFormed := by
  have startAligned := wellFormed.spaceAligned space member
  refine
    { chunks := ?_
      apart := ?_
      spaceTidy := tidy_spaceListRemove wellFormed.spaceTidy _ _
      spaceAligned := ?_
      spaceApart := ?_ }
  · intro chunk chunkMember
    rcases List.mem_append.mp chunkMember with old | new
    · exact wellFormed.chunks chunk old
    · rw [List.mem_singleton.mp new]
      exact freshChunk_wellFormed positive startAligned sizeAligned
  · refine List.pairwise_append.mpr
      ⟨wellFormed.apart, List.pairwise_singleton _ _, ?_⟩
    intro old oldMember new newMember
    rw [List.mem_singleton.mp newMember]
    have apart := wellFormed.spaceApart space member old oldMember
    simp only [Extent.Disjoint, Extent.stop, Chunk.diskRange,
      freshChunk_diskStart, freshChunk_length] at apart ⊢
    omega
  · intro rest restMember
    obtain ⟨old, oldMember, -, -, start, -⟩ :=
      origin_of_mem_spaceListRemove restMember
    rcases start with equal | equal <;> rw [equal]
    · exact wellFormed.spaceAligned old oldMember
    · exact startAligned.add sizeAligned
  · intro rest restMember chunk chunkMember
    have restPositive : 0 < rest.length :=
      (tidy_spaceListRemove wellFormed.spaceTidy _ _).positive rest restMember
    rcases List.mem_append.mp chunkMember with old | new
    · obtain ⟨source, sourceMember, lower, upper, -⟩ :=
        origin_of_mem_spaceListRemove restMember
      have apart := wellFormed.spaceApart source sourceMember chunk old
      simp only [Extent.Disjoint, Chunk.diskRange] at apart ⊢
      omega
    · rw [List.mem_singleton.mp new]
      apply Extent.disjoint_of_not_contains restPositive positive
      intro address inRest inChunk
      have covered : Covers
          (spaceListRemove state.spaceList space.offset chunkSize) address :=
        ⟨rest, restMember, inRest⟩
      exact
        ((covers_spaceListRemove wellFormed.spaceTidy _ _ _).mp covered).2
          inChunk

/-- Carving a chunk loses only the superblock stripes inside it. -/
theorem Allocator.WellFormed.carve_free_iff
    {state : Allocator} (wellFormed : state.WellFormed)
    {space : Space} (member : space ∈ state.spaceList)
    {chunkSize : Nat}
    (positive : 0 < chunkSize)
    (fits : chunkSize ≤ space.length)
    (type address : Nat) :
    (carve state space chunkSize type).Free address ↔
      state.Free address ∧
        ((space.offset ≤ address ∧ address < space.offset + chunkSize) →
          ¬ InSuperblockStripe address) := by
  have oldOutside :
      ∀ chunk ∈ state.chunks, chunk.Free address →
        ¬ (space.offset ≤ address ∧
          address < space.offset + chunkSize) := by
    intro chunk chunkMember free inside
    have inChunk :=
      (wellFormed.chunks chunk chunkMember).diskRange_of_free free
    refine (wellFormed.spaceApart space member chunk chunkMember).not_contains
      ⟨inside.1, ?_⟩ inChunk
    simp only [Extent.stop]
    omega
  simp only [Allocator.Free, carve, List.mem_append, List.mem_singleton,
    covers_spaceListRemove wellFormed.spaceTidy]
  constructor
  · rintro (⟨chunk, chunkMember | rfl, free⟩ | ⟨covered, outside⟩)
    · exact
        ⟨Or.inl ⟨chunk, chunkMember, free⟩,
          fun inside => absurd inside (oldOutside chunk chunkMember free)⟩
    · obtain ⟨inside, off⟩ := (freshChunk_free_iff positive address).mp free
      exact
        ⟨Or.inr (covers_of_mem_of_le member fits inside.1 inside.2),
          fun _ => off⟩
    · exact ⟨Or.inr covered, fun inside => absurd inside outside⟩
  · rintro ⟨⟨chunk, chunkMember, free⟩ | covered, off⟩
    · exact Or.inl ⟨chunk, Or.inl chunkMember, free⟩
    · by_cases inside :
          space.offset ≤ address ∧ address < space.offset + chunkSize
      · exact
          Or.inl
            ⟨freshChunk space.offset chunkSize type, Or.inr rfl,
              (freshChunk_free_iff positive address).mpr
                ⟨inside, off inside⟩⟩
      · exact Or.inr ⟨covered, inside⟩

/-! ## Taking space in a state -/

/-- Taking space from one chunk keeps the invariant. -/
theorem Allocator.WellFormed.take
    {state : Allocator} (wellFormed : state.WellFormed)
    {before after : List Chunk} {chunk : Chunk}
    (shape : state.chunks = before ++ chunk :: after)
    {length address : Nat} {spaces : List Space}
    (taken : takeSpace length chunk.spaceList = some (address, spaces))
    (used : Nat) :
    ({ state with chunks := before ++ chunk.take spaces used :: after } :
      Allocator).WellFormed := by
  have chunkWellFormed := wellFormed.chunks chunk (by simp [shape])
  have sameRange : (chunk.take spaces used).diskRange = chunk.diskRange := rfl
  have apart := wellFormed.apart
  rw [shape, List.pairwise_append, List.pairwise_cons] at apart
  refine
    { chunks := ?_
      apart := ?_
      spaceTidy := wellFormed.spaceTidy
      spaceAligned := wellFormed.spaceAligned
      spaceApart := ?_ }
  · intro other member
    rcases List.mem_append.mp member with inBefore | rest
    · exact wellFormed.chunks other (by simp [shape, inBefore])
    · rcases List.mem_cons.mp rest with rfl | inAfter
      · exact (chunkWellFormed.take taken used).1
      · exact wellFormed.chunks other (by simp [shape, inAfter])
  · rw [List.pairwise_append, List.pairwise_cons]
    refine ⟨apart.1, ⟨apart.2.1.1, apart.2.1.2⟩, ?_⟩
    intro left leftMember right rightMember
    rcases List.mem_cons.mp rightMember with rfl | inAfter
    · exact apart.2.2 left leftMember chunk (by simp)
    · exact apart.2.2 left leftMember right (by simp [inAfter])
  · intro space member other otherMember
    rcases List.mem_append.mp otherMember with inBefore | rest
    · exact wellFormed.spaceApart space member other (by simp [shape, inBefore])
    · rcases List.mem_cons.mp rest with rfl | inAfter
      · exact wellFormed.spaceApart space member chunk (by simp [shape])
      · exact
          wellFormed.spaceApart space member other (by simp [shape, inAfter])

/-- Taking space from one chunk removes exactly the returned range. -/
theorem Allocator.WellFormed.take_free_iff
    {state : Allocator} (wellFormed : state.WellFormed)
    {before after : List Chunk} {chunk : Chunk}
    (shape : state.chunks = before ++ chunk :: after)
    {length address : Nat} {spaces : List Space}
    (taken : takeSpace length chunk.spaceList = some (address, spaces))
    (used point : Nat) :
    ({ state with chunks := before ++ chunk.take spaces used :: after } :
      Allocator).Free point ↔
      state.Free point ∧ ¬ InRange address length point := by
  have chunkWellFormed := wellFormed.chunks chunk (by simp [shape])
  have takenFree := (chunkWellFormed.take taken used).2
  have rangeInChunk :
      InRange address length point → chunk.diskRange.Contains point :=
    fun inRange =>
      chunkWellFormed.diskRange_of_free
        ((chunkWellFormed.taken_inside taken).2.2 point inRange)
  have apart := wellFormed.apart
  rw [shape, List.pairwise_append, List.pairwise_cons] at apart
  have othersOutside :
      ∀ other ∈ before ++ after, other.Free point →
        ¬ InRange address length point := by
    intro other member free inRange
    have otherWellFormed : other.WellFormed := by
      apply wellFormed.chunks
      rw [shape]
      rcases List.mem_append.mp member with inBefore | inAfter
      · simp [inBefore]
      · simp [inAfter]
    have inOther := otherWellFormed.diskRange_of_free free
    have inChunk := rangeInChunk inRange
    rcases List.mem_append.mp member with inBefore | inAfter
    · exact
        (apart.2.2 other inBefore chunk (by simp)).not_contains inOther inChunk
    · exact (apart.2.1.1 other inAfter).not_contains inChunk inOther
  have spaceOutside :
      Covers state.spaceList point → ¬ InRange address length point := by
    rintro ⟨space, member, inside⟩ inRange
    exact
      (wellFormed.spaceApart space member chunk (by simp [shape])).not_contains
        inside (rangeInChunk inRange)
  simp only [Allocator.Free, shape, List.mem_append, List.mem_cons]
  constructor
  · rintro (⟨other, inBefore | rfl | inAfter, free⟩ | covered)
    · exact
        ⟨Or.inl ⟨other, Or.inl inBefore, free⟩,
          othersOutside other (by simp [inBefore]) free⟩
    · obtain ⟨chunkFree, outside⟩ := (takenFree point).mp free
      exact ⟨Or.inl ⟨chunk, Or.inr (Or.inl rfl), chunkFree⟩, outside⟩
    · exact
        ⟨Or.inl ⟨other, Or.inr (Or.inr inAfter), free⟩,
          othersOutside other (by simp [inAfter]) free⟩
    · exact ⟨Or.inr covered, spaceOutside covered⟩
  · rintro ⟨⟨other, inBefore | rfl | inAfter, free⟩ | covered, outside⟩
    · exact Or.inl ⟨other, Or.inl inBefore, free⟩
    · exact
        Or.inl
          ⟨other.take spaces used, Or.inr (Or.inl rfl),
            (takenFree point).mpr ⟨free, outside⟩⟩
    · exact Or.inl ⟨other, Or.inr (Or.inr inAfter), free⟩
    · exact Or.inr covered

/-! ## Accounting of one search -/

/-- The chunks have the same place, size and type. -/
def Chunk.SamePlace (left right : Chunk) : Prop :=
  left.offset = right.offset ∧ left.length = right.length ∧
    left.diskStart = right.diskStart ∧ left.type = right.type

/-- A range that was free is no longer, and lies in one chunk of the type. -/
structure Served
    (state next : Allocator) (type length address : Nat) : Prop where
  inChunk : ∃ chunk ∈ next.chunks, chunk.type &&& type ≠ 0 ∧
    chunk.offset ≤ address ∧ address + length ≤ chunk.offset + chunk.length
  wasFree : ∀ point, InRange address length point → state.Free point
  taken : ∀ point, InRange address length point → ¬ next.Free point
  offStripes : ∀ point, InRange address length point →
    ¬ InSuperblockStripe point

/-- What an allocation does to the state, whether or not it throws. -/
structure Advances (state next : Allocator) (type : Nat) : Prop where
  wellFormed : next.WellFormed
  free : ∀ point, next.Free point → state.Free point
  kept : ∀ chunk ∈ state.chunks, ∃ same ∈ next.chunks, same.SamePlace chunk
  origin : ∀ chunk ∈ next.chunks,
    (∃ old ∈ state.chunks, chunk.SamePlace old) ∨ chunk.type = type

theorem Chunk.SamePlace.refl (chunk : Chunk) : chunk.SamePlace chunk :=
  ⟨rfl, rfl, rfl, rfl⟩

theorem Chunk.SamePlace.trans
    {first second third : Chunk}
    (left : first.SamePlace second) (right : second.SamePlace third) :
    first.SamePlace third :=
  ⟨left.1.trans right.1, left.2.1.trans right.2.1,
    left.2.2.1.trans right.2.2.1, left.2.2.2.trans right.2.2.2⟩

theorem Advances.refl
    {state : Allocator} (wellFormed : state.WellFormed) (type : Nat) :
    Advances state state type where
  wellFormed := wellFormed
  free := fun _ free => free
  kept := fun chunk member => ⟨chunk, member, Chunk.SamePlace.refl chunk⟩
  origin := fun chunk member =>
    Or.inl ⟨chunk, member, Chunk.SamePlace.refl chunk⟩

theorem Advances.trans
    {first second third : Allocator} {type : Nat}
    (left : Advances first second type)
    (right : Advances second third type) :
    Advances first third type where
  wellFormed := right.wellFormed
  free := fun point free => left.free point (right.free point free)
  kept := by
    intro chunk member
    obtain ⟨middle, middleMember, same⟩ := left.kept chunk member
    obtain ⟨last, lastMember, same'⟩ := right.kept middle middleMember
    exact ⟨last, lastMember, same'.trans same⟩
  origin := by
    intro chunk member
    rcases right.origin chunk member with ⟨middle, middleMember, same⟩ | new
    · rcases left.origin middle middleMember with ⟨old, oldMember, same'⟩ | new
      · exact Or.inl ⟨old, oldMember, same.trans same'⟩
      · exact Or.inr (same.2.2.2.trans new)
    · exact Or.inr new

/-- Taking space is a step that serves its range. -/
theorem Allocator.WellFormed.take_served
    {state : Allocator} (wellFormed : state.WellFormed)
    {before after : List Chunk} {chunk : Chunk}
    (shape : state.chunks = before ++ chunk :: after)
    {type length address : Nat} {spaces : List Space}
    (eligible : chunk.type &&& type ≠ 0)
    (taken : takeSpace length chunk.spaceList = some (address, spaces))
    (used : Nat) :
    Advances state
        { state with chunks := before ++ chunk.take spaces used :: after }
        type ∧
      Served state
        { state with chunks := before ++ chunk.take spaces used :: after }
        type length address := by
  have chunkWellFormed := wellFormed.chunks chunk (by simp [shape])
  obtain ⟨lower, upper, rangeFree⟩ := chunkWellFormed.taken_inside taken
  have freeIff := wellFormed.take_free_iff shape taken used
  have same : (chunk.take spaces used).SamePlace chunk :=
    Chunk.SamePlace.refl chunk
  constructor
  · refine
      { wellFormed := wellFormed.take shape taken used
        free := fun point free => ((freeIff point).mp free).1
        kept := ?_
        origin := ?_ }
    · intro other member
      rw [shape] at member
      rcases List.mem_append.mp member with inBefore | rest
      · exact ⟨other, by simp [inBefore], Chunk.SamePlace.refl other⟩
      · rcases List.mem_cons.mp rest with rfl | inAfter
        · exact ⟨_, by simp, same⟩
        · exact ⟨other, by simp [inAfter], Chunk.SamePlace.refl other⟩
    · intro other member
      refine Or.inl ?_
      rcases List.mem_append.mp member with inBefore | rest
      · exact ⟨other, by simp [shape, inBefore], Chunk.SamePlace.refl other⟩
      · rcases List.mem_cons.mp rest with rfl | inAfter
        · exact ⟨chunk, by simp [shape], same⟩
        · exact ⟨other, by simp [shape, inAfter], Chunk.SamePlace.refl other⟩
  · exact
      { inChunk := ⟨chunk.take spaces used, by simp, eligible, lower, upper⟩
        wasFree := fun point inRange =>
          Or.inl ⟨chunk, by simp [shape], rangeFree point inRange⟩
        taken := fun point inRange free => ((freeIff point).mp free).2 inRange
        offStripes := fun point inRange =>
          chunkWellFormed.offStripes point (rangeFree point inRange) }

/-- Carving a chunk is a step. -/
theorem Allocator.WellFormed.carve_advances
    {state : Allocator} (wellFormed : state.WellFormed)
    {space : Space} (member : space ∈ state.spaceList)
    {chunkSize : Nat}
    (positive : 0 < chunkSize)
    (fits : chunkSize ≤ space.length)
    (sizeAligned : stripeLength ∣ chunkSize)
    (type : Nat) :
    Advances state (carve state space chunkSize type) type where
  wellFormed := wellFormed.carved member positive fits sizeAligned type
  free := fun point free =>
    ((wellFormed.carve_free_iff member positive fits type point).mp free).1
  kept := fun chunk chunkMember =>
    ⟨chunk, by simp [carve, chunkMember], Chunk.SamePlace.refl chunk⟩
  origin := by
    intro chunk chunkMember
    rcases List.mem_append.mp chunkMember with old | new
    · exact Or.inl ⟨chunk, old, Chunk.SamePlace.refl chunk⟩
    · exact Or.inr (by rw [List.mem_singleton.mp new, freshChunk_type])

/-- The search keeps the invariant, and a returned range was free. -/
theorem allocateFrom_spec
    {type chunkSize : Nat}
    (typeSelf : type &&& type ≠ 0)
    (positive : 0 < chunkSize)
    (sizeAligned : stripeLength ∣ chunkSize)
    {state : Allocator} (wellFormed : state.WellFormed)
    (length : Nat) (usedOld : Chunk → Nat) (usedNew : Nat)
    (noAddress : ConvertError) :
    let outcome :=
      allocateFrom type chunkSize length usedOld usedNew noAddress state
    Advances state outcome.2 type ∧
      ∀ address, outcome.1 = .ok address →
        Served state outcome.2 type length address := by
  intro outcome
  rcases allocateFrom_cases type chunkSize length usedOld usedNew noAddress
      state with
    ⟨before, chunk, after, spaces, address, shape, eligible, taken, equal⟩ |
      equal | ⟨space, member, fits, failed | served⟩
  · rw [show outcome = _ from equal]
    obtain ⟨advances, served⟩ :=
      wellFormed.take_served shape eligible taken (usedOld chunk)
    refine ⟨advances, ?_⟩
    rintro _ ⟨⟩
    exact served
  · rw [show outcome = _ from equal]
    have advances := Advances.refl wellFormed type
    exact
      ⟨{ wellFormed := ⟨advances.wellFormed.chunks, advances.wellFormed.apart,
            advances.wellFormed.spaceTidy, advances.wellFormed.spaceAligned,
            advances.wellFormed.spaceApart⟩
         free := advances.free
         kept := advances.kept
         origin := advances.origin },
        fun _ absurd_ => nomatch absurd_⟩
  · rw [show outcome = _ from failed]
    exact
      ⟨wellFormed.carve_advances member positive fits sizeAligned type,
        fun _ absurd_ => nomatch absurd_⟩
  · obtain ⟨spaces, address, taken, equal⟩ := served
    rw [show outcome = _ from equal]
    have carved :=
      wellFormed.carve_advances member positive fits sizeAligned type
    have shape :
        (carve state space chunkSize type).chunks =
          state.chunks ++ freshChunk space.offset chunkSize type :: [] := rfl
    have eligible : (freshChunk space.offset chunkSize type).type &&& type ≠ 0 :=
      typeSelf
    obtain ⟨advances, served⟩ :=
      carved.wellFormed.take_served shape eligible taken usedNew
    refine ⟨carved.trans advances, ?_⟩
    rintro _ ⟨⟩
    exact
      { inChunk := served.inChunk
        wasFree := fun point inRange =>
          carved.free point (served.wasFree point inRange)
        taken := served.taken
        offStripes := served.offStripes }

/-! ## The two allocators -/

theorem metadataType_cases (root : Nat) :
    metadataType root = blockGroupSystem ∨
      metadataType root = blockGroupMetadata := by
  rw [metadataType]
  split_ifs
  · exact Or.inl rfl
  · exact Or.inr rfl

theorem metadataType_self (root : Nat) :
    metadataType root &&& metadataType root ≠ 0 := by
  rcases metadataType_cases root with equal | equal <;> rw [equal] <;> decide

theorem metadataChunkSize_cases (root : Nat) :
    metadataChunkSize root = systemChunkSize ∨
      metadataChunkSize root = dataChunkSize := by
  rw [metadataChunkSize]
  split_ifs
  · exact Or.inl rfl
  · exact Or.inr rfl

theorem metadataChunkSize_pos (root : Nat) :
    0 < metadataChunkSize root := by
  rcases metadataChunkSize_cases root with equal | equal <;> rw [equal] <;>
    decide

theorem stripeLength_dvd_metadataChunkSize (root : Nat) :
    stripeLength ∣ metadataChunkSize root := by
  rcases metadataChunkSize_cases root with equal | equal <;> rw [equal] <;>
    decide

theorem allocateData_spec
    {state : Allocator} (wellFormed : state.WellFormed)
    (length : Nat) (changeUsed : Bool) :
    let outcome := allocateData length changeUsed state
    Advances state outcome.2 blockGroupData ∧
      ∀ address, outcome.1 = .ok address →
        Served state outcome.2 blockGroupData length address :=
  allocateFrom_spec (by decide) (by decide) (by decide) wellFormed _ _ _ _

/-- The invariant does not depend on the items of the extent tree. -/
theorem Advances.with_extentItems
    {state next : Allocator} {type : Nat}
    (advances : Advances state next type) (items : ItemMap) :
    Advances state { next with extentItems := items } type where
  wellFormed :=
    ⟨advances.wellFormed.chunks, advances.wellFormed.apart,
      advances.wellFormed.spaceTidy, advances.wellFormed.spaceAligned,
      advances.wellFormed.spaceApart⟩
  free := advances.free
  kept := advances.kept
  origin := advances.origin

theorem Served.with_extentItems
    {state next : Allocator} {type length address : Nat}
    (served : Served state next type length address) (items : ItemMap) :
    Served state { next with extentItems := items } type length address :=
  ⟨served.inChunk, served.wasFree, served.taken, served.offStripes⟩

theorem allocateMetadata_spec
    {state : Allocator} (wellFormed : state.WellFormed)
    (root level : Nat) :
    let outcome := allocateMetadata root level state
    Advances state outcome.2 (metadataType root) ∧
      ∀ address, outcome.1 = .ok address →
        Served state outcome.2 (metadataType root) treeSize address := by
  intro outcome
  have searched :=
    allocateFrom_spec (metadataType_self root) (metadataChunkSize_pos root)
      (stripeLength_dvd_metadataChunkSize root) wellFormed treeSize
      (fun chunk => (chunk.used + treeSize) % wordModulus) treeSize
      .noMetadataAddress
  simp only [outcome, allocateMetadata]
  cases search : allocateFrom (metadataType root) (metadataChunkSize root)
      treeSize (fun chunk => (chunk.used + treeSize) % wordModulus) treeSize
      .noMetadataAddress state with
  | mk result next =>
      rw [search] at searched
      obtain ⟨advances, served⟩ := searched
      cases result with
      | error error => exact ⟨advances, fun _ absurd_ => nomatch absurd_⟩
      | ok address =>
          cases inserted : addItem next.extentItems address
              BtrfsKeyType.metadataItem level (metadataItem root) with
          | error error =>
              simp only [inserted]
              exact ⟨advances, fun _ absurd_ => nomatch absurd_⟩
          | ok items =>
              simp only [inserted]
              refine ⟨advances.with_extentItems items, ?_⟩
              rintro _ ⟨⟩
              exact (served address rfl).with_extentItems items

end Ntfs2Btrfs
