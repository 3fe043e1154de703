import Ntfs2Btrfs.UsedSpace

/-!
# Allocating whole clusters

Requests for data are counted in bytes.  As long as every request is for whole
clusters, the free ranges that are long enough for a cluster start at clusters,
and so does everything that is handed out.  The one other source of free ranges
is the cut of a superblock stripe, which ends inside a cluster when clusters are
larger than the stripe.

An address is usable when it is free in a chunk or in a region of which a chunk
can be made.  What is handed out was usable and is not usable any more, and
nothing becomes usable.
-/

namespace Ntfs2Btrfs

open Extents
open BitRuns
open ByteStore

/-! ## Usable addresses -/

/-- The global free list has room for the chunk of a region. -/
def Allocator.RoomFor (state : Allocator) (index : Nat) : Prop :=
  ∃ space ∈ state.spaceList, HoldsRegion space index

/-- Data can be placed at the disk address. -/
def Allocator.Usable (state : Allocator) (address : Nat) : Prop :=
  (∃ chunk ∈ state.chunks, chunk.Free address) ∨
    ∃ index, state.RoomFor index ∧
      regionStart index ≤ address ∧ address < regionStart (index + 1)

/-- The invariant: free ranges that are long enough for a cluster start at clusters. -/
structure Allocator.OnClusters (state : Allocator) (cluster : ClusterSize) : Prop where
  onRegions : state.OnRegions
  tidy : ∀ chunk ∈ state.chunks, Tidy chunk.spaceList
  starts : ∀ chunk ∈ state.chunks, ∀ space ∈ chunk.spaceList,
    cluster.bytes ≤ space.length → cluster.bytes ∣ space.offset
  stripes : cluster.bytes ≤ stripeLength ∨
    ∀ addr ∈ superblockAddrs.tail,
      ¬ (state.Usable (addr + stripeLength) ∧ state.Usable (addr + cluster.bytes))

/-! ## Chunks with another usage -/

theorem Chunk.onRegion_withoutUsed (chunk : Chunk) (index : Nat) :
    chunk.withoutUsed.OnRegion index ↔ chunk.OnRegion index :=
  ⟨fun ⟨offset, length, spaces⟩ => ⟨offset, length, spaces⟩,
    fun ⟨offset, length, spaces⟩ => ⟨offset, length, spaces⟩⟩

theorem Chunk.onRegion_of_withoutUsed_eq
    {chunk other : Chunk} (same : other.withoutUsed = chunk.withoutUsed) (index : Nat) :
    other.OnRegion index ↔ chunk.OnRegion index := by
  rw [← other.onRegion_withoutUsed, same, chunk.onRegion_withoutUsed]

namespace Allocator.SameSpace

variable {state other : Allocator} (same : state.SameSpace other)

include same

theorem usable {address : Nat} (usable : other.Usable address) : state.Usable address := by
  rcases usable with ⟨chunk, member, free⟩ | room
  · obtain ⟨chunk', member', equal⟩ := same.symm.exists_chunk member
    refine Or.inl ⟨chunk', member', ?_⟩
    rw [← Chunk.free_withoutUsed, equal, Chunk.free_withoutUsed]
    exact free
  · simp only [Allocator.RoomFor, ← same.spaceList] at room
    exact Or.inr room

theorem onRegions (onRegions : state.OnRegions) : other.OnRegions := by
  obtain ⟨regions, apart, tidy, grid, outside⟩ := onRegions
  rw [same.spaceList] at tidy grid outside
  refine ⟨fun chunk member => ?_, ?_, tidy, grid,
    fun space spaceMember chunk member index onRegion => ?_⟩
  · obtain ⟨chunk', member', equal⟩ := same.symm.exists_chunk member
    obtain ⟨index, onRegion⟩ := regions chunk' member'
    exact ⟨index, (Chunk.onRegion_of_withoutUsed_eq equal index).mp onRegion⟩
  · have offsets (chunks : List Chunk) :
        (chunks.map Chunk.withoutUsed).Pairwise
            (fun left right => left.offset ≠ right.offset) ↔
          chunks.Pairwise fun left right => left.offset ≠ right.offset :=
      List.pairwise_map
    rw [← offsets, same.chunks, offsets] at apart
    exact apart
  · obtain ⟨chunk', member', equal⟩ := same.symm.exists_chunk member
    exact outside space spaceMember chunk' member' index
      ((Chunk.onRegion_of_withoutUsed_eq equal index).mpr onRegion)

/-- The usage of chunks does not matter. -/
theorem onClusters {cluster : ClusterSize} (onClusters : state.OnClusters cluster) :
    other.OnClusters cluster := by
  obtain ⟨onRegions, tidy, starts, stripes⟩ := onClusters
  have spaces : ∀ chunk ∈ other.chunks, ∃ chunk' ∈ state.chunks,
      chunk'.spaceList = chunk.spaceList := by
    intro chunk member
    obtain ⟨chunk', member', equal⟩ := same.symm.exists_chunk member
    have spaces : chunk'.withoutUsed.spaceList = chunk.withoutUsed.spaceList :=
      congrArg Chunk.spaceList equal
    exact ⟨chunk', member', spaces⟩
  refine ⟨same.onRegions onRegions, fun chunk member => ?_, fun chunk member => ?_,
    stripes.imp_right fun apart addr addrMember usable =>
      apart addr addrMember ⟨same.usable usable.1, same.usable usable.2⟩⟩
  · obtain ⟨chunk', member', equal⟩ := spaces chunk member
    rw [← equal]
    exact tidy chunk' member'
  · obtain ⟨chunk', member', equal⟩ := spaces chunk member
    rw [← equal]
    exact starts chunk' member'

end Allocator.SameSpace

/-! ## Where free ranges start -/

/-- The end of a stripe inside a chunk of whole stripes is not past the end of the chunk. -/
theorem stripe_stop_le
    {diskStart length superblock : Nat} (member : superblock ∈ superblockAddrs)
    (startAligned : stripeLength ∣ diskStart) (lengthAligned : stripeLength ∣ length)
    (meets : diskStart + length > superblock) :
    superblock + stripeLength ≤ diskStart + length := by
  obtain ⟨first, startEq⟩ := startAligned
  obtain ⟨count, lengthEq⟩ := lengthAligned
  obtain ⟨number, superblockEq⟩ := stripeLength_dvd_superblockAddr member
  rw [startEq, lengthEq, superblockEq, ← Nat.mul_add] at meets ⊢
  have before : number < first + count := Nat.lt_of_mul_lt_mul_left meets
  rw [← Nat.mul_succ]
  exact Nat.mul_le_mul_left stripeLength before

section Starts

variable {chunk : Chunk} (placed : chunk.offset = chunk.diskStart + chunkVirtOffset)
  (startAligned : stripeLength ∣ chunk.diskStart)
  (lengthAligned : stripeLength ∣ chunk.length)

include placed startAligned lengthAligned

theorem start_of_mem_removeSuperblock
    {spaces : List Space} {superblock : Nat} (known : superblock ∈ superblockAddrs)
    {space : Space} (member : space ∈ removeSuperblock chunk spaces superblock) :
    (∃ old ∈ spaces, space.offset = old.offset) ∨
      space.offset = superblock + stripeLength + chunkVirtOffset := by
  by_cases meets : chunk.diskStart + chunk.length > superblock ∧
      chunk.diskStart < superblock + stripeLength
  · rw [removeSuperblock_eq placed known meets] at member
    obtain ⟨old, oldMember, -, -, start, -⟩ := origin_of_mem_spaceListRemove member
    rcases start with equal | equal
    · exact Or.inl ⟨old, oldMember, equal⟩
    · refine Or.inr ?_
      have stop := stripe_stop_le known startAligned lengthAligned meets.1
      have before : superblock + stripeLength + chunkVirtOffset ≤
          chunk.diskStart + chunkVirtOffset + chunk.length := by
        rw [Nat.add_right_comm chunk.diskStart]
        exact Nat.add_le_add_right stop chunkVirtOffset
      rw [equal, Nat.add_sub_cancel' (clipped_ordered _ meets), min_eq_right before]
  · rw [removeSuperblock, if_neg meets] at member
    exact Or.inl ⟨space, member, rfl⟩

/-- A free range of a chunk starts where one did before, or behind a stripe. -/
theorem start_of_mem_removeSuperblocks
    {space : Space} (member : space ∈ (removeSuperblocks chunk).spaceList) :
    (∃ old ∈ chunk.spaceList, space.offset = old.offset) ∨
      ∃ superblock ∈ superblockAddrs,
        space.offset = superblock + stripeLength + chunkVirtOffset := by
  have general : ∀ (superblocks : List Nat) (spaces : List Space),
      (∀ superblock ∈ superblocks, superblock ∈ superblockAddrs) →
      ∀ space ∈ superblocks.foldl (removeSuperblock chunk) spaces,
        (∃ old ∈ spaces, space.offset = old.offset) ∨
          ∃ superblock ∈ superblockAddrs,
            space.offset = superblock + stripeLength + chunkVirtOffset := by
    intro superblocks
    induction superblocks with
    | nil => exact fun spaces _ space inSpaces => Or.inl ⟨space, inSpaces, rfl⟩
    | cons superblock rest ih =>
      intro spaces known space inRest
      obtain ⟨first, later⟩ := List.forall_mem_cons.mp known
      rcases ih _ later space inRest with ⟨middle, middleMember, equal⟩ | behind
      · rcases start_of_mem_removeSuperblock placed startAligned lengthAligned first
          middleMember with ⟨old, oldMember, start⟩ | start
        · exact Or.inl ⟨old, oldMember, equal.trans start⟩
        · exact Or.inr ⟨superblock, first, equal.trans start⟩
      · exact Or.inr behind
  exact general superblockAddrs chunk.spaceList (fun _ known => known) space member

end Starts

/-- The stripe of the first superblock ends in the first MiB. -/
theorem mem_laterSuperblock
    {superblock : Nat} (known : superblock ∈ superblockAddrs)
    (later : reservedArea ≤ superblock + stripeLength) : superblock ∈ superblockAddrs.tail := by
  rcases List.mem_cons.mp known with rfl | inTail
  · exact absurd later (by decide)
  · exact inTail

/-- Where the free ranges of a new chunk start. -/
theorem start_of_mem_freshChunk
    {diskOffset type : Nat} (aligned : dataChunkSize ∣ diskOffset) {space : Space}
    (member : space ∈ (freshChunk diskOffset dataChunkSize type).spaceList) :
    space.offset = diskOffset + chunkVirtOffset ∨
      ∃ superblock ∈ superblockAddrs,
        space.offset = superblock + stripeLength + chunkVirtOffset := by
  have stripes : stripeLength ∣ dataChunkSize := by decide
  rcases start_of_mem_removeSuperblocks rfl (stripes.trans aligned) stripes member with
    ⟨old, oldMember, equal⟩ | behind
  · rw [List.mem_singleton.mp oldMember] at equal
    exact Or.inl equal
  · exact Or.inr behind

/-- Clusters that are not larger than a stripe divide it. -/
theorem ClusterSize.bytes_dvd_stripeLength
    (cluster : ClusterSize) (small : cluster.bytes ≤ stripeLength) :
    cluster.bytes ∣ stripeLength := by
  have power : stripeLength = 2 ^ 16 := rfl
  rw [power, ClusterSize.bytes] at *
  exact Nat.pow_dvd_pow 2 ((Nat.pow_le_pow_iff_right (by decide)).mp small)

theorem ClusterSize.bytes_dvd_chunkVirtOffset (cluster : ClusterSize) :
    cluster.bytes ∣ chunkVirtOffset :=
  cluster.bytes_dvd_reservedArea

/--
A long free range that starts behind a stripe starts at a cluster, or the rest
of the cluster of the stripe and the next cluster are free.
-/
theorem aligned_behind_stripe
    {cluster : ClusterSize} {superblock : Nat} {chunk : Chunk} {space : Space}
    (known : superblock ∈ superblockAddrs) (member : space ∈ chunk.spaceList)
    (long : cluster.bytes ≤ space.length)
    (start : space.offset = superblock + stripeLength + chunkVirtOffset)
    (stripes : cluster.bytes ≤ stripeLength ∨
      ¬ (chunk.Free (superblock + stripeLength) ∧ chunk.Free (superblock + cluster.bytes))) :
    cluster.bytes ∣ space.offset := by
  by_cases small : cluster.bytes ≤ stripeLength
  · have divides := cluster.bytes_dvd_stripeLength small
    rw [start]
    exact ((divides.trans (stripeLength_dvd_superblockAddr known)).add divides).add
      cluster.bytes_dvd_chunkVirtOffset
  · have positive := cluster.bytes_pos
    have stripe : 0 < stripeLength := by decide
    refine absurd ⟨⟨space, member, ?_⟩, ⟨space, member, ?_⟩⟩ (stripes.resolve_left small)
    · simp only [Extent.Contains, Extent.stop]
      omega
    · simp only [Extent.Contains, Extent.stop]
      omega

/-! ## Taking a range -/

/-- What an allocation of `length` bytes at an address does to what is usable. -/
structure TakesRange (state next : Allocator) (length address : Nat) : Prop where
  region : ∃ index, regionStart index + chunkVirtOffset ≤ address ∧
    address + length ≤ regionStart (index + 1) + chunkVirtOffset
  taken : ∀ byte, InRange address length byte → state.Usable byte
  left : ∀ byte, next.Usable byte → state.Usable byte ∧ ¬ InRange address length byte

/-- A free byte of a chunk of a region is a byte of the region. -/
theorem Chunk.OnRegion.of_free
    {chunk : Chunk} {index : Nat} (onRegion : chunk.OnRegion index) {byte : Nat}
    (free : chunk.Free byte) :
    regionStart index ≤ byte ∧ byte < regionStart (index + 1) := by
  obtain ⟨space, member, lower, upper⟩ := free
  obtain ⟨start, stop⟩ := onRegion.spaces space member
  omega

section Take

variable {state : Allocator} {cluster : ClusterSize} (onClusters : state.OnClusters cluster)
  {before after : List Chunk} {chunk : Chunk} (shape : state.chunks = before ++ chunk :: after)
  {length address : Nat} {spaces : List Space}
  (taken : takeSpace length chunk.spaceList = some (address, spaces))

include onClusters shape taken

theorem takesRange (used : Nat) :
    TakesRange state { state with chunks := before ++ chunk.take spaces used :: after }
      length address := by
  have inState : chunk ∈ state.chunks := by simp [shape]
  obtain ⟨index, onRegion⟩ := onClusters.onRegions.regions chunk inState
  obtain ⟨-, lower, upper⟩ := onRegion.take taken used
  obtain ⟨⟨space, spaceMember, start, fits⟩, -⟩ := takeSpace_spec taken
  obtain ⟨-, left⟩ := takeSpace_tidy (onClusters.tidy chunk inState) taken
  have inRegion : ∀ byte, InRange address length byte →
      regionStart index ≤ byte ∧ byte < regionStart (index + 1) := by
    rintro byte ⟨from_, to_⟩
    omega
  have others : ∀ other ∈ before ++ after, other.offset ≠ chunk.offset := by
    have apart := onClusters.onRegions.apart
    rw [shape, List.pairwise_append, List.pairwise_cons] at apart
    obtain ⟨-, ⟨later, -⟩, cross⟩ := apart
    intro other member
    rcases List.mem_append.mp member with inFront | inBack
    · exact cross other inFront chunk List.mem_cons_self
    · exact (later other inBack).symm
  -- another chunk with a free byte in the region would be the chunk of the region
  have elsewhere : ∀ other ∈ before ++ after, ∀ byte, other.Free byte →
      ¬ InRange address length byte := by
    intro other member byte free inRange
    have otherInState : other ∈ state.chunks := by
      rw [shape]
      simp only [List.mem_append, List.mem_cons] at member ⊢
      tauto
    obtain ⟨number, onNumber⟩ := onClusters.onRegions.regions other otherInState
    obtain ⟨otherLower, otherUpper⟩ := onNumber.of_free free
    obtain ⟨byteLower, byteUpper⟩ := inRegion byte inRange
    have same := region_eq_of_mem otherLower otherUpper byteLower byteUpper
    subst same
    exact others other member (onNumber.offset.trans onRegion.offset.symm)
  refine ⟨⟨index, lower, upper⟩, ?_, ?_⟩
  · rintro byte ⟨from_, to_⟩
    refine Or.inl ⟨chunk, inState, space, spaceMember, ?_, ?_⟩
    · omega
    · simp only [Extent.stop]
      omega
  · rintro byte (⟨other, member, free⟩ | ⟨number, room, byteLower, byteUpper⟩)
    · rcases List.mem_append.mp member with inFront | rest
      · exact ⟨Or.inl ⟨other, by simp [shape, inFront], free⟩,
          elsewhere other (List.mem_append_left after inFront) byte free⟩
      · rcases List.mem_cons.mp rest with rfl | inBack
        · obtain ⟨covered, outside⟩ := (left (byte + chunkVirtOffset)).mp free
          exact ⟨Or.inl ⟨chunk, inState, covered⟩, outside⟩
        · exact ⟨Or.inl ⟨other, by simp [shape, inBack], free⟩,
            elsewhere other (List.mem_append_right before inBack) byte free⟩
    · refine ⟨Or.inr ⟨number, room, byteLower, byteUpper⟩, fun inRange => ?_⟩
      obtain ⟨lower', upper'⟩ := inRegion byte inRange
      have same := region_eq_of_mem lower' upper' byteLower byteUpper
      subst same
      obtain ⟨source, sourceMember, holds⟩ := room
      exact onClusters.onRegions.outside source sourceMember chunk inState index onRegion holds

/-- Whole clusters start at a cluster, and leave ranges that do. -/
theorem takeClusters
    (whole : cluster.bytes ∣ length) (positive : 0 < length) (used : Nat) :
    cluster.bytes ∣ address ∧
      Allocator.OnClusters
        { state with chunks := before ++ chunk.take spaces used :: after } cluster := by
  have inState : chunk ∈ state.chunks := by simp [shape]
  have long : cluster.bytes ≤ length := Nat.le_of_dvd positive whole
  have starts := onClusters.starts chunk inState
  have range := takesRange onClusters shape taken used
  obtain ⟨⟨space, spaceMember, rfl, fits⟩, origins⟩ := takeSpace_spec taken
  refine ⟨starts space spaceMember (long.trans fits),
    onClusters.onRegions.take shape taken used, fun other member => ?_,
    fun other member => ?_, onClusters.stripes.imp_right fun apart addr addrMember usable =>
      apart addr addrMember ⟨(range.left _ usable.1).1, (range.left _ usable.2).1⟩⟩
  · rcases List.mem_append.mp member with inFront | rest
    · exact onClusters.tidy other (by simp [shape, inFront])
    · rcases List.mem_cons.mp rest with rfl | inBack
      · exact (takeSpace_tidy (onClusters.tidy chunk inState) taken).1
      · exact onClusters.tidy other (by simp [shape, inBack])
  · rcases List.mem_append.mp member with inFront | rest
    · exact onClusters.starts other (by simp [shape, inFront])
    · rcases List.mem_cons.mp rest with rfl | inBack
      · intro piece pieceMember pieceLong
        obtain ⟨old, oldMember, stop, start⟩ := origins piece pieceMember
        simp only [Extent.stop] at stop
        have oldAligned := starts old oldMember (by omega)
        rcases start with equal | ⟨equal, -⟩
        · rw [equal]
          exact oldAligned
        · rw [equal]
          exact oldAligned.add whole
      · exact onClusters.starts other (by simp [shape, inBack])

end Take

/-! ## A new chunk -/

section Carve

variable {state : Allocator} {cluster : ClusterSize} (onClusters : state.OnClusters cluster)
  {space : Space} (member : space ∈ state.spaceList)
  (enough : dataChunkSize ≤ space.length)

include onClusters member enough

theorem usable_of_carve
    {byte : Nat} (usable : (carve state space dataChunkSize blockGroupData).Usable byte) :
    state.Usable byte := by
  obtain ⟨index, start, holds, -⟩ := onClusters.onRegions.carve member enough
  rcases usable with ⟨chunk, chunkMember, free⟩ | ⟨number, ⟨left, leftMember, leftHolds⟩, inRegion⟩
  · rcases List.mem_append.mp chunkMember with old | isNew
    · exact Or.inl ⟨chunk, old, free⟩
    · rw [List.mem_singleton.mp isNew, start] at free
      exact Or.inr ⟨index + 1, ⟨space, member, holds⟩,
        (freshChunk_onRegion index).of_free free⟩
  · obtain ⟨old, oldMember, lower, upper, -⟩ := origin_of_mem_spaceListRemove leftMember
    exact Or.inr ⟨number,
      ⟨old, oldMember, lower.trans leftHolds.1, leftHolds.2.trans upper⟩, inRegion⟩

theorem carve_onClusters :
    (carve state space dataChunkSize blockGroupData).OnClusters cluster := by
  obtain ⟨index, start, -, onRegions⟩ := onClusters.onRegions.carve member enough
  have usable := @usable_of_carve state cluster onClusters space member enough
  have inCarved : freshChunk space.offset dataChunkSize blockGroupData ∈
      (carve state space dataChunkSize blockGroupData).chunks :=
    List.mem_append_right _ (List.mem_singleton_self _)
  refine ⟨onRegions, fun chunk chunkMember => ?_, fun chunk chunkMember => ?_,
    onClusters.stripes.imp_right fun apart addr addrMember both =>
      apart addr addrMember ⟨usable both.1, usable both.2⟩⟩
  · rcases List.mem_append.mp chunkMember with old | isNew
    · exact onClusters.tidy chunk old
    · rw [List.mem_singleton.mp isNew]
      exact tidy_removeSuperblocks rfl (tidy_singleton (show 0 < dataChunkSize by decide))
  · rcases List.mem_append.mp chunkMember with old | isNew
    · exact onClusters.starts chunk old
    · rw [List.mem_singleton.mp isNew]
      intro piece pieceMember long
      have aligned : dataChunkSize ∣ space.offset := by
        rw [start]
        exact dataChunkSize_dvd_regionStart (index + 1)
      rcases start_of_mem_freshChunk aligned pieceMember with equal | ⟨superblock, known, equal⟩
      · rw [equal]
        exact (cluster.bytes_dvd_dataChunkSize.trans aligned).add
          cluster.bytes_dvd_chunkVirtOffset
      · obtain ⟨old, oldMember, lower, -⟩ := origin_of_mem_removeSuperblocks pieceMember
        rw [List.mem_singleton.mp oldMember, equal] at lower
        simp only at lower
        have grid := (onClusters.onRegions.grid space member enough).2
        refine aligned_behind_stripe known pieceMember long equal
          (onClusters.stripes.imp_right fun apart both =>
            apart superblock (mem_laterSuperblock known ?_) ?_)
        · omega
        · exact ⟨usable (Or.inl ⟨_, inCarved, both.1⟩), usable (Or.inl ⟨_, inCarved, both.2⟩)⟩

end Carve

/-! ## An allocation -/

/-- A successful allocation takes a range of a chunk, perhaps of a new one. -/
theorem allocateData_served
    {length address : Nat} {changeUsed : Bool} {state next : Allocator}
    (allocated : allocateData length changeUsed state = (.ok address, next)) :
    (∃ before chunk after spaces used, state.chunks = before ++ chunk :: after ∧
      takeSpace length chunk.spaceList = some (address, spaces) ∧
      next = { state with chunks := before ++ chunk.take spaces used :: after }) ∨
    ∃ space ∈ state.spaceList, dataChunkSize ≤ space.length ∧ ∃ spaces used,
      takeSpace length (freshChunk space.offset dataChunkSize blockGroupData).spaceList =
          some (address, spaces) ∧
        next =
          { carve state space dataChunkSize blockGroupData with
            chunks :=
              state.chunks ++
                [(freshChunk space.offset dataChunkSize blockGroupData).take spaces used] } := by
  rw [allocateData] at allocated
  have cases_ := allocateFrom_cases blockGroupData dataChunkSize length
    (fun chunk => if changeUsed then (chunk.used + length) % wordModulus else chunk.used)
    (if changeUsed then length else 0) .noDataAddress state
  simp only at cases_
  rw [allocated] at cases_
  rcases cases_ with ⟨before, chunk, after, spaces, found, shape, -, taken, served⟩ | full |
      ⟨space, member, enough, failed | ⟨spaces, found, taken, served⟩⟩
  · obtain ⟨same, rest⟩ := Prod.mk.inj served
    cases same
    exact Or.inl ⟨before, chunk, after, spaces, _, shape, taken, rest⟩
  · cases (Prod.mk.inj full).1
  · cases (Prod.mk.inj failed).1
  · obtain ⟨same, rest⟩ := Prod.mk.inj served
    cases same
    exact Or.inr ⟨space, member, enough, spaces, _, taken, rest⟩

/-- An allocation of whole clusters gets whole clusters, and keeps the invariant. -/
theorem Allocator.OnClusters.allocateData
    {state next : Allocator} {cluster : ClusterSize} (onClusters : state.OnClusters cluster)
    {length address : Nat} {changeUsed : Bool} (whole : cluster.bytes ∣ length)
    (positive : 0 < length)
    (allocated : Ntfs2Btrfs.allocateData length changeUsed state = (.ok address, next)) :
    cluster.bytes ∣ address ∧ next.OnClusters cluster ∧
      TakesRange state next length address := by
  rcases allocateData_served allocated with
    ⟨before, chunk, after, spaces, used, shape, taken, rfl⟩ |
      ⟨space, member, enough, spaces, used, taken, rfl⟩
  · obtain ⟨aligned, kept⟩ := takeClusters onClusters shape taken whole positive used
    exact ⟨aligned, kept, takesRange onClusters shape taken used⟩
  · have carved := carve_onClusters onClusters member enough
    have shape : (carve state space dataChunkSize blockGroupData).chunks =
        state.chunks ++ freshChunk space.offset dataChunkSize blockGroupData :: [] := rfl
    obtain ⟨aligned, kept⟩ := takeClusters carved shape taken whole positive used
    obtain ⟨region, taken_, left⟩ := takesRange carved shape taken used
    have usable := @usable_of_carve state cluster onClusters space member enough
    exact ⟨aligned, kept, region, fun byte inRange => usable (taken_ byte inRange),
      fun byte usableNext => ⟨usable (left byte usableNext).1, (left byte usableNext).2⟩⟩

/-! ## The start of the conversion -/

section Start

variable {deviceSize : Nat} {cluster : ClusterSize} {bitmap : Bytes}

theorem start_of_mem_freeSpaces
    {base chunkLength last : Nat} {used : List Extent} (aligned : cluster.bytes ∣ base)
    {space : Space} (member : space ∈ freeSpaces base cluster.bytes chunkLength last used) :
    cluster.bytes ∣ space.offset := by
  have multiple (count : Nat) : cluster.bytes ∣ base + count * cluster.bytes :=
    aligned.add (dvd_mul_left _ _)
  induction used generalizing last with
  | nil =>
    rw [freeSpaces] at member
    split_ifs at member
    · rw [List.mem_singleton.mp member]
      exact multiple last
    · exact absurd member List.not_mem_nil
  | cons run rest ih =>
    rw [freeSpaces] at member
    split_ifs at member
    · rcases List.mem_cons.mp member with rfl | inRest
      · exact multiple last
      · exact ih inRest
    · exact ih member

theorem stripeLength_dvd_stripeFloor (length : Nat) : stripeLength ∣ stripeFloor length :=
  Nat.dvd_sub_mod length

/-- Where the free ranges of a data chunk start. -/
theorem start_of_mem_dataChunk
    {addr chunkLength : Nat} {used : List Extent} (stripes : stripeLength ∣ addr)
    (clusters : cluster.bytes ∣ addr) (whole : stripeLength ∣ chunkLength) {space : Space}
    (member : space ∈ (dataChunk cluster.bytes addr chunkLength used).spaceList) :
    cluster.bytes ∣ space.offset ∨
      ∃ superblock ∈ superblockAddrs,
        space.offset = superblock + stripeLength + chunkVirtOffset := by
  have reserved : stripeLength ∣ reservedArea := by decide
  have shift : stripeLength ∣ regionShift addr := by
    rw [regionShift]
    split_ifs
    · exact dvd_zero _
    · exact Nat.dvd_sub reserved stripes
  set chunk : Chunk :=
    { offset := addr + chunkVirtOffset + regionShift addr
      length := chunkLength - regionShift addr
      diskStart := addr + regionShift addr
      type := blockGroupData
      spaceList := freeSpaces (addr + chunkVirtOffset) cluster.bytes chunkLength 0 used }
    with chunkEq
  have placed : chunk.offset = chunk.diskStart + chunkVirtOffset :=
    Nat.add_right_comm addr chunkVirtOffset (regionShift addr)
  have cut : ∀ piece ∈ (removeSuperblocks chunk).spaceList,
      cluster.bytes ∣ piece.offset ∨
        ∃ superblock ∈ superblockAddrs,
          piece.offset = superblock + stripeLength + chunkVirtOffset := by
    intro piece inCut
    rcases start_of_mem_removeSuperblocks placed (stripes.add shift)
      (Nat.dvd_sub whole shift) inCut with ⟨old, oldMember, equal⟩ | behind
    · rw [equal]
      exact Or.inl (start_of_mem_freeSpaces
        (clusters.add cluster.bytes_dvd_chunkVirtOffset) oldMember)
    · exact Or.inr behind
  have chunkIs : dataChunk cluster.bytes addr chunkLength used =
      if regionShift addr ≠ 0 then
        { removeSuperblocks chunk with
          spaceList :=
            spaceListRemove (removeSuperblocks chunk).spaceList
              (addr + chunkVirtOffset) (regionShift addr) }
      else removeSuperblocks chunk :=
    rfl
  rw [chunkIs] at member
  split_ifs at member with shifted
  · obtain ⟨old, oldMember, -, -, start, -⟩ := origin_of_mem_spaceListRemove member
    rcases start with equal | equal
    · rw [equal]
      exact cut old oldMember
    · have first : addr + regionShift addr = reservedArea := by
        rw [regionShift] at shifted ⊢
        split_ifs at shifted ⊢
        · exact absurd rfl shifted
        · omega
      refine Or.inl ?_
      rw [equal, Nat.add_right_comm, first]
      exact cluster.bytes_dvd_reservedArea.add cluster.bytes_dvd_chunkVirtOffset
  · exact cut space member

/-- The chunks of the regions in use are all there is at the start. -/
theorem mem_conversionStart_chunks
    {chunk : Chunk} (member : chunk ∈ (conversionStart deviceSize cluster bitmap).chunks) :
    ∃ index, chunk = regionChunk deviceSize cluster bitmap index := by
  rw [conversionStart, ChunkTable.state_chunks, mem_createDataChunks_iff] at member
  obtain ⟨index, -, equal⟩ := member
  exact ⟨index, equal⟩

/-- The conversion starts with the invariant when no stripe cuts free clusters. -/
theorem conversionStart_onClusters
    (large : reservedArea ≤ deviceSize) (boot : ClusterInUse bitmap 0)
    (stripes : cluster.bytes ≤ stripeLength ∨
      ∀ addr ∈ superblockAddrs.tail,
        ¬ ((conversionStart deviceSize cluster bitmap).Usable (addr + stripeLength) ∧
          (conversionStart deviceSize cluster bitmap).Usable (addr + cluster.bytes))) :
    (conversionStart deviceSize cluster bitmap).OnClusters cluster := by
  refine ⟨conversionStart_onRegions large boot, fun chunk member => ?_,
    fun chunk member space spaceMember long => ?_, stripes⟩
  · obtain ⟨index, rfl⟩ := mem_conversionStart_chunks member
    exact regionChunk_tidy index
  · obtain ⟨index, equal⟩ := mem_conversionStart_chunks member
    have inRegion : space ∈ (regionChunk deviceSize cluster bitmap index).spaceList :=
      equal ▸ spaceMember
    have regions := dataChunkSize_dvd_regionStart index
    rcases start_of_mem_dataChunk ((show stripeLength ∣ dataChunkSize by decide).trans regions)
        (cluster.bytes_dvd_dataChunkSize.trans regions) (stripeLength_dvd_stripeFloor _)
        inRegion with aligned | ⟨superblock, known, start⟩
    · exact aligned
    · refine aligned_behind_stripe known spaceMember long start
        (stripes.imp_right fun apart both => apart superblock (mem_laterSuperblock known ?_)
          ⟨Or.inl ⟨chunk, member, both.1⟩, Or.inl ⟨chunk, member, both.2⟩⟩)
      have positive := (regionChunk_tidy index).positive space inRegion
      obtain ⟨relative, byte, free⟩ := free_of_mem_regionChunk inRegion
        (show space.Contains space.offset from ⟨le_rfl, Nat.lt_add_of_pos_right positive⟩)
      have reserved := ((free_regionChunk_iff index relative).mp free).1
      omega

end Start

end Ntfs2Btrfs
