import Ntfs2Btrfs.Bookkeeping

/-!
# What the conversion writes

The conversion writes to the device it converts.  Up to the last inode it writes
copies of protected clusters, the extents of rewritten files, and zeroes past
the valid data of mapped files; at the end it writes the trees, the superblocks
and an empty first cluster.

Copies and extents go to clusters that NTFS does not use, whatever the order of
the actions and wherever an exception stops them.  What is written at the end
meets a cluster in use only if its contents were copied before.
-/

namespace Ntfs2Btrfs

open Extents
open BitRuns
open ByteStore

/-! ## Free lists that shrink -/

/-- Every space lies within an old one. -/
def Within (spaces old : List Space) : Prop :=
  ∀ space ∈ spaces, ∃ whole ∈ old, whole.offset ≤ space.offset ∧ space.stop ≤ whole.stop

theorem Within.refl (spaces : List Space) : Within spaces spaces :=
  fun space member => ⟨space, member, le_rfl, le_rfl⟩

theorem Within.trans
    {inner middle outer : List Space} (left : Within inner middle)
    (right : Within middle outer) : Within inner outer := by
  intro space member
  obtain ⟨part, partMember, from_, to_⟩ := left space member
  obtain ⟨whole, wholeMember, wholeFrom, wholeTo⟩ := right part partMember
  exact ⟨whole, wholeMember, wholeFrom.trans from_, to_.trans wholeTo⟩

theorem Within.covers
    {spaces old : List Space} (within : Within spaces old) {address : Nat}
    (covered : Covers spaces address) : Covers old address := by
  obtain ⟨space, member, from_, to_⟩ := covered
  obtain ⟨whole, wholeMember, wholeFrom, wholeTo⟩ := within space member
  exact ⟨whole, wholeMember, wholeFrom.trans from_, to_.trans_le wholeTo⟩

theorem within_spaceListRemove (spaces : List Space) (offset length : Nat) :
    Within (spaceListRemove spaces offset length) spaces := by
  intro space member
  obtain ⟨old, oldMember, from_, to_, -⟩ := origin_of_mem_spaceListRemove member
  exact ⟨old, oldMember, from_, to_⟩

theorem within_takeSpace
    {length address : Nat} {spaces left : List Space}
    (taken : takeSpace length spaces = some (address, left)) : Within left spaces := by
  intro space member
  obtain ⟨old, oldMember, stop, start⟩ := (takeSpace_spec taken).2 space member
  exact ⟨old, oldMember, by omega, stop.le⟩

theorem within_removeSuperblocks (chunk : Chunk) :
    Within (removeSuperblocks chunk).spaceList chunk.spaceList := by
  rw [removeSuperblocks]
  simp only
  generalize chunk.spaceList = spaces
  induction superblockAddrs generalizing spaces with
  | nil => exact Within.refl spaces
  | cons superblock rest ih =>
    rw [List.foldl_cons]
    refine (ih _).trans fun space member => ?_
    exact origin_of_mem_removeSuperblock member

/-! ## Allocations off the clusters in use -/

section OffLive

variable (volume : Volume) (bitmap : Bytes)

/-- No byte of the range is in a cluster in use. -/
def Volume.Spares (entry : Nat × Bytes) : Prop :=
  ∀ byte, Store.Touches entry byte → ¬ ClusterInUse bitmap (byte / volume.cluster.bytes)

/-- Free space is in clusters that are not in use, and chunks are where their addresses say. -/
structure Allocator.OffLive (state : Allocator) : Prop where
  placed : ∀ chunk ∈ state.chunks, chunk.offset = chunk.diskStart + chunkVirtOffset
  virtual : ∀ chunk ∈ state.chunks, ∀ space ∈ chunk.spaceList, chunkVirtOffset ≤ space.offset
  unused : ∀ byte, state.Free byte → ¬ ClusterInUse bitmap (byte / volume.cluster.bytes)

end OffLive

namespace Allocator.OffLive

variable {volume : Volume} {bitmap : Bytes} {state : Allocator}
  (offLive : state.OffLive volume bitmap)

include offLive

/-- A chunk that lost space, and a global list that lost space. -/
theorem shrink
    {next : Allocator} (spaces : Within next.spaceList state.spaceList)
    (chunks : ∀ chunk ∈ next.chunks,
      chunk.offset = chunk.diskStart + chunkVirtOffset ∧
        ∃ old, Within chunk.spaceList old ∧
          (∀ space ∈ old, chunkVirtOffset ≤ space.offset) ∧
          ∀ byte, Covers old (byte + chunkVirtOffset) → state.Free byte) :
    next.OffLive volume bitmap where
  placed := fun chunk member => (chunks chunk member).1
  virtual := by
    intro chunk member space spaceMember
    obtain ⟨-, old, within, virtual, -⟩ := chunks chunk member
    obtain ⟨whole, wholeMember, from_, -⟩ := within space spaceMember
    exact (virtual whole wholeMember).trans from_
  unused := by
    rintro byte (⟨chunk, member, free⟩ | covered)
    · obtain ⟨-, old, within, -, free'⟩ := chunks chunk member
      exact offLive.unused byte (free' byte (within.covers free))
    · exact offLive.unused byte (Or.inr (spaces.covers covered))

/-- The chunks stay as they are. -/
theorem of_mem {chunk : Chunk} (member : chunk ∈ state.chunks) :
    chunk.offset = chunk.diskStart + chunkVirtOffset ∧
      ∃ old, Within chunk.spaceList old ∧
        (∀ space ∈ old, chunkVirtOffset ≤ space.offset) ∧
        ∀ byte, Covers old (byte + chunkVirtOffset) → state.Free byte :=
  ⟨offLive.placed chunk member, chunk.spaceList, Within.refl _, offLive.virtual chunk member,
    fun _ covered => Or.inl ⟨chunk, member, covered⟩⟩

theorem of_take
    {before after : List Chunk} {chunk : Chunk} {spaces : List Space}
    (shape : state.chunks = before ++ chunk :: after)
    (within : Within spaces chunk.spaceList) (used : Nat) :
    Allocator.OffLive volume bitmap
      { state with chunks := before ++ chunk.take spaces used :: after } := by
  refine offLive.shrink (Within.refl _) fun other member => ?_
  rcases List.mem_append.mp member with old | rest
  · exact offLive.of_mem (by rw [shape]; exact List.mem_append_left _ old)
  · rcases List.mem_cons.mp rest with rfl | old
    · have present : chunk ∈ state.chunks := by
        rw [shape]
        exact List.mem_append_right _ List.mem_cons_self
      exact ⟨offLive.placed chunk present, chunk.spaceList, within, offLive.virtual chunk present,
        fun _ covered => Or.inl ⟨chunk, present, covered⟩⟩
    · refine offLive.of_mem ?_
      rw [shape]
      exact List.mem_append_right _ (List.mem_cons_of_mem _ old)

/-- A new chunk is carved out of the free space. -/
theorem of_carve
    {space : Space} (member : space ∈ state.spaceList) {chunkSize : Nat}
    (enough : chunkSize ≤ space.length) (type : Nat) :
    (carve state space chunkSize type).OffLive volume bitmap := by
  refine offLive.shrink (within_spaceListRemove _ _ _) fun chunk chunkMember => ?_
  rcases List.mem_append.mp chunkMember with old | isNew
  · exact offLive.of_mem old
  · rw [List.mem_singleton.mp isNew]
    refine ⟨rfl, _, within_removeSuperblocks _, fun part partMember => ?_, ?_⟩
    · rw [List.mem_singleton.mp partMember]
      exact Nat.le_add_left _ _
    · rintro byte ⟨part, partMember, from_, to_⟩
      rw [List.mem_singleton.mp partMember] at from_ to_
      rw [Extent.stop_mk] at to_
      refine Or.inr ⟨space, member, Nat.le_of_add_le_add_right from_, ?_⟩
      rw [Extent.stop]
      omega

/-- What a search of a free list returns is free. -/
theorem taken
    {length address : Nat} {chunk : Chunk} {spaces : List Space}
    (member : chunk ∈ state.chunks)
    (taken : takeSpace length chunk.spaceList = some (address, spaces)) :
    chunkVirtOffset ≤ address ∧ ∀ data : Bytes, data.length ≤ length →
      volume.Spares bitmap (address - chunkVirtOffset, data) := by
  obtain ⟨⟨space, spaceMember, rfl, fits⟩, -⟩ := takeSpace_spec taken
  have virtual := offLive.virtual chunk member space spaceMember
  refine ⟨virtual, fun data short byte touches => ?_⟩
  obtain ⟨from_, to_⟩ := touches
  refine offLive.unused byte (Or.inl ⟨chunk, member, space, spaceMember, ?_, ?_⟩)
  · simp only at from_
    omega
  · rw [Extent.stop]
    simp only at to_
    omega

/-- A search that may create a chunk. -/
theorem allocateFrom
    (type chunkSize length : Nat) (usedOld : Chunk → Nat) (usedNew : Nat)
    (noAddress : ConvertError) :
    (Ntfs2Btrfs.allocateFrom type chunkSize length usedOld usedNew noAddress state).2.OffLive
        volume bitmap ∧
      ∀ address,
        (Ntfs2Btrfs.allocateFrom type chunkSize length usedOld usedNew noAddress state).1 =
            .ok address →
          chunkVirtOffset ≤ address ∧ ∀ data : Bytes, data.length ≤ length →
            volume.Spares bitmap (address - chunkVirtOffset, data) := by
  rcases allocateFrom_cases type chunkSize length usedOld usedNew noAddress state with
    ⟨before, chunk, after, spaces, address, shape, -, taken, equal⟩ | equal |
      ⟨space, member, enough, equal | ⟨spaces, address, taken, equal⟩⟩
  · rw [equal]
    refine ⟨offLive.of_take shape (within_takeSpace taken) _, fun found same => ?_⟩
    cases same
    exact offLive.taken (by rw [shape]; simp) taken
  · rw [equal]
    refine ⟨⟨offLive.placed, offLive.virtual, offLive.unused⟩, fun found same => ?_⟩
    cases same
  · rw [equal]
    refine ⟨offLive.of_carve member enough type, fun found same => ?_⟩
    cases same
  · have carved := offLive.of_carve member enough type
    have shape : (carve state space chunkSize type).chunks =
        state.chunks ++ freshChunk space.offset chunkSize type :: [] := rfl
    rw [equal]
    refine ⟨carved.of_take shape (within_takeSpace taken) usedNew, fun found same => ?_⟩
    cases same
    exact carved.taken (by rw [shape]; simp) taken

/-- `allocate_data` -/
theorem allocateData
    {length address : Nat} {changeUsed : Bool} {next : Allocator}
    (allocated : Ntfs2Btrfs.allocateData length changeUsed state = (.ok address, next)) :
    next.OffLive volume bitmap ∧ chunkVirtOffset ≤ address ∧
      ∀ data : Bytes, data.length ≤ length →
        volume.Spares bitmap (address - chunkVirtOffset, data) := by
  obtain ⟨kept, spares⟩ := offLive.allocateFrom blockGroupData dataChunkSize length
    (fun chunk => if changeUsed then (chunk.used + length) % wordModulus else chunk.used)
    (if changeUsed then length else 0) .noDataAddress
  rw [Ntfs2Btrfs.allocateData] at allocated
  rw [allocated] at kept spares
  exact ⟨kept, spares address rfl⟩

/-- `allocate_metadata`, whether it returns or throws. -/
theorem allocateMetadata (root level : Nat) :
    (Ntfs2Btrfs.allocateMetadata root level state).2.OffLive volume bitmap ∧
      ∀ address, (Ntfs2Btrfs.allocateMetadata root level state).1 = .ok address →
        chunkVirtOffset ≤ address ∧ ∀ data : Bytes, data.length ≤ treeSize →
          volume.Spares bitmap (address - chunkVirtOffset, data) := by
  obtain ⟨kept, spares⟩ := offLive.allocateFrom (metadataType root) (metadataChunkSize root)
    treeSize (fun chunk => (chunk.used + treeSize) % wordModulus) treeSize .noMetadataAddress
  rw [Ntfs2Btrfs.allocateMetadata]
  split
  · rename_i failure next served
    rw [served] at kept
    exact ⟨kept, fun address same => by cases same⟩
  · rename_i address next served
    rw [served] at kept spares
    split
    · exact ⟨kept, fun address same => by cases same⟩
    · refine ⟨⟨kept.placed, kept.virtual, kept.unused⟩, fun found same => ?_⟩
      cases same
      exact spares address rfl

/-- Changes in the usage of chunks keep it. -/
theorem sameSpace {other : Allocator} (same : state.SameSpace other) :
    other.OffLive volume bitmap := by
  have source {chunk : Chunk} (member : chunk ∈ other.chunks) :
      ∃ old ∈ state.chunks, old.offset = chunk.offset ∧ old.diskStart = chunk.diskStart ∧
        old.spaceList = chunk.spaceList := by
    obtain ⟨old, oldMember, equal⟩ := same.symm.exists_chunk member
    have offset := congrArg Chunk.offset equal
    have start := congrArg Chunk.diskStart equal
    have spaces := congrArg Chunk.spaceList equal
    exact ⟨old, oldMember, offset, start, spaces⟩
  refine ⟨fun chunk member => ?_, fun chunk member space spaceMember => ?_,
    fun byte free => offLive.unused byte (same.symm.free free)⟩
  · obtain ⟨old, oldMember, offset, start, -⟩ := source member
    rw [← offset, ← start]
    exact offLive.placed old oldMember
  · obtain ⟨old, oldMember, -, -, spaces⟩ := source member
    exact offLive.virtual old oldMember space (spaces ▸ spaceMember)

end Allocator.OffLive

/-! ## The trace of writes -/

/-- A write, and whether it zeroes a mapped file in place. -/
structure DeviceWrite where
  entry : Nat × Bytes
  inPlace : Bool
deriving DecidableEq

section Trace

variable (volume : Volume)

/-- The writes of `protect_cluster`. -/
def protectWrites (state : Conversion) (cluster : Nat) : List (Nat × Bytes) :=
  match splitRuns volume.clustersPerChunk state.runs cluster 1 dummyInode 0 with
  | .ok (true, _) =>
      match allocateData volume.cluster.bytes false state.allocator with
      | (.ok address, _) =>
          [(address - chunkVirtOffset,
            Store.read state.device (cluster * volume.cluster.bytes)
              (volume.clusterLength cluster))]
      | (.error _, _) => []
  | _ => []

/--
The writes of the loop over the data of a rewritten file.  The extent is written
before its item is added, which may throw.
-/
def rewriteWrites (inode : Nat) (codec : Option Codec) (pos : Nat) (data : Bytes)
    (state : Rewriting) : List (Nat × Bytes) :=
  if nonempty : data = [] then []
  else
    match nextPiece data nonempty volume.cluster.bytes pos codec with
    | .error _ => []
    | .ok piece =>
        match allocateData piece.stored.length true state.conversion.allocator with
        | (.error _, _) => []
        | (.ok address, _) =>
            (address - chunkVirtOffset, piece.stored) ::
              match storePiece volume inode pos piece state with
              | .error _ => []
              | .ok next =>
                  rewriteWrites inode piece.codec (pos + piece.length)
                    (data.drop piece.length) next
termination_by data.length
decreasing_by
  have positive := List.length_pos_of_ne_nil nonempty
  have shorter := piece.positive
  rw [List.length_drop]
  omega

/-- The writes of an action, up to where it throws. -/
def Action.writes : Action → Conversion → List DeviceWrite
  | .protect cluster, state =>
      (protectWrites volume state cluster).map fun entry => ⟨entry, false⟩
  | .zeroEnd addr data, _ => [⟨(addr, data), true⟩]
  | .rewrite file items flags, state =>
      (rewriteWrites volume file.inode file.compression 0
        (paddedData file.inlineData file.vdl)
        { conversion := state
          items := items
          nbytes := 0
          flags := flags
          extents := [] }).map fun entry => ⟨entry, false⟩
  | .calcUsed, _ => []
  | .map _ _ _, _ => []

/-- The writes of one action after the other, up to the first that throws. -/
def runWrites : List Action → Conversion → List DeviceWrite
  | [], _ => []
  | action :: rest, state =>
      action.writes volume state ++
        match action.perform volume state with
        | none => []
        | some next => runWrites rest next

end Trace

/-! ## The writes of one action -/

section Actions

variable {volume : Volume} {bitmap : Bytes}

theorem clusterLength_le (volume : Volume) (cluster : Nat) :
    volume.clusterLength cluster ≤ volume.cluster.bytes := by
  rw [Volume.clusterLength, Nat.succ_mul]
  split_ifs
  · omega
  · exact le_rfl

/-- What `protect_cluster` writes is off the clusters in use. -/
theorem protectWrites_spare
    {state : Conversion} (offLive : state.allocator.OffLive volume bitmap) {cluster : Nat}
    {entry : Nat × Bytes} (written : entry ∈ protectWrites volume state cluster) :
    volume.Spares bitmap entry := by
  rw [protectWrites] at written
  split at written
  · split at written
    · rename_i address allocator allocated
      rw [List.mem_singleton.mp written]
      refine (offLive.allocateData allocated).2.2 _ ?_
      rw [Store.length_read]
      exact clusterLength_le volume cluster
    · exact absurd written List.not_mem_nil
  · exact absurd written List.not_mem_nil

/-- Where it returns, the writes are what it did to the device. -/
theorem protectCluster_writes
    {state next : Conversion} (offLive : state.allocator.OffLive volume bitmap) {cluster : Nat}
    (done : protectCluster volume state cluster = .ok next) :
    next.device = Store.writeAll state.device (protectWrites volume state cluster) ∧
      next.allocator.OffLive volume bitmap := by
  rw [protectWrites]
  rw [protectCluster] at done
  cases split_ : splitRuns volume.clustersPerChunk state.runs cluster 1 dummyInode 0 with
  | error failure =>
    rw [split_] at done
    cases done
  | ok outcome =>
    obtain ⟨found, runs⟩ := outcome
    rw [split_] at done
    simp only [bind, Except.bind] at done
    cases found with
    | false =>
      cases done
      exact ⟨rfl, offLive⟩
    | true =>
      rw [if_pos rfl] at done
      rcases allocated : allocateData volume.cluster.bytes false state.allocator with
        ⟨failure | address, allocator⟩
      · rw [allocated] at done
        cases done
      · rw [allocated] at done
        cases done
        refine ⟨?_, ?_⟩
        · rw [device_moved, Store.writeAll_cons, Store.writeAll_nil]
        · rw [allocator_moved]
          exact (offLive.allocateData allocated).1.sameSpace (sameSpace_discharge _ _ allocator)

/-- Storing a piece is its allocation and its write. -/
theorem storePiece_writes
    {inode pos address : Nat} {piece : FilePiece} {allocator : Allocator}
    {state next : Rewriting}
    (allocated : allocateData piece.stored.length true state.conversion.allocator =
      (.ok address, allocator))
    (stored : storePiece volume inode pos piece state = .ok next) :
    next.conversion.device =
        Store.write state.conversion.device (address - chunkVirtOffset) piece.stored ∧
      next.conversion.allocator = allocator := by
  rw [storePiece, allocated] at stored
  simp only at stored
  cases added : addItem state.items inode BtrfsKeyType.extentData pos
      (storedExtent volume inode pos piece address).item.bytes with
  | error failure =>
    rw [added] at stored
    cases stored
  | ok items =>
    rw [added] at stored
    rw [← Except.ok.inj stored]
    simp only [and_self]

/-- What the loop over a rewritten file writes is off the clusters in use. -/
theorem rewriteWrites_spare
    {inode pos : Nat} {codec : Option Codec} {data : Bytes} {state : Rewriting}
    (offLive : state.conversion.allocator.OffLive volume bitmap) {entry : Nat × Bytes}
    (written : entry ∈ rewriteWrites volume inode codec pos data state) :
    volume.Spares bitmap entry := by
  induction size : data.length using Nat.strong_induction_on generalizing codec pos data state with
  | _ size ih =>
    subst size
    rw [rewriteWrites] at written
    split at written
    · exact absurd written List.not_mem_nil
    · rename_i nonempty
      split at written
      · exact absurd written List.not_mem_nil
      · rename_i piece chosen
        split at written
        · exact absurd written List.not_mem_nil
        · rename_i address allocator allocated
          obtain ⟨kept, -, spares⟩ := offLive.allocateData allocated
          rcases List.mem_cons.mp written with rfl | later
          · exact spares piece.stored le_rfl
          · split at later
            · exact absurd later List.not_mem_nil
            · rename_i next stored
              have rest := (storePiece_writes allocated stored).2
              refine ih (data.drop piece.length).length ?_ (rest ▸ kept) later rfl
              have positive := List.length_pos_of_ne_nil nonempty
              have shorter := piece.positive
              rw [List.length_drop]
              omega

/-- Where the loop returns, the writes are what it did to the device. -/
theorem rewriteLoop_writes
    {inode pos : Nat} {codec : Option Codec} {data : Bytes} {state final : Rewriting}
    (done : rewriteLoop volume inode codec pos data state = .ok final)
    (offLive : state.conversion.allocator.OffLive volume bitmap) :
    final.conversion.device =
        Store.writeAll state.conversion.device
          (rewriteWrites volume inode codec pos data state) ∧
      final.conversion.allocator.OffLive volume bitmap := by
  refine rewriteLoop_induction volume inode
    (fun codec pos data state =>
      state.conversion.allocator.OffLive volume bitmap →
        final.conversion.device =
            Store.writeAll state.conversion.device
              (rewriteWrites volume inode codec pos data state) ∧
          final.conversion.allocator.OffLive volume bitmap)
    (fun codec pos kept => ?_)
    (fun codec pos data nonempty state piece next chosen stored ih kept => ?_) done offLive
  · rw [rewriteWrites, dif_pos rfl]
    exact ⟨rfl, kept⟩
  · obtain ⟨address, allocator, -, -, allocated, -⟩ := storePiece_cases stored
    obtain ⟨device, rest⟩ := storePiece_writes allocated stored
    obtain ⟨finalDevice, finalKept⟩ := ih (rest ▸ (kept.allocateData allocated).1)
    refine ⟨?_, finalKept⟩
    rw [rewriteWrites, dif_neg nonempty, chosen]
    simp only [allocated, stored]
    rw [Store.writeAll_cons, ← device, finalDevice]

/-- The writes of an action that are not in place are off the clusters in use. -/
theorem Action.writes_spare
    {action : Action} {state : Conversion} (offLive : state.allocator.OffLive volume bitmap)
    {write : DeviceWrite} (written : write ∈ action.writes volume state)
    (placed : write.inPlace = false) : volume.Spares bitmap write.entry := by
  cases action with
  | protect cluster =>
    obtain ⟨entry, member, rfl⟩ := List.mem_map.mp written
    exact protectWrites_spare offLive member
  | calcUsed => exact absurd written List.not_mem_nil
  | map turns inode mappings => exact absurd written List.not_mem_nil
  | zeroEnd addr data =>
    rw [List.mem_singleton.mp written] at placed
    cases placed
  | rewrite file items flags =>
    obtain ⟨entry, member, rfl⟩ := List.mem_map.mp written
    exact @rewriteWrites_spare volume bitmap _ _ _ _ _ offLive _ member

/-- An action that returns did its writes, and keeps allocations off the clusters in use. -/
theorem Action.perform_writes
    {action : Action} {state next : Conversion}
    (done : action.perform volume state = some next)
    (offLive : state.allocator.OffLive volume bitmap) :
    next.device =
        Store.writeAll state.device ((action.writes volume state).map DeviceWrite.entry) ∧
      next.allocator.OffLive volume bitmap := by
  have entries (written : List (Nat × Bytes)) :
      (written.map fun entry => (⟨entry, false⟩ : DeviceWrite)).map DeviceWrite.entry =
        written := by
    rw [List.map_map]
    exact List.map_id written
  cases action with
  | protect cluster =>
    rw [Action.writes, entries]
    exact protectCluster_writes offLive (eq_ok_of_toOption_eq_some done)
  | calcUsed =>
    cases done
    exact ⟨rfl, offLive.sameSpace (sameSpace_calcUsedSpace _ _ _)⟩
  | map turns inode mappings =>
    rw [Action.perform] at done
    split at done
    · cases done
      exact ⟨rfl, offLive⟩
    · cases done
  | zeroEnd addr data =>
    cases done
    exact ⟨rfl, offLive⟩
  | rewrite file items flags =>
    obtain ⟨outcome, returned, rfl⟩ := Option.map_eq_some_iff.mp done
    have looped := eq_ok_of_toOption_eq_some returned
    rw [rewriteFile] at looped
    rw [Action.writes, entries]
    exact rewriteLoop_writes looped offLive

/-! ## The writes of a run -/

theorem runWrites_spare
    {actions : List Action} {state : Conversion}
    (offLive : state.allocator.OffLive volume bitmap) :
    ∀ write ∈ runWrites volume actions state,
      write.inPlace = false → volume.Spares bitmap write.entry := by
  induction actions generalizing state with
  | nil => exact fun write member => absurd member List.not_mem_nil
  | cons action rest ih =>
    intro write member placed
    rw [runWrites] at member
    rcases List.mem_append.mp member with first | later
    · exact Action.writes_spare offLive first placed
    · split at later
      · exact absurd later List.not_mem_nil
      · rename_i next performed
        exact ih (Action.perform_writes performed offLive).2 write later placed

theorem performAll_writes
    {actions : List Action} {state final : Conversion}
    (offLive : state.allocator.OffLive volume bitmap)
    (done : performAll volume actions state = some final) :
    final.device =
        Store.writeAll state.device ((runWrites volume actions state).map DeviceWrite.entry) ∧
      final.allocator.OffLive volume bitmap := by
  induction actions generalizing state with
  | nil =>
    cases done
    exact ⟨rfl, offLive⟩
  | cons action rest ih =>
    rw [performAll, List.foldlM_cons] at done
    obtain ⟨middle, performed, finished⟩ := Option.bind_eq_some_iff.mp done
    obtain ⟨device, kept⟩ := Action.perform_writes performed offLive
    obtain ⟨finalDevice, finalKept⟩ := ih kept finished
    refine ⟨?_, finalKept⟩
    rw [runWrites, performed, List.map_append, Store.writeAll_append, ← device, finalDevice]

end Actions

/-- The half MiB behind the reserved area is free, as it is on the small volume. -/
def spareAllocator : Allocator :=
  ⟨[freshChunk 0x100000 0x80000 blockGroupData], [], false, SortedMap.empty⟩

theorem spareAllocator_offLive : spareAllocator.OffLive smallVolume smallBitmap := by
  refine ⟨by decide, by decide +kernel, fun byte free => ?_⟩
  have spaces : (freshChunk 0x100000 0x80000 blockGroupData).spaceList =
      [⟨0x200000, 0x80000⟩] := by
    decide +kernel
  rcases free with ⟨chunk, member, space, spaceMember, from_, -⟩ | ⟨space, member, -⟩
  · rw [List.mem_singleton.mp member, spaces, List.mem_singleton] at spaceMember
    subst spaceMember
    have behind : 16 ≤ byte / smallVolume.cluster.bytes := by
      refine (Nat.le_div_iff_mul_le smallVolume.cluster.bytes_pos).mpr ?_
      have bytes : 16 * smallVolume.cluster.bytes = 0x100000 := by decide
      rw [chunkVirtOffset] at from_
      simp only at from_
      omega
    intro inUse
    have short : byte / smallVolume.cluster.bytes < 64 := inUse.lt_length
    interval_cases byte / smallVolume.cluster.bytes <;> revert inUse <;> decide
  · exact absurd member List.not_mem_nil

/-- The first run of the list that a search for the cluster can stop at contains it. -/
def Finds (runs : List DataAlloc) (cluster : Nat) : Prop :=
  ∃ front run back, runs = front ++ run :: back ∧ run.extent.Contains cluster ∧
    ∀ earlier ∈ front, earlier.stop ≤ cluster

theorem TidyRuns.finds
    {runs : List DataAlloc} (tidy : TidyRuns runs) {run : DataAlloc} (member : run ∈ runs)
    {cluster : Nat} (inside : run.extent.Contains cluster) : Finds runs cluster := by
  obtain ⟨front, back, rfl⟩ := List.append_of_mem member
  refine ⟨front, run, back, rfl, inside, fun earlier earlierMember => ?_⟩
  have ordered :=
    ((tidyRuns_append_iff _ _).mp tidy).2.2 earlier earlierMember run List.mem_cons_self
  exact ordered.trans inside.1

/-- The search finds it. -/
theorem Finds.splitList
    {runs : List DataAlloc} {cluster : Nat} (finds : Finds runs cluster)
    (inode fileOffset : Nat) :
    splitList cluster 1 inode fileOffset runs ≠ .ok (false, runs) := by
  obtain ⟨front, run, back, rfl, inside, before⟩ := finds
  obtain ⟨lower, upper⟩ := inside
  rw [DataAlloc.extent_stop] at upper
  simp only [DataAlloc.extent] at lower
  induction front with
  | nil =>
    intro equal
    rw [List.nil_append, Ntfs2Btrfs.splitList, if_neg (by omega), if_pos ⟨by omega, upper⟩,
      if_pos ⟨lower, upper⟩] at equal
    cases (Prod.mk.inj (Except.ok.inj equal)).1
  | cons head rest ih =>
    obtain ⟨first, later⟩ := List.forall_mem_cons.mp before
    intro equal
    have start : head.offset ≤ head.stop := Nat.le_add_right _ _
    rw [List.cons_append, Ntfs2Btrfs.splitList, if_neg (by omega),
      if_neg (by omega)] at equal
    refine ih later ?_
    cases searched : Ntfs2Btrfs.splitList cluster 1 inode fileOffset (rest ++ run :: back) with
    | error failure =>
      rw [searched] at equal
      cases equal
    | ok outcome =>
      rw [searched] at equal
      obtain ⟨found, left⟩ := Prod.mk.inj (Except.ok.inj equal)
      rw [← found, ← (List.cons.inj left).2]

/-- A copy elsewhere does not stop the search. -/
theorem Finds.insertRun
    {runs : List DataAlloc} {cluster : Nat} (finds : Finds runs cluster) {copy : Nat}
    (elsewhere : copy ≠ cluster) : Finds (insertRun (copyRun copy) runs) cluster := by
  obtain ⟨front, run, back, rfl, inside, before⟩ := finds
  induction front with
  | nil =>
    rw [List.nil_append, Ntfs2Btrfs.insertRun]
    split_ifs with behind
    · refine ⟨[copyRun copy], run, back, rfl, inside, fun earlier member => ?_⟩
      rw [List.mem_singleton.mp member]
      exact Nat.succ_le_of_lt (behind.trans_le inside.1)
    · exact ⟨[], run, Ntfs2Btrfs.insertRun (copyRun copy) back, rfl, inside,
        fun earlier member => absurd member List.not_mem_nil⟩
  | cons head rest ih =>
    obtain ⟨first, later⟩ := List.forall_mem_cons.mp before
    rw [List.cons_append, Ntfs2Btrfs.insertRun]
    split_ifs with behind
    · refine ⟨copyRun copy :: head :: rest, run, back, rfl, inside, fun earlier member => ?_⟩
      rcases List.mem_cons.mp member with rfl | old
      · have start : head.offset ≤ head.stop := Nat.le_add_right _ _
        have stop : (copyRun copy).stop = (copyRun copy).offset + 1 := rfl
        omega
      · exact before earlier old
    · obtain ⟨front', run', back', shape, inside', before'⟩ := ih later
      refine ⟨head :: front', run', back', by rw [shape, List.cons_append], inside', ?_⟩
      exact List.forall_mem_cons.mpr ⟨first, before'⟩

/-- Cutting the run that contains the cluster leaves a piece that does. -/
theorem finds_cut_found
    {front : List DataAlloc} {run : DataAlloc} {cluster offset : Nat}
    (before : ∀ earlier ∈ front, earlier.stop ≤ cluster) (inside : run.extent.Contains cluster)
    (covers : run.extent.Contains offset) (inode fileOffset : Nat) (back : List DataAlloc) :
    Finds (front ++ cutRun run offset 1 inode fileOffset ++ back) cluster := by
  obtain ⟨lower, upper⟩ := bounds_of_contains covers
  obtain ⟨piece, member, pieceInside⟩ :=
    (mem_cutRun_contains_iff inode fileOffset lower upper cluster).mpr inside
  obtain ⟨pieceFront, found, pieceBack, pieces, foundInside, foundBefore⟩ :=
    (tidyRuns_cutRun inode fileOffset one_pos lower upper).1.finds member pieceInside
  rw [pieces]
  refine ⟨front ++ pieceFront, found, pieceBack ++ back, by simp, foundInside, ?_⟩
  exact List.forall_mem_append.mpr ⟨before, foundBefore⟩

/-- Cutting a run does not stop the search either. -/
theorem Finds.cut
    {front back : List DataAlloc} {run : DataAlloc} {cluster offset : Nat}
    (finds : Finds (front ++ run :: back) cluster) (covers : run.extent.Contains offset)
    (inode fileOffset : Nat) :
    Finds (front ++ cutRun run offset 1 inode fileOffset ++ back) cluster := by
  obtain ⟨lower, upper⟩ := bounds_of_contains covers
  have within := (tidyRuns_cutRun inode fileOffset one_pos lower upper).2
  obtain ⟨front', run', back', shape, inside, before⟩ := finds
  rcases List.append_eq_append_iff.mp shape with
    ⟨between, rfl, rest⟩ | ⟨between, rfl, rest⟩
  · cases between with
    | nil =>
      -- the run that is cut contains the cluster
      obtain ⟨rfl, rfl⟩ := List.cons.inj rest
      rw [List.append_nil] at before
      exact finds_cut_found before inside covers inode fileOffset back
    | cons first others =>
      -- it stands in front of the one that does
      obtain ⟨rfl, rfl⟩ := List.cons.inj rest
      obtain ⟨beforeFront, rest'⟩ := List.forall_mem_append.mp before
      obtain ⟨cutBefore, beforeOthers⟩ := List.forall_mem_cons.mp rest'
      refine ⟨front ++ (cutRun run offset 1 inode fileOffset ++ others), run', back',
        by simp, inside, ?_⟩
      refine List.forall_mem_append.mpr ⟨beforeFront, List.forall_mem_append.mpr
        ⟨fun piece member => (within piece member).2.trans cutBefore, beforeOthers⟩⟩
  · cases between with
    | nil =>
      obtain ⟨rfl, rfl⟩ := List.cons.inj rest
      rw [List.append_nil]
      exact finds_cut_found before inside covers inode fileOffset _
    | cons first others =>
      -- it stands behind it
      obtain ⟨rfl, rfl⟩ := List.cons.inj rest
      exact ⟨front', run', others ++ (cutRun run offset 1 inode fileOffset ++ back), by simp,
        inside, before⟩

/-! ## Protecting the clusters -/

/-- The cluster is not copied yet, or it was. -/
structure Protects (volume : Volume) (bitmap : Bytes) (cluster : Nat) (state : Conversion) :
    Prop where
  offLive : state.allocator.OffLive volume bitmap
  finds : Finds (state.runs.list (cluster / volume.clustersPerChunk)) cluster

section Protect

variable {volume : Volume} {bitmap : Bytes} {cluster : Nat}

/-- One more cluster is protected; if it is this one, it is copied. -/
theorem Protects.step
    {state next : Conversion} (protects : Protects volume bitmap cluster state)
    (inUse : ClusterInUse bitmap cluster) {other : Nat}
    (done : protectCluster volume state other = .ok next) :
    Protects volume bitmap cluster next ∧ state.oldStarts ⊆ next.oldStarts ∧
      (other = cluster → cluster ∈ next.oldStarts) := by
  have offLive := (protectCluster_writes protects.offLive done).2
  rcases protectCluster_cases done with
    ⟨rfl, missed⟩ | ⟨front, run, back, address, allocator, shape, covers, served, rfl⟩
  · refine ⟨protects, List.Subset.refl _, fun same => ?_⟩
    rw [same] at missed
    exact absurd missed (protects.finds.splitList dummyInode 0)
  · obtain ⟨-, virtual, spares⟩ := protects.offLive.allocateData served
    have elsewhere : volume.clusterAt address ≠ cluster := by
      rintro rfl
      refine spares [0] volume.cluster.bytes_pos (address - chunkVirtOffset)
        ⟨le_rfl, Nat.lt_succ_self _⟩ ?_
      exact inUse
    have cut : Finds
        ((protectedRuns volume state.runs other front run back).list
          (cluster / volume.clustersPerChunk)) cluster := by
      rw [protectedRuns, Runs.list_assign]
      split_ifs with same
      · have finds := protects.finds
        rw [same, shape] at finds
        exact finds.cut covers dummyInode 0
      · exact protects.finds
    refine ⟨⟨offLive, ?_⟩, ?_, fun same => ?_⟩
    · rw [runs_moved, Runs.list_assign]
      split_ifs with same
      · rw [← same]
        exact cut.insertRun elsewhere
      · exact cut
    · rw [oldStarts_moved]
      exact List.subset_append_left _ _
    · rw [oldStarts_moved, same]
      exact List.mem_append_right _ (List.mem_singleton_self _)

theorem Protects.walk
    {clusters : List Nat} {state final : Conversion}
    (protects : Protects volume bitmap cluster state) (inUse : ClusterInUse bitmap cluster)
    (done : clusters.foldlM (protectCluster volume) state = .ok final) :
    Protects volume bitmap cluster final ∧ state.oldStarts ⊆ final.oldStarts ∧
      (cluster ∈ clusters → cluster ∈ final.oldStarts) := by
  induction clusters generalizing state with
  | nil =>
    cases done
    exact ⟨protects, List.Subset.refl _, fun member => absurd member List.not_mem_nil⟩
  | cons other rest ih =>
    rw [List.foldlM_cons] at done
    cases stepped : protectCluster volume state other with
    | error failure =>
      rw [stepped] at done
      cases done
    | ok middle =>
      rw [stepped] at done
      obtain ⟨kept, subset, copied⟩ := protects.step inUse stepped
      obtain ⟨finalKept, finalSubset, later⟩ := ih kept done
      refine ⟨finalKept, List.Subset.trans subset finalSubset, fun member => ?_⟩
      rcases List.mem_cons.mp member with rfl | inRest
      · exact finalSubset (copied rfl)
      · exact later inRest

/-- Protecting clusters keeps allocations off the clusters in use. -/
theorem protectAll_offLive
    {clusters : List Nat} {state final : Conversion}
    (offLive : state.allocator.OffLive volume bitmap)
    (done : clusters.foldlM (protectCluster volume) state = .ok final) :
    final.allocator.OffLive volume bitmap := by
  induction clusters generalizing state with
  | nil =>
    cases done
    exact offLive
  | cons other rest ih =>
    rw [List.foldlM_cons] at done
    cases stepped : protectCluster volume state other with
    | error failure =>
      rw [stepped] at done
      cases done
    | ok middle =>
      rw [stepped] at done
      exact ih (protectCluster_writes offLive stepped).2 done

/-- A cluster in use that has to move was copied when `protect_superblocks` returned. -/
theorem protectSuperblocks_copies
    {allocator : Allocator} (offLive : allocator.OffLive volume bitmap)
    (whole : 8 ∣ bitmap.length) {device : Store} {lastChunkEnd : Nat} {final : Conversion}
    (done : protectSuperblocks volume lastChunkEnd
      ⟨allocator, volumeRuns volume bitmap, [], device⟩ = .ok final)
    (inUse : ClusterInUse bitmap cluster)
    (onVolume : cluster * volume.cluster.bytes < volume.origDeviceSize)
    (mustMove : volume.MustMove lastChunkEnd cluster) : cluster ∈ final.oldStarts := by
  obtain ⟨fromBitmap, covers⟩ := volumeRuns_spec volume bitmap
  have covered : (volumeRuns volume bitmap).Covers cluster := by
    rw [covers, scannedBits_of_whole (dvd_trans (by decide) whole)]
    exact ⟨inUse, onVolume⟩
  have finds : Finds
      ((volumeRuns volume bitmap).list (cluster / volume.clustersPerChunk)) cluster := by
    obtain ⟨run, member, inside⟩ := covered
    obtain ⟨chunk, member⟩ := Runs.mem_all_iff.mp member
    rw [fromBitmap.wellFormed.chunk_eq member inside]
    exact (Runs.wellFormed_iff.mp fromBitmap.wellFormed chunk).1.finds member inside
  have start : Protects volume bitmap cluster
      ⟨allocator, volumeRuns volume bitmap, [], device⟩ := ⟨offLive, finds⟩
  exact (start.walk inUse done).2.2 ((volume.mem_visited_iff lastChunkEnd onVolume).mpr mustMove)

end Protect

/-! ## The writes at the end -/

/--
The writes of `root::write_trees`, and whether every block was in a chunk; it
throws at the first that is not.
-/
def writeTrees (chunks : List Chunk) : List (Nat × Bytes) → List (Nat × Bytes) × Bool
  | [] => ([], true)
  | (addr, block) :: rest =>
      match chunks.find? fun chunk =>
          chunk.offset ≤ addr ∧ chunk.offset + chunk.length ≥ addr + treeSize with
      | none => ([], false)
      | some chunk =>
          let later := writeTrees chunks rest
          ((addr - chunk.offset + chunk.diskStart, block) :: later.1, later.2)

section Final

variable (volume : Volume)

/-- Where `write_superblocks` writes. -/
def Volume.superblockPlaces : List Nat :=
  superblockAddrs.takeWhile fun addr => addr ≤ volume.deviceSize - superblockSize

/-- The trees, the superblocks, and the cleared first cluster. -/
def finalWrites (chunks : List Chunk) (trees : List (Nat × Bytes)) (superblock : Nat → Bytes) :
    List (Nat × Bytes) :=
  let blocks := writeTrees chunks trees
  if blocks.2 then
    blocks.1 ++ volume.superblockPlaces.map (fun addr => (addr, superblock addr)) ++
      [(0, List.replicate volume.cluster.bytes 0)]
  else blocks.1

end Final

/-- A request for a tree block of a root. -/
def treeCall (request : Nat × Nat) : AllocateCall :=
  .metadata request.1 request.2

section Final

variable {volume : Volume} {bitmap : Bytes}

/-- The blocks of trees are allocated off the clusters in use. -/
theorem runCalls_offLive
    {requests : List (Nat × Nat)} {state : Allocator} (offLive : state.OffLive volume bitmap) :
    (runCalls (requests.map treeCall) state).2.OffLive volume bitmap ∧
      ∀ grant ∈ (runCalls (requests.map treeCall) state).1,
        chunkVirtOffset ≤ grant.address ∧ ∀ data : Bytes, data.length ≤ treeSize →
          volume.Spares bitmap (grant.address - chunkVirtOffset, data) := by
  induction requests generalizing state with
  | nil => exact ⟨offLive, fun grant member => absurd member List.not_mem_nil⟩
  | cons request rest ih =>
    obtain ⟨kept, spares⟩ := offLive.allocateMetadata request.1 request.2
    obtain ⟨finalKept, later⟩ := ih kept
    refine ⟨finalKept, fun grant member => ?_⟩
    rcases List.mem_append.mp member with first | inRest
    · cases returned : (Ntfs2Btrfs.allocateMetadata request.1 request.2 state).1 with
      | error failure =>
        rw [treeCall, AllocateCall.perform, returned, grantOf] at first
        exact absurd first List.not_mem_nil
      | ok address =>
        rw [treeCall, AllocateCall.perform, returned, grantOf] at first
        rw [List.mem_singleton.mp first]
        exact spares address returned
    · exact later grant inRest

/-- A block is written where its address says. -/
theorem mem_writeTrees
    {chunks : List Chunk}
    (placed : ∀ chunk ∈ chunks, chunk.offset = chunk.diskStart + chunkVirtOffset)
    {trees : List (Nat × Bytes)} {entry : Nat × Bytes}
    (written : entry ∈ (writeTrees chunks trees).1) :
    ∃ tree ∈ trees, entry = (tree.1 - chunkVirtOffset, tree.2) := by
  induction trees with
  | nil => exact absurd written List.not_mem_nil
  | cons tree rest ih =>
    rw [writeTrees] at written
    split at written
    · exact absurd written List.not_mem_nil
    · rename_i chunk found
      rcases List.mem_cons.mp written with rfl | later
      · refine ⟨tree, List.mem_cons_self, ?_⟩
        have offset := placed chunk (List.mem_of_find?_eq_some found)
        have inside := List.find?_some found
        simp only [decide_eq_true_eq] at inside
        rw [Prod.mk.injEq]
        exact ⟨by omega, rfl⟩
      · obtain ⟨other, member, equal⟩ := ih later
        exact ⟨other, List.mem_cons_of_mem _ member, equal⟩

theorem mem_superblockPlaces_iff {addr : Nat} :
    addr ∈ volume.superblockPlaces ↔
      addr ∈ superblockAddrs ∧ addr ≤ volume.deviceSize - superblockSize := by
  have ascending : superblockAddrs.Pairwise (· < ·) := by decide
  rw [Volume.superblockPlaces, mem_takeWhile_iff_of_sorted ascending, decide_eq_true_eq]
  intro first second ordered fits
  rw [decide_eq_true_eq] at fits ⊢
  omega

/-- A superblock is in the first MiB, or in a stripe whose clusters are protected. -/
theorem superblockPlaces_mustMove
    {addr : Nat} (member : addr ∈ volume.superblockPlaces) {byte : Nat} (lower : addr ≤ byte)
    (upper : byte < addr + superblockSize) (lastChunkEnd : Nat) :
    byte < volume.deviceSize ∧
      volume.MustMove lastChunkEnd (byte / volume.cluster.bytes) := by
  have positive := volume.cluster.bytes_pos
  have large := volume.reservedArea_le_deviceSize
  obtain ⟨known, fits⟩ := mem_superblockPlaces_iff.mp member
  have superblock : superblockSize ≤ reservedArea := by decide
  have start := Nat.div_mul_le_self byte volume.cluster.bytes
  have stop : byte < (byte / volume.cluster.bytes + 1) * volume.cluster.bytes :=
    Nat.lt_mul_of_div_lt (Nat.lt_succ_self _) positive
  refine ⟨by omega, ?_⟩
  rcases List.mem_cons.mp known with first | later
  · refine Or.inl ⟨by decide, ?_, ?_⟩
    · have small : addr + superblockSize ≤ reservedArea := by
        rw [first]
        decide
      omega
    · omega
  · refine Or.inr (Or.inl ⟨addr, later, by omega, Nat.lt_add_of_pos_right (by decide), ?_, ?_⟩)
    · have stripe : superblockSize ≤ stripeLength := by decide
      omega
    · omega

end Final

end Ntfs2Btrfs
