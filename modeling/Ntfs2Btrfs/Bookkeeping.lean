import Ntfs2Btrfs.ClusterSpace
import Ntfs2Btrfs.ProcessMappings
import Ntfs2Btrfs.Rewriting

/-!
# Bytes and clusters

Data is allocated in bytes and recorded in clusters.  The two agree through all
of the conversion as long as every request is for whole clusters: what is
allocated starts at a cluster, no free cluster is covered by a run, and the run
lists stay sorted and disjoint.

The actions are those of the conversion up to the last inode: clusters are
protected, the usage of chunks is added up, files are mapped, and files are
rewritten.
-/

namespace Ntfs2Btrfs

open Extents
open ByteStore

/-! ## Inserting an extent -/

theorem insertExtent_perm (run : DataAlloc) (runs : List DataAlloc) :
    (insertExtent run runs).Perm (run :: runs) := by
  induction runs with
  | nil => exact List.Perm.refl _
  | cons head rest ih =>
    rw [insertExtent]
    split_ifs
    · exact List.Perm.refl _
    · exact (ih.cons head).trans (List.Perm.swap run head rest)

/-- An extent is inserted at its place when it meets no other run. -/
theorem TidyRuns.insertExtent
    {runs : List DataAlloc} (tidy : TidyRuns runs) {run : DataAlloc}
    (positive : 0 < run.length)
    (apart : ∀ other ∈ runs, other.stop ≤ run.offset ∨ run.stop ≤ other.offset) :
    TidyRuns (Ntfs2Btrfs.insertExtent run runs) := by
  induction runs with
  | nil => exact (tidyRuns_cons_iff run []).mpr ⟨positive, by simp, tidyRuns_nil⟩
  | cons head rest ih =>
    obtain ⟨headPositive, later, restTidy⟩ := (tidyRuns_cons_iff head rest).mp tidy
    rw [Ntfs2Btrfs.insertExtent]
    by_cases before : head.offset ≥ run.stop
    · rw [if_pos before]
      refine (tidyRuns_cons_iff _ _).mpr ⟨positive, fun next member => ?_, tidy⟩
      rcases List.mem_cons.mp member with rfl | inRest
      · exact before
      · have ordered := later next inRest
        simp only [DataAlloc.stop] at before ordered ⊢
        omega
    · rw [if_neg before]
      have after : head.stop ≤ run.offset :=
        (apart head List.mem_cons_self).resolve_right before
      refine (tidyRuns_cons_iff _ _).mpr
        ⟨headPositive, fun next member => ?_,
          ih restTidy fun other member => apart other (List.mem_cons_of_mem head member)⟩
      rcases List.mem_cons.mp ((insertExtent_perm run rest).mem_iff.mp member) with rfl | inRest
      · exact after
      · exact later next inRest

theorem Runs.mem_all_insertExtent
    {runs : Runs} {chunk : Nat} {run other : DataAlloc} :
    other ∈ Runs.all (runs.assign chunk (insertExtent run (runs.list chunk))) ↔
      other = run ∨ other ∈ runs.all := by
  rw [(runs.all_assign_perm chunk _).mem_iff, (runs.all_perm chunk).mem_iff,
    List.mem_append, List.mem_append, (insertExtent_perm run _).mem_iff, List.mem_cons,
    or_assoc]

theorem Runs.covers_insertExtent
    (runs : Runs) (chunk : Nat) (run : DataAlloc) (cluster : Nat) :
    Runs.Covers (runs.assign chunk (insertExtent run (runs.list chunk))) cluster ↔
      run.extent.Contains cluster ∨ runs.Covers cluster := by
  simp only [Runs.Covers, Runs.mem_all_insertExtent, or_and_right, exists_or, exists_eq_left]

/-- An extent on clusters that no run covers. -/
theorem Runs.WellFormed.insertExtent
    {runs : Runs} {clustersPerChunk : Nat} (wellFormed : runs.WellFormed clustersPerChunk)
    {run : DataAlloc} (positive : 0 < run.length)
    (free : ∀ cluster, run.extent.Contains cluster → ¬ runs.Covers cluster)
    {chunk : Nat} (lower : chunk * clustersPerChunk ≤ run.offset)
    (upper : run.stop ≤ (chunk + 1) * clustersPerChunk) :
    Runs.WellFormed clustersPerChunk
      (runs.assign chunk (Ntfs2Btrfs.insertExtent run (runs.list chunk))) := by
  obtain ⟨tidy, inChunk⟩ := Runs.wellFormed_iff.mp wellFormed chunk
  refine wellFormed.assign (tidy.insertExtent positive fun other member => ?_)
    fun other member => ?_
  · have apart : other.extent.Disjoint run.extent := by
      refine Extent.disjoint_of_not_contains (tidy.positive member) positive
        fun cluster inOther inRun => ?_
      exact free cluster inRun ⟨other, Runs.mem_all_iff.mpr ⟨chunk, member⟩, inOther⟩
    exact apart
  · rcases List.mem_cons.mp ((insertExtent_perm _ _).mem_iff.mp member) with rfl | old
    · exact ⟨lower, upper⟩
    · exact inChunk other old

/-! ## Giving clusters an owner -/

section Split

variable {clustersPerChunk : Nat} (chunks : 0 < clustersPerChunk)

include chunks

/-- `split_runs` keeps the run lists in order, and what they cover. -/
theorem splitRunsLoop_keeps
    {inode fileOffset turns offset length : Nat} {ret found : Bool} {runs next : Runs}
    (done : splitRunsLoop clustersPerChunk inode fileOffset turns ret offset length runs =
      .ok (found, next))
    (positive : 0 < length) (wellFormed : runs.WellFormed clustersPerChunk) :
    next.WellFormed clustersPerChunk ∧
      ∀ cluster, next.Covers cluster ↔ runs.Covers cluster := by
  induction turns generalizing ret offset length runs with
  | zero =>
    rw [splitRunsLoop] at done
    cases done
    exact ⟨wellFormed, fun _ => Iff.rfl⟩
  | succ turns ih =>
    have inChunk := Nat.mod_lt offset chunks
    have partPositive : 0 < min length (clustersPerChunk - offset % clustersPerChunk) :=
      lt_min positive (Nat.sub_pos_of_lt inChunk)
    have step : ∃ ret' middle,
        middle.WellFormed clustersPerChunk ∧
        (∀ cluster, middle.Covers cluster ↔ runs.Covers cluster) ∧
        (if min length (clustersPerChunk - offset % clustersPerChunk) = length then
            .ok (ret', middle)
          else
            splitRunsLoop clustersPerChunk inode fileOffset turns ret'
              (offset + min length (clustersPerChunk - offset % clustersPerChunk))
              (length - min length (clustersPerChunk - offset % clustersPerChunk)) middle) =
          .ok (found, next) := by
      rw [splitRunsLoop] at done
      cases present : runs.find? (offset / clustersPerChunk) with
      | none =>
        rw [present] at done
        exact ⟨ret, runs, wellFormed, fun _ => Iff.rfl, done⟩
      | some runList =>
        have listEq : runs.list (offset / clustersPerChunk) = runList := by
          rw [Runs.list, present, Option.getD_some]
        rw [present] at done
        rcases splitList_cases offset
            (min length (clustersPerChunk - offset % clustersPerChunk)) inode fileOffset runList
          with equal | ⟨front, run, back, shape, lower, upper, -, -, equal⟩ | ⟨equal, -⟩
        · simp only [equal, Except.map, bind, Except.bind] at done
          rw [SortedMap.assign_self present] at done
          exact ⟨_, runs, wellFormed, fun _ => Iff.rfl, done⟩
        · simp only [equal, Except.map, bind, Except.bind] at done
          rw [← listEq] at shape
          refine ⟨_, _, wellFormed.cutRange shape partPositive lower upper inode fileOffset,
            fun cluster => ?_, done⟩
          rw [← Runs.coverCount_pos_iff, ← Runs.coverCount_pos_iff,
            Runs.coverCount_cut shape inode fileOffset partPositive lower upper]
        · simp only [equal, Except.map, bind, Except.bind] at done
          cases done
    obtain ⟨ret', middle, middleWellFormed, middleCovers, rest⟩ := step
    by_cases last : min length (clustersPerChunk - offset % clustersPerChunk) = length
    · rw [if_pos last] at rest
      cases rest
      exact ⟨middleWellFormed, middleCovers⟩
    · rw [if_neg last] at rest
      obtain ⟨finalWellFormed, finalCovers⟩ := ih rest (by omega) middleWellFormed
      exact ⟨finalWellFormed, fun cluster => (finalCovers cluster).trans (middleCovers cluster)⟩

/-- `split_runs` for every mapping of a file. -/
theorem splitRuns_foldlM_keeps
    {inode : Nat} {mappings : List Mapping} {runs next : Runs}
    (done : mappings.foldlM (fun runs m =>
      (splitRuns clustersPerChunk runs m.lcn m.length inode m.vcn).map Prod.snd) runs = .ok next)
    (positive : ∀ mapping ∈ mappings, 0 < mapping.length)
    (wellFormed : runs.WellFormed clustersPerChunk) :
    next.WellFormed clustersPerChunk ∧
      ∀ cluster, next.Covers cluster ↔ runs.Covers cluster := by
  induction mappings generalizing runs with
  | nil =>
    cases done
    exact ⟨wellFormed, fun _ => Iff.rfl⟩
  | cons m rest ih =>
    obtain ⟨first, later⟩ := List.forall_mem_cons.mp positive
    rw [List.foldlM_cons] at done
    cases split : splitRuns clustersPerChunk runs m.lcn m.length inode m.vcn with
    | error failure =>
      rw [split] at done
      cases done
    | ok outcome =>
      obtain ⟨found, middle⟩ := outcome
      rw [split] at done
      obtain ⟨middleWellFormed, middleCovers⟩ :=
        splitRunsLoop_keeps chunks split first wellFormed
      obtain ⟨finalWellFormed, finalCovers⟩ := ih done later middleWellFormed
      exact ⟨finalWellFormed, fun cluster => (finalCovers cluster).trans (middleCovers cluster)⟩

end Split

/-- Relocations of single clusters leave the runs alone. -/
theorem remapLoop_runs
    {turns : Nat} {done relocs finalRelocs : List Relocation} {mappings result : List Mapping}
    {runs finalRuns : Runs} (single : ∀ reloc ∈ relocs, reloc.length = 1)
    (positive : ∀ mapping ∈ mappings, 0 < mapping.length)
    (returned : remapLoop turns done relocs mappings runs =
      some (finalRelocs, result, finalRuns)) :
    finalRelocs = done ++ relocs ∧ finalRuns = runs ∧
      ∀ mapping ∈ result, 0 < mapping.length := by
  induction relocs generalizing turns done mappings with
  | nil =>
    simp only [remapLoop, Option.some.injEq, Prod.mk.injEq] at returned
    obtain ⟨rfl, rfl, rfl⟩ := returned
    exact ⟨(List.append_nil _).symm, rfl, positive⟩
  | cons reloc rest ih =>
    obtain ⟨first, later⟩ := List.forall_mem_cons.mp single
    cases turns with
    | zero => cases returned
    | succ turns =>
      have all := @remapAll_single { reloc := reloc, added := [], runs := runs } mappings
        first positive
      rw [remapLoop, all] at returned
      simp only [List.append_nil] at returned
      obtain ⟨relocsEq, runsEq, resultPositive⟩ := ih later (fun piece member => by
        obtain ⟨mapping, mappingMember, inPieces⟩ := List.mem_flatMap.mp member
        exact (@remapOne_single _ mapping first
          (positive mapping mappingMember)).2.1.tidy.positive piece inPieces) returned
      exact ⟨by rw [relocsEq, List.append_assoc, List.singleton_append], runsEq, resultPositive⟩

/-- Mapping a file gives its clusters an owner, and leaves the relocations alone. -/
theorem processMappings_keeps
    {clustersPerChunk turns inode : Nat} (chunks : 0 < clustersPerChunk)
    {relocs finalRelocs : List Relocation} {mappings result : List Mapping}
    {runs finalRuns : Runs} (single : ∀ reloc ∈ relocs, reloc.length = 1)
    (positive : ∀ mapping ∈ mappings, 0 < mapping.length)
    (wellFormed : runs.WellFormed clustersPerChunk)
    (returned : processMappings clustersPerChunk turns inode relocs mappings runs =
      some (.ok (result, finalRelocs, finalRuns))) :
    finalRelocs = relocs ∧ finalRuns.WellFormed clustersPerChunk ∧
      ∀ cluster, finalRuns.Covers cluster ↔ runs.Covers cluster := by
  have cutPositive : ∀ piece ∈ mappings.flatMap (avoidChunkBoundaries clustersPerChunk),
      0 < piece.length := by
    intro piece member
    obtain ⟨mapping, mappingMember, inPieces⟩ := List.mem_flatMap.mp member
    by_cases hole : mapping.lcn = 0
    · rw [avoidChunkBoundaries, if_pos hole] at inPieces
      exact absurd inPieces List.not_mem_nil
    · exact (avoidChunkBoundaries_replaces chunks hole
        (positive mapping mappingMember)).1.tidy.positive piece inPieces
  rw [processMappings] at returned
  obtain ⟨⟨loopRelocs, loopMappings, loopRuns⟩, looped, rest⟩ :=
    Option.map_eq_some_iff.mp returned
  obtain ⟨rfl, rfl, loopPositive⟩ := remapLoop_runs single cutPositive looped
  simp only [bind, Except.bind, pure, Except.pure] at rest
  split at rest
  · cases rest
  · rename_i runs' split
    obtain ⟨-, rfl, rfl⟩ := by simpa using rest
    exact ⟨rfl, splitRuns_foldlM_keeps chunks split loopPositive wellFormed⟩

/-! ## Adding up the usage -/

theorem chargeRuns_withoutUsed (clusterSize : Nat) (chunk : Chunk) (runs : List DataAlloc) :
    (chargeRuns clusterSize chunk runs).withoutUsed = chunk.withoutUsed := by
  induction runs generalizing chunk with
  | nil => rfl
  | cons run rest ih =>
    rw [chargeRuns, List.foldl_cons, ← chargeRuns, ih]
    split_ifs
    · exact chunk.withoutUsed_with_used _
    · rfl

theorem chargeChunk_withoutUsed
    (clusterSize offset : Nat) (runs : List DataAlloc) (chunks : List Chunk) :
    (chargeChunk clusterSize offset runs chunks).map Chunk.withoutUsed =
      chunks.map Chunk.withoutUsed := by
  induction chunks with
  | nil => rfl
  | cons chunk rest ih =>
    rw [chargeChunk]
    split_ifs
    · rw [List.map_cons, List.map_cons, chargeRuns_withoutUsed]
    · rw [List.map_cons, List.map_cons, ih]

/-- `calc_used_space` changes nothing that is allocated from. -/
theorem sameSpace_calcUsedSpace (clusterSize : Nat) (runs : Runs) (state : Allocator) :
    state.SameSpace
      { state with chunks := calcUsedSpace clusterSize runs state.chunks } := by
  refine ⟨?_, rfl⟩
  simp only [calcUsedSpace]
  generalize state.chunks = chunks
  induction runs.entries generalizing chunks with
  | nil => rfl
  | cons entry rest ih =>
    rw [List.foldl_cons, ← ih, chargeChunk_withoutUsed]

/-! ## The actions of the conversion -/

/-- What the conversion does to its state up to the last inode. -/
inductive Action where
  | protect (cluster : Nat)
  | calcUsed
  | map (turns inode : Nat) (mappings : List Mapping)
  | zeroEnd (addr : Nat) (data : Bytes)
  | rewrite (file : RewrittenFile) (items : ItemMap) (flags : Nat)

section Actions

variable (volume : Volume)

/-- One action; nothing where it throws. -/
def Action.perform : Action → Conversion → Option Conversion
  | .protect cluster, state => (protectCluster volume state cluster).toOption
  | .calcUsed, state =>
      some
        { state with
          allocator :=
            { state.allocator with
              chunks :=
                calcUsedSpace volume.cluster.bytes state.runs state.allocator.chunks } }
  | .map turns inode mappings, state =>
      match processMappings volume.clustersPerChunk turns inode state.relocs mappings
          state.runs with
      | some (.ok (_, relocs, runs)) => some { state with relocs := relocs, runs := runs }
      | _ => none
  -- `add_inode` zeroes the end of the last sector of a mapped file
  | .zeroEnd addr data, state =>
      some { state with device := Store.write state.device addr data }
  | .rewrite file items flags, state =>
      (rewriteFile volume file state items flags).toOption.map Rewriting.conversion

/-- One action after the other. -/
def performAll (actions : List Action) (state : Conversion) : Option Conversion :=
  actions.foldlM (fun state action => action.perform volume state) state

/-- A file that is mapped has no empty mapping, and one that is rewritten fills clusters. -/
def Action.Whole : Action → Prop
  | .map _ _ mappings => ∀ mapping ∈ mappings, 0 < mapping.length
  | .rewrite file _ _ => file.FillsClusters volume.cluster.bytes
  | _ => True

/-- The state before clusters are protected. -/
def conversionBegin (bitmap : Bytes) (device : Store) : Conversion :=
  ⟨conversionStart volume.deviceSize volume.cluster bitmap, volumeRuns volume bitmap, [],
    device⟩

/--
No cluster in use is free at the start, and no stripe of a superblock cuts two
free clusters.
-/
structure StartsApart (bitmap : Bytes) : Prop where
  unused : ∀ byte,
    (conversionStart volume.deviceSize volume.cluster bitmap).Usable byte →
      ¬ (volumeRuns volume bitmap).Covers (byte / volume.cluster.bytes)
  stripes : volume.cluster.bytes ≤ stripeLength ∨
    ∀ addr ∈ superblockAddrs.tail,
      ¬ ((conversionStart volume.deviceSize volume.cluster bitmap).Usable
            (addr + stripeLength) ∧
          (conversionStart volume.deviceSize volume.cluster bitmap).Usable
            (addr + volume.cluster.bytes))

/-- The run denotes the bytes of the item. -/
structure StoredExtent.Denotes (extent : StoredExtent) : Prop where
  start : extent.run.offset * volume.cluster.bytes + chunkVirtOffset = extent.item.diskBytenr
  length : extent.run.length * volume.cluster.bytes = extent.item.diskNumBytes
  positive : 0 < extent.run.length

/--
In a state the run lists are in order, a cluster that is protected is copied to
the cluster of its relocation, and the extents of a file that is rewritten have
runs that denote them exactly when the file fills clusters.
-/
structure KeepsBooks (state : Conversion) : Prop where
  runs : state.runs.WellFormed volume.clustersPerChunk
  copies : ∀ cluster next, protectCluster volume state cluster = .ok next →
    next = state ∨ ∃ address allocator newStart,
      allocateData volume.cluster.bytes false state.allocator = (.ok address, allocator) ∧
      next.relocs = state.relocs ++ [⟨cluster, 1, newStart⟩] ∧
      newStart * volume.cluster.bytes + chunkVirtOffset = address ∧
      next.device =
        Store.write state.device (newStart * volume.cluster.bytes)
          (Store.read state.device (cluster * volume.cluster.bytes)
            (volume.clusterLength cluster))
  extents : ∀ file items flags outcome,
    rewriteFile volume file state items flags = .ok outcome →
      ((∀ extent ∈ outcome.extents, extent.Denotes volume) ↔
        file.FillsClusters volume.cluster.bytes)

end Actions

/-! ## The invariant -/

/-- What every action keeps. -/
structure Conversion.InClusters (volume : Volume) (state : Conversion) : Prop where
  allocator : state.allocator.OnClusters volume.cluster
  runs : state.runs.WellFormed volume.clustersPerChunk
  unused : ∀ byte, state.allocator.Usable byte →
    ¬ state.runs.Covers (byte / volume.cluster.bytes)
  single : ∀ reloc ∈ state.relocs, reloc.length = 1

section Range

variable {volume : Volume} {length address : Nat} (aligned : volume.cluster.bytes ∣ address)
  (virtual : chunkVirtOffset ≤ address)

include aligned virtual

/-- An address at a cluster is that of its cluster. -/
theorem clusterAt_mul :
    volume.clusterAt address * volume.cluster.bytes + chunkVirtOffset = address := by
  have whole : volume.cluster.bytes ∣ address - chunkVirtOffset :=
    Nat.dvd_sub aligned volume.cluster.bytes_dvd_chunkVirtOffset
  rw [Volume.clusterAt, Nat.div_mul_cancel whole, Nat.sub_add_cancel virtual]

/-- The bytes of a range of whole clusters are those of its clusters. -/
theorem inRange_iff (whole : volume.cluster.bytes ∣ length) (byte : Nat) :
    InRange address length byte ↔
      volume.clusterAt address ≤ byte / volume.cluster.bytes ∧
        byte / volume.cluster.bytes <
          volume.clusterAt address + length / volume.cluster.bytes := by
  have positive := volume.cluster.bytes_pos
  have start := clusterAt_mul aligned virtual
  rw [Nat.le_div_iff_mul_le positive, Nat.div_lt_iff_lt_mul positive, Nat.add_mul,
    Nat.div_mul_cancel whole, InRange]
  omega

/-- The clusters of a range in a region are in its chunk. -/
theorem clusters_inChunk
    (whole : volume.cluster.bytes ∣ length) (positive : 0 < length)
    (region : ∃ index, regionStart index + chunkVirtOffset ≤ address ∧
      address + length ≤ regionStart (index + 1) + chunkVirtOffset) :
    (address - chunkVirtOffset) / dataChunkSize * volume.clustersPerChunk ≤
        volume.clusterAt address ∧
      volume.clusterAt address + length / volume.cluster.bytes ≤
        ((address - chunkVirtOffset) / dataChunkSize + 1) * volume.clustersPerChunk := by
  obtain ⟨index, lower, upper⟩ := region
  have clusterPositive := volume.cluster.bytes_pos
  have start := clusterAt_mul aligned virtual
  have next := regionStart_succ index
  have chunkIs : (address - chunkVirtOffset) / dataChunkSize = index := by
    refine Nat.div_eq_of_lt_le ?_ ?_
    · rw [← regionStart]
      omega
    · rw [Nat.succ_mul, ← regionStart]
      omega
  have chunkBytes (number : Nat) :
      number * volume.clustersPerChunk * volume.cluster.bytes = regionStart number := by
    rw [Nat.mul_assoc, Volume.clustersPerChunk, volume.cluster.clusters_mul, regionStart]
  rw [chunkIs]
  constructor
  · refine Nat.le_of_mul_le_mul_right ?_ clusterPositive
    rw [chunkBytes]
    omega
  · refine Nat.le_of_mul_le_mul_right ?_ clusterPositive
    rw [chunkBytes, Nat.add_mul, Nat.div_mul_cancel whole]
    omega

end Range

theorem device_moved
    (volume : Volume) (state : Conversion) (runs : Runs) (cluster address : Nat)
    (allocator : Allocator) :
    (state.moved volume runs cluster address allocator).device =
      Store.write state.device (address - chunkVirtOffset)
        (Store.read state.device (cluster * volume.cluster.bytes)
          (volume.clusterLength cluster)) := by
  simp only [Conversion.moved]

namespace Conversion.InClusters

variable {volume : Volume} {state : Conversion} (inClusters : state.InClusters volume)

include inClusters

/-- Allocating whole clusters gets clusters that no run covers. -/
theorem allocated
    {length address : Nat} {changeUsed : Bool} {next : Allocator}
    (whole : volume.cluster.bytes ∣ length) (positive : 0 < length)
    (allocated : allocateData length changeUsed state.allocator = (.ok address, next)) :
    volume.cluster.bytes ∣ address ∧ chunkVirtOffset ≤ address ∧
      next.OnClusters volume.cluster ∧ TakesRange state.allocator next length address ∧
      ∀ cluster, volume.clusterAt address ≤ cluster →
        cluster < volume.clusterAt address + length / volume.cluster.bytes →
          ¬ state.runs.Covers cluster := by
  obtain ⟨aligned, onClusters, range⟩ :=
    inClusters.allocator.allocateData whole positive allocated
  have virtual : chunkVirtOffset ≤ address := by
    obtain ⟨index, lower, -⟩ := range.region
    exact le_of_add_le_right lower
  refine ⟨aligned, virtual, onClusters, range, fun cluster lower upper => ?_⟩
  have first : cluster * volume.cluster.bytes / volume.cluster.bytes = cluster :=
    Nat.mul_div_cancel _ volume.cluster.bytes_pos
  have inRange : InRange address length (cluster * volume.cluster.bytes) := by
    rw [inRange_iff aligned virtual whole, first]
    exact ⟨lower, upper⟩
  have free := inClusters.unused _ (range.taken _ inRange)
  rwa [first] at free

/-- Moving a cluster keeps the invariant, and the copy is where its relocation says. -/
theorem moved
    {cluster address : Nat} {front back : List DataAlloc} {run : DataAlloc}
    {allocator : Allocator}
    (shape : state.runs.list (cluster / volume.clustersPerChunk) = front ++ run :: back)
    (covers : run.extent.Contains cluster)
    (served : allocateData volume.cluster.bytes false state.allocator =
      (.ok address, allocator))
    (done : protectCluster volume state cluster =
      .ok (state.moved volume (protectedRuns volume state.runs cluster front run back)
        cluster address allocator)) :
    volume.clusterAt address * volume.cluster.bytes + chunkVirtOffset = address ∧
      (state.moved volume (protectedRuns volume state.runs cluster front run back)
        cluster address allocator).InClusters volume := by
  have positive := volume.cluster.bytes_pos
  obtain ⟨aligned, virtual, onClusters, range, free⟩ :=
    inClusters.allocated (dvd_refl _) positive served
  rw [Nat.div_self positive] at free
  have count := coverCount_moved shape covers address allocator
  have same := sameSpace_discharge (cluster * volume.cluster.bytes + chunkVirtOffset)
    volume.cluster.bytes allocator
  refine ⟨clusterAt_mul aligned virtual, ?_, ?_, fun byte usable => ?_, fun reloc member => ?_⟩
  · rw [allocator_moved]
    exact same.onClusters onClusters
  · refine protectCluster_wellFormed inClusters.runs done fun other => ?_
    rw [count]
    split_ifs with isCopy
    · have apart := free other (by omega) (by omega)
      rw [← Runs.coverCount_pos_iff] at apart
      omega
    · exact inClusters.runs.coverCount_le other
  · rw [allocator_moved] at usable
    obtain ⟨wasUsable, outside⟩ := range.left byte (same.usable usable)
    rw [inRange_iff aligned virtual (dvd_refl _), Nat.div_self positive] at outside
    rw [← Runs.coverCount_pos_iff, count, if_neg (by omega), Nat.add_zero,
      Runs.coverCount_pos_iff]
    exact inClusters.unused byte wasUsable
  · rcases List.mem_append.mp member with old | isNew
    · exact inClusters.single reloc old
    · rw [List.mem_singleton.mp isNew]

/-- Storing a piece of whole clusters keeps the invariant, and its run denotes its bytes. -/
theorem stored
    {inode pos : Nat} {piece : FilePiece} {address : Nat} {allocator : Allocator} {device : Store}
    (whole : volume.cluster.bytes ∣ piece.stored.length) (positive : 0 < piece.stored.length)
    (served : allocateData piece.stored.length true state.allocator = (.ok address, allocator)) :
    (storedExtent volume inode pos piece address).Denotes volume ∧
      Conversion.InClusters volume
        { state with
          allocator := allocator
          device := device
          runs :=
            state.runs.assign ((address - chunkVirtOffset) / dataChunkSize)
              (insertExtent (storedExtent volume inode pos piece address).run
                (state.runs.list ((address - chunkVirtOffset) / dataChunkSize))) } := by
  obtain ⟨aligned, virtual, onClusters, range, free⟩ :=
    inClusters.allocated whole positive served
  have lengthPositive : 0 < piece.stored.length / volume.cluster.bytes :=
    Nat.div_pos (Nat.le_of_dvd positive whole) volume.cluster.bytes_pos
  obtain ⟨lower, upper⟩ := clusters_inChunk aligned virtual whole positive range.region
  refine ⟨⟨clusterAt_mul aligned virtual, Nat.div_mul_cancel whole, lengthPositive⟩,
    onClusters, ?_, fun byte usable => ?_, inClusters.single⟩
  · refine inClusters.runs.insertExtent lengthPositive (fun cluster inside => ?_) lower upper
    exact free cluster inside.1 inside.2
  · obtain ⟨wasUsable, outside⟩ := range.left byte usable
    rw [inRange_iff aligned virtual whole] at outside
    rw [Runs.covers_insertExtent]
    rintro (inside | covered)
    · exact outside inside
    · exact inClusters.unused byte wasUsable covered

/-- Rewriting a file that fills clusters. -/
theorem rewritten
    {file : RewrittenFile} {items : ItemMap} {flags : Nat} {outcome : Rewriting}
    (fills : file.FillsClusters volume.cluster.bytes)
    (done : rewriteFile volume file state items flags = .ok outcome) :
    outcome.conversion.InClusters volume ∧
      ∀ extent ∈ outcome.extents, extent.Denotes volume := by
  refine rewriteLoop_induction volume file.inode
    (fun codec pos data current =>
      FillsClusters volume.cluster.bytes pos codec data →
      current.conversion.InClusters volume →
      (∀ extent ∈ current.extents, extent.Denotes volume) →
        outcome.conversion.InClusters volume ∧
          ∀ extent ∈ outcome.extents, extent.Denotes volume)
    (fun codec pos _ kept denotes => ⟨kept, denotes⟩)
    (fun codec pos data nonempty current piece next chosen piecesStored ih => ?_) done fills
    inClusters fun extent member => absurd member List.not_mem_nil
  intro dataFills kept denotes
  obtain ⟨whole, rest⟩ := (nextPiece_fills nonempty chosen).mp dataFills
  obtain ⟨address, allocator, device, -, served, conversion, -, extents⟩ :=
    storePiece_cases piecesStored
  obtain ⟨pieceDenotes, nextKept⟩ :=
    @stored volume _ kept file.inode pos piece address allocator device whole
      (nextPiece_stored_pos nonempty chosen) served
  refine ih rest (conversion ▸ nextKept) fun extent member => ?_
  rw [extents] at member
  rcases List.mem_append.mp member with old | isNew
  · exact denotes extent old
  · rw [List.mem_singleton.mp isNew]
    exact pieceDenotes

/-- Every action that is whole keeps the invariant. -/
theorem performed
    {action : Action} (whole : action.Whole volume) {next : Conversion}
    (done : action.perform volume state = some next) : next.InClusters volume := by
  cases action with
  | protect cluster =>
    have outcome := eq_ok_of_toOption_eq_some done
    rcases protectCluster_cases outcome with
      ⟨rfl, -⟩ | ⟨front, run, back, address, allocator, shape, covers, served, rfl⟩
    · exact inClusters
    · exact (inClusters.moved shape covers served outcome).2
  | calcUsed =>
    have same := sameSpace_calcUsedSpace volume.cluster.bytes state.runs state.allocator
    rw [← Option.some.inj done]
    exact ⟨same.onClusters inClusters.allocator, inClusters.runs,
      fun byte usable => inClusters.unused byte (same.usable usable), inClusters.single⟩
  | map turns inode mappings =>
    rw [Action.perform] at done
    split at done
    · rename_i result relocs runs returned
      obtain ⟨rfl, wellFormed, covers⟩ := processMappings_keeps volume.clustersPerChunk_pos
        inClusters.single whole inClusters.runs returned
      rw [← Option.some.inj done]
      refine ⟨inClusters.allocator, wellFormed, fun byte usable covered => ?_,
        inClusters.single⟩
      exact inClusters.unused byte usable ((covers _).mp covered)
    · cases done
  | zeroEnd addr data =>
    rw [← Option.some.inj done]
    exact ⟨inClusters.allocator, inClusters.runs, inClusters.unused, inClusters.single⟩
  | rewrite file items flags =>
    obtain ⟨outcome, returned, rfl⟩ := Option.map_eq_some_iff.mp done
    exact (inClusters.rewritten whole (eq_ok_of_toOption_eq_some returned)).1

/-- So do all of them, one after the other. -/
theorem performedAll
    {actions : List Action} (whole : ∀ action ∈ actions, action.Whole volume)
    {final : Conversion} (done : performAll volume actions state = some final) :
    final.InClusters volume := by
  induction actions generalizing state with
  | nil =>
    cases done
    exact inClusters
  | cons action rest ih =>
    obtain ⟨first, later⟩ := List.forall_mem_cons.mp whole
    rw [performAll, List.foldlM_cons] at done
    obtain ⟨middle, stepped, finished⟩ := Option.bind_eq_some_iff.mp done
    exact ih (inClusters.performed first stepped) later finished

/-- Where the invariant holds the books are kept. -/
theorem keepsBooks : KeepsBooks volume state := by
  refine ⟨inClusters.runs, fun cluster next done => ?_,
    fun file items flags outcome done => ⟨fun denotes => ?_, fun fills => ?_⟩⟩
  · rcases protectCluster_cases done with
      ⟨rfl, -⟩ | ⟨front, run, back, address, allocator, shape, covers, served, rfl⟩
    · exact Or.inl rfl
    · have start := (inClusters.moved shape covers served done).1
      refine Or.inr ⟨address, allocator, volume.clusterAt address, served, rfl, start, ?_⟩
      rw [device_moved, Nat.eq_sub_of_add_eq start]
  · obtain ⟨new, extents, whole⟩ := rewriteLoop_fills_iff done
    refine whole.mp fun extent member => ?_
    have listed : extent ∈ outcome.extents := by
      rw [extents]
      exact List.mem_append_right _ member
    rw [← (denotes extent listed).length]
    exact dvd_mul_left _ _
  · exact (inClusters.rewritten fills done).2

end Conversion.InClusters

theorem conversionBegin_inClusters
    (volume : Volume) {bitmap : Bytes} (boot : ClusterInUse bitmap 0)
    (apart : StartsApart volume bitmap) (device : Store) :
    (conversionBegin volume bitmap device).InClusters volume where
  allocator :=
    conversionStart_onClusters volume.reservedArea_le_deviceSize boot apart.stripes
  runs := (volumeRuns_spec volume bitmap).1.wellFormed
  unused := apart.unused
  single := fun _ member => absurd member List.not_mem_nil

/-- A volume of one and a half MiB with clusters of 64 KiB. -/
def smallVolume : Volume :=
  ⟨0x180000, ⟨16, by decide, by decide⟩, by decide⟩

/-- Only the first cluster is in use. -/
def smallBitmap : Bytes :=
  [1, 0, 0, 0, 0, 0, 0, 0]

theorem smallVolume_apart : StartsApart smallVolume smallBitmap := by
  have start : (conversionStart smallVolume.deviceSize smallVolume.cluster smallBitmap).chunks.map
      Chunk.spaceList = [[⟨0x200000, 0x80000⟩]] ∧
      (conversionStart smallVolume.deviceSize smallVolume.cluster smallBitmap).spaceList =
        [⟨0x180000, 0x100000⟩] := by
    decide +kernel
  have runs : (volumeRuns smallVolume smallBitmap).all = [{ offset := 0, length := 1 }] := by
    decide +kernel
  refine ⟨fun byte usable covered => ?_, Or.inl (by decide)⟩
  obtain ⟨run, member, lower, upper⟩ := covered
  rw [runs, List.mem_singleton] at member
  subst member
  have small : byte < 0x10000 := by
    rw [DataAlloc.extent_stop] at upper
    exact (Nat.div_lt_iff_lt_mul smallVolume.cluster.bytes_pos).mp upper
  rcases usable with ⟨chunk, chunkMember, space, spaceMember, from_, to_⟩ |
      ⟨index, ⟨space, spaceMember, start', stop⟩, -, -⟩
  · have listed : chunk.spaceList ∈ [[(⟨0x200000, 0x80000⟩ : Space)]] := by
      rw [← start.1]
      exact List.mem_map_of_mem chunkMember
    rw [List.mem_singleton] at listed
    rw [listed, List.mem_singleton] at spaceMember
    subst spaceMember
    rw [chunkVirtOffset] at from_
    simp only at from_
    omega
  · rw [start.2, List.mem_singleton] at spaceMember
    subst spaceMember
    rw [regionStart, Extent.stop_mk, dataChunkSize] at stop
    omega

/-- A file of one sector. -/
def sectorFile : RewrittenFile where
  inode := 300
  inlineData := List.replicate 0x1000 0
  vdl := 0x1000
  compression := none
  long := by
    rw [List.length_replicate]
    decide

end Ntfs2Btrfs
