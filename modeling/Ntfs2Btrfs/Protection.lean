import Ntfs2Btrfs.Relocation

/-!
# The walk over the protected clusters

One step of the walk either finds no run and changes nothing, or moves one
cluster.  `Walked` says what holds between two steps of a walk that was not
disturbed.  Every step keeps it unless the cluster was moved before, is itself a
copy, or gets a copy on a cluster in use; each of these leaves a trace that no
later step removes.
-/

namespace Ntfs2Btrfs

open Extents
open BitRuns
open ByteStore

/-! ## The usage of chunks -/

/-- A chunk without its usage. -/
def Chunk.withoutUsed (chunk : Chunk) : Chunk :=
  chunk.take chunk.spaceList 0

@[simp]
theorem Chunk.withoutUsed_diskRange (chunk : Chunk) :
    chunk.withoutUsed.diskRange = chunk.diskRange :=
  rfl

theorem Chunk.withoutUsed_with_used (chunk : Chunk) (used : Nat) :
    ({ chunk with used := used } : Chunk).withoutUsed = chunk.withoutUsed :=
  rfl

theorem Chunk.free_withoutUsed (chunk : Chunk) (address : Nat) :
    chunk.withoutUsed.Free address ↔ chunk.Free address :=
  Iff.rfl

theorem Chunk.WellFormed.withoutUsed
    {chunk : Chunk} (wellFormed : chunk.WellFormed) : chunk.withoutUsed.WellFormed where
  placed := wellFormed.placed
  startAligned := wellFormed.startAligned
  lengthAligned := wellFormed.lengthAligned
  tidy := wellFormed.tidy
  inside := wellFormed.inside
  offStripes := fun address free =>
    wellFormed.offStripes address ((chunk.free_withoutUsed address).mp free)

theorem Chunk.WellFormed.of_withoutUsed
    {chunk : Chunk} (wellFormed : chunk.withoutUsed.WellFormed) : chunk.WellFormed where
  placed := wellFormed.placed
  startAligned := wellFormed.startAligned
  lengthAligned := wellFormed.lengthAligned
  tidy := wellFormed.tidy
  inside := wellFormed.inside
  offStripes := fun address free =>
    wellFormed.offStripes address ((chunk.free_withoutUsed address).mpr free)

/-- The states differ in the usage of chunks, and in nothing else that is allocated from. -/
structure Allocator.SameSpace (state other : Allocator) : Prop where
  chunks : state.chunks.map Chunk.withoutUsed = other.chunks.map Chunk.withoutUsed
  spaceList : state.spaceList = other.spaceList

theorem Allocator.SameSpace.symm
    {state other : Allocator} (same : state.SameSpace other) : other.SameSpace state :=
  ⟨same.chunks.symm, same.spaceList.symm⟩

theorem Allocator.SameSpace.exists_chunk
    {state other : Allocator} (same : state.SameSpace other)
    {chunk : Chunk} (member : chunk ∈ state.chunks) :
    ∃ chunk' ∈ other.chunks, chunk'.withoutUsed = chunk.withoutUsed := by
  have present : chunk.withoutUsed ∈ other.chunks.map Chunk.withoutUsed := by
    rw [← same.chunks]
    exact List.mem_map_of_mem member
  exact List.mem_map.mp present

theorem Allocator.SameSpace.free
    {state other : Allocator} (same : state.SameSpace other)
    {address : Nat} (free : state.Free address) : other.Free address := by
  rcases free with ⟨chunk, member, free⟩ | covered
  · obtain ⟨chunk', member', equal⟩ := same.exists_chunk member
    refine Or.inl ⟨chunk', member', ?_⟩
    rw [← Chunk.free_withoutUsed, equal, Chunk.free_withoutUsed]
    exact free
  · exact Or.inr (same.spaceList ▸ covered)

theorem Allocator.SameSpace.wellFormed
    {state other : Allocator} (same : state.SameSpace other)
    (wellFormed : state.WellFormed) : other.WellFormed := by
  refine ⟨fun chunk member => ?_, ?_, same.spaceList ▸ wellFormed.spaceTidy,
    same.spaceList ▸ wellFormed.spaceAligned, fun space spaceMember chunk member => ?_⟩
  · obtain ⟨chunk', member', equal⟩ := same.symm.exists_chunk member
    have without := (wellFormed.chunks chunk' member').withoutUsed
    rw [equal] at without
    exact without.of_withoutUsed
  · have apart := wellFormed.apart
    have disjoint (chunks : List Chunk) :
        (chunks.map Chunk.withoutUsed).Pairwise
            (fun left right => left.diskRange.Disjoint right.diskRange) ↔
          chunks.Pairwise fun left right => left.diskRange.Disjoint right.diskRange := by
      rw [List.pairwise_map]
      simp only [Chunk.withoutUsed_diskRange]
    rw [← disjoint, same.chunks, disjoint] at apart
    exact apart
  · obtain ⟨chunk', member', equal⟩ := same.symm.exists_chunk member
    rw [← chunk.withoutUsed_diskRange, ← equal, Chunk.withoutUsed_diskRange]
    exact wellFormed.spaceApart space (same.spaceList ▸ spaceMember) chunk' member'

theorem discharge_withoutUsed (address amount : Nat) (chunks : List Chunk) :
    (discharge address amount chunks).map Chunk.withoutUsed =
      chunks.map Chunk.withoutUsed := by
  induction chunks with
  | nil => rfl
  | cons chunk rest ih =>
    rw [discharge]
    split_ifs
    · rw [List.map_cons, List.map_cons, Chunk.withoutUsed_with_used]
    · rw [List.map_cons, List.map_cons, ih]

/-- Discharging a chunk changes nothing that is allocated from. -/
theorem sameSpace_discharge (address amount : Nat) (state : Allocator) :
    state.SameSpace { state with chunks := discharge address amount state.chunks } :=
  ⟨(discharge_withoutUsed address amount state.chunks).symm, rfl⟩

/-! ## Cutting a run -/

/-- Pieces of a run take its place in a tidy list. -/
theorem TidyRuns.replace
    {front back pieces : List DataAlloc} {run : DataAlloc}
    (tidy : TidyRuns (front ++ run :: back)) (piecesTidy : TidyRuns pieces)
    (within : ∀ piece ∈ pieces, run.offset ≤ piece.offset ∧ piece.stop ≤ run.stop) :
    TidyRuns (front ++ pieces ++ back) := by
  obtain ⟨frontTidy, restTidy, before⟩ := (tidyRuns_append_iff _ _).mp tidy
  obtain ⟨-, after, backTidy⟩ := (tidyRuns_cons_iff _ _).mp restTidy
  rw [List.append_assoc, tidyRuns_append_iff, tidyRuns_append_iff]
  refine ⟨frontTidy, ⟨piecesTidy, backTidy, fun piece member next nextMember => ?_⟩,
    fun first firstMember second secondMember => ?_⟩
  · exact (within piece member).2.trans (after next nextMember)
  · rcases List.mem_append.mp secondMember with inPieces | inBack
    · exact (before first firstMember run List.mem_cons_self).trans (within second inPieces).1
    · exact before first firstMember second (List.mem_cons_of_mem run inBack)

theorem bounds_of_contains
    {run : DataAlloc} {cluster : Nat} (covers : run.extent.Contains cluster) :
    run.offset ≤ cluster ∧ cluster + 1 ≤ run.stop :=
  ⟨covers.1, covers.2⟩

section Cut

variable {runs : Runs} {chunk : Nat} {front back : List DataAlloc} {run : DataAlloc}
  (shape : runs.list chunk = front ++ run :: back)

include shape

/-- Cutting a range out of its run keeps the invariant. -/
theorem Runs.WellFormed.cutRange
    {clustersPerChunk offset length : Nat} (wellFormed : runs.WellFormed clustersPerChunk)
    (positive : 0 < length) (lower : run.offset ≤ offset) (upper : offset + length ≤ run.stop)
    (inode fileOffset : Nat) :
    Runs.WellFormed clustersPerChunk
      (runs.assign chunk (front ++ cutRun run offset length inode fileOffset ++ back)) := by
  obtain ⟨tidy, inChunk⟩ := Runs.wellFormed_iff.mp wellFormed chunk
  obtain ⟨piecesTidy, within⟩ := tidyRuns_cutRun inode fileOffset positive lower upper
  rw [shape] at tidy inChunk
  obtain ⟨runLower, runUpper⟩ := inChunk run (by simp)
  refine wellFormed.assign (tidy.replace piecesTidy within) fun piece member => ?_
  rcases List.mem_append.mp member with inFront | inBack
  · rcases List.mem_append.mp inFront with inFront | inPieces
    · exact inChunk piece (by simp [inFront])
    · obtain ⟨pieceLower, pieceUpper⟩ := within piece inPieces
      exact ⟨runLower.trans pieceLower, pieceUpper.trans runUpper⟩
  · exact inChunk piece (by simp [inBack])

/-- Cutting a cluster out of its run keeps the invariant. -/
theorem Runs.WellFormed.cut
    {clustersPerChunk cluster : Nat} (wellFormed : runs.WellFormed clustersPerChunk)
    (covers : run.extent.Contains cluster) (inode fileOffset : Nat) :
    Runs.WellFormed clustersPerChunk
      (runs.assign chunk (front ++ cutRun run cluster 1 inode fileOffset ++ back)) := by
  obtain ⟨lower, upper⟩ := bounds_of_contains covers
  exact wellFormed.cutRange shape Nat.one_pos lower upper inode fileOffset

theorem Runs.covers_cut
    {cluster : Nat} (covers : run.extent.Contains cluster) (inode fileOffset other : Nat) :
    Runs.Covers
        (runs.assign chunk (front ++ cutRun run cluster 1 inode fileOffset ++ back))
        other ↔
      runs.Covers other := by
  obtain ⟨lower, upper⟩ := bounds_of_contains covers
  rw [← Runs.coverCount_pos_iff, ← Runs.coverCount_pos_iff,
    Runs.coverCount_cut shape inode fileOffset Nat.one_pos lower upper]

/-- A run of the lists after a cut is a piece or was there before. -/
theorem Runs.mem_all_of_cut
    {pieces : List DataAlloc} {other : DataAlloc}
    (member : other ∈ Runs.all (runs.assign chunk (front ++ pieces ++ back))) :
    other ∈ pieces ∨ other ∈ runs.all := by
  obtain ⟨number, member⟩ := Runs.mem_all_iff.mp member
  rw [Runs.list_assign] at member
  split_ifs at member with same
  · rcases List.mem_append.mp member with inFront | inBack
    · rcases List.mem_append.mp inFront with inFront | inPieces
      · exact Or.inr (Runs.mem_all_iff.mpr ⟨chunk, by rw [shape]; simp [inFront]⟩)
      · exact Or.inl inPieces
    · exact Or.inr (Runs.mem_all_iff.mpr ⟨chunk, by rw [shape]; simp [inBack]⟩)
  · exact Or.inr (Runs.mem_all_iff.mpr ⟨number, member⟩)

/-- The runs other than the one that was cut are still there. -/
theorem Runs.mem_all_cut
    {pieces : List DataAlloc} {other : DataAlloc}
    (member : other ∈ runs.all) (different : other ≠ run) :
    other ∈ Runs.all (runs.assign chunk (front ++ pieces ++ back)) := by
  obtain ⟨number, member⟩ := Runs.mem_all_iff.mp member
  refine Runs.mem_all_iff.mpr ⟨number, ?_⟩
  rw [Runs.list_assign]
  split_ifs with same
  · rw [same, shape, List.mem_append, List.mem_cons] at member
    rcases member with inFront | isRun | inBack
    · simp [inFront]
    · exact absurd isRun different
    · simp [inBack]
  · exact member

end Cut

theorem Runs.mem_all_cut_of_piece
    {runs : Runs} {chunk : Nat} {front back pieces : List DataAlloc} {piece : DataAlloc}
    (member : piece ∈ pieces) :
    piece ∈ Runs.all (runs.assign chunk (front ++ pieces ++ back)) := by
  refine Runs.mem_all_iff.mpr ⟨chunk, ?_⟩
  rw [Runs.list_assign, if_pos rfl]
  simp [member]

/-- A piece is relocated only if the run was. -/
theorem relocated_of_mem_cutRun
    {run piece : DataAlloc} {offset length inode fileOffset : Nat}
    (member : piece ∈ cutRun run offset length inode fileOffset)
    (plain : run.relocated = false) : piece.relocated = false := by
  rw [cutRun] at member
  rcases List.mem_append.mp member with inFront | inBack
  · split_ifs at inFront
    · rw [List.mem_singleton.mp inFront]
    · exact absurd inFront List.not_mem_nil
  · rcases List.mem_cons.mp inBack with rfl | inBack
    · exact plain
    · split_ifs at inBack
      · rw [List.mem_singleton.mp inBack]
        exact plain
      · exact absurd inBack List.not_mem_nil

/-! ## Inserting a run -/

theorem insertRun_perm (run : DataAlloc) (runs : List DataAlloc) :
    (insertRun run runs).Perm (run :: runs) := by
  induction runs with
  | nil => exact List.Perm.refl _
  | cons head rest ih =>
    rw [insertRun]
    split_ifs
    · exact List.Perm.refl _
    · exact (ih.cons head).trans (List.Perm.swap run head rest)

/-- A run is inserted at its place when it meets no other run. -/
theorem TidyRuns.insertRun
    {runs : List DataAlloc} (tidy : TidyRuns runs) {run : DataAlloc}
    (positive : 0 < run.length)
    (apart : ∀ other ∈ runs, other.stop ≤ run.offset ∨ run.stop ≤ other.offset) :
    TidyRuns (Ntfs2Btrfs.insertRun run runs) := by
  induction runs with
  | nil => exact (tidyRuns_cons_iff run []).mpr ⟨positive, by simp, tidyRuns_nil⟩
  | cons head rest ih =>
    obtain ⟨headPositive, later, restTidy⟩ := (tidyRuns_cons_iff head rest).mp tidy
    have headApart := apart head List.mem_cons_self
    rw [Ntfs2Btrfs.insertRun]
    by_cases greater : head.offset > run.offset
    · rw [if_pos greater]
      have before : run.stop ≤ head.offset := by
        simp only [DataAlloc.stop] at headApart ⊢
        omega
      refine (tidyRuns_cons_iff _ _).mpr ⟨positive, fun next member => ?_, tidy⟩
      rcases List.mem_cons.mp member with rfl | inRest
      · exact before
      · have ordered := later next inRest
        simp only [DataAlloc.stop] at before ordered ⊢
        omega
    · rw [if_neg greater]
      have after : head.stop ≤ run.offset := by
        simp only [DataAlloc.stop] at headApart ⊢
        omega
      refine (tidyRuns_cons_iff _ _).mpr
        ⟨headPositive, fun next member => ?_,
          ih restTidy fun other member => apart other (List.mem_cons_of_mem head member)⟩
      rcases List.mem_cons.mp ((insertRun_perm run rest).mem_iff.mp member) with rfl | inRest
      · exact after
      · exact later next inRest

/-- The run that is inserted for a copy. -/
def copyRun (cluster : Nat) : DataAlloc :=
  { offset := cluster, length := 1, relocated := true }

theorem copyRun_contains_iff (cluster other : Nat) :
    (copyRun cluster).extent.Contains other ↔ other = cluster := by
  simp only [copyRun, Extent.Contains, DataAlloc.extent_offset, DataAlloc.extent_stop,
    DataAlloc.stop]
  omega

section Insert

variable (runs : Runs) (chunk cluster : Nat)

theorem Runs.all_insert_perm (run : DataAlloc) :
    (Runs.all (runs.assign chunk (insertRun run (runs.list chunk)))).Perm
      (run :: runs.all) := by
  refine (runs.all_assign_perm chunk _).trans ?_
  refine ((insertRun_perm run _).append_right _).trans ?_
  rw [List.cons_append]
  exact (runs.all_perm chunk).symm.cons run

theorem Runs.coverCount_insert (other : Nat) :
    Runs.coverCount
        (runs.assign chunk (insertRun (copyRun cluster) (runs.list chunk))) other =
      runs.coverCount other + if other = cluster then 1 else 0 := by
  rw [Runs.coverCount, (runs.all_insert_perm chunk (copyRun cluster)).countP_eq,
    List.countP_cons, Runs.coverCount]
  simp only [copyRun_contains_iff, decide_eq_true_eq]

theorem Runs.WellFormed.insert
    {runs : Runs} {clustersPerChunk : Nat} (positive : 0 < clustersPerChunk)
    (wellFormed : runs.WellFormed clustersPerChunk) {cluster : Nat}
    (free : ¬ runs.Covers cluster) :
    Runs.WellFormed clustersPerChunk
      (runs.assign (cluster / clustersPerChunk)
        (insertRun (copyRun cluster) (runs.list (cluster / clustersPerChunk)))) := by
  obtain ⟨tidy, inChunk⟩ := Runs.wellFormed_iff.mp wellFormed (cluster / clustersPerChunk)
  refine wellFormed.assign (tidy.insertRun Nat.one_pos fun other member => ?_)
    fun run member => ?_
  · by_contra meets
    refine free ⟨other, Runs.mem_all_iff.mpr ⟨_, member⟩, ?_⟩
    simp only [copyRun, DataAlloc.stop] at meets
    simp only [Extent.Contains, DataAlloc.extent_offset, DataAlloc.extent_stop,
      DataAlloc.stop]
    omega
  · rcases List.mem_cons.mp ((insertRun_perm _ _).mem_iff.mp member) with rfl | old
    · refine ⟨Nat.div_mul_le_self cluster clustersPerChunk, ?_⟩
      rw [copyRun, DataAlloc.stop, Nat.succ_mul]
      exact Nat.lt_div_mul_add positive
    · exact inChunk run old

end Insert

/-! ## One step -/

namespace Conversion

variable (state : Conversion)

/-- The clusters that were relocated. -/
def oldStarts : List Nat :=
  state.relocs.map Relocation.oldStart

/-- The clusters that hold the copies. -/
def newStarts : List Nat :=
  state.relocs.map Relocation.newStart

end Conversion

/-- The cluster in which a virtual address lies. -/
def Volume.clusterAt (volume : Volume) (address : Nat) : Nat :=
  (address - chunkVirtOffset) / volume.cluster.bytes

/-- The run lists after the run of a cluster was cut. -/
def protectedRuns
    (volume : Volume) (runs : Runs) (cluster : Nat) (front : List DataAlloc)
    (run : DataAlloc) (back : List DataAlloc) : Runs :=
  runs.assign (cluster / volume.clustersPerChunk)
    (front ++ cutRun run cluster 1 dummyInode 0 ++ back)

section Moved

variable (volume : Volume) (state : Conversion) (runs : Runs) (cluster address : Nat)
  (next : Allocator)

theorem oldStarts_moved :
    (state.moved volume runs cluster address next).oldStarts =
      state.oldStarts ++ [cluster] := by
  rw [Conversion.oldStarts, Conversion.moved, List.map_append]
  rfl

theorem newStarts_moved :
    (state.moved volume runs cluster address next).newStarts =
      state.newStarts ++ [volume.clusterAt address] := by
  rw [Conversion.newStarts, Conversion.moved, List.map_append]
  rfl

theorem runs_moved :
    (state.moved volume runs cluster address next).runs =
      runs.assign (volume.clusterAt address / volume.clustersPerChunk)
        (insertRun (copyRun (volume.clusterAt address))
          (runs.list (volume.clusterAt address / volume.clustersPerChunk))) :=
  rfl

theorem allocator_moved :
    (state.moved volume runs cluster address next).allocator =
      { next with
        chunks :=
          discharge (cluster * volume.cluster.bytes + chunkVirtOffset)
            volume.cluster.bytes next.chunks } :=
  rfl

end Moved

/-- Every outcome of a step: no run was found, or the cluster was moved. -/
theorem protectCluster_cases
    {volume : Volume} {state next : Conversion} {cluster : Nat}
    (done : protectCluster volume state cluster = .ok next) :
    (next = state ∧
      splitList cluster 1 dummyInode 0
          (state.runs.list (cluster / volume.clustersPerChunk)) =
        .ok (false, state.runs.list (cluster / volume.clustersPerChunk))) ∨
    ∃ front run back address allocator,
      state.runs.list (cluster / volume.clustersPerChunk) = front ++ run :: back ∧
        run.extent.Contains cluster ∧
        allocateData volume.cluster.bytes false state.allocator = (.ok address, allocator) ∧
        next =
          state.moved volume (protectedRuns volume state.runs cluster front run back)
            cluster address allocator := by
  rw [protectCluster] at done
  rcases splitRuns_one volume.clustersPerChunk_pos state.runs cluster dummyInode 0 with
    ⟨equal, notFound⟩ | ⟨front, run, back, shape, covers, equal⟩
  · rw [equal] at done
    exact Or.inl ⟨(Except.ok.inj done).symm, notFound⟩
  · rw [equal] at done
    simp only [bind, Except.bind, if_true] at done
    rcases allocated : allocateData volume.cluster.bytes false state.allocator with
      ⟨address | address, allocator⟩
    · rw [allocated] at done
      cases done
    · rw [allocated] at done
      exact Or.inr ⟨front, run, back, address, allocator, shape, covers, rfl,
        (Except.ok.inj done).symm⟩

/-- In tidy run lists no run is found only when none covers the cluster. -/
theorem Runs.WellFormed.not_covers
    {clustersPerChunk : Nat} {runs : Runs} (wellFormed : runs.WellFormed clustersPerChunk)
    {cluster inode fileOffset : Nat}
    (notFound : splitList cluster 1 inode fileOffset (runs.list (cluster / clustersPerChunk)) =
      .ok (false, runs.list (cluster / clustersPerChunk))) :
    ¬ runs.Covers cluster := by
  rintro ⟨run, member, covers⟩
  obtain ⟨chunk, member⟩ := Runs.mem_all_iff.mp member
  have same := wellFormed.chunk_eq member covers
  rw [← same] at member
  have tidy := (Runs.wellFormed_iff.mp wellFormed (cluster / clustersPerChunk)).1
  exact splitList_not_found tidy notFound run member
    ⟨Nat.lt_succ_of_le covers.1, covers.2⟩

theorem covers_of_shape
    {volume : Volume} {runs : Runs} {cluster : Nat} {front back : List DataAlloc}
    {run : DataAlloc}
    (shape : runs.list (cluster / volume.clustersPerChunk) = front ++ run :: back)
    (covers : run.extent.Contains cluster) : run ∈ runs.all ∧ runs.Covers cluster := by
  have member : run ∈ runs.all :=
    Runs.mem_all_iff.mpr ⟨cluster / volume.clustersPerChunk, by rw [shape]; simp⟩
  exact ⟨member, run, member, covers⟩

/-- A step that moves a cluster covers one cluster once more. -/
theorem coverCount_moved
    {volume : Volume} {state : Conversion} {cluster : Nat} {front back : List DataAlloc}
    {run : DataAlloc}
    (shape : state.runs.list (cluster / volume.clustersPerChunk) = front ++ run :: back)
    (covers : run.extent.Contains cluster) (address : Nat) (allocator : Allocator)
    (other : Nat) :
    (state.moved volume (protectedRuns volume state.runs cluster front run back)
        cluster address allocator).runs.coverCount other =
      state.runs.coverCount other + if other = volume.clusterAt address then 1 else 0 := by
  obtain ⟨lower, upper⟩ := bounds_of_contains covers
  rw [runs_moved, Runs.coverCount_insert, protectedRuns,
    Runs.coverCount_cut shape dummyInode 0 Nat.one_pos lower upper]

theorem protectCluster_coverCount_le
    {volume : Volume} {state next : Conversion} {cluster : Nat}
    (done : protectCluster volume state cluster = .ok next) (other : Nat) :
    state.runs.coverCount other ≤ next.runs.coverCount other := by
  rcases protectCluster_cases done with
    ⟨rfl, -⟩ | ⟨front, run, back, address, allocator, shape, covers, -, rfl⟩
  · exact le_rfl
  · rw [coverCount_moved shape covers]
    exact Nat.le_add_right _ _

/-- A step keeps the invariant as long as no cluster is covered twice. -/
theorem protectCluster_wellFormed
    {volume : Volume} {state next : Conversion} {cluster : Nat}
    (wellFormed : state.runs.WellFormed volume.clustersPerChunk)
    (done : protectCluster volume state cluster = .ok next)
    (once : ∀ other, next.runs.coverCount other ≤ 1) :
    next.runs.WellFormed volume.clustersPerChunk := by
  rcases protectCluster_cases done with
    ⟨rfl, -⟩ | ⟨front, run, back, address, allocator, shape, covers, -, rfl⟩
  · exact wellFormed
  · have count := once (volume.clusterAt address)
    rw [coverCount_moved shape covers, if_pos rfl] at count
    have cut := wellFormed.cut shape covers dummyInode 0
    rw [runs_moved]
    refine Runs.WellFormed.insert volume.clustersPerChunk_pos cut fun covered => ?_
    rw [Runs.covers_cut shape covers] at covered
    have positive := (Runs.coverCount_pos_iff _ _).mpr covered
    omega

/-! ## The walk -/

theorem walk_coverCount_le
    {volume : Volume} {clusters : List Nat} {state final : Conversion}
    (done : clusters.foldlM (protectCluster volume) state = .ok final) (other : Nat) :
    state.runs.coverCount other ≤ final.runs.coverCount other := by
  induction clusters generalizing state with
  | nil =>
    cases done
    exact le_rfl
  | cons cluster rest ih =>
    rw [List.foldlM_cons] at done
    cases stepped : protectCluster volume state cluster with
    | error failure =>
      rw [stepped] at done
      cases done
    | ok next =>
      rw [stepped] at done
      exact (protectCluster_coverCount_le stepped other).trans (ih done)

/--
What was relocated stays so, and a covered cluster that is visited gets an entry,
in a walk after which no cluster is covered twice.
-/
theorem walk_relocates
    {volume : Volume} {clusters : List Nat} {state final : Conversion}
    (wellFormed : state.runs.WellFormed volume.clustersPerChunk)
    (done : clusters.foldlM (protectCluster volume) state = .ok final)
    (once : ∀ other, final.runs.coverCount other ≤ 1) :
    ∃ later, final.oldStarts = state.oldStarts ++ later ∧
      (∃ copies, final.newStarts = state.newStarts ++ copies) ∧
      ∀ cluster ∈ clusters, state.runs.Covers cluster → cluster ∈ later := by
  induction clusters generalizing state with
  | nil =>
    cases done
    exact ⟨[], (List.append_nil _).symm, ⟨[], (List.append_nil _).symm⟩,
      fun cluster member => absurd member List.not_mem_nil⟩
  | cons cluster rest ih =>
    rw [List.foldlM_cons] at done
    cases stepped : protectCluster volume state cluster with
    | error failure =>
      rw [stepped] at done
      cases done
    | ok next =>
      rw [stepped] at done
      have nextOnce (other : Nat) : next.runs.coverCount other ≤ 1 :=
        (walk_coverCount_le done other).trans (once other)
      have nextWellFormed := protectCluster_wellFormed wellFormed stepped nextOnce
      obtain ⟨later, olds, ⟨copies, news⟩, visited⟩ := ih nextWellFormed done
      have kept (other : Nat) (covered : state.runs.Covers other) : next.runs.Covers other := by
        rw [← Runs.coverCount_pos_iff] at covered ⊢
        exact lt_of_lt_of_le covered (protectCluster_coverCount_le stepped other)
      rcases protectCluster_cases stepped with
        ⟨rfl, notFound⟩ | ⟨front, run, back, address, allocator, -, -, -, rfl⟩
      · refine ⟨later, olds, ⟨copies, news⟩, fun other member covered => ?_⟩
        rcases List.mem_cons.mp member with rfl | inRest
        · exact absurd covered (wellFormed.not_covers notFound)
        · exact visited other inRest covered
      · rw [oldStarts_moved, List.append_assoc] at olds
        rw [newStarts_moved, List.append_assoc] at news
        refine ⟨[cluster] ++ later, olds, ⟨_, news⟩, fun other member covered => ?_⟩
        rcases List.mem_cons.mp member with rfl | inRest
        · exact List.mem_append_left later List.mem_cons_self
        · exact List.mem_append_right [cluster] (visited other inRest (kept other covered))

/-- The run that is left of a cluster that was moved away. -/
def dummyRun (cluster : Nat) : DataAlloc :=
  { offset := cluster, length := 1, inode := dummyInode }

theorem dummyRun_contains_iff (cluster other : Nat) :
    (dummyRun cluster).extent.Contains other ↔ other = cluster := by
  simp only [dummyRun, Extent.Contains, DataAlloc.extent_offset, DataAlloc.extent_stop,
    DataAlloc.stop]
  omega

/--
What holds between two steps of a walk that was not disturbed: `before` are the
run lists with which it began.
-/
structure Walked (volume : Volume) (before : Runs) (state : Conversion) : Prop where
  wellFormed : state.runs.WellFormed volume.clustersPerChunk
  covers : ∀ cluster,
    state.runs.Covers cluster ↔ before.Covers cluster ∨ cluster ∈ state.newStarts
  lengths : ∀ reloc ∈ state.relocs, reloc.length = 1
  oldsInUse : ∀ cluster ∈ state.oldStarts, before.Covers cluster
  newsApart : ∀ cluster ∈ state.newStarts, ¬ before.Covers cluster
  oldsOnce : state.oldStarts.Nodup
  newsOnce : state.newStarts.Nodup
  dummies : ∀ cluster ∈ state.oldStarts, dummyRun cluster ∈ state.runs.all
  copies : ∀ cluster ∈ state.newStarts, copyRun cluster ∈ state.runs.all
  origins : ∀ run ∈ state.runs.all, run.relocated = true →
    ∃ cluster ∈ state.newStarts, run = copyRun cluster
  allocator : state.allocator.WellFormed
  taken : ∀ cluster ∈ state.newStarts, ∃ address,
    cluster = volume.clusterAt address ∧ chunkVirtOffset ≤ address ∧
      ∀ point, InRange address volume.cluster.bytes point → ¬ state.allocator.Free point

/-- The start of a walk: nothing was relocated. -/
theorem walked_start
    {volume : Volume} (state : Conversion)
    (runs : state.runs.FromBitmap volume.clustersPerChunk)
    (allocator : state.allocator.WellFormed) (fresh : state.relocs = []) :
    Walked volume state.runs state := by
  have noOlds : state.oldStarts = [] := by rw [Conversion.oldStarts, fresh, List.map_nil]
  have noNews : state.newStarts = [] := by rw [Conversion.newStarts, fresh, List.map_nil]
  refine
    { wellFormed := runs.wellFormed
      covers := fun cluster => by simp [noNews]
      lengths := by simp [fresh]
      oldsInUse := by simp [noOlds]
      newsApart := by simp [noNews]
      oldsOnce := by simp [noOlds]
      newsOnce := by simp [noNews]
      dummies := by simp [noOlds]
      copies := by simp [noNews]
      origins := fun run member marked => ?_
      allocator := allocator
      taken := by simp [noNews] }
  have plain := runs.plain run member
  rw [DataAlloc.Plain] at plain
  rw [plain] at marked
  exact absurd marked Bool.noConfusion

/-- Two ranges of one cluster's length that start in one cluster have a byte in common. -/
theorem exists_inRange_of_clusterAt_eq
    {volume : Volume} {address other : Nat}
    (virtual : chunkVirtOffset ≤ address) (otherVirtual : chunkVirtOffset ≤ other)
    (same : volume.clusterAt address = volume.clusterAt other) :
    ∃ point, InRange address volume.cluster.bytes point ∧
      InRange other volume.cluster.bytes point := by
  have positive := volume.cluster.bytes_pos
  rw [Volume.clusterAt, Volume.clusterAt] at same
  have lower := Nat.div_mul_le_self (address - chunkVirtOffset) volume.cluster.bytes
  have otherLower := Nat.div_mul_le_self (other - chunkVirtOffset) volume.cluster.bytes
  have upper := @Nat.lt_div_mul_add (address - chunkVirtOffset) _ positive
  have otherUpper := @Nat.lt_div_mul_add (other - chunkVirtOffset) _ positive
  rw [same] at lower upper
  simp only [InRange]
  generalize volume.cluster.bytes = clusterSize at *
  generalize (other - chunkVirtOffset) / clusterSize * clusterSize = start at *
  refine ⟨max address other - chunkVirtOffset, ?_⟩
  omega

/-- A cluster that was neither moved nor holds a copy is covered by a run of the bitmap. -/
theorem Walked.not_relocated
    {volume : Volume} {before : Runs} {state : Conversion}
    (walked : Walked volume before state) {cluster : Nat}
    (noCopy : cluster ∉ state.newStarts) {run : DataAlloc} (member : run ∈ state.runs.all)
    (covers : run.extent.Contains cluster) : run.relocated = false := by
  cases marked : run.relocated with
  | false => rfl
  | true =>
    obtain ⟨copy, copyMember, rfl⟩ := walked.origins run member marked
    rw [copyRun_contains_iff] at covers
    exact absurd (covers ▸ copyMember) noCopy

/-- Moving a cluster for the first time, to a place that was not in use. -/
theorem Walked.moved
    {volume : Volume} {before : Runs} {state : Conversion}
    (walked : Walked volume before state) {cluster address : Nat} {allocator : Allocator}
    {front back : List DataAlloc} {run : DataAlloc}
    (shape : state.runs.list (cluster / volume.clustersPerChunk) = front ++ run :: back)
    (covers : run.extent.Contains cluster)
    (allocated : allocateData volume.cluster.bytes false state.allocator =
      (.ok address, allocator))
    (noOld : cluster ∉ state.oldStarts) (noCopy : cluster ∉ state.newStarts)
    (apart : ¬ before.Covers (volume.clusterAt address)) :
    Walked volume before
        (state.moved volume (protectedRuns volume state.runs cluster front run back)
          cluster address allocator) ∧
      volume.clusterAt address ∉ state.newStarts := by
  obtain ⟨runMember, covered⟩ := covers_of_shape shape covers
  have plain := walked.not_relocated noCopy runMember covers
  have served := allocateData_spec walked.allocator volume.cluster.bytes false
  rw [allocated] at served
  obtain ⟨advances, served⟩ := served
  replace served := served address rfl
  have virtual : chunkVirtOffset ≤ address := by
    obtain ⟨chunk, chunkMember, -, lower, -⟩ := served.inChunk
    have placed := (advances.wellFormed.chunks chunk chunkMember).placed
    omega
  have fresh : volume.clusterAt address ∉ state.newStarts := by
    intro member
    obtain ⟨other, same, otherVirtual, taken⟩ := walked.taken _ member
    obtain ⟨point, inside, otherInside⟩ :=
      exists_inRange_of_clusterAt_eq virtual otherVirtual same
    exact taken point otherInside (served.wasFree point inside)
  have free : ¬ Runs.Covers (protectedRuns volume state.runs cluster front run back)
      (volume.clusterAt address) := by
    rw [protectedRuns, Runs.covers_cut shape covers, walked.covers]
    exact fun either => either.elim apart fresh
  have same := sameSpace_discharge (cluster * volume.cluster.bytes + chunkVirtOffset)
    volume.cluster.bytes allocator
  have cut := walked.wellFormed.cut shape covers dummyInode 0
  have keptBy (other : DataAlloc) (member : other ∈ state.runs.all)
      (outside : ¬ other.extent.Contains cluster) :
      other ∈ Runs.all (protectedRuns volume state.runs cluster front run back) :=
    Runs.mem_all_cut shape member fun equal => outside (equal ▸ covers)
  have runsPerm := Runs.all_insert_perm
    (protectedRuns volume state.runs cluster front run back)
    (volume.clusterAt address / volume.clustersPerChunk)
    (copyRun (volume.clusterAt address))
  refine ⟨?_, fresh⟩
  refine
    { wellFormed := Runs.WellFormed.insert volume.clustersPerChunk_pos cut free
      covers := fun other => ?_
      lengths := fun reloc member => ?_
      oldsInUse := fun other member => ?_
      newsApart := fun other member => ?_
      oldsOnce := ?_
      newsOnce := ?_
      dummies := fun other member => ?_
      copies := fun other member => ?_
      origins := fun other member marked => ?_
      allocator := same.wellFormed advances.wellFormed
      taken := fun other member => ?_ }
  · rw [← Runs.coverCount_pos_iff, coverCount_moved shape covers, newStarts_moved,
      List.mem_append, List.mem_singleton, ← or_assoc, ← walked.covers,
      ← Runs.coverCount_pos_iff]
    split_ifs with isCopy
    · simp [isCopy]
    · simp [isCopy]
  · rcases List.mem_append.mp member with old | new
    · exact walked.lengths reloc old
    · rw [List.mem_singleton.mp new]
  · rw [oldStarts_moved, List.mem_append, List.mem_singleton] at member
    rcases member with old | rfl
    · exact walked.oldsInUse other old
    · exact ((walked.covers other).mp covered).resolve_right noCopy
  · rw [newStarts_moved, List.mem_append, List.mem_singleton] at member
    rcases member with old | rfl
    · exact walked.newsApart other old
    · exact apart
  · rw [oldStarts_moved, ← List.concat_eq_append]
    exact walked.oldsOnce.concat noOld
  · rw [newStarts_moved, ← List.concat_eq_append]
    exact walked.newsOnce.concat fresh
  · rw [oldStarts_moved, List.mem_append, List.mem_singleton] at member
    refine runsPerm.mem_iff.mpr (List.mem_cons_of_mem _ ?_)
    rcases member with old | rfl
    · refine keptBy _ (walked.dummies other old) fun inside => ?_
      rw [dummyRun_contains_iff] at inside
      exact noOld (inside ▸ old)
    · refine Runs.mem_all_cut_of_piece ?_
      rw [cutRun, plain]
      exact List.mem_append_right _ List.mem_cons_self
  · rw [newStarts_moved, List.mem_append, List.mem_singleton] at member
    refine runsPerm.mem_iff.mpr ?_
    rcases member with old | rfl
    · refine List.mem_cons_of_mem _ (keptBy _ (walked.copies other old) fun inside => ?_)
      rw [copyRun_contains_iff] at inside
      exact noCopy (inside ▸ old)
    · exact List.mem_cons_self
  · rw [newStarts_moved]
    rcases List.mem_cons.mp (runsPerm.mem_iff.mp member) with rfl | inCut
    · exact ⟨_, List.mem_append_right _ List.mem_cons_self, rfl⟩
    · rcases Runs.mem_all_of_cut shape inCut with inPieces | old
      · rw [relocated_of_mem_cutRun inPieces plain] at marked
        exact absurd marked Bool.noConfusion
      · obtain ⟨copy, copyMember, equal⟩ := walked.origins other old marked
        exact ⟨copy, List.mem_append_left _ copyMember, equal⟩
  · rw [newStarts_moved, List.mem_append, List.mem_singleton] at member
    rcases member with old | rfl
    · obtain ⟨place, equal, placeVirtual, taken⟩ := walked.taken other old
      exact ⟨place, equal, placeVirtual, fun point inside free =>
        taken point inside (advances.free point (same.symm.free free))⟩
    · exact ⟨address, rfl, virtual, fun point inside free =>
        served.taken point inside (same.symm.free free)⟩

/--
No cluster that a run covers is visited twice, and no copy is placed on a cluster
that a run covers or that is visited later.  `runs` are the run lists before the
walk, and the copies go where the free lists of the state give room for them.
-/
def WalkUndisturbed (volume : Volume) (runs : Runs) : Allocator → List Nat → Prop
  | _, [] => True
  | state, cluster :: rest =>
      if runs.Covers cluster then
        cluster ∉ rest ∧
          match allocateData volume.cluster.bytes false state with
          | (.error _, _) => True
          | (.ok address, next) =>
              ¬ runs.Covers (volume.clusterAt address) ∧
                volume.clusterAt address ∉ rest ∧
                WalkUndisturbed volume runs
                  { next with
                    chunks :=
                      discharge (cluster * volume.cluster.bytes + chunkVirtOffset)
                        volume.cluster.bytes next.chunks }
                  rest
      else WalkUndisturbed volume runs state rest

/-- A walk that is not disturbed keeps the invariant and moves what it visits. -/
theorem Walked.walk
    {volume : Volume} {before : Runs} {clusters : List Nat} {state final : Conversion}
    (walked : Walked volume before state)
    (ahead : ∀ cluster ∈ clusters,
      cluster ∉ state.oldStarts ∧ cluster ∉ state.newStarts)
    (done : clusters.foldlM (protectCluster volume) state = .ok final)
    (undisturbed : WalkUndisturbed volume before state.allocator clusters) :
    Walked volume before final ∧
      ∀ cluster, cluster ∈ final.oldStarts ↔
        cluster ∈ state.oldStarts ∨ (cluster ∈ clusters ∧ before.Covers cluster) := by
  induction clusters generalizing state with
  | nil =>
    cases done
    exact ⟨walked, fun cluster => by simp⟩
  | cons cluster rest ih =>
    obtain ⟨noOld, noCopy⟩ := ahead cluster List.mem_cons_self
    have restAhead := fun other member => ahead other (List.mem_cons_of_mem cluster member)
    rw [List.foldlM_cons] at done
    cases stepped : protectCluster volume state cluster with
    | error failure =>
      rw [stepped] at done
      cases done
    | ok next =>
      rw [stepped] at done
      rw [WalkUndisturbed] at undisturbed
      rcases protectCluster_cases stepped with
        ⟨rfl, notFound⟩ | ⟨front, run, back, address, allocator, shape, covers, allocated, rfl⟩
      · have uncovered : ¬ before.Covers cluster := fun covered =>
          walked.wellFormed.not_covers notFound ((walked.covers cluster).mpr (Or.inl covered))
        rw [if_neg uncovered] at undisturbed
        obtain ⟨finalWalked, olds⟩ := ih walked restAhead done undisturbed
        refine ⟨finalWalked, fun other => ?_⟩
        rw [olds, List.mem_cons, or_and_right]
        refine or_congr_right (or_iff_right ?_).symm
        rintro ⟨rfl, covered⟩
        exact uncovered covered
      · have covered : before.Covers cluster :=
          ((walked.covers cluster).mp (covers_of_shape shape covers).2).resolve_right noCopy
        rw [if_pos covered, allocated] at undisturbed
        obtain ⟨onceOnly, apart, notAhead, undisturbed⟩ := undisturbed
        obtain ⟨nextWalked, -⟩ :=
          walked.moved shape covers allocated noOld noCopy apart
        obtain ⟨finalWalked, olds⟩ := ih nextWalked (fun other member => by
          rw [oldStarts_moved, newStarts_moved, List.mem_append, List.mem_append,
            List.mem_singleton, List.mem_singleton]
          obtain ⟨otherOld, otherCopy⟩ := restAhead other member
          refine ⟨fun either => either.elim otherOld ?_, fun either => either.elim otherCopy ?_⟩
          · rintro rfl
            exact onceOnly member
          · rintro rfl
            exact notAhead member) done undisturbed
        refine ⟨finalWalked, fun other => ?_⟩
        rw [olds, oldStarts_moved, List.mem_append, List.mem_singleton, List.mem_cons,
          or_and_right, or_assoc]
        refine or_congr_right (or_congr_left (and_iff_left_of_imp ?_).symm)
        rintro rfl
        exact covered

/-- A disturbance leaves a trace: a cluster moved twice, a moved copy, or two runs. -/
theorem Walked.undisturbed
    {volume : Volume} {before : Runs} {clusters : List Nat} {state final : Conversion}
    (walked : Walked volume before state)
    (ahead : ∀ cluster ∈ clusters,
      cluster ∉ state.oldStarts ∧ cluster ∉ state.newStarts)
    (done : clusters.foldlM (protectCluster volume) state = .ok final)
    (wellFormed : final.runs.WellFormed volume.clustersPerChunk)
    (oldsOnce : final.oldStarts.Nodup)
    (copiesStay : ∀ cluster ∈ final.newStarts, cluster ∉ final.oldStarts) :
    WalkUndisturbed volume before state.allocator clusters := by
  induction clusters generalizing state with
  | nil =>
    rw [WalkUndisturbed]
    exact trivial
  | cons cluster rest ih =>
    obtain ⟨noOld, noCopy⟩ := ahead cluster List.mem_cons_self
    have restAhead := fun other member => ahead other (List.mem_cons_of_mem cluster member)
    have once (other : Nat) : final.runs.coverCount other ≤ 1 := wellFormed.coverCount_le other
    rw [List.foldlM_cons] at done
    cases stepped : protectCluster volume state cluster with
    | error failure =>
      rw [stepped] at done
      cases done
    | ok next =>
      rw [stepped] at done
      have nextOnce (other : Nat) : next.runs.coverCount other ≤ 1 :=
        (walk_coverCount_le done other).trans (once other)
      have nextWellFormed := protectCluster_wellFormed walked.wellFormed stepped nextOnce
      obtain ⟨later, olds, ⟨copies, news⟩, visited⟩ :=
        walk_relocates nextWellFormed done once
      rw [WalkUndisturbed]
      rcases protectCluster_cases stepped with
        ⟨rfl, notFound⟩ | ⟨front, run, back, address, allocator, shape, covers, allocated, rfl⟩
      · have uncovered : ¬ before.Covers cluster := fun covered =>
          walked.wellFormed.not_covers notFound ((walked.covers cluster).mpr (Or.inl covered))
        rw [if_neg uncovered]
        exact ih walked restAhead done
      · obtain ⟨-, stateCovers⟩ := covers_of_shape shape covers
        have covered : before.Covers cluster :=
          ((walked.covers cluster).mp stateCovers).resolve_right noCopy
        have counts := coverCount_moved shape covers address allocator
        rw [oldStarts_moved] at olds
        rw [newStarts_moved] at news
        rw [if_pos covered, allocated]
        -- the cluster is still covered, by its dummy run
        have stays : (state.moved volume (protectedRuns volume state.runs cluster front run back)
            cluster address allocator).runs.Covers cluster := by
          rw [← Runs.coverCount_pos_iff] at stateCovers ⊢
          exact lt_of_lt_of_le stateCovers (protectCluster_coverCount_le stepped cluster)
        have onceOnly : cluster ∉ rest := by
          intro member
          have again := visited cluster member stays
          rw [olds] at oldsOnce
          exact (List.nodup_append.mp oldsOnce).2.2 cluster (by simp) cluster again rfl
        have apart : ¬ before.Covers (volume.clusterAt address) := by
          intro inUse
          have twice := nextOnce (volume.clusterAt address)
          rw [counts, if_pos rfl] at twice
          have positive := (Runs.coverCount_pos_iff _ _).mpr
            ((walked.covers (volume.clusterAt address)).mpr (Or.inl inUse))
          omega
        have copyCovered : (state.moved volume
            (protectedRuns volume state.runs cluster front run back)
            cluster address allocator).runs.Covers (volume.clusterAt address) := by
          rw [← Runs.coverCount_pos_iff, counts, if_pos rfl]
          exact Nat.succ_pos _
        have notAhead : volume.clusterAt address ∉ rest := by
          intro member
          refine copiesStay (volume.clusterAt address) (by simp [news]) ?_
          rw [olds]
          exact List.mem_append_right _ (visited _ member copyCovered)
        obtain ⟨nextWalked, -⟩ :=
          walked.moved shape covers allocated noOld noCopy apart
        refine ⟨onceOnly, apart, notAhead, ih nextWalked (fun other member => ?_) done⟩
        rw [oldStarts_moved, newStarts_moved, List.mem_append, List.mem_append,
          List.mem_singleton, List.mem_singleton]
        obtain ⟨otherOld, otherCopy⟩ := restAhead other member
        refine ⟨fun either => either.elim otherOld ?_, fun either => either.elim otherCopy ?_⟩
        · rintro rfl
          exact onceOnly member
        · rintro rfl
          exact notAhead member

-- the condition on a concrete walk is never evaluated by the unifier
attribute [irreducible] WalkUndisturbed

/-! ## The clusters that are relocated -/

/--
The relocation that the image file needs: exactly the clusters in use that have
to move are moved, each of them once and to a place of its own that stays there.
-/
structure RelocatesExactly
    (volume : Volume) (bitmap : Bytes) (lastChunkEnd : Nat) (final : Conversion) :
    Prop where
  lengths : ∀ reloc ∈ final.relocs, reloc.length = 1
  moved : ∀ cluster, cluster ∈ final.oldStarts ↔
    (ClusterInUse bitmap cluster ∧
      cluster * volume.cluster.bytes < volume.origDeviceSize) ∧
        volume.MustMove lastChunkEnd cluster
  oldsOnce : final.oldStarts.Nodup
  newsOnce : final.newStarts.Nodup
  copiesStay : ∀ cluster ∈ final.newStarts, cluster ∉ final.oldStarts
  dummies : ∀ cluster ∈ final.oldStarts, ∃ run,
    final.runs.all.filter (fun run => run.extent.Contains cluster) = [run] ∧
      run.IsDummy ∧ run.length = 1
  copies : ∀ cluster ∈ final.newStarts, ∃ run,
    final.runs.all.filter (fun run => run.extent.Contains cluster) = [run] ∧
      run.relocated = true
  wellFormed : final.runs.WellFormed volume.clustersPerChunk

/-- The loop over the bitmap sees the visited clusters as the bitmap has them. -/
def SeesVisited (volume : Volume) (bitmap : Bytes) (lastChunkEnd : Nat) : Prop :=
  ∀ cluster ∈ volume.visited lastChunkEnd,
    cluster * volume.cluster.bytes < volume.origDeviceSize →
      (Marked (scannedBits bitmap) cluster ↔ ClusterInUse bitmap cluster)

/-- Every bitmap that is a multiple of eight bytes long is seen as it is. -/
theorem seesVisited_of_whole
    (volume : Volume) {bitmap : Bytes} (lastChunkEnd : Nat)
    (whole : 8 ∣ bitmap.length) : SeesVisited volume bitmap lastChunkEnd := by
  intro cluster _ _
  rw [scannedBits_of_whole (Dvd.dvd.trans (by decide) whole), ClusterInUse]

/--
`protect_superblocks` relocates what has to move exactly when its walk is not
disturbed and the loop over the bitmap saw the clusters that it visits.
-/
theorem protectSuperblocks_exact_iff
    (volume : Volume) (bitmap : Bytes) (lastChunkEnd : Nat)
    {allocator : Allocator} (wellFormed : allocator.WellFormed) (device : Store)
    {final : Conversion}
    (done : protectSuperblocks volume lastChunkEnd
      ⟨allocator, volumeRuns volume bitmap, [], device⟩ = .ok final) :
    RelocatesExactly volume bitmap lastChunkEnd final ↔
      SeesVisited volume bitmap lastChunkEnd ∧
        WalkUndisturbed volume (volumeRuns volume bitmap) allocator
          (volume.visited lastChunkEnd) := by
  rw [protectSuperblocks] at done
  obtain ⟨fromBitmap, covers⟩ := volumeRuns_spec volume bitmap
  have walked : Walked volume (volumeRuns volume bitmap)
      ⟨allocator, volumeRuns volume bitmap, [], device⟩ :=
    walked_start ⟨allocator, volumeRuns volume bitmap, [], device⟩ fromBitmap wellFormed rfl
  have ahead : ∀ cluster ∈ volume.visited lastChunkEnd,
      cluster ∉ Conversion.oldStarts ⟨allocator, volumeRuns volume bitmap, [], device⟩ ∧
        cluster ∉ Conversion.newStarts ⟨allocator, volumeRuns volume bitmap, [], device⟩ :=
    fun cluster _ => ⟨List.not_mem_nil, List.not_mem_nil⟩
  -- what an undisturbed walk moves, in terms of the bits that were seen
  have olds (undisturbed : WalkUndisturbed volume (volumeRuns volume bitmap) allocator
        (volume.visited lastChunkEnd)) (cluster : Nat) :
      cluster ∈ final.oldStarts ↔ cluster ∈ volume.visited lastChunkEnd ∧
        Marked (scannedBits bitmap) cluster ∧
          cluster * volume.cluster.bytes < volume.origDeviceSize := by
    rw [(walked.walk ahead done undisturbed).2, ← covers]
    exact or_iff_right List.not_mem_nil
  constructor
  · intro exactly
    have undisturbed := walked.undisturbed ahead done exactly.wellFormed exactly.oldsOnce
      exactly.copiesStay
    refine ⟨fun cluster visited onVolume => ?_, undisturbed⟩
    have mustMove := (volume.mem_visited_iff lastChunkEnd onVolume).mp visited
    have seen := olds undisturbed cluster
    rw [exactly.moved, and_iff_left mustMove, and_iff_right visited,
      and_iff_left onVolume, and_iff_left onVolume] at seen
    exact seen.symm
  · rintro ⟨sees, undisturbed⟩
    obtain ⟨finalWalked, -⟩ := walked.walk ahead done undisturbed
    have tidy := finalWalked.wellFormed.tidy_all
    refine
      { lengths := finalWalked.lengths
        moved := fun cluster => ?_
        oldsOnce := finalWalked.oldsOnce
        newsOnce := finalWalked.newsOnce
        copiesStay := fun cluster copy old =>
          finalWalked.newsApart cluster copy (finalWalked.oldsInUse cluster old)
        dummies := fun cluster member => ?_
        copies := fun cluster member => ?_
        wellFormed := finalWalked.wellFormed }
    · rw [olds undisturbed]
      constructor
      · rintro ⟨visited, seen, onVolume⟩
        exact ⟨⟨(sees cluster visited onVolume).mp seen, onVolume⟩,
          (volume.mem_visited_iff lastChunkEnd onVolume).mp visited⟩
      · rintro ⟨⟨inUse, onVolume⟩, mustMove⟩
        have visited := (volume.mem_visited_iff lastChunkEnd onVolume).mpr mustMove
        exact ⟨visited, (sees cluster visited onVolume).mpr inUse, onVolume⟩
    · exact ⟨dummyRun cluster,
        tidy.filter_contains (finalWalked.dummies cluster member)
          ((dummyRun_contains_iff cluster cluster).mpr rfl), rfl, rfl⟩
    · exact ⟨copyRun cluster,
        tidy.filter_contains (finalWalked.copies cluster member)
          ((copyRun_contains_iff cluster cluster).mpr rfl), rfl⟩

/-- A volume of two clusters of 1 MiB: the first is moved to the second. -/
theorem protectSuperblocks_exact_iff_two_clusters :
    ∃ final : Conversion,
      protectSuperblocks ⟨0x200000, ⟨20, by decide, by decide⟩, by decide⟩ 0x200000
          ⟨⟨[freshChunk 0x100000 0x100000 blockGroupData], [], false, SortedMap.empty⟩,
            volumeRuns ⟨0x200000, ⟨20, by decide, by decide⟩, by decide⟩
              [1, 0, 0, 0, 0, 0, 0, 0],
            [], fun _ => 0⟩ = .ok final ∧
        final.relocs = [⟨0, 1, 1⟩] ∧
        (RelocatesExactly ⟨0x200000, ⟨20, by decide, by decide⟩, by decide⟩
            [1, 0, 0, 0, 0, 0, 0, 0] 0x200000 final ↔
          SeesVisited ⟨0x200000, ⟨20, by decide, by decide⟩, by decide⟩
              [1, 0, 0, 0, 0, 0, 0, 0] 0x200000 ∧
            WalkUndisturbed ⟨0x200000, ⟨20, by decide, by decide⟩, by decide⟩
              (volumeRuns ⟨0x200000, ⟨20, by decide, by decide⟩, by decide⟩
                [1, 0, 0, 0, 0, 0, 0, 0])
              ⟨[freshChunk 0x100000 0x100000 blockGroupData], [], false, SortedMap.empty⟩
              (Volume.visited ⟨0x200000, ⟨20, by decide, by decide⟩, by decide⟩ 0x200000)) := by
  have wellFormed : Allocator.WellFormed
      ⟨[freshChunk 0x100000 0x100000 blockGroupData], [], false, SortedMap.empty⟩ :=
    { chunks := fun chunk member => by
        rw [List.mem_singleton.mp member]
        exact freshChunk_wellFormed (by decide) (by decide) (by decide)
      apart := List.pairwise_singleton _ _
      spaceTidy := tidy_nil
      spaceAligned := fun space member => absurd member List.not_mem_nil
      spaceApart := fun space member => absurd member List.not_mem_nil }
  have moved :
      (protectSuperblocks ⟨0x200000, ⟨20, by decide, by decide⟩, by decide⟩ 0x200000
        ⟨⟨[freshChunk 0x100000 0x100000 blockGroupData], [], false, SortedMap.empty⟩,
          volumeRuns ⟨0x200000, ⟨20, by decide, by decide⟩, by decide⟩
            [1, 0, 0, 0, 0, 0, 0, 0],
          [], fun _ => 0⟩).toOption.map Conversion.relocs = some [⟨0, 1, 1⟩] := by
    decide +kernel
  obtain ⟨final, done, relocs⟩ := Option.map_eq_some_iff.mp moved
  replace done := eq_ok_of_toOption_eq_some done
  exact ⟨final, done, relocs,
    protectSuperblocks_exact_iff ⟨0x200000, ⟨20, by decide, by decide⟩, by decide⟩
      [1, 0, 0, 0, 0, 0, 0, 0] 0x200000 wellFormed (fun _ => 0) done⟩

/--
A volume of 64 MiB and 32 KiB with clusters of 512 KiB, of which the first and the
last are in use.  The last one is in the stripe of the second superblock and also
past the end of the last chunk: it is relocated twice.
-/
theorem protectSuperblocks_relocates_twice :
    ¬ ∀ (volume : Volume) (bitmap : Bytes) (device : Store) (lastChunkEnd : Nat)
      (final : Conversion),
      ClusterInUse bitmap 0 → 8 ∣ bitmap.length →
      ((conversionStart volume.deviceSize volume.cluster bitmap).chunks.map
          fun chunk => chunk.diskStart + chunk.length).getLast? = some lastChunkEnd →
      (∀ chunk ∈ (conversionStart volume.deviceSize volume.cluster bitmap).chunks,
        ∀ space ∈ chunk.spaceList,
          volume.cluster.bytes ∣ space.offset - chunkVirtOffset ∧
            volume.cluster.bytes ∣ space.length ∧
            ∀ cluster < 8 * bitmap.length, ClusterInUse bitmap cluster →
              ¬ volume.Meets cluster (space.offset - chunkVirtOffset)
                (space.stop - chunkVirtOffset)) →
      protectSuperblocks volume lastChunkEnd
        ⟨conversionStart volume.deviceSize volume.cluster bitmap,
          volumeRuns volume bitmap, [], device⟩ = .ok final →
      RelocatesExactly volume bitmap lastChunkEnd final := by
  intro claim
  have moved :
      (protectSuperblocks ⟨0x4008000, ⟨19, by decide, by decide⟩, by decide⟩ 0x4000000
        ⟨conversionStart (Volume.deviceSize ⟨0x4008000, ⟨19, by decide, by decide⟩, by decide⟩)
            ⟨19, by decide, by decide⟩ (1 :: List.replicate 15 0 ++ [1, 0, 0, 0, 0, 0, 0, 0]),
          volumeRuns ⟨0x4008000, ⟨19, by decide, by decide⟩, by decide⟩
            (1 :: List.replicate 15 0 ++ [1, 0, 0, 0, 0, 0, 0, 0]),
          [], fun _ => 0⟩).toOption.map Conversion.oldStarts = some [128, 0, 128] := by
    decide +kernel
  obtain ⟨final, done, olds⟩ := Option.map_eq_some_iff.mp moved
  have exactly := claim ⟨0x4008000, ⟨19, by decide, by decide⟩, by decide⟩
    (1 :: List.replicate 15 0 ++ [1, 0, 0, 0, 0, 0, 0, 0]) (fun _ => 0) 0x4000000 final
    (by decide) (by decide +kernel) (by decide +kernel) (by decide +kernel)
    (eq_ok_of_toOption_eq_some done)
  have once := exactly.oldsOnce
  rw [olds] at once
  exact absurd once (by decide)

end Ntfs2Btrfs
