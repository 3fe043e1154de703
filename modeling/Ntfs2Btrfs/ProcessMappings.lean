import Ntfs2Btrfs.Mappings
import Ntfs2Btrfs.Relocation

/-!
# Adjusting the mappings of a file

`process_mappings` drops the holes of a file, cuts its mappings at the chunk
boundaries, points them at the copies of the clusters that were relocated, and
gives the clusters to the file.

Cluster numbers are those of a device, so that the sums of the source do not
overflow.
-/

namespace Ntfs2Btrfs

open Extents

/-! ## The code -/

/-- The pieces of the clusters from `start` on, cut at the chunk boundaries. -/
def cutAtChunks (clustersPerChunk stop : Nat) : Nat → Nat → Nat → List Mapping
  | 0, _, _ => []
  | turns + 1, start, vcn =>
      let end_ := min ((start / clustersPerChunk + 1) * clustersPerChunk) stop
      if end_ = start then []
      else
        { lcn := start, vcn := vcn, length := end_ - start } ::
          cutAtChunks clustersPerChunk stop turns end_ (vcn + (end_ - start))

/-- The first loop of `process_mappings`, for one mapping. -/
def avoidChunkBoundaries (clustersPerChunk : Nat) (mapping : Mapping) : List Mapping :=
  if mapping.lcn = 0 then []
  else
    let chunkStart := mapping.lcn / clustersPerChunk
    let chunkEnd := (mapping.lcn + mapping.length - 1) / clustersPerChunk
    if chunkEnd > chunkStart then
      cutAtChunks clustersPerChunk (mapping.lcn + mapping.length) (mapping.length + 1)
        mapping.lcn mapping.vcn
    else [mapping]

/--
What cutting a relocation at `stop` does to a run: the run of the old clusters
leaves a protected piece in front, that of the copies a relocated one.
-/
def splitRelocated (oldStart newStart stop : Nat) (run : DataAlloc) : List DataAlloc :=
  let oldFront : List DataAlloc :=
    if run.offset = oldStart then
      [{ offset := oldStart, length := stop - oldStart, inode := dummyInode }]
    else []
  let run :=
    if run.offset = oldStart then
      { run with offset := stop, length := wordSub run.length (stop - oldStart) }
    else run
  let newFront : List DataAlloc :=
    if run.offset = newStart then
      [{ offset := newStart, length := stop - oldStart, relocated := true }]
    else []
  let run :=
    if run.offset = newStart then
      { run with
        offset := newStart + (stop - oldStart)
        length := wordSub run.length (stop - oldStart) }
    else run
  oldFront ++ newFront ++ [run]

/-- Cut a relocation at `stop` in all run lists. -/
def Runs.splitRelocated (runs : Runs) (oldStart newStart stop : Nat) : Runs :=
  runs.mapValues fun runList =>
    runList.flatMap (Ntfs2Btrfs.splitRelocated oldStart newStart stop)

/-- Cut the first run that starts at `oldStart`; `none` where there is no such run. -/
def splitFirst (oldStart length : Nat) : List DataAlloc → Option (List DataAlloc)
  | [] => none
  | run :: rest =>
      if run.offset = oldStart then
        some ({ offset := run.offset, length := length, inode := dummyInode } ::
          { run with offset := run.offset + length, length := wordSub run.length length } ::
            rest)
      else (splitFirst oldStart length rest).map (run :: ·)

/-- The chunk whose list has the first run that starts at `oldStart`, with the cut list. -/
def Runs.splitFirst (runs : Runs) (oldStart length : Nat) : Runs :=
  match runs.entries.findSome? fun entry =>
      (Ntfs2Btrfs.splitFirst oldStart length entry.2).map fun runList =>
        (entry.1, runList) with
  | none => runs
  | some (chunk, runList) => runs.assign chunk runList

/-- What changes while one entry of `relocs` is applied to the mappings. -/
structure Remap where
  reloc : Relocation
  added : List Relocation
  runs : Runs

/-- Whole mapping: the relocation is cut to the clusters of the mapping. -/
def remapWhole (state : Remap) (m : Mapping) : Remap × List Mapping :=
  let r := state.reloc
  let state : Remap :=
    -- reloc starts before mapping
    if r.oldStart < m.lcn then
      { reloc := ⟨m.lcn, r.length - (m.lcn - r.oldStart), r.newStart + (m.lcn - r.oldStart)⟩
        added := state.added ++ [⟨r.oldStart, m.lcn - r.oldStart, r.newStart⟩]
        runs := state.runs.splitRelocated r.oldStart r.newStart m.lcn }
    else state
  let r := state.reloc
  let state : Remap :=
    -- reloc goes beyond end of mapping
    if r.oldStart + r.length > m.lcn + m.length then
      { reloc := { r with length := m.lcn + m.length - r.oldStart }
        added := state.added ++
          [⟨m.lcn + m.length, r.oldStart + r.length - m.lcn - m.length,
            r.newStart + m.lcn + m.length - r.oldStart⟩]
        runs := state.runs.splitRelocated r.oldStart r.newStart (m.lcn + m.length) }
    else state
  (state, [{ m with lcn := m.lcn - state.reloc.oldStart + state.reloc.newStart }])

/-- The relocation lies within the mapping. -/
def remapMiddle (r : Relocation) (m : Mapping) : List Mapping :=
  let front : List Mapping :=
    if m.lcn < r.oldStart then [⟨m.lcn, m.vcn, r.oldStart - m.lcn⟩] else []
  let m : Mapping :=
    if m.lcn < r.oldStart then
      ⟨r.oldStart, m.vcn + (r.oldStart - m.lcn), m.length - (r.oldStart - m.lcn)⟩
    else m
  if m.lcn + m.length > r.oldStart + r.length then
    front ++
      [⟨r.newStart, m.vcn, r.length⟩,
        ⟨r.oldStart + r.length, m.vcn + r.length, m.length - r.length⟩]
  else front ++ [{ m with lcn := m.lcn - r.oldStart + r.newStart }]

/-- The relocation starts within the mapping and goes beyond its end. -/
def remapEnd (state : Remap) (m : Mapping) : Remap × List Mapping :=
  let r := state.reloc
  let rest : Mapping :=
    ⟨r.newStart, m.vcn + (r.oldStart - m.lcn), m.length - (r.oldStart - m.lcn)⟩
  let state : Remap :=
    if r.length > rest.length then
      { reloc := { r with length := rest.length }
        added := state.added ++
          [⟨r.oldStart + rest.length, r.length - rest.length, r.newStart + rest.length⟩]
        runs := state.runs.splitFirst r.oldStart rest.length }
    else state
  (state, [⟨m.lcn, m.vcn, r.oldStart - m.lcn⟩, rest])

/-- The relocation starts before the mapping and ends within it. -/
def remapBeginning (state : Remap) (m : Mapping) : Remap × List Mapping :=
  let r := state.reloc
  let state : Remap :=
    if r.oldStart < m.lcn then
      { reloc := { r with length := m.lcn - r.oldStart }
        added := state.added ++
          [⟨m.lcn, r.oldStart + r.length - m.lcn, r.newStart + m.lcn - r.oldStart⟩]
        runs := state.runs.splitRelocated r.oldStart r.newStart m.lcn }
    else state
  (state,
    [⟨m.lcn - r.oldStart + r.newStart, m.vcn, r.oldStart + r.length - m.lcn⟩,
      ⟨r.oldStart + r.length, m.vcn + (r.oldStart + r.length - m.lcn),
        m.length - (r.oldStart + r.length - m.lcn)⟩])

/-- One relocation and one mapping. -/
def remapOne (state : Remap) (m : Mapping) : Remap × List Mapping :=
  let r := state.reloc
  if m.lcn + m.length > r.oldStart ∧ m.lcn < r.oldStart + r.length then
    if m.lcn ≥ r.oldStart ∧ m.lcn + m.length ≤ r.oldStart + r.length then
      remapWhole state m
    else if m.lcn ≤ r.oldStart ∧ m.lcn + m.length ≥ r.oldStart + r.length then
      (state, remapMiddle r m)
    else if m.lcn < r.oldStart ∧ m.lcn + m.length ≤ r.oldStart + r.length then
      remapEnd state m
    else if m.lcn > r.oldStart ∧ m.lcn + m.length > r.oldStart + r.length then
      remapBeginning state m
    else (state, [m])
  else (state, [m])

/-- One relocation and all mappings. -/
def remapAll (state : Remap) : List Mapping → Remap × List Mapping
  | [] => (state, [])
  | m :: rest =>
      let first := remapOne state m
      let later := remapAll first.1 rest
      (later.1, first.2 ++ later.2)

/--
The loop over `relocs`, to which it appends, with a bound on the number of
turns: the relocations, the mappings and the runs as the loop leaves them.
-/
def remapLoop :
    Nat → List Relocation → List Relocation → List Mapping → Runs →
      Option (List Relocation × List Mapping × Runs)
  | _, done, [], mappings, runs => some (done, mappings, runs)
  | 0, _, _ :: _, _, _ => none
  | turns + 1, done, reloc :: rest, mappings, runs =>
      let outcome := remapAll { reloc := reloc, added := [], runs := runs } mappings
      remapLoop turns (done ++ [outcome.1.reloc]) (rest ++ outcome.1.added) outcome.2
        outcome.1.runs

/-- `process_mappings`: the mappings, the relocations and the runs it leaves. -/
def processMappings
    (clustersPerChunk turns inode : Nat) (relocs : List Relocation)
    (mappings : List Mapping) (runs : Runs) :
    Option (Except ConvertError (List Mapping × List Relocation × Runs)) :=
  -- avoid chunk boundaries
  let cut := mappings.flatMap (avoidChunkBoundaries clustersPerChunk)
  -- change to avoid superblocks
  (remapLoop turns [] relocs cut runs).map fun (relocs, mappings, runs) => do
    let runs ← mappings.foldlM (fun runs m =>
      (splitRuns clustersPerChunk runs m.lcn m.length inode m.vcn).map Prod.snd) runs
    return (mappings, relocs, runs)

/-! ## Mappings as functions -/

/-- The virtual clusters of a mapping. -/
def Mapping.range (mapping : Mapping) : Extent :=
  ⟨mapping.vcn, mapping.length⟩

/-- Sorted and disjoint in the virtual clusters, and none of them empty. -/
def TidyMappings (mappings : List Mapping) : Prop :=
  Tidy (mappings.map Mapping.range)

/-- The mapping takes a virtual cluster to a logical one. -/
def Mapping.Maps (mapping : Mapping) (vcn lcn : Nat) : Prop :=
  mapping.range.Contains vcn ∧ lcn = mapping.lcn + (vcn - mapping.vcn)

/-- The list takes a virtual cluster to a logical one. -/
def MapsTo (mappings : List Mapping) (vcn lcn : Nat) : Prop :=
  ∃ mapping ∈ mappings, mapping.Maps vcn lcn

/-- A virtual cluster is in one mapping of a tidy list only. -/
theorem TidyMappings.unique
    {mappings : List Mapping} (tidy : TidyMappings mappings) {left right : Mapping}
    (leftMember : left ∈ mappings) (rightMember : right ∈ mappings) {vcn : Nat}
    (leftInside : left.vcn ≤ vcn ∧ vcn < left.vcn + left.length)
    (rightInside : right.vcn ≤ vcn ∧ vcn < right.vcn + right.length) :
    left = right := by
  induction mappings with
  | nil => exact absurd leftMember List.not_mem_nil
  | cons head rest ih =>
    obtain ⟨-, later, restTidy⟩ := (tidy_cons_iff _ _).mp tidy
    have after : ∀ next ∈ rest, head.vcn + head.length ≤ next.vcn := fun next member =>
      later next.range (List.mem_map_of_mem member)
    rcases List.mem_cons.mp leftMember with rfl | leftInRest
    · rcases List.mem_cons.mp rightMember with rfl | rightInRest
      · rfl
      · have ordered := after right rightInRest
        omega
    · rcases List.mem_cons.mp rightMember with rfl | rightInRest
      · have ordered := after left leftInRest
        omega
      · exact ih restTidy leftInRest rightInRest

/-- A tidy list takes a virtual cluster to one logical cluster only. -/
theorem TidyMappings.functional
    {mappings : List Mapping} (tidy : TidyMappings mappings) {vcn lcn other : Nat}
    (maps : MapsTo mappings vcn lcn) (otherMaps : MapsTo mappings vcn other) :
    lcn = other := by
  obtain ⟨mapping, member, inside, equal⟩ := maps
  obtain ⟨second, secondMember, secondInside, secondEqual⟩ := otherMaps
  rw [equal, secondEqual, tidy.unique member secondMember inside secondInside]

/-- The clusters of the mapping are in one chunk. -/
def Mapping.InOneChunk (clustersPerChunk : Nat) (mapping : Mapping) : Prop :=
  mapping.lcn / clustersPerChunk = (mapping.lcn + mapping.length - 1) / clustersPerChunk

/-- Pieces that take the virtual clusters of a mapping where it takes them, changed by `change`. -/
structure Replaces (change : Nat → Nat) (mapping : Mapping) (pieces : List Mapping) :
    Prop where
  tidy : TidyMappings pieces
  within : ∀ piece ∈ pieces,
    mapping.vcn ≤ piece.vcn ∧ piece.vcn + piece.length ≤ mapping.vcn + mapping.length
  maps : ∀ vcn lcn, MapsTo pieces vcn lcn ↔ ∃ old, mapping.Maps vcn old ∧ lcn = change old

theorem tidyMappings_cons_iff (mapping : Mapping) (rest : List Mapping) :
    TidyMappings (mapping :: rest) ↔
      0 < mapping.length ∧ (∀ next ∈ rest, mapping.vcn + mapping.length ≤ next.vcn) ∧
        TidyMappings rest := by
  rw [TidyMappings, List.map_cons, tidy_cons_iff]
  simp only [List.forall_mem_map]
  rfl

theorem tidyMappings_nil : TidyMappings [] :=
  tidy_nil

theorem mapsTo_cons_iff (mapping : Mapping) (rest : List Mapping) (vcn lcn : Nat) :
    MapsTo (mapping :: rest) vcn lcn ↔ mapping.Maps vcn lcn ∨ MapsTo rest vcn lcn := by
  simp [MapsTo]

theorem not_mapsTo_nil (vcn lcn : Nat) : ¬ MapsTo [] vcn lcn := by
  simp [MapsTo]

theorem maps_mk_iff (start vcn length other lcn : Nat) :
    Mapping.Maps ⟨start, vcn, length⟩ other lcn ↔
      (vcn ≤ other ∧ other < vcn + length) ∧ lcn = start + (other - vcn) :=
  Iff.rfl

/-- Replacing every mapping of a tidy list. -/
theorem TidyMappings.flatMap
    {mappings : List Mapping} (tidy : TidyMappings mappings) {change : Nat → Nat}
    {pieces : Mapping → List Mapping}
    (replaces : ∀ mapping ∈ mappings, Replaces change mapping (pieces mapping)) :
    TidyMappings (mappings.flatMap pieces) ∧
      ∀ vcn lcn, MapsTo (mappings.flatMap pieces) vcn lcn ↔
        ∃ old, MapsTo mappings vcn old ∧ lcn = change old := by
  constructor
  · rw [TidyMappings, List.map_flatMap]
    refine Tidy.flatMap tidy (fun mapping member => (replaces mapping member).tidy)
      fun mapping member piece inPieces => ?_
    obtain ⟨source, sourceMember, rfl⟩ := List.mem_map.mp inPieces
    exact (replaces mapping member).within source sourceMember
  · intro vcn lcn
    constructor
    · rintro ⟨piece, member, maps⟩
      obtain ⟨mapping, mappingMember, inPieces⟩ := List.mem_flatMap.mp member
      obtain ⟨old, source, equal⟩ :=
        ((replaces mapping mappingMember).maps vcn lcn).mp ⟨piece, inPieces, maps⟩
      exact ⟨old, ⟨mapping, mappingMember, source⟩, equal⟩
    · rintro ⟨old, ⟨mapping, mappingMember, source⟩, equal⟩
      obtain ⟨piece, inPieces, maps⟩ :=
        ((replaces mapping mappingMember).maps vcn lcn).mpr ⟨old, source, equal⟩
      exact ⟨piece, List.mem_flatMap.mpr ⟨mapping, mappingMember, inPieces⟩, maps⟩

theorem replaces_self {mapping : Mapping} (positive : 0 < mapping.length) :
    Replaces id mapping [mapping] where
  tidy := (tidyMappings_cons_iff _ _).mpr ⟨positive, by simp, tidyMappings_nil⟩
  within := by simp
  maps vcn lcn := by simp [MapsTo]

/-- Clusters between two clusters of one chunk are in that chunk. -/
theorem Mapping.InOneChunk.part
    {clustersPerChunk : Nat} {mapping piece : Mapping}
    (inOneChunk : mapping.InOneChunk clustersPerChunk) (positive : 0 < piece.length)
    (lower : mapping.lcn ≤ piece.lcn)
    (upper : piece.lcn + piece.length ≤ mapping.lcn + mapping.length) :
    piece.InOneChunk clustersPerChunk := by
  have start : mapping.lcn / clustersPerChunk ≤ piece.lcn / clustersPerChunk :=
    Nat.div_le_div_right lower
  have middle : piece.lcn / clustersPerChunk ≤
      (piece.lcn + piece.length - 1) / clustersPerChunk :=
    Nat.div_le_div_right (by omega)
  have stop : (piece.lcn + piece.length - 1) / clustersPerChunk ≤
      (mapping.lcn + mapping.length - 1) / clustersPerChunk :=
    Nat.div_le_div_right (by omega)
  rw [Mapping.InOneChunk] at inOneChunk ⊢
  omega

theorem inOneChunk_one (clustersPerChunk lcn vcn : Nat) :
    Mapping.InOneChunk clustersPerChunk ⟨lcn, vcn, 1⟩ :=
  rfl

/-! ## Chunk boundaries -/

/-- The pieces between two clusters. -/
theorem cutAtChunks_spec
    {clustersPerChunk : Nat} (chunks : 0 < clustersPerChunk) {turns start stop : Nat}
    (vcn : Nat) (ordered : start ≤ stop) (enough : stop - start < turns) :
    TidyMappings (cutAtChunks clustersPerChunk stop turns start vcn) ∧
    (∀ piece ∈ cutAtChunks clustersPerChunk stop turns start vcn,
      vcn ≤ piece.vcn ∧ piece.vcn + piece.length ≤ vcn + (stop - start) ∧
        piece.InOneChunk clustersPerChunk) ∧
    ∀ other lcn, MapsTo (cutAtChunks clustersPerChunk stop turns start vcn) other lcn ↔
      (vcn ≤ other ∧ other < vcn + (stop - start)) ∧ lcn = start + (other - vcn) := by
  induction turns generalizing start vcn with
  | zero => omega
  | succ turns ih =>
    have beyond : start < (start / clustersPerChunk + 1) * clustersPerChunk := by
      rw [Nat.mul_comm]
      exact Nat.lt_mul_div_succ start chunks
    rw [cutAtChunks]
    rcases Nat.eq_or_lt_of_le ordered with rfl | before
    · rw [if_pos (Nat.min_eq_right beyond.le)]
      refine ⟨tidyMappings_nil, by simp, fun other lcn => iff_of_false (not_mapsTo_nil _ _) ?_⟩
      omega
    · generalize border : min ((start / clustersPerChunk + 1) * clustersPerChunk) stop = end_
      have later : start < end_ := by omega
      have inStop : end_ ≤ stop := by omega
      obtain ⟨tidy, within, maps⟩ := ih (vcn + (end_ - start)) inStop (by omega)
      rw [if_neg later.ne']
      refine ⟨(tidyMappings_cons_iff _ _).mpr ⟨by simpa using later, fun next member => ?_, tidy⟩,
        fun piece member => ?_, fun other lcn => ?_⟩
      · exact (within next member).1
      · rcases List.mem_cons.mp member with rfl | inRest
        · refine ⟨le_rfl, by simp only; omega, ?_⟩
          have lower : start / clustersPerChunk ≤ (end_ - 1) / clustersPerChunk :=
            Nat.div_le_div_right (by omega)
          have upper : (end_ - 1) / clustersPerChunk < start / clustersPerChunk + 1 :=
            (Nat.div_lt_iff_lt_mul chunks).mpr (by omega)
          simp only [Mapping.InOneChunk]
          rw [Nat.add_sub_cancel' later.le]
          omega
        · obtain ⟨lower, upper, inOneChunk⟩ := within piece inRest
          exact ⟨by omega, by omega, inOneChunk⟩
      · rw [mapsTo_cons_iff, maps_mk_iff, maps]
        omega

/-- A mapping that is no hole is cut into pieces inside chunks. -/
theorem avoidChunkBoundaries_replaces
    {clustersPerChunk : Nat} (chunks : 0 < clustersPerChunk) {mapping : Mapping}
    (present : mapping.lcn ≠ 0) (positive : 0 < mapping.length) :
    Replaces id mapping (avoidChunkBoundaries clustersPerChunk mapping) ∧
      ∀ piece ∈ avoidChunkBoundaries clustersPerChunk mapping,
        piece.InOneChunk clustersPerChunk := by
  rw [avoidChunkBoundaries, if_neg present]
  simp only
  split_ifs with crosses
  · obtain ⟨tidy, within, maps⟩ := cutAtChunks_spec chunks mapping.vcn
      (Nat.le_add_right mapping.lcn mapping.length)
      (show mapping.lcn + mapping.length - mapping.lcn < mapping.length + 1 by omega)
    rw [Nat.add_sub_cancel_left] at within maps
    refine ⟨⟨tidy, fun piece member => ⟨(within piece member).1, (within piece member).2.1⟩,
      fun vcn lcn => ?_⟩, fun piece member => (within piece member).2.2⟩
    rw [maps]
    simp only [id, exists_eq_right']
    rfl
  · refine ⟨replaces_self positive, fun piece member => ?_⟩
    rw [List.mem_singleton.mp member, Mapping.InOneChunk]
    have ordered : mapping.lcn / clustersPerChunk ≤
        (mapping.lcn + mapping.length - 1) / clustersPerChunk :=
      Nat.div_le_div_right (by omega)
    omega

/-! ## Relocations of single clusters -/

/-- Where one relocation takes a cluster. -/
def Relocation.move (reloc : Relocation) (lcn : Nat) : Nat :=
  if lcn = reloc.oldStart then reloc.newStart else lcn

/-- Where the relocations take a cluster. -/
def relocate : List Relocation → Nat → Nat
  | [], lcn => lcn
  | reloc :: rest, lcn => if lcn = reloc.oldStart then reloc.newStart else relocate rest lcn

theorem relocate_of_not_mem
    {relocs : List Relocation} {lcn : Nat} (other : ∀ reloc ∈ relocs, reloc.oldStart ≠ lcn) :
    relocate relocs lcn = lcn := by
  induction relocs with
  | nil => rfl
  | cons reloc rest ih =>
    obtain ⟨first, later⟩ := List.forall_mem_cons.mp other
    rw [relocate, if_neg (Ne.symm first), ih later]

/-- Where no cluster is relocated twice, each goes to its copy. -/
theorem relocate_of_mem
    {relocs : List Relocation} (once : (relocs.map Relocation.oldStart).Nodup)
    {reloc : Relocation} (member : reloc ∈ relocs) :
    relocate relocs reloc.oldStart = reloc.newStart := by
  induction relocs with
  | nil => exact absurd member List.not_mem_nil
  | cons head rest ih =>
    obtain ⟨fresh, later⟩ := List.nodup_cons.mp once
    rw [relocate]
    rcases List.mem_cons.mp member with rfl | inRest
    · exact if_pos rfl
    · have different : reloc.oldStart ≠ head.oldStart := fun same =>
        fresh (List.mem_map.mpr ⟨reloc, inRest, same⟩)
      rw [if_neg different, ih later inRest]

/-- One relocation after the other, where no copy is moved again. -/
theorem relocate_cons
    {reloc : Relocation} {rest : List Relocation}
    (stays : ∀ other ∈ rest, other.oldStart ≠ reloc.newStart) (lcn : Nat) :
    relocate (reloc :: rest) lcn = relocate rest (reloc.move lcn) := by
  rw [relocate, Relocation.move]
  split_ifs
  · exact (relocate_of_not_mem stays).symm
  · rfl

/-- The clusters of a mapping before a cluster. -/
def Mapping.before (mapping : Mapping) (cluster : Nat) : List Mapping :=
  if mapping.lcn < cluster then [⟨mapping.lcn, mapping.vcn, cluster - mapping.lcn⟩] else []

/-- The clusters of a mapping from a cluster on. -/
def Mapping.from (mapping : Mapping) (cluster : Nat) : List Mapping :=
  if cluster < mapping.lcn + mapping.length then
    [⟨cluster, mapping.vcn + (cluster - mapping.lcn),
      mapping.length - (cluster - mapping.lcn)⟩]
  else []

/-- Moving one cluster of a mapping leaves what is before it and what is after it. -/
theorem remapMiddle_eq
    {reloc : Relocation} {mapping : Mapping} (single : reloc.length = 1)
    (lower : mapping.lcn ≤ reloc.oldStart)
    (upper : reloc.oldStart < mapping.lcn + mapping.length) :
    remapMiddle reloc mapping =
      mapping.before reloc.oldStart ++
        ⟨reloc.newStart, mapping.vcn + (reloc.oldStart - mapping.lcn), 1⟩ ::
          mapping.from (reloc.oldStart + 1) := by
  obtain ⟨oldStart, length, newStart⟩ := reloc
  obtain ⟨lcn, vcn, clusters⟩ := mapping
  simp only at single lower upper
  subst single
  simp only [remapMiddle, Mapping.before, Mapping.from]
  rcases Nat.eq_or_lt_of_le lower with rfl | before
  · simp only [lt_irrefl, if_false, Nat.sub_self, Nat.add_zero, List.nil_append]
    split_ifs with behind
    · simp only [List.cons.injEq, Mapping.mk.injEq, and_true, true_and]
      omega
    · simp only [List.cons.injEq, Mapping.mk.injEq, and_true, true_and]
      omega
  · simp only [if_pos before]
    have rest : oldStart + (clusters - (oldStart - lcn)) = lcn + clusters := by omega
    simp only [rest]
    split_ifs with behind
    · simp only [List.cons_append, List.nil_append, List.cons.injEq, Mapping.mk.injEq, and_true,
        true_and]
      omega
    · simp only [List.cons_append, List.nil_append, List.cons.injEq, Mapping.mk.injEq, and_true,
        true_and]
      omega

theorem mapsTo_before_iff (mapping : Mapping) (cluster vcn lcn : Nat) :
    MapsTo (mapping.before cluster) vcn lcn ↔
      (mapping.vcn ≤ vcn ∧ vcn < mapping.vcn + (cluster - mapping.lcn)) ∧
        lcn = mapping.lcn + (vcn - mapping.vcn) := by
  rw [Mapping.before]
  split_ifs with before
  · rw [mapsTo_cons_iff, or_iff_left (not_mapsTo_nil _ _), maps_mk_iff]
  · refine iff_of_false (not_mapsTo_nil _ _) ?_
    omega

theorem mapsTo_from_iff
    {mapping : Mapping} {cluster : Nat} (inside : mapping.lcn ≤ cluster) (vcn lcn : Nat) :
    MapsTo (mapping.from cluster) vcn lcn ↔
      (mapping.vcn + (cluster - mapping.lcn) ≤ vcn ∧ vcn < mapping.vcn + mapping.length) ∧
        lcn = mapping.lcn + (vcn - mapping.vcn) := by
  rw [Mapping.from]
  split_ifs with behind
  · rw [mapsTo_cons_iff, or_iff_left (not_mapsTo_nil _ _), maps_mk_iff]
    omega
  · refine iff_of_false (not_mapsTo_nil _ _) ?_
    omega

theorem mapsTo_append_iff (front back : List Mapping) (vcn lcn : Nat) :
    MapsTo (front ++ back) vcn lcn ↔ MapsTo front vcn lcn ∨ MapsTo back vcn lcn := by
  simp [MapsTo, or_and_right, exists_or]

theorem tidyMappings_append_iff (front back : List Mapping) :
    TidyMappings (front ++ back) ↔
      TidyMappings front ∧ TidyMappings back ∧
        ∀ first ∈ front, ∀ second ∈ back, first.vcn + first.length ≤ second.vcn := by
  induction front with
  | nil => simp [tidyMappings_nil]
  | cons head rest ih =>
    rw [List.cons_append, tidyMappings_cons_iff, tidyMappings_cons_iff, ih]
    simp only [List.mem_append, or_imp, forall_and, List.mem_cons, forall_eq]
    tauto

theorem mem_before_iff (mapping piece : Mapping) (cluster : Nat) :
    piece ∈ mapping.before cluster ↔
      mapping.lcn < cluster ∧
        piece = ⟨mapping.lcn, mapping.vcn, cluster - mapping.lcn⟩ := by
  rw [Mapping.before]
  split_ifs with before <;> simp [before]

theorem mem_from_iff (mapping piece : Mapping) (cluster : Nat) :
    piece ∈ mapping.from cluster ↔
      cluster < mapping.lcn + mapping.length ∧
        piece = ⟨cluster, mapping.vcn + (cluster - mapping.lcn),
          mapping.length - (cluster - mapping.lcn)⟩ := by
  rw [Mapping.from]
  split_ifs with behind <;> simp [behind]

theorem tidyMappings_before (mapping : Mapping) (cluster : Nat) :
    TidyMappings (mapping.before cluster) := by
  rw [Mapping.before]
  split_ifs with before
  · exact (tidyMappings_cons_iff _ _).mpr ⟨Nat.sub_pos_of_lt before, by simp, tidyMappings_nil⟩
  · exact tidyMappings_nil

theorem tidyMappings_from
    {mapping : Mapping} {cluster : Nat} (inside : mapping.lcn ≤ cluster) :
    TidyMappings (mapping.from cluster) := by
  rw [Mapping.from]
  split_ifs with behind
  · exact (tidyMappings_cons_iff _ _).mpr ⟨by simp only; omega, by simp, tidyMappings_nil⟩
  · exact tidyMappings_nil

/-- What one relocation of a single cluster does to a mapping that has the cluster. -/
theorem remapMiddle_replaces
    {reloc : Relocation} {mapping : Mapping} (single : reloc.length = 1)
    (lower : mapping.lcn ≤ reloc.oldStart)
    (upper : reloc.oldStart < mapping.lcn + mapping.length) :
    Replaces reloc.move mapping (remapMiddle reloc mapping) ∧
      ∀ clustersPerChunk, mapping.InOneChunk clustersPerChunk →
        ∀ piece ∈ remapMiddle reloc mapping, piece.InOneChunk clustersPerChunk := by
  rw [remapMiddle_eq single lower upper]
  have members : ∀ piece ∈ mapping.before reloc.oldStart ++
        ⟨reloc.newStart, mapping.vcn + (reloc.oldStart - mapping.lcn), 1⟩ ::
          mapping.from (reloc.oldStart + 1),
      (mapping.lcn < reloc.oldStart ∧
        piece = ⟨mapping.lcn, mapping.vcn, reloc.oldStart - mapping.lcn⟩) ∨
      piece = ⟨reloc.newStart, mapping.vcn + (reloc.oldStart - mapping.lcn), 1⟩ ∨
      (reloc.oldStart + 1 < mapping.lcn + mapping.length ∧
        piece = ⟨reloc.oldStart + 1, mapping.vcn + (reloc.oldStart + 1 - mapping.lcn),
          mapping.length - (reloc.oldStart + 1 - mapping.lcn)⟩) := by
    intro piece member
    rw [List.mem_append, List.mem_cons, mem_before_iff, mem_from_iff] at member
    exact member
  refine ⟨⟨?_, fun piece member => ?_, fun vcn lcn => ?_⟩,
    fun clustersPerChunk inOneChunk piece member => ?_⟩
  · rw [tidyMappings_append_iff, tidyMappings_cons_iff]
    refine ⟨tidyMappings_before _ _, ⟨Nat.one_pos, fun next inBack => ?_,
      tidyMappings_from (by omega)⟩, fun first inFront second inRest => ?_⟩
    · obtain ⟨-, rfl⟩ := (mem_from_iff _ _ _).mp inBack
      simp only
      omega
    · obtain ⟨-, rfl⟩ := (mem_before_iff _ _ _).mp inFront
      rcases List.mem_cons.mp inRest with rfl | inBack
      · exact le_rfl
      · obtain ⟨-, rfl⟩ := (mem_from_iff _ _ _).mp inBack
        simp only
        omega
  · rcases members piece member with ⟨before, rfl⟩ | rfl | ⟨behind, rfl⟩ <;> simp only <;> omega
  · rw [mapsTo_append_iff, mapsTo_cons_iff, mapsTo_before_iff, mapsTo_from_iff (by omega),
      maps_mk_iff]
    constructor
    · rintro (⟨inside, rfl⟩ | ⟨inside, rfl⟩ | ⟨inside, rfl⟩)
      · exact ⟨_, ⟨⟨inside.1, by simp only [Mapping.range, Extent.stop_mk]; omega⟩, rfl⟩,
          (if_neg (by omega)).symm⟩
      · refine ⟨_, ⟨⟨by simp only [Mapping.range]; omega,
          by simp only [Mapping.range, Extent.stop_mk]; omega⟩, rfl⟩, ?_⟩
        rw [Relocation.move, if_pos (by omega)]
        omega
      · exact ⟨_, ⟨⟨by simp only [Mapping.range]; omega, inside.2⟩, rfl⟩,
          (if_neg (by omega)).symm⟩
    · rintro ⟨old, ⟨⟨from_, to_⟩, rfl⟩, rfl⟩
      simp only [Mapping.range, Extent.stop_mk] at from_ to_
      rw [Relocation.move]
      split_ifs with moved
      · exact Or.inr (Or.inl (by omega))
      · rcases Nat.lt_or_gt_of_ne moved with before | behind
        · exact Or.inl (by omega)
        · exact Or.inr (Or.inr (by omega))
  · rcases members piece member with ⟨before, rfl⟩ | rfl | ⟨behind, rfl⟩
    · exact inOneChunk.part (Nat.sub_pos_of_lt before) le_rfl (by simp only; omega)
    · exact inOneChunk_one _ _ _
    · exact inOneChunk.part (by simp only; omega) (by simp only; omega) (by simp only; omega)

/-- A single cluster that is the whole mapping. -/
theorem remapWhole_single
    {state : Remap} {mapping : Mapping} (single : state.reloc.length = 1)
    (start : mapping.lcn = state.reloc.oldStart) (one : mapping.length = 1) :
    remapWhole state mapping = (state, remapMiddle state.reloc mapping) := by
  have whole : ¬ state.reloc.oldStart + state.reloc.length > mapping.lcn + mapping.length := by
    omega
  have kept : remapMiddle state.reloc mapping =
      [{ mapping with
          lcn := mapping.lcn - state.reloc.oldStart + state.reloc.newStart }] := by
    simp only [remapMiddle, if_neg (show ¬ mapping.lcn < state.reloc.oldStart by omega),
      List.nil_append]
    rw [if_neg (by omega)]
  rw [kept, remapWhole, if_neg (show ¬ state.reloc.oldStart < mapping.lcn by omega)]
  simp only [if_neg whole]

/-- A relocation of one cluster: only the mappings change, and each is replaced. -/
theorem remapOne_single
    {state : Remap} {mapping : Mapping} (single : state.reloc.length = 1)
    (positive : 0 < mapping.length) :
    (remapOne state mapping).1 = state ∧
      Replaces state.reloc.move mapping (remapOne state mapping).2 ∧
      ∀ clustersPerChunk, mapping.InOneChunk clustersPerChunk →
        ∀ piece ∈ (remapOne state mapping).2, piece.InOneChunk clustersPerChunk := by
  by_cases meets : mapping.lcn + mapping.length > state.reloc.oldStart ∧
      mapping.lcn < state.reloc.oldStart + state.reloc.length
  · have lower : mapping.lcn ≤ state.reloc.oldStart := by omega
    have shape : remapOne state mapping = (state, remapMiddle state.reloc mapping) := by
      rw [remapOne]
      simp only [if_pos meets]
      split_ifs with whole middle
      · exact remapWhole_single single (by omega) (by omega)
      · rfl
      · omega
      · omega
      · omega
    rw [shape]
    exact ⟨rfl, remapMiddle_replaces single lower meets.1⟩
  · have shape : remapOne state mapping = (state, [mapping]) := by
      rw [remapOne]
      simp only [if_neg meets]
    rw [shape]
    refine ⟨rfl, ⟨(replaces_self positive).tidy, (replaces_self positive).within,
      fun vcn lcn => ?_⟩, fun clustersPerChunk inOneChunk piece member => ?_⟩
    · rw [mapsTo_cons_iff, or_iff_left (not_mapsTo_nil _ _)]
      have still : ∀ old, mapping.Maps vcn old → state.reloc.move old = old := by
        rintro old ⟨⟨from_, to_⟩, rfl⟩
        simp only [Mapping.range, Extent.stop_mk] at from_ to_
        exact if_neg (by omega)
      constructor
      · intro maps
        exact ⟨lcn, maps, (still lcn maps).symm⟩
      · rintro ⟨old, maps, rfl⟩
        rw [still old maps]
        exact maps
    · rw [List.mem_singleton.mp member]
      exact inOneChunk

theorem remapAll_single
    {state : Remap} {mappings : List Mapping} (single : state.reloc.length = 1)
    (positive : ∀ mapping ∈ mappings, 0 < mapping.length) :
    remapAll state mappings =
      (state, mappings.flatMap fun mapping => (remapOne state mapping).2) := by
  induction mappings with
  | nil => rfl
  | cons mapping rest ih =>
    obtain ⟨first, later⟩ := List.forall_mem_cons.mp positive
    obtain ⟨same, -⟩ := remapOne_single single first
    rw [remapAll, same, ih later]
    rfl

/-! ## All relocations -/

/-- Mappings that are tidy and stay inside chunks. -/
structure ChunkMappings (clustersPerChunk : Nat) (mappings : List Mapping) : Prop where
  tidy : TidyMappings mappings
  inChunks : ∀ mapping ∈ mappings, mapping.InOneChunk clustersPerChunk

theorem TidyMappings.positive
    {mappings : List Mapping} (tidy : TidyMappings mappings) :
    ∀ mapping ∈ mappings, 0 < mapping.length :=
  fun mapping member => Tidy.positive tidy mapping.range (List.mem_map_of_mem member)

/-- Relocations of single clusters, none of which moves a copy, are applied one by one. -/
theorem remapLoop_single
    {clustersPerChunk : Nat} {relocs : List Relocation}
    (single : ∀ reloc ∈ relocs, reloc.length = 1)
    (stays : ∀ reloc ∈ relocs, ∀ other ∈ relocs, other.oldStart ≠ reloc.newStart)
    {turns : Nat} (enough : relocs.length ≤ turns) (done : List Relocation)
    {mappings : List Mapping} (chunkMappings : ChunkMappings clustersPerChunk mappings)
    (runs : Runs) :
    ∃ result,
      remapLoop turns done relocs mappings runs = some (done ++ relocs, result, runs) ∧
      ChunkMappings clustersPerChunk result ∧
      ∀ vcn lcn, MapsTo result vcn lcn ↔
        ∃ old, MapsTo mappings vcn old ∧ lcn = relocate relocs old := by
  induction relocs generalizing turns done mappings with
  | nil =>
    refine ⟨mappings, by simp [remapLoop], chunkMappings, fun vcn lcn => ?_⟩
    simp [relocate]
  | cons reloc rest ih =>
    obtain ⟨turns, rfl⟩ := Nat.exists_eq_succ_of_ne_zero
      (show turns ≠ 0 by simp at enough; omega)
    obtain ⟨first, later⟩ := List.forall_mem_cons.mp single
    let state : Remap := { reloc := reloc, added := [], runs := runs }
    have positive := chunkMappings.tidy.positive
    have one : ∀ mapping ∈ mappings,
        Replaces reloc.move mapping (remapOne state mapping).2 := fun mapping member =>
      (@remapOne_single state mapping first (positive mapping member)).2.1
    obtain ⟨tidy, maps⟩ := chunkMappings.tidy.flatMap one
    have inChunks : ∀ piece ∈ mappings.flatMap fun mapping => (remapOne state mapping).2,
        piece.InOneChunk clustersPerChunk := by
      intro piece member
      obtain ⟨mapping, mappingMember, inPieces⟩ := List.mem_flatMap.mp member
      exact (@remapOne_single state mapping first (positive mapping mappingMember)).2.2
        clustersPerChunk (chunkMappings.inChunks mapping mappingMember) piece inPieces
    obtain ⟨result, equal, resultMappings, resultMaps⟩ := ih later
      (fun other member third thirdMember =>
        stays other (List.mem_cons_of_mem _ member) third (List.mem_cons_of_mem _ thirdMember))
      (show rest.length ≤ turns by simpa using enough) (done ++ [reloc]) ⟨tidy, inChunks⟩
    refine ⟨result, ?_, resultMappings, fun vcn lcn => ?_⟩
    · rw [remapLoop, @remapAll_single state mappings first positive]
      simp only [state, List.append_nil] at equal ⊢
      rw [equal, List.append_assoc, List.singleton_append]
    · have moves := @relocate_cons reloc rest fun other member =>
        stays reloc List.mem_cons_self other (List.mem_cons_of_mem _ member)
      rw [resultMaps]
      simp only [maps, moves]
      constructor
      · rintro ⟨middle, ⟨old, source, rfl⟩, rfl⟩
        exact ⟨old, source, rfl⟩
      · rintro ⟨old, source, rfl⟩
        exact ⟨_, ⟨old, source, rfl⟩, rfl⟩

/-- The mappings without the holes. -/
def present (mappings : List Mapping) : List Mapping :=
  mappings.filter fun mapping => mapping.lcn ≠ 0

/-- The holes contribute nothing to the first loop. -/
theorem flatMap_avoidChunkBoundaries_present
    (clustersPerChunk : Nat) (mappings : List Mapping) :
    mappings.flatMap (avoidChunkBoundaries clustersPerChunk) =
      (present mappings).flatMap (avoidChunkBoundaries clustersPerChunk) := by
  induction mappings with
  | nil => rfl
  | cons mapping rest ih =>
    rw [List.flatMap_cons, ih]
    by_cases hole : mapping.lcn = 0
    · have skipped : present (mapping :: rest) = present rest :=
        List.filter_cons_of_neg (by simpa using hole)
      rw [skipped, avoidChunkBoundaries, if_pos hole, List.nil_append]
    · have kept : present (mapping :: rest) = mapping :: present rest :=
        List.filter_cons_of_pos (by simpa using hole)
      rw [kept, List.flatMap_cons]

theorem TidyMappings.present
    {mappings : List Mapping} (tidy : TidyMappings mappings) :
    TidyMappings (present mappings) := by
  refine ⟨fun range member => ?_, ?_⟩
  · obtain ⟨mapping, inPresent, rfl⟩ := List.mem_map.mp member
    exact tidy.positive mapping (List.mem_filter.mp inPresent).1
  · exact List.pairwise_map.mpr ((List.pairwise_map.mp tidy.ordered).filter _)

/--
The loops of `process_mappings` leave a list that takes every virtual cluster
with data to the place that its cluster has now; what remains is to give these
places to the file.
-/
theorem processMappings_adjusts
    {clustersPerChunk : Nat} (chunks : 0 < clustersPerChunk) {relocs : List Relocation}
    (single : ∀ reloc ∈ relocs, reloc.length = 1)
    (stays : ∀ reloc ∈ relocs, ∀ other ∈ relocs, other.oldStart ≠ reloc.newStart)
    {mappings : List Mapping} (tidy : TidyMappings mappings)
    {turns : Nat} (enough : relocs.length ≤ turns) (inode : Nat) (runs : Runs) :
    ∃ moved outcome,
      processMappings clustersPerChunk turns inode relocs mappings runs = some outcome ∧
      (∀ result finalRelocs finalRuns, outcome = .ok (result, finalRelocs, finalRuns) →
        result = moved ∧ finalRelocs = relocs) ∧
      ChunkMappings clustersPerChunk moved ∧
      ∀ vcn lcn, MapsTo moved vcn lcn ↔
        ∃ old, MapsTo (present mappings) vcn old ∧ lcn = relocate relocs old := by
  have pieces : ∀ mapping ∈ present mappings,
      Replaces id mapping (avoidChunkBoundaries clustersPerChunk mapping) ∧
        ∀ piece ∈ avoidChunkBoundaries clustersPerChunk mapping,
          piece.InOneChunk clustersPerChunk := by
    intro mapping member
    obtain ⟨inMappings, shown⟩ := List.mem_filter.mp member
    exact avoidChunkBoundaries_replaces chunks (by simpa using shown)
      (tidy.positive mapping inMappings)
  obtain ⟨cutTidy, cutMaps⟩ :=
    tidy.present.flatMap fun mapping member => (pieces mapping member).1
  have inChunks : ∀ piece ∈
      (present mappings).flatMap (avoidChunkBoundaries clustersPerChunk),
        piece.InOneChunk clustersPerChunk := by
    intro piece member
    obtain ⟨mapping, mappingMember, inPieces⟩ := List.mem_flatMap.mp member
    exact (pieces mapping mappingMember).2 piece inPieces
  obtain ⟨moved, equal, movedMappings, movedMaps⟩ :=
    remapLoop_single single stays enough [] ⟨cutTidy, inChunks⟩ runs
  rw [processMappings, flatMap_avoidChunkBoundaries_present, equal, List.nil_append]
  refine ⟨moved, _, rfl, fun result finalRelocs finalRuns returned => ?_, movedMappings,
    fun vcn lcn => ?_⟩
  · simp only [bind, Except.bind] at returned
    split at returned
    · cases returned
    · obtain ⟨rfl, rest⟩ := Prod.mk.inj (Except.ok.inj returned)
      exact ⟨rfl, (Prod.mk.inj rest).1.symm⟩
  · rw [movedMaps]
    simp only [cutMaps, id, exists_eq_right']

/--
Relocations of single clusters, none of which moves a copy: the mappings that
`process_mappings` leaves are those of the file without the holes, followed by
the relocation, and stay inside chunks.
-/
theorem processMappings_relocates
    {clustersPerChunk : Nat} (chunks : 0 < clustersPerChunk) {relocs : List Relocation}
    (single : ∀ reloc ∈ relocs, reloc.length = 1)
    (stays : ∀ reloc ∈ relocs, ∀ other ∈ relocs, other.oldStart ≠ reloc.newStart)
    {mappings : List Mapping} (tidy : TidyMappings mappings)
    {turns : Nat} (enough : relocs.length ≤ turns) (inode : Nat) (runs : Runs) :
    ∃ outcome,
      processMappings clustersPerChunk turns inode relocs mappings runs = some outcome ∧
      ∀ result finalRelocs finalRuns, outcome = .ok (result, finalRelocs, finalRuns) →
        finalRelocs = relocs ∧
        TidyMappings result ∧
        (∀ mapping ∈ result, mapping.InOneChunk clustersPerChunk) ∧
        ∀ vcn lcn, MapsTo result vcn lcn ↔
          ∃ old, MapsTo (present mappings) vcn old ∧ lcn = relocate relocs old := by
  obtain ⟨moved, outcome, equal, returns, movedMappings, movedMaps⟩ :=
    processMappings_adjusts chunks single stays tidy enough inode runs
  refine ⟨outcome, equal, fun result finalRelocs finalRuns returned => ?_⟩
  obtain ⟨rfl, rfl⟩ := returns result finalRelocs finalRuns returned
  exact ⟨rfl, movedMappings.tidy, movedMappings.inChunks, movedMaps⟩

/-- A mapping across a chunk boundary, a hole, and a mapping with a relocated cluster. -/
theorem processMappings_relocates_three_mappings :
    ∃ outcome,
      processMappings 32768 2 300 [⟨101, 1, 7⟩, ⟨32767, 1, 9⟩]
        [⟨32766, 0, 4⟩, ⟨0, 4, 2⟩, ⟨100, 6, 3⟩] SortedMap.empty = some outcome ∧
      ∀ result finalRelocs finalRuns, outcome = .ok (result, finalRelocs, finalRuns) →
        finalRelocs = [⟨101, 1, 7⟩, ⟨32767, 1, 9⟩] ∧
        TidyMappings result ∧
        (∀ mapping ∈ result, mapping.InOneChunk 32768) ∧
        ∀ vcn lcn, MapsTo result vcn lcn ↔
          ∃ old, MapsTo (present [⟨32766, 0, 4⟩, ⟨0, 4, 2⟩, ⟨100, 6, 3⟩]) vcn old ∧
            lcn = relocate [⟨101, 1, 7⟩, ⟨32767, 1, 9⟩] old :=
  processMappings_relocates (by decide) (by decide) (by decide)
    (by simp [tidyMappings_cons_iff, tidyMappings_nil]) (by decide) 300 SortedMap.empty

end Ntfs2Btrfs
