import Ntfs2Btrfs.BitmapScan
import Ntfs2Btrfs.Runs

/-!
# The runs of a volume

`parse_data_bitmap` turns the allocation bitmap into run lists, one for every
128 MiB, and `convert` then cuts off what lies past the end of the volume.  The
runs that are left cover the clusters in use that start on the volume.
-/

namespace Ntfs2Btrfs

open Extents
open BitRuns
open ByteStore

/-! ## Volumes -/

/-- A volume that `convert` admits, by its size in bytes and its clusters. -/
structure Volume where
  origDeviceSize : Nat
  cluster : ClusterSize
  large : reservedArea ≤ origDeviceSize - origDeviceSize % sectorSize
deriving DecidableEq

namespace Volume

variable (volume : Volume)

/-- The size without an incomplete last sector. -/
def deviceSize : Nat :=
  volume.origDeviceSize - volume.origDeviceSize % sectorSize

/-- `reloc_last_sector`: the last sector is incomplete. -/
def relocLastSector : Prop :=
  volume.origDeviceSize % sectorSize ≠ 0

instance : Decidable volume.relocLastSector :=
  inferInstanceAs (Decidable (_ ≠ _))

/-- The number of clusters in the 128 MiB of a run list. -/
def clustersPerChunk : Nat :=
  dataChunkSize / volume.cluster.bytes

theorem clustersPerChunk_pos : 0 < volume.clustersPerChunk :=
  volume.cluster.clusters_pos

theorem reservedArea_le_deviceSize : reservedArea ≤ volume.deviceSize :=
  volume.large

theorem deviceSize_le : volume.deviceSize ≤ volume.origDeviceSize :=
  Nat.sub_le _ _

theorem sectorSize_dvd_deviceSize : sectorSize ∣ volume.deviceSize :=
  Nat.dvd_sub_mod volume.origDeviceSize

theorem origDeviceSize_lt : volume.origDeviceSize < volume.deviceSize + sectorSize := by
  have small := Nat.mod_lt volume.origDeviceSize (by decide : 0 < sectorSize)
  rw [deviceSize]
  omega

/-- A cluster that ends past the last whole sector ends past the volume. -/
theorem origDeviceSize_lt_of_lt
    {cluster : Nat} (past : volume.deviceSize < cluster * volume.cluster.bytes) :
    volume.origDeviceSize < cluster * volume.cluster.bytes := by
  have aligned : sectorSize ∣ cluster * volume.cluster.bytes :=
    Dvd.dvd.mul_left volume.cluster.sectorSize_dvd cluster
  obtain ⟨sectors, sectorsEq⟩ := volume.sectorSize_dvd_deviceSize
  obtain ⟨others, othersEq⟩ := aligned
  have small := volume.origDeviceSize_lt
  rw [sectorsEq] at past small
  rw [othersEq] at past ⊢
  have more : sectors + 1 ≤ others := Nat.lt_of_mul_lt_mul_left past
  calc
    volume.origDeviceSize < sectorSize * sectors + sectorSize := small
    _ = sectorSize * (sectors + 1) := by rw [Nat.mul_succ]
    _ ≤ sectorSize * others := Nat.mul_le_mul_left sectorSize more

end Volume

/-! ## The code -/

/-- The run list of a chunk with a run appended. -/
def Runs.push (runs : Runs) (chunk offset length : Nat) : Runs :=
  runs.assign chunk (runs.list chunk ++ [{ offset := offset, length := length }])

/-- `add_run` of `parse_data_bitmap`, with a bound on the number of turns. -/
def addRun (clustersPerChunk : Nat) : Nat → Runs → Nat → Nat → Runs
  | 0, runs, _, _ => runs
  | turns + 1, runs, runStart, pos =>
      let chunk := runStart / clustersPerChunk
      if pos / clustersPerChunk ≠ chunk then
        let len := clustersPerChunk - runStart % clustersPerChunk
        if pos = runStart + len then runs.push chunk runStart len
        else
          addRun clustersPerChunk turns (runs.push chunk runStart len)
            (runStart + len) pos
      else runs.push chunk runStart (pos - runStart)

/-- `parse_data_bitmap`. -/
def parseDataBitmap (clustersPerChunk : Nat) (bitmap : Bytes) : Runs :=
  scanBitmap
    (fun runs run => addRun clustersPerChunk run.length runs run.offset run.stop)
    SortedMap.empty bitmap

/-- Remove the last run of a list, and the list when it gets empty. -/
def Runs.popBack (runs : Runs) (chunk : Nat) : Runs :=
  if (runs.list chunk).dropLast = [] then runs.erase chunk
  else runs.assign chunk (runs.list chunk).dropLast

/--
The loop of `convert` that makes sure that runs do not go beyond the end of the
device, with a bound on the number of turns.
-/
def trimRuns (volume : Volume) : Nat → Runs → Runs
  | 0, runs => runs
  | turns + 1, runs =>
      match runs.entries.getLast? with
      | none => runs
      | some (chunk, runList) =>
          match runList.getLast? with
          | none => runs
          | some last =>
              let clusterSize := volume.cluster.bytes
              if last.offset * clusterSize + last.length * clusterSize >
                  volume.deviceSize then
                if last.offset * clusterSize ≥ volume.origDeviceSize then
                  trimRuns volume turns (runs.popBack chunk)
                else
                  let len := volume.origDeviceSize - last.offset * clusterSize
                  let length :=
                    if len % clusterSize ≠ 0 then len / clusterSize + 1
                    else len / clusterSize
                  runs.assign chunk
                    (runList.dropLast ++ [{ last with length := length }])
              else runs

/-- The runs of a volume before clusters are protected. -/
def volumeRuns (volume : Volume) (bitmap : Bytes) : Runs :=
  let runs := parseDataBitmap volume.clustersPerChunk bitmap
  trimRuns volume runs.all.length runs

/-! ## The runs of the bitmap -/

/-- The run is made of a bitmap: no file owns it, and it was not relocated. -/
def DataAlloc.Plain (run : DataAlloc) : Prop :=
  run = { offset := run.offset, length := run.length }

instance (run : DataAlloc) : Decidable run.Plain :=
  inferInstanceAs (Decidable (_ = _))

/-- Some run covers the cluster. -/
def Runs.Covers (runs : Runs) (cluster : Nat) : Prop :=
  ∃ run ∈ runs.all, run.extent.Contains cluster

instance (runs : Runs) (cluster : Nat) : Decidable (runs.Covers cluster) :=
  inferInstanceAs (Decidable (∃ run ∈ runs.all, run.extent.Contains cluster))

/-- Run lists as the bitmap gives them: tidy, none of them empty, owned by nobody. -/
structure Runs.FromBitmap (clustersPerChunk : Nat) (runs : Runs) : Prop where
  wellFormed : runs.WellFormed clustersPerChunk
  nonempty : ∀ entry ∈ runs.entries, entry.2 ≠ []
  plain : ∀ run ∈ runs.all, run.Plain

/-- The runs read so far end at the position or before it. -/
structure ReadUntil (clustersPerChunk : Nat) (runs : Runs) (position : Nat) : Prop
    extends Runs.FromBitmap clustersPerChunk runs where
  before : ∀ run ∈ runs.all, run.stop ≤ position

theorem Runs.mem_all_push
    {runs : Runs} {chunk offset length : Nat} {run : DataAlloc} :
    run ∈ (runs.push chunk offset length).all ↔
      run ∈ runs.all ∨ run = { offset := offset, length := length } := by
  rw [Runs.mem_all_iff, Runs.mem_all_iff, Runs.push]
  constructor
  · rintro ⟨other, member⟩
    rw [Runs.list_assign] at member
    split_ifs at member with same
    · rcases List.mem_append.mp member with old | new
      · exact Or.inl ⟨chunk, old⟩
      · exact Or.inr (List.mem_singleton.mp new)
    · exact Or.inl ⟨other, member⟩
  · rintro (⟨other, member⟩ | rfl)
    · refine ⟨other, ?_⟩
      rw [Runs.list_assign]
      split_ifs with same
      · exact List.mem_append_left _ (same ▸ member)
      · exact member
    · refine ⟨chunk, ?_⟩
      rw [Runs.list_assign, if_pos rfl]
      exact List.mem_append_right _ (List.mem_singleton_self _)

theorem Runs.covers_push
    {runs : Runs} {chunk offset length cluster : Nat} :
    (runs.push chunk offset length).Covers cluster ↔
      runs.Covers cluster ∨ offset ≤ cluster ∧ cluster < offset + length := by
  constructor
  · rintro ⟨run, member, inside⟩
    rcases Runs.mem_all_push.mp member with old | rfl
    · exact Or.inl ⟨run, old, inside⟩
    · exact Or.inr inside
  · rintro (⟨run, member, inside⟩ | inside)
    · exact ⟨run, Runs.mem_all_push.mpr (Or.inl member), inside⟩
    · exact ⟨_, Runs.mem_all_push.mpr (Or.inr rfl), inside⟩

theorem ReadUntil.push
    {clustersPerChunk : Nat} {runs : Runs} {position : Nat}
    (read : ReadUntil clustersPerChunk runs position)
    {chunk offset length : Nat} (after : position ≤ offset) (positive : 0 < length)
    (lower : chunk * clustersPerChunk ≤ offset)
    (upper : offset + length ≤ (chunk + 1) * clustersPerChunk) :
    ReadUntil clustersPerChunk (runs.push chunk offset length) (offset + length) := by
  have lists := Runs.wellFormed_iff.mp read.wellFormed chunk
  refine ⟨⟨?_, ?_, ?_⟩, ?_⟩
  · refine read.wellFormed.assign ?_ ?_
    · rw [tidyRuns_append_iff]
      refine ⟨lists.1, (tidyRuns_cons_iff _ _).mpr ⟨positive, by simp, tidyRuns_nil⟩, ?_⟩
      intro first member second single
      rw [List.mem_singleton.mp single]
      exact (read.before first (Runs.mem_all_iff.mpr ⟨chunk, member⟩)).trans after
    · intro run member
      rcases List.mem_append.mp member with old | new
      · exact lists.2 run old
      · rw [List.mem_singleton.mp new]
        exact ⟨lower, upper⟩
  · intro entry member
    rcases SortedMap.mem_assign_iff.mp member with rfl | ⟨old, -⟩
    · simp
    · exact read.nonempty entry old
  · intro run member
    rcases Runs.mem_all_push.mp member with old | rfl
    · exact read.plain run old
    · rfl
  · intro run member
    rcases Runs.mem_all_push.mp member with old | rfl
    · have bound := read.before run old
      omega
    · exact le_rfl

/-- A run of clusters is cut at the chunk boundaries, and nothing else changes. -/
theorem addRun_spec
    {clustersPerChunk : Nat} (chunks : 0 < clustersPerChunk) (turns : Nat) :
    ∀ {runs : Runs} {start stop : Nat},
      ReadUntil clustersPerChunk runs start → start < stop → stop - start ≤ turns →
        ReadUntil clustersPerChunk (addRun clustersPerChunk turns runs start stop) stop ∧
          ∀ cluster, (addRun clustersPerChunk turns runs start stop).Covers cluster ↔
            runs.Covers cluster ∨ start ≤ cluster ∧ cluster < stop := by
  induction turns with
  | zero =>
    intro runs start stop _ ordered enough
    omega
  | succ turns ih =>
    intro runs start stop read ordered enough
    have lower := Nat.div_mul_le_self start clustersPerChunk
    have split := Nat.div_add_mod start clustersPerChunk
    have small := Nat.mod_lt start chunks
    rw [Nat.mul_comm] at split
    have upper :
        start + (clustersPerChunk - start % clustersPerChunk) =
          (start / clustersPerChunk + 1) * clustersPerChunk := by
      rw [Nat.succ_mul]
      omega
    rw [addRun]
    dsimp only
    split_ifs with crosses exact_
    · rw [exact_]
      exact ⟨read.push le_rfl (by omega) lower upper.le, fun cluster => Runs.covers_push⟩
    · have beyond : start + (clustersPerChunk - start % clustersPerChunk) < stop := by
        have later : start / clustersPerChunk < stop / clustersPerChunk :=
          lt_of_le_of_ne (Nat.div_le_div_right ordered.le) (Ne.symm crosses)
        have reached := Nat.mul_le_mul_right clustersPerChunk (Nat.succ_le_of_lt later)
        have stopFloor := Nat.div_mul_le_self stop clustersPerChunk
        exact lt_of_le_of_ne (upper.le.trans (reached.trans stopFloor)) (Ne.symm exact_)
      obtain ⟨finished, covers⟩ :=
        ih (read.push le_rfl (by omega) lower upper.le) beyond (by omega)
      refine ⟨finished, fun cluster => (covers cluster).trans ?_⟩
      rw [Runs.covers_push, or_assoc]
      refine or_congr_right ?_
      omega
    · have sameChunk : stop / clustersPerChunk = start / clustersPerChunk :=
        not_not.mp crosses
      have stopUpper : stop < (start / clustersPerChunk + 1) * clustersPerChunk := by
        rw [← sameChunk]
        exact (Nat.div_lt_iff_lt_mul chunks).mp (Nat.lt_succ_self _)
      have stopEq : start + (stop - start) = stop := by omega
      have pushed := read.push (le_refl start) (by omega) lower
        (show start + (stop - start) ≤ _ by omega)
      rw [stopEq] at pushed
      refine ⟨pushed, fun cluster => ?_⟩
      rw [Runs.covers_push, stopEq]

theorem readUntil_empty (clustersPerChunk : Nat) :
    ReadUntil clustersPerChunk SortedMap.empty 0 :=
  ⟨⟨⟨fun _ member => absurd member List.not_mem_nil,
      fun _ member => absurd member List.not_mem_nil⟩,
      fun _ member => absurd member List.not_mem_nil,
      fun _ member => absurd member List.not_mem_nil⟩,
    fun _ member => absurd member List.not_mem_nil⟩

theorem foldl_addRun_spec
    {clustersPerChunk : Nat} (chunks : 0 < clustersPerChunk) (extents : List Extent) :
    ∀ {runs : Runs} {position : Nat}, ReadUntil clustersPerChunk runs position →
      Tidy extents → (∀ extent ∈ extents, position ≤ extent.offset) →
        let final := extents.foldl
          (fun runs run =>
            addRun clustersPerChunk run.length runs run.offset run.stop) runs
        final.FromBitmap clustersPerChunk ∧
          ∀ cluster, final.Covers cluster ↔
            runs.Covers cluster ∨ Extents.Covers extents cluster := by
  induction extents with
  | nil =>
    intro runs position read _ _
    exact ⟨read.toFromBitmap, fun cluster => by simp⟩
  | cons extent rest ih =>
    intro runs position read tidy after
    obtain ⟨positive, later, restTidy⟩ := (tidy_cons_iff extent rest).mp tidy
    have start : ReadUntil clustersPerChunk runs extent.offset :=
      ⟨read.toFromBitmap, fun run member =>
        (read.before run member).trans (after extent List.mem_cons_self)⟩
    have ordered : extent.offset < extent.stop := Nat.lt_add_of_pos_right positive
    obtain ⟨added, covers⟩ := addRun_spec chunks extent.length start ordered
      (Nat.add_sub_cancel_left extent.offset extent.length).le
    obtain ⟨final, finalCovers⟩ := ih added restTidy later
    refine ⟨final, fun cluster => ?_⟩
    rw [List.foldl_cons, finalCovers, covers, covers_cons, or_assoc]
    rfl

/-- The run lists of a bitmap cover the set bits that the loop sees. -/
theorem parseDataBitmap_spec
    {clustersPerChunk : Nat} (chunks : 0 < clustersPerChunk) (bitmap : Bytes) :
    (parseDataBitmap clustersPerChunk bitmap).FromBitmap clustersPerChunk ∧
      ∀ cluster, (parseDataBitmap clustersPerChunk bitmap).Covers cluster ↔
        Marked (scannedBits bitmap) cluster := by
  rw [parseDataBitmap, scanBitmap_eq]
  obtain ⟨fromBitmap, covers⟩ :=
    foldl_addRun_spec chunks (runs (scannedBits bitmap))
      (readUntil_empty clustersPerChunk) (runs_separated _).tidy
      (fun _ _ => Nat.zero_le _)
  refine ⟨fromBitmap, fun cluster => (covers cluster).trans ?_⟩
  rw [covers_runs_iff]
  refine or_iff_right ?_
  rintro ⟨run, member, -⟩
  exact List.not_mem_nil member

/-! ## Runs past the end of the volume -/

theorem Runs.list_popBack (runs : Runs) (chunk other : Nat) :
    (runs.popBack chunk).list other =
      if other = chunk then (runs.list chunk).dropLast else runs.list other := by
  rw [Runs.popBack]
  split_ifs with empty same same
  · rw [Runs.list_erase, if_pos same, empty]
  · rw [Runs.list_erase, if_neg same]
  · rw [Runs.list_assign, if_pos same]
  · rw [Runs.list_assign, if_neg same]

theorem Runs.length_all_popBack
    {runs : Runs} {chunk : Nat} (present : runs.list chunk ≠ []) :
    (runs.popBack chunk).all.length + 1 = runs.all.length := by
  have old := (runs.all_perm chunk).length_eq
  have positive := List.length_pos_iff.mpr present
  have shorter : (runs.list chunk).dropLast.length = (runs.list chunk).length - 1 :=
    List.length_dropLast
  rw [List.length_append] at old
  rw [Runs.popBack]
  split_ifs with empty
  · rw [empty] at shorter
    simp only [List.length_nil] at shorter
    omega
  · have new := (runs.all_assign_perm chunk (runs.list chunk).dropLast).length_eq
    rw [List.length_append] at new
    omega

/-- The last run of a device, and the runs before it. -/
structure LastRun
    (runs : Runs) (chunk : Nat) (runList : List DataAlloc) (last : DataAlloc) : Prop where
  listEq : runs.list chunk = runList
  split : runList = runList.dropLast ++ [last]
  before : ∀ run ∈ (runs.popBack chunk).all, run.stop ≤ last.offset

theorem Runs.FromBitmap.lastRun
    {clustersPerChunk : Nat} {runs : Runs} (fromBitmap : runs.FromBitmap clustersPerChunk)
    {chunk : Nat} {runList : List DataAlloc} {last : DataAlloc}
    (entry : runs.entries.getLast? = some (chunk, runList))
    (found : runList.getLast? = some last) :
    LastRun runs chunk runList last := by
  have entryMember : (chunk, runList) ∈ runs.entries := List.mem_of_getLast? entry
  have listEq : runs.list chunk = runList := Runs.list_eq_of_mem entryMember
  have split : runList = runList.dropLast ++ [last] := by
    have nonempty : runList ≠ [] := fromBitmap.nonempty _ entryMember
    rw [List.getLast?_eq_getLast_of_ne_nil nonempty] at found
    rw [← Option.some.inj found, List.dropLast_append_getLast]
  have lists := Runs.wellFormed_iff.mp fromBitmap.wellFormed
  have lastMember : last ∈ runs.list chunk := by
    rw [listEq, split]
    exact List.mem_append_right _ (List.mem_singleton_self _)
  refine ⟨listEq, split, fun run member => ?_⟩
  obtain ⟨other, member⟩ := Runs.mem_all_iff.mp member
  rw [Runs.list_popBack] at member
  split_ifs at member with same
  · have tidy := (lists chunk).1
    rw [listEq] at member tidy
    rw [split, tidyRuns_append_iff] at tidy
    exact tidy.2.2 run member last (List.mem_singleton_self _)
  · obtain ⟨entry', entryMember', rfl, -⟩ := Runs.mem_list_iff.mp member
    have earlier : entry'.1 < chunk := by
      obtain ⟨front, shape⟩ := List.getLast?_eq_some_iff.mp entry
      have sorted := runs.sorted
      rw [shape] at sorted entryMember'
      rcases List.mem_append.mp entryMember' with inFront | single
      · exact (List.pairwise_append.mp sorted).2.2 _ inFront _
          (List.mem_singleton_self _)
      · exact absurd (congrArg Prod.fst (List.mem_singleton.mp single)) same
    have runUpper := ((lists entry'.1).2 run member).2
    have lastLower := ((lists chunk).2 last lastMember).1
    exact runUpper.trans
      ((Nat.mul_le_mul_right clustersPerChunk (Nat.succ_le_of_lt earlier)).trans lastLower)

theorem LastRun.mem_all_iff
    {runs : Runs} {chunk : Nat} {runList : List DataAlloc} {last : DataAlloc}
    (lastRun : LastRun runs chunk runList last) {run : DataAlloc} :
    run ∈ runs.all ↔ run ∈ (runs.popBack chunk).all ∨ run = last := by
  rw [Runs.mem_all_iff, Runs.mem_all_iff]
  constructor
  · rintro ⟨other, member⟩
    by_cases same : other = chunk
    · rw [same, lastRun.listEq, lastRun.split] at member
      rcases List.mem_append.mp member with front | single
      · refine Or.inl ⟨chunk, ?_⟩
        rw [Runs.list_popBack, if_pos rfl, lastRun.listEq]
        exact front
      · exact Or.inr (List.mem_singleton.mp single)
    · refine Or.inl ⟨other, ?_⟩
      rw [Runs.list_popBack, if_neg same]
      exact member
  · rintro (⟨other, member⟩ | rfl)
    · rw [Runs.list_popBack] at member
      split_ifs at member with same
      · exact ⟨chunk, List.mem_of_mem_dropLast member⟩
      · exact ⟨other, member⟩
    · refine ⟨chunk, ?_⟩
      rw [lastRun.listEq, lastRun.split]
      exact List.mem_append_right _ (List.mem_singleton_self _)

theorem LastRun.tidy
    {clustersPerChunk : Nat} {runs : Runs} (fromBitmap : runs.FromBitmap clustersPerChunk)
    {chunk : Nat} {runList : List DataAlloc} {last : DataAlloc}
    (lastRun : LastRun runs chunk runList last) :
    TidyRuns runList.dropLast ∧ 0 < last.length ∧
      (∀ run ∈ runList.dropLast, run.stop ≤ last.offset) ∧
      ∀ run ∈ runList, chunk * clustersPerChunk ≤ run.offset ∧
        run.stop ≤ (chunk + 1) * clustersPerChunk := by
  have lists := Runs.wellFormed_iff.mp fromBitmap.wellFormed chunk
  rw [lastRun.listEq] at lists
  obtain ⟨tidy, inChunk⟩ := lists
  rw [lastRun.split, tidyRuns_append_iff, tidyRuns_cons_iff] at tidy
  exact ⟨tidy.1, tidy.2.1.1,
    fun run member => tidy.2.2 run member last (List.mem_singleton_self _), inChunk⟩

theorem LastRun.popBack
    {clustersPerChunk : Nat} {runs : Runs} (fromBitmap : runs.FromBitmap clustersPerChunk)
    {chunk : Nat} {runList : List DataAlloc} {last : DataAlloc}
    (lastRun : LastRun runs chunk runList last) :
    (runs.popBack chunk).FromBitmap clustersPerChunk := by
  obtain ⟨tidy, -, -, inChunk⟩ := lastRun.tidy fromBitmap
  refine ⟨Runs.wellFormed_iff.mpr fun other => ?_, fun entry member => ?_,
    fun run member => fromBitmap.plain run (lastRun.mem_all_iff.mpr (Or.inl member))⟩
  · rw [Runs.list_popBack, lastRun.listEq]
    split_ifs with same
    · exact ⟨tidy, fun run member => same ▸ inChunk run (List.mem_of_mem_dropLast member)⟩
    · exact Runs.wellFormed_iff.mp fromBitmap.wellFormed other
  · rw [Runs.popBack] at member
    split_ifs at member with empty
    · exact fromBitmap.nonempty entry (SortedMap.mem_erase_iff.mp member).1
    · rcases SortedMap.mem_assign_iff.mp member with rfl | ⟨old, -⟩
      · exact empty
      · exact fromBitmap.nonempty entry old

/-- Shortening the last run keeps the invariant. -/
theorem LastRun.shorten
    {clustersPerChunk : Nat} {runs : Runs} (fromBitmap : runs.FromBitmap clustersPerChunk)
    {chunk : Nat} {runList : List DataAlloc} {last : DataAlloc}
    (lastRun : LastRun runs chunk runList last)
    {length : Nat} (positive : 0 < length) (shorter : length ≤ last.length) :
    let next : Runs :=
      runs.assign chunk (runList.dropLast ++ [{ last with length := length }])
    next.FromBitmap clustersPerChunk ∧
      ∀ run, run ∈ next.all ↔
        run ∈ (runs.popBack chunk).all ∨ run = { last with length := length } := by
  obtain ⟨tidy, -, before, inChunk⟩ := lastRun.tidy fromBitmap
  have lastMember : last ∈ runList := by
    rw [lastRun.split]
    exact List.mem_append_right _ (List.mem_singleton_self _)
  have lastPlain : last.Plain := fromBitmap.plain last (lastRun.mem_all_iff.mpr (Or.inr rfl))
  have members (run : DataAlloc) :
      run ∈ Runs.all
          (runs.assign chunk (runList.dropLast ++ [{ last with length := length }])) ↔
        run ∈ (runs.popBack chunk).all ∨ run = { last with length := length } := by
    rw [Runs.mem_all_iff, Runs.mem_all_iff]
    simp only [Runs.list_assign, Runs.list_popBack, lastRun.listEq]
    constructor
    · rintro ⟨other, member⟩
      split_ifs at member with same
      · rcases List.mem_append.mp member with front | single
        · exact Or.inl ⟨chunk, by rw [if_pos rfl]; exact front⟩
        · exact Or.inr (List.mem_singleton.mp single)
      · exact Or.inl ⟨other, by rw [if_neg same]; exact member⟩
    · rintro (⟨other, member⟩ | rfl)
      · refine ⟨other, ?_⟩
        split_ifs at member ⊢
        · exact List.mem_append_left _ member
        · exact member
      · refine ⟨chunk, ?_⟩
        rw [if_pos rfl]
        exact List.mem_append_right _ (List.mem_singleton_self _)
  refine ⟨⟨fromBitmap.wellFormed.assign ?_ ?_, ?_, ?_⟩, members⟩
  · rw [tidyRuns_append_iff]
    refine ⟨tidy, (tidyRuns_cons_iff _ _).mpr ⟨positive, by simp, tidyRuns_nil⟩, ?_⟩
    intro first member second single
    rw [List.mem_singleton.mp single]
    exact before first member
  · intro run member
    rcases List.mem_append.mp member with front | single
    · exact inChunk run (List.mem_of_mem_dropLast front)
    · rw [List.mem_singleton.mp single]
      obtain ⟨lower, upper⟩ := inChunk last lastMember
      refine ⟨lower, ?_⟩
      simp only [DataAlloc.stop] at upper ⊢
      omega
  · intro entry member
    rcases SortedMap.mem_assign_iff.mp member with rfl | ⟨old, -⟩
    · simp
    · exact fromBitmap.nonempty entry old
  · intro run member
    rcases (members run).mp member with old | rfl
    · exact fromBitmap.plain run (lastRun.mem_all_iff.mpr (Or.inl old))
    · rw [DataAlloc.Plain] at lastPlain ⊢
      rw [lastPlain]

/-- The number of clusters that start in a number of bytes. -/
theorem lt_ceil_iff {clusterSize : Nat} (positive : 0 < clusterSize) (len count : Nat) :
    count < (if len % clusterSize ≠ 0 then len / clusterSize + 1
        else len / clusterSize) ↔
      count * clusterSize < len := by
  have split := Nat.div_add_mod len clusterSize
  have small := Nat.mod_lt len positive
  rw [Nat.mul_comm] at split
  split_ifs with partial_
  · rw [Nat.lt_succ_iff, Nat.le_div_iff_mul_le positive]
    constructor
    · intro le
      refine lt_of_le_of_ne le fun equal => partial_ ?_
      rw [← equal, Nat.mul_mod_left]
    · exact Nat.le_of_lt
  · have whole : len % clusterSize = 0 := not_not.mp partial_
    rw [Nat.lt_div_iff_mul_lt' (Nat.dvd_of_mod_eq_zero whole), Nat.mul_comm]

theorem LastRun.covers_iff
    {runs : Runs} {chunk : Nat} {runList : List DataAlloc} {last : DataAlloc}
    (lastRun : LastRun runs chunk runList last) (cluster : Nat) :
    runs.Covers cluster ↔
      (runs.popBack chunk).Covers cluster ∨ last.extent.Contains cluster := by
  constructor
  · rintro ⟨run, member, inside⟩
    rcases lastRun.mem_all_iff.mp member with old | rfl
    · exact Or.inl ⟨run, old, inside⟩
    · exact Or.inr inside
  · rintro (⟨run, member, inside⟩ | inside)
    · exact ⟨run, lastRun.mem_all_iff.mpr (Or.inl member), inside⟩
    · exact ⟨last, lastRun.mem_all_iff.mpr (Or.inr rfl), inside⟩

/-- The last run is shortened to the clusters that start in a number of bytes. -/
theorem LastRun.shorten_covers
    {clustersPerChunk : Nat} {runs : Runs} (fromBitmap : runs.FromBitmap clustersPerChunk)
    {chunk : Nat} {runList : List DataAlloc} {last : DataAlloc}
    (lastRun : LastRun runs chunk runList last)
    {clusterSize size length : Nat}
    (starts : last.offset * clusterSize < size) (ends : size < last.stop * clusterSize)
    (ceil : ∀ count, count < length ↔
      count * clusterSize < size - last.offset * clusterSize) :
    let next : Runs :=
      runs.assign chunk (runList.dropLast ++ [{ last with length := length }])
    next.FromBitmap clustersPerChunk ∧
      ∀ cluster, next.Covers cluster ↔
        runs.Covers cluster ∧ cluster * clusterSize < size := by
  have inside (cluster : Nat) (after : last.offset ≤ cluster) :
      cluster < last.offset + length ↔ cluster * clusterSize < size := by
    have counted := ceil (cluster - last.offset)
    rw [Nat.sub_mul] at counted
    have bytes := Nat.mul_le_mul_right clusterSize after
    omega
  have positive : 0 < length := (ceil 0).mpr (by omega)
  have shorter : length ≤ last.length := by
    by_contra longer
    have stopInside := (inside last.stop (Nat.le_add_right _ _)).mp
      (Nat.add_lt_add_left (Nat.lt_of_not_le longer) _)
    omega
  obtain ⟨shortened, members⟩ := lastRun.shorten fromBitmap positive shorter
  refine ⟨shortened, fun cluster => ?_⟩
  rw [lastRun.covers_iff]
  constructor
  · rintro ⟨run, member, lower, upper⟩
    rcases (members run).mp member with old | rfl
    · refine ⟨Or.inl ⟨run, old, lower, upper⟩, ?_⟩
      have ordered := lastRun.before run old
      have before : cluster ≤ last.offset := (Nat.le_of_lt upper).trans ordered
      exact lt_of_le_of_lt (Nat.mul_le_mul_right clusterSize before) starts
    · have upper' : cluster < last.offset + length := upper
      refine ⟨Or.inr ⟨lower, ?_⟩, (inside cluster lower).mp upper'⟩
      exact lt_of_lt_of_le upper' (Nat.add_le_add_left shorter _)
  · rintro ⟨⟨run, old, covered⟩ | ⟨lower, -⟩, small⟩
    · exact ⟨run, (members run).mpr (Or.inl old), covered⟩
    · exact ⟨_, (members _).mpr (Or.inr rfl), lower, (inside cluster lower).mpr small⟩

/-- After the loop exactly the clusters that start on the volume are covered. -/
theorem trimRuns_spec (volume : Volume) (turns : Nat) :
    ∀ {runs : Runs}, runs.FromBitmap volume.clustersPerChunk →
      runs.all.length ≤ turns →
        (trimRuns volume turns runs).FromBitmap volume.clustersPerChunk ∧
          ∀ cluster, (trimRuns volume turns runs).Covers cluster ↔
            runs.Covers cluster ∧
              cluster * volume.cluster.bytes < volume.origDeviceSize := by
  have positive := volume.cluster.bytes_pos
  induction turns with
  | zero =>
    intro runs fromBitmap few
    refine ⟨fromBitmap, fun cluster => (iff_self_and.mpr ?_)⟩
    rintro ⟨run, member, -⟩
    change run ∈ runs.all at member
    rw [List.length_eq_zero_iff.mp (Nat.le_zero.mp few)] at member
    exact absurd member List.not_mem_nil
  | succ turns ih =>
    intro runs fromBitmap few
    cases entry : runs.entries.getLast? with
    | none =>
      rw [trimRuns, entry]
      refine ⟨fromBitmap, fun cluster => (iff_self_and.mpr ?_)⟩
      rintro ⟨run, member, -⟩
      rw [Runs.all, List.getLast?_eq_none_iff.mp entry] at member
      exact absurd member List.not_mem_nil
    | some pair =>
      obtain ⟨chunk, runList⟩ := pair
      cases found : runList.getLast? with
      | none =>
        exact absurd (List.getLast?_eq_none_iff.mp found)
          (fromBitmap.nonempty _ (List.mem_of_getLast? entry))
      | some last =>
        have lastRun := fromBitmap.lastRun entry found
        rw [trimRuns, entry]
        simp only [found, ← Nat.add_mul]
        by_cases long :
            (last.offset + last.length) * volume.cluster.bytes > volume.deviceSize
        · rw [if_pos long]
          by_cases outside :
              last.offset * volume.cluster.bytes ≥ volume.origDeviceSize
          · -- the last run starts past the volume and is removed
            rw [if_pos outside]
            have present : runs.list chunk ≠ [] := by
              rw [lastRun.listEq, lastRun.split]
              simp
            have fewer := Runs.length_all_popBack present
            obtain ⟨trimmed, covers⟩ := ih (lastRun.popBack fromBitmap) (by omega)
            refine ⟨trimmed, fun cluster => ?_⟩
            rw [covers, lastRun.covers_iff, or_and_right]
            refine (or_iff_left ?_).symm
            rintro ⟨⟨lower, -⟩, inside⟩
            exact absurd (outside.trans (Nat.mul_le_mul_right _ lower))
              (Nat.not_le_of_lt inside)
          · rw [if_neg outside]
            exact lastRun.shorten_covers fromBitmap (Nat.lt_of_not_le outside)
              (volume.origDeviceSize_lt_of_lt long) (lt_ceil_iff positive _)
        · rw [if_neg long]
          refine ⟨fromBitmap, fun cluster => (iff_self_and.mpr fun covered => ?_)⟩
          have before : cluster < last.stop := by
            rcases (lastRun.covers_iff cluster).mp covered with ⟨run, member, inside⟩ | inside
            · have ordered := lastRun.before run member
              have upper : cluster < run.stop := inside.2
              exact lt_of_lt_of_le upper (ordered.trans (Nat.le_add_right _ _))
            · exact inside.2
          have bound := Nat.mul_le_mul_right volume.cluster.bytes (Nat.succ_le_of_lt before)
          rw [Nat.succ_mul] at bound
          have short : last.stop * volume.cluster.bytes ≤ volume.deviceSize :=
            Nat.le_of_not_lt long
          have size := volume.deviceSize_le
          omega

/--
The run lists with which the conversion starts cover the clusters that start on
the volume and are in use as far as the loop over the bitmap sees.
-/
theorem volumeRuns_spec (volume : Volume) (bitmap : Bytes) :
    (volumeRuns volume bitmap).FromBitmap volume.clustersPerChunk ∧
      ∀ cluster, (volumeRuns volume bitmap).Covers cluster ↔
        Marked (scannedBits bitmap) cluster ∧
          cluster * volume.cluster.bytes < volume.origDeviceSize := by
  obtain ⟨fromBitmap, covers⟩ :=
    parseDataBitmap_spec volume.clustersPerChunk_pos bitmap
  obtain ⟨trimmed, trimmedCovers⟩ := trimRuns_spec volume _ fromBitmap le_rfl
  refine ⟨trimmed, fun cluster => ?_⟩
  rw [volumeRuns, trimmedCovers, covers]

end Ntfs2Btrfs
