import Ntfs2Btrfs.ProcessMappings
import Ntfs2Btrfs.RunLists

/-!
# The end of the valid data

A file whose valid data ends before its size reads as zero from there on.
`add_inode` gives up the clusters past the one in which the valid data ends, and
zeroes in place the rest of the sector in which it ends.  The sector is found in
the last mapping that is left.

That is the right one exactly when the cluster in which the valid data ends is
not in a hole.  A hole there has been dropped by `process_mappings`, and comes
back only as a sparse mapping of the end of the file, whose clusters count from
the start of the device.

Sizes and cluster numbers are those of a volume, so that the sums of the source
do not overflow.
-/

namespace Ntfs2Btrfs

open Extents
open ByteStore

/-! ## The code -/

/-- What happens to the sector in which the valid data ends. -/
inductive SectorZeroing where
  | none
  | sector (address : Nat)
  /-- The last element of an empty list is taken. -/
  | noMapping
deriving DecidableEq, Repr

/-- The sparse mapping that is appended up to the end of the file. -/
def appendTail (clusterSize allocSize : Nat) (mappings : List Mapping) : List Mapping :=
  match mappings.getLast? with
  | none => mappings
  | some last =>
      if last.vcn + last.length < allocSize / clusterSize then
        mappings ++
          [⟨0, last.vcn + last.length, allocSize / clusterSize - last.vcn - last.length⟩]
      else mappings

/-- The loop that gives up whole clusters, over the mappings from the last one on. -/
def trimLoop (clusterSize allocVdl : Nat) : List Mapping → Nat → List Mapping × Nat
  | [], allocSize => ([], if allocVdl < allocSize then allocVdl else allocSize)
  | m :: rest, allocSize =>
      if allocVdl < allocSize then
        if m.length * clusterSize > allocSize - allocVdl then
          let sub := (allocSize - allocVdl) / clusterSize
          if sub > 0 then
            ({ m with length := m.length - sub } :: rest, allocSize - sub * clusterSize)
          else (m :: rest, allocSize)
        else trimLoop clusterSize allocVdl rest (allocSize - m.length * clusterSize)
      else (m :: rest, allocSize)

/-- The block of `add_inode` for a file whose valid data ends before its size. -/
def endValidData (clusterSize vdl fileSize : Nat) (mappings : List Mapping) :
    List Mapping × SectorZeroing :=
  if vdl < fileSize then
    let allocSize := sectorAlign fileSize clusterSize
    let allocVdl := sectorAlign vdl clusterSize
    let trimmed :=
      trimLoop clusterSize allocVdl (appendTail clusterSize allocSize mappings).reverse allocSize
    let mappings := trimmed.1.reverse
    -- zero end of final sector if necessary
    if vdl < trimmed.2 then
      match mappings.getLast? with
      | none => (mappings, .noMapping)
      | some last =>
          let lastClusterStart := (last.lcn + last.length - 1) * clusterSize
          let sectorInCluster := vdl % clusterSize / sectorSize * sectorSize
          (mappings, .sector (lastClusterStart + sectorInCluster))
    else (mappings, .none)
  else (mappings, .none)

/-- What `add_inode` leaves of the mappings of a file. -/
structure PlacedFile where
  mappings : List Mapping
  zeroing : SectorZeroing
  relocs : List Relocation
  runs : Runs

/-- `add_inode` for a file with mappings, up to its extents. -/
def placeFile
    (cluster : ClusterSize) (turns inode vdl fileSize : Nat) (relocs : List Relocation)
    (mappings : List Mapping) (runs : Runs) : Option (Except ConvertError PlacedFile) :=
  if mappings = [] then some (.ok ⟨[], .none, relocs, runs⟩)
  else
    (processMappings (dataChunkSize / cluster.bytes) turns inode relocs mappings runs).map
      fun outcome => outcome.map fun processed =>
        let ended := endValidData cluster.bytes vdl fileSize processed.1
        ⟨ended.1, ended.2, processed.2.1, processed.2.2⟩

/-- The rest of the sector from `vdl` on is zeroed. -/
def zeroSectorEnd (device : Store) (vdl address : Nat) : Store :=
  let sector := device.read address sectorSize
  device.write address
    (patch sector (vdl % sectorSize) (List.replicate (sectorSize - vdl % sectorSize) 0))

/-! ## Giving up clusters -/

section Trim

variable {clusterSize : Nat} (positive : 0 < clusterSize)

/-- The loop ends at once where no cluster has to be given up. -/
theorem trimLoop_of_le
    {allocVdl allocSize : Nat} (done : allocSize ≤ allocVdl) (mappings : List Mapping) :
    trimLoop clusterSize allocVdl mappings allocSize = (mappings, allocSize) := by
  cases mappings with
  | nil => rw [trimLoop, if_neg (Nat.not_lt.mpr done)]
  | cons m rest => rw [trimLoop, if_neg (Nat.not_lt.mpr done)]

include positive

/-- A last mapping that is longer than what has to be given up is shortened. -/
theorem trimLoop_shorten
    {valid all : Nat} (more : valid < all) {m : Mapping} (longer : all - valid < m.length)
    (rest : List Mapping) :
    trimLoop clusterSize (valid * clusterSize) (m :: rest) (all * clusterSize) =
      ({ m with length := m.length - (all - valid) } :: rest, valid * clusterSize) := by
  have ordered : valid * clusterSize < all * clusterSize :=
    Nat.mul_lt_mul_of_pos_right more positive
  have difference : all * clusterSize - valid * clusterSize = (all - valid) * clusterSize :=
    (Nat.sub_mul all valid clusterSize).symm
  have remaining : all * clusterSize - (all - valid) * clusterSize = valid * clusterSize := by
    rw [← Nat.sub_mul, Nat.sub_sub_self more.le]
  rw [trimLoop, if_pos ordered, difference,
    if_pos (Nat.mul_lt_mul_of_pos_right longer positive)]
  simp only [Nat.mul_div_cancel _ positive]
  rw [if_pos (Nat.sub_pos_of_lt more), remaining]

/-- A last mapping of just that length is dropped. -/
theorem trimLoop_drop
    {valid all : Nat} (more : valid < all) {m : Mapping} (same : m.length = all - valid)
    (rest : List Mapping) :
    trimLoop clusterSize (valid * clusterSize) (m :: rest) (all * clusterSize) =
      (rest, valid * clusterSize) := by
  have ordered : valid * clusterSize < all * clusterSize :=
    Nat.mul_lt_mul_of_pos_right more positive
  have difference : all * clusterSize - valid * clusterSize = (all - valid) * clusterSize :=
    (Nat.sub_mul all valid clusterSize).symm
  have remaining : all * clusterSize - (all - valid) * clusterSize = valid * clusterSize := by
    rw [← Nat.sub_mul, Nat.sub_sub_self more.le]
  rw [trimLoop, if_pos ordered, difference, same, if_neg (lt_irrefl _), remaining,
    trimLoop_of_le le_rfl]

end Trim

theorem appendTail_concat
    (clusterSize allocSize : Nat) (front : List Mapping) (last : Mapping) :
    appendTail clusterSize allocSize (front ++ [last]) =
      if last.vcn + last.length < allocSize / clusterSize then
        front ++ [last] ++
          [⟨0, last.vcn + last.length, allocSize / clusterSize - last.vcn - last.length⟩]
      else front ++ [last] := by
  rw [appendTail, List.getLast?_append_of_ne_nil _ (List.cons_ne_nil _ _)]
  rfl

/-- The number of clusters that a size takes. -/
def ClusterSize.clustersOf (cluster : ClusterSize) (size : Nat) : Nat :=
  (size + cluster.bytes - 1) / cluster.bytes

/-- The sparse mapping that is left behind the mappings of a file. -/
def sparseTail (dataEnd valid : Nat) : List Mapping :=
  if dataEnd < valid then [⟨0, dataEnd, valid - dataEnd⟩] else []

section End

variable {cluster : ClusterSize} {vdl fileSize : Nat}

theorem ClusterSize.clustersOf_mono {small large : Nat} (ordered : small ≤ large) :
    cluster.clustersOf small ≤ cluster.clustersOf large :=
  Nat.div_le_div_right (by omega)

/-- A size that fills no whole number of clusters ends in the last of them. -/
theorem ClusterSize.clustersOf_of_not_dvd (part : ¬ cluster.bytes ∣ vdl) :
    cluster.clustersOf vdl = vdl / cluster.bytes + 1 := by
  have positive := cluster.bytes_pos
  have remainder : 0 < vdl % cluster.bytes :=
    Nat.pos_of_ne_zero fun zero => part (Nat.dvd_of_mod_eq_zero zero)
  have upper := Nat.mod_lt vdl positive
  have parts := Nat.div_add_mod vdl cluster.bytes
  rw [ClusterSize.clustersOf]
  refine Nat.div_eq_of_lt_le ?_ ?_
  · rw [Nat.succ_mul, Nat.mul_comm]
    omega
  · rw [Nat.succ_mul, Nat.succ_mul, Nat.mul_comm]
    omega

theorem ClusterSize.lt_clustersOf_mul_iff :
    vdl < cluster.clustersOf vdl * cluster.bytes ↔ ¬ cluster.bytes ∣ vdl := by
  have positive := cluster.bytes_pos
  constructor
  · rintro less ⟨count, rfl⟩
    rw [ClusterSize.clustersOf, Nat.add_sub_assoc positive, Nat.mul_add_div positive,
      Nat.div_eq_of_lt (Nat.sub_lt positive Nat.one_pos), Nat.add_zero, Nat.mul_comm] at less
    exact lt_irrefl _ less
  · intro part
    rw [ClusterSize.clustersOf_of_not_dvd part, Nat.mul_comm]
    exact Nat.lt_mul_div_succ vdl positive

/-- Without mappings there is nothing that could be zeroed. -/
theorem endValidData_nil (short : vdl < fileSize) :
    endValidData cluster.bytes vdl fileSize [] =
      ([], if cluster.bytes ∣ vdl then .none else .noMapping) := by
  have ends : (trimLoop cluster.bytes (sectorAlign vdl cluster.bytes) []
      (sectorAlign fileSize cluster.bytes)).2 = sectorAlign vdl cluster.bytes := by
    have ordered : sectorAlign vdl cluster.bytes ≤ sectorAlign fileSize cluster.bytes :=
      Nat.mul_le_mul_right _ (ClusterSize.clustersOf_mono short.le)
    rw [trimLoop]
    split_ifs with more
    · rfl
    · exact Nat.le_antisymm (Nat.not_lt.mp more) ordered
  have decides : vdl < sectorAlign vdl cluster.bytes ↔ ¬ cluster.bytes ∣ vdl :=
    ClusterSize.lt_clustersOf_mul_iff
  rw [endValidData, if_pos short]
  simp only [appendTail, List.getLast?_nil, List.reverse_nil, ends]
  by_cases whole : cluster.bytes ∣ vdl
  · rw [if_neg (mt decides.mp (not_not.mpr whole)), if_pos whole]
    rfl
  · rw [if_pos (decides.mpr whole), if_neg whole]
    rfl

/--
Mappings within the valid data stay as they are, with a sparse mapping for what
is missing to its end; the sector is sought in the last of them.
-/
theorem endValidData_concat
    (short : vdl < fileSize) {front : List Mapping} {last : Mapping}
    (within : last.vcn + last.length ≤ cluster.clustersOf vdl) :
    endValidData cluster.bytes vdl fileSize (front ++ [last]) =
      (front ++ [last] ++ sparseTail (last.vcn + last.length) (cluster.clustersOf vdl),
        if cluster.bytes ∣ vdl then .none
        else
          .sector
            ((if last.vcn + last.length < cluster.clustersOf vdl then
                cluster.clustersOf vdl - (last.vcn + last.length) - 1
              else last.lcn + last.length - 1) * cluster.bytes +
              vdl % cluster.bytes / sectorSize * sectorSize)) := by
  have positive := cluster.bytes_pos
  have ordered : cluster.clustersOf vdl ≤ cluster.clustersOf fileSize :=
    ClusterSize.clustersOf_mono short.le
  have trimmed : trimLoop cluster.bytes (sectorAlign vdl cluster.bytes)
      (appendTail cluster.bytes (sectorAlign fileSize cluster.bytes) (front ++ [last])).reverse
      (sectorAlign fileSize cluster.bytes) =
        ((front ++ [last] ++
          sparseTail (last.vcn + last.length) (cluster.clustersOf vdl)).reverse,
          sectorAlign vdl cluster.bytes) := by
    change trimLoop cluster.bytes (cluster.clustersOf vdl * cluster.bytes)
      (appendTail cluster.bytes (cluster.clustersOf fileSize * cluster.bytes)
        (front ++ [last])).reverse (cluster.clustersOf fileSize * cluster.bytes) =
          (_, cluster.clustersOf vdl * cluster.bytes)
    rw [appendTail_concat, Nat.mul_div_cancel _ positive, sparseTail]
    generalize cluster.clustersOf vdl = valid at within ordered
    generalize cluster.clustersOf fileSize = all at ordered
    rcases ordered.lt_or_eq with more | rfl
    · rw [if_pos (by omega), List.reverse_append, List.reverse_singleton, List.singleton_append]
      by_cases missing : last.vcn + last.length < valid
      · rw [trimLoop_shorten positive more (by simp only; omega), if_pos missing]
        have left : all - last.vcn - last.length - (all - valid) =
            valid - (last.vcn + last.length) := by
          omega
        simp only [left, List.reverse_append, List.reverse_cons, List.reverse_nil,
          List.nil_append, List.singleton_append]
      · rw [trimLoop_drop positive more (by simp only; omega), if_neg missing, List.append_nil]
    · rw [trimLoop_of_le le_rfl]
      split_ifs
      · rw [Nat.sub_sub]
      · rw [List.append_nil]
  have decides : vdl < sectorAlign vdl cluster.bytes ↔ ¬ cluster.bytes ∣ vdl :=
    ClusterSize.lt_clustersOf_mul_iff
  rw [endValidData, if_pos short]
  simp only [trimmed, List.reverse_reverse]
  by_cases whole : cluster.bytes ∣ vdl
  · rw [if_neg (mt decides.mp (not_not.mpr whole)), if_pos whole]
  · rw [if_pos (decides.mpr whole), if_neg whole, sparseTail]
    split_ifs with missing
    · rw [List.getLast?_append_of_ne_nil _ (List.cons_ne_nil _ _)]
      simp only [List.getLast?_singleton, Nat.zero_add]
    · rw [List.append_nil, List.getLast?_append_of_ne_nil _ (List.cons_ne_nil _ _)]
      simp only [List.getLast?_singleton]

end End

/-! ## Where the sector is -/

/-- The last mapping of a tidy list holds the last virtual cluster with data. -/
theorem TidyMappings.last
    {front : List Mapping} {last : Mapping} (tidy : TidyMappings (front ++ [last])) :
    (∀ vcn lcn, MapsTo (front ++ [last]) vcn lcn → vcn < last.vcn + last.length) ∧
      MapsTo (front ++ [last]) (last.vcn + last.length - 1) (last.lcn + last.length - 1) := by
  rcases (tidyMappings_append_iff front [last]).mp tidy with ⟨_, lastTidy, ordered⟩
  have positive := ((tidyMappings_cons_iff last []).mp lastTidy).1
  constructor
  · rintro vcn lcn ⟨mapping, member, ⟨lower, upper⟩, -⟩
    change mapping.vcn ≤ vcn at lower
    change vcn < mapping.vcn + mapping.length at upper
    rcases List.mem_append.mp member with inFront | isLast
    · have before := ordered mapping inFront last (List.mem_singleton_self _)
      omega
    · rw [List.mem_singleton.mp isLast] at upper
      exact upper
  · refine ⟨last, List.mem_append_right _ (List.mem_singleton_self _), ⟨?_, ?_⟩, ?_⟩
    · change last.vcn ≤ last.vcn + last.length - 1
      omega
    · change last.vcn + last.length - 1 < last.vcn + last.length
      omega
    · omega

section Zeroing

variable {cluster : ClusterSize} {vdl fileSize : Nat} (short : vdl < fileSize)
  {mappings : List Mapping}
  (within : ∀ mapping ∈ mappings, mapping.vcn + mapping.length ≤ cluster.clustersOf vdl)
include short within

/-- Nothing is zeroed exactly when the valid data fills its clusters. -/
theorem endValidData_eq_none_iff :
    (endValidData cluster.bytes vdl fileSize mappings).2 = .none ↔ cluster.bytes ∣ vdl := by
  rcases List.eq_nil_or_concat' mappings with rfl | ⟨front, last, rfl⟩
  · rw [endValidData_nil short]
    simp only
    split_ifs with whole
    · exact iff_of_true rfl whole
    · exact iff_of_false not_false whole
  · rw [endValidData_concat short
      (within last (List.mem_append_right _ (List.mem_singleton_self _)))]
    simp only
    split_ifs with whole
    · exact iff_of_true rfl whole
    · exact iff_of_false not_false whole

/-- Where the valid data ends in a cluster of the file, its sector there is zeroed. -/
theorem endValidData_of_mapsTo
    (tidy : TidyMappings mappings) (part : ¬ cluster.bytes ∣ vdl) {lcn : Nat}
    (maps : MapsTo mappings (vdl / cluster.bytes) lcn) :
    endValidData cluster.bytes vdl fileSize mappings =
      (mappings,
        .sector (lcn * cluster.bytes + vdl % cluster.bytes / sectorSize * sectorSize)) := by
  rcases List.eq_nil_or_concat' mappings with rfl | ⟨front, last, rfl⟩
  · rcases maps with ⟨_, member, _⟩
    exact absurd member List.not_mem_nil
  · have bound := within last (List.mem_append_right _ (List.mem_singleton_self _))
    have count := ClusterSize.clustersOf_of_not_dvd part
    rcases tidy.last with ⟨before, holds⟩
    have last_cluster := before _ _ maps
    have ends : last.vcn + last.length = vdl / cluster.bytes + 1 := by
      omega
    rw [ends, Nat.add_sub_cancel] at holds
    rw [endValidData_concat short bound, sparseTail, if_neg part, ends, count,
      if_neg (lt_irrefl _), if_neg (lt_irrefl _), List.append_nil,
      tidy.functional maps holds]

end Zeroing

/--
What is zeroed is in the sector of the byte at `vdl`, in the cluster that the
file has for that byte.
-/
def ZeroesOwnSector
    (cluster : ClusterSize) (vdl : Nat) (relocs : List Relocation) (mappings : List Mapping) :
    SectorZeroing → Prop
  | .none => True
  | .noMapping => False
  | .sector address =>
      ∃ old, MapsTo (present mappings) (vdl / cluster.bytes) old ∧
        (relocate relocs old * cluster.bytes ≤ address ∧
          address + sectorSize ≤ (relocate relocs old + 1) * cluster.bytes) ∧
        address ≤ relocate relocs old * cluster.bytes + vdl % cluster.bytes ∧
          relocate relocs old * cluster.bytes + vdl % cluster.bytes < address + sectorSize

/-- The sector of a byte lies in its cluster. -/
theorem sector_in_cluster (cluster : ClusterSize) (vdl : Nat) :
    vdl % cluster.bytes / sectorSize * sectorSize + sectorSize ≤ cluster.bytes ∧
      vdl % cluster.bytes / sectorSize * sectorSize ≤ vdl % cluster.bytes ∧
        vdl % cluster.bytes < vdl % cluster.bytes / sectorSize * sectorSize + sectorSize := by
  have inside := Nat.mod_lt vdl cluster.bytes_pos
  rcases cluster.sectorSize_dvd with ⟨sectors, equal⟩
  have sectorsPositive : 0 < sectorSize := by decide
  have before : vdl % cluster.bytes / sectorSize < sectors :=
    Nat.div_lt_of_lt_mul (equal ▸ inside)
  refine ⟨?_, Nat.div_mul_le_self _ _, ?_⟩
  · rw [← Nat.succ_mul]
    calc
      _ ≤ sectors * sectorSize := Nat.mul_le_mul_right _ before
      _ = cluster.bytes := by rw [equal, Nat.mul_comm]
  · exact Nat.lt_div_mul_add sectorsPositive

/-- The list that is read for a stored file is tidy and ends with its valid data. -/
theorem clipMappings_absoluteMappings_cut (last vcn : Nat) (runs : List NtfsRun) :
    TidyMappings (clipMappings last (absoluteMappings vcn runs)) ∧
      ∀ mapping ∈ clipMappings last (absoluteMappings vcn runs),
        vcn ≤ mapping.vcn ∧ mapping.vcn + mapping.length ≤ last := by
  induction runs generalizing vcn with
  | nil => exact ⟨tidyMappings_nil, fun _ member => absurd member List.not_mem_nil⟩
  | cons run rest ih =>
      by_cases before : vcn < last
      · rcases ih (vcn + run.length) with ⟨restTidy, restCut⟩
        have positive := run.positive
        rw [clipMappings_absoluteMappings_cons before]
        constructor
        · refine (tidyMappings_cons_iff _ _).mpr ⟨?_, fun next member => ?_, restTidy⟩
          · simp only
            omega
          · have behind := (restCut next member).1
            simp only
            omega
        · intro mapping member
          rcases List.mem_cons.mp member with rfl | inRest
          · simp only
            omega
          · have behind := restCut mapping inRest
            omega
      · rw [clipMappings_absoluteMappings_of_le (Nat.not_lt.mp before)]
        exact ⟨tidyMappings_nil, fun _ member => absurd member List.not_mem_nil⟩

section Place

variable {cluster : ClusterSize} {relocs : List Relocation}
  (single : ∀ reloc ∈ relocs, reloc.length = 1)
  (stays : ∀ reloc ∈ relocs, ∀ other ∈ relocs, other.oldStart ≠ reloc.newStart)
  {mappings : List Mapping} (tidy : TidyMappings mappings) {vdl fileSize turns : Nat}
  (cut : ∀ mapping ∈ mappings, mapping.vcn + mapping.length ≤ cluster.clustersOf vdl)
  (enough : relocs.length ≤ turns)
include single stays tidy cut enough

/--
A file with mappings is placed by adjusting them, which keeps them within the
valid data, and ending them there.
-/
theorem placeFile_adjusts (nonempty : mappings ≠ []) (inode : Nat) (runs : Runs) :
    ∃ moved outcome,
      placeFile cluster turns inode vdl fileSize relocs mappings runs = some outcome ∧
      (∀ placed, outcome = .ok placed →
        (placed.mappings, placed.zeroing) = endValidData cluster.bytes vdl fileSize moved) ∧
      TidyMappings moved ∧
      (∀ mapping ∈ moved, mapping.vcn + mapping.length ≤ cluster.clustersOf vdl) ∧
      ∀ vcn lcn, MapsTo moved vcn lcn ↔
        ∃ old, MapsTo (present mappings) vcn old ∧ lcn = relocate relocs old := by
  have chunks : 0 < dataChunkSize / cluster.bytes :=
    Nat.div_pos (cluster.bytes_le.trans (by decide)) cluster.bytes_pos
  rcases processMappings_adjusts chunks single stays tidy enough inode runs with
    ⟨moved, processed, equal, returns, movedMappings, maps⟩
  refine ⟨moved, _, by rw [placeFile, if_neg nonempty, equal]; rfl, fun placed returned => ?_,
    movedMappings.tidy, fun mapping member => ?_, maps⟩
  · cases processed with
    | error error => cases returned
    | ok triple =>
        rcases triple with ⟨result, finalRelocs, finalRuns⟩
        rcases returns result finalRelocs finalRuns rfl with ⟨rfl, _⟩
        cases returned
        rfl
  · have positive := movedMappings.tidy.positive mapping member
    have last : MapsTo moved (mapping.vcn + mapping.length - 1)
        (mapping.lcn + (mapping.vcn + mapping.length - 1 - mapping.vcn)) := by
      refine ⟨mapping, member, ⟨?_, ?_⟩, rfl⟩
      · change mapping.vcn ≤ mapping.vcn + mapping.length - 1
        omega
      · change mapping.vcn + mapping.length - 1 < mapping.vcn + mapping.length
        omega
    rcases (maps _ _).mp last with ⟨old, ⟨source, sourceMember, ⟨_, before⟩, _⟩, _⟩
    change mapping.vcn + mapping.length - 1 < source.vcn + source.length at before
    have bound := cut source (List.mem_of_mem_filter sourceMember)
    omega

end Place

/-! ## Three files -/

/-- The mappings that are read for a stored file, up to the end of its valid data. -/
def readMappingsOf (cluster : ClusterSize) (vdl : Nat) (runs : List NtfsRun) : List Mapping :=
  clipMappings (cluster.clustersOf vdl) (absoluteMappings 0 runs)

theorem readMappingsOf_cut (cluster : ClusterSize) (vdl : Nat) (runs : List NtfsRun) :
    TidyMappings (readMappingsOf cluster vdl runs) ∧
      ∀ mapping ∈ readMappingsOf cluster vdl runs,
        mapping.vcn + mapping.length ≤ cluster.clustersOf vdl := by
  rcases clipMappings_absoluteMappings_cut (cluster.clustersOf vdl) 0 runs with ⟨tidy, cut⟩
  exact ⟨tidy, fun mapping member => (cut mapping member).2⟩

/-- Clusters of one sector. -/
def sectorCluster : ClusterSize :=
  ⟨12, by decide, by decide⟩

theorem addressed_hundred : ∀ start ∈ some 100, 0 < start ∧ start < 2 ^ 52 := by
  decide

theorem addressed_none : ∀ start ∈ (none : Option Nat), 0 < start ∧ start < 2 ^ 52 := by
  intro start found
  cases found

/-- Four clusters. -/
def fourStored : NtfsRun :=
  ⟨4, some 100, by decide, by decide, addressed_hundred⟩

/-- A hole of four clusters. -/
def fourMissing : NtfsRun :=
  ⟨4, none, by decide, by decide, addressed_none⟩

/-- What is zeroed for a stored file. -/
def zeroingOf (vdl fileSize : Nat) (relocs : List Relocation) (runs : List NtfsRun) :
    Option (Option SectorZeroing) :=
  (placeFile sectorCluster relocs.length 300 vdl fileSize relocs
    (readMappingsOf sectorCluster vdl runs) SortedMap.empty).map fun outcome =>
      outcome.toOption.map PlacedFile.zeroing

end Ntfs2Btrfs
