import Ntfs2Btrfs.FileExtents
import Ntfs2Btrfs.ValidData

/-!
# The contents of a file that stays in place

`add_inode` describes the clusters of a file by one extent for each mapping
that `process_mappings` and the end of the valid data leave.  Reading the file
through these extents gives what NTFS gives for it, for every content of the
device, as long as the sector that is zeroed holds no other valid byte of the
file, and the file does not go on behind that sector in the same cluster.
-/

namespace Ntfs2Btrfs

open Extents
open ByteStore

/-! ## The code -/

/-- The extent of a mapping, by its place in the file. -/
def mappedExtent (cluster : ClusterSize) (m : Mapping) : Nat × FileExtentItem :=
  (m.vcn * cluster.bytes,
    { generation := 1
      ramBytes := m.length * cluster.bytes
      compression := compressionNone
      encryption := 0
      otherEncoding := 0
      type := extentReg
      diskBytenr := m.lcn * cluster.bytes + chunkVirtOffset
      diskNumBytes := m.length * cluster.bytes
      offset := 0
      numBytes := m.length * cluster.bytes })

/-- The loop over the mappings that adds the `EXTENT_DATA` items. -/
def mappedExtents (cluster : ClusterSize) (mappings : List Mapping) :
    List (Nat × FileExtentItem) :=
  mappings.filterMap fun m =>
    -- not sparse
    if m.lcn ≠ 0 then some (mappedExtent cluster m) else none

/-- The device after the sector was zeroed; `none` where that is undefined. -/
def afterZeroing (device : Store) (vdl : Nat) : SectorZeroing → Option Store
  | .none => some device
  | .sector address => some (zeroSectorEnd device vdl address)
  | .noMapping => none

/-! ## Reading a file -/

/-- The byte that Btrfs reads at an offset of a file; a gap reads as zero. -/
def btrfsByte (device : Store) (extents : List (Nat × FileExtentItem)) (offset : Nat) : UInt8 :=
  match extents.find? fun extent =>
      extent.1 ≤ offset ∧ offset < extent.1 + extent.2.numBytes with
  | some extent =>
      device (extent.2.diskBytenr - chunkVirtOffset + extent.2.offset + (offset - extent.1))
  | none => 0

/-- The cluster of a virtual cluster. -/
def clusterOf (mappings : List Mapping) (vcn : Nat) : Option Nat :=
  (mappings.find? fun m => m.vcn ≤ vcn ∧ vcn < m.vcn + m.length).map fun m =>
    m.lcn + (vcn - m.vcn)

/-- The byte at an offset of a file whose virtual clusters are where they are said to be. -/
def byteAt (device : Store) (cluster : ClusterSize) (place : Nat → Option Nat) (offset : Nat) :
    UInt8 :=
  match place (offset / cluster.bytes) with
  | some lcn => device (lcn * cluster.bytes + offset % cluster.bytes)
  | none => 0

/-- The byte that NTFS reads at an offset of a file: zero in a hole and behind the valid data. -/
def ntfsByte
    (device : Store) (cluster : ClusterSize) (mappings : List Mapping) (vdl offset : Nat) : UInt8 :=
  if offset < vdl then byteAt device cluster (clusterOf (present mappings)) offset else 0

/-- The clusters that were relocated have been copied. -/
def CopiesMade (cluster : ClusterSize) (relocs : List Relocation) (device : Store) : Prop :=
  ∀ reloc ∈ relocs, ∀ index < cluster.bytes,
    device (reloc.newStart * cluster.bytes + index) =
      device (reloc.oldStart * cluster.bytes + index)

/-- The file reads under Btrfs as it reads under NTFS. -/
def SameContents
    (cluster : ClusterSize) (mappings : List Mapping) (vdl fileSize : Nat) (placed : PlacedFile)
    (device : Store) : Prop :=
  ∃ result, afterZeroing device vdl placed.zeroing = some result ∧
    ∀ offset < fileSize,
      btrfsByte result (mappedExtents cluster placed.mappings) offset =
        ntfsByte device cluster mappings vdl offset

/-! ## The clusters of a file -/

theorem clusterOf_cons (m : Mapping) (rest : List Mapping) (vcn : Nat) :
    clusterOf (m :: rest) vcn =
      if m.vcn ≤ vcn ∧ vcn < m.vcn + m.length then some (m.lcn + (vcn - m.vcn))
      else clusterOf rest vcn := by
  rw [clusterOf, List.find?_cons]
  by_cases inside : m.vcn ≤ vcn ∧ vcn < m.vcn + m.length
  · simp only [inside, and_self, decide_true, if_true, Option.map_some]
  · rw [if_neg inside]
    simp only [inside, decide_false]
    rfl

/-- In a tidy list the cluster found is the one that the list maps to. -/
theorem clusterOf_eq_some_iff
    {mappings : List Mapping} (tidy : TidyMappings mappings) (vcn lcn : Nat) :
    clusterOf mappings vcn = some lcn ↔ MapsTo mappings vcn lcn := by
  have found_maps {other : Nat} (found : clusterOf mappings vcn = some other) :
      MapsTo mappings vcn other := by
    rcases Option.map_eq_some_iff.mp found with ⟨m, isFound, rfl⟩
    have inside := List.find?_some isFound
    rw [decide_eq_true_eq] at inside
    exact ⟨m, List.mem_of_find?_eq_some isFound, inside, rfl⟩
  refine ⟨found_maps, fun maps => ?_⟩
  cases found : clusterOf mappings vcn with
  | some other => rw [tidy.functional (found_maps found) maps]
  | none =>
      rcases maps with ⟨m, member, inside, _⟩
      have missing := List.find?_eq_none.mp (Option.map_eq_none_iff.mp found) m member
      rw [decide_eq_true_eq] at missing
      exact absurd inside missing

/-- The sparse mapping behind the data has no extent. -/
theorem mappedExtents_append_sparseTail
    (mappings : List Mapping) (dataEnd valid : Nat) (cluster : ClusterSize) :
    mappedExtents cluster (mappings ++ sparseTail dataEnd valid) =
      mappedExtents cluster mappings := by
  have none_left : mappedExtents cluster (sparseTail dataEnd valid) = [] := by
    rw [sparseTail]
    split_ifs
    · rfl
    · rfl
  rw [mappedExtents, List.filterMap_append]
  change _ ++ mappedExtents cluster (sparseTail dataEnd valid) = _
  rw [none_left, List.append_nil]
  rfl

/-- An extent covers the bytes of the clusters of its mapping. -/
theorem offset_in_clusters_iff (cluster : ClusterSize) (vcn length offset : Nat) :
    vcn * cluster.bytes ≤ offset ∧ offset < vcn * cluster.bytes + length * cluster.bytes ↔
      vcn ≤ offset / cluster.bytes ∧ offset / cluster.bytes < vcn + length := by
  have positive := cluster.bytes_pos
  rw [Nat.le_div_iff_mul_le positive, Nat.div_lt_iff_lt_mul positive, Nat.add_mul]

theorem mappedExtents_cons
    (cluster : ClusterSize) {m : Mapping} (shown : m.lcn ≠ 0) (rest : List Mapping) :
    mappedExtents cluster (m :: rest) = mappedExtent cluster m :: mappedExtents cluster rest := by
  rw [mappedExtents, List.filterMap_cons, if_pos shown]
  rfl

/-- Reading through the extents finds the clusters of the mappings. -/
theorem btrfsByte_mappedExtents
    (device : Store) (cluster : ClusterSize) {mappings : List Mapping}
    (addressed : ∀ m ∈ mappings, m.lcn ≠ 0) (offset : Nat) :
    btrfsByte device (mappedExtents cluster mappings) offset =
      byteAt device cluster (clusterOf mappings) offset := by
  induction mappings with
  | nil => rfl
  | cons m rest ih =>
      have restAddressed : ∀ other ∈ rest, other.lcn ≠ 0 := fun other member =>
        addressed other (List.mem_cons_of_mem m member)
      have step := ih restAddressed
      have shown := addressed m List.mem_cons_self
      have covers : (mappedExtent cluster m).1 ≤ offset ∧
          offset < (mappedExtent cluster m).1 + (mappedExtent cluster m).2.numBytes ↔
            m.vcn ≤ offset / cluster.bytes ∧ offset / cluster.bytes < m.vcn + m.length :=
        offset_in_clusters_iff cluster m.vcn m.length offset
      rw [btrfsByte, byteAt, clusterOf_cons, mappedExtents_cons cluster shown, List.find?_cons]
      by_cases inside : m.vcn ≤ offset / cluster.bytes ∧
          offset / cluster.bytes < m.vcn + m.length
      · rw [if_pos inside]
        have parts := Nat.div_add_mod' offset cluster.bytes
        have lower := Nat.mul_le_mul_right cluster.bytes inside.1
        simp only [covers.mpr inside, and_self, decide_true]
        simp only [mappedExtent, Nat.add_sub_cancel, Nat.add_zero]
        rw [Nat.add_mul, Nat.sub_mul]
        congr 1
        omega
      · rw [if_neg inside]
        simp only [mt covers.mp inside, decide_false]
        exact step

/-! ## The sector that is zeroed -/

/-- The bytes of the sector from `vdl` on are zero afterwards, and no others change. -/
theorem zeroSectorEnd_apply (device : Store) (vdl sector address : Nat) :
    zeroSectorEnd device vdl sector address =
      if sector + vdl % sectorSize ≤ address ∧ address < sector + sectorSize then 0
      else device address := by
  have part : vdl % sectorSize < sectorSize := Nat.mod_lt _ (by decide)
  have length := Store.length_read device sector sectorSize
  have inside : vdl % sectorSize +
      (List.replicate (sectorSize - vdl % sectorSize) (0 : UInt8)).length ≤
        (device.read sector sectorSize).length := by
    rw [length, List.length_replicate]
    omega
  have index := getElem?_patch inside (address - sector)
  rw [zeroSectorEnd, Store.write, List.getD_eq_getElem?_getD, index, List.length_replicate,
    Store.getElem?_read]
  by_cases before : sector ≤ address
  · rw [if_pos before]
    by_cases zeroed : sector + vdl % sectorSize ≤ address ∧ address < sector + sectorSize
    · rw [if_pos zeroed, if_pos (by omega), List.getElem?_replicate, if_pos (by omega),
        Option.getD_some]
    · rw [if_neg zeroed, if_neg (by omega)]
      by_cases near : address - sector < sectorSize
      · rw [if_pos near, Option.getD_some, Nat.add_sub_cancel' before]
      · rw [if_neg near]
        rfl
  · rw [if_neg before, if_neg (by omega)]

/-- The end of the sector in which the valid data ends, counted in its cluster. -/
def sectorStop (cluster : ClusterSize) (vdl : Nat) : Nat :=
  vdl % cluster.bytes / sectorSize * sectorSize + sectorSize

/-- An address in a cluster is zeroed when it is the cluster, and the place in it, of that sector. -/
theorem zeroSectorEnd_cluster
    (device : Store) (cluster : ClusterSize) (vdl target lcn : Nat) {index : Nat}
    (inside : index < cluster.bytes) :
    zeroSectorEnd device vdl
        (target * cluster.bytes + vdl % cluster.bytes / sectorSize * sectorSize)
        (lcn * cluster.bytes + index) =
      if lcn = target ∧ vdl % cluster.bytes ≤ index ∧ index < sectorStop cluster vdl then 0
      else device (lcn * cluster.bytes + index) := by
  rcases sector_in_cluster cluster vdl with ⟨stops, _, _⟩
  have place : vdl % cluster.bytes / sectorSize * sectorSize + vdl % sectorSize =
      vdl % cluster.bytes := by
    rw [← Nat.mod_mod_of_dvd vdl cluster.sectorSize_dvd]
    exact Nat.div_add_mod' _ _
  rw [zeroSectorEnd_apply]
  refine if_congr ?_ rfl rfl
  rw [Nat.add_assoc, place, sectorStop]
  rcases lt_trichotomy lcn target with before | rfl | behind
  · have apart := Nat.mul_le_mul_right cluster.bytes before
    rw [Nat.succ_mul] at apart
    refine iff_of_false (fun both => ?_) fun both => before.ne both.1
    omega
  · rw [and_iff_right rfl]
    omega
  · have apart := Nat.mul_le_mul_right cluster.bytes behind
    rw [Nat.succ_mul] at apart
    refine iff_of_false (fun both => ?_) fun both => behind.ne' both.1
    omega

/-- A byte of a file is zeroed when it lies in the sector, in the cluster in which that is. -/
theorem byteAt_zeroSectorEnd
    (device : Store) (cluster : ClusterSize) (vdl target : Nat) (place : Nat → Option Nat)
    (offset : Nat) :
    byteAt (zeroSectorEnd device vdl
        (target * cluster.bytes + vdl % cluster.bytes / sectorSize * sectorSize))
      cluster place offset =
      if place (offset / cluster.bytes) = some target ∧
          vdl % cluster.bytes ≤ offset % cluster.bytes ∧
            offset % cluster.bytes < sectorStop cluster vdl then 0
      else byteAt device cluster place offset := by
  have inside := Nat.mod_lt offset cluster.bytes_pos
  rw [byteAt, byteAt]
  cases place (offset / cluster.bytes) with
  | none => exact (if_neg fun both => nomatch both.1).symm
  | some lcn =>
      simp only [Option.some_inj]
      exact zeroSectorEnd_cluster device cluster vdl target lcn inside

/-- The end of the sector, counted in the file. -/
theorem sectorStop_eq (cluster : ClusterSize) (vdl : Nat) :
    vdl / cluster.bytes * cluster.bytes + sectorStop cluster vdl =
      (vdl / sectorSize + 1) * sectorSize := by
  have place : vdl % cluster.bytes / sectorSize * sectorSize + vdl % sectorSize =
      vdl % cluster.bytes := by
    rw [← Nat.mod_mod_of_dvd vdl cluster.sectorSize_dvd]
    exact Nat.div_add_mod' _ _
  have clusters := Nat.div_add_mod' vdl cluster.bytes
  have sectors := Nat.div_add_mod' vdl sectorSize
  rw [sectorStop, Nat.add_mul, Nat.one_mul]
  omega

/-! ## Files after relocation -/

/-- The virtual cluster after the last one with data. -/
def dataEnd (mappings : List Mapping) : Nat :=
  match (present mappings).getLast? with
  | some m => m.vcn + m.length
  | none => 0

/--
The cluster of the device in which a sector is zeroed: the one in which the
valid data ends, or, when that is in a hole, the one that the sparse mapping
behind the data counts from the start of the device.
-/
def zeroTarget
    (cluster : ClusterSize) (relocs : List Relocation) (mappings : List Mapping) (vdl : Nat) :
    Nat :=
  match clusterOf (present mappings) (vdl / cluster.bytes) with
  | some old => relocate relocs old
  | none => vdl / cluster.bytes - dataEnd mappings

/-- The mappings after `process_mappings` take every cluster with data to where it is now. -/
structure Moved (relocs : List Relocation) (mappings moved : List Mapping) : Prop where
  tidy : TidyMappings mappings
  movedTidy : TidyMappings moved
  maps : ∀ vcn lcn, MapsTo moved vcn lcn ↔
    ∃ old, MapsTo (present mappings) vcn old ∧ lcn = relocate relocs old

namespace Moved

variable {cluster : ClusterSize} {relocs : List Relocation} {mappings moved : List Mapping}
  (adjusted : Moved relocs mappings moved)
include adjusted

theorem clusterOf_eq (vcn : Nat) :
    clusterOf moved vcn = (clusterOf (present mappings) vcn).map (relocate relocs) := by
  cases found : clusterOf (present mappings) vcn with
  | some old =>
      refine (clusterOf_eq_some_iff adjusted.movedTidy _ _).mpr ((adjusted.maps _ _).mpr ⟨old, ?_, rfl⟩)
      exact (clusterOf_eq_some_iff adjusted.tidy.present _ _).mp found
  | none =>
      cases other : clusterOf moved vcn with
      | none => rfl
      | some lcn =>
          have maps := (clusterOf_eq_some_iff adjusted.movedTidy _ _).mp other
          rcases (adjusted.maps _ _).mp maps with ⟨old, source, _⟩
          rw [(clusterOf_eq_some_iff adjusted.tidy.present _ _).mpr source] at found
          cases found

/-- The copies hold the bytes of the file. -/
theorem byteAt_eq
    {device : Store} (copies : CopiesMade cluster relocs device) (offset : Nat) :
    byteAt device cluster (clusterOf moved) offset =
      byteAt device cluster (clusterOf (present mappings)) offset := by
  rw [byteAt, byteAt, adjusted.clusterOf_eq]
  have inside := Nat.mod_lt offset cluster.bytes_pos
  cases clusterOf (present mappings) (offset / cluster.bytes) with
  | none => rfl
  | some old =>
      simp only [Option.map_some]
      clear adjusted
      induction relocs with
      | nil => rfl
      | cons reloc rest ih =>
          rw [relocate]
          split_ifs with same
          · rw [same]
            exact copies reloc List.mem_cons_self _ inside
          · exact ih fun other member => copies other (List.mem_cons_of_mem reloc member)

/-- No mapping to a copy, or to a cluster with data, is taken for a hole. -/
theorem lcn_ne_zero (addressed : ∀ reloc ∈ relocs, reloc.newStart ≠ 0) :
    ∀ m ∈ moved, m.lcn ≠ 0 := by
  intro m member
  have positive := adjusted.movedTidy.positive m member
  have first : MapsTo moved m.vcn m.lcn := by
    refine ⟨m, member, ⟨le_rfl, ?_⟩, by rw [Nat.sub_self, Nat.add_zero]⟩
    change m.vcn < m.vcn + m.length
    omega
  rcases (adjusted.maps _ _).mp first with ⟨old, ⟨source, sourceMember, _, place⟩, equal⟩
  have oldPositive : old ≠ 0 := by
    have notHole := (List.mem_filter.mp sourceMember).2
    rw [decide_eq_true_eq] at notHole
    omega
  rw [equal]
  clear equal adjusted
  induction relocs with
  | nil => exact oldPositive
  | cons reloc rest ih =>
      rw [relocate]
      split_ifs
      · exact addressed reloc List.mem_cons_self
      · exact ih fun other otherMember => addressed other (List.mem_cons_of_mem reloc otherMember)

theorem eq_nil_iff : moved = [] ↔ present mappings = [] := by
  have mapped {list : List Mapping} (tidy : TidyMappings list) (nonempty : list ≠ []) :
      ∃ vcn lcn, MapsTo list vcn lcn := by
    rcases List.eq_nil_or_concat' list with rfl | ⟨front, last, rfl⟩
    · exact absurd rfl nonempty
    · exact ⟨_, _, tidy.last.2⟩
  constructor
  · rintro rfl
    by_contra nonempty
    rcases mapped adjusted.tidy.present nonempty with ⟨vcn, old, source⟩
    rcases (adjusted.maps vcn _).mpr ⟨old, source, rfl⟩ with ⟨_, member, _⟩
    exact List.not_mem_nil member
  · intro empty
    by_contra nonempty
    rcases mapped adjusted.movedTidy nonempty with ⟨vcn, lcn, maps⟩
    rcases (adjusted.maps vcn lcn).mp maps with ⟨old, ⟨_, member, _⟩, _⟩
    rw [empty] at member
    exact List.not_mem_nil member

/-- Both lists end with the same virtual cluster. -/
theorem dataEnd_eq
    {front : List Mapping} {last : Mapping} (shape : moved = front ++ [last]) :
    dataEnd mappings = last.vcn + last.length := by
  have nonempty : present mappings ≠ [] := fun empty => by
    have nothing := adjusted.eq_nil_iff.mpr empty
    rw [shape] at nothing
    exact List.append_ne_nil_of_right_ne_nil front (List.cons_ne_nil last []) nothing
  rcases List.eq_nil_or_concat' (present mappings) with empty | ⟨oldFront, oldLast, oldShape⟩
  · exact absurd empty nonempty
  · have tidy := adjusted.movedTidy
    have oldTidy := adjusted.tidy.present
    have maps := adjusted.maps
    rw [shape] at tidy maps
    rw [oldShape] at oldTidy maps
    rcases tidy.last with ⟨before, holds⟩
    rcases oldTidy.last with ⟨oldBefore, oldHolds⟩
    have reaches := before _ _ ((maps _ _).mpr ⟨_, oldHolds, rfl⟩)
    rcases (maps _ _).mp holds with ⟨old, source, _⟩
    have oldReaches := oldBefore _ _ source
    rw [dataEnd, oldShape, List.getLast?_append_of_ne_nil _ (List.cons_ne_nil _ _)]
    simp only [List.getLast?_singleton]
    have positive := oldTidy.positive oldLast
      (List.mem_append_right _ (List.mem_singleton_self _))
    have oldPositive := tidy.positive last
      (List.mem_append_right _ (List.mem_singleton_self _))
    omega

/-- The sector that is zeroed, where the valid data does not fill its clusters. -/
theorem endValidData_eq
    {vdl fileSize : Nat} (short : vdl < fileSize)
    (within : ∀ mapping ∈ moved, mapping.vcn + mapping.length ≤ cluster.clustersOf vdl)
    (part : ¬ cluster.bytes ∣ vdl) (nonempty : present mappings ≠ []) :
    ∃ stop, endValidData cluster.bytes vdl fileSize moved =
      (moved ++ sparseTail stop (cluster.clustersOf vdl),
        .sector
          (zeroTarget cluster relocs mappings vdl * cluster.bytes +
            vdl % cluster.bytes / sectorSize * sectorSize)) := by
  rcases List.eq_nil_or_concat' moved with empty | ⟨front, last, shape⟩
  · exact absurd (adjusted.eq_nil_iff.mp empty) nonempty
  · have bound := within last (shape ▸ List.mem_append_right _ (List.mem_singleton_self _))
    have tidy := adjusted.movedTidy
    have ends := adjusted.dataEnd_eq shape
    have places := adjusted.clusterOf_eq (vdl / cluster.bytes)
    have count := ClusterSize.clustersOf_of_not_dvd part
    refine ⟨last.vcn + last.length, ?_⟩
    rw [shape] at tidy places ⊢
    rcases tidy.last with ⟨before, holds⟩
    have target : (if last.vcn + last.length < cluster.clustersOf vdl then
        cluster.clustersOf vdl - (last.vcn + last.length) - 1
      else last.lcn + last.length - 1) = zeroTarget cluster relocs mappings vdl := by
      rw [zeroTarget, ends]
      cases found : clusterOf (present mappings) (vdl / cluster.bytes) with
      | some old =>
          rw [found, Option.map_some] at places
          have maps := (clusterOf_eq_some_iff tidy _ _).mp places
          have reaches := before _ _ maps
          have last_cluster : last.vcn + last.length = vdl / cluster.bytes + 1 := by
            omega
          rw [last_cluster, Nat.add_sub_cancel] at holds
          rw [last_cluster, count, if_neg (lt_irrefl _)]
          exact tidy.functional holds maps
      | none =>
          rw [found, Option.map_none] at places
          have missing : last.vcn + last.length ≠ vdl / cluster.bytes + 1 := by
            intro equal
            rw [equal, Nat.add_sub_cancel] at holds
            rw [(clusterOf_eq_some_iff tidy _ _).mpr holds] at places
            cases places
          rw [count] at bound ⊢
          rw [if_pos (by omega)]
          simp only
          omega
    rw [endValidData_concat short bound, if_neg part, target]

end Moved

/-! ## When the contents stay -/

/--
Nothing has to be zeroed, or the sector that is zeroed is no place of valid data
of the file, and, in the cluster in which the valid data ends, the file ends
with that sector.
-/
def ContentsKept
    (cluster : ClusterSize) (relocs : List Relocation) (mappings : List Mapping)
    (vdl fileSize : Nat) : Prop :=
  fileSize ≤ vdl ∨ mappings = [] ∨ cluster.bytes ∣ vdl ∨
    present mappings ≠ [] ∧
      (∀ vcn < vdl / cluster.bytes, ∀ old, MapsTo (present mappings) vcn old →
        relocate relocs old ≠ zeroTarget cluster relocs mappings vdl) ∧
      ((∃ old, MapsTo (present mappings) (vdl / cluster.bytes) old) →
        min fileSize (cluster.clustersOf vdl * cluster.bytes) ≤
          (vdl / sectorSize + 1) * sectorSize)

namespace Moved

variable {cluster : ClusterSize} {relocs : List Relocation} {mappings moved : List Mapping}
  (adjusted : Moved relocs mappings moved) {vdl fileSize : Nat}
  (within : ∀ mapping ∈ moved, mapping.vcn + mapping.length ≤ cluster.clustersOf vdl)
include adjusted within

theorem clusterOf_beyond {vcn : Nat} (beyond : cluster.clustersOf vdl ≤ vcn) :
    clusterOf moved vcn = none := by
  cases found : clusterOf moved vcn with
  | none => rfl
  | some lcn =>
      rcases (clusterOf_eq_some_iff adjusted.movedTidy _ _).mp found with
        ⟨mapping, member, ⟨_, before⟩, _⟩
      change vcn < mapping.vcn + mapping.length at before
      have bound := within mapping member
      omega

/-- Without zeroing a file reads as before, if no cluster with data is behind its valid data. -/
theorem byteAt_untouched
    (clear : fileSize ≤ vdl ∨ cluster.bytes ∣ vdl) {device : Store}
    (copies : CopiesMade cluster relocs device) {offset : Nat} (inside : offset < fileSize) :
    byteAt device cluster (clusterOf moved) offset =
      ntfsByte device cluster mappings vdl offset := by
  rw [ntfsByte]
  split_ifs with valid
  · exact adjusted.byteAt_eq copies offset
  · have positive := cluster.bytes_pos
    rcases clear with short | ⟨count, rfl⟩
    · omega
    · have whole : cluster.clustersOf (cluster.bytes * count) = count := by
        rw [ClusterSize.clustersOf, Nat.add_sub_assoc positive, Nat.mul_add_div positive,
          Nat.div_eq_of_lt (Nat.sub_lt positive Nat.one_pos), Nat.add_zero]
      have beyond : cluster.clustersOf (cluster.bytes * count) ≤ offset / cluster.bytes := by
        rw [whole, Nat.le_div_iff_mul_le positive, Nat.mul_comm]
        exact Nat.not_lt.mp valid
      rw [byteAt, adjusted.clusterOf_beyond within beyond]

/-- With the sector zeroed the file reads as before under these conditions. -/
theorem byteAt_zeroed
    (part : ¬ cluster.bytes ∣ vdl)
    (others : ∀ vcn < vdl / cluster.bytes, ∀ old, MapsTo (present mappings) vcn old →
      relocate relocs old ≠ zeroTarget cluster relocs mappings vdl)
    (ends : (∃ old, MapsTo (present mappings) (vdl / cluster.bytes) old) →
      min fileSize (cluster.clustersOf vdl * cluster.bytes) ≤
        (vdl / sectorSize + 1) * sectorSize)
    {device : Store} (copies : CopiesMade cluster relocs device) {offset : Nat}
    (inside : offset < fileSize) :
    byteAt (zeroSectorEnd device vdl
        (zeroTarget cluster relocs mappings vdl * cluster.bytes +
          vdl % cluster.bytes / sectorSize * sectorSize))
      cluster (clusterOf moved) offset = ntfsByte device cluster mappings vdl offset := by
  have count := ClusterSize.clustersOf_of_not_dvd part
  have stop := sectorStop_eq cluster vdl
  have clusters := Nat.div_add_mod' vdl cluster.bytes
  have places := Nat.div_add_mod' offset cluster.bytes
  have places_eq := adjusted.clusterOf_eq (offset / cluster.bytes)
  rw [byteAt_zeroSectorEnd, ntfsByte]
  by_cases valid : offset < vdl
  · rw [if_pos valid, if_neg ?_]
    · exact adjusted.byteAt_eq copies offset
    · rintro ⟨target, from_, _⟩
      rw [places_eq] at target
      rcases Option.map_eq_some_iff.mp target with ⟨old, found, equal⟩
      have source := (clusterOf_eq_some_iff adjusted.tidy.present _ _).mp found
      have ordered : offset / cluster.bytes ≤ vdl / cluster.bytes :=
        Nat.div_le_div_right valid.le
      rcases ordered.lt_or_eq with before | same
      · exact others _ before old source equal
      · rw [same] at places
        omega
  · rw [if_neg valid]
    split_ifs with zeroed
    · rfl
    · have ordered : vdl / cluster.bytes ≤ offset / cluster.bytes :=
        Nat.div_le_div_right (Nat.not_lt.mp valid)
      rw [byteAt]
      rcases ordered.lt_or_eq with beyond | same
      · rw [adjusted.clusterOf_beyond within (count ▸ beyond)]
      · cases found : clusterOf (present mappings) (vdl / cluster.bytes) with
        | none => rw [places_eq, ← same, found, Option.map_none]
        | some old =>
            have source := (clusterOf_eq_some_iff adjusted.tidy.present _ _).mp found
            have bound := ends ⟨old, source⟩
            have upper := Nat.mod_lt offset cluster.bytes_pos
            refine absurd ⟨?_, ?_, ?_⟩ zeroed
            · rw [places_eq, ← same, found, zeroTarget, found]
              rfl
            · rw [← same] at places
              omega
            · rw [← same] at places
              rw [count, Nat.succ_mul] at bound
              omega

/-- On a device full of ones every zero that does not belong there shows. -/
theorem kept_of_byteAt_zeroed
    (short : vdl < fileSize) (part : ¬ cluster.bytes ∣ vdl)
    (same : ∀ offset < fileSize,
      byteAt (zeroSectorEnd (fun _ => 1) vdl
          (zeroTarget cluster relocs mappings vdl * cluster.bytes +
            vdl % cluster.bytes / sectorSize * sectorSize))
        cluster (clusterOf moved) offset = ntfsByte (fun _ => 1) cluster mappings vdl offset) :
    (∀ vcn < vdl / cluster.bytes, ∀ old, MapsTo (present mappings) vcn old →
      relocate relocs old ≠ zeroTarget cluster relocs mappings vdl) ∧
    ((∃ old, MapsTo (present mappings) (vdl / cluster.bytes) old) →
      min fileSize (cluster.clustersOf vdl * cluster.bytes) ≤
        (vdl / sectorSize + 1) * sectorSize) := by
  have positive := cluster.bytes_pos
  have remainder := Nat.mod_lt vdl positive
  have clusters := Nat.div_add_mod' vdl cluster.bytes
  have stop := sectorStop_eq cluster vdl
  rcases sector_in_cluster cluster vdl with ⟨stops, _, before⟩
  constructor
  · intro vcn earlier old source equal
    have apart := Nat.mul_le_mul_right cluster.bytes earlier
    rw [Nat.succ_mul] at apart
    have valid : vcn * cluster.bytes + vdl % cluster.bytes < vdl := by
      omega
    have place : (vcn * cluster.bytes + vdl % cluster.bytes) / cluster.bytes = vcn := by
      rw [Nat.mul_comm, Nat.mul_add_div positive, Nat.div_eq_of_lt remainder, Nat.add_zero]
    have index : (vcn * cluster.bytes + vdl % cluster.bytes) % cluster.bytes =
        vdl % cluster.bytes := by
      rw [Nat.mul_comm, Nat.mul_add_mod, Nat.mod_mod]
    have found := (clusterOf_eq_some_iff adjusted.tidy.present _ _).mpr source
    have read := same _ (valid.trans short)
    rw [byteAt_zeroSectorEnd, ntfsByte, if_pos valid, place, index, if_pos ?_, byteAt, place,
      found] at read
    · exact absurd read (show ¬ (0 : UInt8) = 1 by decide)
    · refine ⟨?_, le_rfl, before⟩
      rw [adjusted.clusterOf_eq, found, Option.map_some, equal]
  · rintro ⟨old, source⟩
    by_contra longer
    rw [Nat.not_le, lt_min_iff] at longer
    have count := ClusterSize.clustersOf_of_not_dvd part
    rw [count, ← stop] at longer
    rcases longer with ⟨inFile, inCluster⟩
    rw [Nat.succ_mul] at inCluster
    have small : sectorStop cluster vdl < cluster.bytes := by
      omega
    have place : (vdl / cluster.bytes * cluster.bytes + sectorStop cluster vdl) / cluster.bytes =
        vdl / cluster.bytes := by
      rw [Nat.mul_comm, Nat.mul_add_div positive, Nat.div_eq_of_lt small, Nat.add_zero]
    have index : (vdl / cluster.bytes * cluster.bytes + sectorStop cluster vdl) % cluster.bytes =
        sectorStop cluster vdl := by
      rw [Nat.mul_comm, Nat.mul_add_mod, Nat.mod_eq_of_lt small]
    have found := (clusterOf_eq_some_iff adjusted.tidy.present _ _).mpr source
    have read := same _ inFile
    have invalid : ¬ vdl / cluster.bytes * cluster.bytes + sectorStop cluster vdl < vdl := by
      rw [sectorStop]
      omega
    rw [byteAt_zeroSectorEnd, ntfsByte, if_neg invalid, place, index,
      if_neg fun both => lt_irrefl _ both.2.2, byteAt, place, adjusted.clusterOf_eq, found] at read
    exact absurd read (show ¬ (1 : UInt8) = 0 by decide)

end Moved

/-- Nothing is zeroed where the valid data fills the file or its clusters. -/
theorem endValidData_of_clear
    {cluster : ClusterSize} {mappings : List Mapping} {vdl fileSize : Nat}
    (within : ∀ mapping ∈ mappings, mapping.vcn + mapping.length ≤ cluster.clustersOf vdl)
    (clear : fileSize ≤ vdl ∨ cluster.bytes ∣ vdl) :
    ∃ stop, endValidData cluster.bytes vdl fileSize mappings =
      (mappings ++ sparseTail stop (cluster.clustersOf vdl), .none) := by
  have untouched (list : List Mapping) :
      list ++ sparseTail (cluster.clustersOf vdl) (cluster.clustersOf vdl) = list := by
    rw [sparseTail, if_neg (lt_irrefl _), List.append_nil]
  by_cases short : vdl < fileSize
  · have whole : cluster.bytes ∣ vdl := clear.resolve_left (Nat.not_le.mpr short)
    rcases List.eq_nil_or_concat' mappings with rfl | ⟨front, last, rfl⟩
    · refine ⟨cluster.clustersOf vdl, ?_⟩
      rw [endValidData_nil short, if_pos whole, untouched]
    · refine ⟨last.vcn + last.length, ?_⟩
      rw [endValidData_concat short
        (within last (List.mem_append_right _ (List.mem_singleton_self _))), if_pos whole]
  · exact ⟨cluster.clustersOf vdl, by rw [endValidData, if_neg short, untouched]⟩

section Place

variable {cluster : ClusterSize} {relocs : List Relocation}
  (single : ∀ reloc ∈ relocs, reloc.length = 1)
  (stays : ∀ reloc ∈ relocs, ∀ other ∈ relocs, other.oldStart ≠ reloc.newStart)
  (addressed : ∀ reloc ∈ relocs, reloc.newStart ≠ 0)
  {mappings : List Mapping} (tidy : TidyMappings mappings) {vdl fileSize turns : Nat}
  (cut : ∀ mapping ∈ mappings, mapping.vcn + mapping.length ≤ cluster.clustersOf vdl)
  (enough : relocs.length ≤ turns)
include single stays addressed tidy cut enough

end Place

/-! ## Two files -/

/-- The mappings and the zeroing of a file that could be placed. -/
def placedAs (outcome : Option (Except ConvertError PlacedFile)) :
    Option (Option (List Mapping × SectorZeroing)) :=
  outcome.map fun outcome => outcome.toOption.map fun placed => (placed.mappings, placed.zeroing)

theorem exists_placed
    {outcome : Option (Except ConvertError PlacedFile)} {mappings : List Mapping}
    {zeroing : SectorZeroing} (placed : placedAs outcome = some (some (mappings, zeroing))) :
    ∃ file, outcome = some (.ok file) ∧ file.mappings = mappings ∧ file.zeroing = zeroing := by
  rcases Option.map_eq_some_iff.mp placed with ⟨result, rfl, inner⟩
  rcases Option.map_eq_some_iff.mp inner with ⟨file, returned, equal⟩
  rw [eq_ok_of_toOption_eq_some returned]
  exact ⟨file, rfl, (Prod.mk.inj equal).1, (Prod.mk.inj equal).2⟩

/-- Clusters of two sectors. -/
def doubleCluster : ClusterSize :=
  ⟨13, by decide, by decide⟩

end Ntfs2Btrfs
