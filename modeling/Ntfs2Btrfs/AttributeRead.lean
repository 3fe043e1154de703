import Ntfs2Btrfs.RunLists
import Ntfs2Btrfs.ProcessMappings

/-!
# Reading a non-resident attribute

`read_nonresident_attribute` clips every mapping of a record against the
request and reads the device sector by sector into the result.  A read of the
device is exact here; what is followed are the bytes that are returned and the
ranges of the device that are read.

Addresses on the device fit in 64 bits.
-/

namespace Ntfs2Btrfs

open ByteStore Extents

/-! ## The code -/

/-- The sector and cluster sizes of a volume, from its boot sector. -/
structure Geometry where
  bytesPerSector : Nat
  sectorsPerCluster : Nat
  exponent : Nat
  bytesPerSector_pos : 0 < bytesPerSector
  clusterSize_eq : bytesPerSector * sectorsPerCluster = 2 ^ exponent

namespace Geometry

variable (geometry : Geometry)

def clusterSize : Nat :=
  geometry.bytesPerSector * geometry.sectorsPerCluster

theorem clusterSize_pos : 0 < geometry.clusterSize := by
  rw [clusterSize, geometry.clusterSize_eq]
  exact Nat.two_pow_pos _

theorem bytesPerSector_dvd : geometry.bytesPerSector ∣ geometry.clusterSize :=
  Nat.dvd_mul_right _ _

end Geometry

/-- The modulus of unsigned 32-bit arithmetic. -/
def halfWordModulus : Nat := 2 ^ 32

/-- The number of bytes that a request is for; zero asks for the rest. -/
def requestLength (fileSize offset length : Nat) : Nat :=
  if offset + length > fileSize ∨ length = 0 then (fileSize - offset) % halfWordModulus
  else length

/-- One turn of the loop: the buffer and the ranges read from the device so far. -/
def copyMapping
    (geometry : Geometry) (device : Store) (offset length : Nat)
    (state : Bytes × List Extent) (m : Mapping) : Bytes × List Extent :=
  let clusterSize := geometry.clusterSize
  let sector := geometry.bytesPerSector
  if offset + length ≥ m.vcn * clusterSize ∧ offset < (m.vcn + m.length) * clusterSize then
    let bufStart :=
      if offset < m.vcn * clusterSize then (m.vcn * clusterSize - offset) % halfWordModulus
      else 0
    let bufEnd :=
      if offset + length > (m.vcn + m.length) * clusterSize then
        min ((m.vcn + m.length) * clusterSize % halfWordModulus) length
      else length
    if bufEnd = bufStart then state
    else
      let readStart :=
        m.lcn * clusterSize +
          if offset > m.vcn * clusterSize then offset - m.vcn * clusterSize else 0
      let readEnd := readStart + bufEnd - bufStart
      let skipStart := readStart % sector
      let skipEnd := if readEnd % sector ≠ 0 then sector - readEnd % sector else 0
      if skipStart ≠ 0 ∨ skipEnd ≠ 0 then
        let read : Extent :=
          ⟨readStart - skipStart, readEnd + skipEnd - (readStart - skipStart)⟩
        let tmp := device.read read.offset read.length
        (patch state.1 bufStart (slice tmp skipStart (bufEnd - bufStart)),
          state.2 ++ [read])
      else
        let read : Extent := ⟨readStart, bufEnd - bufStart⟩
        (patch state.1 bufStart (device.read read.offset read.length), state.2 ++ [read])
  else state

/-- The loop over the mappings, into a buffer of zeros. -/
def readBuffer
    (geometry : Geometry) (device : Store) (offset length : Nat) (mappings : List Mapping) :
    Bytes × List Extent :=
  mappings.foldl (copyMapping geometry device offset length) (List.replicate length 0, [])

/-- How reading an attribute ends, if it does. -/
inductive AttributeOutcome where
  | running
  | threw (error : NtfsError)
  | returned (buf : Bytes) (reads : List Extent)
deriving DecidableEq, Repr

/-- `ntfs_file::read_nonresident_attribute`. -/
def readNonresidentAttribute
    (undefinedShift : Nat → BitVec 64) (geometry : Geometry) (device memory : Store)
    (turns : Nat) (att : NonresidentAttribute) (offset length : Nat) : AttributeOutcome :=
  match readNonresidentMappings undefinedShift memory turns att [] geometry.clusterSize
      att.validDataLength with
  | (_, .running) => .running
  | (_, .failed error) => .threw error
  | (mappings, .finished) =>
      if offset ≥ att.fileSize then .returned [] []
      else
        let outcome := readBuffer geometry device offset
          (requestLength att.fileSize offset length) mappings
        .returned outcome.1 outcome.2

/-! ## Bytes and clusters of an attribute -/

/-- The mapping holds the byte at a position of the attribute. -/
def Mapping.HoldsByte (mapping : Mapping) (clusterSize position : Nat) : Prop :=
  mapping.vcn * clusterSize ≤ position ∧
    position < (mapping.vcn + mapping.length) * clusterSize

instance (mapping : Mapping) (clusterSize position : Nat) :
    Decidable (mapping.HoldsByte clusterSize position) :=
  inferInstanceAs (Decidable (_ ∧ _))

/-- The byte of the device that a mapping assigns to a position. -/
def Mapping.deviceByte (mapping : Mapping) (device : Store) (clusterSize position : Nat) :
    UInt8 :=
  device (mapping.lcn * clusterSize + (position - mapping.vcn * clusterSize))

/-- The byte of the attribute at a position: zero in holes. -/
def attributeByte (device : Store) (clusterSize : Nat) (mappings : List Mapping)
    (position : Nat) : UInt8 :=
  match mappings.find? fun mapping => mapping.HoldsByte clusterSize position with
  | none => 0
  | some mapping =>
      if mapping.lcn = 0 then 0 else mapping.deviceByte device clusterSize position

/-- The bytes `[offset, offset + length)` of the attribute. -/
def attributeBytes (device : Store) (clusterSize : Nat) (mappings : List Mapping)
    (offset length : Nat) : Bytes :=
  (List.range length).map fun index =>
    attributeByte device clusterSize mappings (offset + index)

/-- The cluster belongs to the attribute. -/
def OwnCluster (mappings : List Mapping) (cluster : Nat) : Prop :=
  ∃ mapping ∈ mappings, mapping.lcn ≠ 0 ∧
    mapping.lcn ≤ cluster ∧ cluster < mapping.lcn + mapping.length

/-- The request asks for a byte of the mapping. -/
def Mapping.Requested (mapping : Mapping) (clusterSize offset length : Nat) : Prop :=
  mapping.vcn * clusterSize < offset + length ∧
    offset < (mapping.vcn + mapping.length) * clusterSize

instance (mapping : Mapping) (clusterSize offset length : Nat) :
    Decidable (mapping.Requested clusterSize offset length) :=
  inferInstanceAs (Decidable (_ ∧ _))

/--
The number of bytes that are read past the clusters of a mapping: as many as
the request goes past it, and at most the offset of the request.
-/
def Mapping.overRead (mapping : Mapping) (clusterSize offset length : Nat) : Nat :=
  min offset (offset + length - (mapping.vcn + mapping.length) * clusterSize)

/-! ## One mapping -/

/-- The range of whole sectors around a range. -/
def sectorRange (sector start length : Nat) : Extent :=
  let stop := start + length
  let skipEnd := if stop % sector ≠ 0 then sector - stop % sector else 0
  ⟨start - start % sector, stop + skipEnd - (start - start % sector)⟩

/-- Where the bytes of a mapping start in the buffer. -/
def Mapping.bufStart (mapping : Mapping) (clusterSize offset : Nat) : Nat :=
  mapping.vcn * clusterSize - offset

/-- Where the bytes of a mapping end in the buffer. -/
def Mapping.bufEnd (mapping : Mapping) (clusterSize offset length : Nat) : Nat :=
  if offset + length > (mapping.vcn + mapping.length) * clusterSize then
    min ((mapping.vcn + mapping.length) * clusterSize) length
  else length

/-- Where the bytes of a mapping start on the device. -/
def Mapping.readStart (mapping : Mapping) (clusterSize offset : Nat) : Nat :=
  mapping.lcn * clusterSize + (offset - mapping.vcn * clusterSize)

section OneMapping

variable {geometry : Geometry} {offset length : Nat} {m : Mapping}

theorem bufStart_lt_bufEnd
    {clusterSize : Nat} (clusters : 0 < clusterSize) (nonempty : 0 < m.length)
    (positive : 0 < length) (requested : m.Requested clusterSize offset length) :
    m.bufStart clusterSize offset < m.bufEnd clusterSize offset length ∧
      m.bufEnd clusterSize offset length ≤ length := by
  obtain ⟨lower, upper⟩ := requested
  rw [Mapping.bufStart, Mapping.bufEnd]
  have ordered : m.vcn * clusterSize < (m.vcn + m.length) * clusterSize :=
    Nat.mul_lt_mul_of_pos_right (by omega) clusters
  generalize m.vcn * clusterSize = start at *
  generalize (m.vcn + m.length) * clusterSize = stop at *
  constructor
  · split_ifs <;> omega
  · split_ifs <;> omega

theorem copyMapping_of_not_requested
    (positive : 0 < length) (short : length < halfWordModulus)
    (notRequested : ¬ m.Requested geometry.clusterSize offset length)
    (device : Store) (state : Bytes × List Extent) :
    copyMapping geometry device offset length state m = state := by
  rw [Mapping.Requested] at notRequested
  have ordered : m.vcn * geometry.clusterSize ≤ (m.vcn + m.length) * geometry.clusterSize :=
    Nat.mul_le_mul_right _ (Nat.le_add_right _ _)
  rw [copyMapping]
  generalize m.vcn * geometry.clusterSize = start at *
  generalize (m.vcn + m.length) * geometry.clusterSize = stop at *
  simp only
  by_cases meets : offset + length ≥ start ∧ offset < stop
  · have atStart : offset + length = start := by omega
    have whole : (start - offset) % halfWordModulus = length := by
      rw [← atStart, Nat.add_sub_cancel_left]
      exact Nat.mod_eq_of_lt short
    rw [if_pos meets, if_pos (show offset < start by omega), whole,
      if_neg (show ¬ offset + length > stop by omega), if_pos rfl]
  · rw [if_neg meets]

/-- One turn, where the bounds of the copy have been computed. -/
theorem copyMapping_of_bounds
    (requested : m.Requested geometry.clusterSize offset length) {bufStart bufEnd : Nat}
    (first : (if offset < m.vcn * geometry.clusterSize then
      (m.vcn * geometry.clusterSize - offset) % halfWordModulus else 0) = bufStart)
    (last : (if offset + length > (m.vcn + m.length) * geometry.clusterSize then
      min ((m.vcn + m.length) * geometry.clusterSize % halfWordModulus) length else length) =
        bufEnd)
    (before : bufStart < bufEnd) (device : Store) (state : Bytes × List Extent) :
    copyMapping geometry device offset length state m =
      (patch state.1 bufStart
          (device.read (m.readStart geometry.clusterSize offset) (bufEnd - bufStart)),
        state.2 ++
          [sectorRange geometry.bytesPerSector (m.readStart geometry.clusterSize offset)
            (bufEnd - bufStart)]) := by
  obtain ⟨lower, upper⟩ := requested
  have source : m.lcn * geometry.clusterSize +
      (if offset > m.vcn * geometry.clusterSize then offset - m.vcn * geometry.clusterSize
        else 0) = m.readStart geometry.clusterSize offset := by
    rw [Mapping.readStart]
    split_ifs <;> omega
  rw [copyMapping]
  simp only [first, last, source]
  rw [if_pos ⟨by omega, upper⟩, if_neg before.ne']
  generalize m.readStart geometry.clusterSize offset = readStart at *
  have stop : readStart + bufEnd - bufStart = readStart + (bufEnd - bufStart) := by omega
  have aligned := Nat.mod_le readStart geometry.bytesPerSector
  rw [stop]
  rw [sectorRange]
  generalize skipEnd :
    (if (readStart + (bufEnd - bufStart)) % geometry.bytesPerSector ≠ 0 then
      geometry.bytesPerSector - (readStart + (bufEnd - bufStart)) % geometry.bytesPerSector
    else 0) = rest
  by_cases skips : readStart % geometry.bytesPerSector ≠ 0 ∨ rest ≠ 0
  · rw [if_pos skips, Store.slice_read _ (by omega), Nat.sub_add_cancel aligned]
  · obtain ⟨zero, restZero⟩ : readStart % geometry.bytesPerSector = 0 ∧ rest = 0 := by omega
    rw [if_neg skips, zero, restZero, Nat.sub_zero, Nat.add_zero, Nat.add_sub_cancel_left]

/-- Where the request goes past the mapping, its end is not cut to 32 bits. -/
def Mapping.Narrow (m : Mapping) (clusterSize offset length : Nat) : Prop :=
  m.Requested clusterSize offset length →
    (m.vcn + m.length) * clusterSize < offset + length →
      (m.vcn + m.length) * clusterSize < halfWordModulus

theorem Mapping.narrow_of_small
    {clusterSize : Nat} (small : offset + length < halfWordModulus) :
    m.Narrow clusterSize offset length :=
  fun _ past => past.trans small

theorem copyMapping_of_requested
    (nonempty : 0 < m.length) (positive : 0 < length) (short : length < halfWordModulus)
    (narrow : m.Narrow geometry.clusterSize offset length)
    (requested : m.Requested geometry.clusterSize offset length)
    (device : Store) (state : Bytes × List Extent) :
    copyMapping geometry device offset length state m =
      (patch state.1 (m.bufStart geometry.clusterSize offset)
          (device.read (m.readStart geometry.clusterSize offset)
            (m.bufEnd geometry.clusterSize offset length -
              m.bufStart geometry.clusterSize offset)),
        state.2 ++
          [sectorRange geometry.bytesPerSector (m.readStart geometry.clusterSize offset)
            (m.bufEnd geometry.clusterSize offset length -
              m.bufStart geometry.clusterSize offset)]) := by
  obtain ⟨before, -⟩ := bufStart_lt_bufEnd geometry.clusterSize_pos nonempty positive requested
  refine copyMapping_of_bounds requested ?_ ?_ before device state
  · obtain ⟨lower, upper⟩ := requested
    rw [Mapping.bufStart]
    split_ifs with inFront
    · exact Nat.mod_eq_of_lt (by omega)
    · omega
  · rw [Mapping.bufEnd]
    split_ifs with beyond
    · rw [Nat.mod_eq_of_lt (narrow requested beyond)]
    · rfl

/-- The range of the device that is read for a mapping. -/
def Mapping.readRange (m : Mapping) (geometry : Geometry) (offset length : Nat) : Extent :=
  sectorRange geometry.bytesPerSector (m.readStart geometry.clusterSize offset)
    (m.bufEnd geometry.clusterSize offset length - m.bufStart geometry.clusterSize offset)

/-- The place of a byte of the mapping in the buffer and on the device. -/
theorem deviceByte_eq
    {clusterSize index : Nat} (holds : m.HoldsByte clusterSize (offset + index))
    (inside : index < length) (device : Store) :
    m.bufStart clusterSize offset ≤ index ∧ index < m.bufEnd clusterSize offset length ∧
      m.deviceByte device clusterSize (offset + index) =
        device (m.readStart clusterSize offset + (index - m.bufStart clusterSize offset)) := by
  obtain ⟨lower, upper⟩ := holds
  rw [Mapping.bufStart, Mapping.bufEnd, Mapping.deviceByte, Mapping.readStart]
  generalize m.vcn * clusterSize = start at *
  generalize (m.vcn + m.length) * clusterSize = stop at *
  refine ⟨by omega, ?_, congrArg device (by omega)⟩
  split_ifs <;> omega

/-- One turn fills in the bytes of its mapping and keeps those before it. -/
theorem copyMapping_spec
    (nonempty : 0 < m.length) (positive : 0 < length) (short : length < halfWordModulus)
    (narrow : m.Narrow geometry.clusterSize offset length) (device : Store)
    {state : Bytes × List Extent} (whole : state.1.length = length) :
    (copyMapping geometry device offset length state m).1.length = length ∧
    (∀ index < length, m.HoldsByte geometry.clusterSize (offset + index) →
      (copyMapping geometry device offset length state m).1[index]? =
        some (m.deviceByte device geometry.clusterSize (offset + index))) ∧
    (∀ index, offset + index < m.vcn * geometry.clusterSize →
      (copyMapping geometry device offset length state m).1[index]? = state.1[index]?) ∧
    (copyMapping geometry device offset length state m).2 =
      state.2 ++
        if m.Requested geometry.clusterSize offset length then
          [m.readRange geometry offset length]
        else [] := by
  by_cases requested : m.Requested geometry.clusterSize offset length
  · obtain ⟨before, within⟩ :=
      bufStart_lt_bufEnd geometry.clusterSize_pos nonempty positive requested
    have fits : m.bufStart geometry.clusterSize offset +
        (device.read (m.readStart geometry.clusterSize offset)
          (m.bufEnd geometry.clusterSize offset length -
            m.bufStart geometry.clusterSize offset)).length ≤ state.1.length := by
      rw [Store.length_read]
      omega
    rw [copyMapping_of_requested nonempty positive short narrow requested, if_pos requested]
    refine ⟨(length_patch fits).trans whole, fun index inside holds => ?_,
      fun index inFront => ?_, rfl⟩
    · obtain ⟨lower, upper, equal⟩ := deviceByte_eq holds inside device
      rw [getElem?_patch fits, Store.length_read, if_pos ⟨lower, by omega⟩,
        Store.getElem?_read, if_pos (by omega), equal]
    · rw [getElem?_patch fits, if_neg]
      rw [Mapping.bufStart]
      omega
  · rw [copyMapping_of_not_requested positive short requested, if_neg requested,
      List.append_nil]
    refine ⟨whole, fun index inside holds => absurd ?_ requested, fun index _ => rfl, rfl⟩
    obtain ⟨lower, upper⟩ := holds
    exact ⟨by omega, by omega⟩

end OneMapping

/-! ## All mappings -/

theorem TidyMappings.vcn_le
    {head : Mapping} {rest : List Mapping} (tidy : TidyMappings (head :: rest))
    {next : Mapping} (member : next ∈ rest) : head.vcn + head.length ≤ next.vcn :=
  ((tidyMappings_cons_iff head rest).mp tidy).2.1 next member

/-- The loop fills in the bytes of all mappings and reads once for each requested one. -/
theorem foldl_copyMapping_spec
    {geometry : Geometry} {offset length : Nat} {mappings : List Mapping}
    (tidy : TidyMappings mappings) (positive : 0 < length) (short : length < halfWordModulus)
    (narrow : ∀ m ∈ mappings, m.Narrow geometry.clusterSize offset length) (device : Store)
    {state : Bytes × List Extent} (whole : state.1.length = length) :
    (mappings.foldl (copyMapping geometry device offset length) state).1.length = length ∧
    (∀ m ∈ mappings, ∀ index < length, m.HoldsByte geometry.clusterSize (offset + index) →
      (mappings.foldl (copyMapping geometry device offset length) state).1[index]? =
        some (m.deviceByte device geometry.clusterSize (offset + index))) ∧
    (∀ index, (∀ m ∈ mappings, offset + index < m.vcn * geometry.clusterSize) →
      (mappings.foldl (copyMapping geometry device offset length) state).1[index]? =
        state.1[index]?) ∧
    (mappings.foldl (copyMapping geometry device offset length) state).2 =
      state.2 ++
        (mappings.filter fun m => m.Requested geometry.clusterSize offset length).map
          fun m => m.readRange geometry offset length := by
  induction mappings generalizing state with
  | nil => exact ⟨whole, by simp, fun _ _ => rfl, by simp⟩
  | cons head rest ih =>
    obtain ⟨nonempty, later, restTidy⟩ := (tidyMappings_cons_iff head rest).mp tidy
    obtain ⟨headWhole, headBytes, headKeeps, headReads⟩ :=
      @copyMapping_spec geometry offset length head nonempty positive short
        (narrow head List.mem_cons_self) device state whole
    obtain ⟨restWhole, restBytes, restKeeps, restReads⟩ :=
      ih restTidy (fun m inRest => narrow m (List.mem_cons_of_mem _ inRest)) headWhole
    rw [List.foldl_cons]
    refine ⟨restWhole, fun m member index inside holds => ?_, fun index inFront => ?_, ?_⟩
    · rcases List.mem_cons.mp member with rfl | inRest
      · rw [restKeeps index fun next nextMember => ?_]
        · exact headBytes index inside holds
        · exact lt_of_lt_of_le holds.2
            (Nat.mul_le_mul_right _ (tidy.vcn_le nextMember))
      · exact restBytes m inRest index inside holds
    · obtain ⟨inFrontHead, inFrontRest⟩ := List.forall_mem_cons.mp inFront
      rw [restKeeps index inFrontRest, headKeeps index inFrontHead]
    · rw [restReads, headReads, List.append_assoc]
      split_ifs with requested
      · rw [List.filter_cons_of_pos (by simpa using requested), List.map_cons,
          List.singleton_append]
      · rw [List.filter_cons_of_neg (by simpa using requested), List.nil_append]

/-- The bytes in the buffer and the ranges that were read for them. -/
theorem readBuffer_spec_of_narrow
    (geometry : Geometry) {offset length : Nat} {mappings : List Mapping}
    (tidy : TidyMappings mappings) (positive : 0 < length) (short : length < halfWordModulus)
    (narrow : ∀ m ∈ mappings, m.Narrow geometry.clusterSize offset length) (device : Store) :
    (readBuffer geometry device offset length mappings).1.length = length ∧
    (∀ m ∈ mappings, ∀ index < length, m.HoldsByte geometry.clusterSize (offset + index) →
      (readBuffer geometry device offset length mappings).1[index]? =
        some (m.deviceByte device geometry.clusterSize (offset + index))) ∧
    (readBuffer geometry device offset length mappings).2 =
      (mappings.filter fun m => m.Requested geometry.clusterSize offset length).map
        fun m => m.readRange geometry offset length := by
  obtain ⟨whole, filled, -, reads⟩ := @foldl_copyMapping_spec geometry offset length mappings
    tidy positive short narrow device (List.replicate length 0, []) (by simp)
  exact ⟨whole, filled, reads⟩

theorem readBuffer_spec
    (geometry : Geometry) {offset length : Nat} {mappings : List Mapping}
    (tidy : TidyMappings mappings) (positive : 0 < length)
    (small : offset + length < halfWordModulus) (device : Store) :
    (readBuffer geometry device offset length mappings).1.length = length ∧
    (∀ m ∈ mappings, ∀ index < length, m.HoldsByte geometry.clusterSize (offset + index) →
      (readBuffer geometry device offset length mappings).1[index]? =
        some (m.deviceByte device geometry.clusterSize (offset + index))) ∧
    (readBuffer geometry device offset length mappings).2 =
      (mappings.filter fun m => m.Requested geometry.clusterSize offset length).map
        fun m => m.readRange geometry offset length :=
  readBuffer_spec_of_narrow geometry tidy positive (by omega)
    (fun _ _ => Mapping.narrow_of_small small) device

/-! ## The ranges that are read -/

section Ranges

variable {geometry : Geometry} {offset length : Nat} {m : Mapping}

theorem le_sub_mod {sector bound value : Nat} (divides : sector ∣ bound)
    (lower : bound ≤ value) : bound ≤ value - value % sector := by
  obtain ⟨count, rfl⟩ := divides
  have divided := Nat.div_add_mod value sector
  have scaled : sector * count ≤ sector * (value / sector) := by
    rcases Nat.eq_zero_or_pos sector with rfl | positive
    · simp
    · exact Nat.mul_le_mul_left sector ((Nat.le_div_iff_mul_le positive).mpr
        (by rwa [Nat.mul_comm]))
  omega

/-- The sectors of a range do not pass a sector boundary that the range does not pass. -/
theorem sectorRange_stop_le
    {sector start count bound : Nat} (positive : 0 < sector) (divides : sector ∣ bound)
    (upper : start + count ≤ bound) : (sectorRange sector start count).stop ≤ bound := by
  have aligned := Nat.mod_le start sector
  have small := Nat.mod_lt (start + count) positive
  obtain ⟨sectors, rfl⟩ := divides
  have divided := Nat.div_add_mod (start + count) sector
  simp only [sectorRange, Extent.stop]
  split_ifs with part
  · have less : (start + count) / sector < sectors := by
      by_contra more
      have scaled : sector * sectors ≤ sector * ((start + count) / sector) :=
        Nat.mul_le_mul_left sector (Nat.not_lt.mp more)
      omega
    have next : sector * ((start + count) / sector + 1) ≤ sector * sectors :=
      Nat.mul_le_mul_left sector less
    rw [Nat.mul_succ] at next
    omega
  · omega

theorem le_sectorRange_stop (sector start count : Nat) :
    start + count ≤ (sectorRange sector start count).stop := by
  have aligned := Nat.mod_le start sector
  simp only [sectorRange, Extent.stop]
  split_ifs <;> omega

/-- Where the bytes read for a mapping end. -/
theorem readStart_add
    (nonempty : 0 < m.length) (positive : 0 < length)
    (requested : m.Requested geometry.clusterSize offset length) :
    (offset + length ≤ (m.vcn + m.length) * geometry.clusterSize ∧
      m.overRead geometry.clusterSize offset length = 0 ∧
      m.readStart geometry.clusterSize offset +
        (m.bufEnd geometry.clusterSize offset length -
          m.bufStart geometry.clusterSize offset) ≤
        (m.lcn + m.length) * geometry.clusterSize) ∨
    (m.readStart geometry.clusterSize offset ≤ (m.lcn + m.length) * geometry.clusterSize ∧
      m.readStart geometry.clusterSize offset +
        (m.bufEnd geometry.clusterSize offset length -
          m.bufStart geometry.clusterSize offset) =
        (m.lcn + m.length) * geometry.clusterSize +
          m.overRead geometry.clusterSize offset length) := by
  obtain ⟨before, -⟩ :=
    bufStart_lt_bufEnd geometry.clusterSize_pos nonempty positive requested
  obtain ⟨lower, upper⟩ := requested
  rw [Mapping.bufStart, Mapping.bufEnd] at before
  simp only [Mapping.readStart, Mapping.bufStart, Mapping.bufEnd, Mapping.overRead,
    Nat.add_mul] at *
  generalize m.vcn * geometry.clusterSize = start at *
  generalize m.length * geometry.clusterSize = bytes at *
  generalize m.lcn * geometry.clusterSize = source at *
  rcases Nat.lt_or_ge (start + bytes) (offset + length) with passes | ends
  · rw [if_pos passes] at before ⊢
    exact Or.inr (by omega)
  · rw [if_neg (Nat.not_lt.mpr ends)] at before ⊢
    exact Or.inl (by omega)

/-- An address that is read for a mapping is in its clusters or in those read past them. -/
theorem cluster_of_readRange
    (nonempty : 0 < m.length) (positive : 0 < length)
    (requested : m.Requested geometry.clusterSize offset length) {address : Nat}
    (inside : (m.readRange geometry offset length).Contains address) :
    (m.lcn ≤ address / geometry.clusterSize ∧
      address / geometry.clusterSize < m.lcn + m.length) ∨
    ∃ extra, extra * geometry.clusterSize < m.overRead geometry.clusterSize offset length ∧
      address / geometry.clusterSize = m.lcn + m.length + extra := by
  have clusters := geometry.clusterSize_pos
  have sectors : ∀ count, geometry.bytesPerSector ∣ count * geometry.clusterSize :=
    fun count => geometry.bytesPerSector_dvd.mul_left count
  obtain ⟨from_, to_⟩ := inside
  have lower : m.lcn ≤ address / geometry.clusterSize := by
    rw [Nat.le_div_iff_mul_le clusters]
    have start : m.lcn * geometry.clusterSize ≤ m.readStart geometry.clusterSize offset :=
      Nat.le_add_right _ _
    exact (le_sub_mod (sectors m.lcn) start).trans from_
  rcases Nat.lt_or_ge (address / geometry.clusterSize) (m.lcn + m.length) with own | past
  · exact Or.inl ⟨lower, own⟩
  · right
    obtain ⟨extra, equal⟩ := Nat.exists_eq_add_of_le past
    refine ⟨extra, ?_, equal⟩
    have floor := Nat.div_mul_le_self address geometry.clusterSize
    by_contra beyond
    have stop : (m.readRange geometry offset length).stop ≤
        (m.lcn + m.length + extra) * geometry.clusterSize := by
      refine sectorRange_stop_le geometry.bytesPerSector_pos (sectors _) ?_
      rw [Nat.add_mul]
      rcases readStart_add nonempty positive requested with ⟨-, -, ends⟩ | ⟨-, passes⟩
      · omega
      · omega
    rw [equal] at floor
    omega

/-- The clusters read past those of a mapping are read. -/
theorem readRange_contains_extra
    (nonempty : 0 < m.length) (positive : 0 < length)
    (requested : m.Requested geometry.clusterSize offset length) {extra : Nat}
    (past : extra * geometry.clusterSize < m.overRead geometry.clusterSize offset length) :
    (m.readRange geometry offset length).Contains
      ((m.lcn + m.length + extra) * geometry.clusterSize) := by
  rcases readStart_add nonempty positive requested with ⟨-, zero, -⟩ | ⟨starts, passes⟩
  · omega
  · have stop := le_sectorRange_stop geometry.bytesPerSector
      (m.readStart geometry.clusterSize offset)
      (m.bufEnd geometry.clusterSize offset length - m.bufStart geometry.clusterSize offset)
    rw [Nat.add_mul]
    refine ⟨?_, ?_⟩
    · have rounded : (m.readRange geometry offset length).offset ≤
          m.readStart geometry.clusterSize offset := Nat.sub_le _ _
      omega
    · rw [Mapping.readRange]
      omega

end Ranges

/-! ## Clipped mappings -/

theorem mem_clipMappings_iff {last : Nat} {mappings : List Mapping} {piece : Mapping} :
    piece ∈ clipMappings last mappings ↔
      ∃ m ∈ mappings, m.vcn < last ∧
        piece = { m with length := min m.length (last - m.vcn) } := by
  rw [clipMappings, List.mem_filterMap]
  constructor
  · rintro ⟨m, member, shown⟩
    split_ifs at shown with before
    exact ⟨m, member, before, (Option.some.inj shown).symm⟩
  · rintro ⟨m, member, before, rfl⟩
    exact ⟨m, member, if_pos before⟩

theorem TidyMappings.clip
    {mappings : List Mapping} (tidy : TidyMappings mappings) (last : Nat) :
    TidyMappings (clipMappings last mappings) := by
  induction mappings with
  | nil => exact tidyMappings_nil
  | cons head rest ih =>
    obtain ⟨nonempty, later, restTidy⟩ := (tidyMappings_cons_iff head rest).mp tidy
    rw [clipMappings, List.filterMap_cons]
    split_ifs with before
    · refine (tidyMappings_cons_iff _ _).mpr ⟨by simp only; omega, fun next member => ?_,
        ih restTidy⟩
      obtain ⟨m, inRest, -, rfl⟩ := mem_clipMappings_iff.mp member
      have ordered := later m inRest
      simp only
      omega
    · exact ih restTidy

theorem tidyMappings_absoluteMappings (vcn : Nat) (runs : List NtfsRun) :
    TidyMappings (absoluteMappings vcn runs) ∧
      ∀ m ∈ absoluteMappings vcn runs, vcn ≤ m.vcn := by
  induction runs generalizing vcn with
  | nil => exact ⟨tidyMappings_nil, by simp [absoluteMappings]⟩
  | cons run rest ih =>
    obtain ⟨tidy, above⟩ := ih (vcn + run.length)
    rw [absoluteMappings]
    refine ⟨(tidyMappings_cons_iff _ _).mpr ⟨run.positive, above, tidy⟩, fun m member => ?_⟩
    rcases List.mem_cons.mp member with rfl | inRest
    · exact le_rfl
    · exact (Nat.le_add_right _ _).trans (above m inRest)

/-- The runs cover as many clusters as they have. -/
theorem exists_mem_absoluteMappings
    {vcn cluster : Nat} {runs : List NtfsRun} (lower : vcn ≤ cluster)
    (upper : cluster < vcn + (runs.map NtfsRun.length).sum) :
    ∃ m ∈ absoluteMappings vcn runs, m.vcn ≤ cluster ∧ cluster < m.vcn + m.length := by
  induction runs generalizing vcn with
  | nil => simp at upper; omega
  | cons run rest ih =>
    rw [List.map_cons, List.sum_cons] at upper
    rcases Nat.lt_or_ge cluster (vcn + run.length) with here | later
    · exact ⟨_, List.mem_cons_self, lower, here⟩
    · obtain ⟨m, member, inside⟩ := ih later (by omega)
      exact ⟨m, List.mem_cons_of_mem _ member, inside⟩

theorem Mapping.holdsByte_iff
    {clusterSize : Nat} (positive : 0 < clusterSize) (m : Mapping) (position : Nat) :
    m.HoldsByte clusterSize position ↔
      m.vcn ≤ position / clusterSize ∧ position / clusterSize < m.vcn + m.length := by
  rw [Mapping.HoldsByte, Nat.le_div_iff_mul_le positive, Nat.div_lt_iff_lt_mul positive]

/-- The byte of the attribute comes from the mapping that holds it. -/
theorem attributeByte_eq
    {clusterSize : Nat} (positive : 0 < clusterSize) {mappings : List Mapping}
    (tidy : TidyMappings mappings) {m : Mapping} (member : m ∈ mappings) {position : Nat}
    (holds : m.HoldsByte clusterSize position) (device : Store) :
    attributeByte device clusterSize mappings position =
      if m.lcn = 0 then 0 else m.deviceByte device clusterSize position := by
  rw [attributeByte]
  cases found : mappings.find? fun m => m.HoldsByte clusterSize position with
  | none => exact absurd holds (by simpa using List.find?_eq_none.mp found m member)
  | some other =>
    have otherHolds : other.HoldsByte clusterSize position := by
      simpa using List.find?_some found
    have same : other = m := by
      rw [Mapping.holdsByte_iff positive] at holds otherHolds
      exact tidy.unique (List.mem_of_find?_eq_some found) member otherHolds holds
    rw [same]

/-! ## The whole read -/

section Whole

variable {undefinedShift : Nat → BitVec 64} {geometry : Geometry} {memory : Store}
  {att : NonresidentAttribute} {runs : List NtfsRun} {turns offset length : Nat}

/-- The number of clusters of an attribute. -/
def attributeClusters (geometry : Geometry) (fileSize : Nat) : Nat :=
  maxCluster geometry.clusterSize fileSize

theorem fileSize_le_clusters (geometry : Geometry) (fileSize : Nat) :
    fileSize ≤ attributeClusters geometry fileSize * geometry.clusterSize := by
  have positive := Nat.two_pow_pos geometry.exponent
  rw [attributeClusters, Geometry.clusterSize, geometry.clusterSize_eq, maxCluster_eq]
  have rounded := Nat.lt_div_mul_add (a := fileSize + 2 ^ geometry.exponent - 1) positive
  omega

theorem attributeClusters_le {geometry : Geometry} {size : Nat} (word : size < 2 ^ 63) :
    attributeClusters geometry size ≤ 2 ^ 63 := by
  rw [attributeClusters, maxCluster]
  have divided := Nat.div_le_self size geometry.clusterSize
  split_ifs <;> omega

/-- The mappings that the reader works with. -/
theorem readNonresidentMappings_of_runs
    (lowest : att.lowestVcn = 0) (word : att.validDataLength < 2 ^ 63)
    (stored : memory.read att.mappingPairs (encodeRuns 0 runs).length = encodeRuns 0 runs)
    (enough : runs.length < turns) :
    readNonresidentMappings undefinedShift memory turns att [] geometry.clusterSize
        att.validDataLength =
      (clipMappings (attributeClusters geometry att.validDataLength)
        (absoluteMappings 0 runs), .finished) := by
  rw [readNonresidentMappings, attributeClusters]
  split_ifs with empty
  · rw [empty, clipMappings_absoluteMappings_of_le le_rfl]
  · have last : maxCluster geometry.clusterSize att.validDataLength ≤ 2 ^ 63 :=
      attributeClusters_le word
    rw [lowest, readMappingsLoop_encodeRuns undefinedShift [] last
      (Nat.pos_of_ne_zero empty) (by norm_num) enough stored, List.nil_append]

/-- What is returned and read, in terms of the mappings. -/
theorem readNonresidentAttribute_of_runs
    (lowest : att.lowestVcn = 0) (whole : att.validDataLength = att.fileSize)
    (small : att.fileSize < halfWordModulus)
    (stored : memory.read att.mappingPairs (encodeRuns 0 runs).length = encodeRuns 0 runs)
    (enough : runs.length < turns) (before : offset < att.fileSize) (device : Store) :
    readNonresidentAttribute undefinedShift geometry device memory turns att offset length =
      .returned
        (readBuffer geometry device offset (requestLength att.fileSize offset length)
          (clipMappings (attributeClusters geometry att.fileSize)
            (absoluteMappings 0 runs))).1
        (readBuffer geometry device offset (requestLength att.fileSize offset length)
          (clipMappings (attributeClusters geometry att.fileSize)
            (absoluteMappings 0 runs))).2 := by
  rw [readNonresidentAttribute,
    readNonresidentMappings_of_runs lowest (by rw [whole]; exact small.trans (by decide)) stored
      enough, whole]
  exact if_neg (Nat.not_le.mpr before)

/-- Every position of the file is in a clipped mapping. -/
theorem exists_holdsByte
    (covering : att.fileSize ≤ (runs.map NtfsRun.length).sum * geometry.clusterSize)
    {position : Nat} (inFile : position < att.fileSize) :
    ∃ m ∈ absoluteMappings 0 runs, m.HoldsByte geometry.clusterSize position ∧
      m.vcn < attributeClusters geometry att.fileSize ∧
      Mapping.HoldsByte
        { m with length := min m.length (attributeClusters geometry att.fileSize - m.vcn) }
        geometry.clusterSize position := by
  have clusters := geometry.clusterSize_pos
  have rounded := fileSize_le_clusters geometry att.fileSize
  have cluster : position / geometry.clusterSize < (runs.map NtfsRun.length).sum := by
    rw [Nat.div_lt_iff_lt_mul clusters]
    omega
  have last : position / geometry.clusterSize < attributeClusters geometry att.fileSize := by
    rw [Nat.div_lt_iff_lt_mul clusters]
    omega
  obtain ⟨m, member, lower, upper⟩ := exists_mem_absoluteMappings (Nat.zero_le _)
    (by rwa [Nat.zero_add])
  refine ⟨m, member, (Mapping.holdsByte_iff clusters m position).mpr ⟨lower, upper⟩,
    by omega, (Mapping.holdsByte_iff clusters _ position).mpr ⟨lower, ?_⟩⟩
  simp only
  omega

/-- Clipping changes neither what is requested of a mapping nor what is read past it. -/
theorem clip_requested_iff
    {last : Nat} (fits : offset + length ≤ last * geometry.clusterSize) (positive : 0 < length)
    {m : Mapping} :
    (m.vcn < last ∧
      Mapping.Requested { m with length := min m.length (last - m.vcn) }
        geometry.clusterSize offset length) ↔
      m.Requested geometry.clusterSize offset length := by
  have clusters := geometry.clusterSize_pos
  simp only [Mapping.Requested]
  constructor
  · rintro ⟨before, lower, upper⟩
    refine ⟨lower, lt_of_lt_of_le upper (Nat.mul_le_mul_right _ (by omega))⟩
  · rintro ⟨lower, upper⟩
    have before : m.vcn < last := by
      by_contra past
      have scaled := Nat.mul_le_mul_right geometry.clusterSize (Nat.not_lt.mp past)
      omega
    refine ⟨before, lower, ?_⟩
    rcases Nat.le_total m.length (last - m.vcn) with short | long
    · rwa [Nat.min_eq_left short]
    · rw [Nat.min_eq_right long, Nat.add_sub_cancel' before.le]
      omega

theorem clip_overRead
    {last : Nat} (fits : offset + length ≤ last * geometry.clusterSize) {m : Mapping}
    (before : m.vcn < last) (extra : Nat) :
    (extra * geometry.clusterSize <
        Mapping.overRead { m with length := min m.length (last - m.vcn) }
          geometry.clusterSize offset length ↔
      extra * geometry.clusterSize < m.overRead geometry.clusterSize offset length) ∧
    (extra * geometry.clusterSize < m.overRead geometry.clusterSize offset length →
      min m.length (last - m.vcn) = m.length) := by
  simp only [Mapping.overRead]
  rcases Nat.le_total m.length (last - m.vcn) with short | long
  · rw [Nat.min_eq_left short]
    exact ⟨Iff.rfl, fun _ => rfl⟩
  · have scaled : last * geometry.clusterSize ≤ (m.vcn + m.length) * geometry.clusterSize :=
      Nat.mul_le_mul_right _ (by omega)
    rw [Nat.min_eq_right long, Nat.add_sub_cancel' before.le]
    omega

/-- The read returns the bytes of the attribute and reads its own clusters only. -/
def ReadsAttribute
    (undefinedShift : Nat → BitVec 64) (geometry : Geometry) (device memory : Store)
    (turns : Nat) (att : NonresidentAttribute) (runs : List NtfsRun) (offset length : Nat) :
    Prop :=
  ∃ reads,
    readNonresidentAttribute undefinedShift geometry device memory turns att offset length =
      .returned
        (attributeBytes device geometry.clusterSize (absoluteMappings 0 runs) offset length)
        reads ∧
    ∀ read ∈ reads, ∀ address, read.Contains address →
      OwnCluster (absoluteMappings 0 runs) (address / geometry.clusterSize)

/-- No hole is requested, and what is read past a mapping belongs to the attribute. -/
def OwnRequest (geometry : Geometry) (runs : List NtfsRun) (offset length : Nat) : Prop :=
  ∀ m ∈ absoluteMappings 0 runs, m.Requested geometry.clusterSize offset length →
    m.lcn ≠ 0 ∧
    ∀ extra, extra * geometry.clusterSize < m.overRead geometry.clusterSize offset length →
      OwnCluster (absoluteMappings 0 runs) (m.lcn + m.length + extra)

theorem requestLength_of_inside
    {fileSize : Nat} (positive : 0 < length) (inside : offset + length ≤ fileSize) :
    requestLength fileSize offset length = length :=
  if_neg (by omega)

theorem length_attributeBytes (device : Store) (clusterSize : Nat) (mappings : List Mapping)
    (offset length : Nat) :
    (attributeBytes device clusterSize mappings offset length).length = length := by
  simp [attributeBytes]

theorem getElem?_attributeBytes (device : Store) (clusterSize : Nat) (mappings : List Mapping)
    (offset : Nat) {index : Nat} (inside : index < length) :
    (attributeBytes device clusterSize mappings offset length)[index]? =
      some (attributeByte device clusterSize mappings (offset + index)) := by
  simp [attributeBytes, List.getElem?_range inside]

section Request

variable
  (lowest : att.lowestVcn = 0) (whole : att.validDataLength = att.fileSize)
  (small : att.fileSize < halfWordModulus)
  (stored : memory.read att.mappingPairs (encodeRuns 0 runs).length = encodeRuns 0 runs)
  (enough : runs.length < turns)

include lowest whole small stored enough

/-- A request for the rest of the file does not return the empty range. -/
theorem not_readsAttribute_of_zero (before : offset < att.fileSize) (device : Store) :
    ¬ ReadsAttribute undefinedShift geometry device memory turns att runs offset 0 := by
  have rest : requestLength att.fileSize offset 0 = att.fileSize - offset := by
    rw [requestLength, if_pos (Or.inr rfl), Nat.mod_eq_of_lt (by omega)]
  rintro ⟨reads, returned, -⟩
  rw [readNonresidentAttribute_of_runs lowest whole small stored enough before, rest] at returned
  obtain ⟨bytes, -⟩ := AttributeOutcome.returned.inj returned
  have tidy := (tidyMappings_absoluteMappings 0 runs).1.clip
    (attributeClusters geometry att.fileSize)
  have filled := (readBuffer_spec geometry tidy (Nat.sub_pos_of_lt before)
    (show offset + (att.fileSize - offset) < halfWordModulus by omega) device).1
  rw [bytes, length_attributeBytes] at filled
  omega

theorem readsAttribute_at_end (device : Store) :
    ReadsAttribute undefinedShift geometry device memory turns att runs att.fileSize 0 := by
  refine ⟨[], ?_, by simp⟩
  rw [readNonresidentAttribute,
    readNonresidentMappings_of_runs lowest (by rw [whole]; exact small.trans (by decide)) stored
      enough]
  exact if_pos le_rfl

/-- A hole is read from the first clusters of the device. -/
theorem lcn_ne_zero_of_readsAttribute
    (positive : 0 < length) (inside : offset + length ≤ att.fileSize)
    (reads : ReadsAttribute undefinedShift geometry (fun _ => 0xff) memory turns att runs
      offset length)
    {m : Mapping} (member : m ∈ absoluteMappings 0 runs)
    (requested : m.Requested geometry.clusterSize offset length) : m.lcn ≠ 0 := by
  intro hole
  obtain ⟨ranges, returned, -⟩ := reads
  rw [readNonresidentAttribute_of_runs lowest whole small stored enough (by omega),
    requestLength_of_inside positive inside] at returned
  obtain ⟨bytes, -⟩ := AttributeOutcome.returned.inj returned
  have fits := inside.trans (fileSize_le_clusters geometry att.fileSize)
  obtain ⟨before, clipped⟩ := (clip_requested_iff fits positive).mpr requested
  have tidy := (tidyMappings_absoluteMappings 0 runs).1
  obtain ⟨-, filled, -⟩ := readBuffer_spec geometry
    (tidy.clip (attributeClusters geometry att.fileSize)) positive
    (show offset + length < halfWordModulus by omega) (fun _ => 0xff)
  -- the first byte of the hole that is requested
  obtain ⟨index, place⟩ : ∃ index,
      offset + index = max offset (m.vcn * geometry.clusterSize) :=
    ⟨max offset (m.vcn * geometry.clusterSize) - offset, by omega⟩
  obtain ⟨lower, upper⟩ := requested
  obtain ⟨clippedLower, clippedUpper⟩ := clipped
  simp only at clippedLower clippedUpper
  have inRequest : index < length := by omega
  have nonempty := tidy.positive m member
  have start : m.vcn * geometry.clusterSize < (m.vcn + m.length) * geometry.clusterSize :=
    Nat.mul_lt_mul_of_pos_right (by omega) geometry.clusterSize_pos
  have clippedStart : m.vcn * geometry.clusterSize <
      (m.vcn + min m.length (attributeClusters geometry att.fileSize - m.vcn)) *
        geometry.clusterSize :=
    Nat.mul_lt_mul_of_pos_right (by omega) geometry.clusterSize_pos
  have byte := filled _ (mem_clipMappings_iff.mpr ⟨m, member, before, rfl⟩) index inRequest
    ⟨by simp only; omega, by simp only; omega⟩
  rw [bytes, getElem?_attributeBytes _ _ _ _ inRequest,
    attributeByte_eq geometry.clusterSize_pos tidy member ⟨by omega, by omega⟩,
    if_pos hole] at byte
  have value : (0 : UInt8) = 0xff := Option.some.inj byte
  exact absurd value (by decide)

/-- What is read past a mapping has to belong to the attribute. -/
theorem ownCluster_of_readsAttribute
    (positive : 0 < length) (inside : offset + length ≤ att.fileSize) {device : Store}
    (reads : ReadsAttribute undefinedShift geometry device memory turns att runs offset length)
    {m : Mapping} (member : m ∈ absoluteMappings 0 runs)
    (requested : m.Requested geometry.clusterSize offset length) {extra : Nat}
    (past : extra * geometry.clusterSize < m.overRead geometry.clusterSize offset length) :
    OwnCluster (absoluteMappings 0 runs) (m.lcn + m.length + extra) := by
  obtain ⟨ranges, returned, own⟩ := reads
  rw [readNonresidentAttribute_of_runs lowest whole small stored enough (by omega),
    requestLength_of_inside positive inside] at returned
  obtain ⟨-, log⟩ := AttributeOutcome.returned.inj returned
  have fits := inside.trans (fileSize_le_clusters geometry att.fileSize)
  obtain ⟨before, clipped⟩ := (clip_requested_iff fits positive).mpr requested
  obtain ⟨overRead, unclipped⟩ := clip_overRead fits before extra
  have tidy := (tidyMappings_absoluteMappings 0 runs).1.clip
    (attributeClusters geometry att.fileSize)
  have clippedMember := mem_clipMappings_iff.mpr ⟨m, member, before, rfl⟩
  obtain ⟨-, -, ranges_eq⟩ := readBuffer_spec geometry tidy positive
    (show offset + length < halfWordModulus by omega) device
  rw [log] at ranges_eq
  have read := readRange_contains_extra (tidy.positive _ clippedMember) positive clipped
    (overRead.mpr past)
  have mine := own _ (by
    rw [ranges_eq]
    exact List.mem_map_of_mem (List.mem_filter.mpr ⟨clippedMember, by simpa using clipped⟩))
    _ read
  simp only [unclipped past] at mine
  rwa [Nat.mul_div_cancel _ geometry.clusterSize_pos] at mine

/-- A request that touches no foreign byte is read right. -/
theorem readsAttribute_of_ownRequest
    (covering : att.fileSize ≤ (runs.map NtfsRun.length).sum * geometry.clusterSize)
    (positive : 0 < length) (inside : offset + length ≤ att.fileSize)
    (own : OwnRequest geometry runs offset length) (device : Store) :
    ReadsAttribute undefinedShift geometry device memory turns att runs offset length := by
  have fits := inside.trans (fileSize_le_clusters geometry att.fileSize)
  have tidy := (tidyMappings_absoluteMappings 0 runs).1
  obtain ⟨bufLength, filled, log⟩ := readBuffer_spec geometry
    (tidy.clip (attributeClusters geometry att.fileSize)) positive
    (show offset + length < halfWordModulus by omega) device
  refine ⟨(readBuffer geometry device offset length
      (clipMappings (attributeClusters geometry att.fileSize) (absoluteMappings 0 runs))).2,
    ?_, fun read member address contains => ?_⟩
  · rw [readNonresidentAttribute_of_runs lowest whole small stored enough (by omega),
      requestLength_of_inside positive inside]
    refine congrArg (AttributeOutcome.returned · _) (List.ext_getElem? fun index => ?_)
    rcases Nat.lt_or_ge index length with inRequest | past
    · obtain ⟨m, member, holds, before, clippedHolds⟩ :=
        exists_holdsByte covering (show offset + index < att.fileSize by omega)
      have requested : m.Requested geometry.clusterSize offset length := by
        obtain ⟨lower, upper⟩ := holds
        exact ⟨by omega, by omega⟩
      rw [filled _ (mem_clipMappings_iff.mpr ⟨m, member, before, rfl⟩) index inRequest
          clippedHolds,
        getElem?_attributeBytes _ _ _ _ inRequest,
        attributeByte_eq geometry.clusterSize_pos tidy member holds,
        if_neg (own m member requested).1]
      rfl
    · rw [List.getElem?_eq_none (by omega),
        List.getElem?_eq_none (by rw [length_attributeBytes]; exact past)]
  · rw [log] at member
    obtain ⟨piece, inFilter, rfl⟩ := List.mem_map.mp member
    obtain ⟨pieceMember, pieceRequested⟩ := List.mem_filter.mp inFilter
    have asked : piece.Requested geometry.clusterSize offset length := by
      simpa using pieceRequested
    have nonempty := (tidy.clip _).positive piece pieceMember
    obtain ⟨m, inRuns, before, rfl⟩ := mem_clipMappings_iff.mp pieceMember
    have requested := (clip_requested_iff fits positive).mp ⟨before, asked⟩
    obtain ⟨present, extras⟩ := own m inRuns requested
    rcases cluster_of_readRange nonempty positive asked contains with
      ⟨lower, upper⟩ | ⟨extra, past, equal⟩
    · exact ⟨m, inRuns, present, lower, by simp only at upper; omega⟩
    · obtain ⟨overRead, unclipped⟩ := clip_overRead fits before extra
      have pastWhole := overRead.mp past
      rw [equal]
      simp only [unclipped pastWhole]
      exact extras extra pastWhole

end Request

/--
A request inside the file is read right on every device if and only if it is
not the empty range before the end of the file, asks for no hole, and what is
read past a mapping belongs to the attribute.
-/
theorem readNonresidentAttribute_exact_iff
    (lowest : att.lowestVcn = 0) (whole : att.validDataLength = att.fileSize)
    (small : att.fileSize < halfWordModulus)
    (stored : memory.read att.mappingPairs (encodeRuns 0 runs).length = encodeRuns 0 runs)
    (enough : runs.length < turns)
    (covering : att.fileSize ≤ (runs.map NtfsRun.length).sum * geometry.clusterSize)
    (inside : offset + length ≤ att.fileSize) :
    (∀ device, ReadsAttribute undefinedShift geometry device memory turns att runs
        offset length) ↔
      (length = 0 → offset = att.fileSize) ∧
      (0 < length → OwnRequest geometry runs offset length) := by
  rcases Nat.eq_zero_or_pos length with rfl | positive
  · simp only [forall_const, lt_irrefl, IsEmpty.forall_iff, and_true]
    rcases Nat.eq_or_lt_of_le (show offset ≤ att.fileSize by omega) with rfl | before
    · exact iff_of_true (readsAttribute_at_end lowest whole small stored enough) rfl
    · refine iff_of_false (fun all => ?_) before.ne
      exact not_readsAttribute_of_zero lowest whole small stored enough before _
        (all fun _ => 0)
  · simp only [positive.ne', IsEmpty.forall_iff, true_and, positive, forall_const]
    constructor
    · intro all m member requested
      refine ⟨lcn_ne_zero_of_readsAttribute lowest whole small stored enough positive inside
        (all _) member requested, fun extra past => ?_⟩
      exact ownCluster_of_readsAttribute lowest whole small stored enough positive inside
        (all fun _ => 0) member requested past
    · exact fun own device =>
        readsAttribute_of_ownRequest lowest whole small stored enough covering positive inside
          own device

end Whole

/-- Sectors of 512 bytes and clusters of 4096 bytes. -/
def smallGeometry : Geometry :=
  ⟨512, 8, 12, by decide, by decide⟩

/-- One cluster, and a hole of one cluster after it. -/
def clusterAndHole : List NtfsRun :=
  [⟨1, some 100, by decide, by decide, by decide⟩, ⟨1, none, by decide, by decide, by decide⟩]

theorem readNonresidentAttribute_exact_iff_cluster_and_hole :
    (∀ device, ReadsAttribute (fun _ => 0) smallGeometry device
        (Store.ofBytes [0x11, 1, 100, 0x01, 1, 0]) 3
        { lowestVcn := 0, mappingPairs := 0, fileSize := 8192, validDataLength := 8192 }
        clusterAndHole 10 20) ↔
      (20 = 0 → 10 = 8192) ∧ (0 < 20 → OwnRequest smallGeometry clusterAndHole 10 20) :=
  @readNonresidentAttribute_exact_iff (fun _ => 0) smallGeometry
    (Store.ofBytes [0x11, 1, 100, 0x01, 1, 0])
    { lowestVcn := 0, mappingPairs := 0, fileSize := 8192, validDataLength := 8192 }
    clusterAndHole 3 10 20 rfl rfl (by decide) (by decide +kernel) (by decide) (by decide)
    (by decide)

/--
A byte of a hole is read from the first cluster of the device, and a request
across the end of a stretch reads the cluster behind the stretch.
-/
theorem readNonresidentAttribute_reads_foreign_clusters :
    (readNonresidentAttribute (fun _ => 0) smallGeometry (fun _ => 0xff)
        (Store.ofBytes [0x11, 1, 100, 0x01, 1, 0]) 3
        { lowestVcn := 0, mappingPairs := 0, fileSize := 8192, validDataLength := 8192 }
        4096 1 = .returned [0xff] [⟨0, 512⟩] ∧
      attributeBytes (fun _ => 0xff) 4096 (absoluteMappings 0 clusterAndHole) 4096 1 = [0]) ∧
    readNonresidentAttribute (fun _ => 0) smallGeometry (fun _ => 0xff)
        (Store.ofBytes [0x11, 1, 100, 0x11, 1, 100, 0]) 3
        { lowestVcn := 0, mappingPairs := 0, fileSize := 8192, validDataLength := 8192 }
        4095 2 =
      .returned [0xff, 0xff] [⟨100 * 4096 + 3584, 1024⟩, ⟨200 * 4096, 512⟩] := by
  decide +kernel

end Ntfs2Btrfs
