import Ntfs2Btrfs.AttributeRead

/-!
# Reading a part of an index

`read_from_mappings` reads an index record from the mappings of the index
allocation.  It takes every mapping near the range for one that begins before
the range: the bytes of a mapping are copied to the start of the result, from
the place in its buffer where they would stand in the result.
-/

namespace Ntfs2Btrfs

open ByteStore

/-! ## The code -/

/-- A copy from outside the buffer that was read, or to outside the result. -/
inductive CopyFault where
  | outside
deriving DecidableEq, Repr

/-- The result so far, and whether the size of a part has wrapped around. -/
structure PartialRead where
  bytes : Bytes
  wrapped : Bool := false
deriving DecidableEq, Repr

section Code

variable (geometry : Geometry) (device : Store) (start length : Nat)

/-- The part of a mapping from `readStart` to `readEnd` is read and copied. -/
def copyPart (readStart readEnd : Nat) (s : PartialRead) (m : Mapping) :
    Except CopyFault PartialRead :=
  let clusterSize := geometry.clusterSize
  let size := wordSub readEnd readStart
  let buf :=
    device.read (readStart + m.lcn * clusterSize - m.vcn * clusterSize)
      (size % halfWordModulus)
  let count := min size (wordSub (start + length) readStart)
  if start ≤ readStart ∧ readStart - start + count ≤ buf.length ∧ count ≤ s.bytes.length then
    .ok ⟨patch s.bytes 0 (slice buf (readStart - start) count),
      s.wrapped || decide (readEnd < readStart ∨ start + length < readStart)⟩
  else .error .outside

/-- One turn of the loop over the mappings. -/
def copyNearMapping (s : PartialRead) (m : Mapping) : Except CopyFault PartialRead :=
  let clusterSize := geometry.clusterSize
  let sectorSize := geometry.bytesPerSector
  let clusterStart := start / clusterSize
  let clusterEnd := sectorAlign (start + length) clusterSize / clusterSize
  if m.vcn ≤ clusterEnd ∧ m.vcn + m.length ≥ clusterStart then
    let readStart := max (start - start % sectorSize) (m.vcn * clusterSize)
    let readEnd :=
      min (sectorAlign (start + length) sectorSize) ((m.vcn + m.length) * clusterSize)
    if readEnd = readStart then .ok s
    else copyPart geometry device start length readStart readEnd s m
  else .ok s

/-- `read_from_mappings`. -/
def readFromMappings (mappings : List Mapping) : Except CopyFault PartialRead :=
  mappings.foldlM (copyNearMapping geometry device start length)
    { bytes := List.replicate length 0 }

end Code

/-! ## Where a mapping lies -/

section Near

variable (geometry : Geometry) (start length : Nat) (m : Mapping)

/-- The mapping has a cluster of the range, or one next to the clusters of the range. -/
def Mapping.Near : Prop :=
  m.vcn ≤ sectorAlign (start + length) geometry.clusterSize / geometry.clusterSize ∧
    start / geometry.clusterSize ≤ m.vcn + m.length

/-- The mapping holds the whole range. -/
def Mapping.HoldsRange : Prop :=
  m.vcn * geometry.clusterSize ≤ start ∧
    start + length ≤ (m.vcn + m.length) * geometry.clusterSize

/-- The mapping and the range have exactly one boundary in common. -/
def Mapping.Touches : Prop :=
  max start (m.vcn * geometry.clusterSize) =
    min (start + length) ((m.vcn + m.length) * geometry.clusterSize)

end Near

theorem sectorAlign_of_dvd {value sector : Nat} (positive : 0 < sector) (aligned : sector ∣ value) :
    sectorAlign value sector = value := by
  obtain ⟨count, rfl⟩ := aligned
  have floor : (sector * count + sector - 1) / sector = count := by
    rw [Nat.add_sub_assoc positive, Nat.mul_add_div positive,
      Nat.div_eq_of_lt (Nat.sub_lt positive Nat.one_pos), Nat.add_zero]
  rw [sectorAlign, floor, Nat.mul_comm]

section Steps

variable {geometry : Geometry} {start length : Nat} {m : Mapping}

theorem Mapping.near_of_lt
    (before : m.vcn * geometry.clusterSize < start + length)
    (after : start ≤ (m.vcn + m.length) * geometry.clusterSize) :
    m.Near geometry start length := by
  have positive := geometry.clusterSize_pos
  refine ⟨?_, ?_⟩
  · rw [sectorAlign, Nat.mul_div_cancel _ positive, Nat.le_div_iff_mul_le positive]
    omega
  · exact (Nat.div_le_div_right after).trans_eq (Nat.mul_div_cancel _ positive)

variable
  (startAligned : geometry.bytesPerSector ∣ start)
  (lengthAligned : geometry.bytesPerSector ∣ length)
  (device : Store)

include startAligned lengthAligned

/-- The turn of the loop for an aligned range. -/
theorem copyNearMapping_eq (s : PartialRead) (near : m.Near geometry start length) :
    copyNearMapping geometry device start length s m =
      if min (start + length) ((m.vcn + m.length) * geometry.clusterSize) =
          max start (m.vcn * geometry.clusterSize) then .ok s
      else
        copyPart geometry device start length (max start (m.vcn * geometry.clusterSize))
          (min (start + length) ((m.vcn + m.length) * geometry.clusterSize)) s m := by
  have whole : start - start % geometry.bytesPerSector = start := by
    rw [Nat.mod_eq_zero_of_dvd startAligned, Nat.sub_zero]
  have aligned : sectorAlign (start + length) geometry.bytesPerSector = start + length :=
    sectorAlign_of_dvd geometry.bytesPerSector_pos (Nat.dvd_add startAligned lengthAligned)
  refine (if_pos near).trans ?_
  rw [whole, aligned]

/-- A mapping that holds the range is read from its place in the mapping. -/
theorem copyNearMapping_of_holdsRange
    (word : length < halfWordModulus) {s : PartialRead} (size : s.bytes.length = length)
    (near : m.Near geometry start length) (holds : m.HoldsRange geometry start length) :
    copyNearMapping geometry device start length s m =
      .ok { s with
        bytes := device.read
          (m.lcn * geometry.clusterSize + (start - m.vcn * geometry.clusterSize)) length } := by
  obtain ⟨before, after⟩ := holds
  obtain ⟨bytes, wrapped⟩ := s
  have size : bytes.length = length := size
  rw [copyNearMapping_eq startAligned lengthAligned device _ near, Nat.max_eq_left before,
    Nat.min_eq_left after]
  by_cases empty : length = 0
  · have nothing : bytes = [] := List.length_eq_zero_iff.mp (size.trans empty)
    rw [if_pos (by omega), empty, nothing]
    rfl
  · have difference : wordSub (start + length) start = length := by
      rw [halfWordModulus] at word
      rw [wordSub, wordModulus]
      omega
    have place :
        start + m.lcn * geometry.clusterSize - m.vcn * geometry.clusterSize =
          m.lcn * geometry.clusterSize + (start - m.vcn * geometry.clusterSize) := by
      omega
    have whole (data : Bytes) (dataLength : data.length = length) :
        patch bytes 0 (slice data 0 length) = data := by
      rw [slice, List.drop_zero, List.take_of_length_le dataLength.le, patch, List.take_zero,
        List.nil_append, List.drop_eq_nil_of_le (by omega), List.append_nil]
    have ordered : ¬ (start + length < start ∨ start + length < start) := by omega
    rw [if_neg (by omega), copyPart, difference, place, Nat.mod_eq_of_lt word, Nat.sub_self,
      Nat.zero_add, Nat.min_self, Store.length_read, if_pos ⟨le_rfl, le_rfl, size.ge⟩,
      whole _ (Store.length_read _ _ _), decide_eq_false ordered, Bool.or_false]

theorem copyNearMapping_of_touches
    (s : PartialRead) (touches : m.Touches geometry start length) :
    copyNearMapping geometry device start length s m = .ok s := by
  by_cases near : m.Near geometry start length
  · rw [copyNearMapping_eq startAligned lengthAligned device s near, if_pos touches.symm]
  · exact if_neg near

/-- A part that does not begin with the range is copied from behind its buffer. -/
theorem copyNearMapping_of_late
    (word : length < halfWordModulus) (s : PartialRead) (late : start < m.vcn * geometry.clusterSize)
    (before : m.vcn * geometry.clusterSize < start + length)
    (positive : 0 < m.length) :
    copyNearMapping geometry device start length s m = .error .outside := by
  have nonempty : m.vcn * geometry.clusterSize < (m.vcn + m.length) * geometry.clusterSize :=
    Nat.mul_lt_mul_of_pos_right (by omega) geometry.clusterSize_pos
  have near : m.Near geometry start length := Mapping.near_of_lt before (by omega)
  rw [halfWordModulus] at word
  have late' := late.le
  rw [copyNearMapping_eq startAligned lengthAligned device s near, Nat.max_eq_right late']
  generalize (m.vcn + m.length) * geometry.clusterSize = stop at nonempty
  generalize m.vcn * geometry.clusterSize = first at *
  have size : wordSub (min (start + length) stop) first = min (start + length) stop - first := by
    rw [wordSub, wordModulus]
    omega
  have rest : wordSub (start + length) first = start + length - first := by
    rw [wordSub, wordModulus]
    omega
  rw [if_neg (by omega), copyPart, size, rest]
  refine if_neg fun fits => ?_
  obtain ⟨-, inside, -⟩ := fits
  rw [Store.length_read, halfWordModulus] at inside
  omega

/-- A mapping near the range but outside it makes the size of its part wrap around. -/
theorem copyNearMapping_of_outside
    (s : PartialRead) (near : m.Near geometry start length)
    (outside : min (start + length) ((m.vcn + m.length) * geometry.clusterSize) <
      max start (m.vcn * geometry.clusterSize)) :
    copyNearMapping geometry device start length s m = .error .outside ∨
      ∃ bytes, copyNearMapping geometry device start length s m = .ok ⟨bytes, true⟩ := by
  rw [copyNearMapping_eq startAligned lengthAligned device s near, if_neg outside.ne, copyPart]
  rw [decide_eq_true (Or.inl outside), Bool.or_true]
  split_ifs
  · exact Or.inr ⟨_, rfl⟩
  · exact Or.inl rfl

end Steps

/-- A size that has wrapped around stays on record. -/
theorem copyNearMapping_wrapped
    {geometry : Geometry} {device : Store} {start length : Nat} {s next : PartialRead}
    {m : Mapping} (step : copyNearMapping geometry device start length s m = .ok next)
    (wrapped : s.wrapped = true) : next.wrapped = true := by
  rw [copyNearMapping] at step
  simp only [copyPart] at step
  split_ifs at step
  · rw [← Except.ok.inj step]
    exact wrapped
  · rw [← Except.ok.inj step]
    exact Bool.or_eq_true_iff.mpr (Or.inl wrapped)
  · rw [← Except.ok.inj step]
    exact wrapped

/-! ## The bytes of the range -/

/-- Mappings in the order of their clusters, without a cluster in common. -/
def OrderedMappings (mappings : List Mapping) : Prop :=
  mappings.Pairwise fun left right => left.vcn + left.length ≤ right.vcn

/-- Two of them are equal or one lies before the other. -/
theorem OrderedMappings.eq_or_before
    {mappings : List Mapping} (ordered : OrderedMappings mappings) {left right : Mapping}
    (leftMember : left ∈ mappings) (rightMember : right ∈ mappings) :
    left = right ∨ left.vcn + left.length ≤ right.vcn ∨ right.vcn + right.length ≤ left.vcn := by
  induction mappings with
  | nil => exact absurd leftMember List.not_mem_nil
  | cons head rest induction =>
      obtain ⟨later, restOrdered⟩ := List.pairwise_cons.mp ordered
      rcases List.mem_cons.mp leftMember with rfl | leftRest
      · rcases List.mem_cons.mp rightMember with rfl | rightRest
        · exact Or.inl rfl
        · exact Or.inr (Or.inl (later right rightRest))
      · rcases List.mem_cons.mp rightMember with rfl | rightRest
        · exact Or.inr (Or.inr (later left leftRest))
        · exact induction restOrdered leftRest rightRest

/-- The byte of an attribute without holes, from the mapping that holds it. -/
theorem OrderedMappings.attributeByte_eq
    {mappings : List Mapping} (ordered : OrderedMappings mappings) {clusterSize : Nat}
    (positive : 0 < clusterSize) {m : Mapping} (member : m ∈ mappings) (stored : m.lcn ≠ 0)
    {position : Nat} (holds : m.HoldsByte clusterSize position) (device : Store) :
    attributeByte device clusterSize mappings position =
      m.deviceByte device clusterSize position := by
  rw [attributeByte]
  cases found : mappings.find? fun m => m.HoldsByte clusterSize position with
  | none => exact absurd holds (by simpa using List.find?_eq_none.mp found m member)
  | some other =>
    have otherHolds : other.HoldsByte clusterSize position := by
      simpa using List.find?_some found
    have same : other = m := by
      rw [Mapping.holdsByte_iff positive] at holds otherHolds
      rcases ordered.eq_or_before (List.mem_of_find?_eq_some found) member with same | apart
      · exact same
      · omega
    rw [same]
    exact if_neg stored

theorem OrderedMappings.attributeBytes_eq
    {mappings : List Mapping} (ordered : OrderedMappings mappings) {geometry : Geometry}
    {start length : Nat} {m : Mapping} (member : m ∈ mappings) (stored : m.lcn ≠ 0)
    (holds : m.HoldsRange geometry start length) (device : Store) :
    attributeBytes device geometry.clusterSize mappings start length =
      device.read
        (m.lcn * geometry.clusterSize + (start - m.vcn * geometry.clusterSize)) length := by
  obtain ⟨before, after⟩ := holds
  rw [attributeBytes, Store.read]
  refine List.map_congr_left fun index inside => ?_
  have small := List.mem_range.mp inside
  rw [ordered.attributeByte_eq geometry.clusterSize_pos member stored
    ⟨before.trans (Nat.le_add_right _ _), by omega⟩, Mapping.deviceByte]
  congr 1
  omega

/-! ## The loop -/

section Loop

variable {geometry : Geometry} {device : Store} {start length : Nat}

/-- Turns that keep the result or set it to the same bytes do so together. -/
theorem foldlM_keeps_or_sets
    {data : Bytes} (dataLength : data.length = length) (list : List Mapping)
    (steps : ∀ m ∈ list, ∀ s : PartialRead, s.bytes.length = length →
      copyNearMapping geometry device start length s m = .ok s ∨
        copyNearMapping geometry device start length s m = .ok { s with bytes := data }) :
    ∀ s : PartialRead, s.bytes.length = length →
      ∃ final, list.foldlM (copyNearMapping geometry device start length) s = .ok final ∧
        (final = s ∨ final = { s with bytes := data }) := by
  induction list with
  | nil => exact fun s _ => ⟨s, rfl, Or.inl rfl⟩
  | cons m rest induction =>
      intro s size
      have later := induction fun other member => steps other (List.mem_cons_of_mem m member)
      rw [List.foldlM_cons]
      rcases steps m List.mem_cons_self s size with kept | set
      · rw [kept]
        exact later s size
      · rw [set]
        obtain ⟨final, folded, same⟩ := later { s with bytes := data } dataLength
        refine ⟨final, folded, Or.inr ?_⟩
        rcases same with same | same
        · exact same
        · exact same

theorem foldlM_wrapped (list : List Mapping) :
    ∀ {s final : PartialRead},
      list.foldlM (copyNearMapping geometry device start length) s = .ok final →
        s.wrapped = true → final.wrapped = true := by
  induction list with
  | nil =>
      intro s final folded wrapped
      rw [← Except.ok.inj folded]
      exact wrapped
  | cons m rest induction =>
      intro s final folded wrapped
      rw [List.foldlM_cons] at folded
      cases step : copyNearMapping geometry device start length s m with
      | error fault =>
        rw [step] at folded
        cases folded
      | ok next =>
        rw [step] at folded
        exact induction folded (copyNearMapping_wrapped step wrapped)

/-- One turn that fails or wraps around shows in the result. -/
theorem foldlM_of_fault
    {mappings : List Mapping} {m : Mapping} (member : m ∈ mappings)
    (fault : ∀ s : PartialRead,
      copyNearMapping geometry device start length s m = .error .outside ∨
        ∃ bytes, copyNearMapping geometry device start length s m = .ok ⟨bytes, true⟩)
    {s final : PartialRead}
    (folded : mappings.foldlM (copyNearMapping geometry device start length) s = .ok final) :
    final.wrapped = true := by
  obtain ⟨front, back, rfl⟩ := List.append_of_mem member
  rw [List.foldlM_append] at folded
  cases early : front.foldlM (copyNearMapping geometry device start length) s with
  | error stop =>
    rw [early] at folded
    cases folded
  | ok middle =>
    rw [early] at folded
    change (m :: back).foldlM (copyNearMapping geometry device start length) middle = _ at folded
    rw [List.foldlM_cons] at folded
    rcases fault middle with failed | ⟨bytes, wrapped⟩
    · rw [failed] at folded
      cases folded
    · rw [wrapped] at folded
      exact foldlM_wrapped back folded rfl

end Loop

section Whole

variable {geometry : Geometry} {device : Store} {mappings : List Mapping} {start length : Nat}
  (ordered : OrderedMappings mappings)
  (covered : ∀ position, start ≤ position → position < start + length →
    ∃ m ∈ mappings, m.HoldsByte geometry.clusterSize position)
  (startAligned : geometry.bytesPerSector ∣ start)
  (lengthAligned : geometry.bytesPerSector ∣ length) (word : length < halfWordModulus)

include ordered covered

/-- A mapping that ends inside the range is followed by one that begins there. -/
theorem exists_late_mapping
    {m : Mapping} (member : m ∈ mappings)
    (before : m.vcn * geometry.clusterSize ≤ start)
    (inside : start < (m.vcn + m.length) * geometry.clusterSize)
    (ends : (m.vcn + m.length) * geometry.clusterSize < start + length) :
    ∃ next ∈ mappings, start < next.vcn * geometry.clusterSize ∧
      next.vcn * geometry.clusterSize < start + length ∧ 0 < next.length := by
  obtain ⟨next, nextMember, lower, upper⟩ := covered _ inside.le ends
  have positive := geometry.clusterSize_pos
  have lower' : next.vcn ≤ m.vcn + m.length := Nat.le_of_mul_le_mul_right lower positive
  have upper' : m.vcn + m.length < next.vcn + next.length := Nat.lt_of_mul_lt_mul_right upper
  have starts : next.vcn = m.vcn + m.length := by
    rcases ordered.eq_or_before member nextMember with rfl | behind | front
    · omega
    · omega
    · have early := Nat.mul_le_mul_right geometry.clusterSize front
      omega
  refine ⟨next, nextMember, ?_, ?_, by omega⟩
  · rw [starts]
    exact inside
  · rw [starts]
    exact ends

include startAligned lengthAligned word

theorem readFromMappings_of_good
    (stored : ∀ m ∈ mappings, m.lcn ≠ 0)
    (good : ∀ m ∈ mappings, m.Near geometry start length →
      m.HoldsRange geometry start length ∨ m.Touches geometry start length) :
    readFromMappings geometry device start length mappings =
      .ok ⟨attributeBytes device geometry.clusterSize mappings start length, false⟩ := by
  have dataLength := length_attributeBytes device geometry.clusterSize mappings start length
  have holding {m : Mapping} (member : m ∈ mappings) (near : m.Near geometry start length)
      (holds : m.HoldsRange geometry start length) {s : PartialRead}
      (size : s.bytes.length = length) :
      copyNearMapping geometry device start length s m =
        .ok { s with
          bytes := attributeBytes device geometry.clusterSize mappings start length } := by
    rw [ordered.attributeBytes_eq member (stored m member) holds]
    exact copyNearMapping_of_holdsRange startAligned lengthAligned device word size near holds
  have steps (m : Mapping) (member : m ∈ mappings) (s : PartialRead)
      (size : s.bytes.length = length) :
      copyNearMapping geometry device start length s m = .ok s ∨
        copyNearMapping geometry device start length s m =
          .ok { s with
            bytes := attributeBytes device geometry.clusterSize mappings start length } := by
    by_cases near : m.Near geometry start length
    · rcases good m member near with holds | touches
      · exact Or.inr (holding member near holds size)
      · exact Or.inl (copyNearMapping_of_touches startAligned lengthAligned device s touches)
    · exact Or.inl (if_neg near)
  have initial : (List.replicate length (0 : UInt8)).length = length := List.length_replicate
  rcases Nat.eq_zero_or_pos length with empty | positive
  · obtain ⟨final, folded, same⟩ :=
      foldlM_keeps_or_sets dataLength mappings steps { bytes := List.replicate length 0 } initial
    have nothing : attributeBytes device geometry.clusterSize mappings start length =
        List.replicate length 0 := by
      rw [empty]
      rfl
    rw [nothing] at same ⊢
    rw [readFromMappings, folded, or_self_iff.mp same]
  · -- the mapping that holds the first byte holds all of them
    obtain ⟨m, member, before, after⟩ := covered start le_rfl (by omega)
    have near : m.Near geometry start length := Mapping.near_of_lt (by omega) after.le
    have holds : m.HoldsRange geometry start length := by
      refine (good m member near).resolve_right fun touches => ?_
      rw [Mapping.Touches] at touches
      omega
    obtain ⟨front, back, rfl⟩ := List.append_of_mem member
    obtain ⟨middle, early, same⟩ :=
      foldlM_keeps_or_sets dataLength front
        (fun other inFront => steps other (List.mem_append_left _ inFront))
        { bytes := List.replicate length 0 } initial
    have middleSize : middle.bytes.length = length := by
      rcases same with rfl | rfl
      · exact initial
      · exact dataLength
    have middlePlain : middle.wrapped = false := by
      rcases same with rfl | rfl <;> rfl
    obtain ⟨final, late, same'⟩ :=
      foldlM_keeps_or_sets dataLength back
        (fun other inBack => steps other
          (List.mem_append_right _ (List.mem_cons_of_mem m inBack)))
        { middle with
          bytes :=
            attributeBytes device geometry.clusterSize (front ++ m :: back) start length }
        dataLength
    rw [readFromMappings, List.foldlM_append, early]
    change (m :: back).foldlM (copyNearMapping geometry device start length) middle = _
    rw [List.foldlM_cons, holding member near holds middleSize]
    refine late.trans ?_
    rw [or_self_iff.mp same', middlePlain]

/--
The bytes of an aligned range are read, without a size that wraps around,
exactly when every mapping near the range holds all of it or has only a boundary
in common with it.
-/
theorem readFromMappings_iff
    (stored : ∀ m ∈ mappings, m.lcn ≠ 0) :
    readFromMappings geometry device start length mappings =
        .ok ⟨attributeBytes device geometry.clusterSize mappings start length, false⟩ ↔
      ∀ m ∈ mappings, m.Near geometry start length →
        m.HoldsRange geometry start length ∨ m.Touches geometry start length := by
  refine ⟨fun read m member near => ?_, fun good =>
    readFromMappings_of_good ordered covered startAligned lengthAligned word stored good⟩
  by_contra bad
  obtain ⟨notHolds, notTouches⟩ := not_or.mp bad
  have late {other : Mapping} (otherMember : other ∈ mappings)
      (after : start < other.vcn * geometry.clusterSize)
      (before : other.vcn * geometry.clusterSize < start + length)
      (positive : 0 < other.length) : False := by
    have wrapped := foldlM_of_fault otherMember (fun s =>
      Or.inl (copyNearMapping_of_late startAligned lengthAligned device word s after before
        positive)) read
    cases wrapped
  rw [Mapping.Touches] at notTouches
  rcases lt_or_gt_of_ne notTouches with nonempty | outside
  · rcases Nat.lt_or_ge start (m.vcn * geometry.clusterSize) with after | before
    · refine late member after (by omega) ?_
      by_contra empty
      rw [Nat.eq_zero_of_not_pos empty, Nat.add_zero] at nonempty
      omega
    · have inside : start < (m.vcn + m.length) * geometry.clusterSize := by omega
      have ends : (m.vcn + m.length) * geometry.clusterSize < start + length := by
        by_contra holds
        exact notHolds ⟨before, Nat.le_of_not_lt holds⟩
      obtain ⟨next, nextMember, nextAfter, nextBefore, positive⟩ :=
        exists_late_mapping ordered covered member before inside ends
      exact late nextMember nextAfter nextBefore positive
  · have wrapped := foldlM_of_fault member (fun s =>
      copyNearMapping_of_outside startAligned lengthAligned device s near outside) read
    cases wrapped

end Whole

/-- The second cluster of a mapping of two clusters is read. -/
theorem readFromMappings_iff_small :
    readFromMappings ⟨512, 8, 12, by decide, rfl⟩ (fun _ => 0) 4096 4096 [⟨100, 0, 2⟩] =
      .ok ⟨attributeBytes (fun _ => 0) (Geometry.clusterSize ⟨512, 8, 12, by decide, rfl⟩)
        [⟨100, 0, 2⟩] 4096 4096, false⟩ := by
  have holds : Mapping.HoldsRange ⟨512, 8, 12, by decide, rfl⟩ 4096 4096 ⟨100, 0, 2⟩ :=
    ⟨by decide, by decide⟩
  refine (readFromMappings_iff (List.pairwise_singleton _ _) ?_ (by decide) (by decide)
    (by decide) ?_).mpr ?_
  · refine fun position lower upper => ⟨_, List.mem_singleton_self _, ?_⟩
    exact ⟨holds.1.trans lower, lt_of_lt_of_le upper holds.2⟩
  · simp
  · intro m member _
    rw [List.mem_singleton.mp member]
    exact Or.inl holds

/-- An index record of 1024 bytes in two fragments of one cluster each. -/
theorem readFromMappings_two_fragments :
    let geometry : Geometry := ⟨512, 1, 9, by decide, rfl⟩
    let mappings : List Mapping := [⟨10, 0, 1⟩, ⟨20, 1, 1⟩]
    OrderedMappings mappings ∧ (∀ m ∈ mappings, m.lcn ≠ 0) ∧
      (∀ position, 0 ≤ position → position < 0 + 1024 →
        ∃ m ∈ mappings, m.HoldsByte geometry.clusterSize position) ∧
      readFromMappings geometry (fun _ => 0) 0 1024 mappings = .error .outside := by
  refine ⟨by simp [OrderedMappings], by simp, fun position _ upper => ?_, by decide +kernel⟩
  have size : Geometry.clusterSize ⟨512, 1, 9, by decide, rfl⟩ = 512 := rfl
  simp only [Mapping.HoldsByte, List.mem_cons, List.not_mem_nil, or_false, exists_eq_or_imp,
    exists_eq_left, size]
  omega

end Ntfs2Btrfs
