import Ntfs2Btrfs.AttributeOrder
import Ntfs2Btrfs.AttributeRead

/-!
# Reading an attribute of a file

`ntfs_file::read` and `ntfs_file::read_mappings` walk over the attribute
records of a file up to the first one of the type and the name that they are
called with.  The rest of an attribute that is held in several records is not
looked at.
-/

namespace Ntfs2Btrfs

open ByteStore Extents Visits

/-! ## The code -/

def attributeFlagEncrypted : Nat := 0x4000

def attributeFlagCompressionMask : Nat := 0x00ff

/-- `Flags` of an attribute record. -/
def attributeFlags (record : Bytes) (att : Nat) : Walk Nat :=
  field record (att + 12) 2

/-- `Form.Nonresident.MappingPairsOffset`. -/
def mappingPairsOffset (record : Bytes) (att : Nat) : Walk Nat :=
  field record (att + 32) 2

/-- `Form.Nonresident.FileSize`. -/
def fileSizeField (record : Bytes) (att : Nat) : Walk Nat :=
  field record (att + 48) 8

/-- `Form.Nonresident.ValidDataLength`. -/
def validDataLengthField (record : Bytes) (att : Nat) : Walk Nat :=
  field record (att + 56) 8

/-- The fields of a non-resident attribute record. -/
def nonresidentFields (record : Bytes) (att : Nat) : Walk NonresidentAttribute := do
  let lowest ← field record (att + 16) 8
  let pairs ← mappingPairsOffset record att
  let size ← fileSizeField record att
  let valid ← validDataLengthField record att
  return { lowestVcn := lowest, mappingPairs := att + pairs, fileSize := size,
           validDataLength := valid }

/-- The volume that a file is on. -/
structure NtfsVolume where
  undefinedShift : Nat → BitVec 64
  geometry : Geometry
  device : Store

/-- `read_nonresident_attribute` on a record of the file. -/
def NtfsVolume.readAttribute
    (volume : NtfsVolume) (record : Bytes) (att offset length : Nat) : Walk Bytes := do
  let fields ← nonresidentFields record att
  match readNonresidentAttribute volume.undefinedShift volume.geometry volume.device
      (Store.ofBytes record) (record.length + 1) fields offset length with
  | .running => .error .running
  | .threw error => .error (.threw error)
  | .returned buf _ => .ok buf

/-- `read_nonresident_mappings` on a record of the file. -/
def NtfsVolume.readMappings
    (volume : NtfsVolume) (record : Bytes) (att : Nat) (mappings : List Mapping) :
    Walk (List Mapping) := do
  let fields ← nonresidentFields record att
  match readNonresidentMappings volume.undefinedShift (Store.ofBytes record)
      (record.length + 1) fields mappings volume.geometry.clusterSize
      fields.validDataLength with
  | (_, .running) => .error .running
  | (_, .failed error) => .error (.threw error)
  | (mappings, .finished) => .ok mappings

/-- The part of a resident value that is asked for. -/
def residentPart (value : Bytes) (offset length : Nat) : Bytes :=
  if offset ≥ value.length then []
  else slice value (offset % halfWordModulus) (requestLength value.length offset length)

/-- The attribute record has the type and the name that are looked for. -/
def isAttribute (type : Nat) (name : Bytes) (given : Delivered) : Walk Bool := do
  if (← typeCode given.record given.att) ≠ type then return false
  let attName ← bytesAt given.record given.name.offset given.name.length
  return decide (name = attName)

/-- The function that `ntfs_file::read` calls the walk with. -/
def readVisitor
    (volume : NtfsVolume) (type : Nat) (name : Bytes) (offset length : Nat) :
    Visitor (Option Bytes) := fun ret given => do
  if (← isAttribute type name given) = false then return (true, ret)
  else
    let flags ← attributeFlags given.record given.att
    if flags &&& attributeFlagEncrypted ≠ 0 then throw (.threw .encryptedAttribute)
    else if flags &&& attributeFlagCompressionMask ≠ 0 then
      throw (.threw .compressedAttribute)
    else if (← formCode given.record given.att) = 1 then
      return (false, some (← volume.readAttribute given.record given.att offset length))
    else
      let value ← bytesAt given.record given.data.offset given.data.length
      return (false, some (residentPart value offset length))

/-- `ntfs_file::read`. -/
def fileRead
    (volume : NtfsVolume) (access : FileAccess) (inode : Nat) (record : Bytes)
    (turns offset length type : Nat) (name : Bytes) : Walk Bytes := do
  let (_, ret) ← loopThroughAtts access inode record turns
    (readVisitor volume type name offset length) none
  match ret with
  | none => throw (.threw .attributeNotFound)
  | some buf => return buf

/-- The function that `ntfs_file::read_mappings` calls the walk with. -/
def mappingsVisitor (volume : NtfsVolume) (type : Nat) (name : Bytes) :
    Visitor (List Mapping) := fun mappings given => do
  if (← isAttribute type name given) = false then return (true, mappings)
  else if (← formCode given.record given.att) = 0 then throw (.threw .attributeIsResident)
  else return (false, ← volume.readMappings given.record given.att mappings)

/-- `ntfs_file::read_mappings`. -/
def fileReadMappings
    (volume : NtfsVolume) (access : FileAccess) (inode : Nat) (record : Bytes)
    (turns type : Nat) (name : Bytes) : Walk (List Mapping) := do
  let (_, mappings) ← loopThroughAtts access inode record turns
    (mappingsVisitor volume type name) []
  return mappings

/-! ## Files -/

/-- The records of a file without an attribute list. -/
def plainRecords (inode : Nat) (record : Bytes) (atts : List (Nat × Attribute)) :
    List ListedRecord :=
  atts.map fun att =>
    { ent := 0, reference := inode, host := record, att := att.1, header := att.2 }

/-- A file without an attribute list: the records in its chain are visited. -/
structure PlainFile (inode : Nat) (record : Bytes) (visited : List ListedRecord) : Prop where
  chain : ∃ first atts, firstAttributeOffset record = .ok first ∧
    AttributeChain record first atts ∧
    (∀ att ∈ atts, att.2.type ≠ attributeListType) ∧
    visited = plainRecords inode record atts

/-- A file, with the attribute records in the order in which they are visited. -/
inductive FileLayout (access : FileAccess) (inode : Nat) (record : Bytes) :
    List ListedRecord → Prop where
  | plain {visited : List ListedRecord} (file : PlainFile inode record visited) :
      FileLayout access inode record visited
  | listed {attlist : Bytes} {listed : List ListedRecord}
      (file : ListedFile access inode record attlist listed) :
      FileLayout access inode record (visitOrder inode listed)

theorem walkRecord_eq_forEach
    {σ : Type} {record : Bytes} (func : Visitor σ) (inode : Nat) {atts : List (Nat × Attribute)}
    {att turns : Nat} (chain : AttributeChain record att atts) (positive : 0 < turns)
    (enough : record.length + 1 ≤ att + turns) (state : σ) :
    walkRecord record func turns att state =
      forEach func ((plainRecords inode record atts).map ListedRecord.delivered) state := by
  induction atts generalizing att turns state with
  | nil =>
    obtain ⟨turns, rfl⟩ := Nat.exists_eq_succ_of_ne_zero positive.ne'
    rw [walkRecord, chain]
    rfl
  | cons here rest ih =>
    obtain ⟨place, header⟩ := here
    obtain ⟨rfl, goesOn, found, length, read, chain⟩ := chain
    obtain ⟨turns, rfl⟩ := Nat.exists_eq_succ_of_ne_zero positive.ne'
    obtain ⟨room, nonempty⟩ := of_isEnd_false goesOn
    have moved := nonempty length read
    have given := @delivery_eq
      { ent := 0, reference := inode, host := record, att := place, header := header } found
    rw [walkRecord, goesOn, ok_bind, if_neg (by simp), given, ok_bind, plainRecords,
      List.map_cons, List.map_cons, forEach_cons, read]
    refine congrArg _ (funext fun called => ?_)
    obtain ⟨goOn, next⟩ := called
    cases goOn with
    | false => rfl
    | true => exact ih chain (by omega) (by omega) next

theorem attributeList_eq_nil
    {access : FileAccess} {record : Bytes} {atts : List (Nat × Attribute)} {att turns : Nat}
    (chain : AttributeChain record att atts) (noList : ∀ here ∈ atts, here.2.type ≠ attributeListType)
    (positive : 0 < turns) (enough : record.length + 1 ≤ att + turns) :
    attributeList access record turns att = .ok [] := by
  induction atts generalizing att turns with
  | nil =>
    obtain ⟨turns, rfl⟩ := Nat.exists_eq_succ_of_ne_zero positive.ne'
    rw [attributeList, chain]
    rfl
  | cons here rest ih =>
    obtain ⟨place, header⟩ := here
    obtain ⟨rfl, goesOn, found, length, read, chain⟩ := chain
    obtain ⟨turns, rfl⟩ := Nat.exists_eq_succ_of_ne_zero positive.ne'
    obtain ⟨room, nonempty⟩ := of_isEnd_false goesOn
    have moved := nonempty length read
    rw [attributeList_succ goesOn, found.type, ok_bind, if_neg (noList _ List.mem_cons_self),
      read, ok_bind]
    exact ih chain (fun next inRest => noList next (List.mem_cons_of_mem _ inRest)) (by omega)
      (by omega)

/-- The walk over a file visits its records in their order. -/
theorem FileLayout.walk
    {access : FileAccess} {inode : Nat} {record : Bytes} {visited : List ListedRecord}
    (layout : FileLayout access inode record visited) :
    ∃ enough, ∀ (σ : Type) (func : Visitor σ) (state : σ), ∀ turns ≥ enough,
      loopThroughAtts access inode record turns func state =
        forEach func (visited.map ListedRecord.delivered) state := by
  cases layout with
  | plain file =>
    obtain ⟨first, atts, located, chain, noList, rfl⟩ := file.chain
    refine ⟨0, fun σ func state turns _ => ?_⟩
    rw [loopThroughAtts_eq, readAttributeList, located, ok_bind,
      attributeList_eq_nil chain noList (Nat.succ_pos _) (by omega), ok_bind,
      if_neg (not_not.mpr rfl), ok_bind]
    exact walkRecord_eq_forEach func inode chain (Nat.succ_pos _) (by omega) state
  | @listed attlist listed file =>
    exact ⟨listed.length, fun σ func state turns enough =>
      loopThroughAtts_eq_forEach file func state enough⟩

theorem FileLayout.attributeAt
    {access : FileAccess} {inode : Nat} {record : Bytes} {visited : List ListedRecord}
    (layout : FileLayout access inode record visited) :
    ∀ entry ∈ visited, AttributeAt entry.host entry.att entry.header := by
  cases layout with
  | plain file =>
    obtain ⟨first, atts, -, chain, -, rfl⟩ := file.chain
    intro entry visited
    obtain ⟨⟨att, header⟩, inChain, rfl⟩ := List.mem_map.mp visited
    exact attributeAt_of_mem_chain chain inChain
  | listed file =>
    intro entry visited
    exact (file.holds entry ((visitOrder_perm inode _).subset visited)).attributeAt

/-! ## The first record of an attribute -/

/-- The record is one of the attribute of a type and a name. -/
def ListedRecord.IsOf (type : Nat) (name : Bytes) (entry : ListedRecord) : Bool :=
  decide (entry.header.type = type ∧ name = entry.header.name)

theorem isAttribute_eq
    {entry : ListedRecord} (found : AttributeAt entry.host entry.att entry.header)
    (type : Nat) (name : Bytes) :
    isAttribute type name entry.delivered = .ok (entry.IsOf type name) := by
  have attName : bytesAt entry.host (entry.header.nameExtent entry.att).offset
      (entry.header.nameExtent entry.att).length = .ok entry.header.name := by
    rw [Attribute.nameExtent]
    by_cases unnamed : entry.header.characters = 0
    · have lengths := found.name_length
      rw [if_pos unnamed, List.length_eq_zero_iff.mp (show entry.header.name.length = 0 by omega)]
      exact if_pos (Nat.zero_le _)
    · rw [if_neg unnamed]
      exact found.name unnamed
  have type_eq : typeCode entry.delivered.record entry.delivered.att = .ok entry.header.type :=
    found.type
  rw [isAttribute, type_eq, ok_bind]
  by_cases same : entry.header.type = type
  · rw [if_neg (not_not.mpr same)]
    show (bytesAt entry.host (entry.header.nameExtent entry.att).offset
      (entry.header.nameExtent entry.att).length >>= fun attName =>
        pure (decide (name = attName))) = _
    rw [attName]
    refine congrArg Except.ok (decide_eq_decide.mpr ?_)
    exact ⟨fun equal => ⟨same, equal⟩, fun both => both.2⟩
  · rw [if_pos same]
    exact congrArg Except.ok (decide_eq_false fun both => same both.1).symm

section First

variable {volume : NtfsVolume} {access : FileAccess} {inode : Nat} {record : Bytes}
  {visited : List ListedRecord} {type : Nat} {name : Bytes} {first : ListedRecord}

/-- What `read` does with the record that it takes. -/
def NtfsVolume.readRecord
    (volume : NtfsVolume) (record : Bytes) (att offset length : Nat) : Walk Bytes := do
  let flags ← attributeFlags record att
  if flags &&& attributeFlagEncrypted ≠ 0 then throw (.threw .encryptedAttribute)
  else if flags &&& attributeFlagCompressionMask ≠ 0 then throw (.threw .compressedAttribute)
  else volume.readAttribute record att offset length

theorem readVisitor_of_isOf
    {entry : ListedRecord} (found : AttributeAt entry.host entry.att entry.header)
    (isOf : entry.IsOf type name = true) (nonresident : entry.header.form = 1)
    (volume : NtfsVolume) (offset length : Nat) (ret : Option Bytes) :
    readVisitor volume type name offset length ret entry.delivered =
      volume.readRecord entry.host entry.att offset length >>= fun buf =>
        .ok (false, some buf) := by
  have form : formCode entry.delivered.record entry.delivered.att = .ok 1 := by
    rw [← nonresident]
    exact found.form
  have flagsAt : attributeFlags entry.delivered.record entry.delivered.att =
      attributeFlags entry.host entry.att := rfl
  rw [readVisitor, isAttribute_eq found, isOf, ok_bind, if_neg (by simp), NtfsVolume.readRecord,
    flagsAt]
  cases attributeFlags entry.host entry.att with
  | error stop => rfl
  | ok flags =>
    rw [ok_bind, ok_bind]
    by_cases encrypted : flags &&& attributeFlagEncrypted ≠ 0
    · rw [if_pos encrypted, if_pos encrypted]
      rfl
    · rw [if_neg encrypted, if_neg encrypted]
      by_cases compressed : flags &&& attributeFlagCompressionMask ≠ 0
      · rw [if_pos compressed, if_pos compressed]
        rfl
      · rw [if_neg compressed, if_neg compressed]
        rw [form]
        rfl

/-- `read` takes the first record of the attribute, and no other. -/
theorem fileRead_of_find
    (layout : FileLayout access inode record visited)
    (found : visited.find? (ListedRecord.IsOf type name) = some first)
    (nonresident : first.header.form = 1) :
    ∃ enough, ∀ (volume : NtfsVolume) (offset length : Nat), ∀ turns ≥ enough,
      fileRead volume access inode record turns offset length type name =
        volume.readRecord first.host first.att offset length := by
  obtain ⟨enough, walk⟩ := layout.walk
  refine ⟨enough, fun volume offset length turns many => ?_⟩
  have isFirst := readVisitor_of_isOf
    (layout.attributeAt first (List.mem_of_find?_eq_some found))
    (List.find?_some found) nonresident volume offset length none
  have visits := forEach_of_find (readVisitor volume type name offset length)
    ListedRecord.delivered none
    (fun entry inVisited other => by
      rw [readVisitor, isAttribute_eq (layout.attributeAt entry inVisited), other]
      rfl) found (fun called visited => by
      rw [isFirst, bind_eq_ok_iff] at visited
      obtain ⟨buf, -, equal⟩ := visited
      exact (congrArg Prod.fst (Except.ok.inj equal)).symm)
  rw [fileRead, walk _ _ _ turns many, visits, isFirst]
  cases volume.readRecord first.host first.att offset length with
  | error stop => rfl
  | ok buf => rfl

/-- `read_mappings` takes the first record of the attribute, and no other. -/
theorem fileReadMappings_of_find
    (layout : FileLayout access inode record visited)
    (found : visited.find? (ListedRecord.IsOf type name) = some first)
    (nonresident : first.header.form = 1) :
    ∃ enough, ∀ volume : NtfsVolume, ∀ turns ≥ enough,
      fileReadMappings volume access inode record turns type name =
        volume.readMappings first.host first.att [] := by
  obtain ⟨enough, walk⟩ := layout.walk
  refine ⟨enough, fun volume turns many => ?_⟩
  have firstAt := layout.attributeAt first (List.mem_of_find?_eq_some found)
  have isFirst : mappingsVisitor volume type name [] first.delivered =
      volume.readMappings first.host first.att [] >>= fun mappings => .ok (false, mappings) := by
    have form : formCode first.delivered.record first.delivered.att = .ok 1 := by
      rw [← nonresident]
      exact firstAt.form
    rw [mappingsVisitor, isAttribute_eq firstAt, List.find?_some found, ok_bind, if_neg (by simp),
      form]
    rfl
  have visits := forEach_of_find (mappingsVisitor volume type name)
    ListedRecord.delivered []
    (fun entry inVisited other => by
      rw [mappingsVisitor, isAttribute_eq (layout.attributeAt entry inVisited), other]
      rfl) found (fun called visited => by
      rw [isFirst, bind_eq_ok_iff] at visited
      obtain ⟨mappings, -, equal⟩ := visited
      exact (congrArg Prod.fst (Except.ok.inj equal)).symm)
  rw [fileReadMappings, walk _ _ _ turns many, visits, isFirst]
  cases volume.readMappings first.host first.att [] with
  | error stop => rfl
  | ok mappings => rfl

end First

end Ntfs2Btrfs
