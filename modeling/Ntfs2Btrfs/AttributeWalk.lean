import Ntfs2Btrfs.Mappings
import Ntfs2Btrfs.Lib.Extents

/-!
# Walking the attributes of a file

`loop_through_atts` calls a function for every attribute record of a file.  If
the base record has an attribute list, the listed records are delivered: first
those of the base record, then those of each extension record in turn.

The records and the list are buffers, and a read outside of them ends the walk.
Opening an extension record and reading a list that is not resident are
parameters, which may fail or not return.
-/

namespace Ntfs2Btrfs

open ByteStore Extents

/-! ## Reading buffers -/

/-- Why a walk has no result. -/
inductive Stop where
  | running
  | outside
  | threw (error : NtfsError)
deriving DecidableEq, Repr

/-- A computation that may read outside of a buffer, throw, or not have ended yet. -/
abbrev Walk (α : Type) := Except Stop α

/-- The bytes of a part of a buffer. -/
def bytesAt (buf : Bytes) (offset length : Nat) : Walk Bytes :=
  if offset + length ≤ buf.length then .ok (slice buf offset length) else .error .outside

/-- A little-endian field of a buffer. -/
def field (buf : Bytes) (offset width : Nat) : Walk Nat :=
  if offset + width ≤ buf.length then .ok (unle (slice buf offset width))
  else .error .outside

/-! ## Attribute records -/

def attributeListType : Nat := 0x20

def endOfAttributes : Nat := 0xffffffff

/-- `FirstAttributeOffset` of a file record. -/
def firstAttributeOffset (record : Bytes) : Walk Nat :=
  field record 20 2

/-- `TypeCode` of the attribute record at an offset. -/
def typeCode (record : Bytes) (att : Nat) : Walk Nat :=
  field record att 4

/-- `RecordLength`. -/
def recordLength (record : Bytes) (att : Nat) : Walk Nat :=
  field record (att + 4) 2

/-- `FormCode`: zero for a resident attribute, one for a non-resident one. -/
def formCode (record : Bytes) (att : Nat) : Walk Nat :=
  field record (att + 8) 1

/-- `NameLength`, in characters of two bytes. -/
def nameLength (record : Bytes) (att : Nat) : Walk Nat :=
  field record (att + 9) 1

/-- `NameOffset`. -/
def nameOffset (record : Bytes) (att : Nat) : Walk Nat :=
  field record (att + 10) 2

/-- `Instance`. -/
def attInstance (record : Bytes) (att : Nat) : Walk Nat :=
  field record (att + 14) 2

/-- `Form.Resident.ValueLength`. -/
def valueLength (record : Bytes) (att : Nat) : Walk Nat :=
  field record (att + 16) 4

/-- `Form.Resident.ValueOffset`. -/
def valueOffset (record : Bytes) (att : Nat) : Walk Nat :=
  field record (att + 20) 2

/-- The chain of attribute records ends here. -/
def isEnd (record : Bytes) (att : Nat) : Walk Bool := do
  if (← typeCode record att) = endOfAttributes then return true
  else return decide ((← recordLength record att) = 0)

/-! ## Entries of an attribute list -/

/-- `type` of the list entry at an offset. -/
def entryType (attlist : Bytes) (ent : Nat) : Walk Nat :=
  field attlist ent 4

/-- `record_length`. -/
def entryLength (attlist : Bytes) (ent : Nat) : Walk Nat :=
  field attlist (ent + 4) 2

/-- `name_length`. -/
def entryNameLength (attlist : Bytes) (ent : Nat) : Walk Nat :=
  field attlist (ent + 6) 1

/-- `name_offset`. -/
def entryNameOffset (attlist : Bytes) (ent : Nat) : Walk Nat :=
  field attlist (ent + 7) 1

/-- `file_reference.SegmentNumber`. -/
def entryReference (attlist : Bytes) (ent : Nat) : Walk Nat :=
  (field attlist (ent + 16) 8).map (· % 2 ^ 48)

/-- `instance`. -/
def entryInstance (attlist : Bytes) (ent : Nat) : Walk Nat :=
  field attlist (ent + 24) 2

/-! ## The walk -/

/-- What the function is called with: the header, the resident data and the name. -/
structure Delivered where
  record : Bytes
  att : Nat
  data : Extent
  name : Extent
deriving DecidableEq, Repr

/-- The function, with the state that it keeps; it returns whether to go on. -/
abbrev Visitor (σ : Type) := σ → Delivered → Walk (Bool × σ)

/-- The value of a resident attribute, and nothing of a non-resident one. -/
def residentData (record : Bytes) (att : Nat) : Walk Extent := do
  if (← formCode record att) = 0 then
    let start ← valueOffset record att
    let length ← valueLength record att
    return ⟨att + start, length⟩
  else return ⟨0, 0⟩

/-- The name of an attribute. -/
def attributeName (record : Bytes) (att : Nat) : Walk Extent := do
  let characters ← nameLength record att
  if characters ≠ 0 then
    let start ← nameOffset record att
    return ⟨att + start, characters * 2⟩
  else return ⟨0, 0⟩

/-- The arguments for the attribute record at an offset. -/
def delivery (record : Bytes) (att : Nat) : Walk Delivered := do
  let data ← residentData record att
  let name ← attributeName record att
  return { record := record, att := att, data := data, name := name }

/-- The list entry is for the attribute record. -/
def matchesEntry (record attlist : Bytes) (ent att : Nat) : Walk Bool := do
  if (← typeCode record att) ≠ (← entryType attlist ent) then return false
  let characters ← nameLength record att
  if characters ≠ (← entryNameLength attlist ent) then return false
  if (← attInstance record att) ≠ (← entryInstance attlist ent) then return false
  if characters = 0 then return true
  let name ← bytesAt record (att + (← nameOffset record att)) (characters * 2)
  let entryName ← bytesAt attlist (ent + (← entryNameOffset attlist ent)) (characters * 2)
  return decide (name = entryName)

/-- The first attribute record that an entry is for. -/
def searchEntry (record attlist : Bytes) (ent : Nat) : Nat → Nat → Walk (Option Nat)
  | 0, _ => .error .running
  | turns + 1, att => do
      if ← isEnd record att then return none
      if ← matchesEntry record attlist ent att then return some att
      searchEntry record attlist ent turns (att + (← recordLength record att))

/-- The arguments for the attribute record that an entry is for. -/
def findEntry (record attlist : Bytes) (ent : Nat) : Walk (Option Delivered) := do
  match ← searchEntry record attlist ent (record.length + 1)
      (← firstAttributeOffset record) with
  | none => return none
  | some att => return some (← delivery record att)

/-- Call the function for the attribute record that an entry is for. -/
def visitEntry {σ : Type} (record attlist : Bytes) (func : Visitor σ) (state : σ)
    (ent : Nat) : Walk (Bool × σ) := do
  match ← findEntry record attlist ent with
  | none => return (true, state)
  | some delivered => func state delivered

/-- The loop over the entries of a list, with a bound on the number of turns. -/
def walkList {σ : Type} (attlist : Bytes) (visit : σ → Nat → Walk (Bool × σ)) :
    Nat → Nat → Nat → σ → Walk (Bool × σ)
  | 0, _, _, _ => .error .running
  | turns + 1, ent, left, state => do
      let (goOn, state) ← visit state ent
      if goOn = false then return (false, state)
      let length ← entryLength attlist ent
      if left ≤ length then return (true, state)
      walkList attlist visit turns (ent + length) (left - length) state

/-- The first pass: entries of the base record are visited, other records noted. -/
def visitBase {σ : Type} (inode : Nat) (record attlist : Bytes) (func : Visitor σ)
    (state : σ × List Nat) (ent : Nat) : Walk (Bool × σ × List Nat) := do
  let reference ← entryReference attlist ent
  if reference = inode then do
    -- contained elsewhere in this inode
    let (goOn, next) ← visitEntry record attlist func state.1 ent
    return (goOn, next, state.2)
  else
    return (true, state.1,
      if reference ∈ state.2 then state.2 else state.2 ++ [reference])

/-- The second pass, for one extension record. -/
def visitOther {σ : Type} (reference : Nat) (record attlist : Bytes) (func : Visitor σ)
    (state : σ) (ent : Nat) : Walk (Bool × σ) := do
  if (← entryReference attlist ent) = reference then
    visitEntry record attlist func state ent
  else return (true, state)

/-- What the walk calls: the constructor of an extension record, and the reader of a
non-resident list. -/
structure FileAccess where
  openRecord : Nat → Walk Bytes
  readList : Bytes → Nat → Walk Bytes

/-- The loop over the extension records. -/
def walkOthers {σ : Type} (access : FileAccess) (attlist : Bytes) (func : Visitor σ)
    (turns : Nat) : List Nat → σ → Walk (Bool × σ)
  | [], state => .ok (true, state)
  | reference :: rest, state => do
      let record ← access.openRecord reference
      let (goOn, state) ← walkList attlist (visitOther reference record attlist func) turns
        0 attlist.length state
      if goOn = false then return (false, state)
      walkOthers access attlist func turns rest state

/-- The search for the attribute list; it is empty if there is none. -/
def attributeList (access : FileAccess) (record : Bytes) : Nat → Nat → Walk Bytes
  | 0, _ => .error .running
  | turns + 1, att => do
      if ← isEnd record att then return []
      if (← typeCode record att) = attributeListType then do
        if (← formCode record att) = 1 then access.readList record att
        else
          bytesAt record (att + (← valueOffset record att)) (← valueLength record att)
      else attributeList access record turns (att + (← recordLength record att))

/-- The loop over the attribute records of a file without an attribute list. -/
def walkRecord {σ : Type} (record : Bytes) (func : Visitor σ) :
    Nat → Nat → σ → Walk (Bool × σ)
  | 0, _, _ => .error .running
  | turns + 1, att, state => do
      if ← isEnd record att then return (true, state)
      let (goOn, state) ← func state (← delivery record att)
      if goOn = false then return (false, state)
      walkRecord record func turns (att + (← recordLength record att)) state

/--
`ntfs_file::loop_through_atts`: whether the function was willing to go on, and
the state it leaves.  The bound is on the turns of the loops over the list.
-/
def loopThroughAtts {σ : Type} (access : FileAccess) (inode : Nat) (record : Bytes)
    (turns : Nat) (func : Visitor σ) (state : σ) : Walk (Bool × σ) := do
  let attlist ←
    attributeList access record (record.length + 1) (← firstAttributeOffset record)
  if attlist ≠ [] then do
    let (goOn, state, others) ←
      walkList attlist (visitBase inode record attlist func) turns 0 attlist.length
        (state, [])
    if goOn = false then return (false, state)
    walkOthers access attlist func turns others state
  else
    walkRecord record func (record.length + 1) (← firstAttributeOffset record) state

end Ntfs2Btrfs
