import Ntfs2Btrfs.WalkTermination
import Ntfs2Btrfs.Lib.Visits

/-!
# The order of the attribute walk

For a file with an attribute list, `loop_through_atts` visits the listed
attribute records of the base record first, and then those of each extension
record, by the first entry for it.  Every listed record is visited once, but
the pieces of a stream are visited by rising cluster numbers only if the
records that hold them are.
-/

namespace Ntfs2Btrfs

open ByteStore Extents Visits

/-! ## Well-formed files -/

/-- The fields of an attribute record that identify it, and where its parts are. -/
structure Attribute where
  type : Nat
  characters : Nat
  name : Bytes
  number : Nat
  lowestVcn : Nat
  form : Nat
  nameOffset : Nat
  valueOffset : Nat
  valueLength : Nat
deriving DecidableEq, Repr

namespace Attribute

/-- The records have the type, the name and the instance in common. -/
def SameName (first second : Attribute) : Prop :=
  first.type = second.type ∧ first.name = second.name ∧ first.number = second.number

/-- The records hold pieces of one stream. -/
def SameStream (first second : Attribute) : Prop :=
  first.type = second.type ∧ first.name = second.name

instance (first second : Attribute) : Decidable (first.SameName second) :=
  inferInstanceAs (Decidable (_ ∧ _ ∧ _))

instance (first second : Attribute) : Decidable (first.SameStream second) :=
  inferInstanceAs (Decidable (_ ∧ _))

/-- The value of a resident record. -/
def value (header : Attribute) (att : Nat) : Extent :=
  if header.form = 0 then ⟨att + header.valueOffset, header.valueLength⟩ else ⟨0, 0⟩

/-- The place of the name. -/
def nameExtent (header : Attribute) (att : Nat) : Extent :=
  if header.characters = 0 then ⟨0, 0⟩
  else ⟨att + header.nameOffset, header.characters * 2⟩

end Attribute

/-- There is an attribute record at an offset of a file record. -/
structure AttributeAt (record : Bytes) (att : Nat) (header : Attribute) : Prop where
  type : typeCode record att = .ok header.type
  nameLength : nameLength record att = .ok header.characters
  nameOffset : nameOffset record att = .ok header.nameOffset
  name_length : header.name.length = header.characters * 2
  name : header.characters ≠ 0 →
    bytesAt record (att + header.nameOffset) (header.characters * 2) = .ok header.name
  number : attInstance record att = .ok header.number
  form : formCode record att = .ok header.form
  value : header.form = 0 → header.lowestVcn = 0 ∧
    valueOffset record att = .ok header.valueOffset ∧
    valueLength record att = .ok header.valueLength
  lowestVcn : header.form ≠ 0 → field record (att + 16) 8 = .ok header.lowestVcn

/-- The attribute records from an offset on, with the end of the chain behind them. -/
def AttributeChain (record : Bytes) : Nat → List (Nat × Attribute) → Prop
  | att, [] => isEnd record att = .ok true
  | att, (place, header) :: rest =>
      place = att ∧ isEnd record att = .ok false ∧ AttributeAt record att header ∧
        ∃ length, recordLength record att = .ok length ∧
          AttributeChain record (att + length) rest

/-- A listed attribute record: its entry, the file record that holds it, and its place. -/
structure ListedRecord where
  ent : Nat
  reference : Nat
  host : Bytes
  att : Nat
  header : Attribute

/-- The arguments for a listed attribute record. -/
def ListedRecord.delivered (listed : ListedRecord) : Delivered where
  record := listed.host
  att := listed.att
  data := listed.header.value listed.att
  name := listed.header.nameExtent listed.att

/-- The entry of the list names the attribute record. -/
structure Names (attlist : Bytes) (listed : ListedRecord) : Prop where
  type : entryType attlist listed.ent = .ok listed.header.type
  nameLength : entryNameLength attlist listed.ent = .ok listed.header.characters
  name : listed.header.characters ≠ 0 → ∃ start,
    entryNameOffset attlist listed.ent = .ok start ∧
      bytesAt attlist (listed.ent + start) (listed.header.characters * 2) =
        .ok listed.header.name
  startingVcn : field attlist (listed.ent + 8) 8 = .ok listed.header.lowestVcn
  reference : entryReference attlist listed.ent = .ok listed.reference
  number : entryInstance attlist listed.ent = .ok listed.header.number

/-- The file record has the attribute record, and no other of its type, name and instance. -/
def Holds (listed : ListedRecord) : Prop :=
  ∃ first atts, firstAttributeOffset listed.host = .ok first ∧
    AttributeChain listed.host first atts ∧ (listed.att, listed.header) ∈ atts ∧
    ∀ other ∈ atts, other.2.SameName listed.header → other = (listed.att, listed.header)

/-- The entries of a list, from an offset to its end. -/
def EntryChain (attlist : Bytes) : Nat → List Nat → Prop
  | _, [] => False
  | ent, [last] =>
      last = ent ∧ ∃ length, entryLength attlist ent = .ok length ∧
        attlist.length ≤ ent + length
  | ent, place :: next :: rest =>
      place = ent ∧ ∃ length, entryLength attlist ent = .ok length ∧
        ent + length < attlist.length ∧ EntryChain attlist (ent + length) (next :: rest)

/--
A file with an attribute list: the entries of the list name attribute records
of the base record and of extension records, those of a stream in the order of
their clusters.
-/
structure ListedFile (access : FileAccess) (inode : Nat) (record attlist : Bytes)
    (listed : List ListedRecord) : Prop where
  read : readAttributeList access record = .ok attlist
  entries : EntryChain attlist 0 (listed.map ListedRecord.ent)
  names : ∀ entry ∈ listed, Names attlist entry
  base : ∀ entry ∈ listed, entry.reference = inode → entry.host = record
  extension : ∀ entry ∈ listed, entry.reference ≠ inode →
    access.openRecord entry.reference = .ok entry.host
  holds : ∀ entry ∈ listed, Holds entry
  ordered : listed.Pairwise fun earlier later =>
    earlier.header.SameStream later.header →
      earlier.header.lowestVcn ≤ later.header.lowestVcn

/-! ## Finding a listed record -/

theorem ok_bind {α β : Type} (value : α) (next : α → Walk β) :
    ((Except.ok value : Walk α) >>= next) = next value :=
  rfl

/-- The comparison is by type, name and instance. -/
theorem matchesEntry_eq
    {attlist : Bytes} {listed : ListedRecord} (names : Names attlist listed)
    {record : Bytes} {place att : Nat} {other : Attribute} (found : AttributeAt record att other)
    (holds : AttributeAt listed.host place listed.header) :
    matchesEntry record attlist listed.ent att = .ok (decide (other.SameName listed.header)) := by
  rw [matchesEntry, found.type, ok_bind, names.type, ok_bind]
  by_cases sameType : other.type = listed.header.type
  · rw [if_neg (not_not.mpr sameType), found.nameLength, ok_bind, names.nameLength, ok_bind]
    have lengths := found.name_length
    have entryLengths := holds.name_length
    by_cases sameLength : other.characters = listed.header.characters
    · rw [if_neg (not_not.mpr sameLength), found.number, ok_bind, names.number, ok_bind]
      by_cases sameNumber : other.number = listed.header.number
      · rw [if_neg (not_not.mpr sameNumber)]
        by_cases unnamed : other.characters = 0
        · rw [if_pos unnamed]
          have empty : other.name = [] := List.length_eq_zero_iff.mp (by omega)
          have entryEmpty : listed.header.name = [] := List.length_eq_zero_iff.mp (by omega)
          exact congrArg Except.ok (decide_eq_true
            ⟨sameType, empty.trans entryEmpty.symm, sameNumber⟩).symm
        · obtain ⟨start, located, name⟩ := names.name (by omega)
          rw [if_neg unnamed, found.nameOffset, ok_bind, found.name unnamed, ok_bind, located,
            ok_bind, sameLength, name, ok_bind]
          refine congrArg Except.ok (decide_eq_decide.mpr ?_)
          exact ⟨fun sameName => ⟨sameType, sameName, sameNumber⟩, fun same => same.2.1⟩
      · rw [if_pos sameNumber]
        exact congrArg Except.ok (decide_eq_false fun same => sameNumber same.2.2).symm
    · rw [if_pos sameLength]
      refine congrArg Except.ok (decide_eq_false fun same => sameLength ?_).symm
      have names := congrArg List.length same.2.1
      omega
  · rw [if_pos sameType]
    exact congrArg Except.ok (decide_eq_false fun same => sameType same.1).symm

/-- The search finds the attribute record that the entry names. -/
theorem searchEntry_eq
    {attlist : Bytes} {listed : ListedRecord} (names : Names attlist listed)
    (holds : AttributeAt listed.host listed.att listed.header)
    {record : Bytes} {atts : List (Nat × Attribute)} {att turns : Nat}
    (chain : AttributeChain record att atts) (inChain : (listed.att, listed.header) ∈ atts)
    (unique : ∀ other ∈ atts, other.2.SameName listed.header →
      other = (listed.att, listed.header))
    (ends : Halts (searchEntry record attlist listed.ent turns att)) :
    searchEntry record attlist listed.ent turns att = .ok (some listed.att) := by
  induction atts generalizing att turns with
  | nil => cases inChain
  | cons first rest ih =>
    obtain ⟨place, header⟩ := first
    obtain ⟨rfl, goesOn, found, length, read, chain⟩ := chain
    cases turns with
    | zero => exact absurd rfl ends
    | succ turns =>
      have step : searchEntry record attlist listed.ent (turns + 1) place =
          if header.SameName listed.header then .ok (some place)
          else searchEntry record attlist listed.ent turns (place + length) := by
        rw [searchEntry, goesOn, ok_bind, if_neg (by simp), matchesEntry_eq names found holds,
          ok_bind, read, ok_bind]
        by_cases same : header.SameName listed.header
        · rw [if_pos (decide_eq_true same), if_pos same]
          rfl
        · rw [if_neg (by simpa using same), if_neg same]
      rw [step] at ends ⊢
      by_cases same : header.SameName listed.header
      · rw [if_pos same]
        have equal := unique _ List.mem_cons_self same
        rw [show place = listed.att from congrArg Prod.fst equal]
      · rw [if_neg same] at ends ⊢
        refine ih chain ?_ (fun other inRest => unique other (List.mem_cons_of_mem _ inRest)) ends
        rcases List.mem_cons.mp inChain with isFirst | inRest
        · refine absurd ?_ same
          rw [show header = listed.header from (congrArg Prod.snd isFirst).symm]
          exact ⟨rfl, rfl, rfl⟩
        · exact inRest

/-- The header, the value and the name of the record are delivered. -/
theorem delivery_eq
    {listed : ListedRecord} (holds : AttributeAt listed.host listed.att listed.header) :
    delivery listed.host listed.att = .ok listed.delivered := by
  have data : residentData listed.host listed.att = .ok (listed.header.value listed.att) := by
    rw [residentData, holds.form, ok_bind, Attribute.value]
    by_cases resident : listed.header.form = 0
    · obtain ⟨-, start, length⟩ := holds.value resident
      rw [if_pos resident, if_pos resident, start, ok_bind, length]
      rfl
    · rw [if_neg resident, if_neg resident]
      rfl
  have name : attributeName listed.host listed.att =
      .ok (listed.header.nameExtent listed.att) := by
    rw [attributeName, holds.nameLength, ok_bind, Attribute.nameExtent]
    by_cases unnamed : listed.header.characters = 0
    · rw [if_neg (not_not.mpr unnamed), if_pos unnamed]
      rfl
    · rw [if_pos unnamed, if_neg unnamed, holds.nameOffset]
      rfl
  rw [delivery, data, ok_bind, name]
  rfl

theorem attributeAt_of_mem_chain
    {record : Bytes} {atts : List (Nat × Attribute)} {first : Nat}
    (chain : AttributeChain record first atts) {att : Nat} {header : Attribute}
    (inChain : (att, header) ∈ atts) : AttributeAt record att header := by
  induction atts generalizing first with
  | nil => cases inChain
  | cons here rest ih =>
    obtain ⟨rfl, -, found, length, -, chain⟩ := chain
    rcases List.mem_cons.mp inChain with isHere | inRest
    · obtain ⟨rfl, rfl⟩ := Prod.mk.inj isHere
      exact found
    · exact ih chain inRest

theorem Holds.attributeAt {listed : ListedRecord} (holds : Holds listed) :
    AttributeAt listed.host listed.att listed.header := by
  obtain ⟨first, atts, -, chain, inChain, -⟩ := holds
  exact attributeAt_of_mem_chain chain inChain

theorem findEntry_eq
    {attlist : Bytes} {listed : ListedRecord} (names : Names attlist listed)
    (holds : Holds listed) :
    findEntry listed.host attlist listed.ent = .ok (some listed.delivered) := by
  have found := holds.attributeAt
  obtain ⟨first, atts, located, chain, inChain, unique⟩ := holds
  rw [findEntry, located, ok_bind,
    searchEntry_eq names found chain inChain unique
      (halts_searchEntry _ _ _ (Nat.succ_pos _) (by omega)), ok_bind]
  show (delivery listed.host listed.att >>= fun given => pure (some given)) = _
  rw [delivery_eq found]
  rfl

theorem visitEntry_eq
    {attlist : Bytes} {listed : ListedRecord} (names : Names attlist listed)
    (holds : Holds listed) {σ : Type} (func : Visitor σ) (state : σ) :
    visitEntry listed.host attlist func state listed.ent = func state listed.delivered := by
  rw [visitEntry, findEntry_eq names holds]
  rfl

/-! ## The passes -/

/-- The loop over a list visits its entries. -/
theorem walkList_eq_forEach
    {σ : Type} {attlist : Bytes} (visit : σ → Nat → Walk (Bool × σ)) {ent : Nat}
    {places : List Nat} (chain : EntryChain attlist ent places) {turns : Nat}
    (enough : places.length ≤ turns) (state : σ) :
    walkList attlist visit turns ent (attlist.length - ent) state =
      forEach visit places state := by
  induction places generalizing ent turns state with
  | nil => exact chain.elim
  | cons place rest ih =>
    obtain ⟨turns, rfl⟩ : ∃ fewer, turns = fewer + 1 :=
      ⟨turns - 1, by simp only [List.length_cons] at enough; omega⟩
    rw [walkList_succ, forEach_cons]
    cases rest with
    | nil =>
      obtain ⟨rfl, length, read, last⟩ := chain
      rw [read]
      refine congrArg _ (funext fun called => ?_)
      rw [ok_bind, if_pos (show attlist.length - place ≤ length by omega)]
      obtain ⟨goOn, next⟩ := called
      cases goOn <;> rfl
    | cons next rest =>
      obtain ⟨rfl, length, read, inside, chain⟩ := chain
      rw [read]
      refine congrArg _ (funext fun called => ?_)
      rw [ok_bind, if_neg (show ¬ attlist.length - place ≤ length by omega),
        show attlist.length - place - length = attlist.length - (place + length) by omega]
      rw [ih chain (by simpa using enough)]

section Passes

variable {access : FileAccess} {inode : Nat} {record attlist : Bytes} {σ : Type}
  (func : Visitor σ)

/-- A pass for one extension record visits the entries for it. -/
theorem forEach_visitOther
    {reference : Nat} {host : Bytes} {listed : List ListedRecord}
    (names : ∀ entry ∈ listed, Names attlist entry) (holds : ∀ entry ∈ listed, Holds entry)
    (hosts : ∀ entry ∈ listed, entry.reference = reference → entry.host = host) (state : σ) :
    forEach (visitOther reference host attlist func) (listed.map ListedRecord.ent) state =
      forEach func ((listed.filter fun entry => entry.reference = reference).map
        ListedRecord.delivered) state := by
  induction listed generalizing state with
  | nil => rfl
  | cons entry rest ih =>
    have later := ih (fun other inRest => names other (List.mem_cons_of_mem _ inRest))
      (fun other inRest => holds other (List.mem_cons_of_mem _ inRest))
      (fun other inRest => hosts other (List.mem_cons_of_mem _ inRest))
    have isNamed := names entry List.mem_cons_self
    rw [List.map_cons, forEach_cons, visitOther, isNamed.reference, ok_bind]
    by_cases own : entry.reference = reference
    · rw [if_pos own, List.filter_cons_of_pos (by simpa using own), List.map_cons, forEach_cons,
        ← hosts entry List.mem_cons_self own, visitEntry_eq isNamed (holds entry List.mem_cons_self)]
      refine congrArg _ (funext fun called => ?_)
      rw [hosts entry List.mem_cons_self own, later]
    · rw [if_neg own, List.filter_cons_of_neg (by simpa using own)]
      exact later state

/-- The second pass visits the entries of the extension records in turn. -/
theorem walkOthers_eq_forEach
    {listed : List ListedRecord} (names : ∀ entry ∈ listed, Names attlist entry)
    (holds : ∀ entry ∈ listed, Holds entry)
    (chain : EntryChain attlist 0 (listed.map ListedRecord.ent)) {others : List Nat}
    (opens : ∀ other ∈ others, ∃ host, access.openRecord other = .ok host ∧
      ∀ entry ∈ listed, entry.reference = other → entry.host = host)
    {turns : Nat} (enough : listed.length ≤ turns) (state : σ) :
    walkOthers access attlist func turns others state =
      forEach func ((regroup ListedRecord.reference others listed).map
        ListedRecord.delivered) state := by
  induction others generalizing state with
  | nil => rfl
  | cons other others ih =>
    obtain ⟨host, opened, hosts⟩ := opens other List.mem_cons_self
    have visits := walkList_eq_forEach (visitOther other host attlist func) chain
      (show (listed.map ListedRecord.ent).length ≤ turns by simpa using enough) state
    rw [Nat.sub_zero, forEach_visitOther func names holds hosts] at visits
    rw [walkOthers_of_opened opened, visits, regroup, List.flatMap_cons, List.map_append,
      forEach_append]
    refine congrArg _ (funext fun called => ?_)
    rw [ih fun next inOthers => opens next (List.mem_cons_of_mem _ inOthers), regroup]

theorem note_cons (first : Nat) (others : List Nat) (key : Nat) :
    note (first :: others) key =
      first :: if key = first ∨ key ∈ others then others else others ++ [key] := by
  rw [note]
  by_cases known : key = first ∨ key ∈ others
  · rw [if_pos (List.mem_cons.mpr known), if_pos known]
  · rw [if_neg fun inKeys => known (List.mem_cons.mp inKeys), if_neg known, List.cons_append]

/-- The first pass visits the entries for the base record, and notes the other records. -/
theorem forEach_visitBase
    {rest : List ListedRecord} (names : ∀ entry ∈ rest, Names attlist entry)
    (holds : ∀ entry ∈ rest, Holds entry)
    (base : ∀ entry ∈ rest, entry.reference = inode → entry.host = record)
    (next : List Nat → σ → Walk (Bool × σ)) {others noted : List Nat}
    (keys : keysOf ListedRecord.reference rest (inode :: others) = inode :: noted) (state : σ) :
    (forEach (visitBase inode record attlist func) (rest.map ListedRecord.ent)
        (state, others) >>= fun called =>
      if called.1 = false then .ok (false, called.2.1) else next called.2.2 called.2.1) =
    forEach func ((rest.filter fun entry => entry.reference = inode).map
        ListedRecord.delivered) state >>= fun called =>
      if called.1 = false then .ok (false, called.2) else next noted called.2 := by
  induction rest generalizing others state with
  | nil =>
    obtain rfl : others = noted := (List.cons.inj keys).2
    rfl
  | cons entry rest ih =>
    replace keys : keysOf ListedRecord.reference rest (note (inode :: others) entry.reference) =
      inode :: noted := keys
    rw [note_cons] at keys
    have later := fun state => ih (fun other inRest => names other (List.mem_cons_of_mem _ inRest))
      (fun other inRest => holds other (List.mem_cons_of_mem _ inRest))
      (fun other inRest => base other (List.mem_cons_of_mem _ inRest)) keys state
    have isNamed := names entry List.mem_cons_self
    rw [List.map_cons, forEach_cons, visitBase, isNamed.reference, ok_bind]
    by_cases own : entry.reference = inode
    · rw [if_pos (Or.inl own)] at later
      rw [if_pos own, List.filter_cons_of_pos (by simpa using own), List.map_cons, forEach_cons,
        ← base entry List.mem_cons_self own,
        visitEntry_eq isNamed (holds entry List.mem_cons_self), base entry List.mem_cons_self own]
      cases func state entry.delivered with
      | error stop => rfl
      | ok called =>
        obtain ⟨goOn, middle⟩ := called
        cases goOn with
        | false => rfl
        | true => exact later middle
    · rw [if_neg own, List.filter_cons_of_neg (by simpa using own)]
      simp only [own, false_or] at later
      exact later state

end Passes

/-! ## The order of the visits -/

/-- The base record, and the extension records by the first entry for each. -/
def recordOrder (inode : Nat) (listed : List ListedRecord) : List Nat :=
  keysOf ListedRecord.reference listed [inode]

/-- The listed records in the order of the visits. -/
def visitOrder (inode : Nat) (listed : List ListedRecord) : List ListedRecord :=
  regroup ListedRecord.reference (recordOrder inode listed) listed

theorem recordOrder_eq_cons (inode : Nat) (listed : List ListedRecord) :
    ∃ others, recordOrder inode listed = inode :: others := by
  have first (keys : List Nat) :
      ∃ others, keysOf ListedRecord.reference listed (inode :: keys) = inode :: others := by
    induction listed generalizing keys with
    | nil => exact ⟨keys, rfl⟩
    | cons entry rest ih =>
      show ∃ others, keysOf ListedRecord.reference rest
        (note (inode :: keys) entry.reference) = inode :: others
      rw [note_cons]
      exact ih _
  exact first []

theorem visitOrder_perm (inode : Nat) (listed : List ListedRecord) :
    (visitOrder inode listed).Perm listed := by
  refine regroup_perm (nodup_keysOf _ _ (List.nodup_singleton inode)) fun entry inList => ?_
  exact mem_keysOf.mpr (Or.inr ⟨entry, inList, rfl⟩)

/-- The walk visits the listed records of one file record after those of another. -/
theorem loopThroughAtts_eq_forEach
    {access : FileAccess} {inode : Nat} {record attlist : Bytes} {listed : List ListedRecord}
    (file : ListedFile access inode record attlist listed) {σ : Type} (func : Visitor σ)
    (state : σ) {turns : Nat} (enough : listed.length ≤ turns) :
    loopThroughAtts access inode record turns func state =
      forEach func ((visitOrder inode listed).map ListedRecord.delivered) state := by
  have nonempty : attlist ≠ [] := by
    rintro rfl
    have chain := file.entries
    cases listed with
    | nil => exact chain
    | cons entry rest =>
      have named := (file.names entry List.mem_cons_self).type
      have room := field_eq_ok named
      simp at room
  obtain ⟨others, order⟩ := recordOrder_eq_cons inode listed
  have nodup : (inode :: others).Nodup := by
    rw [← order]
    exact nodup_keysOf _ _ (List.nodup_singleton inode)
  have opens : ∀ other ∈ others, ∃ host, access.openRecord other = .ok host ∧
      ∀ entry ∈ listed, entry.reference = other → entry.host = host := by
    intro other inOthers
    have different : other ≠ inode := by
      rintro rfl
      exact (List.nodup_cons.mp nodup).1 inOthers
    have noted : other ∈ recordOrder inode listed := by
      rw [order]
      exact List.mem_cons_of_mem _ inOthers
    rcases mem_keysOf.mp noted with isBase | ⟨entry, inList, rfl⟩
    · exact absurd (List.mem_singleton.mp isBase) different
    · have opened := file.extension entry inList different
      refine ⟨entry.host, opened, fun again alsoIn same => ?_⟩
      have openedAgain := file.extension again alsoIn (by rw [same]; exact different)
      rw [same, opened] at openedAgain
      exact (Except.ok.inj openedAgain).symm
  have visits := walkList_eq_forEach (visitBase inode record attlist func) file.entries
    (show (listed.map ListedRecord.ent).length ≤ turns by simpa using enough) (state, [])
  rw [Nat.sub_zero] at visits
  rw [loopThroughAtts_of_list file.read nonempty, visits,
    forEach_visitBase func file.names file.holds file.base
      (walkOthers access attlist func turns) order state, visitOrder, order, regroup,
    List.flatMap_cons, List.map_append, forEach_append]
  refine congrArg _ (funext fun called => ?_)
  rw [walkOthers_eq_forEach func file.names file.holds file.entries opens enough, regroup]

/--
Every listed record is delivered once, whatever function is called, and the
pieces of a stream are delivered by rising cluster numbers.
-/
def DeliversListed (access : FileAccess) (inode : Nat) (record : Bytes)
    (listed : List ListedRecord) : Prop :=
  ∃ calls : List ListedRecord, calls.Perm listed ∧
    (∀ (σ : Type) (func : Visitor σ) (state : σ), ∃ enough, ∀ turns ≥ enough,
      loopThroughAtts access inode record turns func state =
        forEach func (calls.map ListedRecord.delivered) state) ∧
    calls.Pairwise fun earlier later => earlier.header.SameStream later.header →
      earlier.header.lowestVcn ≤ later.header.lowestVcn

/-- Of the records that hold pieces of one stream, those visited first hold its first pieces. -/
def RecordsInOrder (inode : Nat) (listed : List ListedRecord) : Prop :=
  ∀ earlier ∈ listed, ∀ later ∈ listed,
    [earlier.reference, later.reference].Sublist (recordOrder inode listed) →
      earlier.header.SameStream later.header →
        earlier.header.lowestVcn ≤ later.header.lowestVcn

instance (inode : Nat) (listed : List ListedRecord) : Decidable (RecordsInOrder inode listed) :=
  inferInstanceAs (Decidable (∀ earlier ∈ listed, ∀ later ∈ listed, _ → _ → _))

/-- What two descriptions of one attribute record have in common. -/
theorem AttributeAt.unique
    {record : Bytes} {att : Nat} {first second : Attribute}
    (isFirst : AttributeAt record att first) (isSecond : AttributeAt record att second) :
    first.SameStream second ∧ first.lowestVcn = second.lowestVcn := by
  have types := isFirst.type.symm.trans isSecond.type
  have characters := Except.ok.inj (isFirst.nameLength.symm.trans isSecond.nameLength)
  have starts := Except.ok.inj (isFirst.nameOffset.symm.trans isSecond.nameOffset)
  have forms := Except.ok.inj (isFirst.form.symm.trans isSecond.form)
  refine ⟨⟨Except.ok.inj types, ?_⟩, ?_⟩
  · by_cases unnamed : first.characters = 0
    · have lengths := isFirst.name_length
      have sameLengths := isSecond.name_length
      rw [List.length_eq_zero_iff.mp (show first.name.length = 0 by omega),
        List.length_eq_zero_iff.mp (show second.name.length = 0 by omega)]
    · have name := isFirst.name unnamed
      rw [characters, starts, isSecond.name (by omega)] at name
      exact (Except.ok.inj name).symm
  · by_cases resident : first.form = 0
    · rw [(isFirst.value resident).1, (isSecond.value (by omega)).1]
    · exact Except.ok.inj ((isFirst.lowestVcn resident).symm.trans
        (isSecond.lowestVcn (by omega)))

/-- The order of the visits is the only one that a walk can deliver. -/
theorem DeliversListed.pairwise_visitOrder
    {access : FileAccess} {inode : Nat} {record attlist : Bytes} {listed : List ListedRecord}
    (file : ListedFile access inode record attlist listed)
    (delivers : DeliversListed access inode record listed) :
    (visitOrder inode listed).Pairwise fun earlier later =>
      earlier.header.SameStream later.header →
        earlier.header.lowestVcn ≤ later.header.lowestVcn := by
  obtain ⟨calls, perm, walks, ordered⟩ := delivers
  have same : calls.map ListedRecord.delivered =
      (visitOrder inode listed).map ListedRecord.delivered := by
    obtain ⟨enough, walks⟩ := walks (List Delivered) collect []
    have walked := walks (max enough listed.length) (Nat.le_max_left _ _)
    rw [loopThroughAtts_eq_forEach file collect [] (Nat.le_max_right _ _), forEach_collect,
      forEach_collect] at walked
    exact (Prod.mk.inj (Except.ok.inj walked)).2.symm
  -- what is compared depends on what is delivered only
  have shared : ∀ list : List ListedRecord, (∀ entry ∈ list, entry ∈ listed) →
      (list.Pairwise (fun earlier later => earlier.header.SameStream later.header →
        earlier.header.lowestVcn ≤ later.header.lowestVcn) ↔
      (list.map ListedRecord.delivered).Pairwise fun earlier later =>
        ∀ first second, AttributeAt earlier.record earlier.att first →
          AttributeAt later.record later.att second → first.SameStream second →
            first.lowestVcn ≤ second.lowestVcn) := by
    intro list inListed
    rw [List.pairwise_map]
    refine List.Pairwise.iff_of_mem fun {earlier later} inList alsoIn => ?_
    have isEarlier := (file.holds earlier (inListed earlier inList)).attributeAt
    have isLater := (file.holds later (inListed later alsoIn)).attributeAt
    constructor
    · intro related first second isFirst isSecond stream
      obtain ⟨⟨firstType, firstName⟩, firstVcn⟩ := isFirst.unique isEarlier
      obtain ⟨⟨secondType, secondName⟩, secondVcn⟩ := isSecond.unique isLater
      rw [firstVcn, secondVcn]
      refine related ⟨?_, ?_⟩
      · rw [← firstType, stream.1, secondType]
      · rw [← firstName, stream.2, secondName]
    · intro related
      exact related _ _ isEarlier isLater
  rw [shared _ fun entry inOrder => (visitOrder_perm inode listed).subset inOrder, ← same,
    ← shared _ fun entry inCalls => perm.subset inCalls]
  exact ordered

/--
Every listed record is delivered once; the pieces of each stream come by rising
cluster numbers exactly if the records that hold them do.
-/
theorem deliversListed_iff
    {access : FileAccess} {inode : Nat} {record attlist : Bytes} {listed : List ListedRecord}
    (file : ListedFile access inode record attlist listed) :
    DeliversListed access inode record listed ↔ RecordsInOrder inode listed := by
  have grouped := pairwise_regroup_iff ListedRecord.reference (recordOrder inode listed)
    file.ordered
  constructor
  · intro delivers
    exact grouped.mp (delivers.pairwise_visitOrder file)
  · intro order
    refine ⟨visitOrder inode listed, visitOrder_perm inode listed, ?_, grouped.mpr order⟩
    intro σ func state
    exact ⟨listed.length, fun turns enough => loopThroughAtts_eq_forEach file func state enough⟩

/-! ## Examples -/

/-- A list entry for unnamed data. -/
def dataEntry (vcn reference number : Nat) : Bytes :=
  le 4 0x80 ++ le 2 32 ++ le 1 0 ++ le 1 26 ++ le 8 vcn ++ le 8 reference ++ le 2 number ++
    le 6 0

/-- A record of unnamed data that is not resident; the first one has the sizes. -/
def dataAttribute (vcn number clusters : Nat) : Bytes :=
  let size := if vcn = 0 then 8192 else 0
  le 4 0x80 ++ le 2 72 ++ le 2 0 ++ le 1 1 ++ le 1 0 ++ le 2 64 ++ le 2 0 ++ le 2 number ++
    le 8 vcn ++ le 8 (vcn + clusters - 1) ++ le 2 64 ++ le 6 0 ++ le 8 size ++ le 8 size ++
    le 8 size ++ [0x11, UInt8.ofNat clusters, 100, 0, 0, 0, 0, 0]

/-- The data of the file 5: a piece in its base record, and one in the record 40. -/
def piecesList (baseFirst : Bool) : Bytes :=
  if baseFirst then dataEntry 0 5 3 ++ dataEntry 1 40 0
  else dataEntry 0 40 0 ++ dataEntry 1 5 3

/-- The base record, with the first or the second piece. -/
def piecesBase (baseFirst : Bool) : Bytes :=
  recordWith (listAttribute (piecesList baseFirst) ++ dataAttribute (if baseFirst then 0 else 1) 3 1)

/-- The extension record, with the other piece. -/
def piecesExtension (baseFirst : Bool) : Bytes :=
  recordWith (dataAttribute (if baseFirst then 1 else 0) 0 1)

def piecesAccess (baseFirst : Bool) : FileAccess where
  openRecord reference :=
    if reference = 40 then .ok (piecesExtension baseFirst) else .error .outside
  readList _ _ := .error .outside

def dataHeader (vcn number : Nat) : Attribute where
  type := 0x80
  characters := 0
  name := []
  number := number
  lowestVcn := vcn
  form := 1
  nameOffset := 64
  valueOffset := 0
  valueLength := 0

def basePiece (baseFirst : Bool) : ListedRecord where
  ent := if baseFirst then 0 else 32
  reference := 5
  host := piecesBase baseFirst
  att := 144
  header := dataHeader (if baseFirst then 0 else 1) 3

def extensionPiece (baseFirst : Bool) : ListedRecord where
  ent := if baseFirst then 32 else 0
  reference := 40
  host := piecesExtension baseFirst
  att := 56
  header := dataHeader (if baseFirst then 1 else 0) 0

def piecesListed (baseFirst : Bool) : List ListedRecord :=
  if baseFirst then [basePiece true, extensionPiece true]
  else [extensionPiece false, basePiece false]

theorem forall_mem_piecesListed
    {baseFirst : Bool} {property : ListedRecord → Prop} (base : property (basePiece baseFirst))
    (extension : property (extensionPiece baseFirst)) :
    ∀ entry ∈ piecesListed baseFirst, property entry := by
  cases baseFirst with
  | true => exact List.forall_mem_cons.mpr ⟨base, List.forall_mem_singleton.mpr extension⟩
  | false => exact List.forall_mem_cons.mpr ⟨extension, List.forall_mem_singleton.mpr base⟩

def listHeader : Attribute where
  type := attributeListType
  characters := 0
  name := []
  number := 0
  lowestVcn := 0
  form := 0
  nameOffset := 0
  valueOffset := 24
  valueLength := 64

theorem attributeChain_nil {record : Bytes} {att : Nat} (last : isEnd record att = .ok true) :
    AttributeChain record att [] :=
  last

theorem holds_basePiece (baseFirst : Bool) : Holds (basePiece baseFirst) := by
  refine ⟨56, [(56, listHeader), (144, dataHeader (if baseFirst then 0 else 1) 3)], ?_,
    ⟨rfl, ?_, ?_, 88, ?_, rfl, ?_, ?_, 72, ?_, attributeChain_nil ?_⟩, ?_, ?_⟩
  case refine_3 | refine_6 => cases baseFirst <;> constructor <;> decide +kernel
  all_goals cases baseFirst <;> decide +kernel

theorem holds_extensionPiece (baseFirst : Bool) : Holds (extensionPiece baseFirst) := by
  refine ⟨56, [(56, dataHeader (if baseFirst then 1 else 0) 0)], ?_,
    ⟨rfl, ?_, ?_, 72, ?_, attributeChain_nil ?_⟩, ?_, ?_⟩
  case refine_3 => cases baseFirst <;> constructor <;> decide +kernel
  all_goals cases baseFirst <;> decide +kernel

theorem names_basePiece (baseFirst : Bool) : Names (piecesList baseFirst) (basePiece baseFirst) := by
  constructor
  case name => exact fun named => absurd rfl named
  all_goals cases baseFirst <;> decide +kernel

theorem names_extensionPiece (baseFirst : Bool) :
    Names (piecesList baseFirst) (extensionPiece baseFirst) := by
  constructor
  case name => exact fun named => absurd rfl named
  all_goals cases baseFirst <;> decide +kernel

theorem listedFile_piecesListed (baseFirst : Bool) :
    ListedFile (piecesAccess baseFirst) 5 (piecesBase baseFirst) (piecesList baseFirst)
      (piecesListed baseFirst) where
  read := by cases baseFirst <;> decide +kernel
  entries := by
    cases baseFirst with
    | true =>
      exact ⟨rfl, 32, by decide +kernel, by decide +kernel, rfl, 32, by decide +kernel,
        by decide +kernel⟩
    | false =>
      exact ⟨rfl, 32, by decide +kernel, by decide +kernel, rfl, 32, by decide +kernel,
        by decide +kernel⟩
  names := forall_mem_piecesListed (names_basePiece baseFirst) (names_extensionPiece baseFirst)
  base := forall_mem_piecesListed (fun _ => rfl) fun other => absurd other (by simp [extensionPiece])
  extension := forall_mem_piecesListed (fun other => absurd rfl other) fun _ => rfl
  holds := forall_mem_piecesListed (holds_basePiece baseFirst) (holds_extensionPiece baseFirst)
  ordered := by cases baseFirst <;> decide +kernel

/-- The pieces come in order if the first one is in the base record. -/
theorem deliversListed_base_first :
    DeliversListed (piecesAccess true) 5 (piecesBase true) (piecesListed true) :=
  (deliversListed_iff (listedFile_piecesListed true)).mpr (by decide +kernel)

/-- They do not if the first one is in an extension record. -/
theorem not_deliversListed_extension_first :
    ListedFile (piecesAccess false) 5 (piecesBase false) (piecesList false) (piecesListed false) ∧
      ¬ DeliversListed (piecesAccess false) 5 (piecesBase false) (piecesListed false) := by
  refine ⟨listedFile_piecesListed false, fun delivers => ?_⟩
  have ordered := delivers.pairwise_visitOrder (listedFile_piecesListed false)
  revert ordered
  decide +kernel

end Ntfs2Btrfs
