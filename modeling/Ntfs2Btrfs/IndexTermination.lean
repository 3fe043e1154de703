import Ntfs2Btrfs.IndexMappings
import Ntfs2Btrfs.IndexWalk
import Ntfs2Btrfs.WalkTermination

/-!
# Searches and walks of an index that end

A search and a walk of an index move on by lengths and go down by record numbers
that are read from the index, and remember neither where they have been nor how
deep they are.  They end where no entry that they come to leads back to itself:
where no entry of length zero is passed over, and no index record is opened
again below itself.

A read outside of a buffer ends a search or a walk.
-/

namespace Ntfs2Btrfs

namespace Index

open ByteStore
open Exploration

/-! ## Opening an index record -/

/-- `bytes_per_index_record` of the index root. -/
def bytesPerIndexRecord (ir : Bytes) : Walk Nat :=
  field ir 8 4

/-- `INDEX_RECORD_MAGIC`. -/
def indexRecordMagic : Nat := 0x58444e49

/-- Where in the index allocation the record with a number is. -/
def recordOffset (geometry : Geometry) (size vcn : Nat) : Nat :=
  (if size < geometry.clusterSize then vcn * geometry.bytesPerSector
    else vcn * geometry.clusterSize) % wordModulus

/-- What is done for the subnode with a number before its entries are looked at. -/
def openIndexRecord
    (geometry : Geometry) (device : Store) (mappings : List Mapping) (ir : Bytes) (vcn : Nat) :
    Walk Bytes :=
  bytesPerIndexRecord ir >>= fun size =>
    match readFromMappings geometry device (recordOffset geometry size vcn) size mappings with
    | .error .outside => .error .outside
    | .ok data =>
        field data.bytes 0 4 >>= fun signature =>
          if signature ≠ indexRecordMagic then .error (.threw .indexRecordMagic)
          else
            match processFixups size geometry.bytesPerSector data.bytes with
            | .error error => .error (.threw (.fixups error))
            | .ok record => .ok record

theorem halts_openIndexRecord
    (geometry : Geometry) (device : Store) (mappings : List Mapping) (ir : Bytes) (vcn : Nat) :
    Halts (openIndexRecord geometry device mappings ir vcn) := by
  refine (halts_field _ _ _).bind fun size _ => ?_
  cases readFromMappings geometry device (recordOffset geometry size vcn) size mappings with
  | error fault =>
    intro running
    cases running
  | ok data =>
    refine (halts_field _ _ _).bind fun signature _ => halts_ite (fun _ running => ?_) fun _ => ?_
    · cases running
    · cases processFixups size geometry.bytesPerSector data.bytes with
      | error error =>
        intro running
        cases running
      | ok record => exact halts_ok record

/-! ## Where an entry leads -/

/-- The place of an entry: the buffer of its node, and its offset. -/
abbrev Place := Bytes × Nat

/-- The entry is the last one of its node. -/
def LastAt (place : Place) : Prop :=
  ∃ flags, entryFlags place.1 place.2 = .ok flags ∧ IsLast flags

/-- The entry behind one that is not the last. -/
def PassesOn (place next : Place) : Prop :=
  ∃ flags length, entryFlags place.1 place.2 = .ok flags ∧ ¬ IsLast flags ∧
    entryLength place.1 place.2 = .ok length ∧ next = (place.1, place.2 + length)

/-- The first entry of the index record that an entry names. -/
def readSubnode (openRecord : Nat → Walk Bytes) (place : Place) : Walk Place :=
  subnodeVcn place.1 place.2 >>= fun vcn =>
    openRecord vcn >>= fun record =>
      (firstEntry record recordNodeHeader).map fun first => (record, first)

/-- The entry has a subnode, and this is its first entry. -/
def OpensRecord (openRecord : Nat → Walk Bytes) (place next : Place) : Prop :=
  ∃ flags, entryFlags place.1 place.2 = .ok flags ∧ HasSubnode flags ∧
    readSubnode openRecord place = .ok next

/--
No entry that is come to is followed by itself, and no record that is opened
leads back to where it was opened.
-/
def NeverBack (passes opens : Place → Place → Prop) (start : Place) : Prop :=
  ∀ place, Relation.ReflTransGen (fun place next => passes place next ∨ opens place next)
      start place →
    ¬ passes place place ∧ ∀ record, opens place record →
      ¬ Relation.ReflTransGen (fun place next => passes place next ∨ opens place next)
        record place

theorem map_eq_ok_iff {α β : Type} {walk : Walk α} {change : α → β} {result : β} :
    walk.map change = .ok result ↔ ∃ value, walk = .ok value ∧ change value = result := by
  cases walk with
  | error stop =>
    refine iff_of_false (fun ended => by cases ended) ?_
    rintro ⟨value, ended, -⟩
    cases ended
  | ok value =>
    constructor
    · exact fun ended => ⟨value, rfl, Except.ok.inj ended⟩
    · rintro ⟨other, same, ended⟩
      obtain rfl := Except.ok.inj same
      exact congrArg Except.ok ended

theorem halts_subnodeVcn (buf : Bytes) (ent : Nat) : Halts (subnodeVcn buf ent) :=
  (halts_field _ _ _).bind fun _ _ => (halts_field _ _ _).map

theorem field_lt
    {buf : Bytes} {offset width value : Nat} (read : field buf offset width = .ok value) :
    value < 256 ^ width := by
  have inside := field_eq_ok read
  rw [field, if_pos inside] at read
  obtain rfl := Except.ok.inj read
  have bound := unle_lt (slice buf offset width)
  rwa [length_slice inside] at bound

theorem PassesOn.before {place next : Place} (passes : PassesOn place next) :
    next.1 = place.1 ∧ place.2 ≤ next.2 ∧ next.2 < place.1.length + 2 ^ 16 := by
  obtain ⟨flags, length, flagsRead, -, lengthRead, rfl⟩ := passes
  have room := field_eq_ok flagsRead
  have small := field_lt lengthRead
  refine ⟨rfl, Nat.le_add_right _ _, ?_⟩
  change place.2 + length < _
  omega

section Calls

variable {openRecord : Nat → Walk Bytes}

theorem OpensRecord.bounded {place next : Place} (opens : OpensRecord openRecord place next) :
    (∃ vcn < 2 ^ 48, openRecord vcn = .ok next.1) ∧ next.2 < 2 ^ 33 := by
  obtain ⟨flags, -, -, read⟩ := opens
  obtain ⟨vcn, vcnRead, read⟩ := bind_eq_ok_iff.mp read
  obtain ⟨record, opened, read⟩ := bind_eq_ok_iff.mp read
  obtain ⟨first, firstRead, rfl⟩ := map_eq_ok_iff.mp read
  refine ⟨⟨vcn, ?_, opened⟩, ?_⟩
  · obtain ⟨length, -, named⟩ := bind_eq_ok_iff.mp vcnRead
    obtain ⟨reference, -, rfl⟩ := map_eq_ok_iff.mp named
    exact Nat.mod_lt _ (by decide)
  · obtain ⟨offset, offsetRead, rfl⟩ := map_eq_ok_iff.mp firstRead
    have small := field_lt offsetRead
    change 24 + offset < _
    omega

/-- Going down to a subtree, when nothing is made of a failure. -/
theorem readSubnode_bind
    {α : Type} (place : Place) (next : Bytes → Nat → Walk α) :
    (subnodeVcn place.1 place.2 >>= fun vcn =>
      openRecord vcn >>= fun record =>
        firstEntry record recordNodeHeader >>= fun first => next record first) =
      readSubnode openRecord place >>= fun below => next below.1 below.2 := by
  rw [readSubnode]
  cases subnodeVcn place.1 place.2 with
  | error stop => rfl
  | ok vcn =>
    change (openRecord vcn >>= fun record => _) = (openRecord vcn >>= fun record => _) >>= _
    cases openRecord vcn with
    | error stop => rfl
    | ok record =>
      change (firstEntry record recordNodeHeader >>= fun first => _) =
        (firstEntry record recordNodeHeader).map _ >>= _
      cases firstEntry record recordNodeHeader with
      | error stop => rfl
      | ok first => rfl

theorem halts_readSubnode (opening : ∀ vcn, Halts (openRecord vcn)) (place : Place) :
    Halts (readSubnode openRecord place) :=
  (halts_subnodeVcn _ _).bind fun _ _ => (opening _).bind fun _ _ => (halts_field _ _ _).map.map

/-- There are only so many places that can be come to. -/
theorem finite_reachable
    {calls : Place → Place → Prop}
    (within : ∀ place next, calls place next →
      PassesOn place next ∨ OpensRecord openRecord place next)
    (start : Place) : {place | Relation.ReflTransGen calls start place}.Finite := by
  let records : Set Bytes := {record | ∃ vcn < 2 ^ 48, openRecord vcn = .ok record}
  have recordsFinite : records.Finite := by
    refine ((Finset.range (2 ^ 48)).finite_toSet.image
      fun vcn => (openRecord vcn).toOption.getD []).subset ?_
    rintro record ⟨vcn, small, opened⟩
    refine ⟨vcn, Finset.mem_coe.mpr (Finset.mem_range.mpr small), ?_⟩
    change (openRecord vcn).toOption.getD [] = record
    rw [opened]
    rfl
  refine (((recordsFinite.insert start.1).biUnion fun buf _ =>
    (Set.finite_Iio (buf.length + start.2 + 2 ^ 33)).image (Prod.mk buf)).subset ?_)
  intro place reached
  have invariant : place.1 ∈ insert start.1 records ∧
      place.2 < place.1.length + start.2 + 2 ^ 33 := by
    induction reached with
    | refl => exact ⟨Set.mem_insert _ _, by omega⟩
    | @tail place next _ call induction =>
      rcases within place next call with passes | opens
      · obtain ⟨same, -, bound⟩ := passes.before
        rw [same]
        exact ⟨induction.1, by omega⟩
      · obtain ⟨isRecord, bound⟩ := opens.bounded
        exact ⟨Set.mem_insert_of_mem _ isRecord, by omega⟩
  exact Set.mem_biUnion invariant.1 ⟨place.2, invariant.2, rfl⟩

/-- The calls have no cycle exactly when no entry leads back to itself. -/
theorem acyclic_iff_neverBack
    {passes opens : Place → Place → Prop}
    (passesOn : ∀ place next, passes place next → PassesOn place next) (start : Place) :
    Acyclic (fun place next => passes place next ∨ opens place next) start ↔
      NeverBack passes opens start := by
  refine @acyclic_iff Place passes opens Prod.snd ?_ ?_ start
  · exact fun place next moves => (passesOn place next moves).before.2.1
  · intro place next moves back
    obtain ⟨same, ahead, -⟩ := (passesOn place next moves).before
    exact Prod.ext same.symm (Nat.le_antisymm ahead back)

end Calls

/-! ## The search -/

section Search

variable (openRecord : Nat → Walk Bytes) (key : Nat)

/-- The search passes an entry whose key is less. -/
def SearchPasses (place next : Place) : Prop :=
  PassesOn place next ∧ ∃ here, entryKey place.1 place.2 = .ok here ∧ here < key

/-- The search goes down at a last entry, and where the key is greater. -/
def SearchOpens (place next : Place) : Prop :=
  OpensRecord openRecord place next ∧
    (LastAt place ∨ ∃ here, entryKey place.1 place.2 = .ok here ∧ key < here)

variable {openRecord key}

theorem halts_searchStep (buf : Bytes) (ent : Nat) : Halts (searchStep key buf ent) := by
  have vcn := halts_subnodeVcn buf ent
  have data (tail : Nat) : Halts (entryData buf ent tail) := by
    refine (halts_field _ _ _).bind fun stream _ => (halts_field _ _ _).bind fun length _ =>
      halts_ite (fun _ => halts_bytesAt _ _ _) fun _ running => ?_
    cases running
  refine (halts_field _ _ _).bind fun flags _ => halts_ite (fun _ => ?_) fun _ => ?_
  · refine halts_ite (fun _ => vcn.map) fun _ => (halts_field _ _ _).bind fun v1 _ => ?_
    exact halts_ite (fun _ => (data 8).map) fun _ =>
      halts_ite (fun _ => (halts_field _ _ _).map) fun _ => vcn.map
  · refine halts_ite (fun _ => halts_ok _) fun _ => (halts_field _ _ _).bind fun v _ => ?_
    exact halts_ite (fun _ => (data 0).map) fun _ =>
      halts_ite (fun _ => halts_ok _) fun _ => (halts_field _ _ _).map

/-- Where the search goes on in the node. -/
theorem searchStep_eq_next_iff {buf : Bytes} {ent next : Nat} :
    searchStep key buf ent = .ok (.next next) ↔ SearchPasses key (buf, ent) (buf, next) := by
  constructor
  · intro step
    obtain ⟨flags, flagsRead, step⟩ := bind_eq_ok_iff.mp step
    split_ifs at step with node final final
    · obtain ⟨vcn, -, moved⟩ := map_eq_ok_iff.mp step
      cases moved
    · obtain ⟨here, keyRead, step⟩ := bind_eq_ok_iff.mp step
      split_ifs at step with same less
      · obtain ⟨data, -, moved⟩ := map_eq_ok_iff.mp step
        cases moved
      · obtain ⟨length, lengthRead, moved⟩ := map_eq_ok_iff.mp step
        obtain rfl := SearchStep.next.inj moved
        exact ⟨⟨flags, length, flagsRead, final, lengthRead, rfl⟩, here, keyRead, less⟩
      · obtain ⟨vcn, -, moved⟩ := map_eq_ok_iff.mp step
        cases moved
    · cases step
    · obtain ⟨here, keyRead, step⟩ := bind_eq_ok_iff.mp step
      split_ifs at step with same greater
      · obtain ⟨data, -, moved⟩ := map_eq_ok_iff.mp step
        cases moved
      · cases step
      · obtain ⟨length, lengthRead, moved⟩ := map_eq_ok_iff.mp step
        obtain rfl := SearchStep.next.inj moved
        exact ⟨⟨flags, length, flagsRead, final, lengthRead, rfl⟩, here, keyRead,
          lt_of_le_of_ne (not_lt.mp greater) same⟩
  · rintro ⟨⟨flags, length, flagsRead, notLast, lengthRead, there⟩, here, keyRead, less⟩
    obtain rfl : next = ent + length := (Prod.mk.inj there).2
    refine bind_eq_ok_iff.mpr ⟨flags, flagsRead, ?_⟩
    have moves : (entryLength buf ent).map (fun length => SearchStep.next (ent + length)) =
        .ok (.next (ent + length)) :=
      map_eq_ok_iff.mpr ⟨length, lengthRead, rfl⟩
    rw [if_neg notLast, if_neg notLast]
    split_ifs
    · refine bind_eq_ok_iff.mpr ⟨here, keyRead, ?_⟩
      rw [if_neg less.ne, if_pos less]
      exact moves
    · refine bind_eq_ok_iff.mpr ⟨here, keyRead, ?_⟩
      rw [if_neg less.ne, if_neg less.not_gt]
      exact moves

/-- Where the search goes down to a subtree. -/
theorem searchStep_eq_descend_iff {buf : Bytes} {ent vcn : Nat} :
    searchStep key buf ent = .ok (.descend vcn) ↔
      (∃ flags, entryFlags buf ent = .ok flags ∧ HasSubnode flags) ∧
        subnodeVcn buf ent = .ok vcn ∧
          (LastAt (buf, ent) ∨ ∃ here, entryKey buf ent = .ok here ∧ key < here) := by
  constructor
  · intro step
    obtain ⟨flags, flagsRead, step⟩ := bind_eq_ok_iff.mp step
    split_ifs at step with node final final
    · obtain ⟨other, vcnRead, moved⟩ := map_eq_ok_iff.mp step
      obtain rfl := SearchStep.descend.inj moved
      exact ⟨⟨flags, flagsRead, node⟩, vcnRead, Or.inl ⟨flags, flagsRead, final⟩⟩
    · obtain ⟨here, keyRead, step⟩ := bind_eq_ok_iff.mp step
      split_ifs at step with same less
      · obtain ⟨data, -, moved⟩ := map_eq_ok_iff.mp step
        cases moved
      · obtain ⟨length, -, moved⟩ := map_eq_ok_iff.mp step
        cases moved
      · obtain ⟨other, vcnRead, moved⟩ := map_eq_ok_iff.mp step
        obtain rfl := SearchStep.descend.inj moved
        exact ⟨⟨flags, flagsRead, node⟩, vcnRead,
          Or.inr ⟨here, keyRead, lt_of_le_of_ne (not_lt.mp less) (Ne.symm same)⟩⟩
    · cases step
    · obtain ⟨here, -, step⟩ := bind_eq_ok_iff.mp step
      split_ifs at step with same greater
      · obtain ⟨data, -, moved⟩ := map_eq_ok_iff.mp step
        cases moved
      · cases step
      · obtain ⟨length, -, moved⟩ := map_eq_ok_iff.mp step
        cases moved
  · rintro ⟨⟨flags, flagsRead, node⟩, vcnRead, goesDown⟩
    have moves : (subnodeVcn buf ent).map SearchStep.descend = .ok (.descend vcn) :=
      map_eq_ok_iff.mpr ⟨vcn, vcnRead, rfl⟩
    refine bind_eq_ok_iff.mpr ⟨flags, flagsRead, ?_⟩
    rw [if_pos node]
    split_ifs with final
    · exact moves
    · rcases goesDown with ⟨others, othersRead, othersLast⟩ | ⟨here, keyRead, greater⟩
      · rw [flagsRead] at othersRead
        obtain rfl := Except.ok.inj othersRead
        exact absurd othersLast final
      · refine bind_eq_ok_iff.mpr ⟨here, keyRead, ?_⟩
        rw [if_neg greater.ne', if_neg greater.not_gt]
        exact moves

theorem btreeSearch_of_passes
    {place next : Place} (passes : SearchPasses key place next) (turns : Nat) :
    btreeSearch openRecord key (turns + 1) place.1 place.2 =
      btreeSearch openRecord key turns next.1 next.2 := by
  obtain ⟨buf, ent⟩ := place
  obtain ⟨nextBuf, nextEnt⟩ := next
  obtain rfl : nextBuf = buf := passes.1.before.1
  rw [btreeSearch, searchStep_eq_next_iff.mpr passes]
  rfl

theorem btreeSearch_of_descend
    {place : Place} {vcn : Nat} (step : searchStep key place.1 place.2 = .ok (.descend vcn))
    (turns : Nat) :
    btreeSearch openRecord key (turns + 1) place.1 place.2 =
      readSubnode openRecord place >>= fun below =>
        btreeSearch openRecord key turns below.1 below.2 := by
  obtain ⟨-, vcnRead, -⟩ := searchStep_eq_descend_iff.mp step
  rw [btreeSearch, step, ← readSubnode_bind, vcnRead]
  rfl

theorem btreeSearch_of_opens
    {place next : Place} (opens : SearchOpens openRecord key place next) (turns : Nat) :
    btreeSearch openRecord key (turns + 1) place.1 place.2 =
      btreeSearch openRecord key turns next.1 next.2 := by
  obtain ⟨⟨flags, flagsRead, node, read⟩, goesDown⟩ := opens
  obtain ⟨vcn, vcnRead, -⟩ := bind_eq_ok_iff.mp read
  rw [btreeSearch_of_descend
    (searchStep_eq_descend_iff.mpr ⟨⟨flags, flagsRead, node⟩, vcnRead, goesDown⟩), read]
  rfl

/-- Where the search does not go on, it ends. -/
theorem exists_next_or_halts
    (opening : ∀ vcn, Halts (openRecord vcn)) (place : Place) :
    (∃ next, SearchPasses key place next ∨ SearchOpens openRecord key place next) ∨
      Halts (btreeSearch openRecord key 1 place.1 place.2) := by
  cases step : searchStep key place.1 place.2 with
  | error stop =>
    refine Or.inr ?_
    have halts := @halts_searchStep key place.1 place.2
    rw [step] at halts
    rw [btreeSearch, step]
    exact halts.bind fun _ ended => by cases ended
  | ok turn =>
    cases turn with
    | found data =>
      refine Or.inr ?_
      rw [btreeSearch, step]
      exact halts_ok (some data)
    | notFound =>
      refine Or.inr ?_
      rw [btreeSearch, step]
      exact halts_ok none
    | next ent => exact Or.inl ⟨(place.1, ent), Or.inl (searchStep_eq_next_iff.mp step)⟩
    | descend vcn =>
      obtain ⟨⟨flags, flagsRead, node⟩, vcnRead, goesDown⟩ := searchStep_eq_descend_iff.mp step
      have goes := halts_readSubnode opening place
      cases read : readSubnode openRecord place with
      | error stop =>
        refine Or.inr ?_
        rw [btreeSearch_of_descend step]
        refine goes.bind fun _ ended => ?_
        rw [read] at ended
        cases ended
      | ok below =>
        exact Or.inl ⟨below, Or.inr ⟨⟨flags, flagsRead, node, read⟩, goesDown⟩⟩

/-- The search ends exactly when no entry that it comes to leads back to itself. -/
theorem exists_halts_btreeSearch_iff
    (opening : ∀ vcn, Halts (openRecord vcn)) (start : Place) :
    (∃ turns, Halts (btreeSearch openRecord key turns start.1 start.2)) ↔
      NeverBack (SearchPasses key) (SearchOpens openRecord key) start := by
  rw [← acyclic_iff_neverBack fun place next passes => passes.1]
  constructor
  · rintro ⟨turns, halts⟩
    refine @acyclic_of_endsWithin Place _
      (fun turns place => Halts (btreeSearch openRecord key turns place.1 place.2))
      (fun place ended => ended rfl) ?_ turns start halts
    intro turns place next call ended
    rcases call with passes | opens
    · rwa [btreeSearch_of_passes passes] at ended
    · rwa [btreeSearch_of_opens opens] at ended
  · intro acyclic
    have accessible := acc_of_acyclic (finite_reachable (fun place next call =>
      call.imp (fun passes => passes.1) fun opens => opens.1) start) acyclic
    clear acyclic
    induction accessible with
    | intro place _ induction =>
      rcases exists_next_or_halts opening place with ⟨next, passes | opens⟩ | halts
      · obtain ⟨turns, halts⟩ := induction next (Or.inl passes)
        exact ⟨turns + 1, by rwa [btreeSearch_of_passes passes]⟩
      · obtain ⟨turns, halts⟩ := induction next (Or.inr opens)
        exact ⟨turns + 1, by rwa [btreeSearch_of_opens opens]⟩
      · exact ⟨1, halts⟩

end Search

/-! ## The walk -/

/-- What the function is called with at an entry without a subnode. -/
def entryCall (buf : Bytes) (ent : Nat) : Walk IndexCall :=
  entryReference buf ent >>= fun reference =>
    streamLength buf ent >>= fun length =>
      (bytesAt buf (ent + indexEntrySize) length).map (IndexCall.mk reference)

/-- The entry has no subnode, and the function is called with what it holds. -/
def CallAt (place : Place) (call : IndexCall) : Prop :=
  ∃ flags, entryFlags place.1 place.2 = .ok flags ∧ ¬ HasSubnode flags ∧
    entryCall place.1 place.2 = .ok call

/-- A node can be read from an entry to its end, and so can the subtrees. -/
inductive ReadThrough (openRecord : Nat → Walk Bytes) : Place → Prop where
  | lastLeaf {place : Place} {call : IndexCall} (here : CallAt place call)
      (last : LastAt place) : ReadThrough openRecord place
  | lastNode {place below : Place} (opens : OpensRecord openRecord place below)
      (whole : ReadThrough openRecord below) (last : LastAt place) :
      ReadThrough openRecord place
  | leaf {place next : Place} {call : IndexCall} (here : CallAt place call)
      (passes : PassesOn place next) (rest : ReadThrough openRecord next) :
      ReadThrough openRecord place
  | node {place below next : Place} (opens : OpensRecord openRecord place below)
      (whole : ReadThrough openRecord below) (passes : PassesOn place next)
      (rest : ReadThrough openRecord next) : ReadThrough openRecord place

/-- The walk passes an entry when it has read what is before the next one. -/
def WalkPasses (openRecord : Nat → Walk Bytes) (place next : Place) : Prop :=
  PassesOn place next ∧
    ((∃ call, CallAt place call) ∨
      ∃ below, OpensRecord openRecord place below ∧ ReadThrough openRecord below)

section Walk

variable {σ : Type} {openRecord : Nat → Walk Bytes} {func : σ → IndexCall → Walk σ}

theorem callEntry_eq_bind (buf : Bytes) (ent : Nat) (s : σ) :
    callEntry func buf ent s = entryCall buf ent >>= func s := by
  rw [callEntry, entryCall]
  cases entryReference buf ent with
  | error stop => rfl
  | ok reference =>
    cases streamLength buf ent with
    | error stop => rfl
    | ok length =>
      change (bytesAt buf (ent + indexEntrySize) length >>= fun stream => _) =
        (bytesAt buf (ent + indexEntrySize) length).map (IndexCall.mk reference) >>= func s
      cases bytesAt buf (ent + indexEntrySize) length with
      | error stop => rfl
      | ok stream => rfl

/-- What is left of a turn behind the subtree or the call. -/
def walkOn
    (openRecord : Nat → Walk Bytes) (func : σ → IndexCall → Walk σ) (turns : Nat)
    (place : Place) (s : σ) : Walk σ :=
  entryFlags place.1 place.2 >>= fun flags =>
    if IsLast flags then .ok s
    else entryLength place.1 place.2 >>= fun length =>
      walkBtree openRecord func turns place.1 (place.2 + length) s

theorem walkOn_of_last {place : Place} (last : LastAt place) (turns : Nat) (s : σ) :
    walkOn openRecord func turns place s = .ok s := by
  obtain ⟨flags, flagsRead, isLast⟩ := last
  rw [walkOn, flagsRead]
  exact if_pos isLast

theorem walkOn_of_passes
    {place next : Place} (passes : PassesOn place next) (turns : Nat) (s : σ) :
    walkOn openRecord func turns place s = walkBtree openRecord func turns next.1 next.2 s := by
  obtain ⟨flags, length, flagsRead, notLast, lengthRead, rfl⟩ := passes
  rw [walkOn, flagsRead]
  refine (if_neg notLast).trans ?_
  rw [lengthRead]
  rfl

/-- Behind an entry the node ends, or goes on, or cannot be read. -/
theorem walkOn_cases (place : Place) :
    LastAt place ∨ (∃ next, PassesOn place next) ∨
      ∃ stop, stop ≠ .running ∧
        ∀ (turns : Nat) (s : σ), walkOn openRecord func turns place s = .error stop := by
  cases flagsRead : entryFlags place.1 place.2 with
  | error stop =>
    refine Or.inr (Or.inr ⟨stop, ?_, fun turns s => ?_⟩)
    · rintro rfl
      exact halts_field _ _ _ flagsRead
    · rw [walkOn, flagsRead]
      rfl
  | ok flags =>
    by_cases isLast : IsLast flags
    · exact Or.inl ⟨flags, flagsRead, isLast⟩
    · cases lengthRead : entryLength place.1 place.2 with
      | error stop =>
        refine Or.inr (Or.inr ⟨stop, ?_, fun turns s => ?_⟩)
        · rintro rfl
          exact halts_field _ _ _ lengthRead
        · rw [walkOn, flagsRead]
          refine (if_neg isLast).trans ?_
          rw [lengthRead]
          rfl
      | ok length =>
        exact Or.inr (Or.inl ⟨(place.1, place.2 + length), flags, length, flagsRead, isLast,
          lengthRead, rfl⟩)

/-- A turn at an entry without a subnode. -/
theorem walkBtree_of_leaf
    {place : Place} {flags : Nat} (flagsRead : entryFlags place.1 place.2 = .ok flags)
    (leaf : ¬ HasSubnode flags) (turns : Nat) (s : σ) :
    walkBtree openRecord func (turns + 1) place.1 place.2 s =
      (entryCall place.1 place.2 >>= func s) >>= walkOn openRecord func turns place := by
  rw [walkBtree, flagsRead, ← callEntry_eq_bind]
  change (ite _ _ _ : Walk σ) >>= _ = _
  rw [if_neg leaf]
  congr 1
  funext s
  rw [walkOn, flagsRead]
  rfl

/-- A turn at an entry with a subnode. -/
theorem walkBtree_of_node
    {place : Place} {flags : Nat} (flagsRead : entryFlags place.1 place.2 = .ok flags)
    (node : HasSubnode flags) (turns : Nat) (s : σ) :
    walkBtree openRecord func (turns + 1) place.1 place.2 s =
      (readSubnode openRecord place >>= fun below =>
        walkBtree openRecord func turns below.1 below.2 s) >>=
          walkOn openRecord func turns place := by
  rw [walkBtree, flagsRead, ← readSubnode_bind place fun record first =>
    walkBtree openRecord func turns record first s]
  change (ite _ _ _ : Walk σ) >>= _ = _
  rw [if_pos node]
  congr 1
  funext s
  rw [walkOn, flagsRead]
  rfl

theorem walkBtree_of_call
    {place : Place} {call : IndexCall} (here : CallAt place call) (turns : Nat) (s : σ) :
    walkBtree openRecord func (turns + 1) place.1 place.2 s =
      func s call >>= walkOn openRecord func turns place := by
  obtain ⟨flags, flagsRead, leaf, callRead⟩ := here
  rw [walkBtree_of_leaf flagsRead leaf, callRead]
  rfl

theorem walkBtree_of_opens
    {place below : Place} (opens : OpensRecord openRecord place below) (turns : Nat) (s : σ) :
    walkBtree openRecord func (turns + 1) place.1 place.2 s =
      walkBtree openRecord func turns below.1 below.2 s >>=
        walkOn openRecord func turns place := by
  obtain ⟨flags, flagsRead, node, read⟩ := opens
  rw [walkBtree_of_node flagsRead node, read]
  rfl

/-- At an entry the function is called, or a record is opened, or the walk ends. -/
theorem walkBtree_cases (opening : ∀ vcn, Halts (openRecord vcn)) (place : Place) :
    (∃ call, CallAt place call) ∨ (∃ below, OpensRecord openRecord place below) ∨
      ∃ stop, stop ≠ .running ∧ ∀ (turns : Nat) (s : σ),
        walkBtree openRecord func (turns + 1) place.1 place.2 s = .error stop := by
  cases flagsRead : entryFlags place.1 place.2 with
  | error stop =>
    refine Or.inr (Or.inr ⟨stop, ?_, fun turns s => ?_⟩)
    · rintro rfl
      exact halts_field _ _ _ flagsRead
    · rw [walkBtree, flagsRead]
      rfl
  | ok flags =>
    by_cases node : HasSubnode flags
    · cases read : readSubnode openRecord place with
      | error stop =>
        refine Or.inr (Or.inr ⟨stop, ?_, fun turns s => ?_⟩)
        · rintro rfl
          exact halts_readSubnode opening place read
        · rw [walkBtree_of_node flagsRead node, read]
          rfl
      | ok below => exact Or.inr (Or.inl ⟨below, flags, flagsRead, node, read⟩)
    · cases callRead : entryCall place.1 place.2 with
      | error stop =>
        refine Or.inr (Or.inr ⟨stop, ?_, fun turns s => ?_⟩)
        · rintro rfl
          have halts : Halts (entryCall place.1 place.2) :=
            (halts_field _ _ _).map.bind fun _ _ => (halts_field _ _ _).bind fun _ _ =>
              (halts_bytesAt _ _ _).map
          exact halts callRead
        · rw [walkBtree_of_leaf flagsRead node, callRead]
          rfl
      | ok call => exact Or.inl ⟨call, flags, flagsRead, node, callRead⟩

/-- What follows may be replaced where it ends. -/
theorem bind_congr_of_halts
    {α β : Type} {walk : Walk α} {next other : α → Walk β} (halts : Halts (walk >>= next))
    (same : ∀ value, Halts (next value) → other value = next value) :
    walk >>= other = walk >>= next := by
  cases walk with
  | error stop => rfl
  | ok value => exact same value halts

/-- A longer bound does not change a walk that has ended. -/
theorem walkBtree_mono (opening : ∀ vcn, Halts (openRecord vcn)) {turns : Nat} :
    ∀ {place : Place} {s : σ}, Halts (walkBtree openRecord func turns place.1 place.2 s) →
      ∀ more, turns ≤ more →
        walkBtree openRecord func more place.1 place.2 s =
          walkBtree openRecord func turns place.1 place.2 s := by
  induction turns with
  | zero => exact fun halts => absurd rfl halts
  | succ turns induction =>
      intro place s halts more longer
      obtain ⟨more, rfl⟩ := Nat.exists_eq_add_of_le' (show 1 ≤ more by omega)
      have less : turns ≤ more := by omega
      have behind (s : σ) (halts : Halts (walkOn openRecord func turns place s)) :
          walkOn openRecord func more place s = walkOn openRecord func turns place s := by
        rcases @walkOn_cases σ openRecord func place with last | ⟨next, passes⟩ | ⟨stop, -, stops⟩
        · rw [walkOn_of_last last, walkOn_of_last last]
        · rw [walkOn_of_passes passes] at halts ⊢
          rw [walkOn_of_passes passes]
          exact induction halts more less
        · rw [stops, stops]
      rcases @walkBtree_cases σ openRecord func opening place with
        ⟨call, here⟩ | ⟨below, opens⟩ | ⟨stop, -, stops⟩
      · rw [walkBtree_of_call here] at halts ⊢
        rw [walkBtree_of_call here]
        exact bind_congr_of_halts halts behind
      · rw [walkBtree_of_opens opens] at halts ⊢
        rw [walkBtree_of_opens opens, induction (Halts.of_bind halts) more less]
        exact bind_congr_of_halts halts behind
      · rw [stops, stops]

/-- A walk that returns has read the node to its end. -/
theorem readThrough_of_walkBtree
    (opening : ∀ vcn, Halts (openRecord vcn)) {turns : Nat} :
    ∀ {place : Place} {s result : σ},
      walkBtree openRecord func turns place.1 place.2 s = .ok result →
        ReadThrough openRecord place := by
  induction turns with
  | zero => exact fun ended => by cases ended
  | succ turns induction =>
      intro place s result ended
      rcases @walkBtree_cases σ openRecord func opening place with
        ⟨call, here⟩ | ⟨below, opens⟩ | ⟨stop, -, stops⟩
      · rw [walkBtree_of_call here] at ended
        obtain ⟨s, -, ended⟩ := bind_eq_ok_iff.mp ended
        rcases @walkOn_cases σ openRecord func place with last | ⟨next, passes⟩ | ⟨stop, -, stops⟩
        · exact ReadThrough.lastLeaf here last
        · rw [walkOn_of_passes passes] at ended
          exact ReadThrough.leaf here passes (induction ended)
        · rw [stops] at ended
          cases ended
      · rw [walkBtree_of_opens opens] at ended
        obtain ⟨s, whole, ended⟩ := bind_eq_ok_iff.mp ended
        rcases @walkOn_cases σ openRecord func place with last | ⟨next, passes⟩ | ⟨stop, -, stops⟩
        · exact ReadThrough.lastNode opens (induction whole) last
        · rw [walkOn_of_passes passes] at ended
          exact ReadThrough.node opens (induction whole) passes (induction ended)
        · rw [stops] at ended
          cases ended
      · rw [stops] at ended
        cases ended

/-- A walk that has read the node to its end returns, if it ends and the function returns. -/
theorem exists_walkBtree_of_readThrough
    (returns : ∀ s call, ∃ next, func s call = .ok next) {place : Place}
    (whole : ReadThrough openRecord place) :
    ∀ {turns : Nat} {s : σ}, Halts (walkBtree openRecord func turns place.1 place.2 s) →
      ∃ result, walkBtree openRecord func turns place.1 place.2 s = .ok result := by
  have first {turns : Nat} {place : Place} {s : σ}
      (halts : Halts (walkBtree openRecord func turns place.1 place.2 s)) :
      ∃ less, turns = less + 1 := by
    cases turns with
    | zero => exact absurd rfl halts
    | succ less => exact ⟨less, rfl⟩
  induction whole with
  | lastLeaf here last =>
    intro turns s halts
    obtain ⟨turns, rfl⟩ := first halts
    obtain ⟨next, called⟩ := returns s _
    refine ⟨next, ?_⟩
    rw [walkBtree_of_call here, called]
    exact walkOn_of_last last turns next
  | lastNode opens _ last induction =>
    intro turns s halts
    obtain ⟨turns, rfl⟩ := first halts
    rw [walkBtree_of_opens opens] at halts ⊢
    obtain ⟨result, walked⟩ := induction (Halts.of_bind halts)
    refine ⟨result, ?_⟩
    rw [walked]
    exact walkOn_of_last last turns result
  | leaf here passes _ induction =>
    intro turns s halts
    obtain ⟨turns, rfl⟩ := first halts
    obtain ⟨next, called⟩ := returns s _
    rw [walkBtree_of_call here, called] at halts ⊢
    change Halts (walkOn openRecord func turns _ next) at halts
    change ∃ result, walkOn openRecord func turns _ next = _
    rw [walkOn_of_passes passes] at halts ⊢
    exact induction halts
  | node opens _ passes _ childInduction restInduction =>
    intro turns s halts
    obtain ⟨turns, rfl⟩ := first halts
    rw [walkBtree_of_opens opens] at halts ⊢
    obtain ⟨middle, walked⟩ := childInduction (Halts.of_bind halts)
    rw [walked] at halts ⊢
    change Halts (walkOn openRecord func turns _ middle) at halts
    change ∃ result, walkOn openRecord func turns _ middle = _
    rw [walkOn_of_passes passes] at halts ⊢
    exact restInduction halts

/-- A turn ends if the walk from the next entry on does. -/
theorem exists_halts_walkOn
    (opening : ∀ vcn, Halts (openRecord vcn)) {place : Place} {s : σ}
    (later : ∀ next, PassesOn place next →
      ∃ turns, Halts (walkBtree openRecord func turns next.1 next.2 s)) :
    ∃ turns, ∀ more, turns ≤ more → Halts (walkOn openRecord func more place s) := by
  rcases @walkOn_cases σ openRecord func place with
    last | ⟨next, passes⟩ | ⟨stop, stopped, stops⟩
  · refine ⟨0, fun more _ => ?_⟩
    rw [walkOn_of_last last]
    exact halts_ok s
  · obtain ⟨turns, halts⟩ := later next passes
    refine ⟨turns, fun more longer => ?_⟩
    rw [walkOn_of_passes passes, walkBtree_mono opening halts more longer]
    exact halts
  · refine ⟨0, fun more _ => ?_⟩
    rw [stops]
    exact fun running => stopped (Except.error.inj running)

theorem exists_halts_of_neverBack
    (opening : ∀ vcn, Halts (openRecord vcn)) (calling : ∀ s call, Halts (func s call))
    {start : Place} (leaves : NeverBack (WalkPasses openRecord) (OpensRecord openRecord) start) :
    ∀ s, ∃ turns, Halts (walkBtree openRecord func turns start.1 start.2 s) := by
  have acyclic := (acyclic_iff_neverBack (fun place next passes => passes.1) start).mpr leaves
  have accessible := acc_of_acyclic (finite_reachable (fun place next call =>
    call.imp (fun passes => passes.1) id) start) acyclic
  clear acyclic leaves
  induction accessible with
  | intro place _ induction =>
    intro s
    rcases @walkBtree_cases σ openRecord func opening place with
      ⟨call, here⟩ | ⟨below, opens⟩ | ⟨stop, stopped, stops⟩
    · cases called : func s call with
      | error stop =>
        refine ⟨1, ?_⟩
        rw [walkBtree_of_call here]
        refine (calling s call).bind fun middle returned => ?_
        rw [called] at returned
        cases returned
      | ok middle =>
        obtain ⟨turns, halts⟩ := exists_halts_walkOn opening fun next passes =>
          induction next (Or.inl ⟨passes, Or.inl ⟨call, here⟩⟩) middle
        refine ⟨turns + 1, ?_⟩
        rw [walkBtree_of_call here, called]
        exact halts turns le_rfl
    · obtain ⟨turns, childHalts⟩ := induction below (Or.inr opens) s
      cases walked : walkBtree openRecord func turns below.1 below.2 s with
      | error stop =>
        refine ⟨turns + 1, ?_⟩
        rw [walkBtree_of_opens opens]
        refine childHalts.bind fun middle returned => ?_
        rw [walked] at returned
        cases returned
      | ok middle =>
        -- The subtree has been read, so the walk comes to the next entry.
        have whole := readThrough_of_walkBtree opening walked
        obtain ⟨later, halts⟩ := exists_halts_walkOn opening fun next passes =>
          induction next (Or.inl ⟨passes, Or.inr ⟨below, opens, whole⟩⟩) middle
        refine ⟨max turns later + 1, ?_⟩
        rw [walkBtree_of_opens opens,
          walkBtree_mono opening childHalts _ (Nat.le_max_left _ _), walked]
        exact halts _ (Nat.le_max_right _ _)
    · refine ⟨1, ?_⟩
      rw [stops]
      exact fun running => stopped (Except.error.inj running)

theorem neverBack_of_halts
    (returns : ∀ s call, ∃ next, func s call = .ok next) {start : Place} {turns : Nat} {s : σ}
    (halts : Halts (walkBtree openRecord func turns start.1 start.2 s)) :
    NeverBack (WalkPasses openRecord) (OpensRecord openRecord) start := by
  refine (acyclic_iff_neverBack (fun place next passes => passes.1) start).mp ?_
  refine @acyclic_of_endsWithin Place _
    (fun turns place => ∃ s, Halts (walkBtree openRecord func turns place.1 place.2 s))
    (fun place ends => ends.elim fun s halts => halts rfl) ?_ turns start ⟨s, halts⟩
  rintro turns place next (⟨passes, before⟩ | opens) ⟨s, halts⟩
  · have behind {middle : σ} (halts : Halts (walkOn openRecord func turns place middle)) :
        ∃ s, Halts (walkBtree openRecord func turns next.1 next.2 s) := by
      rw [walkOn_of_passes passes] at halts
      exact ⟨middle, halts⟩
    rcases before with ⟨call, here⟩ | ⟨below, opens, whole⟩
    · obtain ⟨middle, called⟩ := returns s call
      rw [walkBtree_of_call here, called] at halts
      exact behind halts
    · rw [walkBtree_of_opens opens] at halts
      obtain ⟨middle, walked⟩ :=
        exists_walkBtree_of_readThrough returns whole (Halts.of_bind halts)
      rw [walked] at halts
      exact behind halts
  · rw [walkBtree_of_opens opens] at halts
    exact ⟨s, Halts.of_bind halts⟩

end Walk

/-! ## Whole indexes -/

section Whole

variable {openRecord : Nat → Walk Bytes}

/-- Whether a computation ends does not depend on how its start is written. -/
theorem exists_halts_from_first
    {α : Type} (ir : Bytes) {run : Nat → Nat → Walk α} {leaves : Nat → Prop}
    (ends : ∀ first, firstEntry ir rootNodeHeader = .ok first →
      ((∃ turns, Halts (run turns first)) ↔ leaves first)) :
    (∃ turns, Halts (firstEntry ir rootNodeHeader >>= run turns)) ↔
      ∀ first, firstEntry ir rootNodeHeader = .ok first → leaves first := by
  have reading : Halts (firstEntry ir rootNodeHeader) := (halts_field _ _ _).map
  cases firstRead : firstEntry ir rootNodeHeader with
  | error stop =>
    refine iff_of_true ⟨0, ?_⟩ fun first same => by cases same
    rw [firstRead] at reading
    exact reading.bind fun first same => by cases same
  | ok first =>
    have endsHere := ends first firstRead
    constructor
    · intro halts other same
      obtain rfl := Except.ok.inj same
      exact endsHere.mp halts
    · intro leaves
      exact endsHere.mpr (leaves first rfl)

theorem exists_halts_searchIndex_iff
    (opening : ∀ vcn, Halts (openRecord vcn)) (ir : Bytes) (key : Nat) :
    (∃ turns, Halts (searchIndex openRecord key turns ir)) ↔
      ∀ first, firstEntry ir rootNodeHeader = .ok first →
        NeverBack (SearchPasses key) (SearchOpens openRecord key) (ir, first) :=
  exists_halts_from_first ir fun first _ => exists_halts_btreeSearch_iff opening (ir, first)

theorem exists_halts_walkIndex_iff
    (opening : ∀ vcn, Halts (openRecord vcn)) (ir : Bytes) {σ : Type}
    {func : σ → IndexCall → Walk σ} (returns : ∀ s call, ∃ next, func s call = .ok next)
    (s : σ) :
    (∃ turns, Halts (walkIndex openRecord func turns ir s)) ↔
      ∀ first, firstEntry ir rootNodeHeader = .ok first →
        NeverBack (WalkPasses openRecord) (OpensRecord openRecord) (ir, first) := by
  refine exists_halts_from_first ir fun first _ => ⟨?_, fun leaves => ?_⟩
  · rintro ⟨turns, halts⟩
    exact @neverBack_of_halts σ _ func returns (ir, first) turns s halts
  · have calling (s : σ) (call : IndexCall) : Halts (func s call) := by
      obtain ⟨next, called⟩ := returns s call
      rw [called]
      exact halts_ok next
    exact exists_halts_of_neverBack opening calling leaves s

end Whole

/-- A volume whose clusters are one sector of 128 bytes. -/
def smallGeometry : Geometry :=
  ⟨128, 1, 7, by decide, rfl⟩

/-- An index root whose first entry has the length zero; its key is 1. -/
def zeroLengthRoot : Bytes :=
  List.replicate 8 0 ++ [128, 0, 0, 0] ++ List.replicate 4 0 ++ [16, 0, 0, 0] ++
    List.replicate 12 0 ++ (List.replicate 8 0 ++ [0, 0, 4, 0, 0, 0, 0, 0, 1, 0, 0, 0])

/-- An index root whose only entry has the subnode 0. -/
def nestedRoot : Bytes :=
  List.replicate 8 0 ++ [128, 0, 0, 0] ++ List.replicate 4 0 ++ [16, 0, 0, 0] ++
    List.replicate 12 0 ++ (List.replicate 8 0 ++ [24, 0, 0, 0, 3, 0, 0, 0] ++
      List.replicate 8 0)

/-- The index record 0, whose only entry has the subnode 0 too. -/
def nestedRecord : Bytes :=
  [0x49, 0x4e, 0x44, 0x58, 64, 0, 2, 0] ++ List.replicate 16 0 ++ [16, 0, 0, 0] ++
    List.replicate 12 0 ++ (List.replicate 8 0 ++ [24, 0, 0, 0, 3, 0, 0, 0] ++
      List.replicate 8 0) ++ List.replicate 64 0

end Index

end Ntfs2Btrfs
