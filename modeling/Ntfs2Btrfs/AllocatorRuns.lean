import Ntfs2Btrfs.Allocator

/-!
# Arbitrary sequences of allocations

A run interleaves `allocate_data` and `allocate_metadata` calls in any order
and goes on after a call that throws, with the state that the call left.  The
invariant survives every run, no byte is handed out twice, and every range
handed out was free at the start of the run.
-/

namespace Ntfs2Btrfs

open Extents

/-! ## Runs -/

/-- One call of an allocator. -/
inductive AllocateCall where
  | data (length : Nat) (changeUsed : Bool)
  | metadata (root level : Nat)
deriving DecidableEq, Repr

namespace AllocateCall

/-- The number of bytes that a call asks for. -/
def length : AllocateCall → Nat
  | .data length _ => length
  | .metadata _ _ => treeSize

/-- The block group type that serves a call. -/
def type : AllocateCall → Nat
  | .data _ _ => blockGroupData
  | .metadata root _ => metadataType root

/-- Perform a call. -/
def perform : AllocateCall → Allocator → Except ConvertError Nat × Allocator
  | .data length changeUsed => allocateData length changeUsed
  | .metadata root level => allocateMetadata root level

/-- The call asks for whole sectors, and for at least one. -/
def Sized : AllocateCall → Prop
  | .data length _ => 0 < length ∧ sectorSize ∣ length
  | .metadata _ _ => True

end AllocateCall

/-- A range that a call returned. -/
structure Grant where
  call : AllocateCall
  address : Nat
deriving DecidableEq, Repr

/-- The virtual range of a grant. -/
def Grant.range (grant : Grant) : Extent :=
  ⟨grant.address, grant.call.length⟩

/-- The grant of a call that did not throw. -/
def grantOf (call : AllocateCall) : Except ConvertError Nat → List Grant
  | .ok address => [⟨call, address⟩]
  | .error _ => []

/-- Perform calls one after the other and collect what they return. -/
def runCalls : List AllocateCall → Allocator → List Grant × Allocator
  | [], state => ([], state)
  | call :: rest, state =>
      let outcome := call.perform state
      let later := runCalls rest outcome.2
      (grantOf call outcome.1 ++ later.1, later.2)

/-! ## One call -/

theorem AllocateCall.perform_spec
    (call : AllocateCall)
    {state : Allocator} (wellFormed : state.WellFormed) :
    Advances state (call.perform state).2 call.type ∧
      ∀ address, (call.perform state).1 = .ok address →
        Served state (call.perform state).2 call.type call.length address := by
  cases call with
  | data length changeUsed =>
      exact allocateData_spec wellFormed length changeUsed
  | metadata root level =>
      exact allocateMetadata_spec wellFormed root level

/-- One of the three block group types. -/
def IsBlockGroupType (type : Nat) : Prop :=
  type = blockGroupData ∨ type = blockGroupSystem ∨ type = blockGroupMetadata

/-- Every chunk has one of the three block group types. -/
def Allocator.Typed (state : Allocator) : Prop :=
  ∀ chunk ∈ state.chunks, IsBlockGroupType chunk.type

/-- Free ranges of chunks for trees start at tree block boundaries. -/
def Allocator.TreeAligned (state : Allocator) : Prop :=
  ∀ chunk ∈ state.chunks, chunk.type ≠ blockGroupData →
    ∀ space ∈ chunk.spaceList, treeSize ∣ space.offset

theorem AllocateCall.type_known (call : AllocateCall) :
    IsBlockGroupType call.type := by
  cases call with
  | data length changeUsed => exact Or.inl rfl
  | metadata root level => exact Or.inr (metadataType_cases root)

theorem Advances.typed
    {state next : Allocator} (typed : state.Typed)
    {call : AllocateCall}
    (advances : Advances state next call.type) :
    next.Typed := by
  intro chunk member
  rcases advances.origin chunk member with ⟨old, oldMember, same⟩ | new
  · rw [same.2.2.2]
    exact typed old oldMember
  · rw [new]
    exact call.type_known

/-- In a typed state a chunk that is searched has exactly the type asked for. -/
theorem Allocator.Typed.type_eq
    {state : Allocator} (typed : state.Typed)
    {chunk : Chunk} (member : chunk ∈ state.chunks)
    {type : Nat} (known : IsBlockGroupType type)
    (eligible : chunk.type &&& type ≠ 0) :
    chunk.type = type := by
  rcases typed chunk member with chunkType | chunkType | chunkType <;>
    rcases known with callType | callType | callType <;>
    rw [chunkType, callType] at eligible ⊢ <;>
    exact absurd rfl eligible

/-- A search for tree blocks returns, and leaves, tree block boundaries. -/
theorem allocateFrom_treeAligned
    {type chunkSize length : Nat}
    (known : IsBlockGroupType type)
    (sizeAligned : stripeLength ∣ chunkSize)
    (lengthAligned : type ≠ blockGroupData → length = treeSize)
    {state : Allocator}
    (wellFormed : state.WellFormed)
    (typed : state.Typed)
    (aligned : state.TreeAligned)
    (usedOld : Chunk → Nat) (usedNew : Nat) (noAddress : ConvertError) :
    let outcome :=
      allocateFrom type chunkSize length usedOld usedNew noAddress state
    outcome.2.TreeAligned ∧
      ∀ address, outcome.1 = .ok address →
        type ≠ blockGroupData → treeSize ∣ address := by
  intro outcome
  -- what taking from one aligned list returns and leaves
  have takeAligned :
      ∀ {spaces left : List Space} {address : Nat},
        type ≠ blockGroupData →
        (∀ space ∈ spaces, treeSize ∣ space.offset) →
        takeSpace length spaces = some (address, left) →
        treeSize ∣ address ∧ ∀ space ∈ left, treeSize ∣ space.offset := by
    intro spaces left address notData spacesAligned taken
    obtain ⟨⟨source, sourceMember, rfl, -⟩, origins⟩ := takeSpace_spec taken
    refine ⟨spacesAligned source sourceMember, ?_⟩
    intro space member
    obtain ⟨old, oldMember, -, start⟩ := origins space member
    have oldAligned := spacesAligned old oldMember
    rcases start with equal | ⟨equal, -⟩ <;> rw [equal]
    · exact oldAligned
    · rw [lengthAligned notData]
      exact oldAligned.add (dvd_refl treeSize)
  have freshAligned :
      ∀ space ∈ state.spaceList,
        ∀ free ∈ (freshChunk space.offset chunkSize type).spaceList,
          treeSize ∣ free.offset := by
    intro space member free freeMember
    have stripes := freshChunk_aligned
      (wellFormed.spaceAligned space member) sizeAligned free freeMember
    exact dvd_trans (by decide) stripes.1
  rcases allocateFrom_cases type chunkSize length usedOld usedNew
      noAddress state with
    ⟨before, chunk, after, spaces, address, shape, eligible, taken, equal⟩ |
      equal | ⟨space, member, fits, failed | served⟩
  · rw [show outcome = _ from equal]
    have chunkMember : chunk ∈ state.chunks := by simp [shape]
    have typeEqual := typed.type_eq chunkMember known eligible
    constructor
    · intro other otherMember notData free freeMember
      rcases List.mem_append.mp otherMember with inBefore | rest
      · exact aligned other (by simp [shape, inBefore]) notData free freeMember
      · rcases List.mem_cons.mp rest with rfl | inAfter
        · have notData' : type ≠ blockGroupData := typeEqual ▸ notData
          exact
            (takeAligned notData' (aligned chunk chunkMember notData)
              taken).2 free freeMember
        · exact
            aligned other (by simp [shape, inAfter]) notData free freeMember
    · rintro _ ⟨⟩ notData
      exact
        (takeAligned notData
          (aligned chunk chunkMember (typeEqual ▸ notData)) taken).1
  · rw [show outcome = _ from equal]
    exact ⟨aligned, fun _ absurd_ => nomatch absurd_⟩
  · rw [show outcome = _ from failed]
    refine ⟨?_, fun _ absurd_ => nomatch absurd_⟩
    intro other otherMember notData free freeMember
    rcases List.mem_append.mp otherMember with old | new
    · exact aligned other old notData free freeMember
    · rw [List.mem_singleton.mp new] at freeMember
      exact freshAligned space member free freeMember
  · obtain ⟨spaces, address, taken, equal⟩ := served
    rw [show outcome = _ from equal]
    constructor
    · intro other otherMember notData free freeMember
      rcases List.mem_append.mp otherMember with old | new
      · exact aligned other old notData free freeMember
      · rw [List.mem_singleton.mp new] at freeMember notData
        exact
          (takeAligned notData (freshAligned space member) taken).2
            free freeMember
    · rintro _ ⟨⟩ notData
      exact (takeAligned notData (freshAligned space member) taken).1

theorem AllocateCall.perform_treeAligned
    (call : AllocateCall)
    {state : Allocator}
    (wellFormed : state.WellFormed)
    (typed : state.Typed)
    (aligned : state.TreeAligned) :
    (call.perform state).2.TreeAligned ∧
      ∀ address, (call.perform state).1 = .ok address →
        call.type ≠ blockGroupData → treeSize ∣ address := by
  cases call with
  | data length changeUsed =>
      have known : IsBlockGroupType blockGroupData := Or.inl rfl
      have sizeAligned : stripeLength ∣ dataChunkSize := by decide
      have lengthAligned :
          blockGroupData ≠ blockGroupData → length = treeSize :=
        fun notData => absurd rfl notData
      simp only [AllocateCall.perform, AllocateCall.type, allocateData]
      exact allocateFrom_treeAligned known sizeAligned lengthAligned
        wellFormed typed aligned _ _ _
  | metadata root level =>
      have searched :=
        allocateFrom_treeAligned (Or.inr (metadataType_cases root))
          (stripeLength_dvd_metadataChunkSize root) (fun _ => rfl) wellFormed
          typed aligned (fun chunk => (chunk.used + treeSize) % wordModulus)
          treeSize .noMetadataAddress
      simp only [AllocateCall.perform, AllocateCall.type, allocateMetadata]
      cases search : allocateFrom (metadataType root) (metadataChunkSize root)
          treeSize (fun chunk => (chunk.used + treeSize) % wordModulus)
          treeSize .noMetadataAddress state with
      | mk result next =>
          rw [search] at searched
          obtain ⟨nextAligned, addressAligned⟩ := searched
          cases result with
          | error error => exact ⟨nextAligned, (fun _ absurd_ => by cases absurd_)⟩
          | ok address =>
              cases inserted : addItem next.extentItems address
                  BtrfsKeyType.metadataItem level (metadataItem root) with
              | error error =>
                  simp only [inserted]
                  exact ⟨nextAligned, (fun _ absurd_ => by cases absurd_)⟩
              | ok items =>
                  simp only [inserted]
                  exact ⟨nextAligned, addressAligned⟩

/-! ## Whole runs -/

/-- A run is a sequence of steps of the allocators. -/
theorem runCalls_advances
    {state : Allocator} (wellFormed : state.WellFormed)
    (calls : List AllocateCall) :
    (runCalls calls state).2.WellFormed ∧
      (∀ point, (runCalls calls state).2.Free point → state.Free point) ∧
      ∀ chunk ∈ state.chunks,
        ∃ same ∈ (runCalls calls state).2.chunks, same.SamePlace chunk := by
  induction calls generalizing state with
  | nil =>
      exact ⟨wellFormed, fun _ free => free,
        fun chunk member => ⟨chunk, member, Chunk.SamePlace.refl chunk⟩⟩
  | cons call rest induction =>
      obtain ⟨advances, -⟩ := call.perform_spec wellFormed
      obtain ⟨finalWellFormed, free, kept⟩ := induction advances.wellFormed
      refine
        ⟨finalWellFormed, fun point last => advances.free point (free point last),
          ?_⟩
      intro chunk member
      obtain ⟨middle, middleMember, same⟩ := advances.kept chunk member
      obtain ⟨last, lastMember, same'⟩ := kept middle middleMember
      exact ⟨last, lastMember, same'.trans same⟩

/-- What a run promises about each range it returned. -/
structure Grant.Sound (grant : Grant) (start final : Allocator) : Prop where
  inChunk : ∃ chunk ∈ final.chunks, chunk.type = grant.call.type ∧
    chunk.offset ≤ grant.address ∧
    grant.range.stop ≤ chunk.offset + chunk.length
  wasFree : ∀ point, InRange grant.address grant.call.length point →
    start.Free point
  offStripes : ∀ point, InRange grant.address grant.call.length point →
    ¬ InSuperblockStripe point
  treeAligned : grant.call.type ≠ blockGroupData → treeSize ∣ grant.address

/-- A range returned by the first call of a run stays sound to its end. -/
theorem AllocateCall.grant_sound
    (call : AllocateCall)
    {state : Allocator}
    (wellFormed : state.WellFormed)
    (typed : state.Typed)
    (aligned : state.TreeAligned)
    {address : Nat}
    (returned : (call.perform state).1 = .ok address)
    (rest : List AllocateCall) :
    Grant.Sound ⟨call, address⟩ state
      (runCalls rest (call.perform state).2).2 := by
  obtain ⟨advances, served⟩ := call.perform_spec wellFormed
  have range := served address returned
  obtain ⟨-, -, kept⟩ := runCalls_advances advances.wellFormed rest
  refine
    { inChunk := ?_
      wasFree := range.wasFree
      offStripes := range.offStripes
      treeAligned :=
        (call.perform_treeAligned wellFormed typed aligned).2 address returned }
  obtain ⟨chunk, member, eligible, lower, upper⟩ := range.inChunk
  have typeEqual := (advances.typed typed).type_eq member call.type_known eligible
  obtain ⟨last, lastMember, same⟩ := kept chunk member
  refine ⟨last, lastMember, same.2.2.2.trans typeEqual, ?_, ?_⟩
  · rw [same.1]
    exact lower
  · rw [same.1, same.2.1]
    exact upper

theorem runCalls_grants
    {state : Allocator}
    (wellFormed : state.WellFormed)
    (typed : state.Typed)
    (aligned : state.TreeAligned)
    (calls : List AllocateCall) :
    ∀ grant ∈ (runCalls calls state).1,
      grant.Sound state (runCalls calls state).2 ∧ grant.call ∈ calls := by
  induction calls generalizing state with
  | nil => simp [runCalls]
  | cons call rest induction =>
      intro grant member
      obtain ⟨advances, -⟩ := call.perform_spec wellFormed
      rcases List.mem_append.mp member with first | later
      · cases returned : (call.perform state).1 with
        | error error => simp [returned, grantOf] at first
        | ok address =>
            simp only [returned, grantOf, List.mem_singleton] at first
            subst first
            exact
              ⟨call.grant_sound wellFormed typed aligned returned rest,
                List.mem_cons_self⟩
      · obtain ⟨sound, asked⟩ :=
          induction advances.wellFormed (advances.typed typed)
            (call.perform_treeAligned wellFormed typed aligned).1 grant later
        exact
          ⟨⟨sound.inChunk,
            fun point inRange => advances.free point (sound.wasFree point inRange),
            sound.offStripes, sound.treeAligned⟩,
            List.mem_cons_of_mem _ asked⟩

/-- No byte is handed out twice. -/
theorem runCalls_grants_apart
    {state : Allocator}
    (wellFormed : state.WellFormed)
    (typed : state.Typed)
    (aligned : state.TreeAligned)
    (calls : List AllocateCall) :
    (runCalls calls state).1.Pairwise fun left right =>
      ∀ point, InRange left.address left.call.length point →
        ¬ InRange right.address right.call.length point := by
  induction calls generalizing state with
  | nil => exact List.Pairwise.nil
  | cons call rest induction =>
      obtain ⟨advances, served⟩ := call.perform_spec wellFormed
      have nextAligned :=
        (call.perform_treeAligned wellFormed typed aligned).1
      have later :=
        induction advances.wellFormed (advances.typed typed) nextAligned
      refine List.pairwise_append.mpr ⟨?_, later, ?_⟩
      · cases (call.perform state).1 with
        | error error => exact List.Pairwise.nil
        | ok address => exact List.pairwise_singleton _ _
      · intro left leftMember right rightMember point inLeft inRight
        cases returned : (call.perform state).1 with
        | error error => simp [returned, grantOf] at leftMember
        | ok address =>
            simp only [returned, grantOf, List.mem_singleton] at leftMember
            subst leftMember
            have sound :=
              (runCalls_grants advances.wellFormed (advances.typed typed)
                nextAligned rest right rightMember).1
            exact
              (served address returned).taken point inLeft
                (sound.wasFree point inRight)

/--
Every sequence of allocations from a well-formed state with data chunks only
keeps the invariant.  The ranges returned are pairwise disjoint; each was free
at the start, lies in one chunk of its type and off the superblock stripes;
and every tree block starts at a multiple of its size.
-/
theorem runCalls_safe
    {start : Allocator}
    (wellFormed : start.WellFormed)
    (allData : ∀ chunk ∈ start.chunks, chunk.type = blockGroupData)
    (calls : List AllocateCall)
    (sized : ∀ call ∈ calls, call.Sized) :
    (runCalls calls start).2.WellFormed ∧
      ((runCalls calls start).1.Pairwise fun left right =>
        left.range.Disjoint right.range) ∧
      ∀ grant ∈ (runCalls calls start).1,
        grant.Sound start (runCalls calls start).2 := by
  have typed : start.Typed := fun chunk member =>
    Or.inl (allData chunk member)
  have aligned : start.TreeAligned := fun chunk member notData =>
    absurd (allData chunk member) notData
  have grants := runCalls_grants wellFormed typed aligned calls
  have finalWellFormed := (runCalls_advances wellFormed calls).1
  refine ⟨finalWellFormed, ?_, fun grant member => (grants grant member).1⟩
  refine (runCalls_grants_apart wellFormed typed aligned calls).imp_of_mem ?_
  intro left right leftMember rightMember apart
  have positive :
      ∀ grant ∈ (runCalls calls start).1, 0 < grant.range.length := by
    intro grant member
    have grantSized := sized grant.call (grants grant member).2
    obtain ⟨call, address⟩ := grant
    cases call with
    | data length changeUsed => exact grantSized.1
    | metadata root level => exact Nat.two_pow_pos 14
  apply Extent.disjoint_of_not_contains
    (positive left leftMember) (positive right rightMember)
  intro virtual inLeft inRight
  obtain ⟨chunk, member, -, lower, -⟩ := (grants left leftMember).1.inChunk
  have placed := (finalWellFormed.chunks chunk member).placed
  simp only [Grant.range, Extent.contains_mk] at inLeft inRight
  have translate : virtual - chunkVirtOffset + chunkVirtOffset = virtual :=
    Nat.sub_add_cancel (by omega)
  apply apart (virtual - chunkVirtOffset) <;>
    simp only [InRange, translate] <;> assumption

/-- One data chunk and room for two more. -/
theorem runCalls_safe_one_chunk :
    (let start : Allocator :=
      { chunks := [freshChunk 0x100000 0x100000 blockGroupData]
        spaceList := [⟨0x8000000, 0x10000000⟩] }
    let calls : List AllocateCall :=
      [.data 0x1000 true, .metadata 3 0, .data 0x200000 false,
        .metadata 1 0]
    (runCalls calls start).2.WellFormed ∧
      ((runCalls calls start).1.Pairwise fun left right =>
        left.range.Disjoint right.range) ∧
      ∀ grant ∈ (runCalls calls start).1,
        grant.Sound start (runCalls calls start).2) := by
  apply runCalls_safe
  · refine
      { chunks := ?_
        apart := List.pairwise_singleton _ _
        spaceTidy := tidy_singleton (by decide)
        spaceAligned := by decide
        spaceApart := ?_ }
    · intro chunk member
      rw [List.mem_singleton.mp member]
      exact freshChunk_wellFormed (by decide) (by decide) (by decide)
    · intro space spaceMember chunk chunkMember
      rw [List.mem_singleton.mp spaceMember, List.mem_singleton.mp chunkMember]
      exact Or.inr (by decide)
  · intro chunk member
    rw [List.mem_singleton.mp member]
    rfl
  · intro call member
    simp only [List.mem_cons, List.not_mem_nil, or_false] at member
    rcases member with rfl | rfl | rfl | rfl
    · exact ⟨by decide, by decide⟩
    · trivial
    · exact ⟨by decide, by decide⟩
    · trivial

end Ntfs2Btrfs
