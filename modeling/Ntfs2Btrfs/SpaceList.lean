import Ntfs2Btrfs.Basic

/-!
# Cutting ranges out of free lists

`space_list_remove` walks a sorted list of free spaces and deletes, trims or
splits the members that overlap the removed range.  On tidy lists it removes
exactly the addresses of the range.  `remove_superblocks` applies it to every
superblock stripe that meets a chunk; its bounds are computed in wrapping
64-bit arithmetic.
-/

namespace Ntfs2Btrfs

open Extents

/-! ## `space_list_remove` -/

/-- Delete the range `[offset, offset + length)` from a list of free spaces. -/
def spaceListRemove : List Space → Nat → Nat → List Space
  | [], _, _ => []
  | space :: rest, offset, length =>
      if space.offset > offset + length then
        space :: rest
      else if space.offset ≥ offset ∧
          space.offset + space.length ≤ offset + length then
        -- remove entry entirely
        spaceListRemove rest offset length
      else if offset + length > space.offset ∧
          offset + length < space.offset + space.length then
        if offset > space.offset then
          -- cut out hole
          ⟨space.offset, offset - space.offset⟩ ::
            ⟨offset + length,
              space.offset + space.length - offset - length⟩ :: rest
        else
          -- remove start of entry
          ⟨offset + length,
            space.length - (offset + length - space.offset)⟩ ::
            spaceListRemove rest offset length
      else if offset > space.offset ∧
          offset < space.offset + space.length then
        -- remove end of entry
        ⟨space.offset, offset - space.offset⟩ ::
          spaceListRemove rest offset length
      else
        space :: spaceListRemove rest offset length

/--
Every remaining space is a part of an old one.  Its ends are ends of the old
space or of the removed range.
-/
theorem origin_of_mem_spaceListRemove
    {spaces : List Space} {offset length : Nat} {space : Space}
    (member : space ∈ spaceListRemove spaces offset length) :
    ∃ old ∈ spaces,
      old.offset ≤ space.offset ∧ space.stop ≤ old.stop ∧
        (space.offset = old.offset ∨ space.offset = offset + length) ∧
        (space.stop = old.stop ∨ space.stop = offset) := by
  induction spaces with
  | nil => simp [spaceListRemove] at member
  | cons head rest induction =>
      have fromTail :
          space ∈ spaceListRemove rest offset length →
            ∃ old ∈ head :: rest,
              old.offset ≤ space.offset ∧ space.stop ≤ old.stop ∧
                (space.offset = old.offset ∨
                  space.offset = offset + length) ∧
                (space.stop = old.stop ∨ space.stop = offset) := by
        intro tailMember
        obtain ⟨old, oldMember, facts⟩ := induction tailMember
        exact ⟨old, List.mem_cons_of_mem _ oldMember, facts⟩
      have unchanged :
          space ∈ head :: rest →
            ∃ old ∈ head :: rest,
              old.offset ≤ space.offset ∧ space.stop ≤ old.stop ∧
                (space.offset = old.offset ∨
                  space.offset = offset + length) ∧
                (space.stop = old.stop ∨ space.stop = offset) :=
        fun old => ⟨space, old, le_rfl, le_rfl, Or.inl rfl, Or.inl rfl⟩
      rw [spaceListRemove] at member
      split_ifs at member with after inside overlapsStop startsBefore
          overlapsStart
      · exact unchanged member
      · exact fromTail member
      · rcases List.mem_cons.mp member with rfl | later
        · refine ⟨head, List.mem_cons_self, ?_⟩
          simp only [Extent.stop, true_or, true_and]
          omega
        · rcases List.mem_cons.mp later with rfl | tailMember
          · refine ⟨head, List.mem_cons_self, ?_⟩
            simp only [Extent.stop, or_true, true_and]
            omega
          · exact unchanged (List.mem_cons_of_mem _ tailMember)
      · rcases List.mem_cons.mp member with rfl | tailMember
        · refine ⟨head, List.mem_cons_self, ?_⟩
          simp only [Extent.stop, or_true, true_and]
          omega
        · exact fromTail tailMember
      · rcases List.mem_cons.mp member with rfl | tailMember
        · refine ⟨head, List.mem_cons_self, ?_⟩
          simp only [Extent.stop, true_or, true_and]
          omega
        · exact fromTail tailMember
      · rcases List.mem_cons.mp member with rfl | tailMember
        · exact unchanged List.mem_cons_self
        · exact fromTail tailMember

/-- Removing a range keeps a free list tidy. -/
theorem tidy_spaceListRemove
    {spaces : List Space} (tidy : Tidy spaces) (offset length : Nat) :
    Tidy (spaceListRemove spaces offset length) := by
  induction spaces with
  | nil => exact tidy_nil
  | cons head rest induction =>
      obtain ⟨positive, first, restTidy⟩ := (tidy_cons_iff head rest).mp tidy
      have laterOld :
          ∀ space ∈ spaceListRemove rest offset length,
            head.stop ≤ space.offset := by
        intro space member
        obtain ⟨old, oldMember, lower, -⟩ :=
          origin_of_mem_spaceListRemove member
        exact (first old oldMember).trans lower
      rw [spaceListRemove]
      split_ifs with after inside overlapsStop startsBefore overlapsStart
      · exact tidy
      · exact induction restTidy
      · simp only [tidy_cons_iff, Extent.stop, List.mem_cons,
          forall_eq_or_imp]
        refine ⟨by omega, ⟨by omega, ?_⟩, by omega, ?_, restTidy⟩
        · intro space member
          have ordered := first space member
          simp only [Extent.stop] at ordered
          omega
        · intro space member
          have ordered := first space member
          simp only [Extent.stop] at ordered
          omega
      · refine (tidy_cons_iff _ _).mpr ⟨?_, ?_, induction restTidy⟩
        · simp only
          omega
        · intro space member
          have ordered := laterOld space member
          simp only [Extent.stop] at ordered ⊢
          omega
      · refine (tidy_cons_iff _ _).mpr ⟨?_, ?_, induction restTidy⟩
        · simp only
          omega
        · intro space member
          have ordered := laterOld space member
          simp only [Extent.stop] at ordered ⊢
          omega
      · exact (tidy_cons_iff _ _).mpr
          ⟨positive, laterOld, induction restTidy⟩

/-- On a tidy list exactly the addresses of the range are removed. -/
theorem covers_spaceListRemove
    {spaces : List Space} (tidy : Tidy spaces)
    (offset length address : Nat) :
    Covers (spaceListRemove spaces offset length) address ↔
      Covers spaces address ∧
        ¬ (offset ≤ address ∧ address < offset + length) := by
  induction spaces with
  | nil => simp [spaceListRemove]
  | cons head rest induction =>
      have step := induction tidy.tail
      have beyond :
          Covers rest address → head.offset + head.length ≤ address :=
        tidy.stop_le_of_covers
      rw [spaceListRemove]
      split_ifs with after inside overlapsStop startsBefore overlapsStart
      · simp only [covers_cons, Extent.Contains, Extent.stop]
        constructor
        · intro covered
          refine ⟨covered, ?_⟩
          rcases covered with inHead | inRest
          · omega
          · have := beyond inRest
            omega
        · exact And.left
      · rw [step, covers_cons]
        simp only [Extent.Contains, Extent.stop]
        constructor
        · rintro ⟨covered, outside⟩
          exact ⟨Or.inr covered, outside⟩
        · rintro ⟨inHead | covered, outside⟩
          · omega
          · exact ⟨covered, outside⟩
      · simp only [covers_cons, Extent.Contains, Extent.stop]
        constructor
        · rintro (inFirst | inSecond | inRest)
          · exact ⟨Or.inl (by omega), by omega⟩
          · exact ⟨Or.inl (by omega), by omega⟩
          · have := beyond inRest
            exact ⟨Or.inr inRest, by omega⟩
        · rintro ⟨inHead | inRest, outside⟩
          · omega
          · exact Or.inr (Or.inr inRest)
      · simp only [covers_cons, step, Extent.Contains, Extent.stop]
        constructor
        · rintro (inHead | ⟨inRest, outside⟩)
          · exact ⟨Or.inl (by omega), by omega⟩
          · exact ⟨Or.inr inRest, outside⟩
        · rintro ⟨inHead | inRest, outside⟩
          · exact Or.inl (by omega)
          · exact Or.inr ⟨inRest, outside⟩
      · simp only [covers_cons, step, Extent.Contains, Extent.stop]
        constructor
        · rintro (inHead | ⟨inRest, outside⟩)
          · exact ⟨Or.inl (by omega), by omega⟩
          · exact ⟨Or.inr inRest, outside⟩
        · rintro ⟨inHead | inRest, outside⟩
          · exact Or.inl (by omega)
          · exact Or.inr ⟨inRest, outside⟩
      · simp only [covers_cons, step, Extent.Contains, Extent.stop]
        constructor
        · rintro (inHead | ⟨inRest, outside⟩)
          · exact ⟨Or.inl inHead, by omega⟩
          · exact ⟨Or.inr inRest, outside⟩
        · rintro ⟨inHead | inRest, outside⟩
          · exact Or.inl inHead
          · exact Or.inr ⟨inRest, outside⟩

/--
Cutting a range out of a tidy list leaves a tidy list of the other addresses, and
no new end lies beyond the old ones.
-/
theorem spaceListRemove_exact
    {spaces : List Space} (tidy : Tidy spaces) (offset length : Nat) :
    Tidy (spaceListRemove spaces offset length) ∧
      (∀ address,
        Covers (spaceListRemove spaces offset length) address ↔
          Covers spaces address ∧ ¬ Extent.Contains ⟨offset, length⟩ address) ∧
      ∀ limit, (∀ space ∈ spaces, space.stop < limit) →
        ∀ space ∈ spaceListRemove spaces offset length, space.stop < limit := by
  refine ⟨tidy_spaceListRemove tidy offset length,
    covers_spaceListRemove tidy offset length, fun limit below space member => ?_⟩
  obtain ⟨old, oldMember, -, stop, -⟩ := origin_of_mem_spaceListRemove member
  exact stop.trans_lt (below old oldMember)

/-- One range that trims a space, swallows the next one and trims a third. -/
theorem spaceListRemove_exact_three :
    Tidy [⟨0, 2⟩, ⟨12, 4⟩] ∧
      ∀ address, Covers [⟨0, 2⟩, ⟨12, 4⟩] address ↔
        Covers [⟨0, 4⟩, ⟨6, 2⟩, ⟨10, 6⟩] address ∧
          ¬ Extent.Contains ⟨2, 10⟩ address := by
  have tidy : Tidy [⟨0, 4⟩, ⟨6, 2⟩, ⟨10, 6⟩] := ⟨by decide, by decide⟩
  have cut : spaceListRemove [⟨0, 4⟩, ⟨6, 2⟩, ⟨10, 6⟩] 2 10 = [⟨0, 2⟩, ⟨12, 4⟩] := by
    decide
  obtain ⟨left, covered, -⟩ := spaceListRemove_exact tidy 2 10
  rw [cut] at left covered
  exact ⟨left, covered⟩

/-- The ends of the remaining spaces keep a common alignment. -/
theorem aligned_spaceListRemove
    {spaces : List Space} {unit offset length : Nat}
    (aligned : ∀ space ∈ spaces, unit ∣ space.offset ∧ unit ∣ space.stop)
    (startAligned : unit ∣ offset)
    (stopAligned : unit ∣ offset + length) :
    ∀ space ∈ spaceListRemove spaces offset length,
      unit ∣ space.offset ∧ unit ∣ space.stop := by
  intro space member
  obtain ⟨old, oldMember, -, -, start, stop⟩ :=
    origin_of_mem_spaceListRemove member
  obtain ⟨oldStart, oldStop⟩ := aligned old oldMember
  constructor
  · rcases start with equal | equal <;> rw [equal] <;> assumption
  · rcases stop with equal | equal <;> rw [equal] <;> assumption

/-! ## `remove_superblocks` -/

/-- The part of the free list of a chunk that one superblock stripe leaves. -/
def removeSuperblock (chunk : Chunk) (spaces : List Space) (superblock : Nat) :
    List Space :=
  if chunk.diskStart + chunk.length > superblock ∧
      chunk.diskStart < superblock + stripeLength then
    let start :=
      max chunk.offset
        ((wordSub superblock chunk.diskStart + chunk.offset) % wordModulus)
    let stop :=
      min (chunk.offset + chunk.length)
        ((wordSub (superblock + stripeLength) chunk.diskStart +
          chunk.offset) % wordModulus)
    spaceListRemove spaces start (wordSub stop start)
  else spaces

/-- Delete every superblock stripe from the free list of a chunk. -/
def removeSuperblocks (chunk : Chunk) : Chunk :=
  { chunk with
    spaceList :=
      superblockAddrs.foldl (removeSuperblock chunk) chunk.spaceList }

/-- Translating a disk address by a wrapping difference gives its virtual address. -/
theorem wordSub_add_offset
    {address diskStart : Nat}
    (small : address < 0x1000000000000000)
    (diskSmall : diskStart < 0x1000000000000000) :
    (wordSub address diskStart + (diskStart + chunkVirtOffset)) % wordModulus =
      address + chunkVirtOffset := by
  simp only [wordSub, wordModulus, chunkVirtOffset]
  omega

/-- A difference of ordered words does not wrap. -/
theorem wordSub_of_le
    {left right : Nat}
    (ordered : right ≤ left)
    (small : left < wordModulus) :
    wordSub left right = left - right := by
  rw [wordSub, Nat.sub_add_comm ordered, Nat.add_mod_right,
    Nat.mod_eq_of_lt ((Nat.sub_le _ _).trans_lt small)]

theorem superblockAddr_small
    {superblock : Nat} (member : superblock ∈ superblockAddrs) :
    superblock + stripeLength < 0x800000000000000 := by
  revert superblock
  decide

/-- The intersection of two half-open ranges, written with clipped ends. -/
theorem clipped_contains_iff (low low' high high' address : Nat) :
    (max low low' ≤ address ∧
        address < max low low' + (min high high' - max low low')) ↔
      (low ≤ address ∧ address < high) ∧
        (low' ≤ address ∧ address < high') := by
  omega

/-- The clipped ends of two ranges that meet are ordered. -/
theorem clipped_ordered
    {low low' length length' : Nat} (shift : Nat)
    (meets : low + length > low' ∧ low < low' + length') :
    max (low + shift) (low' + shift) ≤
      min (low + shift + length) (low' + length' + shift) := by
  omega

/--
In a chunk that is placed at the common virtual offset the wrapping bounds are
the intersection of the stripe with the chunk.
-/
theorem removeSuperblock_eq
    {chunk : Chunk} {superblock : Nat}
    (placed : chunk.offset = chunk.diskStart + chunkVirtOffset)
    (member : superblock ∈ superblockAddrs)
    (meets : chunk.diskStart + chunk.length > superblock ∧
      chunk.diskStart < superblock + stripeLength)
    (spaces : List Space) :
    removeSuperblock chunk spaces superblock =
      spaceListRemove spaces
        (max (chunk.diskStart + chunkVirtOffset)
          (superblock + chunkVirtOffset))
        (min (chunk.diskStart + chunkVirtOffset + chunk.length)
            (superblock + stripeLength + chunkVirtOffset) -
          max (chunk.diskStart + chunkVirtOffset)
            (superblock + chunkVirtOffset)) := by
  have small := superblockAddr_small member
  have diskSmall : chunk.diskStart < 0x1000000000000000 := by omega
  have startEq := wordSub_add_offset
    (show superblock < 0x1000000000000000 by omega) diskSmall
  have stopEq := wordSub_add_offset
    (show superblock + stripeLength < 0x1000000000000000 by omega) diskSmall
  rw [removeSuperblock, if_pos meets]
  simp only [placed, startEq, stopEq]
  rw [wordSub_of_le]
  · omega
  · refine (min_le_right _ _).trans_lt ?_
    simp only [wordModulus, chunkVirtOffset]
    omega

/-- One step removes the part of the stripe inside the chunk. -/
theorem removeSuperblock_spec
    {chunk : Chunk} {spaces : List Space} {superblock : Nat}
    (placed : chunk.offset = chunk.diskStart + chunkVirtOffset)
    (tidy : Tidy spaces)
    (member : superblock ∈ superblockAddrs) :
    Tidy (removeSuperblock chunk spaces superblock) ∧
      ∀ address,
        Covers (removeSuperblock chunk spaces superblock)
            (address + chunkVirtOffset) ↔
          Covers spaces (address + chunkVirtOffset) ∧
            ¬ (chunk.diskRange.Contains address ∧
              superblock ≤ address ∧ address < superblock + stripeLength) := by
  by_cases meets : chunk.diskStart + chunk.length > superblock ∧
      chunk.diskStart < superblock + stripeLength
  · rw [removeSuperblock_eq placed member meets]
    refine ⟨tidy_spaceListRemove tidy _ _, ?_⟩
    intro address
    rw [covers_spaceListRemove tidy, clipped_contains_iff,
      Nat.add_right_comm chunk.diskStart]
    simp only [Chunk.diskRange, Extent.contains_mk,
      Nat.add_le_add_iff_right, Nat.add_lt_add_iff_right]
  · rw [removeSuperblock, if_neg meets]
    refine ⟨tidy, ?_⟩
    intro address
    simp only [Chunk.diskRange, Extent.contains_mk, iff_self_and]
    omega

/-- One step only cuts spaces. -/
theorem origin_of_mem_removeSuperblock
    {chunk : Chunk} {spaces : List Space} {superblock : Nat} {space : Space}
    (member : space ∈ removeSuperblock chunk spaces superblock) :
    ∃ old ∈ spaces,
      old.offset ≤ space.offset ∧ space.stop ≤ old.stop := by
  rw [removeSuperblock] at member
  split_ifs at member
  · obtain ⟨old, oldMember, lower, upper, -⟩ :=
      origin_of_mem_spaceListRemove member
    exact ⟨old, oldMember, lower, upper⟩
  · exact ⟨space, member, le_rfl, le_rfl⟩

/-- In a stripe-aligned chunk one step keeps spaces stripe aligned. -/
theorem aligned_removeSuperblock
    {chunk : Chunk} {spaces : List Space} {superblock : Nat}
    (placed : chunk.offset = chunk.diskStart + chunkVirtOffset)
    (startAligned : stripeLength ∣ chunk.diskStart)
    (lengthAligned : stripeLength ∣ chunk.length)
    (aligned : ∀ space ∈ spaces,
      stripeLength ∣ space.offset ∧ stripeLength ∣ space.stop)
    (member : superblock ∈ superblockAddrs) :
    ∀ space ∈ removeSuperblock chunk spaces superblock,
      stripeLength ∣ space.offset ∧ stripeLength ∣ space.stop := by
  by_cases meets : chunk.diskStart + chunk.length > superblock ∧
      chunk.diskStart < superblock + stripeLength
  · have superblockAligned := stripeLength_dvd_superblockAddr member
    have virtualAligned : stripeLength ∣ chunkVirtOffset := by decide
    have start : stripeLength ∣ max (chunk.diskStart + chunkVirtOffset)
        (superblock + chunkVirtOffset) := by
      rcases max_choice (chunk.diskStart + chunkVirtOffset)
        (superblock + chunkVirtOffset) with equal | equal
      · rw [equal]
        exact startAligned.add virtualAligned
      · rw [equal]
        exact superblockAligned.add virtualAligned
    have stop :
        stripeLength ∣ min (chunk.diskStart + chunkVirtOffset + chunk.length)
          (superblock + stripeLength + chunkVirtOffset) := by
      rcases min_choice (chunk.diskStart + chunkVirtOffset + chunk.length)
        (superblock + stripeLength + chunkVirtOffset) with equal | equal
      · rw [equal]
        exact (startAligned.add virtualAligned).add lengthAligned
      · rw [equal]
        exact (superblockAligned.add dvd_rfl).add virtualAligned
    rw [removeSuperblock_eq placed member meets]
    apply aligned_spaceListRemove aligned start
    rw [Nat.add_sub_cancel' (clipped_ordered _ meets)]
    exact stop
  · rw [removeSuperblock, if_neg meets]
    exact aligned

theorem removeSuperblock_foldl_spec
    {chunk : Chunk}
    (placed : chunk.offset = chunk.diskStart + chunkVirtOffset)
    (superblocks : List Nat)
    (known : ∀ superblock ∈ superblocks, superblock ∈ superblockAddrs)
    {spaces : List Space} (tidy : Tidy spaces) :
    Tidy (superblocks.foldl (removeSuperblock chunk) spaces) ∧
      ∀ address,
        Covers (superblocks.foldl (removeSuperblock chunk) spaces)
            (address + chunkVirtOffset) ↔
          Covers spaces (address + chunkVirtOffset) ∧
            ¬ (chunk.diskRange.Contains address ∧
              ∃ superblock ∈ superblocks,
                superblock ≤ address ∧
                  address < superblock + stripeLength) := by
  induction superblocks generalizing spaces with
  | nil => simp [tidy]
  | cons superblock rest induction =>
      obtain ⟨stepTidy, stepCovers⟩ :=
        removeSuperblock_spec placed tidy (known superblock (by simp))
      obtain ⟨restTidy, restCovers⟩ :=
        induction (fun next member => known next (by simp [member])) stepTidy
      refine ⟨restTidy, ?_⟩
      intro address
      rw [List.foldl_cons, restCovers, stepCovers]
      simp only [List.mem_cons, exists_eq_or_imp, and_or_left, not_or,
        and_assoc]

@[simp]
theorem removeSuperblocks_offset (chunk : Chunk) :
    (removeSuperblocks chunk).offset = chunk.offset := rfl

@[simp]
theorem removeSuperblocks_length (chunk : Chunk) :
    (removeSuperblocks chunk).length = chunk.length := rfl

@[simp]
theorem removeSuperblocks_diskStart (chunk : Chunk) :
    (removeSuperblocks chunk).diskStart = chunk.diskStart := rfl

@[simp]
theorem removeSuperblocks_type (chunk : Chunk) :
    (removeSuperblocks chunk).type = chunk.type := rfl

@[simp]
theorem removeSuperblocks_added (chunk : Chunk) :
    (removeSuperblocks chunk).added = chunk.added := rfl

@[simp]
theorem removeSuperblocks_used (chunk : Chunk) :
    (removeSuperblocks chunk).used = chunk.used := rfl

/-- Every remaining space of a chunk is a part of an old one. -/
theorem origin_of_mem_removeSuperblocks
    {chunk : Chunk} {space : Space}
    (member : space ∈ (removeSuperblocks chunk).spaceList) :
    ∃ old ∈ chunk.spaceList,
      old.offset ≤ space.offset ∧ space.stop ≤ old.stop := by
  have general : ∀ (superblocks : List Nat) (spaces : List Space),
      space ∈ superblocks.foldl (removeSuperblock chunk) spaces →
        ∃ old ∈ spaces,
          old.offset ≤ space.offset ∧ space.stop ≤ old.stop := by
    intro superblocks
    induction superblocks with
    | nil =>
        intro spaces inSpaces
        exact ⟨space, inSpaces, le_rfl, le_rfl⟩
    | cons superblock rest induction =>
        intro spaces inRest
        obtain ⟨middle, middleMember, lower, upper⟩ := induction _ inRest
        obtain ⟨old, oldMember, lower', upper'⟩ :=
          origin_of_mem_removeSuperblock middleMember
        exact ⟨old, oldMember, lower'.trans lower, upper.trans upper'⟩
  exact general superblockAddrs chunk.spaceList member

theorem aligned_removeSuperblocks
    {chunk : Chunk}
    (placed : chunk.offset = chunk.diskStart + chunkVirtOffset)
    (startAligned : stripeLength ∣ chunk.diskStart)
    (lengthAligned : stripeLength ∣ chunk.length)
    (aligned : ∀ space ∈ chunk.spaceList,
      stripeLength ∣ space.offset ∧ stripeLength ∣ space.stop) :
    ∀ space ∈ (removeSuperblocks chunk).spaceList,
      stripeLength ∣ space.offset ∧ stripeLength ∣ space.stop := by
  have general : ∀ (superblocks : List Nat) (spaces : List Space),
      (∀ superblock ∈ superblocks, superblock ∈ superblockAddrs) →
      (∀ space ∈ spaces,
        stripeLength ∣ space.offset ∧ stripeLength ∣ space.stop) →
      ∀ space ∈ superblocks.foldl (removeSuperblock chunk) spaces,
        stripeLength ∣ space.offset ∧ stripeLength ∣ space.stop := by
    intro superblocks
    induction superblocks with
    | nil => exact fun _ _ spacesAligned => spacesAligned
    | cons superblock rest induction =>
        intro spaces known spacesAligned
        exact induction _ (fun next member => known next (by simp [member]))
          (aligned_removeSuperblock placed startAligned lengthAligned
            spacesAligned (known superblock (by simp)))
  exact general superblockAddrs chunk.spaceList (fun _ member => member) aligned

theorem tidy_removeSuperblocks
    {chunk : Chunk}
    (placed : chunk.offset = chunk.diskStart + chunkVirtOffset)
    (tidy : Tidy chunk.spaceList) :
    Tidy (removeSuperblocks chunk).spaceList :=
  (removeSuperblock_foldl_spec placed superblockAddrs
    (fun _ member => member) tidy).1

/-- Exactly the part of the superblock stripes inside the chunk is removed. -/
theorem free_removeSuperblocks_iff
    {chunk : Chunk}
    (placed : chunk.offset = chunk.diskStart + chunkVirtOffset)
    (tidy : Tidy chunk.spaceList)
    (address : Nat) :
    (removeSuperblocks chunk).Free address ↔
      chunk.Free address ∧
        ¬ (chunk.diskRange.Contains address ∧ InSuperblockStripe address) :=
  (removeSuperblock_foldl_spec placed superblockAddrs
    (fun _ member => member) tidy).2 address

end Ntfs2Btrfs
